import Xbpf.Collections.Client
import Xbpf.Runs.Linear

/-!
# Clients of single system calls

All operations but `insert` and `remove` make a single system call. Clients that keep to
these are linearized: there is an order of their calls, which does not contradict the times
at which they began and returned, such that each of them returned what a finite map of the
same capacity answers if it is called in that order.
-/

namespace Xbpf

namespace Collections

open Runs Maps HashMap

section Atomic

variable {K V : Type}

def Call.isAtomic : Call K V → Bool
  | insert _ _ => false
  | remove _ => false
  | _ => true

variable (K V) in
/-- An operation that makes a single system call, with its arguments. -/
abbrev AtomicCall := {call : Call K V // call.isAtomic = true}

end Atomic

namespace MapProg

variable {R S : Type}

theorem run_map (p : MapProg R) (f : R → S) :
    (f <$> p).run.run = p.run.run.bind fun r => .ret (r.map fun r => r.map f) := by
  show Prog.bind _ _ = Prog.bind _ _
  congr 1
  funext r
  rcases r with _ | _ | _ <;> rfl

theorem isCall_map {p : MapProg R} (h : p.run.run.IsCall) (f : R → S) :
    (f <$> p).run.run.IsCall := by
  rw [run_map]
  exact Prog.IsCall.bind h fun r => ⟨_, rfl⟩

theorem isCall_bind {p : MapProg R} (h : p.run.run.IsCall) {f : R → MapProg S}
    (hf : ∀ r, ∃ x, (f r).run.run = .ret x) : (p >>= f).run.run.IsCall := by
  rw [run_bind]
  refine Prog.IsCall.bind h fun r => ?_
  rcases r with _ | err | r
  · exact ⟨_, rfl⟩
  · exact ⟨_, rfl⟩
  · exact hf r

theorem isCall_lookup (key : List UInt8) : (lookup key).run.run.IsCall :=
  ⟨.lookup key, _, rfl⟩

theorem isCall_update (key value : List UInt8) (flag : UpdateFlag) :
    (update key value flag).run.run.IsCall :=
  ⟨.update key value flag, _, rfl⟩

theorem isCall_delete (key : List UInt8) : (delete key).run.run.IsCall :=
  ⟨.delete key, _, rfl⟩

theorem isCall_outcome {p : MapProg R} (h : p.run.run.IsCall) :
    (outcome p).run.run.IsCall := by
  rw [run_outcome]
  exact Prog.IsCall.bind h fun r => ⟨_, rfl⟩

end MapProg

namespace Client

open MapProg

variable {K V : Type} [Pod K] [Pod V]

theorem isCall_get (key : K) : (get key : MapProg (Option V)).run.run.IsCall := by
  refine isCall_bind (isCall_lookup _) fun bytes => ?_
  cases bytes with
  | none => exact ⟨_, rfl⟩
  | some bytes =>
      exact ⟨_, run_map (reads bytes : MapProg V) some⟩

theorem isCall_prog {call : Call K V} (h : call.isAtomic = true) :
    (prog call).run.run.IsCall := by
  cases call with
  | get key => exact isCall_map (isCall_get key) _
  | containsKey key => exact isCall_map (isCall_bind (isCall_get key) fun _ => ⟨_, rfl⟩) _
  | insert key value => cases h
  | update key value => exact isCall_map (isCall_update _ _ _) _
  | insertNew key value =>
      refine isCall_map (isCall_bind (isCall_outcome (isCall_update _ _ _)) fun r => ?_) _
      rcases r with err | ⟨⟩
      · by_cases hkind : err.kind = .alreadyExists
        · exact ⟨_, by simp only [hkind, if_true]; rfl⟩
        · exact ⟨_, by simp only [hkind, if_false]; rfl⟩
      · exact ⟨_, rfl⟩
  | replace key value =>
      refine isCall_map (isCall_bind (isCall_outcome (isCall_update _ _ _)) fun r => ?_) _
      rcases r with err | ⟨⟩
      · by_cases hkind : err.kind = .notFound
        · exact ⟨_, by simp only [hkind, if_true]; rfl⟩
        · exact ⟨_, by simp only [hkind, if_false]; rfl⟩
      · exact ⟨_, rfl⟩
  | remove key => cases h
  | delete key => exact isCall_map (isCall_delete _) _

end Client

section Clients

variable (κ K V : Type)

abbrev AtomicClients :=
  Pool κ Syscall Syscall.Reply (AtomicCall K V) (Option (Except Error (Answer V)))

variable {κ K V} [MapHandle κ] [Pod K] [Pod V]

def AtomicCall.prog (call : AtomicCall K V) :
    Prog Syscall Syscall.Reply (Option (Except Error (Answer V))) :=
  (Client.prog call.1).run.run

abbrev AtomicClients.Step : AtomicClients κ K V → AtomicClients κ K V → Prop :=
  Pool.Step Syscall.act AtomicCall.prog

variable [DecidableEq K] {h₀ h : κ} {m₀ m : BoundedMap K V}

theorem exec_prog (hm : Represents h m) (call : Call K V) :
    ∃ r h', Prog.exec Syscall.act (Client.prog call).run.run h = (some r, h') ∧
      r.toOption = (call.answer m).2 ∧ Represents h' (call.answer m).1 := by
  obtain ⟨r, h', hrun, hanswer, hm', _⟩ := answers_call hm call
  rw [← Client.alone_prog] at hrun
  obtain ⟨r', hr', heq⟩ := Option.map_eq_some_iff.mp hrun
  cases heq
  exact ⟨_, _, Prod.ext hr' rfl, hanswer, hm'⟩

/-- The calls of a history, and what they return. -/
def callsOf (history : List (AtomicCall K V × Option (Except Error (Answer V)))) :
    List (Call K V) :=
  history.map fun x => x.1.1

/-- What the calls of a history return, where an error is `none`. -/
def answersOf (history : List (AtomicCall K V × Option (Except Error (Answer V)))) :
    List (Option (Option (Answer V))) :=
  history.map fun x => x.2.map Except.toOption

/-- Calls one after the other return the answers of the finite map. -/
theorem answers_of_history (hm₀ : Represents h₀ m₀)
    {history : List (AtomicCall K V × Option (Except Error (Answer V)))}
    (hhistory : Pool.History Syscall.act AtomicCall.prog h₀ history h) :
    answersOf history = (Runs.run Call.answer m₀ (callsOf history)).2.map some ∧
      Represents h (Runs.run Call.answer m₀ (callsOf history)).1 := by
  induction hhistory with
  | nil => exact ⟨rfl, hm₀⟩
  | @snoc before t call r u _ hexec ih =>
      obtain ⟨hanswers, hm⟩ := ih
      obtain ⟨r', h', hexec', hanswer, hm'⟩ := exec_prog hm call.1
      obtain ⟨rfl, rfl⟩ := Prod.mk.inj (hexec.symm.trans hexec')
      have hcalls : callsOf (before ++ [(call, some r')]) = callsOf before ++ [call.1] := by
        rw [callsOf, List.map_append]
        rfl
      rw [hcalls, Runs.run_append]
      refine ⟨?_, hm'⟩
      rw [List.map_append, ← hanswers, answersOf, List.map_append]
      show _ ++ [some r'.toOption] = _
      rw [hanswer]
      rfl

end Clients

def twice {σ : Type} (s s' : σ) : ℕ → σ
  | 0 => s
  | _ + 1 => s'

end Collections

end Xbpf
