import Xbpf.Collections.HashMapModel
import Xbpf.Runs.Program

/-!
# The operations as programs of system calls

An operation of a `HashMap` is not atomic: it makes one or two system calls, and
others can change the kernel map in between. As a `MapProg` an operation is the
program of its system calls. It may fail, and it panics if the assertion on the
number of bytes that a value is read from fails. Run on its own, the program of
every operation does what the operation does.
-/

namespace Xbpf

namespace Collections

open Runs Maps

inductive Syscall
  | lookup (key : List UInt8)
  | update (key value : List UInt8) (flag : UpdateFlag)
  | delete (key : List UInt8)
  deriving DecidableEq

namespace Syscall

def Reply : Syscall → Type
  | lookup _ => Except Error (Option (List UInt8))
  | update _ _ _ => Except Error Unit
  | delete _ => Except Error Unit

/-- A system call is atomic. -/
def act {κ : Type} [MapHandle κ] : (c : Syscall) → κ → c.Reply × κ
  | lookup key, h => (MapHandle.lookup h key, h)
  | update key value flag, h => MapHandle.update h key value flag
  | delete key, h => MapHandle.delete h key

end Syscall

abbrev MapProg (R : Type) := ExceptT Error (OptionT (Prog Syscall Syscall.Reply)) R

namespace MapProg

variable {R S : Type}

def lookup (key : List UInt8) : MapProg (Option (List UInt8)) :=
  ExceptT.mk (OptionT.lift (Prog.perform (Syscall.lookup key)))

def update (key value : List UInt8) (flag : UpdateFlag) : MapProg Unit :=
  ExceptT.mk (OptionT.lift (Prog.perform (Syscall.update key value flag)))

def delete (key : List UInt8) : MapProg Unit :=
  ExceptT.mk (OptionT.lift (Prog.perform (Syscall.delete key)))

def outcome (p : MapProg R) : MapProg (Except Error R) :=
  ExceptT.mk (do
    let r ← p.run
    pure (.ok r))

/-- The program as a computation on a kernel map that nothing else changes. -/
def alone {κ : Type} [MapHandle κ] (p : MapProg R) : MapOp κ R :=
  ExceptT.mk fun h =>
    (Prog.exec Syscall.act p.run.run h).1.map fun r =>
      (r, (Prog.exec Syscall.act p.run.run h).2)

end MapProg

namespace Client

open MapProg

variable {K V : Type} [Pod K] [Pod V]

def reads (bytes : List UInt8) : MapProg V :=
  ExceptT.mk (OptionT.mk (pure ((podFromBytes bytes).map .ok)))

def get (key : K) : MapProg (Option V) := do
  match ← lookup (podBytes key) with
  | some bytes => some <$> reads bytes
  | none => pure none

def update (key : K) (value : V) : MapProg Unit :=
  MapProg.update (podBytes key) (podBytes value) .any

def delete (key : K) : MapProg Unit :=
  MapProg.delete (podBytes key)

variable (V) in
def containsKey (key : K) : MapProg Bool := do
  let value : Option V ← get key
  pure value.isSome

def insert (key : K) (value : V) : MapProg (Option V) := do
  let old ← get key
  update key value
  pure old

def insertNew (key : K) (value : V) : MapProg Bool := do
  match ← outcome (MapProg.update (podBytes key) (podBytes value) .noExist) with
  | .ok () => pure true
  | .error err => if err.kind = .alreadyExists then pure false else throw err

def replace (key : K) (value : V) : MapProg Bool := do
  match ← outcome (MapProg.update (podBytes key) (podBytes value) .exist) with
  | .ok () => pure true
  | .error err => if err.kind = .notFound then pure false else throw err

def remove (key : K) : MapProg (Option V) := do
  let old : Option V ← get key
  if old.isSome then delete key
  pure old

def prog : Call K V → MapProg (Answer V)
  | .get key => .value <$> get key
  | .containsKey key => .flag <$> containsKey V key
  | .insert key value => .value <$> insert key value
  | .update key value => (fun _ => .done) <$> update key value
  | .insertNew key value => .flag <$> insertNew key value
  | .replace key value => .flag <$> replace key value
  | .remove key => .value <$> remove key
  | .delete key => (fun _ => .done) <$> delete key

end Client

namespace MapProg

variable {κ R S : Type} [MapHandle κ]

def andThen (f : R → MapProg S) :
    Option (Except Error R) → Prog Syscall Syscall.Reply (Option (Except Error S))
  | some (.ok r) => (f r).run.run
  | some (.error err) => .ret (some (.error err))
  | none => .ret none

theorem run_bind (p : MapProg R) (f : R → MapProg S) :
    (p >>= f).run.run = p.run.run.bind (andThen f) := by
  show Prog.bind _ _ = Prog.bind _ _
  congr 1
  funext r
  rcases r with _ | _ | _ <;> rfl

theorem alone_bind (p : MapProg R) (f : R → MapProg S) :
    alone (p >>= f) = (alone p >>= fun r => alone (f r) : MapOp κ S) := by
  funext h
  have hexec := Prog.exec_bind Syscall.act p.run.run (andThen f) h
  show (Prog.exec Syscall.act (p >>= f).run.run h).1.map _ =
    Option.bind ((Prog.exec Syscall.act p.run.run h).1.map _) _
  rw [run_bind]
  change Prog.exec Syscall.act (p.run.run.bind (andThen f)) h = _ at hexec
  rw [hexec]
  rcases (Prog.exec Syscall.act p.run.run h).1 with _ | _ | _ <;> rfl

theorem alone_map (f : R → S) (p : MapProg R) :
    alone (f <$> p) = (f <$> alone p : MapOp κ S) := by
  have hleft : f <$> p = p >>= fun r => pure (f r) :=
    congrArg (fun k => (p.run >>= k : OptionT (Prog Syscall Syscall.Reply) _))
      (funext fun r => by cases r <;> rfl)
  rw [hleft, map_eq_pure_bind, alone_bind]
  rfl

theorem alone_lookup (key : List UInt8) :
    alone (lookup key) = (MapOp.reading fun h => MapHandle.lookup h key : MapOp κ _) :=
  rfl

theorem alone_update (key value : List UInt8) (flag : UpdateFlag) :
    alone (update key value flag) =
      (MapOp.calling fun h => MapHandle.update h key value flag : MapOp κ Unit) :=
  rfl

theorem alone_delete (key : List UInt8) :
    alone (delete key) = (MapOp.calling fun h => MapHandle.delete h key : MapOp κ Unit) :=
  rfl

def settled (r : Option (Except Error R)) :
    Prog Syscall Syscall.Reply (Option (Except Error (Except Error R))) :=
  .ret (r.map Except.ok)

theorem run_outcome (p : MapProg R) : (outcome p).run.run = p.run.run.bind settled := by
  show Prog.bind _ _ = Prog.bind _ _
  congr 1
  funext r
  cases r <;> rfl

theorem alone_outcome (p : MapProg R) :
    alone (outcome p) = (MapOp.outcome (alone p) : MapOp κ (Except Error R)) := by
  funext h
  have hexec := Prog.exec_bind Syscall.act p.run.run settled h
  show (Prog.exec Syscall.act (outcome p).run.run h).1.map _ =
    Option.bind ((Prog.exec Syscall.act p.run.run h).1.map _) _
  rw [run_outcome]
  change Prog.exec Syscall.act (p.run.run.bind settled) h = _ at hexec
  rw [hexec]
  cases (Prog.exec Syscall.act p.run.run h).1 <;> rfl

end MapProg

namespace Client

open MapProg

variable {κ K V : Type} [MapHandle κ] [Pod K] [Pod V]

theorem alone_reads (bytes : List UInt8) :
    alone (reads bytes) = (HashMap.reads bytes : MapOp κ V) := by
  funext h
  show ((podFromBytes bytes).map _).map _ = (podFromBytes bytes).map _
  rw [Option.map_map]
  rfl

theorem alone_get (key : K) : alone (get key) = (HashMap.get key : MapOp κ (Option V)) := by
  rw [get, HashMap.get, alone_bind, alone_lookup]
  congr 1
  funext bytes
  cases bytes with
  | none => rfl
  | some bytes =>
      show alone (some <$> reads bytes) = some <$> HashMap.reads bytes
      rw [alone_map, alone_reads]

theorem alone_update (key : K) (value : V) :
    alone (update key value) = (HashMap.update key value : MapOp κ Unit) :=
  rfl

theorem alone_delete (key : K) : alone (delete key) = (HashMap.delete key : MapOp κ Unit) :=
  rfl

theorem alone_containsKey (key : K) :
    alone (containsKey V key) = (HashMap.containsKey V key : MapOp κ Bool) := by
  rw [containsKey, HashMap.containsKey, alone_bind, alone_get]
  rfl

theorem alone_insert (key : K) (value : V) :
    alone (insert key value) = (HashMap.insert key value : MapOp κ (Option V)) := by
  rw [insert, HashMap.insert, alone_bind, alone_get]
  congr 1
  funext old
  rw [alone_bind]
  rfl

theorem alone_insertNew (key : K) (value : V) :
    alone (insertNew key value) = (HashMap.insertNew key value : MapOp κ Bool) := by
  rw [insertNew, HashMap.insertNew, alone_bind, alone_outcome]
  congr 1
  funext r
  cases r with
  | ok r => rfl
  | error err =>
      by_cases hkind : err.kind = .alreadyExists
      · simp only [hkind, if_true]
        rfl
      · simp only [hkind, if_false]
        rfl

theorem alone_replace (key : K) (value : V) :
    alone (replace key value) = (HashMap.replace key value : MapOp κ Bool) := by
  rw [replace, HashMap.replace, alone_bind, alone_outcome]
  congr 1
  funext r
  cases r with
  | ok r => rfl
  | error err =>
      by_cases hkind : err.kind = .notFound
      · simp only [hkind, if_true]
        rfl
      · simp only [hkind, if_false]
        rfl

theorem alone_remove (key : K) :
    alone (remove key) = (HashMap.remove key : MapOp κ (Option V)) := by
  rw [remove, HashMap.remove, alone_bind, alone_get]
  congr 1
  funext old
  cases old with
  | none => rfl
  | some old =>
      simp only [Option.isSome_some, if_true]
      rw [alone_bind]
      rfl

/-- A call that nothing interferes with does what its operation does. -/
theorem alone_prog (call : Call K V) : alone (prog call) = (call.op : MapOp κ (Answer V)) := by
  cases call with
  | get key => rw [prog, Call.op, alone_map, alone_get]
  | containsKey key => rw [prog, Call.op, alone_map, alone_containsKey]
  | insert key value => rw [prog, Call.op, alone_map, alone_insert]
  | update key value => rw [prog, Call.op, alone_map, alone_update]
  | insertNew key value => rw [prog, Call.op, alone_map, alone_insertNew]
  | replace key value => rw [prog, Call.op, alone_map, alone_replace]
  | remove key => rw [prog, Call.op, alone_map, alone_remove]
  | delete key => rw [prog, Call.op, alone_map, alone_delete]

end Client

end Collections

end Xbpf
