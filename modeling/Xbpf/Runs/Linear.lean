import Mathlib.Data.Nat.Init
import Xbpf.Runs.Interleaving

/-!
# Programs of a single call

A program that makes a single call takes effect at that call, whatever the others do in the
meantime. So the programs of a pool whose calls were made, in the order of their calls, are a
`History` in which each of them runs on its own, one after the other. The history only grows.
A program that returned before another one entered therefore comes before it.
-/

namespace Runs

namespace Prog

variable {A : Type} {Reply : A → Type} {R S : Type}

def IsCall (p : Prog A Reply R) : Prop :=
  ∃ (a : A) (f : Reply a → R), p = .call a fun reply => .ret (f reply)

theorem isCall_perform (a : A) : (perform a : Prog A Reply (Reply a)).IsCall :=
  ⟨a, fun reply => reply, rfl⟩

theorem IsCall.bind {p : Prog A Reply R} {g : R → Prog A Reply S} (h : p.IsCall)
    (hg : ∀ r, ∃ s, g r = .ret s) : (p.bind g).IsCall := by
  obtain ⟨a, f, rfl⟩ := h
  choose after hafter using hg
  refine ⟨a, fun reply => after (f reply), ?_⟩
  rw [Prog.bind]
  congr 1
  funext reply
  exact hafter (f reply)

end Prog

namespace Pool

variable {σ A L R : Type} {Reply : A → Type} {act : (a : A) → σ → Reply a × σ}
  {prog : L → Prog A Reply R}

/-- Programs that run on their own, one after the other, and what they return. -/
inductive History (act : (a : A) → σ → Reply a × σ) (prog : L → Prog A Reply R) (s : σ) :
    List (L × R) → σ → Prop
  | nil : History act prog s [] s
  | snoc {before t label r u} (h : History act prog s before t)
      (hexec : Prog.exec act (prog label) t = (r, u)) :
      History act prog s (before ++ [(label, r)]) u

def outcome? (c : Running σ A Reply L R) : Option (L × R) :=
  match c.rest with
  | .ret r => some (c.label, r)
  | .call _ _ => none

/-- The programs that will make no more calls, and what they return. -/
def settled (p : Pool σ A Reply L R) : List (L × R) :=
  p.running.filterMap outcome? ++ p.returned.map fun r => (r.label, r.result)

theorem outcome?_sees (s : σ) (cs : List (Running σ A Reply L R)) :
    (cs.map (sees s)).filterMap outcome? = cs.filterMap outcome? := by
  rw [List.filterMap_map]
  rfl

/-- A program that makes a single call and is still running is about to make it or to
return. -/
def Pending (prog : L → Prog A Reply R) (p : Pool σ A Reply L R) : Prop :=
  ∀ c ∈ p.running, c.rest = prog c.label ∨ ∃ r, c.rest = .ret r

/-- The history of a pool, which holds the programs that made their calls. -/
structure Linearized (act : (a : A) → σ → Reply a × σ) (prog : L → Prog A Reply R) (s : σ)
    (history : List (L × R)) (p : Pool σ A Reply L R) : Prop where
  pending : Pending prog p
  perm : history.Perm p.settled
  history : History act prog s history p.now

section Single

variable {s : σ} {p p' : Pool σ A Reply L R} {history : List (L × R)}

theorem Pending.step (hcall : ∀ label, (prog label).IsCall) (h : Pending prog p)
    (hstep : Step act prog p p') : Pending prog p' := by
  cases hstep with
  | enter label =>
      intro c hc
      rcases List.mem_cons.mp hc with rfl | hc
      · exact .inl rfl
      · exact h c hc
  | @call before after label a next made seen reply post hpick hact =>
      intro c' hc'
      obtain ⟨c, hc, rfl⟩ := List.mem_map.mp hc'
      rcases List.mem_append.mp hc with hc | hc
      · exact h c (by rw [hpick]; exact List.mem_append_left _ hc)
      rcases List.mem_cons.mp hc with rfl | hc
      · obtain hrest | ⟨r, hrest⟩ :=
          h ⟨label, .call a next, made, seen⟩ (by rw [hpick]; simp)
        · obtain ⟨a', f, hprog⟩ := hcall label
          have hsame : Prog.call a next = .call a' fun reply => .ret (f reply) :=
            hrest.trans hprog
          cases hsame
          exact .inr ⟨_, rfl⟩
        · cases hrest
      · exact h c (by rw [hpick]; exact List.mem_append_right _ (List.mem_cons_of_mem _ hc))
  | leave hpick =>
      intro c hc
      refine h c ?_
      rw [hpick]
      rcases List.mem_append.mp hc with hc | hc
      · exact List.mem_append_left _ hc
      · exact List.mem_append_right _ (List.mem_cons_of_mem _ hc)

theorem Linearized.start (s : σ) : Linearized act prog s [] (start s) where
  pending _ hc := nomatch hc
  perm := List.Perm.refl []
  history := .nil

/-- A step adds at most one program to the history. -/
theorem Linearized.step (hcall : ∀ label, (prog label).IsCall)
    (h : Linearized act prog s history p) (hstep : Step act prog p p') :
    ∃ later, Linearized act prog s (history ++ later) p' := by
  have hpending := h.pending.step hcall hstep
  cases hstep with
  | enter label =>
      obtain ⟨a, f, hprog⟩ := hcall label
      refine ⟨[], hpending, ?_, by rw [List.append_nil]; exact h.history⟩
      rw [List.append_nil]
      refine h.perm.trans (List.Perm.of_eq ?_)
      rw [settled, settled, List.filterMap_cons, outcome?, hprog]
  | @call front after label a next made seen reply post hpick hact =>
      obtain ⟨a', f, hprog⟩ := hcall label
      obtain hrest | ⟨r, hrest⟩ :=
        h.pending ⟨label, .call a next, made, seen⟩ (by rw [hpick]; simp)
      · have hsame : Prog.call a next = .call a' fun reply => .ret (f reply) :=
          hrest.trans hprog
        cases hsame
        refine ⟨[(label, f reply)], hpending, ?_, h.history.snoc ?_⟩
        · refine (h.perm.append_right _).trans ?_
          rw [settled, settled, hpick, outcome?_sees]
          simp only [List.filterMap_append, List.filterMap_cons, outcome?, List.append_assoc]
          refine List.Perm.append_left _ ?_
          rw [← List.append_assoc]
          exact List.perm_append_singleton _ _
        · rw [hprog, Prog.exec, hact]
          rfl
      · cases hrest
  | @leave front after label r made seen hpick =>
      refine ⟨[], hpending, ?_, by rw [List.append_nil]; exact h.history⟩
      rw [List.append_nil]
      refine h.perm.trans ?_
      rw [settled, settled, hpick]
      simp only [List.filterMap_append, List.filterMap_cons, outcome?, List.map_cons,
        List.append_assoc]
      refine List.Perm.append_left _ ?_
      exact List.perm_middle.symm

/-- The history of a pool is continued as the pool runs on. -/
theorem Linearized.run (hcall : ∀ label, (prog label).IsCall)
    (h : Linearized act prog s history p)
    (hrun : Relation.ReflTransGen (Step act prog) p p') :
    ∃ later, Linearized act prog s (history ++ later) p' := by
  induction hrun with
  | refl => exact ⟨[], by rwa [List.append_nil]⟩
  | tail _ hstep ih =>
      obtain ⟨later, hlater⟩ := ih
      obtain ⟨last, hlast⟩ := hlater.step hcall hstep
      exact ⟨later ++ last, by rwa [← List.append_assoc]⟩

/-- The histories at all points of a run are the beginnings of one another. -/
theorem exists_histories (hcall : ∀ label, (prog label).IsCall)
    {path : ℕ → Pool σ A Reply L R} (hstart : path 0 = Pool.start s)
    (hpath : ∀ i, Relation.ReflTransGen (Step act prog) (path i) (path (i + 1))) :
    ∃ history : ℕ → List (L × R), (∀ i j, i ≤ j → history i <+: history j) ∧
      ∀ i, Linearized act prog s (history i) (path i) := by
  have hfirst : Linearized act prog s [] (path 0) := by
    rw [hstart]
    exact .start s
  have hnext : ∀ i (h : {h // Linearized act prog s h (path i)}),
      ∃ h' : {h // Linearized act prog s h (path (i + 1))}, h.1 <+: h'.1 := by
    intro i h
    obtain ⟨later, hlater⟩ := h.2.run hcall (hpath i)
    exact ⟨⟨h.1 ++ later, hlater⟩, List.prefix_append h.1 later⟩
  choose next hbegins using hnext
  let history : (i : ℕ) → {h // Linearized act prog s h (path i)} :=
    fun i => Nat.rec ⟨[], hfirst⟩ next i
  refine ⟨fun i => (history i).1, ?_, fun i => (history i).2⟩
  intro i j hij
  induction j, hij using Nat.le_induction with
  | base => exact List.prefix_rfl
  | succ j _ ih => exact ih.trans (hbegins j (history j))

end Single

end Pool

end Runs
