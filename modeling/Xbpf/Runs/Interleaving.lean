import Mathlib.Data.List.Perm.Basic
import Xbpf.Runs.Machine
import Xbpf.Runs.Program

/-!
# Interleaved programs

Any number of programs run side by side on one state, and a step of a `Pool` is a
call of one of them. A program can enter the pool at any time. Next to the state
the pool remembers all calls that were made, and for each program its own calls
and the states the pool was in since it entered.

Whatever the order of the steps, every call belongs to exactly one program, so
what each program ensures can be counted over all of them.
-/

namespace Runs

structure Running (σ A : Type) (Reply : A → Type) (L R : Type) where
  label : L
  rest : Prog A Reply R
  made : List (Made σ A Reply)
  seen : List σ

structure Returned (σ A : Type) (Reply : A → Type) (L R : Type) where
  label : L
  result : R
  made : List (Made σ A Reply)
  seen : List σ

/-- Programs that run side by side, and those that did. -/
structure Pool (σ A : Type) (Reply : A → Type) (L R : Type) where
  now : σ
  made : List (Made σ A Reply)
  running : List (Running σ A Reply L R)
  returned : List (Returned σ A Reply L R)

namespace Pool

variable {σ A L R : Type} {Reply : A → Type}

def start (s : σ) : Pool σ A Reply L R :=
  ⟨s, [], [], []⟩

/-- The pool gets into a new state while the program runs. -/
def sees (s : σ) (c : Running σ A Reply L R) : Running σ A Reply L R :=
  { c with seen := s :: c.seen }

/-- A program enters, makes its next call, or returns. -/
inductive Step (act : (a : A) → σ → Reply a × σ) (prog : L → Prog A Reply R) :
    Pool σ A Reply L R → Pool σ A Reply L R → Prop
  | enter (p : Pool σ A Reply L R) (label : L) :
      Step act prog p { p with running := ⟨label, prog label, [], [p.now]⟩ :: p.running }
  | call {p : Pool σ A Reply L R} {before after label a next made seen reply post}
      (hpick : p.running = before ++ ⟨label, .call a next, made, seen⟩ :: after)
      (hact : act a p.now = (reply, post)) :
      Step act prog p ⟨post, p.made ++ [⟨p.now, a, reply, post⟩],
        (before ++ ⟨label, next reply, made ++ [⟨p.now, a, reply, post⟩], seen⟩ ::
          after).map (sees post), p.returned⟩
  | leave {p : Pool σ A Reply L R} {before after label r made seen}
      (hpick : p.running = before ++ ⟨label, .ret r, made, seen⟩ :: after) :
      Step act prog p { p with
        running := before ++ after
        returned := ⟨label, r, made, seen⟩ :: p.returned }

/-- What holds of a pool however its programs are interleaved, if every call keeps
`inv`. -/
structure Sound (act : (a : A) → σ → Reply a × σ) (prog : L → Prog A Reply R)
    (inv : σ → Prop) (p : Pool σ A Reply L R) : Prop where
  now : inv p.now
  acted : ∀ m ∈ p.made, inv m.pre ∧ act m.action m.pre = (m.reply, m.post)
  calls : (p.running.flatMap Running.made ++ p.returned.flatMap Returned.made).Perm p.made
  running : ∀ c ∈ p.running, Prog.Leaves σ (prog c.label) c.made c.rest ∧
    (∀ m ∈ c.made, m.pre ∈ c.seen) ∧ p.now ∈ c.seen
  returned : ∀ r ∈ p.returned, Prog.Leaves σ (prog r.label) r.made (.ret r.result) ∧
    ∀ m ∈ r.made, m.pre ∈ r.seen

theorem flatMap_made_sees (s : σ) (cs : List (Running σ A Reply L R)) :
    (cs.map (sees s)).flatMap Running.made = cs.flatMap Running.made := by
  rw [List.flatMap_map]
  rfl

namespace Sound

variable {act : (a : A) → σ → Reply a × σ} {prog : L → Prog A Reply R} {inv : σ → Prop}
  {p p' : Pool σ A Reply L R}

theorem start {s : σ} (h : inv s) : Sound act prog inv (start s) where
  now := h
  acted := by simp [Pool.start]
  calls := List.Perm.refl []
  running := by simp [Pool.start]
  returned := by simp [Pool.start]

theorem running_sees (h : Sound act prog inv p) {c : Running σ A Reply L R}
    (hc : c ∈ p.running) (s : σ) :
    Prog.Leaves σ (prog c.label) c.made c.rest ∧
      (∀ m ∈ c.made, m.pre ∈ (sees s c).seen) ∧ s ∈ (sees s c).seen :=
  ⟨(h.running c hc).1, fun m hm => List.mem_cons_of_mem _ ((h.running c hc).2.1 m hm),
    List.mem_cons_self⟩

/-- The calls of all programs when one of them makes another one. -/
theorem calls_snoc (h : Sound act prog inv p) {before after : List (Running σ A Reply L R)}
    {c : Running σ A Reply L R} (hpick : p.running = before ++ c :: after)
    (m : Made σ A Reply) :
    (before.flatMap Running.made ++ (c.made ++ [m] ++ after.flatMap Running.made) ++
      p.returned.flatMap Returned.made).Perm (p.made ++ [m]) := by
  have hcalls := h.calls
  rw [hpick, List.flatMap_append, List.flatMap_cons] at hcalls
  refine List.Perm.trans ?_ (hcalls.append_right _)
  simp only [List.append_assoc]
  refine List.Perm.append_left _ (List.Perm.append_left _ ?_)
  rw [← List.append_assoc (after.flatMap Running.made)]
  exact List.perm_append_comm

theorem step (hinv : ∀ a s, inv s → inv (act a s).2) (h : Sound act prog inv p)
    (hstep : Step act prog p p') : Sound act prog inv p' := by
  cases hstep with
  | enter label =>
      refine { h with calls := by simpa using h.calls, running := ?_ }
      intro c hc
      rcases List.mem_cons.mp hc with rfl | hc
      · exact ⟨.refl _, by simp, by simp⟩
      · exact h.running c hc
  | @call before after label a next made seen reply post hpick hact =>
      obtain ⟨hleaves, hmade, hnow⟩ :=
        h.running ⟨label, .call a next, made, seen⟩ (by rw [hpick]; simp)
      constructor
      case now =>
        have hpost := hinv a p.now h.now
        rwa [hact] at hpost
      case acted =>
        intro m hm
        rcases List.mem_append.mp hm with hm | hm
        · exact h.acted m hm
        · rw [List.mem_singleton.mp hm]
          exact ⟨h.now, hact⟩
      case calls =>
        show ((List.map (sees post) _).flatMap Running.made ++ _).Perm _
        rw [flatMap_made_sees, List.flatMap_append, List.flatMap_cons]
        exact h.calls_snoc hpick _
      case running =>
        intro c' hc'
        obtain ⟨c, hc, rfl⟩ := List.mem_map.mp hc'
        rcases List.mem_append.mp hc with hc | hc
        · have hmem : c ∈ p.running := by rw [hpick]; simp [hc]
          exact h.running_sees hmem post
        · rcases List.mem_cons.mp hc with rfl | hc
          · refine ⟨hleaves.snoc p.now reply post, ?_, by simp [sees]⟩
            intro m hm
            refine List.mem_cons_of_mem _ ?_
            rcases List.mem_append.mp hm with hm | hm
            · exact hmade m hm
            · rw [List.mem_singleton.mp hm]
              exact hnow
          · have hmem : c ∈ p.running := by rw [hpick]; simp [hc]
            exact h.running_sees hmem post
      case returned => exact h.returned
  | @leave before after label r made seen hpick =>
      obtain ⟨hleaves, hmade, _⟩ :=
        h.running ⟨label, .ret r, made, seen⟩ (by rw [hpick]; simp)
      refine { h with calls := ?_, running := ?_, returned := ?_ }
      · have hcalls := h.calls
        rw [hpick] at hcalls
        simp only [List.flatMap_append, List.flatMap_cons, List.append_assoc] at hcalls ⊢
        refine List.Perm.trans (List.Perm.append_left _ ?_) hcalls
        exact List.perm_append_comm_assoc _ _ _
      · intro c hc
        refine h.running c ?_
        rw [hpick]
        rcases List.mem_append.mp hc with hc | hc <;> simp [hc]
      · intro r' hr'
        rcases List.mem_cons.mp hr' with rfl | hr'
        · exact ⟨hleaves, hmade⟩
        · exact h.returned r' hr'

theorem of_run (hinv : ∀ a s, inv s → inv (act a s).2) {s : σ} (hs : inv s)
    (hrun : Relation.ReflTransGen (Step act prog) (Pool.start s) p) : Sound act prog inv p :=
  invariant (fun _ _ h hstep => h.step hinv hstep) (.start hs) hrun

/-- What a program ensures, it ensures in any company. -/
theorem ensures (h : Sound act prog inv p) {Q : L → List (Made σ A Reply) → R → Prop}
    (hprog : ∀ label, (prog label).Ensures σ (Q label)) {r : Returned σ A Reply L R}
    (hr : r ∈ p.returned) : Q r.label r.made r.result :=
  hprog r.label r.made r.result (h.returned r hr).1

theorem mem_made (h : Sound act prog inv p) {r : Returned σ A Reply L R}
    (hr : r ∈ p.returned) {m : Made σ A Reply} (hm : m ∈ r.made) :
    m ∈ p.made ∧ m.pre ∈ r.seen :=
  ⟨h.calls.subset (List.mem_append_right _ (List.mem_flatMap.mpr ⟨r, hr, hm⟩)),
    (h.returned r hr).2 m hm⟩

theorem only (h : Sound act prog inv p) {P : A → Prop} (hprog : ∀ label, (prog label).Only P)
    {m : Made σ A Reply} (hm : m ∈ p.made) : P m.action := by
  rcases List.mem_append.mp (h.calls.mem_iff.mpr hm) with hm | hm
  · obtain ⟨c, hc, hm⟩ := List.mem_flatMap.mp hm
    exact (hprog c.label).of_leaves (h.running c hc).1 m hm
  · obtain ⟨r, hr, hm⟩ := List.mem_flatMap.mp hm
    exact (hprog r.label).of_leaves (h.returned r hr).1 m hm

theorem only_of_mem (h : Sound act prog inv p) {P : A → Prop}
    (hrunning : ∀ c ∈ p.running, (prog c.label).Only P)
    (hreturned : ∀ r ∈ p.returned, (prog r.label).Only P) {m : Made σ A Reply}
    (hm : m ∈ p.made) : P m.action := by
  rcases List.mem_append.mp (h.calls.mem_iff.mpr hm) with hm | hm
  · obtain ⟨c, hc, hm⟩ := List.mem_flatMap.mp hm
    exact (hrunning c hc).of_leaves (h.running c hc).1 m hm
  · obtain ⟨r, hr, hm⟩ := List.mem_flatMap.mp hm
    exact (hreturned r hr).of_leaves (h.returned r hr).1 m hm

theorem calls_of_split (h : Sound act prog inv p) {before after r}
    (hsplit : p.returned = before ++ r :: after) :
    ((p.running.flatMap Running.made ++ (before ++ after).flatMap Returned.made) ++
      r.made).Perm p.made := by
  have hcalls := h.calls
  rw [hsplit] at hcalls
  simp only [List.flatMap_append, List.flatMap_cons, List.append_assoc] at hcalls ⊢
  refine List.Perm.trans ?_ hcalls
  exact List.Perm.append_left _ (List.Perm.append_left _ List.perm_append_comm)

/-- If every program that returns a certain result made a certain call, there are at
least as many of these calls as of these results. -/
theorem countP_returned_le (h : Sound act prog inv p) {P : L → R → Bool}
    {Q : Made σ A Reply → Bool}
    (hprog : ∀ label, (prog label).Ensures σ fun made r => P label r = true → ∃ m ∈ made, Q m) :
    p.returned.countP (fun r => P r.label r.result) ≤ p.made.countP Q := by
  have hown : ∀ rs : List (Returned σ A Reply L R), (∀ r ∈ rs, r ∈ p.returned) →
      rs.countP (fun r => P r.label r.result) ≤ (rs.flatMap Returned.made).countP Q := by
    intro rs
    induction rs with
    | nil => simp
    | cons r rs ih =>
        intro hmem
        have hrest := ih fun r' hr' => hmem r' (List.mem_cons_of_mem r hr')
        rw [List.countP_cons, List.flatMap_cons, List.countP_append, Nat.add_comm]
        refine Nat.add_le_add ?_ hrest
        split
        · rename_i hP
          exact List.countP_pos_iff.mpr (h.ensures hprog (hmem r List.mem_cons_self) hP)
        · exact Nat.zero_le _
  refine Nat.le_trans (hown p.returned fun _ hr => hr) ?_
  rw [← h.calls.countP_eq, List.countP_append]
  exact Nat.le_add_left _ _

end Sound

section Balance

variable (b : σ → Bool)

def rises (m : Made σ A Reply) : Bool :=
  !b m.pre && b m.post

def falls (m : Made σ A Reply) : Bool :=
  b m.pre && !b m.post

/-- What is true has become so once more than it has become false, unless it was true
at first. -/
theorem balance {act : (a : A) → σ → Reply a × σ} {prog : L → Prog A Reply R} {s : σ}
    {p : Pool σ A Reply L R} (hrun : Relation.ReflTransGen (Step act prog) (start s) p) :
    (b s).toNat + p.made.countP (rises b) = (b p.now).toNat + p.made.countP (falls b) := by
  induction hrun with
  | refl => rfl
  | @tail p _ _ hstep ih =>
      cases hstep with
      | enter label => exact ih
      | leave hpick => exact ih
      | @call _ _ label a next made seen reply post hpick hact =>
          show _ + List.countP _ (p.made ++ _) = _ + List.countP _ (p.made ++ _)
          rw [List.countP_append, List.countP_append, ← Nat.add_assoc, ih]
          cases hpre : b p.now <;> cases hpost : b post <;>
            simp [rises, falls, hpre, hpost] <;> omega

/-- What is true stays true as long as no call turns it false. -/
theorem kept {act : (a : A) → σ → Reply a × σ} {prog : L → Prog A Reply R} {s : σ}
    {p : Pool σ A Reply L R} (hrun : Relation.ReflTransGen (Step act prog) (start s) p)
    (hs : b s = true) (hfalls : ∀ m ∈ p.made, falls b m = false) :
    b p.now = true ∧ ∀ m ∈ p.made, b m.pre = true := by
  induction hrun with
  | refl => exact ⟨hs, fun m hm => nomatch hm⟩
  | @tail p _ _ hstep ih =>
      cases hstep with
      | enter label => exact ih hfalls
      | leave hpick => exact ih hfalls
      | @call _ _ label a next made seen reply post hpick hact =>
          obtain ⟨hnow, hpre⟩ := ih fun m hm => hfalls m (List.mem_append_left _ hm)
          have hlast := hfalls ⟨p.now, a, reply, post⟩
            (List.mem_append_right _ (List.mem_singleton_self _))
          refine ⟨?_, fun m hm => ?_⟩
          · simpa [falls, hnow] using hlast
          · rcases List.mem_append.mp hm with hm | hm
            · exact hpre m hm
            · rw [List.mem_singleton.mp hm]
              exact hnow

/-- What a call has made true stays true as long as no call turns it false. -/
theorem kept_after {act : (a : A) → σ → Reply a × σ} {prog : L → Prog A Reply R} {s : σ}
    {p : Pool σ A Reply L R} (hrun : Relation.ReflTransGen (Step act prog) (start s) p)
    (hfalls : ∀ m ∈ p.made, falls b m = false) {m : Made σ A Reply} (hm : m ∈ p.made)
    (hpost : b m.post = true) : b p.now = true := by
  induction hrun with
  | refl => cases hm
  | @tail p _ _ hstep ih =>
      cases hstep with
      | enter label => exact ih hfalls hm
      | leave hpick => exact ih hfalls hm
      | @call _ _ label a next made seen reply post hpick hact =>
          rcases List.mem_append.mp hm with hm | hm
          · have hnow := ih (fun m hm => hfalls m (List.mem_append_left _ hm)) hm
            have hlast := hfalls ⟨p.now, a, reply, post⟩
              (List.mem_append_right _ (List.mem_singleton_self _))
            simpa [falls, hnow] using hlast
          · rw [List.mem_singleton.mp hm] at hpost
            exact hpost

end Balance

end Pool

end Runs
