import Mathlib.Data.List.Basic

/-!
# Computations that may stop midway

A computation changes a state and either returns a value or stops with an error.
What it changed before it stopped stays changed. `Ends` says how a computation
ends from a state: in which states it returns which values, and in which states
it may be left when it stops.
-/

namespace Runs

/-- A computation over a state that may stop with an error. -/
abbrev Fallible (ε σ α : Type) := ExceptT ε (StateM σ) α

namespace Fallible

variable {ε σ α β : Type}

def exec (m : Fallible ε σ α) (s : σ) : Except ε α × σ :=
  StateT.run (ExceptT.run m) s

/-- A change of the state that is made as a whole or refused. -/
def attempt (op : σ → Option σ) (e : ε) : Fallible ε σ Unit := do
  match op (← get) with
  | some s => set s
  | none => throw e

def attempt? (op : σ → Option σ) : Fallible ε σ Unit :=
  modify fun s => (op s).getD s

def mapError {ε' : Type} (f : ε → ε') (m : Fallible ε σ α) : Fallible ε' σ α :=
  ExceptT.adapt f m

theorem exec_mapError {ε' : Type} (f : ε → ε') (m : Fallible ε σ α) (s : σ) :
    exec (mapError f m) s = ((exec m s).1.mapError f, (exec m s).2) :=
  rfl

theorem exec_mapError_eq_ok {ε' : Type} {f : ε → ε'} {m : Fallible ε σ α} {s s' : σ} {a : α} :
    exec (mapError f m) s = (.ok a, s') ↔ exec m s = (.ok a, s') := by
  rw [exec_mapError]
  rcases exec m s with ⟨_ | _, _⟩ <;> simp [Except.mapError]

theorem exec_attempt (op : σ → Option σ) (e : ε) (s : σ) :
    exec (attempt op e) s =
      match op s with
      | some s' => (.ok (), s')
      | none => (.error e, s) := by
  change exec (match op s with | some s => set s | none => throw e) s = _
  cases op s <;> rfl

theorem exec_bind (m : Fallible ε σ α) (f : α → Fallible ε σ β) (s : σ) :
    exec (m >>= f) s =
      match (exec m s).1 with
      | .ok a => exec (f a) (exec m s).2
      | .error e => (.error e, (exec m s).2) := by
  change (match (exec m s).1 with
    | .ok a => f a
    | .error e => fun s => (.error e, s) : StateM σ (Except ε β)) (exec m s).2 = _
  cases (exec m s).1 <;> rfl

theorem exec_bind_eq_ok {m : Fallible ε σ α} {f : α → Fallible ε σ β} {s s' : σ} {b : β}
    (h : exec (m >>= f) s = (.ok b, s')) :
    ∃ a s₁, exec m s = (.ok a, s₁) ∧ exec (f a) s₁ = (.ok b, s') := by
  rw [exec_bind] at h
  cases hout : (exec m s).1 with
  | error e =>
      rw [hout] at h
      cases h
  | ok a =>
      rw [hout] at h
      exact ⟨a, (exec m s).2, by rw [← hout], h⟩

/-- From `s` the computation returns as `done` says, or is left as `stopped` says. -/
def Ends (m : Fallible ε σ α) (s : σ) (done : α → σ → Prop) (stopped : σ → Prop) : Prop :=
  match (exec m s).1 with
  | .ok a => done a (exec m s).2
  | .error _ => stopped (exec m s).2

namespace Ends

variable {m : Fallible ε σ α} {s : σ} {done : α → σ → Prop} {stopped : σ → Prop}

theorem of_exec {a : α} {s' : σ} (hexec : exec m s = (.ok a, s')) (h : done a s') :
    Ends m s done stopped := by
  rw [Ends, hexec]
  exact h

theorem of_exec_eq_ok (h : Ends m s done stopped) {a : α} {s' : σ}
    (hexec : exec m s = (.ok a, s')) : done a s' := by
  simpa [Ends, hexec] using h

theorem exists_exec_eq_ok (h : Ends m s done stopped) (hnot : ∀ s', ¬ stopped s') :
    ∃ a s', exec m s = (.ok a, s') ∧ done a s' := by
  unfold Ends at h
  cases hout : (exec m s).1 with
  | error e =>
      rw [hout] at h
      exact absurd h (hnot _)
  | ok a =>
      rw [hout] at h
      exact ⟨a, (exec m s).2, by rw [← hout], h⟩

theorem left {inv : σ → Prop} (h : Ends m s (fun _ => inv) inv) : inv (exec m s).2 := by
  unfold Ends at h
  cases hout : (exec m s).1 with
  | ok a => rwa [hout] at h
  | error e => rwa [hout] at h

theorem mono (h : Ends m s done stopped) {done' : α → σ → Prop} {stopped' : σ → Prop}
    (hdone : ∀ a s', done a s' → done' a s') (hstopped : ∀ s', stopped s' → stopped' s') :
    Ends m s done' stopped' := by
  unfold Ends at h ⊢
  cases hout : (exec m s).1 with
  | ok a =>
      rw [hout] at h
      exact hdone a _ h
  | error e =>
      rw [hout] at h
      exact hstopped _ h

theorem and {done' : α → σ → Prop} (h : Ends m s done stopped) (h' : Ends m s done' stopped) :
    Ends m s (fun a s' => done a s' ∧ done' a s') stopped := by
  unfold Ends at *
  cases hout : (exec m s).1 with
  | ok a =>
      rw [hout] at h h'
      exact ⟨h, h'⟩
  | error e =>
      rw [hout] at h
      exact h

theorem pure {a : α} (h : done a s) :
    Ends (Pure.pure a : Fallible ε σ α) s done stopped :=
  h

theorem throw {e : ε} (h : stopped s) :
    Ends (MonadExcept.throw e : Fallible ε σ α) s done stopped :=
  h

theorem get {done : σ → σ → Prop} (h : done s s) :
    Ends (MonadState.get : Fallible ε σ σ) s done stopped :=
  h

theorem attempt {op : σ → Option σ} {e : ε} {done : Unit → σ → Prop}
    (hsome : ∀ s', op s = some s' → done () s') (hnone : op s = none → stopped s) :
    Ends (Fallible.attempt op e) s done stopped := by
  unfold Ends
  rw [exec_attempt]
  cases hop : op s with
  | none => exact hnone hop
  | some s' => exact hsome s' hop

theorem attempt? {op : σ → Option σ} {done : Unit → σ → Prop}
    (h : done () ((op s).getD s)) :
    Ends (Fallible.attempt? op : Fallible ε σ Unit) s done stopped :=
  h

theorem mapError {ε' : Type} {f : ε → ε'} (h : Ends m s done stopped) :
    Ends (Fallible.mapError f m) s done stopped := by
  unfold Ends at h ⊢
  rw [exec_mapError]
  cases hout : (exec m s).1 with
  | ok a =>
      rw [hout] at h
      exact h
  | error e =>
      rw [hout] at h
      exact h

theorem bind_iff {f : α → Fallible ε σ β} {done : β → σ → Prop} :
    Ends (m >>= f) s done stopped ↔
      Ends m s (fun a s' => Ends (f a) s' done stopped) stopped := by
  unfold Ends
  rw [exec_bind]
  cases hout : (exec m s).1 with
  | ok a => rfl
  | error e => rfl

theorem bind {f : α → Fallible ε σ β} {done : β → σ → Prop}
    (h : Ends m s (fun a s' => Ends (f a) s' done stopped) stopped) :
    Ends (m >>= f) s done stopped :=
  bind_iff.mpr h

theorem forM_append {as bs : List α} {f : α → Fallible ε σ PUnit} {done : PUnit → σ → Prop}
    (h : Ends (as.forM f) s (fun _ s' => Ends (bs.forM f) s' done stopped) stopped) :
    Ends ((as ++ bs).forM f) s done stopped := by
  induction as generalizing s with
  | nil => exact h
  | cons a as ih => exact bind ((bind_iff.mp h).mono (fun _ _ h => ih h) fun _ h => h)

/-- An invariant that speaks of the elements treated so far. -/
theorem forM {as : List α} {f : α → Fallible ε σ PUnit} {I : List α → σ → Prop}
    (hinit : I [] s)
    (hstep : ∀ before a after s, as = before ++ a :: after → I before s →
      Ends (f a) s (fun _ => I (before ++ [a])) stopped) :
    Ends (as.forM f) s (fun _ => I as) stopped := by
  suffices h : ∀ after before s, as = before ++ after → I before s →
      Ends (after.forM f) s (fun _ => I as) stopped from h as [] s rfl hinit
  intro after
  induction after with
  | nil =>
      intro before s has hinv
      rw [List.append_nil] at has
      exact Ends.pure (has ▸ hinv)
  | cons a after ih =>
      intro before s has hinv
      refine Ends.bind ((hstep before a after s has hinv).mono ?_ fun _ h => h)
      intro _ s' hinv'
      exact ih (before ++ [a]) s' (by simpa using has) hinv'

theorem mapM {as : List α} {f : α → Fallible ε σ β} {I : List α → σ → Prop}
    (hinit : I [] s)
    (hstep : ∀ before a after s, as = before ++ a :: after → I before s →
      Ends (f a) s (fun _ => I (before ++ [a])) stopped) :
    Ends (as.mapM f) s (fun _ => I as) stopped := by
  suffices h : ∀ after before s, as = before ++ after → I before s →
      Ends (after.mapM f) s (fun _ => I as) stopped from h as [] s rfl hinit
  intro after
  induction after with
  | nil =>
      intro before s has hinv
      rw [List.append_nil] at has
      exact Ends.pure (has ▸ hinv)
  | cons a after ih =>
      intro before s has hinv
      rw [List.mapM_cons]
      refine Ends.bind ((hstep before a after s has hinv).mono ?_ fun _ h => h)
      intro b s' hinv'
      refine Ends.bind ((ih (before ++ [a]) s' (by simpa using has) hinv').mono ?_ fun _ h => h)
      intro bs s'' hinv''
      exact Ends.pure hinv''

end Ends

/-- From `s` the computation returns as `done` says, or stops with an error as `thrown`
says. -/
def Yields (m : Fallible ε σ α) (s : σ) (done : α → σ → Prop) (thrown : ε → Prop) : Prop :=
  match (exec m s).1 with
  | .ok a => done a (exec m s).2
  | .error e => thrown e

namespace Yields

variable {m : Fallible ε σ α} {s : σ} {done : α → σ → Prop} {thrown : ε → Prop}

theorem of_ends {stopped : σ → Prop} (h : Ends m s done stopped) (hnot : ∀ s', ¬ stopped s') :
    Yields m s done thrown := by
  obtain ⟨a, s', hexec, hdone⟩ := h.exists_exec_eq_ok hnot
  rw [Yields, hexec]
  exact hdone

/-- How a computation returns and with which errors it stops can be shown apart. -/
theorem and_ends {done' : α → σ → Prop} {stopped : σ → Prop} (h : Yields m s done thrown)
    (hends : Ends m s done' stopped) :
    Yields m s (fun a s' => done a s' ∧ done' a s') thrown := by
  unfold Yields Ends at *
  cases hout : (exec m s).1 with
  | ok a =>
      rw [hout] at h hends
      exact ⟨h, hends⟩
  | error e =>
      rw [hout] at h
      exact h

theorem exists_exec_eq_ok (h : Yields m s done thrown) (hnot : ∀ e, ¬ thrown e) :
    ∃ a s', exec m s = (.ok a, s') ∧ done a s' := by
  unfold Yields at h
  cases hout : (exec m s).1 with
  | ok a =>
      rw [hout] at h
      exact ⟨a, (exec m s).2, by rw [← hout], h⟩
  | error e =>
      rw [hout] at h
      exact absurd h (hnot e)

theorem mono (h : Yields m s done thrown) {done' : α → σ → Prop} {thrown' : ε → Prop}
    (hdone : ∀ a s', done a s' → done' a s') (hthrown : ∀ e, thrown e → thrown' e) :
    Yields m s done' thrown' := by
  unfold Yields at h ⊢
  cases hout : (exec m s).1 with
  | ok a =>
      rw [hout] at h
      exact hdone a _ h
  | error e =>
      rw [hout] at h
      exact hthrown e h

theorem eq_error (h : Yields m s (fun _ _ => False) thrown) :
    ∃ e, thrown e ∧ (exec m s).1 = .error e := by
  unfold Yields at h
  cases hout : (exec m s).1 with
  | ok a =>
      rw [hout] at h
      exact h.elim
  | error e =>
      rw [hout] at h
      exact ⟨e, h, rfl⟩

theorem ne_error (h : Yields m s done thrown) {e : ε} (he : ¬ thrown e) :
    (exec m s).1 ≠ .error e := by
  intro heq
  rw [Yields, heq] at h
  exact he h

theorem pure {a : α} (h : done a s) :
    Yields (Pure.pure a : Fallible ε σ α) s done thrown :=
  h

theorem throw {e : ε} (h : thrown e) :
    Yields (MonadExcept.throw e : Fallible ε σ α) s done thrown :=
  h

theorem get {done : σ → σ → Prop} (h : done s s) :
    Yields (MonadState.get : Fallible ε σ σ) s done thrown :=
  h

theorem attempt {op : σ → Option σ} {e : ε} {done : Unit → σ → Prop}
    (hsome : ∀ s', op s = some s' → done () s') (hnone : thrown e) :
    Yields (Fallible.attempt op e) s done thrown := by
  unfold Yields
  rw [exec_attempt]
  cases hop : op s with
  | none => exact hnone
  | some s' => exact hsome s' hop

theorem bind {f : α → Fallible ε σ β} {done : β → σ → Prop}
    (h : Yields m s (fun a s' => Yields (f a) s' done thrown) thrown) :
    Yields (m >>= f) s done thrown := by
  unfold Yields at h ⊢
  rw [exec_bind]
  cases hout : (exec m s).1 with
  | ok a =>
      rw [hout] at h
      exact h
  | error e =>
      rw [hout] at h
      exact h

theorem bind_of_stops {f : α → Fallible ε σ β} {done : β → σ → Prop}
    (h : Yields m s (fun _ _ => False) thrown) : Yields (m >>= f) s done thrown :=
  bind (h.mono (fun _ _ hfalse => hfalse.elim) fun _ h => h)

theorem forM {as : List α} {f : α → Fallible ε σ PUnit} {inv : σ → Prop} (h : inv s)
    (hstep : ∀ a ∈ as, ∀ s, inv s → Yields (f a) s (fun _ => inv) thrown) :
    Yields (as.forM f) s (fun _ => inv) thrown := by
  induction as generalizing s with
  | nil => exact h
  | cons a as ih =>
      refine bind ((hstep a List.mem_cons_self s h).mono (fun _ s' h' => ?_) fun _ h => h)
      exact ih h' fun a' ha' => hstep a' (List.mem_cons_of_mem _ ha')

end Yields

/-- A loop returns from one state because it does from another, if each step of it does
and the states stay related. -/
theorem exec_forM_of_related {R : σ → σ → Prop} {as : List α} {f : α → Fallible ε σ PUnit}
    (hstep : ∀ a ∈ as, ∀ s t t', R s t → exec (f a) t = (.ok ⟨⟩, t') →
      ∃ s', exec (f a) s = (.ok ⟨⟩, s') ∧ R s' t') {s t t' : σ} (h : R s t)
    (hexec : exec (as.forM f) t = (.ok ⟨⟩, t')) :
    ∃ s', exec (as.forM f) s = (.ok ⟨⟩, s') ∧ R s' t' := by
  induction as generalizing s t with
  | nil =>
      cases hexec
      exact ⟨s, rfl, h⟩
  | cons a as ih =>
      obtain ⟨⟨⟩, t₁, hfirst, hrest⟩ := exec_bind_eq_ok hexec
      obtain ⟨s₁, hfirst', h₁⟩ := hstep a List.mem_cons_self s t t₁ h hfirst
      obtain ⟨s', hrest', h'⟩ := ih (fun a ha => hstep a (List.mem_cons_of_mem _ ha)) h₁ hrest
      refine ⟨s', ?_, h'⟩
      change exec (f a >>= fun _ => as.forM f) s = _
      rw [exec_bind, hfirst']
      exact hrest'

theorem exec_forM_of_fixed {as : List α} {f : α → Fallible ε σ PUnit} {s : σ}
    (hstep : ∀ a ∈ as, exec (f a) s = (.ok ⟨⟩, s)) : exec (as.forM f) s = (.ok ⟨⟩, s) := by
  induction as with
  | nil => rfl
  | cons a as ih =>
      change exec (f a >>= fun _ => as.forM f) s = _
      rw [exec_bind, hstep a List.mem_cons_self]
      exact ih fun a ha => hstep a (List.mem_cons_of_mem _ ha)

theorem eq_of_exec_mapM {as : List α} {f : α → Fallible ε σ β} {g : α → β}
    (hstep : ∀ a ∈ as, ∀ s b s', exec (f a) s = (.ok b, s') → b = g a) {s s' : σ}
    {bs : List β} (hexec : exec (as.mapM f) s = (.ok bs, s')) : bs = as.map g := by
  induction as generalizing s bs with
  | nil =>
      cases hexec
      rfl
  | cons a as ih =>
      rw [List.mapM_cons] at hexec
      obtain ⟨b, s₁, hfirst, hrest⟩ := exec_bind_eq_ok hexec
      obtain ⟨bs', s₂, hrest, hpure⟩ := exec_bind_eq_ok hrest
      cases hpure
      rw [hstep a List.mem_cons_self s b s₁ hfirst,
        ih (fun a ha => hstep a (List.mem_cons_of_mem _ ha)) hrest, List.map_cons]

end Fallible

end Runs
