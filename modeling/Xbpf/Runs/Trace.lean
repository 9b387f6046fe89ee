import Mathlib.Data.List.Basic
import Mathlib.Logic.Relation

/-!
# Runs along their actions

A `Trace` is a run together with the actions that were taken in it, so that what
happens before and after an action can be spoken about.
-/

namespace Runs

variable {σ α : Type*} {step : σ → α → σ → Prop}

/-- A run from one state to another along a list of actions. -/
inductive Trace (step : σ → α → σ → Prop) : σ → List α → σ → Prop
  | nil (s) : Trace step s [] s
  | cons {s a t as u} (hstep : step s a t) (h : Trace step t as u) : Trace step s (a :: as) u

namespace Trace

variable {s t u : σ} {a : α} {as bs : List α}

theorem append (h : Trace step s as t) (h' : Trace step t bs u) : Trace step s (as ++ bs) u := by
  induction h with
  | nil s => exact h'
  | cons hstep _ ih => exact .cons hstep (ih h')

theorem split (h : Trace step s (as ++ bs) u) :
    ∃ t, Trace step s as t ∧ Trace step t bs u := by
  induction as generalizing s with
  | nil => exact ⟨s, .nil s, h⟩
  | cons a as ih =>
      cases h with
      | cons hstep h =>
          obtain ⟨t, hfront, hback⟩ := ih h
          exact ⟨t, .cons hstep hfront, hback⟩

theorem split_cons (h : Trace step s (as ++ a :: bs) u) :
    ∃ t t', Trace step s as t ∧ step t a t' ∧ Trace step t' bs u := by
  obtain ⟨t, hfront, hback⟩ := h.split
  cases hback with
  | cons hstep hback => exact ⟨t, _, hfront, hstep, hback⟩

/-- What every action preserves holds of every state that is reached. -/
theorem invariant {inv : σ → Prop} (hstep : ∀ s a t, inv s → step s a t → inv t)
    (h : Trace step s as u) (hinit : inv s) : inv u := by
  induction h with
  | nil s => exact hinit
  | cons hfirst _ ih => exact ih (hstep _ _ _ hinit hfirst)

theorem mono {step' : σ → α → σ → Prop} (hstep : ∀ s a t, step s a t → step' s a t)
    (h : Trace step s as u) : Trace step' s as u := by
  induction h with
  | nil s => exact .nil s
  | cons hfirst _ ih => exact .cons (hstep _ _ _ hfirst) ih

/-- If an action leads from a state to one state only, so does a run. -/
theorem eq_of_deterministic (hstep : ∀ s a t t', step s a t → step s a t' → t = t')
    (h : Trace step s as t) (h' : Trace step s as u) : t = u := by
  induction h with
  | nil s =>
      cases h'
      rfl
  | cons hfirst _ ih =>
      cases h' with
      | cons hfirst' h' =>
          obtain rfl := hstep _ _ _ _ hfirst hfirst'
          exact ih h'

theorem of_append (hstep : ∀ s a t t', step s a t → step s a t' → t = t')
    (h : Trace step s (as ++ bs) u) (h' : Trace step s as t) : Trace step t bs u := by
  obtain ⟨t', hfront, hback⟩ := h.split
  obtain rfl := h'.eq_of_deterministic hstep hfront
  exact hback

end Trace

end Runs
