import Mathlib.Data.List.Basic
import Mathlib.Data.Nat.Notation
import Mathlib.Logic.Relation

/-!
# Runs of a machine made of independent components

A machine reads its inputs one by one and may get stuck. A machine whose state
is seen as a family of components is `Componentwise` if every input has a key
and acts on the component of that key alone, as a step of a component that is
considered on its own. Such a machine never gets stuck, and a run of it is, seen
from a component, the run of that component over its own inputs.
-/

namespace Runs

variable {σ τ α β γ κ : Type*}

/-- What holds at first and is preserved by every step holds of every state that
is reached. -/
theorem invariant {step : σ → σ → Prop} {inv : σ → Prop}
    (hstep : ∀ s s', inv s → step s s' → inv s') {s s' : σ} (hinit : inv s)
    (h : Relation.ReflTransGen step s s') : inv s' := by
  induction h with
  | refl => exact hinit
  | tail _ hlast ih => exact hstep _ _ ih hlast

/-- Runs a machine over its inputs and collects its outputs. -/
def runAll (step : σ → α → Option (σ × β)) : σ → List α → Option (σ × List β)
  | s, [] => some (s, [])
  | s, a :: as =>
      (step s a).bind fun r =>
        (runAll step r.1 as).map fun q => (q.1, r.2 :: q.2)

def run (step : σ → α → σ × β) : σ → List α → σ × List β
  | s, [] => (s, [])
  | s, a :: as => ((run step (step s a).1 as).1, (step s a).2 :: (run step (step s a).1 as).2)

@[simp] theorem run_nil (step : σ → α → σ × β) (s : σ) : run step s [] = (s, []) :=
  rfl

@[simp] theorem run_cons (step : σ → α → σ × β) (s : σ) (a : α) (as : List α) :
    run step s (a :: as) =
      ((run step (step s a).1 as).1,
        (step s a).2 :: (run step (step s a).1 as).2) :=
  rfl

theorem run_append (step : σ → α → σ × β) (s : σ) (as bs : List α) :
    run step s (as ++ bs) =
      ((run step (run step s as).1 bs).1,
        (run step s as).2 ++ (run step (run step s as).1 bs).2) := by
  induction as generalizing s with
  | nil => rfl
  | cons a as ih =>
      rw [List.cons_append, run_cons, run_cons, ih]
      rfl

theorem length_of_runAll {step : σ → α → Option (σ × β)} {s s' : σ} {as : List α}
    {bs : List β} (h : runAll step s as = some (s', bs)) : bs.length = as.length := by
  induction as generalizing s s' bs with
  | nil =>
      cases h
      rfl
  | cons a as ih =>
      obtain ⟨r, _, hr⟩ := Option.bind_eq_some_iff.mp h
      obtain ⟨q, hq, heq⟩ := Option.map_eq_some_iff.mp hr
      cases heq
      rw [List.length_cons, List.length_cons, ih hq]

theorem runAll_concat {step : σ → α → Option (σ × β)} {s t u : σ} {as : List α} {a : α}
    {bs : List β} {b : β} (h : runAll step s as = some (t, bs)) (hstep : step t a = some (u, b)) :
    runAll step s (as ++ [a]) = some (u, bs ++ [b]) := by
  induction as generalizing s bs with
  | nil =>
      cases h
      simp [runAll, hstep]
  | cons a' as ih =>
      obtain ⟨r, hfirst, hr⟩ := Option.bind_eq_some_iff.mp h
      obtain ⟨q, hq, heq⟩ := Option.map_eq_some_iff.mp hr
      cases heq
      simp [runAll, hfirst, ih hq]

theorem exists_step_of_mem_zip {step : σ → α → Option (σ × β)} {s s' : σ} {as : List α}
    {bs : List β} (h : runAll step s as = some (s', bs)) {ab : α × β}
    (hab : ab ∈ as.zip bs) : ∃ t t', step t ab.1 = some (t', ab.2) := by
  induction as generalizing s s' bs with
  | nil => cases hab
  | cons a as ih =>
      obtain ⟨r, hstep, hr⟩ := Option.bind_eq_some_iff.mp h
      obtain ⟨q, hq, heq⟩ := Option.map_eq_some_iff.mp hr
      cases heq
      rcases List.mem_cons.mp hab with rfl | hab
      · exact ⟨s, r.1, hstep⟩
      · exact ih hq hab

/-- The outputs at the inputs of one key. -/
def outputsAt [DecidableEq κ] (key : α → κ) (k : κ) (as : List α) (bs : List β) :
    List β :=
  ((as.zip bs).filter fun ab => key ab.1 = k).map Prod.snd

/-- The machine `step` acts on the component of its input alone, where it acts
as `own` does. -/
structure Componentwise (key : α → κ) (view : τ → κ → σ) (forget : γ → β)
    (step : τ → α → Option (τ × γ)) (own : σ → α → σ × β) : Prop where
  step : ∀ t a, ∃ t' c, step t a = some (t', c) ∧
    view t' (key a) = (own (view t (key a)) a).1 ∧
    forget c = (own (view t (key a)) a).2 ∧
    ∀ k, k ≠ key a → view t' k = view t k

namespace Componentwise

variable [DecidableEq κ] {key : α → κ} {view : τ → κ → σ} {forget : γ → β}
  {step : τ → α → Option (τ × γ)} {own : σ → α → σ × β}

/-- Every component runs over its own inputs. -/
theorem runAll (h : Componentwise key view forget step own) (t : τ) (as : List α) :
    ∃ t' cs, Runs.runAll step t as = some (t', cs) ∧ ∀ k,
      run own (view t k) (as.filter fun a => key a = k) =
        (view t' k, (outputsAt key k as cs).map forget) := by
  induction as generalizing t with
  | nil => exact ⟨t, [], rfl, fun _ => rfl⟩
  | cons a as ih =>
      obtain ⟨t₁, c, hstep, hown, hout, hframe⟩ := h.step t a
      obtain ⟨t₂, cs, hrun, hview⟩ := ih t₁
      refine ⟨t₂, c :: cs, by simp [Runs.runAll, hstep, hrun], ?_⟩
      intro k
      by_cases hk : key a = k
      · subst hk
        rw [List.filter_cons_of_pos (by simp), run_cons, ← hown, hview, ← hout]
        simp [outputsAt]
      · have hkeep : view t₁ k = view t k := hframe k fun h => hk h.symm
        rw [List.filter_cons_of_neg (by simpa using hk), ← hkeep, hview]
        simp [outputsAt, hk]

/-- Two runs in which a component has the same inputs look the same to it. -/
theorem view_eq_of_filter_eq (h : Componentwise key view forget step own) {t₁ t₂ : τ}
    {as₁ as₂ : List α} {k : κ} (hview : view t₁ k = view t₂ k)
    (hfilter : (as₁.filter fun a => key a = k) = as₂.filter fun a => key a = k)
    {t₁' t₂' : τ} {cs₁ cs₂ : List γ} (h₁ : Runs.runAll step t₁ as₁ = some (t₁', cs₁))
    (h₂ : Runs.runAll step t₂ as₂ = some (t₂', cs₂)) :
    view t₁' k = view t₂' k ∧
      (outputsAt key k as₁ cs₁).map forget = (outputsAt key k as₂ cs₂).map forget := by
  obtain ⟨_, _, hrun₁, hcomp₁⟩ := h.runAll t₁ as₁
  obtain ⟨_, _, hrun₂, hcomp₂⟩ := h.runAll t₂ as₂
  rw [h₁] at hrun₁
  rw [h₂] at hrun₂
  cases hrun₁
  cases hrun₂
  have heq := (hcomp₁ k).symm.trans ((congrArg₂ _ hview hfilter).trans (hcomp₂ k))
  exact Prod.mk.inj heq

end Componentwise

end Runs
