import Mathlib.Data.Finset.Card
import Mathlib.Data.List.Dedup
import Xbpf.Runs.Machine

/-!
# Interning

Keys are interned by numbering them in the order in which they are first seen. Keys
that are in use keep their numbers, so a run gives every key the number that it has
among all keys of the run.
-/

namespace Maps

variable {κ σ : Type*} [BEq κ] [LawfulBEq κ]

/-- The keys in use after one more key, and its number. -/
def intern (ks : List κ) (k : κ) : List κ × ℕ :=
  if k ∈ ks then (ks, ks.idxOf k) else (ks ++ [k], ks.length)

section Step

variable {ks : List κ} {k : κ}

theorem intern_of_mem (h : k ∈ ks) : intern ks k = (ks, ks.idxOf k) :=
  if_pos h

theorem intern_of_not_mem (h : k ∉ ks) : intern ks k = (ks ++ [k], ks.length) :=
  if_neg h

theorem prefix_intern (ks : List κ) (k : κ) : ks <+: (intern ks k).1 := by
  by_cases h : k ∈ ks
  · rw [intern_of_mem h]
  · rw [intern_of_not_mem h]
    exact List.prefix_append ks [k]

theorem mem_intern {x : κ} : x ∈ (intern ks k).1 ↔ x ∈ ks ∨ x = k := by
  by_cases h : k ∈ ks
  · rw [intern_of_mem h]
    exact ⟨Or.inl, fun hx => hx.elim id fun heq => heq ▸ h⟩
  · rw [intern_of_not_mem h, List.mem_append, List.mem_singleton]

theorem nodup_intern (h : ks.Nodup) : (intern ks k).1.Nodup := by
  by_cases hk : k ∈ ks
  · rwa [intern_of_mem hk]
  · rw [intern_of_not_mem hk]
    exact List.nodup_append.mpr ⟨h, List.nodup_singleton k, by
      rintro a ha b hb rfl
      exact hk (List.mem_singleton.mp hb ▸ ha)⟩

theorem idxOf_of_prefix {ks' : List κ} (h : ks <+: ks') (hk : k ∈ ks) :
    ks'.idxOf k = ks.idxOf k := by
  obtain ⟨rest, rfl⟩ := h
  exact List.idxOf_append_of_mem hk

theorem snd_intern (ks : List κ) (k : κ) : (intern ks k).2 = (intern ks k).1.idxOf k := by
  by_cases h : k ∈ ks
  · rw [intern_of_mem h]
  · rw [intern_of_not_mem h, List.idxOf_append_of_notMem h, List.idxOf_cons_self, Nat.add_zero]

end Step

/-- A machine whose state shows the keys in use and whose outputs are their numbers. -/
def Interns (view : List κ → σ) (step : σ → κ → σ × ℕ) : Prop :=
  ∀ ks k, ks.Nodup → step (view ks) k = (view (intern ks k).1, (intern ks k).2)

/-- The keys that are in use in the end are those at the beginning and those of the
run, and every key of the run got the number that it has then. -/
theorem Interns.run {view : List κ → σ} {step : σ → κ → σ × ℕ} (h : Interns view step)
    {ks : List κ} (hks : ks.Nodup) (keys : List κ) :
    ∃ ks', ks <+: ks' ∧ ks'.Nodup ∧ (∀ x, x ∈ ks' ↔ x ∈ ks ∨ x ∈ keys) ∧
      Runs.run step (view ks) keys = (view ks', keys.map ks'.idxOf) := by
  induction keys generalizing ks with
  | nil => exact ⟨ks, List.prefix_rfl, hks, by simp, rfl⟩
  | cons k keys ih =>
      obtain ⟨ks', hkept, hnodup, hmem, hrun⟩ := ih (nodup_intern (k := k) hks)
      have hnumber : (intern ks k).2 = ks'.idxOf k := by
        rw [snd_intern, idxOf_of_prefix hkept (mem_intern.mpr (.inr rfl))]
      refine ⟨ks', (prefix_intern ks k).trans hkept, hnodup, fun x => ?_, ?_⟩
      · rw [hmem, mem_intern, List.mem_cons, or_assoc]
      · rw [Runs.run_cons, h ks k hks, hrun, hnumber, List.map_cons]

omit [BEq κ] [LawfulBEq κ] in
/-- Keys without repetition are as many as there are different ones. -/
theorem length_eq_card [DecidableEq κ] {ks keys : List κ} (hks : ks.Nodup)
    (hmem : ∀ x, x ∈ ks ↔ x ∈ keys) : ks.length = keys.toFinset.card := by
  rw [← List.toFinset_card_of_nodup hks]
  congr 1
  ext x
  rw [List.mem_toFinset, List.mem_toFinset, hmem]

end Maps
