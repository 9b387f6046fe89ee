import Mathlib.Data.List.Basic

/-!
# Lists that are repeated

The beginnings of a list that is repeated forever.
-/

namespace Files

variable {α : Type*}

def laps (t : List α) (n : ℕ) : List α :=
  (List.replicate n t).flatten

/-- The beginning of a list that is repeated forever. -/
def repeated (t : List α) (n : ℕ) : List α :=
  (laps t n).take n

variable {t : List α} {m n : ℕ}

theorem laps_add (t : List α) (m n : ℕ) : laps t (m + n) = laps t m ++ laps t n := by
  rw [laps, List.replicate_add, List.flatten_append]
  rfl

theorem length_laps (t : List α) (n : ℕ) : (laps t n).length = n * t.length := by
  simp [laps]

@[simp] theorem laps_one (t : List α) : laps t 1 = t := by
  simp [laps]

theorem append_laps (t : List α) (n : ℕ) : t ++ laps t n = laps t (n + 1) := by
  rw [Nat.add_comm, laps_add, laps_one]

theorem le_length_laps (ht : t ≠ []) (n : ℕ) : n ≤ (laps t n).length := by
  rw [length_laps]
  exact Nat.le_mul_of_pos_right n (List.length_pos_iff.mpr ht)

theorem length_repeated (ht : t ≠ []) (n : ℕ) : (repeated t n).length = n :=
  List.length_take_of_le (le_length_laps ht n)

theorem take_laps (ht : t ≠ []) (h : n ≤ (laps t m).length) :
    (laps t m).take n = repeated t n := by
  have hm : (laps t (m + n)).take n = (laps t m).take n := by
    rw [laps_add, List.take_append_of_le_length h]
  have hn : (laps t (n + m)).take n = (laps t n).take n := by
    rw [laps_add, List.take_append_of_le_length (le_length_laps ht n)]
  rw [← hm, Nat.add_comm, hn, repeated]

theorem append_repeated (ht : t ≠ []) (n : ℕ) :
    t ++ repeated t n = repeated t (t.length + n) := by
  have hlen : t.length + n ≤ (laps t (n + 1)).length := by
    rw [← append_laps, List.length_append]
    exact Nat.add_le_add_left (le_length_laps ht n) _
  rw [← take_laps ht hlen, ← append_laps, List.take_length_add_append, repeated]

theorem mem_of_mem_repeated {x : α} (h : x ∈ repeated t n) : x ∈ t := by
  obtain ⟨lap, hlap, hx⟩ := List.mem_flatten.mp (List.mem_of_mem_take h)
  rwa [List.eq_of_mem_replicate hlap] at hx

@[simp] theorem repeated_zero (t : List α) : repeated t 0 = [] := rfl

theorem repeated_length (ht : t ≠ []) : repeated t t.length = t := by
  have hlap := append_repeated ht 0
  rw [repeated_zero, List.append_nil, Nat.add_zero] at hlap
  exact hlap.symm

theorem exists_repeated_succ (ht : t ≠ []) (n : ℕ) :
    ∃ x, repeated t (n + 1) = repeated t n ++ [x] := by
  have hlt : n < (laps t (n + 1)).length := le_length_laps ht (n + 1)
  refine ⟨(laps t (n + 1))[n], ?_⟩
  rw [repeated, List.take_add_one, take_laps ht (Nat.le_of_lt hlt), List.getElem?_eq_getElem hlt]
  rfl

theorem repeated_isPrefix_laps (ht : t ≠ []) (h : n ≤ m) : repeated t n <+: laps t m := by
  rw [← take_laps ht (Nat.le_trans h (le_length_laps ht m))]
  exact List.take_prefix n _

theorem repeated_isPrefix (ht : t ≠ []) (h : n ≤ m) : repeated t n <+: repeated t m := by
  rw [← take_laps ht (Nat.le_trans h (le_length_laps ht m)), repeated]
  exact List.take_prefix_take_left h

end Files
