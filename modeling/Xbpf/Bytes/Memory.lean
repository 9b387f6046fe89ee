import Mathlib.Data.List.Basic

/-!
# Windows and writes of a flat memory

A block of memory is a list of cells. `window mem a n` is the run of `n` cells
from address `a`, and `overwrite mem a bs` is the memory after writing `bs` from
address `a` on. The read of a window after a write is computed by three rules:
the window misses the write, the window contains it, or the window is the write
itself. `slice?` is the checked read, which has no value when a bound lies
outside the block.
-/

namespace Bytes

def window {α : Type*} (mem : List α) (a n : ℕ) : List α :=
  (mem.drop a).take n

def overwrite {α : Type*} (mem : List α) (a : ℕ) (bs : List α) : List α :=
  mem.take a ++ bs ++ mem.drop (a + bs.length)

/-- The checked slice from address `a` up to, and without, address `b`. -/
def slice? {α : Type*} (mem : List α) (a b : ℕ) : Option (List α) :=
  if a ≤ b ∧ b ≤ mem.length then some (window mem a (b - a)) else none

@[simp] theorem length_window {α : Type*} (mem : List α) (a n : ℕ) :
    (window mem a n).length = min n (mem.length - a) := by
  simp [window]

theorem getElem?_window {α : Type*} (mem : List α) (a n i : ℕ) :
    (window mem a n)[i]? = if i < n then mem[a + i]? else none := by
  simp [window, List.getElem?_take]

theorem window_add {α : Type*} (mem : List α) (a m n : ℕ) :
    window mem a (m + n) = window mem a m ++ window mem (a + m) n := by
  rw [window, window, window, List.take_add, List.drop_drop]

theorem window_append {α : Type*} (front mem : List α) (a n : ℕ) :
    window (front ++ mem) (front.length + a) n = window mem a n := by
  rw [window, List.drop_append, List.drop_eq_nil_of_le (Nat.le_add_right _ _),
    List.nil_append, Nat.add_sub_cancel_left, window]

theorem slice?_of_le {α : Type*} (mem : List α) {a b : ℕ} (hab : a ≤ b)
    (hb : b ≤ mem.length) : slice? mem a b = some (window mem a (b - a)) := by
  simp [slice?, hab, hb]

theorem window_eq_of_getElem? {α : Type*} {mem mem' : List α} {a n : ℕ}
    (h : ∀ i, a ≤ i → i < a + n → mem[i]? = mem'[i]?) :
    window mem a n = window mem' a n := by
  apply List.ext_getElem?
  intro i
  rw [getElem?_window, getElem?_window]
  split
  · exact h (a + i) (by omega) (by omega)
  · rfl

theorem length_overwrite {α : Type*} (mem bs : List α) {a : ℕ}
    (h : a + bs.length ≤ mem.length) :
    (overwrite mem a bs).length = mem.length := by
  simp only [overwrite, List.length_append, List.length_take, List.length_drop]
  omega

/-- A cell of the written memory comes from the write if its address lies
inside it, and from the old memory otherwise. -/
theorem getElem?_overwrite {α : Type*} (mem bs : List α) {a : ℕ}
    (h : a + bs.length ≤ mem.length) (i : ℕ) :
    (overwrite mem a bs)[i]? =
      if a ≤ i ∧ i < a + bs.length then bs[i - a]? else mem[i]? := by
  have hlen : (mem.take a).length = a := by
    rw [List.length_take]
    omega
  rw [overwrite, List.append_assoc, List.getElem?_append, hlen]
  by_cases hi : i < a
  · have hout : ¬ (a ≤ i ∧ i < a + bs.length) := by omega
    rw [if_pos hi, if_neg hout, List.getElem?_take_of_lt hi]
  · rw [if_neg hi, List.getElem?_append]
    by_cases hin : i - a < bs.length
    · rw [if_pos hin, if_pos (by omega)]
    · have hshift : a + bs.length + (i - a - bs.length) = i := by omega
      rw [if_neg hin, if_neg (by omega), List.getElem?_drop, hshift]

theorem window_overwrite_of_disjoint {α : Type*} (mem bs : List α) {a b n : ℕ}
    (h : a + bs.length ≤ mem.length) (hd : b + n ≤ a ∨ a + bs.length ≤ b) :
    window (overwrite mem a bs) b n = window mem b n := by
  apply window_eq_of_getElem?
  intro i hi hin
  rw [getElem?_overwrite mem bs h, if_neg (by omega)]

/-- A window that contains the write sees the write at its own address. -/
theorem window_overwrite_of_subset {α : Type*} (mem bs : List α) {a b n : ℕ}
    (h : b + n ≤ mem.length) (hba : b ≤ a) (han : a + bs.length ≤ b + n) :
    window (overwrite mem a bs) b n = overwrite (window mem b n) (a - b) bs := by
  have hlen : a - b + bs.length ≤ (window mem b n).length := by
    rw [length_window]
    omega
  apply List.ext_getElem?
  intro i
  rw [getElem?_window, getElem?_overwrite mem bs (by omega),
    getElem?_overwrite _ bs hlen, getElem?_window]
  have hshift : b + i - a = i - (a - b) := by omega
  by_cases hi : i < n
  · rw [if_pos hi, if_pos hi, hshift]
    by_cases hin : a ≤ b + i ∧ b + i < a + bs.length
    · rw [if_pos hin, if_pos (by omega)]
    · rw [if_neg hin, if_neg (by omega)]
  · rw [if_neg hi, if_neg hi, if_neg (by omega)]

theorem overwrite_zero_of_length_eq {α : Type*} {mem bs : List α}
    (h : bs.length = mem.length) : overwrite mem 0 bs = bs := by
  rw [overwrite, List.take_zero, List.nil_append, Nat.zero_add, h,
    List.drop_length, List.append_nil]

/-- The memory after a list of writes, each an address and its bytes. -/
def overwriteAll {α : Type*} (mem : List α) (ws : List (ℕ × List α)) : List α :=
  ws.foldl (fun m w => overwrite m w.1 w.2) mem

def InRange {α : Type*} (n : ℕ) (ws : List (ℕ × List α)) : Prop :=
  ∀ w ∈ ws, w.1 + w.2.length ≤ n

def Misses {α : Type*} (a n : ℕ) (ws : List (ℕ × List α)) : Prop :=
  ∀ w ∈ ws, a + n ≤ w.1 ∨ w.1 + w.2.length ≤ a

@[simp] theorem misses_nil {α : Type*} (a n : ℕ) :
    Misses a n ([] : List (ℕ × List α)) := by
  simp [Misses]

@[simp] theorem misses_cons {α : Type*} (a n : ℕ) (w : ℕ × List α)
    (ws : List (ℕ × List α)) :
    Misses a n (w :: ws) ↔
      (a + n ≤ w.1 ∨ w.1 + w.2.length ≤ a) ∧ Misses a n ws := by
  simp [Misses]

theorem length_overwriteAll {α : Type*} {mem : List α} {ws : List (ℕ × List α)}
    (h : InRange mem.length ws) : (overwriteAll mem ws).length = mem.length := by
  induction ws generalizing mem with
  | nil => rfl
  | cons w ws ih =>
      have hw := length_overwrite mem w.2 (h w List.mem_cons_self)
      have hws : InRange (overwrite mem w.1 w.2).length ws := by
        intro w' hw'
        rw [hw]
        exact h w' (List.mem_cons_of_mem w hw')
      rw [overwriteAll, List.foldl_cons]
      exact (ih hws).trans hw

theorem window_overwriteAll_of_misses {α : Type*} {mem : List α}
    {ws : List (ℕ × List α)} {a n : ℕ} (h : InRange mem.length ws)
    (hm : Misses a n ws) : window (overwriteAll mem ws) a n = window mem a n := by
  induction ws generalizing mem with
  | nil => rfl
  | cons w ws ih =>
      have hw := h w List.mem_cons_self
      have hws : InRange (overwrite mem w.1 w.2).length ws := by
        intro w' hw'
        rw [length_overwrite mem w.2 hw]
        exact h w' (List.mem_cons_of_mem w hw')
      rw [overwriteAll, List.foldl_cons]
      refine (ih hws fun w' hw' => hm w' (List.mem_cons_of_mem w hw')).trans ?_
      exact window_overwrite_of_disjoint mem w.2 hw (hm w List.mem_cons_self)

/-- Of a list of writes, a window sees the one that it contains, if it misses
all others. -/
theorem window_overwriteAll_of_subset {α : Type*} {mem : List α}
    (before : List (ℕ × List α)) (w : ℕ × List α) (after : List (ℕ × List α))
    {a n : ℕ} (h : InRange mem.length (before ++ w :: after))
    (hn : a + n ≤ mem.length) (haw : a ≤ w.1) (hwn : w.1 + w.2.length ≤ a + n)
    (hb : Misses a n before) (ha : Misses a n after) :
    window (overwriteAll mem (before ++ w :: after)) a n =
      overwrite (window mem a n) (w.1 - a) w.2 := by
  have hbefore : InRange mem.length before := by
    intro w' hw'
    exact h w' (List.mem_append_left _ hw')
  have hlen := length_overwriteAll hbefore
  have hw : w.1 + w.2.length ≤ (overwriteAll mem before).length := by
    rw [hlen]
    exact h w (List.mem_append_right _ List.mem_cons_self)
  have hafter : InRange (overwrite (overwriteAll mem before) w.1 w.2).length after := by
    intro w' hw'
    rw [length_overwrite _ _ hw, hlen]
    exact h w' (List.mem_append_right _ (List.mem_cons_of_mem w hw'))
  have hsplit : overwriteAll mem (before ++ w :: after) =
      overwriteAll (overwrite (overwriteAll mem before) w.1 w.2) after := by
    simp [overwriteAll, List.foldl_append]
  rw [hsplit, window_overwriteAll_of_misses hafter ha,
    window_overwrite_of_subset _ _ (by rw [hlen]; exact hn) haw hwn,
    window_overwriteAll_of_misses hbefore hb]

/-- A window of the size of a write reads back what was written, if it misses all
others. -/
theorem window_overwriteAll_self {α : Type*} {mem : List α} (before : List (ℕ × List α))
    (a : ℕ) (bs : List α) (after : List (ℕ × List α))
    (h : InRange mem.length (before ++ (a, bs) :: after)) (hb : Misses a bs.length before)
    (ha : Misses a bs.length after) :
    window (overwriteAll mem (before ++ (a, bs) :: after)) a bs.length = bs := by
  have hfits : a + bs.length ≤ mem.length := h (a, bs) (by simp)
  have hread := window_overwriteAll_of_subset before (a, bs) after h hfits (Nat.le_refl a)
    (Nat.le_refl _) hb ha
  rw [hread, Nat.sub_self]
  refine overwrite_zero_of_length_eq ?_
  rw [length_window, Nat.min_eq_left (Nat.le_sub_of_add_le' hfits)]

end Bytes
