import Mathlib.Data.Nat.Notation
import Mathlib.Data.List.Basic

/-!
# Bounded channels

A bounded channel hands over its items first in, first out. Sending fails
exactly if the channel is closed, or if it is open and holds as many items as
its capacity allows, and a failed attempt leaves the channel as it was. `Queue`
is such a channel.
-/

namespace Channels

inductive TrySendError
  | full
  | closed
  deriving DecidableEq, Repr

/-- A bounded channel `κ` for items `ρ`. -/
class BoundedChannel (κ : Type*) (ρ : outParam Type*) where
  /-- An open channel with a given capacity. -/
  channel : ℕ → κ
  /-- Puts an item into the channel. -/
  trySend : κ → ρ → Except TrySendError κ
  /-- Takes the next item out of the channel. -/
  tryRecv : κ → Option (ρ × κ)
  /-- Closes the channel for sending. -/
  close : κ → κ
  /-- The number of items in the channel. -/
  len : κ → ℕ
  /-- The items in the channel, the next one first. -/
  buffered : κ → List ρ
  capacity : κ → ℕ
  isClosed : κ → Bool
  buffered_channel : ∀ c, buffered (channel c) = []
  capacity_channel : ∀ c, capacity (channel c) = c
  isClosed_channel : ∀ c, isClosed (channel c) = false
  len_eq : ∀ ch, len ch = (buffered ch).length
  trySend_closed : ∀ ch r, isClosed ch = true → trySend ch r = .error .closed
  trySend_full : ∀ ch r, isClosed ch = false → len ch = capacity ch →
    trySend ch r = .error .full
  trySend_ok : ∀ ch r, isClosed ch = false → len ch < capacity ch →
    ∃ ch', trySend ch r = .ok ch' ∧ buffered ch' = buffered ch ++ [r] ∧
      capacity ch' = capacity ch ∧ isClosed ch' = false
  tryRecv_nil : ∀ ch, buffered ch = [] → tryRecv ch = none
  tryRecv_cons : ∀ ch r rs, buffered ch = r :: rs →
    ∃ ch', tryRecv ch = some (r, ch') ∧ buffered ch' = rs ∧
      capacity ch' = capacity ch ∧ isClosed ch' = isClosed ch
  buffered_close : ∀ ch, buffered (close ch) = buffered ch
  capacity_close : ∀ ch, capacity (close ch) = capacity ch
  isClosed_close : ∀ ch, isClosed (close ch) = true

namespace BoundedChannel

variable {κ ρ : Type*} [BoundedChannel κ ρ] {ch ch' : κ}

/-- How sending turns out on a channel within its capacity. -/
theorem trySend_cases (r : ρ) (hle : len ch ≤ capacity ch) :
    (isClosed ch = true ∧ trySend ch r = .error .closed) ∨
      (len ch = capacity ch ∧ trySend ch r = .error .full) ∨
      (len ch < capacity ch ∧ ∃ ch', trySend ch r = .ok ch' ∧
        buffered ch' = buffered ch ++ [r] ∧ capacity ch' = capacity ch ∧
        isClosed ch' = isClosed ch) := by
  cases hclosed : isClosed ch with
  | true => exact .inl ⟨rfl, trySend_closed ch r hclosed⟩
  | false =>
      rcases Nat.lt_or_eq_of_le hle with hlt | hfull
      · exact .inr (.inr ⟨hlt, trySend_ok ch r hclosed hlt⟩)
      · exact .inr (.inl ⟨hfull, trySend_full ch r hclosed hfull⟩)

theorem of_trySend_eq_ok {r : ρ} (hle : len ch ≤ capacity ch)
    (h : trySend ch r = .ok ch') :
    buffered ch' = buffered ch ++ [r] ∧ capacity ch' = capacity ch ∧
      isClosed ch' = isClosed ch ∧ len ch < capacity ch := by
  rcases trySend_cases r hle with
    ⟨_, hsend⟩ | ⟨_, hsend⟩ | ⟨hlt, _, hsend, hbuffered, hcapacity, hopen⟩
  · cases h.symm.trans hsend
  · cases h.symm.trans hsend
  · cases h.symm.trans hsend
    exact ⟨hbuffered, hcapacity, hopen, hlt⟩

theorem of_trySend_eq_full {r : ρ} (hle : len ch ≤ capacity ch)
    (h : trySend ch r = .error .full) : len ch = capacity ch := by
  rcases trySend_cases r hle with ⟨_, hsend⟩ | ⟨hfull, _⟩ | ⟨_, _, hsend, _⟩
  · cases h.symm.trans hsend
  · exact hfull
  · cases h.symm.trans hsend

theorem of_trySend_eq_closed {r : ρ} (hle : len ch ≤ capacity ch)
    (h : trySend ch r = .error .closed) : isClosed ch = true := by
  rcases trySend_cases r hle with ⟨hclosed, _⟩ | ⟨_, hsend⟩ | ⟨_, _, hsend, _⟩
  · exact hclosed
  · cases h.symm.trans hsend
  · cases h.symm.trans hsend

theorem of_tryRecv_eq_some {r : ρ} (h : tryRecv ch = some (r, ch')) :
    buffered ch = r :: buffered ch' ∧ capacity ch' = capacity ch ∧
      isClosed ch' = isClosed ch := by
  cases hbuffered : buffered ch with
  | nil =>
      rw [tryRecv_nil ch hbuffered] at h
      cases h
  | cons r' rs =>
      obtain ⟨_, hrecv, hrs, hcapacity, hclosed⟩ := tryRecv_cons ch r' rs hbuffered
      rw [h, Option.some_inj, Prod.mk.injEq] at hrecv
      obtain ⟨rfl, rfl⟩ := hrecv
      exact ⟨by rw [hrs], hcapacity, hclosed⟩

end BoundedChannel

structure Queue (ρ : Type*) where
  items : List ρ
  capacity : ℕ
  closed : Bool

namespace Queue

variable {ρ : Type*}

def trySend (q : Queue ρ) (r : ρ) : Except TrySendError (Queue ρ) :=
  if q.closed then .error .closed
  else if q.items.length < q.capacity then .ok { q with items := q.items ++ [r] }
  else .error .full

def tryRecv (q : Queue ρ) : Option (ρ × Queue ρ) :=
  match q.items with
  | [] => none
  | r :: rs => some (r, { q with items := rs })

instance : BoundedChannel (Queue ρ) ρ where
  channel c := ⟨[], c, false⟩
  trySend := trySend
  tryRecv := tryRecv
  close q := { q with closed := true }
  len q := q.items.length
  buffered q := q.items
  capacity q := q.capacity
  isClosed q := q.closed
  buffered_channel _ := rfl
  capacity_channel _ := rfl
  isClosed_channel _ := rfl
  len_eq _ := rfl
  trySend_closed q r h := by simp [trySend, h]
  trySend_full q r h hfull := by simp [trySend, h, hfull]
  trySend_ok q r h hlt := ⟨{ q with items := q.items ++ [r] },
    by simp [trySend, h, hlt], rfl, rfl, h⟩
  tryRecv_nil q h := by simp [tryRecv, h]
  tryRecv_cons q r rs h := ⟨{ q with items := rs }, by simp [tryRecv, h], rfl, rfl, rfl⟩
  buffered_close _ := rfl
  capacity_close _ := rfl
  isClosed_close _ := rfl

end Queue

end Channels
