import Mathlib.Data.Finset.Card
import Mathlib.Data.Finset.Image
import Mathlib.Logic.Function.Basic

/-!
# Finite maps of bounded size

A `BoundedMap` is a finite partial map with at most `capacity` keys. It can be
updated unconditionally, or only where the key is absent or present, and a new
key needs room. A map is `Coded` by another one if the keys and values of the
latter are the codes of its own under injective codes.
-/

namespace Maps

/-- A finite partial map with at most `capacity` keys. -/
structure BoundedMap (K V : Type*) where
  keys : Finset K
  get : K → Option V
  capacity : ℕ
  mem_keys : ∀ k, k ∈ keys ↔ (get k).isSome = true
  card_le : keys.card ≤ capacity

inductive UpdateFlag
  | any
  | noExist
  | exist
  deriving DecidableEq, Repr

inductive Refusal
  | present
  | absent
  | full
  deriving DecidableEq, Repr

namespace BoundedMap

variable {K V : Type*}

@[ext] theorem ext {m m' : BoundedMap K V} (hget : m.get = m'.get)
    (hcapacity : m.capacity = m'.capacity) : m = m' := by
  have hkeys : m.keys = m'.keys := by
    ext k
    rw [m.mem_keys, m'.mem_keys, hget]
  cases m
  cases m'
  cases hget
  cases hkeys
  cases hcapacity
  rfl

def empty (capacity : ℕ) : BoundedMap K V where
  keys := ∅
  get _ := none
  capacity := capacity
  mem_keys _ := by simp
  card_le := Nat.zero_le _

variable [DecidableEq K]

def HasRoom (m : BoundedMap K V) (k : K) : Prop :=
  (m.get k).isSome = true ∨ m.keys.card < m.capacity

instance (m : BoundedMap K V) (k : K) : Decidable (m.HasRoom k) :=
  inferInstanceAs (Decidable (_ ∨ _))

def put (m : BoundedMap K V) (k : K) (v : V) (h : m.HasRoom k) : BoundedMap K V where
  keys := insert k m.keys
  get := Function.update m.get k (some v)
  capacity := m.capacity
  mem_keys k' := by
    by_cases hk : k' = k
    · simp [hk]
    · simp [hk, m.mem_keys]
  card_le := by
    rcases h with h | h
    · rw [Finset.insert_eq_of_mem ((m.mem_keys k).mpr h)]
      exact m.card_le
    · exact (Finset.card_insert_le k m.keys).trans h

def erase (m : BoundedMap K V) (k : K) : BoundedMap K V where
  keys := m.keys.erase k
  get := Function.update m.get k none
  capacity := m.capacity
  mem_keys k' := by
    by_cases hk : k' = k
    · simp [hk]
    · simp [hk, m.mem_keys]
  card_le := Finset.card_erase_le.trans m.card_le

@[simp] theorem get_put (m : BoundedMap K V) (k : K) (v : V) (h : m.HasRoom k) :
    (m.put k v h).get = Function.update m.get k (some v) :=
  rfl

@[simp] theorem get_erase (m : BoundedMap K V) (k : K) :
    (m.erase k).get = Function.update m.get k none :=
  rfl

/-- Stores a value where the flag lets it. Whether the key is there is looked at
before the room that is left. -/
def update (m : BoundedMap K V) (flag : UpdateFlag) (k : K) (v : V) :
    Except Refusal (BoundedMap K V) :=
  if flag = .noExist ∧ (m.get k).isSome = true then .error .present
  else if flag = .exist ∧ (m.get k).isSome = false then .error .absent
  else if h : m.HasRoom k then .ok (m.put k v h)
  else .error .full

theorem update_any (m : BoundedMap K V) (k : K) (v : V) :
    m.update .any k v =
      if h : m.HasRoom k then .ok (m.put k v h) else .error .full := by
  simp [update]

theorem update_noExist (m : BoundedMap K V) (k : K) (v : V) :
    m.update .noExist k v =
      if (m.get k).isSome = true then .error .present
      else if h : m.HasRoom k then .ok (m.put k v h) else .error .full := by
  simp [update]

theorem update_exist (m : BoundedMap K V) (k : K) (v : V) :
    m.update .exist k v =
      if h : (m.get k).isSome = true then .ok (m.put k v (Or.inl h))
      else .error .absent := by
  by_cases h : (m.get k).isSome = true
  · have hroom : m.HasRoom k := Or.inl h
    simp [update, h, hroom]
  · simp [update, h]

theorem of_update_eq_ok {m n : BoundedMap K V} {flag : UpdateFlag} {k : K} {v : V}
    (h : m.update flag k v = .ok n) : ∃ hroom, n = m.put k v hroom := by
  rw [update] at h
  split at h
  · cases h
  · split at h
    · cases h
    · split at h
      · rename_i hroom
        cases h
        exact ⟨hroom, rfl⟩
      · cases h

theorem erase_of_get_eq_none {m : BoundedMap K V} {k : K} (h : m.get k = none) :
    m.erase k = m :=
  ext (by rw [get_erase, ← h, Function.update_eq_self]) rfl

def delete (m : BoundedMap K V) (k : K) : Except Refusal (BoundedMap K V) :=
  if (m.get k).isSome = true then .ok (m.erase k) else .error .absent

section Coded

variable {K' V' : Type*} [DecidableEq K'] {f : K → K'} {g : V → V'}

/-- The map `m'` holds the codes of the keys and values of `m`. -/
structure Coded (f : K → K') (g : V → V') (m : BoundedMap K V)
    (m' : BoundedMap K' V') : Prop where
  get_eq : ∀ k, m'.get (f k) = (m.get k).map g
  keys_eq : m'.keys = m.keys.image f
  capacity_eq : m'.capacity = m.capacity

namespace Coded

variable {m : BoundedMap K V} {m' : BoundedMap K' V'}

omit [DecidableEq K] in
theorem empty (c : ℕ) : Coded f g (.empty c) (.empty c) :=
  ⟨fun _ => rfl, rfl, rfl⟩

omit [DecidableEq K] in
theorem isSome_eq (h : Coded f g m m') (k : K) :
    (m'.get (f k)).isSome = (m.get k).isSome := by
  rw [h.get_eq, Option.isSome_map]

omit [DecidableEq K] in
theorem hasRoom_iff (h : Coded f g m m') (hf : Function.Injective f) (k : K) :
    m'.HasRoom (f k) ↔ m.HasRoom k := by
  rw [HasRoom, HasRoom, h.isSome_eq, h.keys_eq, h.capacity_eq,
    Finset.card_image_of_injective _ hf]

theorem update_eq (h : Coded f g m m') (hf : Function.Injective f) (k : K) (v : Option V)
    (k' : K) :
    Function.update m'.get (f k) (v.map g) (f k') = (Function.update m.get k v k').map g := by
  by_cases hk : k' = k
  · simp [hk]
  · have hne : f k' ≠ f k := fun heq => hk (hf heq)
    simp [hk, hne, h.get_eq]

theorem put (h : Coded f g m m') (hf : Function.Injective f) (k : K) (v : V)
    (hroom : m.HasRoom k) (hroom' : m'.HasRoom (f k)) :
    Coded f g (m.put k v hroom) (m'.put (f k) (g v) hroom') := by
  refine ⟨h.update_eq hf k (some v), ?_, h.capacity_eq⟩
  · show insert (f k) m'.keys = (insert k m.keys).image f
    rw [Finset.image_insert, h.keys_eq]

theorem erase (h : Coded f g m m') (hf : Function.Injective f) (k : K) :
    Coded f g (m.erase k) (m'.erase (f k)) := by
  refine ⟨h.update_eq hf k none, ?_, h.capacity_eq⟩
  · show m'.keys.erase (f k) = (m.keys.erase k).image f
    rw [Finset.image_erase hf, h.keys_eq]

/-- An update of the coded map is refused for the same reason, or leads to a
coded map. -/
theorem update (h : Coded f g m m') (hf : Function.Injective f) (flag : UpdateFlag)
    (k : K) (v : V) :
    (∃ n n', m.update flag k v = .ok n ∧ m'.update flag (f k) (g v) = .ok n' ∧
        Coded f g n n') ∨
      ∃ why, m.update flag k v = .error why ∧
        m'.update flag (f k) (g v) = .error why := by
  simp only [BoundedMap.update, h.isSome_eq]
  split
  · exact Or.inr ⟨_, rfl, rfl⟩
  · split
    · exact Or.inr ⟨_, rfl, rfl⟩
    · by_cases hroom : m.HasRoom k
      · have hroom' := (h.hasRoom_iff hf k).mpr hroom
        rw [dif_pos hroom, dif_pos hroom']
        exact Or.inl ⟨_, _, rfl, rfl, h.put hf k v hroom hroom'⟩
      · rw [dif_neg hroom, dif_neg fun hroom' => hroom ((h.hasRoom_iff hf k).mp hroom')]
        exact Or.inr ⟨_, rfl, rfl⟩

theorem delete (h : Coded f g m m') (hf : Function.Injective f) (k : K) :
    (∃ n n', m.delete k = .ok n ∧ m'.delete (f k) = .ok n' ∧ Coded f g n n') ∨
      ∃ why, m.delete k = .error why ∧ m'.delete (f k) = .error why := by
  simp only [BoundedMap.delete, h.isSome_eq]
  split
  · exact Or.inl ⟨_, _, rfl, rfl, h.erase hf k⟩
  · exact Or.inr ⟨_, rfl, rfl⟩

end Coded

end Coded

end BoundedMap

end Maps
