import Mathlib.Data.List.Sort
import Mathlib.Data.Multiset.Basic
import Xbpf.Collections.KernelMap

/-!
# Walking and batching

Next to the calls on single keys a kernel map has a walk over its keys and batch
calls. A batch call is given a count and flat buffers, which it slices at the key
and value size of the map. It treats the elements in order and stops at the first
one that is refused. `MapCore` is a handle with these calls and what they do, and a
`HashTable` is one.
-/

namespace Xbpf

namespace Collections

open Maps

def slices (size : ℕ) : ℕ → List UInt8 → List (List UInt8)
  | 0, _ => []
  | count + 1, bytes => bytes.take size :: slices size count (bytes.drop size)

theorem slices_flatMap {α : Type*} {f : α → List UInt8} {size : ℕ}
    (hsize : ∀ x, (f x).length = size) (items : List α) :
    slices size items.length (items.flatMap f) = items.map f := by
  induction items with
  | nil => rfl
  | cons x items ih =>
      have hlen := Nat.le_of_eq (hsize x).symm
      rw [List.length_cons, slices, List.flatMap_cons,
        List.take_append_of_le_length hlen, List.drop_append_of_le_length hlen,
        List.take_of_length_le (Nat.le_of_eq (hsize x)),
        List.drop_of_length_le (Nat.le_of_eq (hsize x)), List.nil_append, ih, List.map_cons]

theorem length_flatMap_of_size {α : Type*} {f : α → List UInt8} {size : ℕ}
    (hsize : ∀ x, (f x).length = size) (items : List α) :
    (items.flatMap f).length = items.length * size := by
  induction items with
  | nil => simp
  | cons x items ih =>
      rw [List.flatMap_cons, List.length_append, hsize, ih, List.length_cons, Nat.succ_mul,
        Nat.add_comm]

/-- Calls in order, up to the first one that fails. -/
def inOrder {α κ : Type*} (f : α → κ → Except Error Unit × κ) : List α → κ → Except Error Unit × κ
  | [], h => (.ok (), h)
  | a :: as, h =>
      match f a h with
      | (.ok (), h') => inOrder f as h'
      | (.error err, h') => (.error err, h')

def updateElement {κ : Type*} [MapHandle κ] (element : List UInt8 × List UInt8) (h : κ) :
    Except Error Unit × κ :=
  MapHandle.update h element.1 element.2 .any

def deleteElement {κ : Type*} [MapHandle κ] (element : List UInt8) (h : κ) :
    Except Error Unit × κ :=
  MapHandle.delete h element

/-- The handle of a hash map with its walks and batch calls. -/
class MapCore (κ : Type*) extends MapHandle κ where
  maxEntries : κ → UInt32
  keys : κ → List (List UInt8)
  lookupBatch : κ → UInt32 → Except Error (List (List UInt8 × List UInt8))
  updateBatch : κ → List UInt8 → List UInt8 → UInt32 → Except Error Unit × κ
  deleteBatch : κ → List UInt8 → UInt32 → Except Error Unit × κ
  capacity_eq : ∀ h, (contents h).capacity = (maxEntries h).toNat
  nodup_keys : ∀ h, (keys h).Nodup
  mem_keys : ∀ h k, k ∈ keys h ↔ k ∈ (contents h).keys
  /-- What leads the raw key of a pair is a key of the map. -/
  lookupBatch_eq : ∀ h count, count ≠ 0 → ∃ pairs, lookupBatch h count = .ok pairs ∧
    (pairs.map fun p => (p.1.take (keySize h), p.2)).Nodup ∧
    ∀ k v, (k, v) ∈ pairs.map (fun p => (p.1.take (keySize h), p.2)) ↔
      (contents h).get k = some v
  updateBatch_eq : ∀ h ks vs count, count ≠ 0 → ks.length = count.toNat * keySize h →
    vs.length = count.toNat * valueSize h →
      (updateBatch h ks vs count).1.isOk = (inOrder updateElement
          ((slices (keySize h) count.toNat ks).zip (slices (valueSize h) count.toNat vs))
          h).1.isOk ∧
        contents (updateBatch h ks vs count).2 = contents (inOrder updateElement
          ((slices (keySize h) count.toNat ks).zip (slices (valueSize h) count.toNat vs)) h).2
  deleteBatch_eq : ∀ h ks count, count ≠ 0 → ks.length = count.toNat * keySize h →
    (deleteBatch h ks count).1.isOk =
        (inOrder deleteElement (slices (keySize h) count.toNat ks) h).1.isOk ∧
      contents (deleteBatch h ks count).2 =
        contents (inOrder deleteElement (slices (keySize h) count.toNat ks) h).2

namespace Table

def rank : List UInt8 → ℕ
  | [] => 0
  | b :: bs => rank bs * 257 + b.toNat + 1

theorem rank_injective : Function.Injective rank := by
  intro bs
  induction bs with
  | nil =>
      intro cs h
      cases cs with
      | nil => rfl
      | cons c cs => exact absurd h (by rw [rank, rank]; omega)
  | cons b bs ih =>
      intro cs h
      cases cs with
      | nil => exact absurd h (by rw [rank, rank]; omega)
      | cons c cs =>
          have hb := b.toNat_lt
          have hc := c.toNat_lt
          rw [rank, rank] at h
          rw [UInt8.toNat_inj.mp (by omega : b.toNat = c.toNat),
            ih (by omega : rank bs = rank cs)]

def Before (a b : List UInt8) : Prop :=
  rank a ≤ rank b

instance : DecidableRel Before :=
  fun a b => inferInstanceAs (Decidable (rank a ≤ rank b))

instance : Std.Total Before where
  total a b := Nat.le_total (rank a) (rank b)

instance : IsTrans (List UInt8) Before where
  trans _ _ _ := Nat.le_trans

instance : Std.Antisymm Before where
  antisymm _ _ hab hba := rank_injective (Nat.le_antisymm hab hba)

/-- The keys in the order in which they are walked. -/
def walk (t : Table) : List (List UInt8) :=
  Quot.liftOn t.entries.keys.val (List.insertionSort Before) fun as bs hperm =>
    (((List.perm_insertionSort Before as).trans hperm).trans
      (List.perm_insertionSort Before bs).symm).eq_of_pairwise'
        (List.pairwise_insertionSort Before as) (List.pairwise_insertionSort Before bs)

theorem coe_walk (t : Table) : (t.walk : Multiset (List UInt8)) = t.entries.keys.val := by
  rw [walk]
  induction t.entries.keys.val using Quot.inductionOn with
  | h as => exact Quot.sound (List.perm_insertionSort Before as)

theorem nodup_walk (t : Table) : t.walk.Nodup := by
  rw [← Multiset.coe_nodup, coe_walk]
  exact t.entries.keys.nodup

theorem mem_walk (t : Table) (k : List UInt8) : k ∈ t.walk ↔ k ∈ t.entries.keys := by
  rw [← Multiset.mem_coe, coe_walk, Finset.mem_val]

def pad (k : List UInt8) : List UInt8 :=
  k ++ List.replicate (4 - k.length) 0

def pairs (t : Table) : List (List UInt8 × List UInt8) :=
  t.walk.filterMap fun k => (t.entries.get k).map fun v => (k, v)

theorem mem_pairs (t : Table) (k v : List UInt8) :
    (k, v) ∈ t.pairs ↔ t.entries.get k = some v := by
  rw [pairs, List.mem_filterMap]
  constructor
  · rintro ⟨k', _, hk'⟩
    obtain ⟨v', hv', heq⟩ := Option.map_eq_some_iff.mp hk'
    cases heq
    exact hv'
  · intro hv
    refine ⟨k, (t.mem_walk k).mpr ((t.entries.mem_keys k).mpr ?_), ?_⟩
    · rw [hv, Option.isSome_some]
    · rw [hv, Option.map_some]

theorem nodup_pairs (t : Table) : t.pairs.Nodup := by
  refine t.nodup_walk.filterMap ?_
  intro a b p ha hb
  obtain ⟨v, _, rfl⟩ := Option.map_eq_some_iff.mp ha
  obtain ⟨w, _, heq⟩ := Option.map_eq_some_iff.mp hb
  cases heq
  rfl

theorem capacity_update (t : Table) (k v : List UInt8) (flag : UpdateFlag) :
    (t.update k v flag).2.entries.capacity = t.entries.capacity := by
  rw [update]
  split
  · split
    · split <;> rfl
    · rfl
  · rfl

theorem capacity_delete (t : Table) (k : List UInt8) :
    (t.delete k).2.entries.capacity = t.entries.capacity := by
  rw [delete]
  split
  · split <;> rfl
  · rfl

def rawPairs (t : Table) : List (List UInt8 × List UInt8) :=
  t.pairs.map fun p => (pad p.1, p.2)

theorem take_rawPairs (t : Table) :
    t.rawPairs.map (fun p => (p.1.take t.keySize, p.2)) = t.pairs := by
  rw [rawPairs, List.map_map]
  refine (List.map_congr_left fun p hp => ?_).trans (List.map_id _)
  have hmem := (t.mem_pairs p.1 p.2).mp hp
  have hkey : p.1.length = t.keySize :=
    t.length_key p.1 ((t.entries.mem_keys p.1).mpr (by rw [hmem, Option.isSome_some]))
  show (((pad p.1).take t.keySize, p.2) : List UInt8 × List UInt8) = p
  rw [pad, List.take_left' hkey]

end Table

/-- A kernel map with room for a number of entries that its description can hold. -/
structure HashTable where
  table : Table
  capacity_lt : table.entries.capacity < UInt32.size

namespace HashTable

def create (keySize valueSize : ℕ) (maxEntries : UInt32) : HashTable where
  table := .create keySize valueSize maxEntries.toNat
  capacity_lt := maxEntries.toNat_lt

def update (t : HashTable) (k v : List UInt8) (flag : UpdateFlag) :
    Except Error Unit × HashTable :=
  ((t.table.update k v flag).1,
    ⟨(t.table.update k v flag).2, (t.table.capacity_update k v flag).symm ▸ t.capacity_lt⟩)

def delete (t : HashTable) (k : List UInt8) : Except Error Unit × HashTable :=
  ((t.table.delete k).1,
    ⟨(t.table.delete k).2, (t.table.capacity_delete k).symm ▸ t.capacity_lt⟩)

instance : MapHandle HashTable where
  keySize t := t.table.keySize
  valueSize t := t.table.valueSize
  lookup t := t.table.lookup
  update := update
  delete := delete
  contents t := t.table.entries
  length_key t := MapHandle.length_key t.table
  length_value t := MapHandle.length_value t.table
  lookup_eq t := MapHandle.lookup_eq t.table
  update_ok t := MapHandle.update_ok t.table
  update_error t := MapHandle.update_error t.table
  delete_ok t := MapHandle.delete_ok t.table
  delete_error t := MapHandle.delete_error t.table
  keySize_update t := MapHandle.keySize_update t.table
  valueSize_update t := MapHandle.valueSize_update t.table
  keySize_delete t := MapHandle.keySize_delete t.table
  valueSize_delete t := MapHandle.valueSize_delete t.table

def lookupBatch (t : HashTable) (count : UInt32) :
    Except Error (List (List UInt8 × List UInt8)) :=
  if count = 0 then .error (invalidInput "batch size") else .ok t.table.rawPairs

def updateBatch (t : HashTable) (ks vs : List UInt8) (count : UInt32) :
    Except Error Unit × HashTable :=
  if ks.length = count.toNat * t.table.keySize ∧
      vs.length = count.toNat * t.table.valueSize then
    inOrder updateElement
      ((slices t.table.keySize count.toNat ks).zip (slices t.table.valueSize count.toNat vs)) t
  else (.error (invalidInput "batch key or value size"), t)

def deleteBatch (t : HashTable) (ks : List UInt8) (count : UInt32) :
    Except Error Unit × HashTable :=
  if ks.length = count.toNat * t.table.keySize then
    inOrder deleteElement (slices t.table.keySize count.toNat ks) t
  else (.error (invalidInput "batch key size"), t)

instance : MapCore HashTable where
  maxEntries t := .ofNat t.table.entries.capacity
  keys t := t.table.walk
  lookupBatch := lookupBatch
  updateBatch := updateBatch
  deleteBatch := deleteBatch
  capacity_eq t := (UInt32.toNat_ofNat_of_lt t.capacity_lt).symm
  nodup_keys t := t.table.nodup_walk
  mem_keys t := t.table.mem_walk
  lookupBatch_eq t count hcount := by
    refine ⟨t.table.rawPairs, if_neg hcount, ?_⟩
    show (t.table.rawPairs.map fun p => (p.1.take t.table.keySize, p.2)).Nodup ∧
      ∀ k v, (k, v) ∈ t.table.rawPairs.map (fun p => (p.1.take t.table.keySize, p.2)) ↔ _
    rw [Table.take_rawPairs]
    exact ⟨t.table.nodup_pairs, t.table.mem_pairs⟩
  updateBatch_eq t ks vs count _ hks hvs := by
    have heq : t.updateBatch ks vs count = inOrder updateElement _ t := if_pos ⟨hks, hvs⟩
    rw [heq]
    exact ⟨rfl, rfl⟩
  deleteBatch_eq t ks count _ hks := by
    have heq : t.deleteBatch ks count = inOrder deleteElement _ t := if_pos hks
    rw [heq]
    exact ⟨rfl, rfl⟩

end HashTable

end Collections

end Xbpf
