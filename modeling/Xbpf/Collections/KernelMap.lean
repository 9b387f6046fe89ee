import Xbpf.Collections.HashMap

/-!
# A kernel map

`Table` is a kernel map whose entries are a finite map of bounded size. A call
with a key or value of the wrong size is refused.
-/

namespace Xbpf

namespace Collections

open Maps

/-- A kernel map with its key and value sizes. -/
structure Table where
  keySize : ℕ
  valueSize : ℕ
  entries : BoundedMap (List UInt8) (List UInt8)
  length_key : ∀ k, k ∈ entries.keys → k.length = keySize
  length_value : ∀ k v, entries.get k = some v → v.length = valueSize

namespace Table

def create (keySize valueSize maxEntries : ℕ) : Table where
  keySize := keySize
  valueSize := valueSize
  entries := .empty maxEntries
  length_key _ h := nomatch h
  length_value _ _ h := nomatch h

def refused : Refusal → Error
  | .present => ⟨.alreadyExists, "File exists"⟩
  | .absent => ⟨.notFound, "No such file or directory"⟩
  | .full => ⟨.other, "Argument list too long"⟩

theorem reports_refused (why : Refusal) : Reports why (refused why).kind := by
  cases why with
  | present => rfl
  | absent => rfl
  | full => exact ⟨by decide, by decide⟩

def lookup (t : Table) (k : List UInt8) : Except Error (Option (List UInt8)) :=
  if k.length = t.keySize then .ok (t.entries.get k) else .error (invalidInput "key size")

def put (t : Table) (k v : List UInt8) (hroom : t.entries.HasRoom k)
    (hsize : k.length = t.keySize ∧ v.length = t.valueSize) : Table where
  keySize := t.keySize
  valueSize := t.valueSize
  entries := t.entries.put k v hroom
  length_key k' hk' := by
    rcases Finset.mem_insert.mp hk' with rfl | hk'
    · exact hsize.1
    · exact t.length_key k' hk'
  length_value k' v' hv' := by
    rw [BoundedMap.get_put] at hv'
    by_cases hk : k' = k
    · rw [hk, Function.update_self, Option.some_inj] at hv'
      exact hv' ▸ hsize.2
    · rw [Function.update_of_ne hk] at hv'
      exact t.length_value k' v' hv'

def erase (t : Table) (k : List UInt8) : Table where
  keySize := t.keySize
  valueSize := t.valueSize
  entries := t.entries.erase k
  length_key k' hk' := t.length_key k' (Finset.mem_of_mem_erase hk')
  length_value k' v' hv' := by
    rw [BoundedMap.get_erase] at hv'
    by_cases hk : k' = k
    · rw [hk, Function.update_self] at hv'
      cases hv'
    · rw [Function.update_of_ne hk] at hv'
      exact t.length_value k' v' hv'

def update (t : Table) (k v : List UInt8) (flag : UpdateFlag) :
    Except Error Unit × Table :=
  if hsize : k.length = t.keySize ∧ v.length = t.valueSize then
    match t.entries.update flag k v with
    | .ok _ =>
        if hroom : t.entries.HasRoom k then (.ok (), t.put k v hroom hsize)
        else (.error (refused .full), t)
    | .error why => (.error (refused why), t)
  else (.error (invalidInput "key or value size"), t)

def delete (t : Table) (k : List UInt8) : Except Error Unit × Table :=
  if k.length = t.keySize then
    match t.entries.delete k with
    | .ok _ => (.ok (), t.erase k)
    | .error why => (.error (refused why), t)
  else (.error (invalidInput "key size"), t)

theorem sizes_update (t : Table) (k v : List UInt8) (flag : UpdateFlag) :
    (t.update k v flag).2.keySize = t.keySize ∧
      (t.update k v flag).2.valueSize = t.valueSize := by
  rw [update]
  split
  · split
    · split <;> exact ⟨rfl, rfl⟩
    · exact ⟨rfl, rfl⟩
  · exact ⟨rfl, rfl⟩

theorem sizes_delete (t : Table) (k : List UInt8) :
    (t.delete k).2.keySize = t.keySize ∧ (t.delete k).2.valueSize = t.valueSize := by
  rw [delete]
  split
  · split <;> exact ⟨rfl, rfl⟩
  · exact ⟨rfl, rfl⟩

instance : MapHandle Table where
  keySize := keySize
  valueSize := valueSize
  lookup := lookup
  update := update
  delete := delete
  contents := entries
  length_key := length_key
  length_value := length_value
  lookup_eq t k hk := if_pos hk
  update_ok t k v flag m hk hv hm := by
    obtain ⟨hroom, rfl⟩ := BoundedMap.of_update_eq_ok hm
    rw [update, dif_pos ⟨hk, hv⟩, hm]
    simp only [dif_pos hroom, true_and]
    rfl
  update_error t k v flag why hk hv hm := by
    rw [update, dif_pos ⟨hk, hv⟩, hm]
    exact ⟨⟨_, rfl, reports_refused why⟩, rfl⟩
  delete_ok t k m hk hm := by
    rw [delete, if_pos hk, hm]
    rw [BoundedMap.delete] at hm
    split at hm
    · cases hm
      exact ⟨rfl, rfl⟩
    · cases hm
  delete_error t k why hk hm := by
    rw [delete, if_pos hk, hm]
    exact ⟨⟨_, rfl, reports_refused why⟩, rfl⟩
  keySize_update t k v flag := (t.sizes_update k v flag).1
  valueSize_update t k v flag := (t.sizes_update k v flag).2
  keySize_delete t k := (t.sizes_delete k).1
  valueSize_delete t k := (t.sizes_delete k).2

end Table

end Collections

end Xbpf
