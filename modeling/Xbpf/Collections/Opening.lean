import Xbpf.Collections.HashMapModel
import Xbpf.Collections.PodTypes

/-!
# Maps that are opened with several types

Before a map is opened with types of keys and values, the type and the sizes of the map are
checked. The sizes of the types are cut to 32 bits for that, which only matters to types of
4 GiB and more. A map can be opened more than once, and with other types each time. What is
stored through one of them is found through the others bit by bit: all of them are views of
one finite map.
-/

namespace Xbpf

namespace Collections

open Maps

/-- The type of a map, as far as it is looked at. -/
structure MapKind where
  name : String
  isHashMap : Bool
  isPercpu : Bool

/-- What a handle knows of its map besides the sizes. The name is the one that is shown. -/
structure MapInfo where
  name : String
  mapType : MapKind

/-- The size of a type as an unsigned number of 32 bits. -/
def sizeOfU32 (T : Type) [Pod T] : ℕ :=
  Pod.size T % 2 ^ 32

section Validation

variable {κ K V : Type} [MapHandle κ] [Pod K] [Pod V]

variable (K V) in
def validate (info : MapInfo) (h : κ) : Except Error Unit :=
  let name := info.name
  let ty := info.mapType.name
  let keySize := sizeOfU32 K
  let valueSize := sizeOfU32 V
  let handleKeySize := MapHandle.keySize h
  let handleValueSize := MapHandle.valueSize h
  if !info.mapType.isHashMap || info.mapType.isPercpu then
    .error (invalidInput s!"map {name} has type {ty}, expected a (non-per-cpu) hash map")
  else if handleKeySize ≠ keySize then
    .error (invalidInput s!"map {name} has key size {handleKeySize}, but `K` has size {keySize}")
  else if handleValueSize ≠ valueSize then
    .error (invalidInput
      s!"map {name} has value size {handleValueSize}, but `V` has size {valueSize}")
  else .ok ()

theorem validate_eq_ok_iff {info : MapInfo} {h : κ} :
    validate K V info h = .ok () ↔
      (info.mapType.isHashMap = true ∧ info.mapType.isPercpu = false) ∧
        MapHandle.keySize h = sizeOfU32 K ∧ MapHandle.valueSize h = sizeOfU32 V := by
  unfold validate
  dsimp only
  split
  · rename_i hkind
    simp only [reduceCtorEq, false_iff]
    rintro ⟨⟨hhash, hpercpu⟩, -⟩
    simp [hhash, hpercpu] at hkind
  · rename_i hkind
    have hkind' : info.mapType.isHashMap = true ∧ info.mapType.isPercpu = false := by
      simpa using hkind
    split
    · rename_i hkey
      simp [hkey]
    · rename_i hkey
      split
      · rename_i hvalue
        simp [hvalue]
      · rename_i hvalue
        simpa using ⟨hkind', not_not.mp hkey, not_not.mp hvalue⟩

theorem HashMap.Fits.of_validate {info : MapInfo} {h : κ} (hkey : Pod.size K < 2 ^ 32)
    (hvalue : Pod.size V < 2 ^ 32) (hvalid : validate K V info h = .ok ()) :
    HashMap.Fits K V h := by
  obtain ⟨_, hkeySize, hvalueSize⟩ := validate_eq_ok_iff.mp hvalid
  exact ⟨hkeySize.trans (Nat.mod_eq_of_lt hkey), hvalueSize.trans (Nat.mod_eq_of_lt hvalue)⟩

end Validation

section Recast

variable {T T' : Type} [Pod T] [Pod T']

/-- The value of another type with the same bytes. -/
def recast (x : T) : T' :=
  Pod.ofBytes (Pod.toBytes x)

theorem podBytes_recast (hsize : Pod.size T = Pod.size T') (x : T) :
    podBytes (recast x : T') = podBytes x := by
  rw [recast, podBytes_ofBytes ((Pod.length_toBytes x).trans hsize), podBytes_eq]

theorem recast_recast (hsize : Pod.size T = Pod.size T') (x : T) :
    recast (recast x : T') = x := by
  refine podBytes_injective ?_
  rw [podBytes_recast hsize.symm, podBytes_recast hsize]

theorem recast_injective (hsize : Pod.size T = Pod.size T') :
    Function.Injective (recast : T → T') :=
  Function.LeftInverse.injective (recast_recast hsize)

theorem recast_surjective (hsize : Pod.size T = Pod.size T') :
    Function.Surjective (recast : T → T') :=
  fun x => ⟨recast x, recast_recast hsize.symm x⟩

end Recast

section Renaming

variable {K K' V V' : Type} {f : K → K'} {g : V → V'}

def Answer.map (g : V → V') : Answer V → Answer V'
  | .value v => .value (v.map g)
  | .flag b => .flag b
  | .done => .done

def Call.map (f : K → K') (g : V → V') : Call K V → Call K' V'
  | .get key => .get (f key)
  | .containsKey key => .containsKey (f key)
  | .insert key value => .insert (f key) (g value)
  | .update key value => .update (f key) (g value)
  | .insertNew key value => .insertNew (f key) (g value)
  | .replace key value => .replace (f key) (g value)
  | .remove key => .remove (f key)
  | .delete key => .delete (f key)

variable [DecidableEq K] [DecidableEq K'] {m : BoundedMap K V} {m' : BoundedMap K' V'}

theorem coded_store (hcoded : BoundedMap.Coded f g m m') (hf : Function.Injective f) (key : K)
    (value : V) {a : Answer V} {a' : Answer V'} (ha : a' = a.map g) :
    let r : BoundedMap K V × Option (Answer V) :=
      if h : m.HasRoom key then (m.put key value h, some a) else (m, none)
    let r' : BoundedMap K' V' × Option (Answer V') :=
      if h : m'.HasRoom (f key) then (m'.put (f key) (g value) h, some a') else (m', none)
    BoundedMap.Coded f g r.1 r'.1 ∧ r'.2 = r.2.map (Answer.map g) := by
  by_cases hroom : m.HasRoom key
  · have hroom' := (hcoded.hasRoom_iff hf key).mpr hroom
    simp only [dif_pos hroom, dif_pos hroom']
    exact ⟨hcoded.put hf key value hroom hroom', congrArg some ha⟩
  · have hroom' := fun h => hroom ((hcoded.hasRoom_iff hf key).mp h)
    simp only [dif_neg hroom, dif_neg hroom']
    exact ⟨hcoded, rfl⟩

/-- A map with other names for its keys and values answers with these names. -/
theorem Call.answer_map (hcoded : BoundedMap.Coded f g m m') (hf : Function.Injective f)
    (call : Call K V) :
    BoundedMap.Coded f g (call.answer m).1 ((call.map f g).answer m').1 ∧
      ((call.map f g).answer m').2 = (call.answer m).2.map (Answer.map g) := by
  have hsome := hcoded.isSome_eq
  cases call with
  | get key => exact ⟨hcoded, by simp [answer, Call.map, Answer.map, hcoded.get_eq]⟩
  | containsKey key => exact ⟨hcoded, by simp [answer, Call.map, Answer.map, hcoded.get_eq]⟩
  | insert key value =>
      exact coded_store hcoded hf key value (congrArg Answer.value (hcoded.get_eq key))
  | update key value => exact coded_store hcoded hf key value rfl
  | insertNew key value =>
      simp only [Call.map, answer, hsome]
      split
      · exact ⟨hcoded, rfl⟩
      · exact coded_store hcoded hf key value rfl
  | replace key value =>
      by_cases hkey : (m.get key).isSome = true
      · have hkey' := (hsome key).trans hkey
        simp only [Call.map, answer, dif_pos hkey, dif_pos hkey']
        exact ⟨hcoded.put hf key value (.inl hkey) (.inl hkey'), rfl⟩
      · have hkey' := fun h => hkey ((hsome key).symm.trans h)
        simp only [Call.map, answer, dif_neg hkey, dif_neg hkey']
        exact ⟨hcoded, rfl⟩
  | remove key =>
      exact ⟨hcoded.erase hf key, by simp [answer, Call.map, Answer.map, hcoded.get_eq]⟩
  | delete key =>
      simp only [Call.map, answer, hsome]
      split
      · exact ⟨hcoded.erase hf key, rfl⟩
      · exact ⟨hcoded, rfl⟩

end Renaming

section Views

open HashMap

variable {κ K V K' V' : Type} [MapHandle κ] [Pod K] [Pod V] [Pod K'] [Pod V'] {h : κ}
  {m : BoundedMap K V} {m' : BoundedMap K' V'}

/-- Two views of a kernel map hold the same entries. -/
theorem HashMap.Represents.coded_recast [DecidableEq K'] (hm : Represents h m)
    (hm' : Represents h m') : BoundedMap.Coded recast recast m m' := by
  have hkey : Pod.size K = Pod.size K' := hm.fits.keySize.symm.trans hm'.fits.keySize
  have hvalue : Pod.size V = Pod.size V' := hm.fits.valueSize.symm.trans hm'.fits.valueSize
  have hget (k : K) : m'.get (recast k) = (m.get k).map recast := by
    have hbytes := hm'.coded.get_eq (recast k)
    rw [podBytes_recast hkey, hm.coded.get_eq] at hbytes
    refine Option.map_injective podBytes_injective ?_
    rw [← hbytes, Option.map_map]
    exact congrArg (fun f => (m.get k).map f) (funext fun v => (podBytes_recast hvalue v).symm)
  refine ⟨hget, ?_, hm'.coded.capacity_eq.symm.trans hm.coded.capacity_eq⟩
  ext k'
  obtain ⟨k, rfl⟩ := recast_surjective hkey k'
  rw [m'.mem_keys, hget, Option.isSome_map, ← m.mem_keys,
    (recast_injective hkey).mem_finset_image]

theorem HashMap.Represents.of_coded [DecidableEq K'] (hm : Represents h m)
    (hkey : Pod.size K = Pod.size K') (hvalue : Pod.size V = Pod.size V')
    (hcoded : BoundedMap.Coded recast recast m m') : Represents h m' := by
  have hfits : Fits K' V' h := ⟨hm.fits.keySize.trans hkey, hm.fits.valueSize.trans hvalue⟩
  obtain ⟨m₁, hm₁⟩ := exists_represents hfits
  have hcoded₁ := hm.coded_recast hm₁
  have heq : m₁ = m' := by
    refine BoundedMap.ext (funext fun k' => ?_)
      (hcoded₁.capacity_eq.trans hcoded.capacity_eq.symm)
    obtain ⟨k, rfl⟩ := recast_surjective hkey k'
    rw [hcoded₁.get_eq, hcoded.get_eq]
  exact heq ▸ hm₁

/-- A call through one of two views, in terms of the first one. -/
def asFirst : Call K V ⊕ Call K' V' → Call K V
  | .inl call => call
  | .inr call => call.map recast recast

variable (κ) in
def viewNext (h : κ) : Call K V ⊕ Call K' V' → Option (κ × Except Error (Answer V))
  | .inl call => callNext κ h call
  | .inr call => (callNext κ h call).map fun x => (x.1, x.2.map (Answer.map recast))

theorem viewNext_answers [DecidableEq K] (hm : Represents h m)
    (hkey : Pod.size K' = Pod.size K) (hvalue : Pod.size V' = Pod.size V)
    (call : Call K V ⊕ Call K' V') :
    ∃ h' r, viewNext κ h call = some (h', r) ∧ r.toOption = ((asFirst call).answer m).2 ∧
      Represents h' ((asFirst call).answer m).1 := by
  classical
  cases call with
  | inl call =>
      obtain ⟨r, h', hrun, hanswer, hm', _⟩ := answers_call hm call
      exact ⟨h', r, by simp [viewNext, callNext, hrun], hanswer, hm'⟩
  | inr call =>
      obtain ⟨m', hm'⟩ : ∃ m' : BoundedMap K' V', Represents h m' :=
        exists_represents ⟨hm.fits.keySize.trans hkey.symm, hm.fits.valueSize.trans hvalue.symm⟩
      obtain ⟨r, h', hrun, hanswer, hrep, _⟩ := answers_call hm' call
      obtain ⟨hcoded, hmap⟩ := Call.answer_map (hm'.coded_recast hm) (recast_injective hkey) call
      refine ⟨h', r.map (Answer.map recast), by simp [viewNext, callNext, hrun], ?_,
        hrep.of_coded hkey hvalue hcoded⟩
      rw [asFirst, hmap, ← hanswer]
      cases r <;> rfl

end Views

end Collections

end Xbpf
