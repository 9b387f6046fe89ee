import Mathlib.Algebra.Group.Nat.Defs
import Xbpf.Collections.HashMapModel
import Xbpf.Collections.MapCore

/-!
# The batched operations of the typed hash map

The operations on many entries hand flat buffers to a single batch call of the
kernel map. They put the bytes of the elements one after the other in two ways, but
on a map whose sizes fit both are sliced into the elements again. So a batch does
what the calls on its elements do one by one, up to the first one that fails.
-/

namespace Xbpf

namespace Collections

open Maps

namespace HashMap

open MapOp

section Operations

variable {κ K V : Type} [MapCore κ] [Pod K] [Pod V]

variable (K) in
def keys : MapOp κ (List K) := do
  let raw ← reading fun h => .ok (MapCore.keys h)
  raw.mapM reads

/-- The number of pairs that a batched lookup asks for at once: `max_entries`, but
at least 1 and at most 512. -/
def batchSize (maxEntries : UInt32) : UInt32 :=
  if maxEntries < 1 then 1 else if 512 < maxEntries then 512 else maxEntries

variable (K V) in
def iter : MapOp κ (List (K × V)) := do
  let raw ← reading fun h => MapCore.lookupBatch h (batchSize (MapCore.maxEntries h))
  raw.mapM fun p => do
    let k ← reads p.1
    let v ← reads p.2
    pure (k, v)

variable (K V) in
def values : MapOp κ (List V) := do
  let pairs ← iter K V
  pure (pairs.map Prod.snd)

variable (K) in
def len : MapOp κ ℕ := do
  let ks ← keys K
  pure ks.length

variable (K) in
/-- Only the first key is read. -/
def isEmpty : MapOp κ Bool := do
  match ← reading fun h => .ok (MapCore.keys h) with
  | [] => pure true
  | bytes :: _ => do
      let _ : K ← reads bytes
      pure false

def insertBatch (entries : List (K × V)) : MapOp κ Unit :=
  if entries.isEmpty then pure ()
  else calling fun h => MapCore.updateBatch h (entries.flatMap fun e => podBytes e.1)
    (entries.flatMap fun e => podBytes e.2) (.ofNat entries.length)

def removeBatch (keys : List K) : MapOp κ Unit :=
  if keys.isEmpty then pure ()
  else calling fun h => MapCore.deleteBatch h (podSliceBytes keys) (.ofNat keys.length)

def extend (iter : List (K × V)) : MapOp κ Unit :=
  insertBatch iter

variable (K) in
def clear : MapOp κ Unit := do
  let ks ← keys K
  removeBatch ks

end Operations

/-- Both computations succeed or both fail, and they leave the same entries. -/
def Agree {κ : Type} [MapHandle κ] (op op' : MapOp κ Unit) (h : κ) : Prop :=
  ∃ r h₁ r' h₂, op.run h = some (r, h₁) ∧ op'.run h = some (r', h₂) ∧ r.isOk = r'.isOk ∧
    MapHandle.contents h₁ = MapHandle.contents h₂

section Elements

variable {κ K V α β : Type}

theorem forM_cons (f : α → MapOp κ Unit) (a : α) (as : List α) :
    (a :: as).forM f = f a >>= fun _ => as.forM f :=
  rfl

theorem run_forM (f : α → κ → Except Error Unit × κ) (as : List α) (h : κ) :
    (as.forM fun a => calling (f a) : MapOp κ Unit).run h = some (inOrder f as h) := by
  induction as generalizing h with
  | nil => rfl
  | cons a as ih =>
      rw [forM_cons, inOrder]
      rcases hfa : f a h with ⟨err | ⟨⟩, h'⟩
      · exact run_bind_of_error (run_calling hfa) _
      · rw [run_bind_of_ok (run_calling hfa)]
        exact ih h'

theorem inOrder_map (f : α → κ → Except Error Unit × κ) (g : β → α) (bs : List β) (h : κ) :
    inOrder f (bs.map g) h = inOrder (fun b => f (g b)) bs h := by
  induction bs generalizing h with
  | nil => rfl
  | cons b bs ih =>
      rw [List.map_cons, inOrder, inOrder]
      rcases f (g b) h with ⟨err | ⟨⟩, h'⟩
      · rfl
      · exact ih h'

variable [MapHandle κ] [Pod K] [Pod V]

theorem run_updates (entries : List (K × V)) (h : κ) :
    (entries.forM fun e => update e.1 e.2 : MapOp κ Unit).run h =
      some (inOrder updateElement (entries.map fun e => (podBytes e.1, podBytes e.2)) h) := by
  rw [inOrder_map]
  exact run_forM _ entries h

theorem run_deletes (keys : List K) (h : κ) :
    (keys.forM delete : MapOp κ Unit).run h =
      some (inOrder deleteElement (keys.map podBytes) h) := by
  rw [inOrder_map]
  exact run_forM _ keys h

end Elements

section Agreement

variable {κ K V : Type} [MapCore κ] [Pod K] [Pod V] {h : κ}

theorem toNat_count {n : ℕ} (hlt : n < 2 ^ 32) : (UInt32.ofNat n).toNat = n :=
  UInt32.toNat_ofNat_of_lt hlt

theorem count_ne_zero {n : ℕ} (hlt : n < 2 ^ 32) (hn : n ≠ 0) : UInt32.ofNat n ≠ 0 := by
  intro hzero
  have htoNat := toNat_count hlt
  rw [hzero] at htoNat
  exact hn htoNat.symm

/-- A batch of entries is updated one by one. -/
theorem agree_insertBatch (hfits : Fits K V h) (entries : List (K × V))
    (hlt : entries.length < 2 ^ 32) :
    Agree (insertBatch entries) (entries.forM fun e => update e.1 e.2) h := by
  cases hentries : entries with
  | nil => exact ⟨_, _, _, _, rfl, rfl, rfl, rfl⟩
  | cons e rest =>
      rw [← hentries]
      have hne : entries.length ≠ 0 := by rw [hentries]; exact Nat.succ_ne_zero _
      have hkey (e : K × V) : (podBytes e.1).length = MapHandle.keySize h := by
        rw [length_podBytes, hfits.keySize]
      have hvalue (e : K × V) : (podBytes e.2).length = MapHandle.valueSize h := by
        rw [length_podBytes, hfits.valueSize]
      have hbatch := MapCore.updateBatch_eq h (entries.flatMap fun e => podBytes e.1)
        (entries.flatMap fun e => podBytes e.2) (.ofNat entries.length)
        (count_ne_zero hlt hne) (by rw [toNat_count hlt, length_flatMap_of_size hkey])
        (by rw [toNat_count hlt, length_flatMap_of_size hvalue])
      rw [toNat_count hlt, slices_flatMap hkey, slices_flatMap hvalue, List.zip_map'] at hbatch
      refine ⟨_, _, _, _, ?_, run_updates entries h, hbatch⟩
      rw [insertBatch, hentries]
      rfl

theorem agree_removeBatch (hfits : Fits K V h) (keys : List K) (hlt : keys.length < 2 ^ 32) :
    Agree (removeBatch keys) (keys.forM delete) h := by
  cases hkeys : keys with
  | nil => exact ⟨_, _, _, _, rfl, rfl, rfl, rfl⟩
  | cons k rest =>
      rw [← hkeys]
      have hne : keys.length ≠ 0 := by rw [hkeys]; exact Nat.succ_ne_zero _
      have hkey (k : K) : (Pod.toBytes k).length = MapHandle.keySize h := by
        rw [Pod.length_toBytes, hfits.keySize]
      have hlen : (podSliceBytes keys).length = keys.length * MapHandle.keySize h := by
        rw [podSliceBytes, length_flatMap_of_size hkey]
      have hbatch := MapCore.deleteBatch_eq h (podSliceBytes keys) (.ofNat keys.length)
        (count_ne_zero hlt hne) (by rw [toNat_count hlt, hlen])
      rw [toNat_count hlt, podSliceBytes, slices_flatMap hkey] at hbatch
      have hbytes : keys.map podBytes = keys.map Pod.toBytes :=
        List.map_congr_left fun k _ => podBytes_eq k
      rw [← hbytes] at hbatch
      refine ⟨_, _, _, _, ?_, run_deletes keys h, hbatch⟩
      rw [removeBatch, hkeys]
      rfl

theorem agree_extend (hfits : Fits K V h) (iter : List (K × V)) (hlt : iter.length < 2 ^ 32) :
    Agree (extend iter) (iter.forM fun e => update e.1 e.2) h :=
  agree_insertBatch hfits iter hlt

end Agreement

section Keys

variable {κ α β : Type} {h : κ}

theorem run_mapM {f : α → MapOp κ β} {g : α → β} {as : List α}
    (hf : ∀ a ∈ as, (f a).run h = some (.ok (g a), h)) :
    (as.mapM f).run h = some (.ok (as.map g), h) := by
  induction as with
  | nil => rfl
  | cons a as ih =>
      have hrest := ih fun b hb => hf b (List.mem_cons_of_mem a hb)
      rw [List.mapM_cons, run_bind_of_ok (hf a List.mem_cons_self), run_bind_of_ok hrest]
      rfl

variable {K V : Type} [Pod K] [Pod V]

theorem run_reads {bytes : List UInt8} (hlen : Pod.size K ≤ bytes.length) :
    (reads bytes : MapOp κ K).run h = some (.ok (Pod.ofBytes (bytes.take (Pod.size K))), h) := by
  show (podFromBytes bytes).map _ = _
  rw [podFromBytes, if_neg (Nat.not_lt.mpr hlen)]
  rfl

variable [MapCore κ]

theorem run_keys (hfits : Fits K V h) :
    ∃ ks : List K, (keys K).run h = some (.ok ks, h) ∧ ks.map podBytes = MapCore.keys h := by
  have hlen : ∀ bytes ∈ MapCore.keys h, bytes.length = Pod.size K := by
    intro bytes hbytes
    rw [MapHandle.length_key h bytes ((MapCore.mem_keys h bytes).mp hbytes), hfits.keySize]
  have hraw : (reading fun h : κ => .ok (MapCore.keys h)).run h = some (.ok (MapCore.keys h), h) :=
    rfl
  refine ⟨(MapCore.keys h).map fun bytes => Pod.ofBytes (bytes.take (Pod.size K)), ?_, ?_⟩
  · rw [keys, run_bind_of_ok hraw]
    exact run_mapM fun bytes hbytes => run_reads (Nat.le_of_eq (hlen bytes hbytes).symm)
  · rw [List.map_map]
    refine (List.map_congr_left fun bytes hbytes => ?_).trans (List.map_id _)
    have htake := List.take_of_length_le (Nat.le_of_eq (hlen bytes hbytes))
    show podBytes (Pod.ofBytes (bytes.take (Pod.size K)) : K) = bytes
    rw [htake, podBytes_ofBytes (hlen bytes hbytes)]

variable {m : BoundedMap K V} {ks : List K}

theorem nodup_keys (hks : ks.map podBytes = MapCore.keys h) : ks.Nodup :=
  List.Nodup.of_map podBytes (hks ▸ MapCore.nodup_keys h)

theorem mem_keys (hm : Represents h m) (hks : ks.map podBytes = MapCore.keys h)
    (k : K) : k ∈ ks ↔ (m.get k).isSome = true := by
  rw [← List.mem_map_of_injective podBytes_injective, hks, MapCore.mem_keys,
    (MapHandle.contents h).mem_keys, hm.coded.isSome_eq]

theorem length_keys_lt (hks : ks.map podBytes = MapCore.keys h) : ks.length < 2 ^ 32 := by
  have hcard : (MapCore.keys h).toFinset = (MapHandle.contents h).keys := by
    ext k
    rw [List.mem_toFinset, MapCore.mem_keys]
  calc ks.length = (MapCore.keys h).length := by rw [← hks, List.length_map]
    _ = (MapHandle.contents h).keys.card := by
        rw [← hcard, List.toFinset_card_of_nodup (MapCore.nodup_keys h)]
    _ ≤ (MapCore.maxEntries h).toNat := MapCore.capacity_eq h ▸ (MapHandle.contents h).card_le
    _ < 2 ^ 32 := (MapCore.maxEntries h).toNat_lt

end Keys

section OneByOne

variable {κ K V : Type} [MapHandle κ] [Pod K] [Pod V] [DecidableEq K] {h : κ}
  {m : BoundedMap K V}

/-- Updates one by one that all succeed leave the last value of each key. -/
theorem updates_represents (hm : Represents h m) {entries : List (K × V)} {h' : κ}
    (hrun : (entries.forM fun e => update e.1 e.2 : MapOp κ Unit).run h = some (.ok (), h')) :
    ∃ m', Represents h' m' ∧
      (∀ before k v after, entries = before ++ (k, v) :: after → k ∉ after.map Prod.fst →
        m'.get k = some v) ∧
      ∀ k, k ∉ entries.map Prod.fst → m'.get k = m.get k := by
  induction entries generalizing h m with
  | nil =>
      cases hrun
      exact ⟨m, hm, fun before k v after heq => by simp at heq, fun _ _ => rfl⟩
  | cons e entries ih =>
      rcases run_update hm e.1 e.2 with ⟨hroom, h₁, hfirst, hm₁⟩ | ⟨_, err, h₁, hfirst, _⟩
      · rw [forM_cons, run_bind_of_ok hfirst] at hrun
        obtain ⟨m', hm', hlast, hother⟩ := ih hm₁ hrun
        refine ⟨m', hm', ?_, ?_⟩
        · intro before k v after heq hk
          cases before with
          | nil =>
              obtain ⟨rfl, rfl⟩ := List.cons_eq_cons.mp heq
              rw [hother k hk, BoundedMap.get_put, Function.update_self]
          | cons b before => exact hlast before k v after (List.cons_eq_cons.mp heq).2 hk
        · intro k hk
          rw [List.map_cons, List.mem_cons, not_or] at hk
          rw [hother k hk.2, BoundedMap.get_put, Function.update_of_ne hk.1]
      · rw [forM_cons, run_bind_of_error hfirst] at hrun
        cases hrun

/-- Deleting keys that are all there removes them. -/
theorem deletes_represents (hm : Represents h m) {ks : List K} (hnodup : ks.Nodup)
    (hpresent : ∀ k ∈ ks, (m.get k).isSome = true) :
    ∃ h', ∃ m' : BoundedMap K V,
      (ks.forM delete : MapOp κ Unit).run h = some (.ok (), h') ∧ Represents h' m' ∧
      ∀ k, (m'.get k).isSome = true ↔ (m.get k).isSome = true ∧ k ∉ ks := by
  induction ks generalizing h m with
  | nil => exact ⟨h, m, rfl, hm, fun k => by simp⟩
  | cons k ks ih =>
      rcases run_delete hm k with ⟨_, h₁, hfirst, hm₁⟩ | ⟨habsent, _⟩
      · obtain ⟨hk, hnodup⟩ := List.nodup_cons.mp hnodup
        have herase : ∀ k', ((m.erase k).get k').isSome = true ↔
            (m.get k').isSome = true ∧ k' ≠ k := by
          intro k'
          rw [BoundedMap.get_erase]
          by_cases hk' : k' = k
          · simp [hk']
          · simp [hk']
        obtain ⟨h', m', hrest, hm', hkeys⟩ := ih hm₁ hnodup fun k' hk' =>
          (herase k').mpr ⟨hpresent k' (List.mem_cons_of_mem k hk'), fun heq => hk (heq ▸ hk')⟩
        refine ⟨h', m', ?_, hm', fun k' => ?_⟩
        · rw [forM_cons, run_bind_of_ok hfirst, hrest]
        · rw [hkeys, herase, List.mem_cons, not_or, and_assoc]
      · exact absurd (hpresent k List.mem_cons_self) habsent

end OneByOne

section Theorems

variable {κ K V : Type} [MapCore κ] [Pod K] [Pod V] {h : κ}

theorem Represents.valueOf_eq {m : BoundedMap K V} (hm : Represents h m) (k : K) :
    valueOf h k = m.get k := by
  rw [valueOf, hm.coded.get_eq]
  cases m.get k with
  | none => rfl
  | some v => exact podFromBytes_podBytes v

/-- The last value of a key in a batch that succeeds wins. -/
theorem insertBatch_last (hfits : Fits K V h) {entries : List (K × V)}
    (hlt : entries.length < 2 ^ 32) {h' : κ}
    (hrun : (insertBatch entries).run h = some (.ok (), h')) :
    (∀ before k v after, entries = before ++ (k, v) :: after → k ∉ after.map Prod.fst →
        valueOf h' k = some v) ∧
      ∀ k, k ∉ entries.map Prod.fst → valueOf h' k = (valueOf h k : Option V) := by
  classical
  obtain ⟨m, hm⟩ := exists_represents hfits
  obtain ⟨r, h₁, r', h₂, hbatch, hone, hok, hcontents⟩ := agree_insertBatch hfits entries hlt
  rw [hrun] at hbatch
  cases hbatch
  rcases r' with err | ⟨⟩
  · cases hok
  · obtain ⟨m', hm', hlast, hother⟩ := updates_represents hm hone
    have hvalue (k : K) : valueOf h' k = m'.get k := by
      rw [← hm'.valueOf_eq k, valueOf, valueOf, hcontents]
    refine ⟨fun before k v after heq hk => ?_, fun k hk => ?_⟩
    · rw [hvalue, hlast before k v after heq hk]
    · rw [hvalue, hother k hk, hm.valueOf_eq]

theorem run_clear (hfits : Fits K V h) :
    ∃ h', (clear K : MapOp κ Unit).run h = some (.ok (), h') ∧
      (MapHandle.contents h').keys = ∅ := by
  classical
  obtain ⟨m, hm⟩ := exists_represents hfits
  obtain ⟨ks, hrun, hks⟩ := run_keys hfits
  obtain ⟨r, h₁, r', h₂, hbatch, hone, hok, hcontents⟩ :=
    agree_removeBatch hfits ks (length_keys_lt hks)
  obtain ⟨h', m', hdeletes, hm', hgone⟩ :=
    deletes_represents hm (nodup_keys hks) fun k hk => (mem_keys hm hks k).mp hk
  rw [hdeletes] at hone
  cases hone
  rcases r with err | ⟨⟩
  · cases hok
  · refine ⟨h₁, ?_, ?_⟩
    · rw [clear, run_bind_of_ok hrun, hbatch]
    · have hempty : m'.keys = ∅ := by
        refine Finset.eq_empty_of_forall_notMem fun k hk => ?_
        obtain ⟨hpresent, hnot⟩ := (hgone k).mp ((m'.mem_keys k).mp hk)
        exact hnot ((mem_keys hm hks k).mpr hpresent)
      rw [hcontents, hm'.coded.keys_eq, hempty, Finset.image_empty]

/-- A batch of entries or keys does what the calls on its elements do one by one, up
to the first one that fails, and clearing a map empties it. -/
theorem batches_agree (hfits : Fits K V h) :
    (∀ entries : List (K × V), entries.length < 2 ^ 32 →
      Agree (insertBatch entries) (entries.forM fun e => update e.1 e.2) h ∧
      Agree (extend entries) (entries.forM fun e => update e.1 e.2) h ∧
      ∀ h', (insertBatch entries).run h = some (.ok (), h') →
        (∀ before k v after, entries = before ++ (k, v) :: after → k ∉ after.map Prod.fst →
          valueOf h' k = some v) ∧
        ∀ k, k ∉ entries.map Prod.fst → valueOf h' k = (valueOf h k : Option V)) ∧
    (∀ ks : List K, ks.length < 2 ^ 32 → Agree (removeBatch ks) (ks.forM delete) h) ∧
    ∃ h', (clear K : MapOp κ Unit).run h = some (.ok (), h') ∧
      (MapHandle.contents h').keys = ∅ := by
  refine ⟨fun entries hlt => ⟨?_, ?_, ?_⟩, fun ks hlt => ?_, ?_⟩
  · exact agree_insertBatch hfits entries hlt
  · exact agree_extend hfits entries hlt
  · intro h' hrun
    exact insertBatch_last hfits hlt hrun
  · exact agree_removeBatch hfits ks hlt
  · exact run_clear hfits

/-- A batch of two values of one key. -/
theorem batches_agree_table :
    Agree (insertBatch ([(3, 4), (3, 5)] : List (UInt8 × UInt8)))
      (([(3, 4), (3, 5)] : List (UInt8 × UInt8)).forM fun e => update e.1 e.2)
      (HashTable.create 1 1 2) :=
  ((batches_agree (⟨rfl, rfl⟩ : Fits UInt8 UInt8 (HashTable.create 1 1 2))).1 _ (by decide)).1

end Theorems

end HashMap

end Collections

end Xbpf
