import Mathlib.Data.List.Dedup
import Xbpf.Collections.PodTypes

/-!
# The views of the typed hash map

The keys are walked one by one, the pairs in batches, in which a short key is padded.
Both walks, and what is derived from them, show the same finite map.
-/

namespace Xbpf

namespace Collections

open Maps

namespace HashMap

open MapOp

section Views

variable {κ K V : Type} [MapCore κ] [Pod K] [Pod V] {h : κ} {m : BoundedMap K V}

theorem batchSize_ne_zero (maxEntries : UInt32) : batchSize maxEntries ≠ 0 := by
  intro hzero
  rw [batchSize] at hzero
  split at hzero
  · cases hzero
  · rename_i hlow
    split at hzero
    · cases hzero
    · exact hlow (by rw [hzero]; decide)

def pairBytes (p : K × V) : List UInt8 × List UInt8 :=
  (podBytes p.1, podBytes p.2)

omit [MapCore κ] in
theorem pairBytes_injective : Function.Injective (pairBytes : K × V → _) := by
  intro p q heq
  exact Prod.ext (podBytes_injective (congrArg Prod.fst heq))
    (podBytes_injective (congrArg Prod.snd heq))

/-- A batched walk gives the pairs whose bytes lead the raw ones. -/
theorem run_iter (hfits : Fits K V h) :
    ∃ pairs : List (K × V), (iter K V).run h = some (.ok pairs, h) ∧
      (pairs.map pairBytes).Nodup ∧
      ∀ k v, (k, v) ∈ pairs.map pairBytes ↔ (MapHandle.contents h).get k = some v := by
  obtain ⟨raw, hlookup, hnodup, hmem⟩ :=
    MapCore.lookupBatch_eq h _ (batchSize_ne_zero (MapCore.maxEntries h))
  rw [hfits.keySize] at hnodup hmem
  have hget : ∀ p ∈ raw, (MapHandle.contents h).get (p.1.take (Pod.size K)) = some p.2 :=
    fun p hp => (hmem _ _).mp (List.mem_map.mpr ⟨p, hp, rfl⟩)
  have hkey : ∀ p ∈ raw, (p.1.take (Pod.size K)).length = Pod.size K := by
    intro p hp
    have hmem : p.1.take (Pod.size K) ∈ (MapHandle.contents h).keys :=
      ((MapHandle.contents h).mem_keys _).mpr (by rw [hget p hp, Option.isSome_some])
    rw [MapHandle.length_key h _ hmem, hfits.keySize]
  have hvalue : ∀ p ∈ raw, p.2.length = Pod.size V := by
    intro p hp
    rw [MapHandle.length_value h _ _ (hget p hp), hfits.valueSize]
  have hraw : (reading fun h : κ => MapCore.lookupBatch h
      (batchSize (MapCore.maxEntries h))).run h = some (.ok raw, h) := by
    rw [← hlookup]
    rfl
  have hcode : (raw.map fun p => ((Pod.ofBytes (p.1.take (Pod.size K)) : K),
      (Pod.ofBytes (p.2.take (Pod.size V)) : V))).map pairBytes =
        raw.map fun p => (p.1.take (Pod.size K), p.2) := by
    rw [List.map_map]
    refine List.map_congr_left fun p hp => ?_
    have hbytes : podBytes (Pod.ofBytes (p.2.take (Pod.size V)) : V) = p.2 := by
      rw [List.take_of_length_le (Nat.le_of_eq (hvalue p hp)), podBytes_ofBytes (hvalue p hp)]
    exact Prod.ext (podBytes_ofBytes (hkey p hp)) hbytes
  refine ⟨_, ?_, hcode ▸ hnodup, hcode ▸ hmem⟩
  rw [iter, run_bind_of_ok hraw]
  refine run_mapM fun p hp => ?_
  have hlen : Pod.size K ≤ p.1.length :=
    (Nat.le_of_eq (hkey p hp).symm).trans (List.length_take_le' _ _)
  rw [run_bind_of_ok (run_reads hlen),
    run_bind_of_ok (run_reads (Nat.le_of_eq (hvalue p hp).symm))]
  rfl

variable {ks : List K} {pairs : List (K × V)}

theorem Represents.mem_pairs (hm : Represents h m)
    (hmem : ∀ k v, (k, v) ∈ pairs.map pairBytes ↔ (MapHandle.contents h).get k = some v)
    (k : K) (v : V) : (k, v) ∈ pairs ↔ m.get k = some v := by
  rw [← List.mem_map_of_injective pairBytes_injective]
  show (podBytes k, podBytes v) ∈ _ ↔ _
  rw [hmem, hm.coded.get_eq, Option.map_eq_some_iff]
  constructor
  · rintro ⟨v', hv', heq⟩
    rw [hv', podBytes_injective heq]
  · intro hv
    exact ⟨v, hv, rfl⟩

omit [MapCore κ] [Pod K] [Pod V] in
theorem perm_keys (hkeys : ks.Nodup) (hks : ∀ k, k ∈ ks ↔ (m.get k).isSome = true)
    (hnodup : pairs.Nodup) (hpairs : ∀ k v, (k, v) ∈ pairs ↔ m.get k = some v) :
    ks.Perm (pairs.map Prod.fst) := by
  have hfst : (pairs.map Prod.fst).Nodup := by
    refine hnodup.map_on ?_
    rintro ⟨k, v⟩ hv ⟨k', w⟩ hw rfl
    have heq := (hpairs _ _).mp hv
    rw [(hpairs _ _).mp hw, Option.some_inj] at heq
    rw [heq]
  rw [List.perm_ext_iff_of_nodup hkeys hfst]
  intro k
  rw [hks, List.mem_map, Option.isSome_iff_exists]
  constructor
  · rintro ⟨v, hv⟩
    exact ⟨(k, v), (hpairs k v).mpr hv, rfl⟩
  · rintro ⟨⟨k', v⟩, hp, rfl⟩
    exact ⟨v, (hpairs k' v).mp hp⟩

theorem run_isEmpty (hks : ks.map podBytes = MapCore.keys h) :
    (isEmpty K).run h = some (.ok (decide (ks.length = 0)), h) := by
  have hraw : (reading fun h : κ => .ok (MapCore.keys h)).run h = some (.ok (MapCore.keys h), h) :=
    rfl
  rw [isEmpty, run_bind_of_ok hraw, ← hks]
  cases ks with
  | nil => rfl
  | cons k ks =>
      have hread : (reads (podBytes k) : MapOp κ K).run h = _ :=
        run_reads (Nat.le_of_eq (length_podBytes k).symm)
      exact run_bind_of_ok hread _

theorem Represents.run_get_iff (hm : Represents h m) (k : K) (v : V) :
    (get k : MapOp κ (Option V)).run h = some (.ok (some v), h) ↔ m.get k = some v := by
  rw [hm.run_get]
  constructor
  · intro heq
    injection heq with heq
    injection heq with heq
    injection heq
  · intro heq
    rw [heq]

/-- All views of a hash map show the same entries. -/
theorem views_agree (hfits : Fits K V h) :
    ∃ (ks : List K) (pairs : List (K × V)),
      (keys K).run h = some (.ok ks, h) ∧
      (iter K V).run h = some (.ok pairs, h) ∧
      (values K V).run h = some (.ok (pairs.map Prod.snd), h) ∧
      (len K).run h = some (.ok pairs.length, h) ∧
      (isEmpty K).run h = some (.ok (decide (pairs.length = 0)), h) ∧
      ks.Nodup ∧ (∀ k, k ∈ ks ↔ ∃ v : V, (get k).run h = some (.ok (some v), h)) ∧
      pairs.Nodup ∧ (∀ k v, (k, v) ∈ pairs ↔ (get k).run h = some (.ok (some v), h)) ∧
      (∀ k, ∃ b, (containsKey V k).run h = some (.ok b, h) ∧ (b = true ↔ k ∈ ks)) ∧
      batchSize (MapCore.maxEntries h) ≠ 0 := by
  classical
  obtain ⟨m, hm⟩ := exists_represents hfits
  obtain ⟨ks, hrun, hwalk⟩ := run_keys hfits
  obtain ⟨pairs, hiter, hnodup, hmem⟩ := run_iter hfits
  have hkeys : ks.Nodup := nodup_keys hwalk
  have hpresent : ∀ k, k ∈ ks ↔ (m.get k).isSome = true := mem_keys hm hwalk
  have hpairs := hm.mem_pairs hmem
  have hlength : ks.length = pairs.length := by
    rw [(perm_keys hkeys hpresent hnodup.of_map hpairs).length_eq, List.length_map]
  refine ⟨ks, pairs, hrun, hiter, ?_, ?_, ?_, hkeys, ?_, hnodup.of_map, ?_, ?_,
    batchSize_ne_zero _⟩
  · exact run_bind_of_ok hiter _
  · rw [← hlength]
    exact run_bind_of_ok hrun _
  · rw [← hlength]
    exact run_isEmpty hwalk
  · intro k
    simp only [hpresent, hm.run_get_iff, Option.isSome_iff_exists]
  · intro k v
    rw [hpairs, hm.run_get_iff]
  · intro k
    exact ⟨(m.get k).isSome, run_bind_of_ok (hm.run_get k) _, (hpresent k).symm⟩

end Views

/-- A map of `u32` keys and `u64` values with room for four entries, of which it has three. -/
def threeEntries : HashTable :=
  let empty := HashTable.create 4 8 4
  let one := (empty.update [3, 0, 0, 0] [1, 0, 0, 0, 0, 0, 0, 0] .any).2
  let two := (one.update [0, 1, 0, 0] [2, 0, 0, 0, 0, 0, 0, 0] .any).2
  (two.update [3, 1, 0, 0] [1, 0, 0, 0, 0, 0, 0, 0] .any).2

/-- The views of a map whose entries are all looked up in one batch, two of them with one
value. -/
theorem views_agree_threeEntries :
    ∃ (ks : List (Scalar.u32.Value ⟨.little, 8⟩))
      (pairs : List (Scalar.u32.Value ⟨.little, 8⟩ × Scalar.u64.Value ⟨.little, 8⟩)),
      (keys (Scalar.u32.Value ⟨.little, 8⟩)).run threeEntries = some (.ok ks, threeEntries) ∧
      (iter (Scalar.u32.Value ⟨.little, 8⟩) (Scalar.u64.Value ⟨.little, 8⟩)).run threeEntries =
        some (.ok pairs, threeEntries) ∧
      (len (Scalar.u32.Value ⟨.little, 8⟩)).run threeEntries =
        some (.ok pairs.length, threeEntries) ∧
      ks.Nodup ∧ (∀ k ∈ [3#32, 256#32, 259#32], k ∈ ks) ∧ (7#32 : BitVec 32) ∉ ks ∧
      pairs.Nodup ∧ ∀ p ∈ [(3#32, 1#64), (256#32, 2#64), (259#32, 1#64)], p ∈ pairs := by
  obtain ⟨ks, pairs, hkeys, hiter, _, hlen, _, hnodup, hks, hpairsNodup, hpairs, _⟩ :=
    views_agree (K := Scalar.u32.Value ⟨.little, 8⟩) (V := Scalar.u64.Value ⟨.little, 8⟩)
      (⟨rfl, rfl⟩ : Fits _ _ threeEntries)
  refine ⟨ks, pairs, hkeys, hiter, hlen, hnodup, ?_, ?_, hpairsNodup, ?_⟩
  · simp only [List.forall_mem_cons, List.not_mem_nil, false_implies, implies_true, and_true]
    exact ⟨(hks _).mpr ⟨(1#64 : BitVec 64), rfl⟩, (hks _).mpr ⟨(2#64 : BitVec 64), rfl⟩,
      (hks _).mpr ⟨(1#64 : BitVec 64), rfl⟩⟩
  · rintro hmem
    obtain ⟨v, hv⟩ := (hks _).mp hmem
    cases hv
  · simp only [List.forall_mem_cons, List.not_mem_nil, false_implies, implies_true, and_true]
    exact ⟨(hpairs _ _).mpr rfl, (hpairs _ _).mpr rfl, (hpairs _ _).mpr rfl⟩

end HashMap

end Collections

end Xbpf
