import Xbpf.Collections.KernelMap
import Xbpf.Runs.Machine

/-!
# The typed hash map is a finite map

A `Call` is one of the operations along with its arguments. Its `answer` is what
a finite map of bounded size returns for it, where `none` stands for an error.
Every call on a kernel map that represents such a map returns its answer and
leaves a kernel map that represents what the finite map became.
-/

namespace Xbpf

namespace Collections

open Maps

inductive Call (K V : Type)
  | get (key : K)
  | containsKey (key : K)
  | insert (key : K) (value : V)
  | update (key : K) (value : V)
  | insertNew (key : K) (value : V)
  | replace (key : K) (value : V)
  | remove (key : K)
  | delete (key : K)

inductive Answer (V : Type)
  | value (v : Option V)
  | flag (b : Bool)
  | done
  deriving DecidableEq, Repr

namespace Call

variable {κ K V : Type}

def op [MapHandle κ] [Pod K] [Pod V] : Call K V → MapOp κ (Answer V)
  | get key => .value <$> HashMap.get key
  | containsKey key => .flag <$> HashMap.containsKey V key
  | insert key value => .value <$> HashMap.insert key value
  | update key value => (fun _ => .done) <$> HashMap.update key value
  | insertNew key value => .flag <$> HashMap.insertNew key value
  | replace key value => .flag <$> HashMap.replace key value
  | remove key => .value <$> HashMap.remove key
  | delete key => (fun _ => .done) <$> HashMap.delete key

/-- What a finite map becomes and returns for a call. -/
def answer [DecidableEq K] (m : BoundedMap K V) :
    Call K V → BoundedMap K V × Option (Answer V)
  | get key => (m, some (.value (m.get key)))
  | containsKey key => (m, some (.flag (m.get key).isSome))
  | insert key value =>
      if h : m.HasRoom key then (m.put key value h, some (.value (m.get key)))
      else (m, none)
  | update key value =>
      if h : m.HasRoom key then (m.put key value h, some .done) else (m, none)
  | insertNew key value =>
      if (m.get key).isSome = true then (m, some (.flag false))
      else if h : m.HasRoom key then (m.put key value h, some (.flag true))
      else (m, none)
  | replace key value =>
      if h : (m.get key).isSome = true then
        (m.put key value (Or.inl h), some (.flag true))
      else (m, some (.flag false))
  | remove key => (m.erase key, some (.value (m.get key)))
  | delete key =>
      if (m.get key).isSome = true then (m.erase key, some .done) else (m, none)

end Call

namespace HashMap

open MapOp

variable {κ K V : Type} [MapHandle κ] [Pod K] [Pod V] {h : κ} {m : BoundedMap K V}

theorem Represents.run_get (hm : Represents h m) (key : K) :
    (get key : MapOp κ (Option V)).run h = some (.ok (m.get key), h) := by
  have hlookup : (reading fun h : κ => MapHandle.lookup h (podBytes key)).run h =
      some (.ok ((m.get key).map podBytes), h) := by
    have hlen : (podBytes key).length = MapHandle.keySize h := by
      rw [length_podBytes, hm.fits.keySize]
    show some (MapHandle.lookup h (podBytes key), h) = _
    rw [MapHandle.lookup_eq h _ hlen, hm.coded.get_eq]
  rw [get, run_bind_of_ok hlookup]
  cases m.get key with
  | none => rfl
  | some v =>
      have hread : (reads (podBytes v) : MapOp κ V).run h = some (.ok v, h) := by
        show (podFromBytes (podBytes v)).map _ = _
        rw [podFromBytes_podBytes]
        rfl
      exact run_map_of_ok hread some

variable [DecidableEq K]

/-- An update of the kernel map is refused for the same reason as one of the map
that it represents, or keeps representing it. -/
theorem Represents.update (hm : Represents h m) (flag : UpdateFlag) (key : K)
    (value : V) :
    (∃ n h', m.update flag key value = .ok n ∧
        MapHandle.update h (podBytes key) (podBytes value) flag = (.ok (), h') ∧
        Represents h' n) ∨
      ∃ why err h', m.update flag key value = .error why ∧ Reports why err.kind ∧
        MapHandle.update h (podBytes key) (podBytes value) flag = (.error err, h') ∧
        Represents h' m ∧ MapHandle.contents h' = MapHandle.contents h := by
  have hkey : (podBytes key).length = MapHandle.keySize h := by
    rw [length_podBytes, hm.fits.keySize]
  have hvalue : (podBytes value).length = MapHandle.valueSize h := by
    rw [length_podBytes, hm.fits.valueSize]
  have hfits : Fits K V (MapHandle.update h (podBytes key) (podBytes value) flag).2 :=
    ⟨(MapHandle.keySize_update ..).trans hm.fits.keySize,
      (MapHandle.valueSize_update ..).trans hm.fits.valueSize⟩
  rcases hm.coded.update podBytes_injective flag key value with
    ⟨n, n', hn, hn', hcoded⟩ | ⟨why, hwhy, hwhy'⟩
  · obtain ⟨hres, hcontents⟩ := MapHandle.update_ok h _ _ flag n' hkey hvalue hn'
    exact Or.inl ⟨n, _, hn, Prod.ext hres rfl, hfits, hcontents ▸ hcoded⟩
  · obtain ⟨⟨err, hres, hreports⟩, hcontents⟩ :=
      MapHandle.update_error h _ _ flag why hkey hvalue hwhy'
    exact Or.inr ⟨why, err, _, hwhy, hreports, Prod.ext hres rfl,
      ⟨hfits, hcontents.symm ▸ hm.coded⟩, hcontents⟩

theorem Represents.delete (hm : Represents h m) (key : K) :
    (∃ n h', m.delete key = .ok n ∧
        MapHandle.delete h (podBytes key) = (.ok (), h') ∧ Represents h' n) ∨
      ∃ why err h', m.delete key = .error why ∧
        MapHandle.delete h (podBytes key) = (.error err, h') ∧
        Represents h' m ∧ MapHandle.contents h' = MapHandle.contents h := by
  have hkey : (podBytes key).length = MapHandle.keySize h := by
    rw [length_podBytes, hm.fits.keySize]
  have hfits : Fits K V (MapHandle.delete h (podBytes key)).2 :=
    ⟨(MapHandle.keySize_delete ..).trans hm.fits.keySize,
      (MapHandle.valueSize_delete ..).trans hm.fits.valueSize⟩
  rcases hm.coded.delete podBytes_injective key with
    ⟨n, n', hn, hn', hcoded⟩ | ⟨why, hwhy, hwhy'⟩
  · obtain ⟨hres, hcontents⟩ := MapHandle.delete_ok h _ n' hkey hn'
    exact Or.inl ⟨n, _, hn, Prod.ext hres rfl, hfits, hcontents ▸ hcoded⟩
  · obtain ⟨⟨err, hres, _⟩, hcontents⟩ := MapHandle.delete_error h _ why hkey hwhy'
    exact Or.inr ⟨why, err, _, hwhy, Prod.ext hres rfl,
      ⟨hfits, hcontents.symm ▸ hm.coded⟩, hcontents⟩

/-- An operation returns an answer and leaves a kernel map that represents what
the finite map became. If it fails, the kernel map is as before. -/
def Answers (op : MapOp κ (Answer V)) (h : κ)
    (ans : BoundedMap K V × Option (Answer V)) : Prop :=
  ∃ r h', op.run h = some (r, h') ∧ r.toOption = ans.2 ∧ Represents h' ans.1 ∧
    (ans.2 = none → MapHandle.contents h' = MapHandle.contents h)

omit [DecidableEq K] in
theorem answers_ok {op : MapOp κ (Answer V)} {h h' : κ} {a : Answer V}
    {n : BoundedMap K V} (hop : op.run h = some (.ok a, h')) (hn : Represents h' n) :
    Answers op h (n, some a) :=
  ⟨_, h', hop, rfl, hn, fun hnone => nomatch hnone⟩

omit [DecidableEq K] in
theorem answers_error {op : MapOp κ (Answer V)} {h h' : κ} {err : Error}
    {n : BoundedMap K V} (hop : op.run h = some (.error err, h')) (hn : Represents h' n)
    (hcontents : MapHandle.contents h' = MapHandle.contents h) :
    Answers op h (n, none) :=
  ⟨_, h', hop, rfl, hn, fun _ => hcontents⟩

section Operations

variable (hm : Represents h m) (key : K) (value : V)

include hm

theorem answers_get : Answers (Call.get key : Call K V).op h ((Call.get key).answer m) :=
  answers_ok (run_map_of_ok (hm.run_get key) _) hm

theorem answers_containsKey :
    Answers (Call.containsKey key : Call K V).op h ((Call.containsKey key).answer m) := by
  have hrun : (containsKey V key : MapOp κ Bool).run h =
      some (.ok (m.get key).isSome, h) :=
    run_bind_of_ok (hm.run_get key) _
  exact answers_ok (run_map_of_ok hrun _) hm

theorem run_update :
    (∃ hroom h', (HashMap.update key value : MapOp κ Unit).run h = some (.ok (), h') ∧
        Represents h' (m.put key value hroom)) ∨
      ¬ m.HasRoom key ∧ ∃ err h',
        (HashMap.update key value : MapOp κ Unit).run h = some (.error err, h') ∧
          Represents h' m ∧ MapHandle.contents h' = MapHandle.contents h := by
  rcases hm.update .any key value with
    ⟨n, h', hn, hupdate, hrep⟩ | ⟨why, err, h', hwhy, _, hupdate, hrep, hcontents⟩
  · rw [BoundedMap.update_any] at hn
    split at hn
    · rename_i hroom
      cases hn
      exact Or.inl ⟨hroom, h', run_calling hupdate, hrep⟩
    · cases hn
  · rw [BoundedMap.update_any] at hwhy
    split at hwhy
    · cases hwhy
    · rename_i hroom
      exact Or.inr ⟨hroom, err, h', run_calling hupdate, hrep, hcontents⟩

theorem answers_update :
    Answers (Call.update key value).op h ((Call.update key value).answer m) := by
  rcases run_update hm key value with
    ⟨hroom, h', hrun, hrep⟩ | ⟨hroom, err, h', hrun, hrep, hcontents⟩
  · rw [Call.answer, dif_pos hroom]
    exact answers_ok (run_map_of_ok hrun _) hrep
  · rw [Call.answer, dif_neg hroom]
    exact answers_error (run_map_of_error hrun _) hrep hcontents

theorem answers_insert :
    Answers (Call.insert key value).op h ((Call.insert key value).answer m) := by
  have hget := run_bind_of_ok (hm.run_get key) fun old => do
    HashMap.update key value
    pure old
  rcases run_update hm key value with
    ⟨hroom, h', hrun, hrep⟩ | ⟨hroom, err, h', hrun, hrep, hcontents⟩
  · rw [Call.answer, dif_pos hroom]
    rw [run_bind_of_ok hrun] at hget
    exact answers_ok (run_map_of_ok hget _) hrep
  · rw [Call.answer, dif_neg hroom]
    rw [run_bind_of_error hrun] at hget
    exact answers_error (run_map_of_error hget _) hrep hcontents

theorem answers_insertNew :
    Answers (Call.insertNew key value).op h ((Call.insertNew key value).answer m) := by
  rcases hm.update .noExist key value with
    ⟨n, h', hn, hupdate, hrep⟩ | ⟨why, err, h', hwhy, hkind, hupdate, hrep, hcontents⟩
  · have hrun : (insertNew key value : MapOp κ Bool).run h = some (.ok true, h') :=
      run_bind_of_ok (run_outcome (run_calling
        (f := fun h => MapHandle.update h (podBytes key) (podBytes value) .noExist) hupdate)) _
    rw [BoundedMap.update_noExist] at hn
    rw [Call.answer]
    split at hn
    · cases hn
    · rename_i habsent
      split at hn
      · rename_i hroom
        cases hn
        rw [if_neg habsent, dif_pos hroom]
        exact answers_ok (run_map_of_ok hrun _) hrep
      · cases hn
  · have hrun : (insertNew key value : MapOp κ Bool).run h =
        (if err.kind = .alreadyExists then pure false else throw err :
          MapOp κ Bool).run h' :=
      run_bind_of_ok (run_outcome (run_calling
        (f := fun h => MapHandle.update h (podBytes key) (podBytes value) .noExist) hupdate)) _
    rw [BoundedMap.update_noExist] at hwhy
    rw [Call.answer]
    split at hwhy
    · rename_i hpresent
      cases hwhy
      have hexists : err.kind = .alreadyExists := hkind
      rw [if_pos hexists] at hrun
      rw [if_pos hpresent]
      exact answers_ok (run_map_of_ok hrun _) hrep
    · rename_i habsent
      split at hwhy
      · cases hwhy
      · rename_i hroom
        cases hwhy
        rw [if_neg hkind.1] at hrun
        rw [if_neg habsent, dif_neg hroom]
        exact answers_error (run_map_of_error hrun _) hrep hcontents

theorem answers_replace :
    Answers (Call.replace key value).op h ((Call.replace key value).answer m) := by
  rcases hm.update .exist key value with
    ⟨n, h', hn, hupdate, hrep⟩ | ⟨why, err, h', hwhy, hkind, hupdate, hrep, hcontents⟩
  · have hrun : (replace key value : MapOp κ Bool).run h = some (.ok true, h') :=
      run_bind_of_ok (run_outcome (run_calling
        (f := fun h => MapHandle.update h (podBytes key) (podBytes value) .exist) hupdate)) _
    rw [BoundedMap.update_exist] at hn
    rw [Call.answer]
    split at hn
    · rename_i hpresent
      cases hn
      rw [dif_pos hpresent]
      exact answers_ok (run_map_of_ok hrun _) hrep
    · cases hn
  · have hrun : (replace key value : MapOp κ Bool).run h =
        (if err.kind = .notFound then pure false else throw err : MapOp κ Bool).run h' :=
      run_bind_of_ok (run_outcome (run_calling
        (f := fun h => MapHandle.update h (podBytes key) (podBytes value) .exist) hupdate)) _
    rw [BoundedMap.update_exist] at hwhy
    rw [Call.answer]
    split at hwhy
    · cases hwhy
    · rename_i habsent
      cases hwhy
      have hmissing : err.kind = .notFound := hkind
      rw [if_pos hmissing] at hrun
      rw [dif_neg habsent]
      exact answers_ok (run_map_of_ok hrun _) hrep

theorem run_delete :
    ((m.get key).isSome = true ∧ ∃ h',
        (HashMap.delete key : MapOp κ Unit).run h = some (.ok (), h') ∧
          Represents h' (m.erase key)) ∨
      ¬ (m.get key).isSome = true ∧ ∃ err h',
        (HashMap.delete key : MapOp κ Unit).run h = some (.error err, h') ∧
          Represents h' m ∧ MapHandle.contents h' = MapHandle.contents h := by
  rcases hm.delete key with
    ⟨n, h', hn, hdelete, hrep⟩ | ⟨why, err, h', hwhy, hdelete, hrep, hcontents⟩
  · rw [BoundedMap.delete] at hn
    split at hn
    · rename_i hpresent
      cases hn
      exact Or.inl ⟨hpresent, h', run_calling hdelete, hrep⟩
    · cases hn
  · rw [BoundedMap.delete] at hwhy
    split at hwhy
    · cases hwhy
    · rename_i habsent
      exact Or.inr ⟨habsent, err, h', run_calling hdelete, hrep, hcontents⟩

theorem answers_delete :
    Answers (Call.delete key : Call K V).op h ((Call.delete key).answer m) := by
  rcases run_delete hm key with
    ⟨hpresent, h', hrun, hrep⟩ | ⟨habsent, err, h', hrun, hrep, hcontents⟩
  · rw [Call.answer, if_pos hpresent]
    exact answers_ok (run_map_of_ok hrun _) hrep
  · rw [Call.answer, if_neg habsent]
    exact answers_error (run_map_of_error hrun _) hrep hcontents

theorem answers_remove :
    Answers (Call.remove key : Call K V).op h ((Call.remove key).answer m) := by
  have hget := run_bind_of_ok (hm.run_get key) fun old => do
    if old.isSome then HashMap.delete key
    pure old
  rw [Call.answer]
  rcases run_delete hm key with ⟨hpresent, h', hrun, hrep⟩ | ⟨habsent, _⟩
  · simp only [hpresent, if_true] at hget
    rw [run_bind_of_ok hrun] at hget
    exact answers_ok (run_map_of_ok hget _) hrep
  · simp only [habsent] at hget
    rw [BoundedMap.erase_of_get_eq_none (by simpa using habsent)]
    exact answers_ok (run_map_of_ok hget _) hm

/-- Every call returns its answer. -/
theorem answers_call (call : Call K V) : Answers call.op h (call.answer m) := by
  cases call with
  | get key => exact answers_get hm key
  | containsKey key => exact answers_containsKey hm key
  | insert key value => exact answers_insert hm key value
  | update key value => exact answers_update hm key value
  | insertNew key value => exact answers_insertNew hm key value
  | replace key value => exact answers_replace hm key value
  | remove key => exact answers_remove hm key
  | delete key => exact answers_delete hm key

end Operations

/-- Any kernel map whose sizes fit represents a finite map. -/
theorem exists_represents (hfits : Fits K V h) : ∃ m : BoundedMap K V, Represents h m := by
  have hkey : ∀ bs ∈ (MapHandle.contents h).keys,
      podBytes (Pod.ofBytes bs : K) = bs := by
    intro bs hbs
    exact podBytes_ofBytes ((MapHandle.length_key h bs hbs).trans hfits.keySize)
  refine ⟨⟨(MapHandle.contents h).keys.image Pod.ofBytes,
    fun k => ((MapHandle.contents h).get (podBytes k)).map Pod.ofBytes,
    (MapHandle.contents h).capacity, ?_, ?_⟩, hfits, ?_, ?_, rfl⟩
  · intro k
    rw [Option.isSome_map, ← (MapHandle.contents h).mem_keys, Finset.mem_image]
    constructor
    · rintro ⟨bs, hbs, rfl⟩
      rwa [hkey bs hbs]
    · intro hk
      exact ⟨podBytes k, hk, by rw [podBytes_eq, Pod.ofBytes_toBytes]⟩
  · exact Finset.card_image_le.trans (MapHandle.contents h).card_le
  · intro k
    cases hget : (MapHandle.contents h).get (podBytes k) with
    | none => simp [hget]
    | some bs =>
        have hlen := (MapHandle.length_value h _ bs hget).trans hfits.valueSize
        simp [hget, podBytes_ofBytes hlen]
  · ext bs
    simp only [Finset.mem_image, exists_exists_and_eq_and]
    constructor
    · intro hbs
      exact ⟨bs, hbs, hkey bs hbs⟩
    · rintro ⟨bs', hbs', rfl⟩
      rwa [hkey bs' hbs']

variable (κ) in
def callNext (h : κ) (call : Call K V) : Option (κ × Except Error (Answer V)) :=
  (call.op.run h).map Prod.swap

/-- The typed map returns for every sequence of calls what a finite map of the
same capacity with the same entries does, and represents it throughout. A call
that fails leaves the kernel map as it was. -/
theorem refines_boundedMap (h : κ) (hfits : Fits K V h) :
    (∃ m : BoundedMap K V, Represents h m ∧ ∀ calls : List (Call K V), ∃ h' rs,
      Runs.runAll (callNext κ) h calls = some (h', rs) ∧
        rs.map Except.toOption = (Runs.run Call.answer m calls).2 ∧
        Represents h' (Runs.run Call.answer m calls).1) ∧
    ∀ (h₁ h₂ : κ) (call : Call K V) (err : Error), Fits K V h₁ →
      callNext κ h₁ call = some (h₂, .error err) →
        MapHandle.contents h₂ = MapHandle.contents h₁ := by
  constructor
  · obtain ⟨m, hm⟩ := exists_represents hfits
    refine ⟨m, hm, ?_⟩
    intro calls
    clear hfits
    induction calls generalizing h m with
    | nil => exact ⟨h, [], rfl, rfl, hm⟩
    | cons call calls ih =>
        obtain ⟨r, h₁, hrun, hanswer, hm₁, _⟩ := answers_call hm call
        obtain ⟨h₂, rs, hruns, hanswers, hm₂⟩ := ih h₁ _ hm₁
        refine ⟨h₂, r :: rs, ?_, ?_, hm₂⟩
        · simp [Runs.runAll, callNext, hrun, hruns]
        · rw [List.map_cons, hanswer, hanswers]
          rfl
  · intro h₁ h₂ call err hfits₁ hcall
    obtain ⟨m₁, hm₁⟩ := exists_represents hfits₁
    obtain ⟨r, h', hrun, hanswer, _, hcontents⟩ := answers_call hm₁ call
    rw [callNext, hrun, Option.map_some, Option.some_inj] at hcall
    cases hcall
    exact hcontents hanswer.symm

/-- Two calls on a kernel map for two entries of one byte each. -/
theorem refines_boundedMap_table :
    ∃ m : BoundedMap UInt8 UInt8, Represents (Table.create 1 1 2) m ∧ ∃ h' rs,
      Runs.runAll (callNext Table) (.create 1 1 2) [.insert 3 4, .get (3 : UInt8)] =
        some (h', rs) ∧
      rs.map Except.toOption = (Runs.run Call.answer m [.insert 3 4, .get 3]).2 := by
  obtain ⟨m, hm, hruns⟩ := (refines_boundedMap (Table.create 1 1 2)
    (⟨rfl, rfl⟩ : Fits UInt8 UInt8 (Table.create 1 1 2))).1
  obtain ⟨h', rs, hrun, hanswers, _⟩ := hruns [.insert 3 4, .get 3]
  exact ⟨m, hm, h', rs, hrun, hanswers⟩

end HashMap

end Collections

end Xbpf
