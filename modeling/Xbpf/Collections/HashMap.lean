import Xbpf.Collections.Error
import Xbpf.Collections.Pod
import Xbpf.Maps.Bounded

/-!
# The typed hash map

The operations of a `HashMap` are calls on the handle of a kernel map, which
holds the bytes of the keys and values. A `MapHandle` is such a handle along
with what its calls do, and an operation is a computation in `MapOp`: it changes
the kernel map, may fail, and is absent if the assertion on the number of bytes
that a value is read from fails.
-/

namespace Xbpf

namespace Collections

open Maps

def Reports (why : Refusal) (kind : ErrorKind) : Prop :=
  match why with
  | .present => kind = .alreadyExists
  | .absent => kind = .notFound
  | .full => kind ≠ .alreadyExists ∧ kind ≠ .notFound

/-- The handle of a hash map of the kernel. -/
class MapHandle (κ : Type*) where
  keySize : κ → ℕ
  valueSize : κ → ℕ
  lookup : κ → List UInt8 → Except Error (Option (List UInt8))
  update : κ → List UInt8 → List UInt8 → UpdateFlag → Except Error Unit × κ
  delete : κ → List UInt8 → Except Error Unit × κ
  /-- The entries of the kernel map. -/
  contents : κ → BoundedMap (List UInt8) (List UInt8)
  length_key : ∀ h k, k ∈ (contents h).keys → k.length = keySize h
  length_value : ∀ h k v, (contents h).get k = some v → v.length = valueSize h
  lookup_eq : ∀ h k, k.length = keySize h → lookup h k = .ok ((contents h).get k)
  update_ok : ∀ h k v flag m, k.length = keySize h → v.length = valueSize h →
    (contents h).update flag k v = .ok m →
      (update h k v flag).1 = .ok () ∧ contents (update h k v flag).2 = m
  update_error : ∀ h k v flag why, k.length = keySize h → v.length = valueSize h →
    (contents h).update flag k v = .error why →
      (∃ err, (update h k v flag).1 = .error err ∧ Reports why err.kind) ∧
        contents (update h k v flag).2 = contents h
  delete_ok : ∀ h k m, k.length = keySize h → (contents h).delete k = .ok m →
    (delete h k).1 = .ok () ∧ contents (delete h k).2 = m
  delete_error : ∀ h k why, k.length = keySize h → (contents h).delete k = .error why →
    (∃ err, (delete h k).1 = .error err ∧ Reports why err.kind) ∧
      contents (delete h k).2 = contents h
  keySize_update : ∀ h k v flag, keySize (update h k v flag).2 = keySize h
  valueSize_update : ∀ h k v flag, valueSize (update h k v flag).2 = valueSize h
  keySize_delete : ∀ h k, keySize (delete h k).2 = keySize h
  valueSize_delete : ∀ h k, valueSize (delete h k).2 = valueSize h

abbrev MapOp (κ R : Type) := ExceptT Error (StateT κ Option) R

namespace MapOp

variable {κ R S : Type}

def reading (f : κ → Except Error R) : MapOp κ R :=
  ExceptT.mk fun h => some (f h, h)

def calling (f : κ → Except Error R × κ) : MapOp κ R :=
  ExceptT.mk fun h => some (f h)

def outcome (op : MapOp κ R) : MapOp κ (Except Error R) :=
  ExceptT.mk (do
    let r ← op.run
    pure (.ok r))

variable {h h' : κ}

theorem run_bind_of_ok {op : MapOp κ R} {r : R} (hop : op.run h = some (.ok r, h'))
    (f : R → MapOp κ S) : (op >>= f).run h = (f r).run h' := by
  show Option.bind (op.run h) _ = _
  rw [hop]
  rfl

theorem run_bind_of_error {op : MapOp κ R} {err : Error}
    (hop : op.run h = some (.error err, h')) (f : R → MapOp κ S) :
    (op >>= f).run h = some (.error err, h') := by
  show Option.bind (op.run h) _ = _
  rw [hop]
  rfl

theorem run_calling {f : κ → Except Error R × κ} {r : Except Error R}
    (hf : f h = (r, h')) : (calling f).run h = some (r, h') :=
  congrArg some hf

theorem run_outcome {op : MapOp κ R} {r : Except Error R} (hop : op.run h = some (r, h')) :
    (outcome op).run h = some (.ok r, h') := by
  show Option.bind (op.run h) _ = _
  rw [hop]
  rfl

theorem run_map_of_ok {op : MapOp κ R} {r : R} (hop : op.run h = some (.ok r, h'))
    (f : R → S) : (f <$> op).run h = some (.ok (f r), h') :=
  run_bind_of_ok hop fun r => pure (f r)

theorem run_map_of_error {op : MapOp κ R} {err : Error}
    (hop : op.run h = some (.error err, h')) (f : R → S) :
    (f <$> op).run h = some (.error err, h') :=
  run_bind_of_error hop fun r => pure (f r)

end MapOp

namespace HashMap

open MapOp

variable {κ K V : Type} [MapHandle κ] [Pod K] [Pod V]

def reads (bytes : List UInt8) : MapOp κ V :=
  ExceptT.mk fun h => (podFromBytes bytes).map fun v => (.ok v, h)

def get (key : K) : MapOp κ (Option V) := do
  match ← reading fun h => MapHandle.lookup h (podBytes key) with
  | some bytes => some <$> reads bytes
  | none => pure none

def update (key : K) (value : V) : MapOp κ Unit :=
  calling fun h => MapHandle.update h (podBytes key) (podBytes value) .any

def delete (key : K) : MapOp κ Unit :=
  calling fun h => MapHandle.delete h (podBytes key)

variable (V) in
def containsKey (key : K) : MapOp κ Bool := do
  let value : Option V ← get key
  pure value.isSome

def insert (key : K) (value : V) : MapOp κ (Option V) := do
  let old ← get key
  update key value
  pure old

def insertNew (key : K) (value : V) : MapOp κ Bool := do
  match ← outcome (calling fun h =>
    MapHandle.update h (podBytes key) (podBytes value) .noExist) with
  | .ok () => pure true
  | .error err => if err.kind = .alreadyExists then pure false else throw err

def replace (key : K) (value : V) : MapOp κ Bool := do
  match ← outcome (calling fun h =>
    MapHandle.update h (podBytes key) (podBytes value) .exist) with
  | .ok () => pure true
  | .error err => if err.kind = .notFound then pure false else throw err

def remove (key : K) : MapOp κ (Option V) := do
  let old : Option V ← get key
  if old.isSome then delete key
  pure old

/-- The key and value sizes of the kernel map are those of the types. -/
structure Fits (K V : Type) [Pod K] [Pod V] (h : κ) : Prop where
  keySize : MapHandle.keySize h = Pod.size K
  valueSize : MapHandle.valueSize h = Pod.size V

def valueOf (h : κ) (key : K) : Option V :=
  ((MapHandle.contents h).get (podBytes key)).bind podFromBytes

def present (key : K) (h : κ) : Bool :=
  ((MapHandle.contents h).get (podBytes key)).isSome

/-- The kernel map holds the bytes of the entries of `m`. -/
structure Represents (h : κ) (m : BoundedMap K V) : Prop where
  fits : Fits K V h
  coded : BoundedMap.Coded podBytes podBytes m (MapHandle.contents h)

end HashMap

end Collections

end Xbpf
