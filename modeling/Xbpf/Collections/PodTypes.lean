import Xbpf.Bytes.Endian
import Xbpf.Bytes.Memory
import Xbpf.Collections.Batch

/-!
# The types that are copied byte for byte

The scalars are copied byte for byte, and so are arrays of a type that is. A scalar is
its bit pattern, which is laid out in the byte order of the target, and an array is
laid out as its elements one after the other. Both have the guarantees of a `Pod`
type, so what is proved of these holds for every nesting of arrays.
-/

namespace Xbpf

namespace Collections

open Bytes

structure Target where
  endian : Endian
  pointerSize : ℕ

inductive Scalar
  | u8
  | i8
  | u16
  | i16
  | u32
  | i32
  | u64
  | i64
  | u128
  | i128
  | usize
  | isize
  | f32
  | f64
  deriving DecidableEq, Repr

def Scalar.size (t : Target) : Scalar → ℕ
  | u8 | i8 => 1
  | u16 | i16 => 2
  | u32 | i32 | f32 => 4
  | u64 | i64 | f64 => 8
  | u128 | i128 => 16
  | usize | isize => t.pointerSize

/-- A scalar, by its bit pattern. -/
def Scalar.Value (t : Target) (s : Scalar) : Type :=
  BitVec (8 * s.size t)

/-- A type that is built from the scalars by arrays of any length. -/
inductive PodType
  | scalar (s : Scalar)
  | array (elem : PodType) (length : ℕ)
  deriving DecidableEq, Repr

namespace PodType

def Value (t : Target) : PodType → Type
  | scalar s => s.Value t
  | array elem n => Vector (elem.Value t) n

def sizeOf (t : Target) : PodType → ℕ
  | scalar s => s.size t
  | array elem n => n * elem.sizeOf t

end PodType

section Scalars

variable {t : Target} {s : Scalar}

theorem two_pow_eight_mul (n : ℕ) : 2 ^ (8 * n) = 256 ^ n := by
  rw [Nat.pow_mul]

instance : Pod (s.Value t) where
  size := s.size t
  toBytes x := t.endian.encode (s.size t) (BitVec.toNat x)
  ofBytes bs := BitVec.ofNat _ (t.endian.decode bs)
  length_toBytes _ := Endian.length_encode ..
  ofBytes_toBytes x := by
    have hlt : BitVec.toNat x < 256 ^ s.size t := two_pow_eight_mul _ ▸ BitVec.isLt x
    rw [Endian.decode_encode_of_lt _ hlt]
    exact (BitVec.ofNat_toNat ..).trans (BitVec.setWidth_eq _)
  toBytes_ofBytes bs h := by
    have hlt : t.endian.decode bs < 2 ^ (8 * s.size t) := by
      rw [two_pow_eight_mul, ← h]
      exact t.endian.decode_lt bs
    rw [BitVec.toNat_ofNat, Nat.mod_eq_of_lt hlt, ← h]
    exact t.endian.encode_decode bs

end Scalars

section Arrays

variable {T : Type*} [Pod T] {n : ℕ}

theorem length_slices (size count : ℕ) (bytes : List UInt8) :
    (slices size count bytes).length = count := by
  induction count generalizing bytes with
  | zero => rfl
  | succ count ih => rw [slices, List.length_cons, ih]

/-- Slices of equal size are put together again, each by way of the value it is. -/
theorem flatMap_slices {count : ℕ} {bytes : List UInt8}
    (h : bytes.length = count * Pod.size T) :
    ((slices (Pod.size T) count bytes).map (Pod.ofBytes (T := T))).flatMap Pod.toBytes =
      bytes := by
  induction count generalizing bytes with
  | zero =>
      rw [Nat.zero_mul] at h
      rw [List.eq_nil_of_length_eq_zero h]
      rfl
  | succ count ih =>
      rw [Nat.succ_mul] at h
      have htake : (bytes.take (Pod.size T)).length = Pod.size T := by
        rw [List.length_take]
        omega
      have hdrop : (bytes.drop (Pod.size T)).length = count * Pod.size T := by
        rw [List.length_drop]
        omega
      rw [slices, List.map_cons, List.flatMap_cons, ih hdrop, Pod.toBytes_ofBytes _ htake,
        List.take_append_drop]

instance : Pod (Vector T n) where
  size := n * Pod.size T
  toBytes x := x.toList.flatMap Pod.toBytes
  ofBytes bs := ⟨((slices (Pod.size T) n bs).map Pod.ofBytes).toArray, by
    rw [List.size_toArray, List.length_map, length_slices]⟩
  length_toBytes x := by
    rw [length_flatMap_of_size Pod.length_toBytes, Vector.length_toList]
  ofBytes_toBytes x := by
    have hslices := slices_flatMap (Pod.length_toBytes (T := T)) x.toList
    rw [Vector.length_toList] at hslices
    have hvalues : (slices (Pod.size T) n (x.toList.flatMap Pod.toBytes)).map Pod.ofBytes =
        x.toList := by
      rw [hslices, List.map_map]
      exact (List.map_congr_left fun y _ => Pod.ofBytes_toBytes y).trans (List.map_id _)
    exact Vector.toList_inj.mp hvalues
  toBytes_ofBytes bs h := flatMap_slices h

end Arrays

namespace PodType

variable {t : Target}

instance instPod : (ty : PodType) → Pod (ty.Value t)
  | scalar s => inferInstanceAs (Pod (s.Value t))
  | array elem n =>
      have := instPod elem
      inferInstanceAs (Pod (Vector (elem.Value t) n))

theorem size_eq (ty : PodType) : Pod.size (ty.Value t) = ty.sizeOf t := by
  induction ty with
  | scalar s => rfl
  | array elem n ih => exact congrArg (n * ·) ih

end PodType

section Slices

variable {T : Type*} [Pod T]

theorem podSliceBytes_eq (xs : List T) : podSliceBytes xs = xs.flatMap podBytes := by
  rw [podSliceBytes]
  exact List.flatMap_congr fun x _ => (podBytes_eq x).symm

theorem window_podSliceBytes {xs : List T} {i : ℕ} {x : T} (h : xs[i]? = some x) :
    window (podSliceBytes xs) (i * Pod.size T) (Pod.size T) = podBytes x := by
  induction xs generalizing i with
  | nil => simp at h
  | cons y xs ih =>
      have hlen : (podBytes y).length = Pod.size T := length_podBytes y
      have hcons : podSliceBytes (y :: xs) = podBytes y ++ podSliceBytes xs := by
        rw [podSliceBytes_eq, podSliceBytes_eq, List.flatMap_cons]
      rw [hcons]
      cases i with
      | zero =>
          obtain rfl : y = x := by simpa using h
          rw [Nat.zero_mul, window, List.drop_zero, ← hlen, List.take_left']
          rfl
      | succ i =>
          have hoffset : (i + 1) * Pod.size T = (podBytes y).length + i * Pod.size T := by
            rw [hlen, Nat.succ_mul, Nat.add_comm]
          rw [hoffset, window_append, ih (by simpa using h)]

/-- Values that lie in memory one after the other are seen as the bytes of the slice. -/
theorem window_eq_podSliceBytes {mem : List UInt8} {a : ℕ} {xs : List T}
    (h : ∀ (i : ℕ) (x : T), xs[i]? = some x →
      window mem (a + i * Pod.size T) (Pod.size T) = podBytes x) :
    window mem a (xs.length * Pod.size T) = podSliceBytes xs := by
  induction xs generalizing a with
  | nil => simp [window, podSliceBytes]
  | cons y xs ih =>
      have hfirst : window mem a (Pod.size T) = podBytes y := by simpa using h 0 y rfl
      have hrest : window mem (a + Pod.size T) (xs.length * Pod.size T) = podSliceBytes xs := by
        refine ih fun i x hx => ?_
        have hnext := h (i + 1) x hx
        rwa [Nat.succ_mul, Nat.add_comm (i * _), ← Nat.add_assoc] at hnext
      rw [List.length_cons, Nat.succ_mul, Nat.add_comm, window_add, hfirst, hrest,
        podSliceBytes_eq, podSliceBytes_eq, List.flatMap_cons]

end Slices

/-- The bytes of a value are a code of a fixed size for it, and those of a slice are the
codes of its elements one after the other, wherever the slice lies in memory. -/
structure IsFixedSizeCode (T : Type*) [Pod T] (size : ℕ) : Prop where
  length : ∀ x : T, (podBytes x).length = size
  decode : ∀ (x : T) (s : List UInt8), podFromBytes (podBytes x ++ s) = some x
  injective : Function.Injective (podBytes : T → List UInt8)
  slice : ∀ xs : List T, podSliceBytes xs = (xs.map podBytes).flatten
  element : ∀ (xs : List T) (i : ℕ) (x : T), xs[i]? = some x →
    window (podSliceBytes xs) (i * size) size = podBytes x
  view : ∀ (mem : List UInt8) (a : ℕ) (xs : List T),
    (∀ (i : ℕ) (x : T), xs[i]? = some x → window mem (a + i * size) size = podBytes x) →
      window mem a (xs.length * size) = podSliceBytes xs

theorem isFixedSizeCode (T : Type*) [Pod T] : IsFixedSizeCode T (Pod.size T) where
  length := length_podBytes
  decode := podFromBytes_podBytes_append
  injective := podBytes_injective
  slice := fun xs => by rw [podSliceBytes_eq, List.flatMap_def]
  element := fun _ _ _ h => window_podSliceBytes h
  view := fun _ _ _ h => window_eq_podSliceBytes h

/-- The batches that insert entries and that remove their keys hand the same keys to the
kernel. -/
structure SharesKeyBuffer (κ K V : Type) [MapCore κ] [Pod K] [Pod V] : Prop where
  insert : ∀ entries : List (K × V), entries ≠ [] →
    (HashMap.insertBatch entries : MapOp κ Unit) = MapOp.calling fun h =>
      MapCore.updateBatch h (podSliceBytes (entries.map Prod.fst))
        (podSliceBytes (entries.map Prod.snd)) (.ofNat entries.length)
  remove : ∀ keys : List K, keys ≠ [] →
    (HashMap.removeBatch keys : MapOp κ Unit) = MapOp.calling fun h =>
      MapCore.deleteBatch h (podSliceBytes keys) (.ofNat keys.length)

theorem sharesKeyBuffer (κ K V : Type) [MapCore κ] [Pod K] [Pod V] :
    SharesKeyBuffer κ K V where
  insert := fun entries h => by
    rw [HashMap.insertBatch, if_neg (by simpa using h), podSliceBytes_eq, podSliceBytes_eq,
      List.flatMap_map, List.flatMap_map]
  remove := fun keys h => by rw [HashMap.removeBatch, if_neg (by simpa using h)]

/-- Every type that is built from the scalars by arrays is copied byte for byte without
loss, alone, in slices and in batches. -/
theorem podTypes_isFixedSizeCode (t : Target) (ty : PodType) :
    IsFixedSizeCode (ty.Value t) (ty.sizeOf t) ∧
      ∀ (κ : Type) [MapCore κ] (ty' : PodType),
        SharesKeyBuffer κ (ty.Value t) (ty'.Value t) := by
  refine ⟨?_, fun κ _ ty' => sharesKeyBuffer κ _ _⟩
  rw [← ty.size_eq]
  exact isFixedSizeCode (ty.Value t)

end Collections

end Xbpf
