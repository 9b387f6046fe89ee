import Mathlib.Data.List.Basic
import Mathlib.Data.Nat.Notation

/-!
# Types that are copied byte for byte

A `Pod` type has no padding, so that its values all have the bytes `toBytes` of
one size, and is valid for any bit pattern, so that any bytes of that size are
those of a value. These are the guarantees that the unsafe trait demands.
-/

namespace Xbpf

namespace Collections

/-- A type that is copied byte for byte. -/
class Pod (T : Type*) where
  size : ℕ
  toBytes : T → List UInt8
  ofBytes : List UInt8 → T
  length_toBytes : ∀ x, (toBytes x).length = size
  ofBytes_toBytes : ∀ x, ofBytes (toBytes x) = x
  toBytes_ofBytes : ∀ bs, bs.length = size → toBytes (ofBytes bs) = bs

section Bytes

variable {T : Type*} [Pod T]

def podSliceBytes (items : List T) : List UInt8 :=
  items.flatMap Pod.toBytes

def podBytes (item : T) : List UInt8 :=
  podSliceBytes [item]

/-- The value whose bytes lead `bytes`. There must be enough of them. -/
def podFromBytes (bytes : List UInt8) : Option T :=
  if bytes.length < Pod.size T then none else some (Pod.ofBytes (bytes.take (Pod.size T)))

theorem podBytes_eq (x : T) : podBytes x = Pod.toBytes x := by
  rw [podBytes, podSliceBytes, List.flatMap_singleton]

theorem length_podBytes (x : T) : (podBytes x).length = Pod.size T := by
  rw [podBytes_eq, Pod.length_toBytes]

theorem podFromBytes_podBytes_append (x : T) (s : List UInt8) :
    podFromBytes (podBytes x ++ s) = some x := by
  have hlen := length_podBytes x
  rw [podFromBytes, if_neg (by simp [hlen]),
    List.take_append_of_le_length (Nat.le_of_eq hlen.symm),
    List.take_of_length_le (Nat.le_of_eq hlen), podBytes_eq, Pod.ofBytes_toBytes]

theorem podFromBytes_podBytes (x : T) : podFromBytes (podBytes x) = some x := by
  have h := podFromBytes_podBytes_append x []
  rwa [List.append_nil] at h

theorem podBytes_injective : Function.Injective (podBytes : T → List UInt8) := by
  intro x y h
  have heq := podFromBytes_podBytes x
  rw [h, podFromBytes_podBytes] at heq
  exact (Option.some_inj.mp heq).symm

theorem podBytes_ofBytes {bs : List UInt8} (hlen : bs.length = Pod.size T) :
    podBytes (Pod.ofBytes bs : T) = bs := by
  rw [podBytes_eq, Pod.toBytes_ofBytes bs hlen]

end Bytes

instance : Pod UInt8 where
  size := 1
  toBytes x := [x]
  ofBytes bs := bs.headD 0
  length_toBytes _ := rfl
  ofBytes_toBytes _ := rfl
  toBytes_ofBytes bs h := by
    obtain ⟨b, rfl⟩ := List.length_eq_one_iff.mp h
    rfl

end Collections

end Xbpf
