import Xbpf.Bytes.Memory

/-!
# The memory layout of a record type

A record type is a list of members, each with a size and an alignment. Its
members are placed in order, each at the next multiple of its alignment, and the
size of the whole is rounded up to the largest alignment. `store` writes a
member of a record that lies at address zero of a memory.
-/

namespace Bytes

structure Member (ι : Type*) where
  name : ι
  size : ℕ
  align : ℕ

/-- The least multiple of `a` that is not below `n`. -/
def alignUp (n a : ℕ) : ℕ :=
  (n + a - 1) / a * a

/-- The offset of the member `x`, if the next free byte is `start`. -/
def offsetFrom {ι : Type*} [DecidableEq ι] (x : ι) : ℕ → List (Member ι) → ℕ
  | start, [] => start
  | start, m :: ms =>
      if m.name = x then alignUp start m.align
      else offsetFrom x (alignUp start m.align + m.size) ms

/-- The end of the last member, if the next free byte is `start`. -/
def endFrom {ι : Type*} : ℕ → List (Member ι) → ℕ
  | start, [] => start
  | start, m :: ms => endFrom (alignUp start m.align + m.size) ms

def offsetOf {ι : Type*} [DecidableEq ι] (layout : List (Member ι)) (x : ι) : ℕ :=
  offsetFrom x 0 layout

def layoutSize {ι : Type*} (layout : List (Member ι)) : ℕ :=
  alignUp (endFrom 0 layout) (layout.foldr (fun m a => max m.align a) 1)

def store {ι : Type*} [DecidableEq ι] (layout : List (Member ι))
    (mem : List UInt8) (x : ι) (bs : List UInt8) : List UInt8 :=
  overwrite mem (offsetOf layout x) bs

end Bytes
