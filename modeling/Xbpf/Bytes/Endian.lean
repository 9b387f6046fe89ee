import Mathlib.Algebra.Order.Group.Nat
import Mathlib.Tactic.Ring

/-!
# Fixed-width integers in either byte order

`encode e w n` is the `w`-byte representation of `n` in byte order `e`, and
`decode e bs` is the number a byte string represents. Both orders read the same
digits, one of them backwards, so every law is proved for the little-endian
digits first and carried over by a reversal.
-/

namespace Bytes

inductive Endian
  | little
  | big
  deriving DecidableEq, Repr

namespace Endian

/-- The `w` low base-256 digits of `n`, least significant first. -/
def digits : ℕ → ℕ → List UInt8
  | 0, _ => []
  | w + 1, n => UInt8.ofNat n :: digits w (n / 256)

/-- The number with the given base-256 digits, least significant first. -/
def ofDigits : List UInt8 → ℕ
  | [] => 0
  | b :: bs => b.toNat + 256 * ofDigits bs

def encode : Endian → ℕ → ℕ → List UInt8
  | little, w, n => digits w n
  | big, w, n => (digits w n).reverse

def decode : Endian → List UInt8 → ℕ
  | little, bs => ofDigits bs
  | big, bs => ofDigits bs.reverse

@[simp] theorem length_digits (w n : ℕ) : (digits w n).length = w := by
  induction w generalizing n with
  | zero => rfl
  | succ w ih => rw [digits, List.length_cons, ih]

theorem ofDigits_digits (w n : ℕ) : ofDigits (digits w n) = n % 256 ^ w := by
  induction w generalizing n with
  | zero => simp [digits, ofDigits, Nat.mod_one]
  | succ w ih =>
      have hhead : (UInt8.ofNat n).toNat = n % 256 := UInt8.toNat_ofNat'
      rw [digits, ofDigits, ih, hhead, pow_succ', Nat.mod_mul]

theorem ofDigits_lt (bs : List UInt8) : ofDigits bs < 256 ^ bs.length := by
  induction bs with
  | nil => simp [ofDigits]
  | cons b bs ih =>
      have hb : b.toNat < 256 := b.toNat_lt
      rw [ofDigits, List.length_cons, pow_succ']
      omega

@[simp] theorem length_encode (e : Endian) (w n : ℕ) :
    (e.encode w n).length = w := by
  cases e <;> simp [encode]

theorem encode_one (e : Endian) (n : ℕ) : e.encode 1 n = [UInt8.ofNat n] := by
  cases e <;> rfl

theorem decode_encode (e : Endian) (w n : ℕ) :
    e.decode (e.encode w n) = n % 256 ^ w := by
  cases e <;> simp [encode, decode, ofDigits_digits]

theorem decode_encode_of_lt (e : Endian) {w n : ℕ} (h : n < 256 ^ w) :
    e.decode (e.encode w n) = n := by
  rw [decode_encode, Nat.mod_eq_of_lt h]

theorem digits_ofDigits (bs : List UInt8) : digits bs.length (ofDigits bs) = bs := by
  induction bs with
  | nil => rfl
  | cons b bs ih =>
      have hb : b.toNat < 256 := b.toNat_lt
      have hhead : UInt8.ofNat (b.toNat + 256 * ofDigits bs) = b := by
        refine UInt8.toNat_inj.mp (UInt8.toNat_ofNat'.trans ?_)
        omega
      have hrest : (b.toNat + 256 * ofDigits bs) / 256 = ofDigits bs := by omega
      rw [List.length_cons, ofDigits, digits, hhead, hrest, ih]

theorem encode_decode (e : Endian) (bs : List UInt8) : e.encode bs.length (e.decode bs) = bs := by
  cases e with
  | little => exact digits_ofDigits bs
  | big =>
      have h := digits_ofDigits bs.reverse
      rw [List.length_reverse] at h
      rw [encode, decode, h, List.reverse_reverse]

theorem decode_lt (e : Endian) (bs : List UInt8) :
    e.decode bs < 256 ^ bs.length := by
  cases e with
  | little => exact ofDigits_lt bs
  | big => simpa [decode] using ofDigits_lt bs.reverse

end Endian

end Bytes
