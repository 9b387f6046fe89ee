import Xbpf.Bytes.Text
import Xbpf.Files.Path

/-!
# File names that are no text

A file name is a string over the alphabet of the platform, and may or may not be the
encoding of a text. `toStr` reads the names that are one. `toStringLossy` reads every
name, with a replacement for what encodes no character, so that different names may
read as one text.
-/

namespace Files

/-- An alphabet in which texts are encoded. -/
class OsAlphabet (α : Type*) extends PathAlphabet α where
  ofText : List Char → List α
  toStr : List α → Option (List Char)
  toStringLossy : List α → List Char
  ofText_sep : ofText ['/'] = [sep]
  ofText_dot : ofText ['.'] = [dot]
  ofText_append (text rest : List Char) : ofText (text ++ rest) = ofText text ++ ofText rest
  toStr_eq_some_iff (name : List α) (text : List Char) :
    toStr name = some text ↔ name = ofText text
  toStringLossy_ofText (text : List Char) : toStringLossy (ofText text) = text

open OsAlphabet

/-- Every name is a text. -/
instance : OsAlphabet Char where
  ofText text := text
  toStr name := some name
  toStringLossy name := name
  ofText_sep := rfl
  ofText_dot := rfl
  ofText_append _ _ := rfl
  toStr_eq_some_iff _ _ := Option.some_inj
  toStringLossy_ofText _ := rfl

@[simp] theorem ofText_char (text : List Char) : (ofText text : List Char) = text :=
  rfl

@[simp] theorem toStr_char (name : List Char) : toStr name = some name :=
  rfl

@[simp] theorem toStringLossy_char (name : List Char) : toStringLossy name = name :=
  rfl

theorem ofText_injective {α : Type*} [OsAlphabet α] :
    Function.Injective (ofText : List Char → List α) :=
  Function.LeftInverse.injective toStringLossy_ofText

namespace Utf8

def continuation : UInt8 × UInt8 :=
  (0x80, 0xBF)

/-- The bounds of the bytes that go on from the first byte of a character. They exclude
overlong encodings, surrogates and what is beyond the last character. -/
def bounds (first : UInt8) : List (UInt8 × UInt8) :=
  if 0xC2 ≤ first ∧ first ≤ 0xDF then [continuation]
  else if first = 0xE0 then [(0xA0, 0xBF), continuation]
  else if first = 0xED then [(0x80, 0x9F), continuation]
  else if 0xE1 ≤ first ∧ first ≤ 0xEF then [continuation, continuation]
  else if first = 0xF0 then [(0x90, 0xBF), continuation, continuation]
  else if first = 0xF4 then [(0x80, 0x8F), continuation, continuation]
  else if 0xF1 ≤ first ∧ first ≤ 0xF3 then [continuation, continuation, continuation]
  else []

def within : List (UInt8 × UInt8) → List UInt8 → ℕ
  | (lo, hi) :: bounds, b :: bs => if lo ≤ b ∧ b ≤ hi then within bounds bs + 1 else 0
  | _, _ => 0

def replacement : Char :=
  Char.ofNat 0xFFFD

/-- The characters that the bytes encode. Bytes that begin a character and do not end it
are replaced as one, as is a byte that begins none. -/
def decodeLossy : ℕ → List UInt8 → List Char
  | fuel + 1, b :: bs =>
      match (b :: bs).toByteArray.utf8DecodeChar? 0 with
      | some c => c :: decodeLossy fuel ((b :: bs).drop c.utf8Size)
      | none => replacement :: decodeLossy fuel (bs.drop (within (bounds b) bs))
  | _, _ => []

theorem ofText_cons (c : Char) (text : List Char) :
    Bytes.ofText (String.ofList (c :: text)) =
      String.utf8EncodeChar c ++ Bytes.ofText (String.ofList text) := by
  have hsplit : String.ofList (c :: text) = String.singleton c ++ String.ofList text := by
    rw [← List.singleton_append, String.ofList_append]
    rfl
  rw [hsplit, Bytes.ofText_append]
  simp [Bytes.ofText, List.utf8Encode_singleton]

/-- Nothing is replaced in a text. -/
theorem decodeLossy_ofText (text : List Char) {fuel : ℕ}
    (hfuel : (Bytes.ofText (String.ofList text)).length ≤ fuel) :
    decodeLossy fuel (Bytes.ofText (String.ofList text)) = text := by
  induction text generalizing fuel with
  | nil => cases fuel <;> rfl
  | cons c text ih =>
      rw [ofText_cons] at hfuel ⊢
      have hsize : (String.utf8EncodeChar c).length = c.utf8Size := String.length_utf8EncodeChar c
      have hpos := c.utf8Size_pos
      rw [List.length_append, hsize] at hfuel
      cases hbytes : String.utf8EncodeChar c ++ Bytes.ofText (String.ofList text) with
      | nil =>
          have hlen := congrArg List.length hbytes
          rw [List.length_append, List.length_nil] at hlen
          omega
      | cons b bs =>
          cases fuel with
          | zero => omega
          | succ fuel =>
              have hdecode : (b :: bs).toByteArray.utf8DecodeChar? 0 = some c := by
                rw [← hbytes, List.toByteArray_append]
                exact ByteArray.utf8DecodeChar?_utf8EncodeChar_append
              have hrest : (b :: bs).drop c.utf8Size = Bytes.ofText (String.ofList text) := by
                rw [← hbytes, ← hsize, List.drop_left]
              rw [decodeLossy, hdecode]
              change c :: decodeLossy fuel ((b :: bs).drop c.utf8Size) = c :: text
              rw [hrest, ih (by omega)]

end Utf8

instance : OsAlphabet UInt8 where
  sep := 0x2F
  dot := 0x2E
  sep_ne_dot := by decide
  ofText text := Bytes.ofText (String.ofList text)
  toStr name := (Bytes.text? name).map String.toList
  toStringLossy name := Utf8.decodeLossy name.length name
  ofText_sep := by decide +kernel
  ofText_dot := by decide +kernel
  ofText_append text rest := by rw [String.ofList_append, Bytes.ofText_append]
  toStr_eq_some_iff name text := by
    rw [Option.map_eq_some_iff]
    constructor
    · rintro ⟨s, hs, rfl⟩
      rw [(Bytes.text?_eq_some_iff name s).mp hs, String.ofList_toList]
    · rintro rfl
      exact ⟨_, Bytes.text?_ofText _, String.toList_ofList⟩
  toStringLossy_ofText text := Utf8.decodeLossy_ofText text le_rfl

/-- `a`, then the first two bytes of a character, then a byte that begins none. -/
example : toStringLossy ([0x61, 0xE2, 0x82, 0xFF] : List UInt8) =
    ['a', Utf8.replacement, Utf8.replacement] := by decide +kernel

end Files
