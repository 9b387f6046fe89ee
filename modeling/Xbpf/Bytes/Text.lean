import Mathlib.Data.List.TakeWhile
import Xbpf.Bytes.Memory

/-!
# NUL-terminated text in a fixed-width field

`text? bs` reads a byte string as UTF-8 and `ofText s` is the encoding of `s`.
`untilNul` is the content of a NUL-terminated field, and `snprintf n bs` the
bytes that a bounded formatting into a field of `n` bytes writes: at most
`n - 1` bytes and a terminator. Bounded formatting cuts on bytes, so the cut
reads back as text exactly when it falls on a character boundary; `IsCut n t s`
says what a good cut is, without reference to bytes.
-/

namespace Bytes

def text? (bs : List UInt8) : Option String :=
  String.fromUTF8? bs.toByteArray

def ofText (s : String) : List UInt8 :=
  s.toByteArray.data.toList

def untilNul (bs : List UInt8) : List UInt8 :=
  bs.takeWhile (· != 0)

/-- The bytes written by formatting `bs` into a field of `n` bytes. -/
def snprintf (n : ℕ) (bs : List UInt8) : List UInt8 :=
  bs.take (n - 1) ++ [0]

/-- Byte `n` of the encoding of `s` starts a character, or is its end. -/
def IsCharBoundary (s : String) (n : ℕ) : Prop :=
  (⟨n⟩ : String.Pos.Raw).IsValid s

instance (s : String) (n : ℕ) : Decidable (IsCharBoundary s n) :=
  inferInstanceAs (Decidable ((⟨n⟩ : String.Pos.Raw).IsValid s))

/-- `t` is a prefix of `s` of at most `n` bytes, and every prefix of `s` that
fits in `n` bytes lies in it. -/
structure IsCut (n : ℕ) (t s : String) : Prop where
  isPrefix : t.toList <+: s.toList
  fits : t.utf8ByteSize ≤ n
  maximal : ∀ p, p <+: s.toList → (String.ofList p).utf8ByteSize ≤ n →
    p <+: t.toList

@[simp] theorem toByteArray_ofText (s : String) :
    (ofText s).toByteArray = s.toByteArray := by
  apply ByteArray.ext
  rw [List.data_toByteArray, ofText, Array.toArray_toList]

@[simp] theorem length_ofText (s : String) :
    (ofText s).length = s.utf8ByteSize := by
  rw [← List.size_toByteArray, toByteArray_ofText, String.size_toByteArray]

theorem text?_eq_some_iff (bs : List UInt8) (s : String) :
    text? bs = some s ↔ bs = ofText s := by
  constructor
  · intro h
    rw [text?, String.fromUTF8?] at h
    split at h
    · obtain rfl := Option.some.inj h
      rw [ofText, String.fromUTF8, List.data_toByteArray]
    · exact absurd h (by simp)
  · rintro rfl
    have hvalid : (ofText s).toByteArray.IsValidUTF8 := by
      rw [toByteArray_ofText]
      exact s.isValidUTF8
    rw [text?, String.fromUTF8?, dif_pos hvalid]
    congr 1
    apply String.toByteArray_inj.mp
    exact toByteArray_ofText s

@[simp] theorem text?_ofText (s : String) : text? (ofText s) = some s :=
  (text?_eq_some_iff _ s).mpr rfl

theorem ofText_injective : Function.Injective ofText := by
  intro s t h
  have hs := text?_ofText s
  rw [h, text?_ofText] at hs
  exact (Option.some.inj hs).symm

theorem ofText_append (s t : String) : ofText (s ++ t) = ofText s ++ ofText t := by
  simp [ofText]

theorem zero_notMem_untilNul (bs : List UInt8) : 0 ∉ untilNul bs := by
  intro h
  simpa using List.mem_takeWhile_imp h

@[simp] theorem untilNul_zero_cons (bs : List UInt8) : untilNul (0 :: bs) = [] :=
  rfl

theorem untilNul_cons {b : UInt8} (h : b ≠ 0) (bs : List UInt8) :
    untilNul (b :: bs) = b :: untilNul bs := by
  have hne : (b != 0) = true := by simpa using h
  simp [untilNul, hne]

theorem length_untilNul (bs : List UInt8) :
    (untilNul bs).length = (bs.findIdx? (· == 0)).getD bs.length := by
  rw [← List.findIdx_eq_getD_findIdx?]
  induction bs with
  | nil => rfl
  | cons b bs ih =>
      rw [List.findIdx_cons]
      by_cases hb : b = 0
      · simp [hb]
      · have hne : (b == 0) = false := by simpa using hb
        rw [untilNul_cons hb, hne, List.length_cons, ih]
        rfl

/-- The content of a field is its slice up to the first NUL, or the whole field
if there is none. -/
theorem slice?_findIdx?_zero (bs : List UInt8) :
    slice? bs 0 ((bs.findIdx? (· == 0)).getD bs.length) = some (untilNul bs) := by
  have hpre : untilNul bs <+: bs := List.takeWhile_prefix _
  rw [← length_untilNul, slice?_of_le bs (Nat.zero_le _) hpre.length_le, window,
    List.drop_zero, Nat.sub_zero, ← List.prefix_iff_eq_take.mp hpre]

theorem length_untilNul_lt {bs : List UInt8} (h : 0 ∈ bs) :
    (untilNul bs).length < bs.length := by
  have hpre : untilNul bs <+: bs := List.takeWhile_prefix _
  refine Nat.lt_of_le_of_ne hpre.length_le fun hlen => ?_
  have heq : untilNul bs = bs := hpre.eq_of_length hlen
  exact zero_notMem_untilNul bs (heq.symm ▸ h)

theorem untilNul_append_nul {bs : List UInt8} (h : 0 ∉ bs) (rest : List UInt8) :
    untilNul (bs ++ 0 :: rest) = bs := by
  have hall : ∀ b ∈ bs, (b != 0) = true := by
    intro b hb
    simpa using fun hb0 : b = 0 => h (hb0 ▸ hb)
  rw [untilNul, List.takeWhile_append_of_pos hall]
  simp

/-- The content of a field does not depend on what follows its first NUL. -/
theorem untilNul_congr {bs bs' : List UInt8}
    (h : ∀ i : ℕ, (∀ j < i, bs[j]? ≠ some 0) → bs'[i]? = bs[i]?) :
    untilNul bs' = untilNul bs := by
  induction bs generalizing bs' with
  | nil =>
      have h0 : bs'[0]? = none := h 0 (by simp)
      cases bs' with
      | nil => rfl
      | cons b bs' => exact absurd h0 (by simp)
  | cons b bs ih =>
      have h0 : bs'[0]? = some b := h 0 (by simp)
      cases bs' with
      | nil => exact absurd h0 (by simp)
      | cons b' bs' =>
          obtain rfl : b' = b := by simpa using h0
          by_cases hb : b' = 0
          · rw [hb, untilNul_zero_cons, untilNul_zero_cons]
          · have htail : untilNul bs' = untilNul bs := by
              apply ih
              intro i hi
              refine h (i + 1) fun j hj => ?_
              cases j with
              | zero => simpa using hb
              | succ j => exact hi j (by omega)
            rw [untilNul_cons hb, untilNul_cons hb, htail]

theorem untilNul_overwrite_snprintf {bs : List UInt8} (h : 0 ∉ bs) (n : ℕ)
    (field : List UInt8) :
    untilNul (overwrite field 0 (snprintf n bs)) = bs.take (n - 1) := by
  have htake : 0 ∉ bs.take (n - 1) := fun hm => h (List.mem_of_mem_take hm)
  rw [overwrite, snprintf, List.take_zero, List.nil_append, List.append_assoc,
    List.singleton_append]
  exact untilNul_append_nul htake _

/-- The first `n` bytes of a text are a text exactly when the cut falls on a
character boundary. -/
theorem text?_take_isSome_iff (s : String) {n : ℕ} (h : n ≤ s.utf8ByteSize) :
    (text? ((ofText s).take n)).isSome ↔ IsCharBoundary s n := by
  have hbytes : ((ofText s).take n).toByteArray = s.toByteArray.extract 0 n := by
    apply ByteArray.ext
    rw [List.data_toByteArray, ofText, ByteArray.data_extract]
    apply Array.ext'
    simp
  have hle : (⟨n⟩ : String.Pos.Raw) ≤ s.rawEndPos := by
    simpa [String.Pos.Raw.le_iff] using h
  rw [IsCharBoundary, String.Pos.Raw.isValid_iff_isValidUTF8_extract_zero,
    ← hbytes, text?, String.fromUTF8?]
  by_cases hvalid : ((ofText s).take n).toByteArray.IsValidUTF8
  · simp [hvalid, hle]
  · simp [hvalid]

theorem utf8ByteSize_ofList_replicate (n : ℕ) (c : Char) :
    (String.ofList (List.replicate n c)).utf8ByteSize = n * c.utf8Size := by
  induction n with
  | zero => simp
  | succ n ih =>
      have hsplit : String.ofList (List.replicate (n + 1) c) =
          String.ofList (List.replicate n c) ++ String.singleton c := by
        rw [List.replicate_succ', String.ofList_append]
        rfl
      rw [hsplit, String.utf8ByteSize_append, ih, String.utf8ByteSize_singleton,
        Nat.succ_mul]

/-- The character boundaries of a repeated character are the multiples of its
size. -/
theorem isCharBoundary_replicate_iff (n k : ℕ) (c : Char) :
    IsCharBoundary (String.ofList (List.replicate n c)) k ↔
      ∃ i ≤ n, k = i * c.utf8Size := by
  rw [IsCharBoundary, String.Pos.Raw.isValid_ofList]
  simp only [List.take_replicate, utf8ByteSize_ofList_replicate]
  constructor
  · rintro ⟨i, hi⟩
    exact ⟨min i n, Nat.min_le_right i n, hi⟩
  · rintro ⟨i, hin, hi⟩
    exact ⟨i, by rw [Nat.min_eq_left hin]; exact hi⟩

theorem mem_ofText_replicate {n : ℕ} {c : Char} {b : UInt8}
    (h : b ∈ ofText (String.ofList (List.replicate n c))) :
    b ∈ String.utf8EncodeChar c := by
  induction n with
  | zero => exact absurd h (by simp [ofText])
  | succ n ih =>
      have hsplit : String.ofList (List.replicate (n + 1) c) =
          String.singleton c ++ String.ofList (List.replicate n c) := by
        rw [List.replicate_succ, ← List.singleton_append, String.ofList_append]
        rfl
      rw [hsplit, ofText_append, List.mem_append] at h
      rcases h with h | h
      · simpa [ofText, List.utf8Encode_singleton] using h
      · exact ih h

/-- A text whose bytes are the first `n` bytes of `s` is a good cut of `s`. -/
theorem isCut_of_ofText_eq_take {s t : String} {n : ℕ}
    (h : ofText t = (ofText s).take n) : IsCut n t s := by
  have hsize : t.utf8ByteSize = min n s.utf8ByteSize := by
    rw [← length_ofText, h, List.length_take, length_ofText]
  have hbound : IsCharBoundary s t.utf8ByteSize := by
    have htake : (ofText s).take t.utf8ByteSize = ofText t := by
      rw [h, hsize, ← length_ofText, ← List.take_eq_take_min]
    rw [← text?_take_isSome_iff s (by omega), htake, text?_ofText]
    rfl
  obtain ⟨s₁, s₂, hs, hp⟩ := String.Pos.Raw.isValid_iff_exists_append.mp hbound
  have hs₁size : s₁.utf8ByteSize = t.utf8ByteSize :=
    congrArg String.Pos.Raw.byteIdx hp.symm
  have hs₁ : s₁ = t := by
    apply ofText_injective
    have hlen : (ofText s₁).length = min n s.utf8ByteSize := by
      rw [length_ofText, hs₁size, hsize]
    have htake : (ofText s).take (min n s.utf8ByteSize) = ofText s₁ := by
      rw [hs, ofText_append, ← hs, List.take_append_of_le_length (by omega),
        ← hlen, List.take_length]
    rw [h, ← htake, ← length_ofText s, ← List.take_eq_take_min]
  subst hs₁
  have hlist : s.toList = s₁.toList ++ s₂.toList := by rw [hs, String.toList_append]
  refine ⟨⟨s₂.toList, hlist.symm⟩, by omega, ?_⟩
  intro p hp hfit
  by_cases hn : n ≤ s.utf8ByteSize
  · rcases List.prefix_or_prefix_of_prefix hp ⟨s₂.toList, hlist.symm⟩ with hpt | htp
    · exact hpt
    · obtain ⟨q, rfl⟩ := htp
      have hq : (String.ofList q).utf8ByteSize = 0 := by
        rw [String.ofList_append, String.utf8ByteSize_append, String.ofList_toList] at hfit
        omega
      have hqnil : q = [] := by
        simpa using String.utf8ByteSize_eq_zero_iff.mp hq
      simp [hqnil]
  · have hall : s₁ = s := by
      apply ofText_injective
      rw [h, List.take_of_length_le (by rw [length_ofText]; omega)]
    rw [hall]
    exact hp

end Bytes
