import Xbpf.Tracing.Decode

/-!
# The documented record format

`WellFormed` is the format as the documentation of the events states it, and
`Violates` what an error says about a record: each is stated on the bytes of the
record, without the decoder. A byte of a record is `Meaningless` if it follows
the first NUL of a string, is the level of the end of a span, or lies past the
record. The decoder accepts exactly the well-formed records, ignores the
meaningless bytes, and refuses a record only for a constraint it violates.
-/

namespace Xbpf

namespace Tracing

open Bytes

/-- The record matches the layout, whichever way the decoder was built. -/
structure WellFormed (sourceLoc : Bool) (buf : List UInt8) : Prop where
  long : (if sourceLoc then 264 else 132) ≤ buf.length
  kind : ∃ k, buf[1]? = some k ∧ (k = 0 ∨ k = 1 ∨ k = 2)
  level : buf[1]? = some 0 ∨ buf[1]? = some 1 →
    ∃ l, buf[0]? = some l ∧ 1 ≤ l.toNat ∧ l.toNat ≤ 5
  msg : ∃ s, ofText s = untilNul (window buf 4 128)
  file : 264 ≤ buf.length → ∃ s, ofText s = untilNul (window buf 132 128)

/-- The constraint that an error names is one the record violates. -/
def Violates (sourceLoc : Bool) (buf : List UInt8) : EventDecodeError → Prop
  | .bufferTooShort expected actual =>
      actual = buf.length ∧ actual < expected ∧
        (expected = 132 ∨ (sourceLoc = true ∧ expected = 264))
  | .invalidLevel level =>
      buf[0]? = some level ∧ (buf[1]? = some 0 ∨ buf[1]? = some 1) ∧
        ¬ (1 ≤ level.toNat ∧ level.toNat ≤ 5)
  | .invalidKind kind =>
      buf[1]? = some kind ∧ kind ≠ 0 ∧ kind ≠ 1 ∧ kind ≠ 2
  | .invalidUtf8 field =>
      (field = "msg" ∧ ¬ ∃ s, ofText s = untilNul (window buf 4 128)) ∨
        (field = "file" ∧ 264 ≤ buf.length ∧
          ¬ ∃ s, ofText s = untilNul (window buf 132 128))

def recordSize (buf : List UInt8) : ℕ :=
  if 264 ≤ buf.length then 264 else 132

/-- Byte `i` follows the first NUL of a string, is the level of the end of a
span, or lies past the record. -/
def Meaningless (buf : List UInt8) (i : ℕ) : Prop :=
  (i = 0 ∧ buf[1]? = some 2) ∨
    (i < 132 ∧ ∃ j, 4 ≤ j ∧ j < i ∧ buf[j]? = some 0) ∨
    (i < 260 ∧ ∃ j, 132 ≤ j ∧ j < i ∧ buf[j]? = some 0) ∨
    recordSize buf ≤ i

/-- `buf'` differs from `buf` in meaningless bytes only. -/
structure SameMeaning (buf buf' : List UInt8) : Prop where
  long : recordSize buf ≤ buf'.length
  size : recordSize buf' = recordSize buf
  agree : ∀ i, ¬ Meaningless buf i → buf'[i]? = buf[i]?

theorem textField_isOk_iff (bytes : List UInt8) (field : String) :
    (∃ s, textField bytes field = .ok s) ↔ ∃ s, ofText s = untilNul bytes := by
  rw [textField]
  constructor
  · rintro ⟨s, h⟩
    cases htext : text? (untilNul bytes) with
    | none => simp [htext] at h
    | some t => exact ⟨t, ((text?_eq_some_iff _ t).mp htext).symm⟩
  · rintro ⟨s, h⟩
    exact ⟨s, by rw [← h, text?_ofText]⟩

theorem textField_error {bytes : List UInt8} {field : String}
    {err : EventDecodeError} (h : textField bytes field = .error err) :
    err = .invalidUtf8 field ∧ ¬ ∃ s, ofText s = untilNul bytes := by
  constructor
  · rw [textField] at h
    split at h
    · cases h
    · exact (Except.error.inj h).symm
  · rw [← textField_isOk_iff bytes field]
    rintro ⟨s, hs⟩
    rw [hs] at h
    cases h

theorem parseLevel_eq_ok_iff (level : UInt8) (lvl : Level) :
    parseLevel level = .ok lvl ↔ level.toNat = lvl.verbosity := by
  rw [parseLevel]
  split <;> cases lvl <;> simp_all [Level.verbosity]

theorem parseLevel_isOk_iff (level : UInt8) :
    (∃ lvl, parseLevel level = .ok lvl) ↔ 1 ≤ level.toNat ∧ level.toNat ≤ 5 := by
  simp only [parseLevel_eq_ok_iff, Level.exists_verbosity_eq_iff]

theorem parseLevel_error {level : UInt8} {err : EventDecodeError}
    (h : parseLevel level = .error err) :
    err = .invalidLevel level ∧ ¬ (1 ≤ level.toNat ∧ level.toNat ≤ 5) := by
  constructor
  · rw [parseLevel] at h
    split at h <;> cases h
    rfl
  · rw [← parseLevel_isOk_iff]
    rintro ⟨lvl, hlvl⟩
    rw [hlvl] at h
    cases h

theorem kindByte_cases (kindRaw : UInt8) :
    kindRaw = 0 ∨ kindRaw = 1 ∨ kindRaw = 2 ∨ 3 ≤ kindRaw.toNat := by
  have h0 : kindRaw = 0 ↔ kindRaw.toNat = 0 := UInt8.toNat_inj.symm
  have h1 : kindRaw = 1 ↔ kindRaw.toNat = 1 := UInt8.toNat_inj.symm
  have h2 : kindRaw = 2 ↔ kindRaw.toNat = 2 := UInt8.toNat_inj.symm
  rw [h0, h1, h2]
  omega

theorem parseKind_of_three_le {kindRaw : UInt8} (h : 3 ≤ kindRaw.toNat)
    (levelRaw : UInt8) :
    parseKind kindRaw levelRaw = .error (.invalidKind kindRaw) := by
  rw [parseKind]
  split <;> first | omega | rfl

theorem parseKind_isOk_iff (kindRaw levelRaw : UInt8) :
    (∃ kind, parseKind kindRaw levelRaw = .ok kind) ↔
      (kindRaw = 0 ∨ kindRaw = 1 ∨ kindRaw = 2) ∧
        (kindRaw = 0 ∨ kindRaw = 1 → 1 ≤ levelRaw.toNat ∧ levelRaw.toNat ≤ 5) := by
  have hlevel := parseLevel_isOk_iff levelRaw
  rcases kindByte_cases kindRaw with rfl | rfl | rfl | hk
  · have hmap : parseKind 0 levelRaw = (parseLevel levelRaw).map Kind.message := rfl
    rw [hmap, ← hlevel]
    cases parseLevel levelRaw <;> simp [Except.map]
  · have hmap : parseKind 1 levelRaw = (parseLevel levelRaw).map Kind.startSpan := rfl
    rw [hmap, ← hlevel]
    cases parseLevel levelRaw <;> simp [Except.map]
  · have hmap : parseKind 2 levelRaw = .ok Kind.endSpan := rfl
    simp [hmap]
  · rw [parseKind_of_three_le hk]
    have h0 : kindRaw ≠ 0 := by rintro rfl; exact absurd hk (by decide)
    have h1 : kindRaw ≠ 1 := by rintro rfl; exact absurd hk (by decide)
    have h2 : kindRaw ≠ 2 := by rintro rfl; exact absurd hk (by decide)
    simp [h0, h1, h2]

theorem parseKind_error {kindRaw levelRaw : UInt8} {err : EventDecodeError}
    (h : parseKind kindRaw levelRaw = .error err) :
    (err = .invalidKind kindRaw ∧ kindRaw ≠ 0 ∧ kindRaw ≠ 1 ∧ kindRaw ≠ 2) ∨
      (err = .invalidLevel levelRaw ∧ (kindRaw = 0 ∨ kindRaw = 1) ∧
        ¬ (1 ≤ levelRaw.toNat ∧ levelRaw.toNat ≤ 5)) := by
  have hmessage : ∀ f : Level → Kind, (parseLevel levelRaw).map f = .error err →
      err = .invalidLevel levelRaw ∧
        ¬ (1 ≤ levelRaw.toNat ∧ levelRaw.toNat ≤ 5) := by
    intro f hf
    cases hl : parseLevel levelRaw with
    | ok lvl => simp [hl, Except.map] at hf
    | error err' =>
        rw [hl, Except.map, Except.error.injEq] at hf
        exact parseLevel_error (hf ▸ hl)
  rcases kindByte_cases kindRaw with rfl | rfl | rfl | hk
  · obtain ⟨herr, hlevel⟩ := hmessage _ h
    exact Or.inr ⟨herr, Or.inl rfl, hlevel⟩
  · obtain ⟨herr, hlevel⟩ := hmessage _ h
    exact Or.inr ⟨herr, Or.inr rfl, hlevel⟩
  · cases h
  · rw [parseKind_of_three_le hk, Except.error.injEq] at h
    refine Or.inl ⟨h.symm, ?_, ?_, ?_⟩ <;> rintro rfl <;> exact absurd hk (by decide)

theorem locOf_isOk_iff (e : Endian) (buf : List UInt8) :
    (∃ loc, locOf e buf = .ok loc) ↔
      (264 ≤ buf.length → ∃ s, ofText s = untilNul (window buf 132 128)) := by
  rw [locOf, ← textField_isOk_iff _ "file"]
  by_cases hfile : eventWithFileSize ≤ buf.length
  · have hlen : 264 ≤ buf.length := hfile
    rw [if_pos hfile]
    cases textField (window buf 132 128) "file" <;> simp [Except.map, hlen]
  · have hlen : ¬ 264 ≤ buf.length := hfile
    rw [if_neg hfile]
    simp [hlen]

theorem locOf_error {e : Endian} {buf : List UInt8} {err : EventDecodeError}
    (h : locOf e buf = .error err) :
    err = .invalidUtf8 "file" ∧ 264 ≤ buf.length ∧
      ¬ ∃ s, ofText s = untilNul (window buf 132 128) := by
  rw [locOf] at h
  split at h
  · rename_i hfile
    cases htext : textField (window buf 132 128) "file" with
    | ok file => simp [htext, Except.map] at h
    | error err' =>
        rw [htext, Except.map, Except.error.injEq] at h
        obtain ⟨herr, hnot⟩ := textField_error htext
        exact ⟨h ▸ herr, hfile, hnot⟩
  · cases h

theorem decode_isOk_iff (sourceLoc : Bool) (e : Endian) (buf : List UInt8) :
    (∃ event, decode sourceLoc e buf = .ok event) ↔ WellFormed sourceLoc buf := by
  simp only [decode_eq_ok_iff]
  constructor
  · rintro ⟨event, h⟩
    have hlong : 132 ≤ buf.length := by
      have := h.long
      cases sourceLoc <;> simp_all [eventBaseSize, eventWithFileSize, bpfTracingStrLen]
      omega
    obtain ⟨hkind, hlevel⟩ := (parseKind_isOk_iff _ _).mp ⟨_, h.kind⟩
    have h0 := getElem?_eq_getD buf (i := 0) (by omega)
    have h1 := getElem?_eq_getD buf (i := 1) (by omega)
    refine ⟨h.long, ⟨_, h1, hkind⟩, ?_, ?_, ?_⟩
    · intro hk
      rw [h1, Option.some_inj, Option.some_inj] at hk
      exact ⟨_, h0, hlevel hk⟩
    · exact (textField_isOk_iff _ _).mp ⟨_, h.content⟩
    · exact (locOf_isOk_iff e buf).mp ⟨_, h.loc⟩
  · rintro ⟨hlong, ⟨k, h1, hk⟩, hlevel, hmsg, hfile⟩
    obtain ⟨content, hcontent⟩ := (textField_isOk_iff _ "msg").mpr hmsg
    obtain ⟨loc, hloc⟩ := (locOf_isOk_iff e buf).mpr hfile
    have hk1 : buf.getD 1 0 = k := by simp [h1]
    have hkind := (parseKind_isOk_iff (buf.getD 1 0) (buf.getD 0 0)).mpr
      ⟨hk1 ▸ hk, fun hk01 => ?_⟩
    · obtain ⟨kind, hkind⟩ := hkind
      exact ⟨⟨kind, content, _, loc.1, loc.2⟩, hlong, hcontent, hloc, hkind, rfl⟩
    · rw [hk1] at hk01
      obtain ⟨l, hl, hrange⟩ := hlevel (by simpa [h1] using hk01)
      rwa [show buf.getD 0 0 = l by simp [hl]]

theorem le_recordSize (buf : List UInt8) : 132 ≤ recordSize buf := by
  rw [recordSize]
  split <;> decide

namespace SameMeaning

variable {buf buf' : List UInt8}

theorem hasFile_iff (h : SameMeaning buf buf') :
    264 ≤ buf'.length ↔ 264 ≤ buf.length := by
  have hsize := h.size
  simp only [recordSize] at hsize
  split at hsize <;> split at hsize <;> omega

theorem untilNul_window (h : SameMeaning buf buf') {a : ℕ} (h4 : 4 ≤ a)
    (hend : a + 128 ≤ recordSize buf) (hfield : a = 4 ∨ a = 132) :
    untilNul (window buf' a 128) = untilNul (window buf a 128) := by
  apply untilNul_congr
  intro i hi
  rw [getElem?_window, getElem?_window]
  split
  · rename_i hlt
    apply h.agree
    rintro (⟨h0, _⟩ | ⟨hlt', j, hj, hji, hnul⟩ | ⟨hlt', j, hj, hji, hnul⟩ | hpast)
    · omega
    · have haj : a ≤ j := by omega
      refine hi (j - a) (by omega) ?_
      rw [getElem?_window, if_pos (by omega), Nat.add_sub_of_le haj, hnul]
    · by_cases haj : a ≤ j
      · refine hi (j - a) (by omega) ?_
        rw [getElem?_window, if_pos (by omega), Nat.add_sub_of_le haj, hnul]
      · omega
    · omega
  · rfl

theorem decodes (h : SameMeaning buf buf') {sourceLoc : Bool} {e : Endian}
    {event : Event} (hd : Decodes sourceLoc e buf event) :
    Decodes sourceLoc e buf' event := by
  have h132 := le_recordSize buf
  have hsmall : ∀ i, 1 ≤ i → i < 4 → buf'[i]? = buf[i]? := by
    intro i h1 h4
    apply h.agree
    rintro (⟨h0, _⟩ | ⟨_, j, hj, hji, _⟩ | ⟨_, j, hj, hji, _⟩ | hpast) <;> omega
  refine ⟨?_, ?_, ?_, ?_, ?_⟩
  · have hlong := hd.long
    cases sourceLoc with
    | false => exact Nat.le_trans h132 h.long
    | true => exact h.hasFile_iff.mpr hlong
  · rw [← hd.content, textField, textField,
      h.untilNul_window (by decide) h132 (Or.inl rfl)]
  · rw [← hd.loc, locOf, locOf, eventWithFileSize_eq]
    by_cases hfile : 264 ≤ buf.length
    · have hsize : recordSize buf = 264 := if_pos hfile
      have hline : window buf' 260 4 = window buf 260 4 := by
        apply window_eq_of_getElem?
        intro i h260 h264
        apply h.agree
        rintro (⟨h0, _⟩ | ⟨hlt, _⟩ | ⟨hlt, _⟩ | hpast) <;> omega
      rw [if_pos hfile, if_pos (h.hasFile_iff.mpr hfile), textField, textField,
        h.untilNul_window (a := 132) (by decide) (by omega) (Or.inr rfl), hline]
    · have hfile' : ¬ 264 ≤ buf'.length := fun hf => hfile (h.hasFile_iff.mp hf)
      rw [if_neg hfile, if_neg hfile']
  · have h1 : buf'.getD 1 0 = buf.getD 1 0 := by
      simp [List.getD_eq_getElem?_getD, hsmall 1 (by decide) (by decide)]
    rw [← hd.kind, h1]
    by_cases hend : buf[1]? = some 2
    · have hk : buf.getD 1 0 = 2 := by simp [hend]
      rw [hk]
      rfl
    · have h0 : buf'[0]? = buf[0]? := by
        apply h.agree
        rintro (⟨_, h2⟩ | ⟨_, j, hj, hji, _⟩ | ⟨_, j, hj, hji, _⟩ | hpast)
        · exact hend h2
        all_goals omega
      simp [List.getD_eq_getElem?_getD, h0]
  · have hcpu : window buf' 2 2 = window buf 2 2 := by
      apply window_eq_of_getElem?
      intro i h2 h4
      exact hsmall i (by omega) (by omega)
    rw [hd.cpu, hcpu]

end SameMeaning

/-- An error names a constraint that the record violates. -/
theorem violates_of_decode {sourceLoc : Bool} {e : Endian} {buf : List UInt8}
    {err : EventDecodeError} (h : decode sourceLoc e buf = .error err) :
    Violates sourceLoc buf err := by
  rw [decode] at h
  split at h
  · rename_i hbase
    obtain rfl := Except.error.inj h
    exact ⟨rfl, hbase, Or.inl rfl⟩
  rename_i hbase
  have hlen : 132 ≤ buf.length := Nat.le_of_not_lt hbase
  cases hcontent : textField (window buf 4 128) "msg" with
  | error err' =>
      rw [hcontent, Except.bind, Except.error.injEq] at h
      obtain ⟨rfl, hnot⟩ := textField_error hcontent
      exact h ▸ Or.inl ⟨rfl, hnot⟩
  | ok content =>
      rw [hcontent, Except.bind] at h
      split at h
      · rename_i hshort
        obtain rfl := Except.error.inj h
        simp only [Bool.and_eq_true, Bool.not_eq_true', decide_eq_false_iff_not,
          Nat.not_le] at hshort
        exact ⟨rfl, hshort.2, Or.inr ⟨hshort.1, rfl⟩⟩
      cases hloc : locOf e buf with
      | error err' =>
          rw [hloc, Except.bind, Except.error.injEq] at h
          obtain ⟨rfl, hfile, hnot⟩ := locOf_error hloc
          exact h ▸ Or.inr ⟨rfl, hfile, hnot⟩
      | ok loc =>
          rw [hloc, Except.bind] at h
          have h0 := getElem?_eq_getD buf (i := 0) (by omega)
          have h1 := getElem?_eq_getD buf (i := 1) (by omega)
          cases hkind : parseKind (buf.getD 1 0) (buf.getD 0 0) with
          | ok kind =>
              rw [hkind, Except.bind] at h
              cases h
          | error err' =>
              rw [hkind, Except.bind, Except.error.injEq] at h
              subst h
              rcases parseKind_error hkind with ⟨rfl, hk⟩ | ⟨rfl, hk, hl⟩
              · exact ⟨h1, hk⟩
              · exact ⟨h0, by rw [h1, Option.some_inj, Option.some_inj]; exact hk, hl⟩

/-- A record that the decoder with source locations accepts is accepted without
them, with the same event. -/
theorem decodes_false_of_decodes_true {e : Endian} {buf : List UInt8}
    {event : Event} (h : Decodes true e buf event) : Decodes false e buf event :=
  ⟨Nat.le_trans (by decide) h.long, h.content, h.loc, h.kind, h.cpu⟩

/-- The two builds of the decoder differ on a record only if the record has a
message but no room for a source location. -/
theorem decode_true_eq_or (e : Endian) (buf : List UInt8) :
    decode true e buf = decode false e buf ∨
      (132 ≤ buf.length ∧ buf.length < 264 ∧
        decode true e buf = .error (.bufferTooShort 264 buf.length)) := by
  rw [decode, decode, eventBaseSize_eq, eventWithFileSize_eq]
  by_cases hbase : buf.length < 132
  · rw [if_pos hbase, if_pos hbase]
    exact Or.inl rfl
  · rw [if_neg hbase, if_neg hbase]
    by_cases hfile : 264 ≤ buf.length
    · exact Or.inl (by simp [hfile])
    · cases hcontent : textField (window buf 4 128) "msg" with
      | error err => exact Or.inl rfl
      | ok content =>
          refine Or.inr ⟨Nat.le_of_not_lt hbase, Nat.lt_of_not_le hfile, ?_⟩
          simp [Except.bind, hfile]

/-- The decoder accepts exactly the documented format, on every buffer and for
both ways of building it. -/
theorem tryFrom_accepts_exactly_the_format (sourceLoc : Bool) (e : Endian)
    (buf : List UInt8) :
    (∃ result, (Event.tryFrom sourceLoc e buf).run = some result) ∧
      ((∃ event, (Event.tryFrom sourceLoc e buf).run = some (.ok event)) ↔
        WellFormed sourceLoc buf) ∧
      (∀ event buf', (Event.tryFrom sourceLoc e buf).run = some (.ok event) →
        SameMeaning buf buf' →
          (Event.tryFrom sourceLoc e buf').run = some (.ok event)) ∧
      (∀ err, (Event.tryFrom sourceLoc e buf).run = some (.error err) →
        Violates sourceLoc buf err) ∧
      (∀ event, (Event.tryFrom true e buf).run = some (.ok event) →
        (Event.tryFrom false e buf).run = some (.ok event)) ∧
      ((Event.tryFrom true e buf).run ≠ (Event.tryFrom false e buf).run →
        132 ≤ buf.length ∧ buf.length < 264 ∧
          (Event.tryFrom true e buf).run =
            some (.error (.bufferTooShort 264 buf.length))) := by
  simp only [run_tryFrom, Option.some_inj]
  refine ⟨⟨_, rfl⟩, decode_isOk_iff sourceLoc e buf, ?_, ?_, ?_, ?_⟩
  · intro event buf' hd hsame
    rw [decode_eq_ok_iff] at hd ⊢
    exact hsame.decodes hd
  · intro err herr
    exact violates_of_decode herr
  · intro event hd
    rw [decode_eq_ok_iff] at hd ⊢
    exact decodes_false_of_decodes_true hd
  · intro hne
    exact (decode_true_eq_or e buf).resolve_left fun heq => hne (congrArg some heq)

end Tracing

end Xbpf
