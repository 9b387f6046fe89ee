import Xbpf.Tracing.RoundTrip
import Xbpf.Tracing.Submission
import Xbpf.Tracing.Truncation

/-!
# Programs with another length of strings

A program can be compiled with a `BPF_TRACING_STR_LEN` of its own, while the decoder
assumes the default. Without source locations nothing but the length of the message
changes, and padding makes up for a byte, so the decoder still reads every event if the
length is one off. With source locations every other length moves the file name.
-/

namespace Xbpf

namespace Tracing

open Bytes
open Header (bpfTracingEmitEvent bpfTracingEvent bpfTracingStores)

namespace Arguments

structure Fits (strLen : ℕ) (args : Arguments) : Prop where
  msg : args.msg.utf8ByteSize < strLen
  file : ∀ loc ∈ args.loc, loc.1.utf8ByteSize < strLen

end Arguments

/-- The decoder reads every event of a program that was compiled with some length of
strings, and with source locations or without, if its strings fit. -/
def Reads (sourceLoc : Bool) (e : Endian) (strLen : ℕ) (withLoc : Bool) : Prop :=
  ∀ (args : Arguments) (mem buf : List UInt8), args.Valid → args.Fits strLen →
    args.loc.isSome = withLoc → mem.length = layoutSize (bpfTracingEvent strLen withLoc) →
      bpfTracingEmitEvent e strLen args.sourceLoc (some mem) args.cpu args.emission = some buf →
        (Event.tryFrom sourceLoc e buf).run = some (.ok args.event)

section Layout

variable (strLen : ℕ)

theorem layoutSize_noLoc : layoutSize (bpfTracingEvent strLen false) = (strLen + 5) / 2 * 2 := by
  simp [layoutSize, bpfTracingEvent, endFrom, alignUp]
  omega

theorem layoutSize_loc :
    layoutSize (bpfTracingEvent strLen true) = (strLen + strLen + 7) / 4 * 4 + 4 := by
  simp [layoutSize, bpfTracingEvent, endFrom, alignUp]
  omega

theorem bpfTracingStores_noLoc (e : Endian) (args : Arguments) :
    bpfTracingStores e strLen none args.cpu args.emission =
      [(0, e.encode 1 args.kind.emittedLevel), (1, e.encode 1 args.kind.eventType.value),
        (2, e.encode 2 args.cpu), (4, snprintf strLen (ofText args.msg))] := by
  simp [bpfTracingStores, offsetOf, bpfTracingEvent, offsetFrom, alignUp, Arguments.emission]

theorem bpfTracingStores_loc (e : Endian) (args : Arguments) (loc : Header.SourceLoc) :
    bpfTracingStores e strLen (some loc) args.cpu args.emission =
      [(0, e.encode 1 args.kind.emittedLevel), (1, e.encode 1 args.kind.eventType.value),
        (2, e.encode 2 args.cpu), (4, snprintf strLen (ofText args.msg)),
        (4 + strLen, snprintf strLen loc.file),
        ((strLen + strLen + 7) / 4 * 4, e.encode 4 loc.line)] := by
  have hline : (4 + strLen + strLen + 3) / 4 = (strLen + strLen + 7) / 4 := by omega
  simp [bpfTracingStores, offsetOf, bpfTracingEvent, offsetFrom, alignUp, Arguments.emission,
    hline]

end Layout

theorem snprintf_of_length_lt {strLen : ℕ} {bs : List UInt8} (h : bs.length < strLen) :
    snprintf strLen bs = bs ++ [0] := by
  rw [snprintf, List.take_of_length_le (by omega)]

theorem untilNul_of_append_of_lt {bs rest : List UInt8}
    (h : (untilNul bs).length < bs.length) : untilNul (bs ++ rest) = untilNul bs := by
  have hne : (bs.takeWhile (· != 0)).length ≠ bs.length := Nat.ne_of_lt h
  rw [untilNul, untilNul, List.takeWhile_append, if_neg hne]

theorem untilNul_of_length_le {bs rest : List UInt8}
    (h : (untilNul (bs ++ rest)).length ≤ bs.length) :
    untilNul bs = untilNul (bs ++ rest) := by
  rw [untilNul, untilNul, List.takeWhile_append] at *
  split at h
  · rename_i hall
    rw [if_pos hall]
    rw [List.length_append] at h
    have hrest : (rest.takeWhile (· != 0)) = [] := List.eq_nil_of_length_eq_zero (by omega)
    rw [hrest, List.append_nil]
    exact (List.takeWhile_prefix _).eq_of_length hall
  · rename_i hnot
    rw [if_neg hnot]

/-- A message is read from a field that is one byte longer or shorter than the one it was
written to. -/
theorem untilNul_window_of_near {buf bs : List UInt8} {strLen : ℕ} (hlt : bs.length < strLen)
    (hbuf : 4 + strLen ≤ buf.length) (hread : untilNul (window buf 4 strLen) = bs)
    (hle : strLen ≤ 129) : untilNul (window buf 4 128) = bs := by
  by_cases hshort : strLen ≤ 128
  · have hsplit := window_add buf 4 strLen (128 - strLen)
    rw [Nat.add_sub_cancel' hshort] at hsplit
    rw [hsplit, untilNul_of_append_of_lt, hread]
    rw [hread, length_window]
    omega
  · obtain rfl : strLen = 129 := by omega
    have hsplit := window_add buf 4 128 1
    rw [hsplit] at hread
    rw [untilNul_of_length_le, hread]
    rw [hread, length_window]
    omega

section NoLoc

variable {e : Endian} {strLen : ℕ} {args : Arguments} {mem : List UInt8}

theorem decode_of_windows {buf : List UInt8} (hcpu : args.cpu < 2 ^ 16) (hloc : args.loc = none)
    (hlength : 132 ≤ buf.length ∧ buf.length < 264)
    (hlevel : window buf 0 1 = e.encode 1 args.kind.emittedLevel)
    (hkind : window buf 1 1 = e.encode 1 args.kind.eventType.value)
    (hwindow : window buf 2 2 = e.encode 2 args.cpu)
    (hmsg : untilNul (window buf 4 128) = ofText args.msg) :
    decode false e buf = .ok args.event := by
  rw [decode_eq_ok_iff]
  constructor
  · exact hlength.1
  · rw [textField_eq_ok_iff, hmsg, text?_ofText]
    rfl
  · rw [locOf, eventWithFileSize_eq, if_neg (by omega)]
    simp [Arguments.event, hloc]
  · rw [getD_of_window (hkind.trans (e.encode_one _)),
      getD_of_window (hlevel.trans (e.encode_one _)), parseKind_emitted]
    rfl
  · rw [hwindow, Endian.decode_encode_of_lt e (by simpa using hcpu)]
    rfl

theorem inRange_noLoc (hfits : args.Fits strLen) (hmem : mem.length = (strLen + 5) / 2 * 2) :
    InRange mem.length (bpfTracingStores e strLen none args.cpu args.emission) := by
  have hmsg : (ofText args.msg).length < strLen := by
    rw [length_ofText]
    exact hfits.msg
  simp only [bpfTracingStores_noLoc, snprintf_of_length_lt hmsg, InRange, List.mem_cons,
    List.not_mem_nil, or_false, forall_eq_or_imp, forall_eq, Endian.length_encode,
    List.length_append, List.length_singleton]
  omega

/-- The decoder reads an event without a source location. -/
theorem decode_noLoc (hvalid : args.Valid) (hfits : args.Fits strLen) (hloc : args.loc = none)
    (hmem : mem.length = (strLen + 5) / 2 * 2) (hlen : 127 ≤ strLen ∧ strLen ≤ 129) :
    decode false e (overwriteAll mem (bpfTracingStores e strLen none args.cpu args.emission)) =
      .ok args.event := by
  have hmsg : (ofText args.msg).length < strLen := by
    rw [length_ofText]
    exact hfits.msg
  have hrange := inRange_noLoc (e := e) hfits hmem
  have hlength := length_overwriteAll hrange
  rw [bpfTracingStores_noLoc] at hrange hlength ⊢
  have hlevel := window_overwriteAll_self [] 0 (e.encode 1 args.kind.emittedLevel)
    [_, _, _] hrange (by simp) (by simp)
  have hkind := window_overwriteAll_self [_] 1 (e.encode 1 args.kind.eventType.value)
    [_, _] hrange (by simp) (by simp)
  have hcpu := window_overwriteAll_self [_, _] 2 (e.encode 2 args.cpu) [_] hrange
    (by simp) (by simp)
  have hwrite : 4 + (snprintf strLen (ofText args.msg)).length ≤ 4 + strLen := by
    rw [snprintf_of_length_lt hmsg, List.length_append, List.length_singleton]
    omega
  have hfield := window_overwriteAll_of_subset [_, _, _]
    (4, snprintf strLen (ofText args.msg)) [] (a := 4) (n := strLen) hrange (by omega)
    (Nat.le_refl 4) hwrite (by simp) (by simp)
  have hread := (congrArg untilNul hfield).trans
    ((untilNul_overwrite_snprintf hvalid.msg strLen _).trans (List.take_of_length_le (by omega)))
  rw [Endian.length_encode] at hlevel hkind hcpu
  refine decode_of_windows hvalid.cpu hloc (by omega) hlevel hkind hcpu ?_
  exact untilNul_window_of_near hmsg (hlength ▸ by omega) hread hlen.2

end NoLoc

/-- What the decoder reads of a program without source locations has none. -/
theorem lt_of_decodes_noLoc {sourceLoc : Bool} {e : Endian} {args : Arguments}
    {buf : List UInt8} (h : Decodes sourceLoc e buf args.event) (hloc : args.loc = none) :
    sourceLoc = false ∧ 132 ≤ buf.length ∧ args.msg.utf8ByteSize ≤ 128 := by
  rcases h.loc_cases with ⟨_, ⟨line, hline⟩, _⟩ | ⟨hshort, _⟩
  · rw [Arguments.event, hloc] at hline
    cases hline
  · have hlong := h.long
    cases sourceLoc with
    | true => exact absurd hlong (Nat.not_le.mpr hshort)
    | false =>
        refine ⟨rfl, hlong, ?_⟩
        have hcontent : ofText args.msg = untilNul (window buf 4 128) := h.ofText_content
        have hle := (List.takeWhile_prefix (· != 0) (l := window buf 4 128)).length_le
        rw [← length_ofText, hcontent]
        refine Nat.le_trans hle ?_
        rw [length_window]
        exact Nat.min_le_left _ _

/-- What the decoder reads of a program with source locations has one, and no NUL where it
looks for the name of a file. -/
theorem getElem?_of_decodes_loc {sourceLoc : Bool} {e : Endian} {args : Arguments}
    {buf : List UInt8} (h : Decodes sourceLoc e buf args.event) {loc : String × UInt32}
    (hloc : args.loc = some loc) (hfile : loc.1 ≠ "") :
    264 ≤ buf.length ∧ buf[132]? ≠ some 0 := by
  have hevent : args.event.file = some loc.1 := by
    simp [Arguments.event, hloc, hfile]
  rcases h.loc_cases with ⟨hlong, _, hbytes, _⟩ | ⟨_, _, hnone⟩
  · refine ⟨hlong, fun hzero => hfile ?_⟩
    obtain ⟨rest, hrest⟩ : ∃ rest, window buf 132 128 = 0 :: rest := by
      have hget := getElem?_window buf 132 128 0
      rw [if_pos (by decide), Nat.add_zero, hzero] at hget
      cases hwindow : window buf 132 128 with
      | nil => simp [hwindow] at hget
      | cons b rest =>
          rw [hwindow] at hget
          cases hget
          exact ⟨rest, rfl⟩
    rw [hevent, Option.getD_some, hrest, untilNul_zero_cons] at hbytes
    exact ofText_injective hbytes
  · rw [hevent] at hnone
    cases hnone

theorem getElem?_of_window {buf bs : List UInt8} {a n i : ℕ} (h : window buf a n = bs)
    (hi : i < n) : buf[a + i]? = bs[i]? := by
  rw [← h, getElem?_window, if_pos hi]

def fromFile (file : String) : Arguments :=
  ⟨.message .info, 0, "", some (file, 0)⟩

section Loc

variable {e : Endian} {strLen : ℕ}

theorem inRange_loc {args : Arguments} {mem : List UInt8} {loc : String × UInt32}
    (hfits : args.Fits strLen) (hloc : args.loc = some loc)
    (hmem : mem.length = (strLen + strLen + 7) / 4 * 4 + 4) :
    InRange mem.length (bpfTracingStores e strLen args.sourceLoc args.cpu args.emission) := by
  have hmsg : (ofText args.msg).length < strLen := by
    rw [length_ofText]
    exact hfits.msg
  have hfile : (ofText loc.1).length < strLen := by
    rw [length_ofText]
    exact hfits.file loc hloc
  rw [Arguments.sourceLoc, hloc, Option.map_some]
  simp only [bpfTracingStores_loc, snprintf_of_length_lt hmsg, snprintf_of_length_lt hfile,
    InRange, List.mem_cons, List.not_mem_nil, or_false, forall_eq_or_imp, forall_eq,
    Endian.length_encode, List.length_append, List.length_singleton]
  omega

theorem fits_fromFile {file : String} (h : file.utf8ByteSize < strLen) :
    (fromFile file).Fits strLen := by
  constructor
  · exact Nat.lt_of_le_of_lt (Nat.zero_le _) h
  · rintro loc ⟨⟩
    exact h

theorem valid_fromFile {file : String} (h : 0 ∉ ofText file) : (fromFile file).Valid := by
  refine ⟨Nat.two_pow_pos 16, by simp [fromFile, ofText], ?_⟩
  rintro loc ⟨⟩
  exact h

theorem stores_fromFile (h : 2 ≤ strLen) :
    bpfTracingStores e strLen (fromFile "a").sourceLoc 0 (fromFile "a").emission =
      [(0, e.encode 1 3), (1, e.encode 1 0), (2, e.encode 2 0), (4, [0]),
        (4 + strLen, [97, 0]), ((strLen + strLen + 7) / 4 * 4, e.encode 4 0)] := by
  have hmsg : snprintf strLen (ofText "") = [0] := by
    rw [snprintf_of_length_lt] <;> simp [ofText]
    omega
  have hfile : snprintf strLen (ofText "a") = [97, 0] := by
    rw [snprintf_of_length_lt]
    · decide
    · rw [length_ofText]
      exact h
  have hstores := bpfTracingStores_loc strLen e (fromFile "a") ⟨ofText "a", 0⟩
  rw [show (fromFile "a").msg = "" from rfl, hmsg, hfile] at hstores
  exact hstores

theorem getElem?_stores_fromFile (h : 127 ≤ strLen) (hne : strLen ≠ 128) :
    (overwriteAll (List.replicate ((strLen + strLen + 7) / 4 * 4 + 4) 0)
      (bpfTracingStores e strLen (fromFile "a").sourceLoc 0 (fromFile "a").emission))[132]? =
        some 0 := by
  have hrange : InRange (List.replicate ((strLen + strLen + 7) / 4 * 4 + 4) (0 : UInt8)).length
      (bpfTracingStores e strLen (fromFile "a").sourceLoc 0 (fromFile "a").emission) :=
    inRange_loc (fits_fromFile (Nat.lt_of_lt_of_le (by decide) h)) rfl List.length_replicate
  rw [stores_fromFile (by omega)] at hrange ⊢
  by_cases hshort : strLen = 127
  · -- the terminator of the name is where the decoder expects its beginning
    subst hshort
    have hwindow := window_overwriteAll_self [_, _, _, _] 131 [97, 0] [_] hrange (by simp)
      (by simp)
    exact getElem?_of_window hwindow (i := 1) (by decide)
  · -- nothing is written between the message and the name
    have hmisses : Misses 132 1 [(0, e.encode 1 3), (1, e.encode 1 0), (2, e.encode 2 0),
        (4, [0]), (4 + strLen, [97, 0]), ((strLen + strLen + 7) / 4 * 4, e.encode 4 0)] := by
      simp
      omega
    have hwindow := window_overwriteAll_of_misses hrange hmisses
    refine (getElem?_of_window hwindow (i := 0) (by decide)).trans ?_
    rw [getElem?_window, if_pos (by decide), List.getElem?_replicate, if_pos (by omega)]

end Loc

section Exactly

variable {sourceLoc : Bool} {e : Endian} {strLen : ℕ}

theorem reads_iff_decodes (withLoc : Bool) :
    Reads sourceLoc e strLen withLoc ↔
      ∀ (args : Arguments) (mem : List UInt8), args.Valid → args.Fits strLen →
        args.loc.isSome = withLoc → mem.length = layoutSize (bpfTracingEvent strLen withLoc) →
          Decodes sourceLoc e
            (overwriteAll mem
              (bpfTracingStores e strLen args.sourceLoc args.cpu args.emission)) args.event := by
  constructor
  · intro h args mem hvalid hfits hloc hmem
    have hread := h args mem _ hvalid hfits hloc hmem (Header.bpfTracingEmitEvent_eq ..)
    rwa [run_tryFrom, Option.some_inj, decode_eq_ok_iff] at hread
  · intro h args mem buf hvalid hfits hloc hmem hbuf
    rw [Header.bpfTracingEmitEvent_eq, Option.some_inj] at hbuf
    rw [run_tryFrom, Option.some_inj, decode_eq_ok_iff, ← hbuf]
    exact h args mem hvalid hfits hloc hmem

theorem reads_noLoc_iff (hpos : 0 < strLen) :
    Reads sourceLoc e strLen false ↔ sourceLoc = false ∧ 127 ≤ strLen ∧ strLen ≤ 129 := by
  rw [reads_iff_decodes, layoutSize_noLoc]
  constructor
  · intro h
    -- a message that fills its field
    have hvalid := Arguments.valid_repeated (strLen - 1) (c := 'a') (by decide)
    have hsize : (Arguments.repeated (strLen - 1) 'a').msg.utf8ByteSize = strLen - 1 := by
      rw [Arguments.repeated, utf8ByteSize_ofList_replicate]
      exact Nat.mul_one _
    have hfits : (Arguments.repeated (strLen - 1) 'a').Fits strLen :=
      ⟨by omega, by simp [Arguments.repeated]⟩
    have hmem : (List.replicate ((strLen + 5) / 2 * 2) (0 : UInt8)).length =
        (strLen + 5) / 2 * 2 := List.length_replicate
    obtain ⟨hfalse, hlong, hshort⟩ := lt_of_decodes_noLoc
      (h (Arguments.repeated (strLen - 1) 'a') _ hvalid hfits rfl hmem) rfl
    have hlength := length_overwriteAll (inRange_noLoc (e := e) hfits hmem)
    rw [hmem] at hlength
    exact ⟨hfalse, by have := hlong.trans_eq hlength; omega, by omega⟩
  · rintro ⟨rfl, hlen⟩ args mem hvalid hfits hloc hmem
    have hnone : args.loc = none := Option.isNone_iff_eq_none.mp (by simpa using hloc)
    rw [← decode_eq_ok_iff, Arguments.sourceLoc, hnone]
    exact decode_noLoc hvalid hfits hnone hmem hlen

theorem reads_loc_iff (hpos : 0 < strLen) : Reads sourceLoc e strLen true ↔ strLen = 128 := by
  rw [reads_iff_decodes, layoutSize_loc]
  constructor
  · intro h
    by_contra hne
    have hmem : (List.replicate ((strLen + strLen + 7) / 4 * 4 + 4) (0 : UInt8)).length =
        (strLen + strLen + 7) / 4 * 4 + 4 := List.length_replicate
    by_cases hshort : strLen < 127
    · -- the record is too short to hold a source location
      have hfits : (fromFile "").Fits strLen := fits_fromFile hpos
      have hread := h (fromFile "") _ (valid_fromFile (by simp [ofText])) hfits rfl hmem
      have hlength := length_overwriteAll (inRange_loc (e := e) hfits rfl hmem)
      rw [hmem] at hlength
      rcases hread.loc_cases with ⟨hlong, _⟩ | ⟨_, hline, _⟩
      · have hle := hlong.trans_eq hlength
        omega
      · cases hline
    · have hlong : 127 ≤ strLen := Nat.le_of_not_lt hshort
      have hread := h (fromFile "a") _ (valid_fromFile (by decide))
        (fits_fromFile (Nat.lt_of_lt_of_le (by decide) hlong)) rfl hmem
      exact (getElem?_of_decodes_loc hread rfl (by decide)).2 (getElem?_stores_fromFile hlong hne)
  · rintro rfl args mem hvalid hfits hloc hmem
    obtain ⟨loc, hsome⟩ := Option.isSome_iff_exists.mp hloc
    have hshort : args.Short :=
      ⟨Nat.le_of_lt_succ hfits.msg, fun loc hloc => Nat.le_of_lt_succ (hfits.file loc hloc)⟩
    have hsize : mem.length = args.size := by
      rw [Arguments.size_of_some hsome, hmem]
    have hrecord := args.record_eq e mem
    rw [Arguments.record, Header.bpfTracingEmitEvent_eq, Option.some_inj] at hrecord
    rw [show (128 : ℕ) = Header.bpfTracingStrLen from rfl, hrecord,
      (Arguments.holds_record hvalid hsize).decodes_iff hvalid.cpu]
    exact Arguments.readsAs_event hshort fun _ => hloc

/-- Without source locations, the decoder reads every event exactly if the length of the
strings is at most one off. With source locations, it has to be the one that it assumes. -/
theorem reads_iff (withLoc : Bool) (hpos : 0 < strLen) :
    Reads sourceLoc e strLen withLoc ↔
      if withLoc then strLen = 128
      else sourceLoc = false ∧ 127 ≤ strLen ∧ strLen ≤ 129 := by
  cases withLoc with
  | true => exact reads_loc_iff hpos
  | false => exact reads_noLoc_iff hpos

/-- Strings that are one byte longer do no harm. -/
theorem reads_oneLonger : Reads false .little 129 false :=
  (reads_iff false (by decide)).mpr ⟨rfl, by decide, by decide⟩

end Exactly

end Tracing

end Xbpf
