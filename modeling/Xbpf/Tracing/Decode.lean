import Mathlib.Data.List.GetD
import Xbpf.Tracing.Event

/-!
# What the event decoder accepts

`decode` is the decoder without its panics: `run_tryFrom` shows that no index
and no slice of the source decoder is ever out of range, so that every record,
of any length, has a result. `Decodes` describes field by field the records that
have a given event as their result, and `decode_eq_ok_iff` is the form in which
every later result about the decoder uses it.
-/

namespace Xbpf

namespace Tracing

open Bytes

theorem eventBaseSize_eq : eventBaseSize = 132 := rfl

theorem eventWithFileSize_eq : eventWithFileSize = 264 := rfl

section Runs

variable {α β : Type}

theorem run_orPanic_bind (x : α) (f : α → Decoder β) :
    (orPanic (some x) >>= f).run = (f x).run := rfl

theorem run_bind_of_ok {m : Decoder α} {x : α} (h : m.run = some (.ok x))
    (f : α → Decoder β) : (m >>= f).run = (f x).run := by
  rw [ExceptT.run_bind, h]
  rfl

theorem run_bind_of_error {m : Decoder α} {err : EventDecodeError}
    (h : m.run = some (.error err)) (f : α → Decoder β) :
    (m >>= f).run = some (.error err) := by
  rw [ExceptT.run_bind, h]
  rfl

theorem run_failIf_of_not {c : Prop} [Decidable c] (h : ¬ c)
    (err : EventDecodeError) : (failIf c err).run = some (.ok ()) := by
  rw [failIf, if_neg h]
  rfl

theorem run_failIf_of_pos {c : Prop} [Decidable c] (h : c)
    (err : EventDecodeError) : (failIf c err).run = some (.error err) := by
  rw [failIf, if_pos h]
  rfl

end Runs

/-- The text of a string field, with the error the decoder reports. -/
def textField (bytes : List UInt8) (field : String) :
    Except EventDecodeError String :=
  match text? (untilNul bytes) with
  | some s => .ok s
  | none => .error (.invalidUtf8 field)

def locOf (e : Endian) (buf : List UInt8) :
    Except EventDecodeError (Option String × Option UInt32) :=
  if eventWithFileSize ≤ buf.length then
    (textField (window buf 132 128) "file").map fun file =>
      (if file.isEmpty then none else some file,
        some (UInt32.ofNat (e.decode (window buf 260 4))))
  else
    .ok (none, none)

/-- The decoder without its panics. -/
def decode (sourceLoc : Bool) (e : Endian) (buf : List UInt8) :
    Except EventDecodeError Event :=
  if buf.length < eventBaseSize then
    .error (.bufferTooShort eventBaseSize buf.length)
  else
    (textField (window buf 4 128) "msg").bind fun content =>
      if sourceLoc && !decide (eventWithFileSize ≤ buf.length) then
        .error (.bufferTooShort eventWithFileSize buf.length)
      else
        (locOf e buf).bind fun loc =>
          (parseKind (buf.getD 1 0) (buf.getD 0 0)).bind fun kind =>
            .ok { kind, content, cpu := e.decode (window buf 2 2),
                  file := loc.1, line := loc.2 }

theorem textField_eq_ok_iff (bytes : List UInt8) (field s : String) :
    textField bytes field = .ok s ↔ text? (untilNul bytes) = some s := by
  rw [textField]
  cases text? (untilNul bytes) <;> simp

theorem run_parseCstr (bytes : List UInt8) (field : String) :
    (parseCstr bytes field).run = some (textField bytes field) := by
  rw [parseCstr, slice?_findIdx?_zero, run_orPanic_bind, textField]
  cases text? (untilNul bytes) <;> rfl

theorem run_parseLoc (e : Endian) (buf : List UInt8) :
    (parseLoc e buf (decide (eventWithFileSize ≤ buf.length))).run =
      some (locOf e buf) := by
  rw [parseLoc, locOf]
  by_cases hfile : eventWithFileSize ≤ buf.length
  · have hlen : 264 ≤ buf.length := hfile
    have hfileSlice : slice? buf (4 + bpfTracingStrLen)
        (4 + bpfTracingStrLen + bpfTracingStrLen) = some (window buf 132 128) :=
      slice?_of_le buf (by decide) (Nat.le_trans (by decide) hlen)
    have hlineSlice : slice? buf (4 + bpfTracingStrLen + bpfTracingStrLen)
        (4 + bpfTracingStrLen + bpfTracingStrLen + 4) =
          some (window buf 260 4) :=
      slice?_of_le buf (by decide) hlen
    have hline : arrayOf 4 (window buf 260 4) = some (window buf 260 4) := by
      rw [arrayOf, if_pos]
      rw [length_window]
      omega
    have hrun := run_parseCstr (window buf 132 128) "file"
    rw [if_pos (decide_eq_true hfile), if_pos hfile]
    simp only [hfileSlice, hlineSlice, run_orPanic_bind]
    cases htext : textField (window buf 132 128) "file" with
    | error err =>
        rw [htext] at hrun
        rw [run_bind_of_error hrun]
        rfl
    | ok file =>
        rw [htext] at hrun
        rw [run_bind_of_ok hrun, run_orPanic_bind, hline, run_orPanic_bind]
        rfl
  · rw [if_neg (by simpa using hfile), if_neg hfile]
    rfl

theorem getElem?_eq_getD (buf : List UInt8) {i : ℕ} (h : i < buf.length) :
    buf[i]? = some (buf.getD i 0) := by
  rw [List.getD_eq_getElem buf 0 h, List.getElem?_eq_getElem h]

theorem getD_of_window {buf : List UInt8} {i : ℕ} {b : UInt8}
    (h : window buf i 1 = [b]) : buf.getD i 0 = b := by
  have hget := getElem?_window buf i 1 0
  have hi : buf[i]? = some b := by simpa [h] using hget.symm
  rw [List.getD_eq_getElem?_getD, hi, Option.getD_some]

theorem window_two {buf : List UInt8} (h : 4 ≤ buf.length) :
    window buf 2 2 = [buf.getD 2 0, buf.getD 3 0] := by
  apply List.ext_getElem?
  intro i
  rw [getElem?_window]
  match i with
  | 0 => simpa using getElem?_eq_getD buf (i := 2) (by omega)
  | 1 => simpa using getElem?_eq_getD buf (i := 3) (by omega)
  | i + 2 => simp

/-- No index and no slice of the decoder is out of range, whatever the length of
the record and whichever way the decoder was built. -/
theorem run_tryFrom (sourceLoc : Bool) (e : Endian) (buf : List UInt8) :
    (Event.tryFrom sourceLoc e buf).run = some (decode sourceLoc e buf) := by
  rw [Event.tryFrom, decode]
  by_cases hbase : buf.length < eventBaseSize
  · rw [if_pos hbase, run_bind_of_error (run_failIf_of_pos hbase _)]
  have hlen : 132 ≤ buf.length := Nat.le_of_not_lt hbase
  have hmsg : slice? buf 4 (4 + bpfTracingStrLen) = some (window buf 4 128) :=
    slice?_of_le buf (by decide) hlen
  rw [if_neg hbase, run_bind_of_ok (run_failIf_of_not hbase _),
    getElem?_eq_getD buf (i := 0) (by omega), run_orPanic_bind,
    getElem?_eq_getD buf (i := 1) (by omega), run_orPanic_bind,
    getElem?_eq_getD buf (i := 2) (by omega), run_orPanic_bind,
    getElem?_eq_getD buf (i := 3) (by omega), run_orPanic_bind,
    ← window_two (by omega)]
  simp only [hmsg, run_orPanic_bind]
  have hcstr := run_parseCstr (window buf 4 128) "msg"
  cases htext : textField (window buf 4 128) "msg" with
  | error err =>
      rw [htext] at hcstr
      rw [run_bind_of_error hcstr]
      rfl
  | ok content =>
      rw [htext] at hcstr
      rw [run_bind_of_ok hcstr, Except.bind]
      by_cases hshort : (sourceLoc && !decide (eventWithFileSize ≤ buf.length)) = true
      · rw [if_pos hshort, run_bind_of_error (run_failIf_of_pos hshort _)]
      rw [if_neg hshort, run_bind_of_ok (run_failIf_of_not hshort _)]
      have hparse := run_parseLoc e buf
      cases hloc : locOf e buf with
      | error err =>
          rw [hloc] at hparse
          rw [run_bind_of_error hparse]
          rfl
      | ok loc =>
          rw [hloc] at hparse
          rw [run_bind_of_ok hparse]
          cases parseKind (buf.getD 1 0) (buf.getD 0 0) <;> rfl

/-- The record `buf` is long enough, and each of its fields holds what the event
says it does. -/
structure Decodes (sourceLoc : Bool) (e : Endian) (buf : List UInt8)
    (event : Event) : Prop where
  long : (if sourceLoc then eventWithFileSize else eventBaseSize) ≤ buf.length
  content : textField (window buf 4 128) "msg" = .ok event.content
  loc : locOf e buf = .ok (event.file, event.line)
  kind : parseKind (buf.getD 1 0) (buf.getD 0 0) = .ok event.kind
  cpu : event.cpu = e.decode (window buf 2 2)

theorem decode_eq_ok_iff (sourceLoc : Bool) (e : Endian) (buf : List UInt8)
    (event : Event) :
    decode sourceLoc e buf = .ok event ↔ Decodes sourceLoc e buf event := by
  rw [decode]
  constructor
  · intro h
    split at h
    · exact absurd h (by simp)
    rename_i hbase
    cases hcontent : textField (window buf 4 128) "msg" with
    | error err => simp [hcontent, Except.bind] at h
    | ok content =>
        rw [hcontent, Except.bind] at h
        split at h
        · exact absurd h (by simp)
        rename_i hshort
        cases hloc : locOf e buf with
        | error err => simp [hloc, Except.bind] at h
        | ok loc =>
            rw [hloc, Except.bind] at h
            cases hkind : parseKind (buf.getD 1 0) (buf.getD 0 0) with
            | error err =>
                rw [hkind, Except.bind] at h
                cases h
            | ok kind =>
                rw [hkind, Except.bind, Except.ok.injEq] at h
                subst h
                refine ⟨?_, hcontent, hloc, hkind, rfl⟩
                cases sourceLoc with
                | false => exact Nat.le_of_not_lt hbase
                | true => simpa using hshort
  · rintro ⟨hlong, hcontent, hloc, hkind, hcpu⟩
    have hbase : ¬ buf.length < eventBaseSize := by
      have hsize : eventBaseSize ≤ eventWithFileSize := by decide
      cases sourceLoc with
      | false => exact Nat.not_lt.mpr hlong
      | true => exact Nat.not_lt.mpr (Nat.le_trans hsize hlong)
    have hshort : ¬ (sourceLoc && !decide (eventWithFileSize ≤ buf.length)) = true := by
      cases sourceLoc with
      | false => simp
      | true => simpa using hlong
    rw [if_neg hbase, hcontent, Except.bind, if_neg hshort, hloc, Except.bind,
      hkind, Except.bind, ← hcpu]

end Tracing

end Xbpf
