import Xbpf.Bytes.Endian
import Xbpf.Bytes.Text
import Xbpf.Tracing.Level

/-!
# The events an eBPF program emits, and how they are decoded

An `Event` is decoded from the raw bytes of one record of the ring buffer. The
decoder is a computation in `Decoder`, which has two ways not to return: an
`EventDecodeError`, and a panic where an index or a slice of the record is out
of range. The byte order is the one of the machine, and `sourceLoc` says whether
the decoder was built with the `tracing-source-loc` feature.
-/

namespace Xbpf

namespace Tracing

open Bytes

def bpfTracingStrLen : ℕ := 128

/-- The size of a record without a source location. -/
def eventBaseSize : ℕ := 4 + bpfTracingStrLen

/-- The size of a record that carries the file and line it was emitted from. -/
def eventWithFileSize : ℕ := eventBaseSize + bpfTracingStrLen + 4

inductive EventDecodeError
  | bufferTooShort (expected actual : ℕ)
  | invalidLevel (level : UInt8)
  | invalidKind (kind : UInt8)
  | invalidUtf8 (field : String)
  deriving DecidableEq, Repr

def EventDecodeError.fmt : EventDecodeError → String
  | bufferTooShort expected actual =>
      "event buffer too short (expected at least " ++ toString expected ++
        " bytes, got " ++ toString actual ++ ")"
  | invalidLevel level => "invalid log level: " ++ toString level
  | invalidKind kind => "invalid event kind: " ++ toString kind
  | invalidUtf8 field => "invalid UTF-8 in " ++ field ++ " field"

/-- What an event does to the trace it belongs to. -/
inductive Kind
  | message (lvl : Level)
  | startSpan (lvl : Level)
  | endSpan
  deriving DecidableEq, Repr

structure Event where
  kind : Kind
  content : String
  cpu : ℕ
  file : Option String
  line : Option UInt32
  deriving DecidableEq, Repr

/-- A decoding step, which may fail or panic. -/
abbrev Decoder (α : Type) := ExceptT EventDecodeError Option α

def orPanic {α : Type} (x : Option α) : Decoder α :=
  ExceptT.lift x

def orErr {α : Type} (x : Except EventDecodeError α) : Decoder α :=
  ExceptT.mk (some x)

def failIf (c : Prop) [Decidable c] (err : EventDecodeError) : Decoder Unit :=
  if c then throw err else pure ()

def arrayOf (n : ℕ) (bytes : List UInt8) : Option (List UInt8) :=
  if bytes.length = n then some bytes else none

/-- Converts the level byte of a record, keeping the order the constants
define. -/
def parseLevel (level : UInt8) : Except EventDecodeError Level :=
  match level.toNat with
  | 1 => .ok .error
  | 2 => .ok .warn
  | 3 => .ok .info
  | 4 => .ok .debug
  | 5 => .ok .trace
  | _ => .error (.invalidLevel level)

/-- Reads a NUL-padded string field, naming it `field` in the error. -/
def parseCstr (bytes : List UInt8) (field : String) : Decoder String := do
  let stop := (bytes.findIdx? (· == 0)).getD bytes.length
  match text? (← orPanic (slice? bytes 0 stop)) with
  | some s => pure s
  | none => throw (.invalidUtf8 field)

/-- The file and line of a record, which are decoded whenever the record is long
enough to hold them. -/
def parseLoc (e : Endian) (buf : List UInt8) (hasFile : Bool) :
    Decoder (Option String × Option UInt32) :=
  if hasFile then do
    let fileStart := 4 + bpfTracingStrLen
    let fileEnd := fileStart + bpfTracingStrLen
    let file ← parseCstr (← orPanic (slice? buf fileStart fileEnd)) "file"
    let lineStart := fileEnd
    let lineSlice ← orPanic (slice? buf lineStart (lineStart + 4))
    let lineBytes ← orPanic (arrayOf 4 lineSlice)
    let line := UInt32.ofNat (e.decode lineBytes)
    pure (if file.isEmpty then none else some file, some line)
  else
    pure (none, none)

/-- The kind of a record, from its kind byte and, except for the end of a span,
its level byte. -/
def parseKind (kindRaw levelRaw : UInt8) : Except EventDecodeError Kind :=
  match kindRaw.toNat with
  | 0 => (parseLevel levelRaw).map Kind.message
  | 1 => (parseLevel levelRaw).map Kind.startSpan
  | 2 => .ok Kind.endSpan
  | _ => .error (.invalidKind kindRaw)

/-- Decodes one record of the ring buffer. -/
def Event.tryFrom (sourceLoc : Bool) (e : Endian) (buf : List UInt8) :
    Decoder Event := do
  failIf (buf.length < eventBaseSize) (.bufferTooShort eventBaseSize buf.length)
  let levelRaw ← orPanic buf[0]?
  let kindRaw ← orPanic buf[1]?
  let cpu := e.decode [← orPanic buf[2]?, ← orPanic buf[3]?]
  let msgStart := 4
  let msgEnd := msgStart + bpfTracingStrLen
  let msg ← parseCstr (← orPanic (slice? buf msgStart msgEnd)) "msg"
  let hasFile := decide (eventWithFileSize ≤ buf.length)
  failIf (sourceLoc && !hasFile) (.bufferTooShort eventWithFileSize buf.length)
  let (file, line) ← parseLoc e buf hasFile
  let kind ← orErr (parseKind kindRaw levelRaw)
  pure { kind, content := msg, cpu, file, line }

/-- What distinguishes one callsite from another: the file and line an event
came from, whether it opens a span, and its level. -/
abbrev CallsiteKey := Option String × Option UInt32 × Bool × Level

/-- The callsite an event belongs to. The end of a span has none. -/
def Event.callsiteKey (event : Event) : Except Unit CallsiteKey :=
  match event.kind with
  | .startSpan level => .ok (event.file, event.line, true, level)
  | .endSpan => .error ()
  | .message level => .ok (event.file, event.line, false, level)

end Tracing

end Xbpf
