import Xbpf.Bytes.Endian
import Xbpf.Bytes.Layout
import Xbpf.Bytes.Text
import Xbpf.Tracing.Level

/-!
# The macros of the `xbpf.h` header

The preprocessor decides from `BPF_TRACING_LEVEL` which macros compile to
anything. A macro that does expands to `BPF_TRACING_EMIT_EVENT`, and its
`Emission` is what it passes there. The emission is written member by member
into the memory that the ring buffer reserves for a `struct bpf_tracing_event`,
which is not cleared, and nothing is written if the ring buffer is full. The
struct has two variants, one with the source location of the macro.
-/

namespace Xbpf

namespace Header

open Bytes
open Tracing (Level)

def bpfTracingLevelOff : ℕ := 0

def bpfTracingStrLen : ℕ := 128

inductive TracingEventType
  | msg
  | spanStart
  | spanEnd
  deriving DecidableEq, Repr

def TracingEventType.value : TracingEventType → ℕ
  | msg => 0
  | spanStart => 1
  | spanEnd => 2

/-- The arguments of `BPF_TRACING_EMIT_EVENT`. -/
structure Emission (α : Type*) where
  lvl : ℕ
  ty : TracingEventType
  args : α

section Macros

variable {α : Type*}

/-- A macro that is compiled in from the level `lvl` on. -/
def emitFrom (lvl : Level) (ty : TracingEventType) (bpfTracingLevel : ℕ)
    (args : α) : Option (Emission α) :=
  if lvl.verbosity ≤ bpfTracingLevel then some ⟨lvl.verbosity, ty, args⟩ else none

/-- Closes a span. Compiled in whenever tracing is on at all. -/
def bpfEndSpan (bpfTracingLevel : ℕ) (args : α) : Option (Emission α) :=
  if bpfTracingLevel = bpfTracingLevelOff then none
  else some ⟨bpfTracingLevelOff, .spanEnd, args⟩

def bpfError : ℕ → α → Option (Emission α) := emitFrom .error .msg

def bpfStartErrorSpan : ℕ → α → Option (Emission α) := emitFrom .error .spanStart

def bpfWarn : ℕ → α → Option (Emission α) := emitFrom .warn .msg

def bpfStartWarnSpan : ℕ → α → Option (Emission α) := emitFrom .warn .spanStart

def bpfInfo : ℕ → α → Option (Emission α) := emitFrom .info .msg

def bpfStartInfoSpan : ℕ → α → Option (Emission α) := emitFrom .info .spanStart

def bpfDebug : ℕ → α → Option (Emission α) := emitFrom .debug .msg

def bpfStartDebugSpan : ℕ → α → Option (Emission α) := emitFrom .debug .spanStart

def bpfTrace : ℕ → α → Option (Emission α) := emitFrom .trace .msg

def bpfStartTraceSpan : ℕ → α → Option (Emission α) := emitFrom .trace .spanStart

def bpfMessage : Level → ℕ → α → Option (Emission α)
  | .error => bpfError
  | .warn => bpfWarn
  | .info => bpfInfo
  | .debug => bpfDebug
  | .trace => bpfTrace

def bpfStartSpan : Level → ℕ → α → Option (Emission α)
  | .error => bpfStartErrorSpan
  | .warn => bpfStartWarnSpan
  | .info => bpfStartInfoSpan
  | .debug => bpfStartDebugSpan
  | .trace => bpfStartTraceSpan

theorem bpfMessage_eq (lvl : Level) :
    bpfMessage (α := α) lvl = emitFrom lvl .msg := by
  cases lvl <;> rfl

theorem bpfStartSpan_eq (lvl : Level) :
    bpfStartSpan (α := α) lvl = emitFrom lvl .spanStart := by
  cases lvl <;> rfl

end Macros

inductive EventMember
  | level
  | kind
  | cpu
  | msg
  | file
  | line
  deriving DecidableEq, Repr

/-- The layout of `struct bpf_tracing_event`, with or without the source
location. -/
def bpfTracingEvent (strLen : ℕ) (sourceLoc : Bool) : List (Member EventMember) :=
  [⟨.level, 1, 1⟩, ⟨.kind, 1, 1⟩, ⟨.cpu, 2, 2⟩, ⟨.msg, strLen, 1⟩] ++
    if sourceLoc then [⟨.file, strLen, 1⟩, ⟨.line, 4, 4⟩] else []

structure SourceLoc where
  file : List UInt8
  line : ℕ

/-- Submits an event, with its source location if `loc` is given. The memory
`reserved` for it is absent if the ring buffer is full. -/
def bpfTracingEmitEvent (e : Endian) (strLen : ℕ) (loc : Option SourceLoc)
    (reserved : Option (List UInt8)) (smpProcessorId : ℕ)
    (emission : Emission (List UInt8)) : Option (List UInt8) := do
  let layout := bpfTracingEvent strLen loc.isSome
  let event ← reserved
  let event := store layout event .level (e.encode 1 emission.lvl)
  let event := store layout event .kind (e.encode 1 emission.ty.value)
  let event := store layout event .cpu (e.encode 2 smpProcessorId)
  let event := store layout event .msg (snprintf strLen emission.args)
  match loc with
  | none => some event
  | some loc =>
      let event := store layout event .file (snprintf strLen loc.file)
      let event := store layout event .line (e.encode 4 loc.line)
      some event

end Header

end Xbpf
