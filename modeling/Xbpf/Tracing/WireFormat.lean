import Xbpf.Tracing.Decode
import Xbpf.Tracing.Header

/-!
# Encoding and decoding a record

`Arguments` is what a macro of the header is called with, `record` the memory
that it submits, and `Arguments.event` the event it means. The record is read
back member by member in `record_windows`, which holds for strings of any
length: a string field holds the first 127 bytes of what was formatted into it,
and whatever the memory held before follows the terminator. Both halves of the
wire format meet in `tryFrom_record`.
-/

namespace Xbpf

namespace Tracing

open Bytes
open Header (Emission SourceLoc TracingEventType bpfTracingEmitEvent bpfTracingEvent)

def Kind.eventType : Kind → TracingEventType
  | .message _ => .msg
  | .startSpan _ => .spanStart
  | .endSpan => .spanEnd

def Kind.emittedLevel : Kind → ℕ
  | .message lvl => lvl.verbosity
  | .startSpan lvl => lvl.verbosity
  | .endSpan => Header.bpfTracingLevelOff

theorem parseKind_emitted (kind : Kind) :
    parseKind (UInt8.ofNat kind.eventType.value) (UInt8.ofNat kind.emittedLevel) =
      .ok kind := by
  cases kind with
  | message lvl => cases lvl <;> rfl
  | startSpan lvl => cases lvl <;> rfl
  | endSpan => rfl

/-- What a macro is called with: the CPU, the formatted message, and the source
location if the header was compiled with source locations. -/
structure Arguments where
  kind : Kind
  cpu : ℕ
  msg : String
  loc : Option (String × UInt32)
  deriving DecidableEq, Repr

namespace Arguments

def emission (args : Arguments) : Emission (List UInt8) :=
  ⟨args.kind.emittedLevel, args.kind.eventType, ofText args.msg⟩

/-- The source location the preprocessor fills in. -/
def sourceLoc (args : Arguments) : Option SourceLoc :=
  args.loc.map fun loc => ⟨ofText loc.1, loc.2.toNat⟩

def size (args : Arguments) : ℕ :=
  layoutSize (bpfTracingEvent Header.bpfTracingStrLen args.loc.isSome)

/-- The submitted record, if the reserved memory is `mem`. -/
def record (e : Endian) (args : Arguments) (mem : List UInt8) :
    Option (List UInt8) :=
  bpfTracingEmitEvent e Header.bpfTracingStrLen args.sourceLoc (some mem)
    args.cpu args.emission

/-- The event the macro means. -/
def event (args : Arguments) : Event where
  kind := args.kind
  content := args.msg
  cpu := args.cpu
  file := args.loc.bind fun loc => if loc.1.isEmpty then none else some loc.1
  line := args.loc.map Prod.snd

/-- The arguments fit in a record: a 16-bit CPU id, and strings without NUL. -/
structure Valid (args : Arguments) : Prop where
  cpu : args.cpu < 2 ^ 16
  msg : 0 ∉ ofText args.msg
  file : ∀ loc ∈ args.loc, 0 ∉ ofText loc.1

theorem size_of_none {args : Arguments} (h : args.loc = none) :
    args.size = 132 := by
  rw [size, h]
  rfl

theorem size_of_some {args : Arguments} {loc : String × UInt32}
    (h : args.loc = some loc) : args.size = 264 := by
  rw [size, h, Option.isSome_some]
  rfl

def baseWrites (e : Endian) (args : Arguments) : List (ℕ × List UInt8) :=
  [(0, e.encode 1 args.kind.emittedLevel),
    (1, e.encode 1 args.kind.eventType.value),
    (2, e.encode 2 args.cpu),
    (4, snprintf 128 (ofText args.msg))]

def locWrites (e : Endian) (args : Arguments) : List (ℕ × List UInt8) :=
  match args.loc with
  | none => []
  | some loc =>
      [(132, snprintf 128 (ofText loc.1)), (260, e.encode 4 loc.2.toNat)]

theorem record_eq (e : Endian) (args : Arguments) (mem : List UInt8) :
    args.record e mem =
      some (overwriteAll mem (args.baseWrites e ++ args.locWrites e)) := by
  rcases args with ⟨kind, cpu, msg, _ | loc⟩ <;> rfl

theorem length_snprintf_le (bs : List UInt8) : (snprintf 128 bs).length ≤ 128 := by
  simp [snprintf]

theorem inRange_writes (e : Endian) (args : Arguments) :
    InRange args.size (args.baseWrites e ++ args.locWrites e) := by
  have hmsg := length_snprintf_le (ofText args.msg)
  cases hloc : args.loc with
  | none =>
      rw [size_of_none hloc, locWrites, hloc, List.append_nil]
      simp [InRange, baseWrites]
      omega
  | some loc =>
      have hfile := length_snprintf_le (ofText loc.1)
      rw [size_of_some hloc, locWrites, hloc]
      simp [InRange, baseWrites]
      omega

structure Holds (e : Endian) (args : Arguments) (buf : List UInt8) : Prop where
  length : buf.length = args.size
  level : window buf 0 1 = e.encode 1 args.kind.emittedLevel
  kind : window buf 1 1 = e.encode 1 args.kind.eventType.value
  cpu : window buf 2 2 = e.encode 2 args.cpu
  msg : untilNul (window buf 4 128) = (ofText args.msg).take 127
  file : ∀ loc ∈ args.loc, untilNul (window buf 132 128) = (ofText loc.1).take 127
  line : ∀ loc ∈ args.loc, window buf 260 4 = e.encode 4 loc.2.toNat

theorem holds_record {e : Endian} {args : Arguments} {mem : List UInt8}
    (hvalid : args.Valid) (hmem : mem.length = args.size) :
    Holds e args (overwriteAll mem (args.baseWrites e ++ args.locWrites e)) := by
  have hrange := inRange_writes e args
  rw [← hmem] at hrange
  have hsize : 132 ≤ args.size := by
    cases hloc : args.loc with
    | none => rw [size_of_none hloc]
    | some loc =>
        rw [size_of_some hloc]
        decide
  have hmsg := length_snprintf_le (ofText args.msg)
  have hpast : ∀ w ∈ args.locWrites e, 132 ≤ w.1 := by
    cases hloc : args.loc <;> simp [locWrites, hloc]
  have hmisses : ∀ a n, a + n ≤ 132 → Misses a n (args.locWrites e) := by
    intro a n han w hw
    exact Or.inl (Nat.le_trans han (hpast w hw))
  constructor
  case length => rw [length_overwriteAll hrange, hmem]
  case level =>
    have h := window_overwriteAll_self [] 0 (e.encode 1 args.kind.emittedLevel)
      (_ :: _ :: _ :: args.locWrites e) hrange (by simp) (by simp [hmisses])
    rwa [Endian.length_encode] at h
  case kind =>
    have h := window_overwriteAll_self [_] 1 (e.encode 1 args.kind.eventType.value)
      (_ :: _ :: args.locWrites e) hrange (by simp) (by simp [hmisses])
    rwa [Endian.length_encode] at h
  case cpu =>
    have h := window_overwriteAll_self [_, _] 2 (e.encode 2 args.cpu)
      (_ :: args.locWrites e) hrange (by simp) (by simp [hmisses])
    rwa [Endian.length_encode] at h
  case msg =>
    have h := window_overwriteAll_of_subset [_, _, _] (4, snprintf 128 (ofText args.msg))
      (args.locWrites e) (a := 4) (n := 128) hrange
      (by omega) (by simp) (Nat.add_le_add_left hmsg 4) (by simp)
      (hmisses 4 128 (by decide))
    exact (congrArg untilNul h).trans (untilNul_overwrite_snprintf hvalid.msg 128 _)
  case file =>
    intro loc hmem_loc
    have hloc : args.loc = some loc := hmem_loc
    have hfile := length_snprintf_le (ofText loc.1)
    rw [size_of_some hloc] at hmem
    rw [locWrites, hloc] at hrange ⊢
    have h := window_overwriteAll_of_subset (args.baseWrites e)
      (132, snprintf 128 (ofText loc.1)) [_] (a := 132) (n := 128) hrange
      (by omega) (by simp) (Nat.add_le_add_left hfile 132)
      (by simp [baseWrites]; omega) (by simp)
    rw [Nat.sub_self] at h
    exact (congrArg untilNul h).trans
      (untilNul_overwrite_snprintf (hvalid.file loc hmem_loc) 128 _)
  case line =>
    intro loc hmem_loc
    have hloc : args.loc = some loc := hmem_loc
    have hfile := length_snprintf_le (ofText loc.1)
    rw [locWrites, hloc] at hrange ⊢
    have h := window_overwriteAll_self (args.baseWrites e ++ [_]) 260
      (e.encode 4 loc.2.toNat) [] hrange (by simp [baseWrites]; omega) (by simp)
    rwa [Endian.length_encode] at h

/-- The text that a string field of a record reads as, if it is one. -/
def cut? (s : String) : Option String :=
  text? ((ofText s).take 127)

theorem cut?_of_le {s : String} (h : s.utf8ByteSize ≤ 127) : cut? s = some s := by
  rw [cut?, List.take_of_length_le (by rw [length_ofText]; exact h), text?_ofText]

/-- The event reads as the macro meant it, up to the cut of its strings, and the
decoder was built to read the record. -/
structure ReadsAs (sourceLoc : Bool) (args : Arguments) (event : Event) : Prop where
  compatible : sourceLoc = true → args.loc.isSome = true
  kind : event.kind = args.kind
  cpu : event.cpu = args.cpu
  content : cut? args.msg = some event.content
  noLoc : args.loc = none → event.file = none ∧ event.line = none
  loc : ∀ loc ∈ args.loc, event.line = some loc.2 ∧
    ∃ f, cut? loc.1 = some f ∧ event.file = if f.isEmpty then none else some f

theorem Holds.locOf_eq_ok_iff {e : Endian} {args : Arguments} {buf : List UInt8}
    (h : Holds e args buf) (file : Option String) (line : Option UInt32) :
    locOf e buf = .ok (file, line) ↔
      (args.loc = none → file = none ∧ line = none) ∧
        ∀ loc ∈ args.loc, line = some loc.2 ∧
          ∃ f, cut? loc.1 = some f ∧ file = if f.isEmpty then none else some f := by
  rw [locOf, h.length, eventWithFileSize_eq]
  cases hloc : args.loc with
  | none =>
      rw [size_of_none hloc, if_neg (by decide), Except.ok.injEq, Prod.mk.injEq]
      constructor
      · rintro ⟨hf, hl⟩
        exact ⟨fun _ => ⟨hf.symm, hl.symm⟩, by simp⟩
      · rintro ⟨hnone, _⟩
        exact ⟨(hnone rfl).1.symm, (hnone rfl).2.symm⟩
  | some loc =>
      have hline : UInt32.ofNat (e.decode (window buf 260 4)) = loc.2 := by
        rw [h.line loc hloc, Endian.decode_encode_of_lt e (by simpa using loc.2.toNat_lt),
          UInt32.ofNat_toNat]
      have htext := textField_eq_ok_iff (window buf 132 128) "file"
      rw [h.file loc hloc] at htext
      rw [size_of_some hloc, if_pos (Nat.le_refl 264), hline]
      cases hfile : textField (window buf 132 128) "file" with
      | error err =>
          have hcut : ∀ f, cut? loc.1 ≠ some f := by
            intro f hf
            rw [(htext f).mpr hf] at hfile
            cases hfile
          simp [Except.map, hcut]
      | ok f =>
          have hcut : cut? loc.1 = some f := (htext f).mp hfile
          rw [Except.map, Except.ok.injEq, Prod.mk.injEq]
          constructor
          · rintro ⟨hf, hl⟩
            refine ⟨by simp, ?_⟩
            rintro loc' ⟨⟩
            exact ⟨hl.symm, f, hcut, hf.symm⟩
          · rintro ⟨_, hsome⟩
            obtain ⟨hl, f', hcut', hf⟩ := hsome loc rfl
            obtain rfl := Option.some.inj (hcut.symm.trans hcut')
            exact ⟨hf.symm, hl.symm⟩

/-- The decoder reads exactly what the record holds. -/
theorem Holds.decodes_iff {sourceLoc : Bool} {e : Endian} {args : Arguments}
    {buf : List UInt8} (h : Holds e args buf) (hcpu : args.cpu < 2 ^ 16)
    (event : Event) :
    Decodes sourceLoc e buf event ↔ ReadsAs sourceLoc args event := by
  have hkind : parseKind (buf.getD 1 0) (buf.getD 0 0) = .ok args.kind := by
    rw [getD_of_window (h.kind.trans (e.encode_one _)),
      getD_of_window (h.level.trans (e.encode_one _)), parseKind_emitted]
  have hcpuRead : e.decode (window buf 2 2) = args.cpu := by
    rw [h.cpu, Endian.decode_encode_of_lt e (by simpa using hcpu)]
  have hlong : (if sourceLoc then eventWithFileSize else eventBaseSize) ≤ buf.length ↔
      (sourceLoc = true → args.loc.isSome = true) := by
    rw [h.length, eventBaseSize_eq, eventWithFileSize_eq]
    cases hloc : args.loc with
    | none => cases sourceLoc <;> simp [size_of_none hloc]
    | some loc => cases sourceLoc <;> simp [size_of_some hloc]
  have hloc := h.locOf_eq_ok_iff event.file event.line
  constructor
  · intro hd
    obtain ⟨hnone, hsome⟩ := hloc.mp hd.loc
    refine ⟨hlong.mp hd.long, ?_, hd.cpu.trans hcpuRead, ?_, hnone, hsome⟩
    · exact Except.ok.inj (hd.kind.symm.trans hkind)
    · rw [cut?, ← h.msg]
      exact (textField_eq_ok_iff _ _ _).mp hd.content
  · intro hr
    refine ⟨hlong.mpr hr.compatible, ?_, hloc.mpr ⟨hr.noLoc, hr.loc⟩, ?_,
      hr.cpu.trans hcpuRead.symm⟩
    · rw [textField_eq_ok_iff, h.msg]
      exact hr.content
    · rw [hkind, hr.kind]

end Arguments

end Tracing

end Xbpf
