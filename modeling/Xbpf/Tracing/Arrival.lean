import Xbpf.Tracing.Truncation

/-!
# What arrives of a macro call

The record of a macro call holds the first 127 bytes of its strings, and user space only
warns about a record in which these end inside a character. So what arrives of the
arguments of a call is their `cut`, or nothing.
-/

namespace Xbpf

namespace Tracing

open Bytes

/-- The source location of a macro, if it is compiled in. -/
abbrev Loc := Option (String × UInt32)

namespace Arguments

def cutLoc : Loc → Option Loc
  | none => some none
  | some loc => (cut? loc.1).map fun file => some (file, loc.2)

/-- The arguments that a record holds, if it decodes. -/
def cut (args : Arguments) : Option Arguments :=
  (cut? args.msg).bind fun msg => (cutLoc args.loc).map fun loc => { args with msg, loc }

/-- The call fits in a record that the decoder was built to read, and is given memory of
its size. -/
structure Matches (sourceLoc : Bool) (args : Arguments) (mem : List UInt8) : Prop where
  valid : args.Valid
  loc : sourceLoc = true → args.loc.isSome = true
  mem : mem.length = args.size

def received (sourceLoc : Bool) (e : Endian) (args : Arguments) (mem : List UInt8) :
    Option Event := do
  let buf ← args.record e mem
  (← (Event.tryFrom sourceLoc e buf).run).toOption

theorem readsAs_iff_cut (sourceLoc : Bool) (args : Arguments) (event : Event) :
    ReadsAs sourceLoc args event ↔ (sourceLoc = true → args.loc.isSome = true) ∧
      ∃ args', args.cut = some args' ∧ args'.event = event := by
  rcases args with ⟨kind, cpu, msg, _ | loc⟩
  · constructor
    · rintro ⟨hcompatible, rfl, rfl, hcontent, hnone, _⟩
      refine ⟨hcompatible, ⟨event.kind, event.cpu, event.content, none⟩, ?_, ?_⟩
      · simp only [cut, cutLoc]
        rw [hcontent]
        rfl
      · rcases event with ⟨_, _, _, file, line⟩
        obtain ⟨rfl, rfl⟩ := hnone rfl
        rfl
    · rintro ⟨hcompatible, args', hcut, rfl⟩
      obtain ⟨msg', hmsg, hcut⟩ := Option.bind_eq_some_iff.mp hcut
      cases hcut
      exact ⟨hcompatible, rfl, rfl, hmsg, fun _ => ⟨rfl, rfl⟩, by simp⟩
  · constructor
    · rintro ⟨hcompatible, rfl, rfl, hcontent, _, hsome⟩
      obtain ⟨hline, file, hfile, hevent⟩ := hsome loc rfl
      refine ⟨hcompatible, ⟨event.kind, event.cpu, event.content, some (file, loc.2)⟩, ?_, ?_⟩
      · simp only [cut, cutLoc]
        rw [hcontent, hfile]
        rfl
      · rcases event with ⟨_, _, _, file', line⟩
        cases hline
        cases hevent
        rfl
    · rintro ⟨hcompatible, args', hcut, rfl⟩
      obtain ⟨msg', hmsg, hcut⟩ := Option.bind_eq_some_iff.mp hcut
      obtain ⟨loc', hloc, rfl⟩ := Option.map_eq_some_iff.mp hcut
      obtain ⟨file, hfile, rfl⟩ := Option.map_eq_some_iff.mp hloc
      refine ⟨hcompatible, rfl, rfl, hmsg, by simp, ?_⟩
      rintro _ ⟨⟩
      exact ⟨rfl, file, hfile, rfl⟩

/-- What the record of a call decodes to. -/
theorem toOption_decode_record {sourceLoc : Bool} {e : Endian} {args : Arguments}
    {mem buf : List UInt8} (h : args.Matches sourceLoc mem)
    (hrecord : args.record e mem = some buf) :
    (decode sourceLoc e buf).toOption = args.cut.map event := by
  rw [record_eq, Option.some_inj] at hrecord
  ext event
  have hdecodes : decode sourceLoc e buf = .ok event ↔
      ∃ args', args.cut = some args' ∧ args'.event = event := by
    rw [← hrecord, decode_eq_ok_iff, (holds_record h.valid h.mem).decodes_iff h.valid.cpu,
      readsAs_iff_cut]
    exact and_iff_right h.loc
  rw [Option.map_eq_some_iff, ← hdecodes]
  cases decode sourceLoc e buf <;> simp [Except.toOption]

theorem received_eq {sourceLoc : Bool} {e : Endian} {args : Arguments} {mem : List UInt8}
    (h : args.Matches sourceLoc mem) : args.received sourceLoc e mem = args.cut.map event := by
  rw [received, record_eq, Option.bind_eq_bind, Option.bind_some, run_tryFrom,
    Option.bind_eq_bind, Option.bind_some]
  exact toOption_decode_record h (args.record_eq e mem)

/-- Only the strings are cut. -/
theorem of_cut_eq_some {args args' : Arguments} (h : args.cut = some args') :
    args'.kind = args.kind ∧ args'.cpu = args.cpu ∧ cut? args.msg = some args'.msg := by
  obtain ⟨msg, hmsg, h⟩ := Option.bind_eq_some_iff.mp h
  obtain ⟨loc, _, rfl⟩ := Option.map_eq_some_iff.mp h
  exact ⟨rfl, rfl, hmsg⟩

end Arguments

def arriving (msg : String) (loc : Loc) : Option String :=
  (Arguments.cut? msg).bind fun text => (Arguments.cutLoc loc).map fun _ => text

theorem Arguments.map_msg_cut (args : Arguments) :
    args.cut.map Arguments.msg = arriving args.msg args.loc := by
  rw [Arguments.cut, arriving]
  cases Arguments.cut? args.msg with
  | none => rfl
  | some msg => cases Arguments.cutLoc args.loc <;> rfl

theorem cut?_of_arriving {msg text : String} {loc : Loc} (h : arriving msg loc = some text) :
    Arguments.cut? msg = some text := by
  obtain ⟨text', htext, h⟩ := Option.bind_eq_some_iff.mp h
  obtain ⟨_, _, rfl⟩ := Option.map_eq_some_iff.mp h
  exact htext

theorem arriving_eq {msg text : String} {loc loc' : Loc} (h : arriving msg loc = some text)
    (h' : arriving msg loc' ≠ none) : arriving msg loc' = some text := by
  obtain ⟨text', htext'⟩ := Option.ne_none_iff_exists'.mp h'
  rw [htext', ← cut?_of_arriving htext', ← cut?_of_arriving h]

end Tracing

end Xbpf
