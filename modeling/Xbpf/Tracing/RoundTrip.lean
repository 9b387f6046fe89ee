import Xbpf.Tracing.WireFormat

/-!
# Decoding undoes emitting

Arguments are `Short` if their strings fit in a record. A record of short
arguments decodes to the event that the macro means, and every event that the
decoder can produce from a record with terminated strings is the event of some
short arguments, so that the two halves of the wire format describe the same
events.
-/

namespace Xbpf

namespace Tracing

open Bytes

namespace Arguments

/-- The strings fit in a record along with their terminators. -/
structure Short (args : Arguments) : Prop where
  msg : args.msg.utf8ByteSize ≤ 127
  file : ∀ loc ∈ args.loc, loc.1.utf8ByteSize ≤ 127

theorem readsAs_event {sourceLoc : Bool} {args : Arguments} (h : args.Short)
    (hloc : sourceLoc = true → args.loc.isSome = true) :
    ReadsAs sourceLoc args args.event := by
  refine ⟨hloc, rfl, rfl, cut?_of_le h.msg, ?_, ?_⟩
  · intro hnone
    simp [event, hnone]
  · intro loc hsome
    have hsome' : args.loc = some loc := hsome
    exact ⟨by simp [event, hsome'], loc.1, cut?_of_le (h.file loc hsome),
      by simp [event, hsome']⟩

def ofEvent (event : Event) : Arguments where
  kind := event.kind
  cpu := event.cpu
  msg := event.content
  loc := event.line.map fun line => (event.file.getD "", line)

end Arguments

structure Terminated (buf : List UInt8) : Prop where
  msg : 0 ∈ window buf 4 128
  file : 264 ≤ buf.length → 0 ∈ window buf 132 128

section Converse

variable {sourceLoc : Bool} {e : Endian} {buf : List UInt8} {event : Event}

theorem Decodes.ofText_content (h : Decodes sourceLoc e buf event) :
    ofText event.content = untilNul (window buf 4 128) := by
  have htext := (textField_eq_ok_iff _ _ _).mp h.content
  exact ((text?_eq_some_iff _ _).mp htext).symm

/-- Either the record is long and carries a file name and a line, or it is short
and carries neither. -/
theorem Decodes.loc_cases (h : Decodes sourceLoc e buf event) :
    (264 ≤ buf.length ∧ (∃ line, event.line = some line) ∧
        ofText (event.file.getD "") = untilNul (window buf 132 128) ∧
        event.file ≠ some "") ∨
      (buf.length < 264 ∧ event.line = none ∧ event.file = none) := by
  have hloc := h.loc
  rw [locOf, eventWithFileSize_eq] at hloc
  split at hloc
  · rename_i hlong
    left
    cases hfile : textField (window buf 132 128) "file" with
    | error err => simp [hfile, Except.map] at hloc
    | ok f =>
        have htext := (textField_eq_ok_iff _ _ _).mp hfile
        have hbytes := (text?_eq_some_iff _ _).mp htext
        rw [hfile, Except.map, Except.ok.injEq, Prod.mk.injEq] at hloc
        refine ⟨hlong, ⟨_, hloc.2.symm⟩, ?_, ?_⟩
        · rw [hbytes, ← hloc.1]
          by_cases hf : f = "" <;> simp [hf]
        · rw [← hloc.1]
          by_cases hf : f = "" <;> simp [hf]
  · rename_i hshort
    rw [Except.ok.injEq, Prod.mk.injEq] at hloc
    exact Or.inr ⟨Nat.lt_of_not_le hshort, hloc.2.symm, hloc.1.symm⟩

/-- An event decoded from a record is the event of the arguments read off it. -/
theorem Decodes.event_ofEvent (h : Decodes sourceLoc e buf event) :
    (Arguments.ofEvent event).event = event := by
  rcases event with ⟨kind, content, cpu, file, line⟩
  rcases h.loc_cases with ⟨_, ⟨l, hl⟩, _, hne⟩ | ⟨_, hl, hf⟩
  · simp only at hl hne
    subst hl
    cases file with
    | none => simp [Arguments.ofEvent, Arguments.event]
    | some f =>
        have hf : f ≠ "" := fun hf => hne (congrArg some hf)
        simp [Arguments.ofEvent, Arguments.event, hf]
  · simp only at hl hf
    subst hl hf
    rfl

theorem Decodes.valid_ofEvent (h : Decodes sourceLoc e buf event) :
    (Arguments.ofEvent event).Valid := by
  refine ⟨?_, ?_, ?_⟩
  · have hlt := Endian.decode_lt e (window buf 2 2)
    have hlen : (window buf 2 2).length ≤ 2 := by
      rw [length_window]
      exact Nat.min_le_left _ _
    have hpow : 256 ^ (window buf 2 2).length ≤ 256 ^ 2 :=
      Nat.pow_le_pow_right (by decide) hlen
    rw [← h.cpu] at hlt
    exact Nat.lt_of_lt_of_le hlt hpow
  · show 0 ∉ ofText event.content
    rw [h.ofText_content]
    exact zero_notMem_untilNul _
  · rintro ⟨f, l⟩ hloc
    obtain ⟨l', hl', heq⟩ := Option.map_eq_some_iff.mp hloc
    obtain ⟨rfl, rfl⟩ := Prod.mk.inj heq
    rcases h.loc_cases with ⟨_, _, hbytes, _⟩ | ⟨_, hnone, _⟩
    · rw [hbytes]
      exact zero_notMem_untilNul _
    · rw [hnone] at hl'
      cases hl'

theorem Decodes.short_ofEvent (h : Decodes sourceLoc e buf event)
    (hterm : Terminated buf) : (Arguments.ofEvent event).Short := by
  have hwindow : ∀ a, (window buf a 128).length ≤ 128 := by
    intro a
    rw [length_window]
    exact Nat.min_le_left _ _
  constructor
  · show event.content.utf8ByteSize ≤ 127
    have hlt := length_untilNul_lt hterm.msg
    rw [← h.ofText_content, length_ofText] at hlt
    exact Nat.le_of_lt_succ (Nat.lt_of_lt_of_le hlt (hwindow 4))
  · rintro ⟨f, l⟩ hloc
    obtain ⟨l', hl', heq⟩ := Option.map_eq_some_iff.mp hloc
    obtain ⟨rfl, rfl⟩ := Prod.mk.inj heq
    rcases h.loc_cases with ⟨hlong, _, hbytes, _⟩ | ⟨_, hnone, _⟩
    · have hlt := length_untilNul_lt (hterm.file hlong)
      rw [← hbytes, length_ofText] at hlt
      exact Nat.le_of_lt_succ (Nat.lt_of_lt_of_le hlt (hwindow 132))
    · rw [hnone] at hl'
      cases hl'

theorem Decodes.isSome_loc_ofEvent (h : Decodes sourceLoc e buf event)
    (hsource : sourceLoc = true) : (Arguments.ofEvent event).loc.isSome = true := by
  subst hsource
  rcases h.loc_cases with ⟨_, ⟨l, hl⟩, _⟩ | ⟨hshort, _⟩
  · simp [Arguments.ofEvent, hl]
  · exact absurd h.long (Nat.not_le.mpr hshort)

end Converse

/-- Decoding undoes emitting, and every event decoded from a record with
terminated strings is the event of an emission. -/
theorem tryFrom_record (e : Endian) (sourceLoc : Bool) :
    (∀ (args : Arguments) (mem : List UInt8), args.Valid → args.Short →
      mem.length = args.size → (sourceLoc = true → args.loc.isSome = true) →
        ∃ buf, args.record e mem = some buf ∧
          (Event.tryFrom sourceLoc e buf).run = some (.ok args.event)) ∧
      ∀ (buf : List UInt8) (event : Event), Terminated buf →
        (Event.tryFrom sourceLoc e buf).run = some (.ok event) →
          ∃ args : Arguments, args.Valid ∧ args.Short ∧ args.event = event ∧
            (sourceLoc = true → args.loc.isSome = true) ∧
            ∀ mem, mem.length = args.size →
              ∃ buf', args.record e mem = some buf' ∧
                (Event.tryFrom sourceLoc e buf').run = some (.ok event) := by
  have hforward : ∀ (args : Arguments) (mem : List UInt8), args.Valid → args.Short →
      mem.length = args.size → (sourceLoc = true → args.loc.isSome = true) →
        ∃ buf, args.record e mem = some buf ∧
          (Event.tryFrom sourceLoc e buf).run = some (.ok args.event) := by
    intro args mem hvalid hshort hmem hloc
    refine ⟨_, args.record_eq e mem, ?_⟩
    rw [run_tryFrom, Option.some_inj, decode_eq_ok_iff,
      (Arguments.holds_record hvalid hmem).decodes_iff hvalid.cpu]
    exact Arguments.readsAs_event hshort hloc
  refine ⟨hforward, ?_⟩
  intro buf event hterm hrun
  rw [run_tryFrom, Option.some_inj, decode_eq_ok_iff] at hrun
  refine ⟨Arguments.ofEvent event, hrun.valid_ofEvent, hrun.short_ofEvent hterm,
    hrun.event_ofEvent, hrun.isSome_loc_ofEvent, ?_⟩
  intro mem hmem
  have h := hforward _ mem hrun.valid_ofEvent (hrun.short_ofEvent hterm) hmem
    hrun.isSome_loc_ofEvent
  rwa [hrun.event_ofEvent] at h

end Tracing

end Xbpf
