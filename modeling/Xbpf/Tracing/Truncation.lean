import Xbpf.Tracing.WireFormat

/-!
# Records with truncated strings

A string of more than 127 bytes is cut on a byte, which may lie inside a
character. `KeepsEvent` says that the record of a macro is decoded to what the
macro meant, up to a good cut of its strings, and `CutsWhole` that the cut of a
string does not split a character. An event is kept exactly if no string of it
is split; otherwise the decoder refuses the whole record.
-/

namespace Xbpf

namespace Tracing

open Bytes

namespace Arguments

/-- The first 127 bytes of the string are whole characters. -/
def CutsWhole (s : String) : Prop :=
  s.utf8ByteSize ≤ 127 ∨ IsCharBoundary s 127

/-- The record decodes, and the event has the kind, the level, the CPU and the
line of the macro, and of each string every character that fits. -/
def KeepsEvent (sourceLoc : Bool) (e : Endian) (args : Arguments)
    (mem : List UInt8) : Prop :=
  ∃ buf event, args.record e mem = some buf ∧
    (Event.tryFrom sourceLoc e buf).run = some (.ok event) ∧
    event.kind = args.kind ∧ event.cpu = args.cpu ∧
    event.line = args.loc.map Prod.snd ∧
    IsCut 127 event.content args.msg ∧
    ∀ loc ∈ args.loc, IsCut 127 (event.file.getD "") loc.1

theorem isSome_cut?_iff (s : String) : (∃ t, cut? s = some t) ↔ CutsWhole s := by
  rw [CutsWhole]
  by_cases hlen : s.utf8ByteSize ≤ 127
  · exact ⟨fun _ => Or.inl hlen, fun _ => ⟨s, cut?_of_le hlen⟩⟩
  · rw [← text?_take_isSome_iff s (by omega), ← Option.isSome_iff_exists, cut?]
    simp [hlen]

theorem isCut_of_cut?_eq_some {s t : String} (h : cut? s = some t) :
    IsCut 127 t s :=
  isCut_of_ofText_eq_take ((text?_eq_some_iff _ _).mp h).symm

/-- An event survives truncation exactly if neither of its strings is cut inside
a character, given that the decoder was built to read the record. -/
theorem keepsEvent_iff_cutsWhole (sourceLoc : Bool) (e : Endian)
    (args : Arguments) (mem : List UInt8) (hvalid : args.Valid)
    (hmem : mem.length = args.size) :
    KeepsEvent sourceLoc e args mem ↔
      (sourceLoc = true → args.loc.isSome = true) ∧ CutsWhole args.msg ∧
        ∀ loc ∈ args.loc, CutsWhole loc.1 := by
  have hdecodes : ∀ event, (Event.tryFrom sourceLoc e
      (overwriteAll mem (args.baseWrites e ++ args.locWrites e))).run =
        some (.ok event) ↔ ReadsAs sourceLoc args event := by
    intro event
    rw [run_tryFrom, Option.some_inj, decode_eq_ok_iff,
      (holds_record hvalid hmem).decodes_iff hvalid.cpu]
  constructor
  · rintro ⟨buf, event, hrecord, hrun, _⟩
    rw [record_eq, Option.some_inj] at hrecord
    subst hrecord
    have hreads := (hdecodes event).mp hrun
    refine ⟨hreads.compatible, (isSome_cut?_iff _).mp ⟨_, hreads.content⟩, ?_⟩
    intro loc hloc
    obtain ⟨_, f, hf, _⟩ := hreads.loc loc hloc
    exact (isSome_cut?_iff _).mp ⟨f, hf⟩
  · rintro ⟨hloc, hmsg, hfile⟩
    obtain ⟨content, hcontent⟩ := (isSome_cut?_iff _).mpr hmsg
    refine ⟨_, ⟨args.kind, content, args.cpu, args.loc.bind fun loc => (cut? loc.1).filter
      fun f => !f.isEmpty, args.loc.map Prod.snd⟩, record_eq e args mem,
      (hdecodes _).mpr ?_, rfl, rfl, rfl, isCut_of_cut?_eq_some hcontent, ?_⟩
    · refine ⟨hloc, rfl, rfl, hcontent, ?_, ?_⟩
      · intro hnone
        simp [hnone]
      · intro loc hsome
        have hsome' : args.loc = some loc := hsome
        obtain ⟨f, hf⟩ := (isSome_cut?_iff _).mpr (hfile loc hsome)
        refine ⟨by simp [hsome'], f, hf, ?_⟩
        by_cases hempty : f = "" <;> simp [hsome', hf, hempty]
    · intro loc hsome
      have hsome' : args.loc = some loc := hsome
      obtain ⟨f, hf⟩ := (isSome_cut?_iff _).mpr (hfile loc hsome)
      have hget : ((args.loc.bind fun loc => (cut? loc.1).filter
          fun f => !f.isEmpty).getD "") = f := by
        by_cases hempty : f = "" <;> simp [hsome', hf, hempty, Option.filter]
      rw [hget]
      exact isCut_of_cut?_eq_some hf

def repeated (n : ℕ) (c : Char) : Arguments where
  kind := .message .info
  cpu := 0
  msg := String.ofList (List.replicate n c)
  loc := none

theorem valid_repeated (n : ℕ) {c : Char} (h : 0 ∉ String.utf8EncodeChar c) :
    (repeated n c).Valid :=
  ⟨Nat.two_pow_pos 16, fun hmem => h (mem_ofText_replicate hmem), by simp [repeated]⟩

/-- A message of 130 one-byte characters is cut after a character. -/
theorem keepsEvent_ascii :
    KeepsEvent false .little (repeated 130 'a') (List.replicate 132 0xff) := by
  refine (keepsEvent_iff_cutsWhole false .little (repeated 130 'a')
    (List.replicate 132 0xff) (valid_repeated 130 (by decide)) (by simp; rfl)).mpr ?_
  refine ⟨by simp, Or.inr ?_, by simp [repeated]⟩
  exact (isCharBoundary_replicate_iff 130 127 'a').mpr ⟨127, by decide, rfl⟩

/-- A message of 64 two-byte characters is cut inside the last one, and is
lost. -/
theorem not_keepsEvent_twoByte :
    (repeated 64 'é').Valid ∧ (repeated 64 'é').msg.utf8ByteSize = 128 ∧
      ¬ KeepsEvent false .little (repeated 64 'é') (List.replicate 132 0) := by
  have hsize : (repeated 64 'é').msg.utf8ByteSize = 128 :=
    utf8ByteSize_ofList_replicate 64 'é'
  refine ⟨valid_repeated 64 (by decide), hsize, ?_⟩
  rintro ⟨buf, event, hrecord, hrun, _⟩
  rw [record_eq, Option.some_inj] at hrecord
  subst hrecord
  rw [run_tryFrom, Option.some_inj, decode_eq_ok_iff,
    (holds_record (valid_repeated 64 (by decide)) (by simp; rfl)).decodes_iff
      (Nat.two_pow_pos 16)] at hrun
  rcases (isSome_cut?_iff _).mp ⟨_, hrun.content⟩ with hle | hbound
  · omega
  · obtain ⟨i, _, hi⟩ := (isCharBoundary_replicate_iff 64 127 'é').mp hbound
    have htwo : ('é').utf8Size = 2 := rfl
    rw [htwo] at hi
    omega

end Arguments

end Tracing

end Xbpf
