import Xbpf.Channels.Reservations
import Xbpf.Tracing.Lifetime
import Xbpf.Tracing.WireFormat

/-!
# From the macros to the subscriber

Any number of macro calls are under way at once, on different CPUs or nested in each
other. Each reserves memory in the ring buffer, which is given away in the order in which
it is asked for, unless there is none left. It writes the members of its event there one
after the other and submits it. What the reader thread gets to see are the events up to the
first one that is not submitted yet.

A `Pipeline` is the ring buffer with everything behind it: the reader thread, the channel
and the thread that emits the events. Its steps are those of all of them in any order. Next
to what the code has, it remembers the calls that were given memory, and what was emitted.
-/

namespace Xbpf

namespace Header

open Bytes

/-- The writes of `BPF_TRACING_EMIT_EVENT`, each with the address it goes to. -/
def bpfTracingStores (e : Endian) (strLen : ℕ) (loc : Option SourceLoc) (smpProcessorId : ℕ)
    (emission : Emission (List UInt8)) : List (ℕ × List UInt8) :=
  let layout := bpfTracingEvent strLen loc.isSome
  [(offsetOf layout .level, e.encode 1 emission.lvl),
    (offsetOf layout .kind, e.encode 1 emission.ty.value),
    (offsetOf layout .cpu, e.encode 2 smpProcessorId),
    (offsetOf layout .msg, snprintf strLen emission.args)] ++
  match loc with
  | none => []
  | some loc => [(offsetOf layout .file, snprintf strLen loc.file),
      (offsetOf layout .line, e.encode 4 loc.line)]

/-- Making the writes one after the other submits the event. -/
theorem bpfTracingEmitEvent_eq (e : Endian) (strLen : ℕ) (loc : Option SourceLoc)
    (reserved : List UInt8) (smpProcessorId : ℕ) (emission : Emission (List UInt8)) :
    bpfTracingEmitEvent e strLen loc (some reserved) smpProcessorId emission =
      some (overwriteAll reserved (bpfTracingStores e strLen loc smpProcessorId emission)) := by
  cases loc <;> rfl

end Header

namespace Tracing

open Bytes Channels Collections Runs
open Header (Emission SourceLoc bpfTracingEmitEvent bpfTracingStores)

/-- A call of a macro that is compiled in, with what the memory holds that it is given. -/
structure Call where
  emission : Emission (List UInt8)
  cpu : ℕ
  loc : Option SourceLoc
  mem : List UInt8

namespace Call

def stores (e : Endian) (call : Call) : List (ℕ × List UInt8) :=
  bpfTracingStores e Header.bpfTracingStrLen call.loc call.cpu call.emission

def record (e : Endian) (call : Call) : Record :=
  overwriteAll call.mem (call.stores e)

theorem bpfTracingEmitEvent_eq_record (e : Endian) (call : Call) :
    bpfTracingEmitEvent e Header.bpfTracingStrLen call.loc (some call.mem) call.cpu
      call.emission = some (call.record e) :=
  Header.bpfTracingEmitEvent_eq ..

end Call

def Arguments.call (args : Arguments) (mem : List UInt8) : Call :=
  ⟨args.emission, args.cpu, args.sourceLoc, mem⟩

theorem Arguments.record_eq_call (e : Endian) (args : Arguments) (mem : List UInt8) :
    args.record e mem = some ((args.call mem).record e) :=
  (args.call mem).bpfTracingEmitEvent_eq_record e

abbrev Slot :=
  Place fun (mem : List UInt8) (w : ℕ × List UInt8) => overwrite mem w.1 w.2

def Call.slot (e : Endian) (call : Call) : Slot :=
  .reserve _ call.mem (call.stores e)

@[simp] theorem Call.meant_slot (e : Endian) (call : Call) :
    (call.slot e).meant = call.record e :=
  rfl

/-- The ring buffer of the events and everything behind it. -/
structure Pipeline (κ : Type*) where
  slots : List Slot
  reading : Reading κ
  reserved : List Call
  emitted : List (Event × SpanId)
  told : List (List (Dispatch ℕ))

/-- A step of a macro call, of the reader thread or of the thread that emits the events. -/
inductive PipelineAction
  | reserve (call : Call)
  | refuse
  | write (k : ℕ)
  | submit (k : ℕ)
  | reader (a : Action)
  | blockingRecv
  | handle (id : SpanId)

namespace Pipeline

variable {κ : Type*} [BoundedChannel κ Record]

def start (ringBuf : RingBuf κ EventDecodeError Event) (tl : Locals) : Pipeline κ :=
  ⟨[], .spawn ringBuf tl, [], [], []⟩

def commit (s : Reading κ) (records : List Record) : Reading κ :=
  { s with ringBuf.committed := s.ringBuf.committed ++ records }

section Steps

variable (crateRoot : List Char) (current : LevelFilter) (sourceLoc : Bool) (e : Endian)

/-- The state after a step, absent if the step is not possible. -/
def next (s : Pipeline κ) : PipelineAction → Option (Pipeline κ)
  | .reserve call =>
      some { s with slots := s.slots ++ [call.slot e], reserved := s.reserved ++ [call] }
  | .refuse => some s
  | .write k =>
      (s.slots[k]?.bind Place.write).map fun slot => { s with slots := s.slots.set k slot }
  | .submit k =>
      (s.slots[k]?.bind Place.submit).map fun slot =>
        let slots := s.slots.set k slot
        { s with slots := waiting slots, reading := commit s.reading (released slots) }
  | .reader (.commit _) => none
  | .reader a =>
      (s.reading.next crateRoot sourceLoc e (.others a)).map fun reading => { s with reading }
  | .blockingRecv =>
      (s.reading.next crateRoot sourceLoc e .blockingRecv).map fun reading => { s with reading }
  | .handle id =>
      (s.reading.next crateRoot sourceLoc e (.handle current id)).bind fun reading =>
        match s.reading.handling with
        | some (.ok event) =>
            (emit crateRoot current s.reading.tl event id).map fun r =>
              { s with reading, emitted := s.emitted ++ [(event, id)], told := s.told ++ [r.2] }
        | _ => some { s with reading }

def Step (s s' : Pipeline κ) : Prop :=
  ∃ a, s.next crateRoot current sourceLoc e a = some s'

end Steps

variable {crateRoot : List Char} {current : LevelFilter} {sourceLoc : Bool} {e : Endian}
  {s s' : Pipeline κ}

/-- Making records visible is what the reader thread takes for the eBPF program. -/
theorem commit_run (s : Reading κ) (records : List Record) :
    Relation.ReflTransGen (Reading.Step crateRoot sourceLoc e) s (commit s records) := by
  induction records generalizing s with
  | nil => rw [commit, List.append_nil]
  | cons r records ih =>
      have hfirst : s.Step crateRoot sourceLoc e (commit s [r]) := ⟨.others (.commit r), rfl⟩
      have hrest := ih (commit s [r])
      have hcommit : commit (commit s [r]) records = commit s (r :: records) := by
        simp [commit]
      exact .head hfirst (hcommit ▸ hrest)

/-- The reader thread changes nothing in front of it, and makes no record visible. -/
theorem next_reader {a : Action}
    (h : s.next crateRoot current sourceLoc e (.reader a) = some s') :
    (∀ r, a ≠ .commit r) ∧ ∃ reading,
      s.reading.next crateRoot sourceLoc e (.others a) = some reading ∧
        s' = { s with reading } := by
  by_cases ha : ∃ r, a = .commit r
  · obtain ⟨r, rfl⟩ := ha
    cases h
  · rw [next] at h
    · obtain ⟨reading, hreading, rfl⟩ := Option.map_eq_some_iff.mp h
      exact ⟨fun r hr => ha ⟨r, hr⟩, reading, hreading, rfl⟩
    · exact fun r hr => ha ⟨r, hr⟩

/-- What the thread that emits the events does is not changed by anything in front of the
reader thread: a step of the pipeline is some steps of what is behind the ring buffer. -/
theorem reading_of_step (hstep : s.Step crateRoot current sourceLoc e s') :
    Relation.ReflTransGen (Reading.Step crateRoot sourceLoc e) s.reading s'.reading := by
  obtain ⟨a, ha⟩ := hstep
  cases a with
  | reserve call =>
      cases ha
      exact .refl
  | refuse =>
      cases ha
      exact .refl
  | write k =>
      obtain ⟨slot, _, rfl⟩ := Option.map_eq_some_iff.mp ha
      exact .refl
  | submit k =>
      obtain ⟨slot, _, rfl⟩ := Option.map_eq_some_iff.mp ha
      exact commit_run ..
  | reader a =>
      obtain ⟨_, reading, hreading, rfl⟩ := next_reader ha
      exact .single ⟨_, hreading⟩
  | blockingRecv =>
      obtain ⟨reading, hreading, rfl⟩ := Option.map_eq_some_iff.mp ha
      exact .single ⟨_, hreading⟩
  | handle id =>
      obtain ⟨reading, hreading, ha⟩ := Option.bind_eq_some_iff.mp ha
      split at ha
      · obtain ⟨r, _, rfl⟩ := Option.map_eq_some_iff.mp ha
        exact .single ⟨_, hreading⟩
      · cases ha
        exact .single ⟨_, hreading⟩

/-- The events that were decoded and not emitted yet. -/
def pending (s : Reading κ) : List Event :=
  (s.handling.bind Except.toOption).toList

/-- Every record that became visible is that of a call, in the order in which they were
given memory. The events that were emitted are the decoded ones, and they were emitted from
the thread locals at the start. -/
structure Inv (crateRoot : List Char) (current : LevelFilter) (e : Endian) (tl : Locals)
    (s : Pipeline κ) : Prop where
  order : s.reading.ringBuf.delivered ++ s.reading.ringBuf.committed ++
    s.slots.map Place.meant = s.reserved.map (Call.record e)
  emits : emitAll crateRoot current tl s.emitted = some (s.reading.tl, s.told)
  decoded : s.emitted.map Prod.fst ++ pending s.reading =
    s.reading.ringBuf.results.filterMap Except.toOption

omit [BoundedChannel κ Record] in
theorem Inv.of_same {tl : Locals} (h : s.Inv crateRoot current e tl) {reading : Reading κ}
    (hseen : reading.ringBuf.delivered ++ reading.ringBuf.committed =
      s.reading.ringBuf.delivered ++ s.reading.ringBuf.committed)
    (htl : reading.tl = s.reading.tl) (hpending : pending reading = pending s.reading)
    (hresults : reading.ringBuf.results = s.reading.ringBuf.results) :
    Inv crateRoot current e tl { s with reading } where
  order := by rw [← h.order, ← hseen]
  emits := by rw [htl]; exact h.emits
  decoded := by rw [hpending, hresults]; exact h.decoded

theorem Inv.blockingRecv {tl : Locals} (h : s.Inv crateRoot current e tl) {reading : Reading κ}
    (hnext : s.reading.next crateRoot sourceLoc e .blockingRecv = some reading) :
    Inv crateRoot current e tl { s with reading } := by
  simp only [Reading.next, Option.ite_none_right_eq_some] at hnext
  obtain ⟨⟨hidle, _⟩, hnext⟩ := hnext
  obtain ⟨res, hres, hnext⟩ := Option.bind_eq_some_iff.mp hnext
  obtain ⟨ringBuf, hringBuf, hnext⟩ := Option.bind_eq_some_iff.mp hnext
  cases hnext
  have hseen := RingBuf.seen_of_next hringBuf (by simp)
  have hdecoded := h.decoded
  simp only [RingBuf.next, RingBuf.receive, hres, Option.map_some,
    Option.ite_none_right_eq_some, Option.some_inj] at hringBuf
  obtain ⟨_, rfl⟩ := hringBuf
  refine ⟨by rw [← h.order, ← hseen], h.emits, ?_⟩
  rw [pending, hidle, Option.bind_none, Option.toList_none, List.append_nil] at hdecoded
  rw [hdecoded, List.filterMap_append]
  rcases res.1 with _ | _ | _ <;> rfl

theorem Inv.handle {tl : Locals} {id : SpanId} (h : s.Inv crateRoot current e tl)
    (hnext : s.next crateRoot current sourceLoc e (.handle id) = some s') :
    s'.Inv crateRoot current e tl := by
  obtain ⟨reading, hreading, hnext⟩ := Option.bind_eq_some_iff.mp hnext
  have hdecoded := h.decoded
  cases hhandling : s.reading.handling with
  | none => simp [Reading.next, hhandling] at hreading
  | some res =>
      rw [hhandling] at hnext
      rw [pending, hhandling] at hdecoded
      cases res with
      | ok event =>
          simp only [Reading.next, hhandling] at hreading
          obtain ⟨r, hemit, rfl⟩ := Option.map_eq_some_iff.mp hreading
          simp only [hemit, Option.map_some, Option.some_inj] at hnext
          subst hnext
          refine ⟨h.order, runAll_concat h.emits hemit, ?_⟩
          rw [List.map_append, pending]
          simpa [Except.toOption] using hdecoded
      | error err =>
          simp only [Reading.next, hhandling, Option.some_inj] at hreading
          subst hreading
          cases hnext
          exact ⟨h.order, h.emits, hdecoded⟩

theorem Inv.step {tl : Locals} (h : s.Inv crateRoot current e tl)
    (hstep : s.Step crateRoot current sourceLoc e s') : s'.Inv crateRoot current e tl := by
  obtain ⟨a, ha⟩ := hstep
  cases a with
  | reserve call =>
      cases ha
      refine ⟨?_, h.emits, h.decoded⟩
      rw [List.map_append, List.map_append, ← List.append_assoc, h.order]
      rfl
  | refuse =>
      cases ha
      exact h
  | write k =>
      obtain ⟨slot, hslot, rfl⟩ := Option.map_eq_some_iff.mp ha
      obtain ⟨slot', hk, hwrite⟩ := Option.bind_eq_some_iff.mp hslot
      refine ⟨?_, h.emits, h.decoded⟩
      rw [map_meant_set hk (Place.meant_of_write hwrite).1]
      exact h.order
  | submit k =>
      obtain ⟨slot, hslot, rfl⟩ := Option.map_eq_some_iff.mp ha
      obtain ⟨slot', hk, hsubmit⟩ := Option.bind_eq_some_iff.mp hslot
      refine ⟨?_, h.emits, h.decoded⟩
      have horder := h.order
      rw [← map_meant_set hk (Place.meant_of_submit hsubmit), ← released_append_waiting]
        at horder
      rw [← horder]
      simp only [commit, List.append_assoc]
  | reader a =>
      obtain ⟨hcommit, reading, hreading, rfl⟩ := next_reader ha
      simp only [Reading.next, Option.ite_none_right_eq_some] at hreading
      obtain ⟨hallowed, hreading⟩ := hreading
      obtain ⟨ringBuf, hringBuf, rfl⟩ := Option.map_eq_some_iff.mp hreading
      have hreceive : ∀ how, a ≠ .receive how := by
        rintro how rfl
        exact hallowed
      exact h.of_same (RingBuf.seen_of_next hringBuf hcommit) rfl rfl
        (RingBuf.results_of_next hringBuf hreceive)
  | blockingRecv =>
      obtain ⟨reading, hreading, rfl⟩ := Option.map_eq_some_iff.mp ha
      exact h.blockingRecv hreading
  | handle id => exact h.handle ha

theorem Inv.of_new {mapType : MapType} {c : ℕ} {rb : RingBuf κ EventDecodeError Event}
    {tl : Locals} (hnew : RingBuf.new mapType c [] = .ok rb)
    (hrun : Relation.ReflTransGen (Step crateRoot current sourceLoc e) (start rb tl) s) :
    s.Inv crateRoot current e tl := by
  obtain ⟨hdelivered, hcommitted⟩ := RingBuf.empty_of_new hnew
  refine Runs.invariant (fun _ _ h hstep => h.step hstep) ⟨?_, rfl, ?_⟩ hrun
  · show rb.delivered ++ rb.committed ++ [] = []
    rw [hdelivered, hcommitted]
    rfl
  · show [] = rb.results.filterMap Except.toOption
    rw [RingBuf.results_of_new hnew]
    rfl

/-- A run of the pipeline is one of what is behind the ring buffer. -/
theorem reading_of_run {s₀ : Pipeline κ}
    (hrun : Relation.ReflTransGen (Step crateRoot current sourceLoc e) s₀ s) :
    Relation.ReflTransGen (Reading.Step crateRoot sourceLoc e) s₀.reading s.reading :=
  hrun.lift' reading fun _ _ hstep => reading_of_step hstep

end Pipeline

section Conservation

variable {κ : Type*} [BoundedChannel κ Record] {crateRoot : List Char} {current : LevelFilter}
  {sourceLoc : Bool} {e : Endian} {s : Pipeline κ}

/-- The records that were handed out are the whole records of some of the calls that were
given memory, and every other one is still on its way or was discarded. -/
theorem Pipeline.exists_handedOut {mapType : MapType} {c : ℕ}
    {rb : RingBuf κ EventDecodeError Event} {tl : Locals}
    (hnew : RingBuf.new mapType c [] = .ok rb)
    (hrun : Relation.ReflTransGen (Pipeline.Step crateRoot current sourceLoc e)
      (.start rb tl) s) :
    ∃ kept : List Call, kept.Sublist s.reserved ∧
      s.reading.ringBuf.handedOut = kept.map (Call.record e) ∧
      (s.reading.ringBuf.owner = .alive → s.reserved.length =
        kept.length + s.reading.ringBuf.len + s.reading.ringBuf.inFlight.length +
          s.reading.ringBuf.discarded.length +
          s.reading.ringBuf.committed.length + s.slots.length) := by
  have hreading := Reading.Inv.of_run (RingBuf.results_of_new hnew)
    (Pipeline.reading_of_run hrun)
  have hring := RingBuf.Inv.of_run hnew hreading.run
  have horder := (Pipeline.Inv.of_new hnew hrun).order
  have hseen : s.reading.ringBuf.handedOut.Sublist (s.reserved.map (Call.record e)) := by
    rw [← horder, List.append_assoc]
    refine List.Sublist.trans ?_ (hring.order.trans (List.sublist_append_left _ _))
    rw [List.append_assoc]
    exact List.sublist_append_left _ _
  obtain ⟨kept, hkept, hhanded⟩ := List.sublist_map_iff.mp hseen
  refine ⟨kept, hkept, hhanded, fun halive => ?_⟩
  have hlength := congrArg List.length horder
  have hcount := hring.count halive
  simp only [List.length_append, List.length_map, hhanded] at hlength hcount
  rw [RingBuf.len, BoundedChannel.len_eq]
  omega

/-- Whatever the order of the steps is, every record that is handled is the whole record of
one call, no two are of the same call, and they are in the order in which the calls were
given memory. The records that decode are emitted one after the other, and every call is
accounted for, by the counter of `dropped` until that wraps around. -/
theorem pipeline_conserves {maps : List (String × Except Error MapType)}
    {rb : RingBuf κ EventDecodeError Event} {tl : Locals} (hinit : tryInit maps [] = .ok rb)
    (hrun : Relation.ReflTransGen (Pipeline.Step crateRoot current sourceLoc e)
      (.start rb tl) s) :
    ∃ kept : List Call, kept.Sublist s.reserved ∧
      s.reading.log ++ (s.reading.handling.map report).toList =
        kept.map (fun call => report (decode sourceLoc e (call.record e))) ∧
      s.emitted.map Prod.fst ++ Pipeline.pending s.reading =
        kept.filterMap (fun call => (decode sourceLoc e (call.record e)).toOption) ∧
      emitAll crateRoot current tl s.emitted = some (s.reading.tl, s.told) ∧
      (s.reading.ringBuf.owner = .alive → s.reserved.length =
        kept.length + s.reading.ringBuf.len + s.reading.ringBuf.inFlight.length +
          s.reading.ringBuf.discarded.length +
          s.reading.ringBuf.committed.length + s.slots.length) ∧
      (¬ s.reading.ringBuf.InCallback →
        s.reading.ringBuf.dropped = UInt64.ofNat s.reading.ringBuf.discarded.length) := by
  obtain ⟨mapType, hnew⟩ := Reading.exists_new_of_tryInit hinit
  have hreading := Reading.Inv.of_run (RingBuf.results_of_new hnew)
    (Pipeline.reading_of_run hrun)
  have hring := RingBuf.Inv.of_run hnew hreading.run
  have hinv := Pipeline.Inv.of_new hnew hrun
  obtain ⟨kept, hkept, hhanded, hcount⟩ := Pipeline.exists_handedOut hnew hrun
  refine ⟨kept, hkept, ?_, ?_, hinv.emits, hcount, hring.dropped_eq⟩
  · rw [hreading.log, hring.results, hhanded, List.map_map, List.map_map]
    rfl
  · rw [hinv.decoded, hring.results, hhanded, List.map_map, List.filterMap_map]
    rfl

def emptyMessage (cpu : ℕ) : Call :=
  (⟨.message .info, cpu, "", none⟩ : Arguments).call (List.replicate 132 0)

/-- Of two messages the second one is submitted first, and still becomes visible after
the first one. -/
theorem pipeline_conserves_swapped :
    ∃ s : Pipeline (Queue Record), s.reserved = [emptyMessage 0, emptyMessage 1] ∧
      s.reading.ringBuf.owner = .alive ∧
      ∃ kept : List Call, kept.Sublist s.reserved ∧
        s.reading.log ++ (s.reading.handling.map report).toList =
          kept.map (fun call => report (decode false .little (call.record .little))) ∧
        s.reserved.length = kept.length + 1 := by
  have hrun : Relation.ReflTransGen (Pipeline.Step [] (.upTo .trace) false .little)
      (.start (openingWith []) (.init 1)) _ :=
    (((((((((((((((((Relation.ReflTransGen.single ⟨.reserve (emptyMessage 0), rfl⟩).tail
      ⟨.reserve (emptyMessage 1), rfl⟩).tail
      ⟨.write 1, rfl⟩).tail ⟨.write 1, rfl⟩).tail ⟨.write 1, rfl⟩).tail ⟨.write 1, rfl⟩).tail
      ⟨.submit 1, rfl⟩).tail
      ⟨.write 0, rfl⟩).tail ⟨.write 0, rfl⟩).tail ⟨.write 0, rfl⟩).tail ⟨.write 0, rfl⟩).tail
      ⟨.submit 0, rfl⟩).tail
      ⟨.reader (.openRing true), rfl⟩).tail ⟨.reader .checkStop, rfl⟩).tail
      ⟨.reader .deliver, rfl⟩).tail ⟨.reader .trySend, rfl⟩).tail ⟨.blockingRecv, rfl⟩)
  obtain ⟨kept, hkept, hlog, _, _, hcount, _⟩ := pipeline_conserves (tryInit_openingWith []) hrun
  exact ⟨_, rfl, rfl, kept, hkept, hlog, hcount rfl⟩

end Conservation

end Tracing

end Xbpf
