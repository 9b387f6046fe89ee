import Xbpf.Tracing.TryInit

/-!
# How long events are read

The thread that emits the events goes on as long as it receives records, and it owns the
`RingBuf`, which it drops when it is finished. The reader thread stops when the ring buffer
cannot be opened or when the `RingBuf` is dropped. So neither can stop before the other
one, unless the ring buffer could not be opened in the first place.
-/

namespace Xbpf

namespace Collections

namespace RingBuf

open Channels

variable {κ ε V : Type*} [BoundedChannel κ Record] {tryFrom : Record → Except ε V}
  {s s' : RingBuf κ ε V} {a : Action}

/-- The records seen so far are those delivered and those that are committed, and only the
eBPF program adds to them. -/
theorem seen_of_next (h : s.next tryFrom a = some s') (ha : ∀ r, a ≠ .commit r) :
    s'.delivered ++ s'.committed = s.delivered ++ s.committed := by
  cases a with
  | commit r => exact absurd rfl (ha r)
  | deliver =>
      rw [next] at h
      split at h
      · rename_i hcommitted
        cases h
        rw [hcommitted]
        simp
      · cases h
  | trySend =>
      obtain ⟨_, _, ⟨_, _, rfl⟩ | ⟨_, rfl⟩ | ⟨_, rfl⟩⟩ := next_trySend h <;> rfl
  | receive how =>
      obtain ⟨_, ⟨_, _, _, rfl⟩ | rfl⟩ := next_receive h <;> rfl
  | _ =>
      simp only [next, Option.ite_none_right_eq_some, Option.some_inj] at h
      obtain ⟨_, rfl⟩ := h
      rfl

theorem empty_of_new {mapType : MapType} {c : ℕ} {committed : List Record}
    (h : new mapType c committed = .ok s) : s.delivered = [] ∧ s.committed = committed := by
  rw [new] at h
  split at h
  · cases h
  · split at h
    · cases h
    · cases h
      exact ⟨rfl, rfl⟩

/-- The reader thread of a `RingBuf` that is not being dropped has not been stopped, and
nothing was delivered if it is not polling or has exited. -/
structure Unstopped (s : RingBuf κ ε V) : Prop where
  stop : s.stop = false
  delivered : s.reader = .opening ∨ s.reader = .exited → s.delivered = []

theorem Unstopped.of_new {mapType : MapType} {c : ℕ} {committed : List Record}
    (h : new mapType c committed = .ok s) : s.owner = .alive ∧ s.Unstopped := by
  rw [new] at h
  split at h
  · cases h
  · split at h
    · cases h
    · cases h
      exact ⟨rfl, rfl, fun _ => rfl⟩

theorem Unstopped.next (h : s.Unstopped) (halive : s.owner = .alive)
    (hreader : s.reader ≠ .storingStop) (hnext : s.next tryFrom a = some s') :
    s'.owner = .alive ∧ s'.Unstopped ∨ a = .dropStop := by
  cases a with
  | dropStop => exact .inr rfl
  | commit r =>
      cases hnext
      exact .inl ⟨halive, h.stop, h.delivered⟩
  | deliver =>
      rw [RingBuf.next] at hnext
      split at hnext
      · cases hnext
        exact .inl ⟨halive, h.stop, by simp⟩
      · cases hnext
  | trySend =>
      left
      obtain ⟨_, _, ⟨_, _, rfl⟩ | ⟨_, rfl⟩ | ⟨_, rfl⟩⟩ := next_trySend hnext <;>
        exact ⟨halive, h.stop, by simp⟩
  | receive how =>
      left
      obtain ⟨_, ⟨_, _, _, rfl⟩ | rfl⟩ := next_receive hnext
      · exact ⟨halive, h.stop, h.delivered⟩
      · exact ⟨halive, h⟩
  | storeStop =>
      simp only [RingBuf.next, Option.ite_none_right_eq_some] at hnext
      exact absurd hnext.1 hreader
  | openRing ok =>
      simp only [RingBuf.next, Option.ite_none_right_eq_some, Option.some_inj] at hnext
      obtain ⟨hopening, rfl⟩ := hnext
      exact .inl ⟨halive, h.stop, fun _ => h.delivered (.inl hopening)⟩
  | checkStop =>
      simp only [RingBuf.next, Option.ite_none_right_eq_some, Option.some_inj] at hnext
      obtain ⟨_, rfl⟩ := hnext
      exact .inl ⟨halive, h.stop, by simp [h.stop]⟩
  | returnFromPoll | fetchAdd =>
      simp only [RingBuf.next, Option.ite_none_right_eq_some, Option.some_inj] at hnext
      obtain ⟨_, rfl⟩ := hnext
      exact .inl ⟨halive, h.stop, by simp⟩
  | dropClose =>
      simp only [RingBuf.next, Option.ite_none_right_eq_some] at hnext
      cases halive.symm.trans hnext.1
  | dropJoin =>
      simp only [RingBuf.next, Option.ite_none_right_eq_some] at hnext
      cases halive.symm.trans hnext.1.1

/-- A reader thread that has exited delivers nothing any more. -/
theorem exited_of_next (h : s.next tryFrom a = some s') (hexited : s.reader = .exited) :
    s'.reader = .exited ∧ s'.delivered = s.delivered := by
  cases a with
  | commit r =>
      cases h
      exact ⟨hexited, rfl⟩
  | deliver => simp [next, hexited] at h
  | trySend =>
      obtain ⟨_, hsending, _⟩ := next_trySend h
      cases hexited.symm.trans hsending
  | receive how =>
      obtain ⟨_, ⟨_, _, _, rfl⟩ | rfl⟩ := next_receive h <;> exact ⟨hexited, rfl⟩
  | dropStop | dropClose | dropJoin =>
      simp only [next, Option.ite_none_right_eq_some, Option.some_inj] at h
      obtain ⟨_, rfl⟩ := h
      exact ⟨hexited, rfl⟩
  | openRing _ | checkStop | returnFromPoll | fetchAdd | storeStop =>
      simp [next, hexited] at h

end RingBuf

end Collections

namespace Tracing

open Bytes Channels Collections

namespace Reading

variable {κ : Type*} [BoundedChannel κ Record] {crateRoot : List Char} {sourceLoc : Bool}
  {e : Endian} {s s' : Reading κ}

/-- The `RingBuf` is alive until the thread is finished, which it is only if the ring
buffer could not be opened. -/
structure Lives (s : Reading κ) : Prop where
  reading : s.finished = false → s.ringBuf.owner = .alive ∧ s.ringBuf.Unstopped
  finished : s.finished = true → s.ringBuf.reader = .exited ∧ s.ringBuf.delivered = []

theorem of_blockingRecv_eq_none {tryFrom : Record → Except EventDecodeError Event} {rx rx' : κ}
    {gone : Bool} (hopen : BoundedChannel.isClosed rx = false)
    (h : RingBuf.blockingRecv tryFrom rx gone = some (none, rx')) : gone = true := by
  rw [RingBuf.blockingRecv, RingBuf.recv] at h
  split at h
  · cases h
  · rw [hopen, Bool.or_false] at h
    split at h
    · assumption
    · cases h

theorem Lives.step {c : ℕ} (h : s.Lives) (hinv : s.ringBuf.Inv (decode sourceLoc e) c)
    (hstep : s.Step crateRoot sourceLoc e s') : s'.Lives := by
  obtain ⟨turn, hturn⟩ := hstep
  cases turn with
  | others a =>
      simp only [next, Option.ite_none_right_eq_some] at hturn
      obtain ⟨hallowed, hnext⟩ := hturn
      obtain ⟨ringBuf, hringBuf, rfl⟩ := Option.map_eq_some_iff.mp hnext
      constructor
      · intro hfinished
        obtain ⟨halive, hunstopped⟩ := h.reading hfinished
        rcases hunstopped.next halive (hinv.isOpen halive).2 hringBuf with hkept | rfl
        · exact hkept
        · exact absurd (hfinished.symm.trans hallowed) (by simp)
      · intro hfinished
        obtain ⟨hexited, hdelivered⟩ := h.finished hfinished
        obtain ⟨hexited', hsame⟩ := RingBuf.exited_of_next hringBuf hexited
        exact ⟨hexited', hsame.trans hdelivered⟩
  | blockingRecv =>
      simp only [next, Option.ite_none_right_eq_some] at hturn
      obtain ⟨⟨_, hreading⟩, hturn⟩ := hturn
      obtain ⟨res, hres, hturn⟩ := Option.bind_eq_some_iff.mp hturn
      obtain ⟨ringBuf, hringBuf, hturn⟩ := Option.bind_eq_some_iff.mp hturn
      cases hturn
      obtain ⟨halive, hunstopped⟩ := h.reading hreading
      have hkept : ringBuf.owner = .alive ∧ ringBuf.Unstopped :=
        (hunstopped.next halive (hinv.isOpen halive).2 hringBuf).resolve_right (by simp)
      constructor
      · exact fun _ => hkept
      · intro hfinished
        obtain ⟨value, rx⟩ := res
        obtain rfl : value = none := Option.isNone_iff_eq_none.mp hfinished
        have hexited := of_decide_eq_true
          (of_blockingRecv_eq_none (hinv.isOpen halive).1 hres)
        obtain ⟨hexited', _⟩ := RingBuf.exited_of_next hringBuf hexited
        exact ⟨hexited', hkept.2.delivered (.inr hexited')⟩
  | handle current id =>
      have hsame : s'.ringBuf = s.ringBuf ∧ s'.finished = s.finished := by
        cases hhandling : s.handling with
        | none => simp [next, hhandling] at hturn
        | some res =>
            cases res with
            | ok event =>
                simp only [next, hhandling] at hturn
                obtain ⟨r, _, rfl⟩ := Option.map_eq_some_iff.mp hturn
                exact ⟨rfl, rfl⟩
            | error err =>
                simp only [next, hhandling, Option.some_inj] at hturn
                subst hturn
                exact ⟨rfl, rfl⟩
      constructor
      · rw [hsame.1, hsame.2]
        exact h.reading
      · rw [hsame.1, hsame.2]
        exact h.finished

theorem Lives.of_run {maps : List (String × Except Error MapType)} {committed : List Record}
    {rb : RingBuf κ EventDecodeError Event} {tl : Locals}
    (hinit : tryInit maps committed = .ok rb)
    (hrun : Relation.ReflTransGen (Step crateRoot sourceLoc e) (spawn rb tl) s) : s.Lives := by
  obtain ⟨mapType, hnew⟩ := exists_new_of_tryInit hinit
  induction hrun with
  | refl => exact ⟨fun _ => RingBuf.Unstopped.of_new hnew, nofun⟩
  | tail hrun hstep ih =>
      have hinv := Inv.of_run (RingBuf.results_of_new hnew) hrun
      exact ih.step (RingBuf.Inv.of_run hnew hinv.run) hstep

end Reading

variable {κ : Type*} [BoundedChannel κ Record] {crateRoot : List Char} {sourceLoc : Bool}
  {e : Endian} {s : Reading κ}

/-- Once a record was delivered events are read forever: neither of the threads ever stops,
whatever the records are, and the one that emits the events can always go on if there is
something to do. -/
theorem reads_forever {maps : List (String × Except Error MapType)} {committed : List Record}
    {rb : RingBuf κ EventDecodeError Event} {tl : Locals}
    (hinit : tryInit maps committed = .ok rb)
    (hrun : Relation.ReflTransGen (Reading.Step crateRoot sourceLoc e) (.spawn rb tl) s) :
    (s.ringBuf.delivered ≠ [] → s.finished = false ∧ s.ringBuf.owner = .alive ∧
        s.ringBuf.reader ≠ .exited) ∧
      (s.finished = true → s.log = []) ∧
      (s.finished = false →
        (s.handling ≠ none → ∀ current id,
          ∃ s', s.next crateRoot sourceLoc e (.handle current id) = some s') ∧
        (s.handling = none → s.ringBuf.len ≠ 0 →
          ∃ s', s.next crateRoot sourceLoc e .blockingRecv = some s')) := by
  obtain ⟨mapType, hnew⟩ := Reading.exists_new_of_tryInit hinit
  have hlives := Reading.Lives.of_run hinit hrun
  have hreading := Reading.Inv.of_run (RingBuf.results_of_new hnew) hrun
  have hinv := RingBuf.Inv.of_run hnew hreading.run
  refine ⟨fun hdelivered => ?_, fun hfinished => ?_, fun hfinished => ⟨?_, ?_⟩⟩
  · have hfinished : s.finished = false := by
      by_contra hfinished
      exact hdelivered (hlives.finished (by simpa using hfinished)).2
    obtain ⟨halive, hunstopped⟩ := hlives.reading hfinished
    exact ⟨hfinished, halive, fun hexited => hdelivered (hunstopped.delivered (.inr hexited))⟩
  · have horder := hinv.order
    rw [(hlives.finished hfinished).2, List.sublist_nil] at horder
    have hresults : s.ringBuf.results = [] := by
      rw [hinv.results]
      simp [(List.append_eq_nil_iff.mp (List.append_eq_nil_iff.mp horder).1).1]
    have hlog := hreading.log
    rw [hresults, List.map_nil] at hlog
    exact (List.append_eq_nil_iff.mp hlog).1
  · exact fun hhandling => Reading.exists_next_handle hhandling
  · intro hidle hlen
    obtain ⟨halive, _⟩ := hlives.reading hfinished
    have hne : BoundedChannel.buffered s.ringBuf.rx ≠ [] := by
      intro hnil
      rw [RingBuf.len, BoundedChannel.len_eq, hnil] at hlen
      exact hlen rfl
    obtain ⟨r, rs, hbuffered⟩ := List.exists_cons_of_ne_nil hne
    obtain ⟨rx, hrecv, _⟩ := BoundedChannel.tryRecv_cons s.ringBuf.rx r rs hbuffered
    simp [Reading.next, hidle, hfinished, RingBuf.blockingRecv, RingBuf.recv, RingBuf.next,
      RingBuf.receive, hrecv, halive]

/-- The ring buffer of an object, before its reader thread opens it. -/
def openingWith (committed : List Record) : RingBuf (Queue Record) EventDecodeError Event :=
  ⟨⟨[], userspaceCapacity, false⟩, 0, false, .opening, .alive, committed, [], [], [], []⟩

theorem tryInit_openingWith (committed : List Record) :
    tryInit [("bpf_tracing_events", .ok .ringBuf)] committed = .ok (openingWith committed) :=
  rfl

/-- A record that does not decode stops neither of the threads. -/
theorem reads_forever_short :
    ∃ s : Reading (Queue Record), s.log = [report (decode false .little shortRecord)] ∧
      s.finished = false ∧ s.ringBuf.owner = .alive ∧ s.ringBuf.reader ≠ .exited := by
  have hrun : Relation.ReflTransGen (Reading.Step [] false .little)
      (.spawn (openingWith [shortRecord]) (.init 1)) _ :=
    (((((Relation.ReflTransGen.single ⟨.others (.openRing true), rfl⟩).tail
      ⟨.others .checkStop, rfl⟩).tail ⟨.others .deliver, rfl⟩).tail
      ⟨.others .trySend, rfl⟩).tail ⟨.blockingRecv, rfl⟩).tail ⟨.handle (.upTo .trace) 1, rfl⟩
  exact ⟨_, rfl, (reads_forever (tryInit_openingWith [shortRecord]) hrun).1 (by decide)⟩

end Tracing

end Xbpf
