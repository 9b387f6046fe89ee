import Xbpf.Collections.RingBuf
import Xbpf.Tracing.Decode
import Xbpf.Tracing.PerCpu

/-!
# Reading the events of an object

`tryInit` finds the ring buffer of the events and starts a thread that receives
them one after the other. An event is emitted, and a record that does not decode
is reported. `Reading` is the state of that thread along with the ring buffer it
reads, and its steps interleave with those of the eBPF program and of the reader
thread.
-/

namespace Xbpf

namespace Tracing

open Bytes Channels Collections

def userspaceCapacity : ℕ := 16 * 1024

/-- The type of the map that the events are read from. The maps of an object are
given by their names and the outcomes of opening them. -/
def findEvents (maps : List (String × Except Error MapType)) :
    Except Error (Option MapType) :=
  maps.foldlM
    (fun events map =>
      if map.1 = "bpf_tracing_events" then map.2.map some else .ok events) none

def tryInit {κ : Type*} [BoundedChannel κ Record]
    (maps : List (String × Except Error MapType)) (committed : List Record) :
    Except Error (RingBuf κ EventDecodeError Event) :=
  match findEvents maps with
  | .error err => .error err
  | .ok none => .error ⟨.notFound, "event ring buffer not found"⟩
  | .ok (some mapType) => RingBuf.new mapType userspaceCapacity committed

inductive Report
  | emitted (event : Event)
  | warned (msg : String)
  deriving DecidableEq, Repr

def report : Except EventDecodeError Event → Report
  | .ok event => .emitted event
  | .error err => .warned ("Failed to decode event: " ++ err.fmt)

/-- The thread that emits the events, and the ring buffer it reads. -/
structure Reading (κ : Type*) where
  ringBuf : RingBuf κ EventDecodeError Event
  tl : Locals
  handling : Option (Except EventDecodeError Event)
  finished : Bool
  log : List Report

inductive Turn
  | others (a : Action)
  | blockingRecv
  | handle (current : LevelFilter) (id : SpanId)

/-- The ring buffer belongs to the thread, which receives from it itself and only
drops it when it is finished. -/
def Turn.Allowed (finished : Bool) : Action → Prop
  | .receive _ => False
  | .dropStop => finished = true
  | .dropClose => finished = true
  | .dropJoin => finished = true
  | _ => True

instance (finished : Bool) (a : Action) : Decidable (Turn.Allowed finished a) := by
  cases a <;> unfold Turn.Allowed <;> infer_instance

namespace Reading

variable {κ : Type*} [BoundedChannel κ Record]

def spawn (ringBuf : RingBuf κ EventDecodeError Event) (tl : Locals) : Reading κ :=
  ⟨ringBuf, tl, none, false, []⟩

section Steps

variable (crateRoot : List Char) (sourceLoc : Bool) (e : Endian)

/-- The state after a step, absent if the step is not possible. -/
def next (s : Reading κ) : Turn → Option (Reading κ)
  | .others a =>
      if Turn.Allowed s.finished a then
        (s.ringBuf.next (decode sourceLoc e) a).map fun ringBuf => { s with ringBuf }
      else none
  | .blockingRecv =>
      if s.handling = none ∧ s.finished = false then do
        let res ← RingBuf.blockingRecv (decode sourceLoc e) s.ringBuf.rx
          (decide (s.ringBuf.reader = .exited))
        let ringBuf ← s.ringBuf.next (decode sourceLoc e) (.receive .blockingRecv)
        some { s with ringBuf, handling := res.1, finished := res.1.isNone }
      else none
  | .handle current id =>
      match s.handling with
      | some (.ok event) =>
          (emit crateRoot current s.tl event id).map fun r =>
            { s with tl := r.1, handling := none, log := s.log ++ [report (.ok event)] }
      | some (.error err) =>
          some { s with handling := none, log := s.log ++ [report (.error err)] }
      | none => none

def Step (s s' : Reading κ) : Prop :=
  ∃ turn, s.next crateRoot sourceLoc e turn = some s'

end Steps

variable {crateRoot : List Char} {sourceLoc : Bool} {e : Endian}

structure Inv (sourceLoc : Bool) (e : Endian) (s₀ : RingBuf κ EventDecodeError Event)
    (s : Reading κ) : Prop where
  run : Relation.ReflTransGen (RingBuf.Step (decode sourceLoc e)) s₀ s.ringBuf
  log : s.log ++ (s.handling.map report).toList = s.ringBuf.results.map report

namespace Inv

variable {s₀ : RingBuf κ EventDecodeError Event} {s s' : Reading κ}

theorem step (h : s.Inv sourceLoc e s₀) (hstep : s.Step crateRoot sourceLoc e s') :
    s'.Inv sourceLoc e s₀ := by
  obtain ⟨turn, hturn⟩ := hstep
  cases turn with
  | others a =>
      simp only [next, Option.ite_none_right_eq_some] at hturn
      obtain ⟨hallowed, hnext⟩ := hturn
      obtain ⟨ringBuf, hringBuf, rfl⟩ := Option.map_eq_some_iff.mp hnext
      refine ⟨h.run.tail ⟨a, hringBuf⟩, ?_⟩
      rw [RingBuf.results_of_next hringBuf]
      · exact h.log
      · rintro how rfl
        exact hallowed
  | blockingRecv =>
      simp only [next, Option.ite_none_right_eq_some] at hturn
      obtain ⟨⟨hidle, _⟩, hturn⟩ := hturn
      obtain ⟨res, hres, hturn⟩ := Option.bind_eq_some_iff.mp hturn
      obtain ⟨ringBuf, hringBuf, hturn⟩ := Option.bind_eq_some_iff.mp hturn
      cases hturn
      refine ⟨h.run.tail ⟨_, hringBuf⟩, ?_⟩
      have hlog := h.log
      simp only [RingBuf.next, RingBuf.receive, hres, Option.map_some,
        Option.ite_none_right_eq_some, Option.some_inj] at hringBuf
      obtain ⟨_, rfl⟩ := hringBuf
      rw [hidle, Option.map_none, Option.toList_none, List.append_nil] at hlog
      rw [hlog, List.map_append]
      cases res.1 <;> rfl
  | handle current id =>
      cases hhandling : s.handling with
      | none => simp [next, hhandling] at hturn
      | some res =>
          have hlog := h.log
          rw [hhandling] at hlog
          cases res with
          | ok event =>
              simp only [next, hhandling] at hturn
              obtain ⟨r, _, rfl⟩ := Option.map_eq_some_iff.mp hturn
              exact ⟨h.run, by simpa using hlog⟩
          | error err =>
              simp only [next, hhandling, Option.some_inj] at hturn
              subst hturn
              exact ⟨h.run, by simpa using hlog⟩

theorem of_run {tl : Locals} (hempty : s₀.results = [])
    (hrun : Relation.ReflTransGen (Step crateRoot sourceLoc e) (spawn s₀ tl) s) :
    s.Inv sourceLoc e s₀ := by
  refine Runs.invariant (fun _ _ h hstep => h.step hstep) ⟨.refl, ?_⟩ hrun
  show [] = s₀.results.map report
  rw [hempty]
  rfl

end Inv

theorem exists_new_of_tryInit {maps : List (String × Except Error MapType)}
    {committed : List Record} {rb : RingBuf κ EventDecodeError Event}
    (h : tryInit maps committed = .ok rb) :
    ∃ mapType, RingBuf.new mapType userspaceCapacity committed = .ok rb := by
  rw [tryInit] at h
  split at h
  · cases h
  · cases h
  · rename_i mapType _
    exact ⟨mapType, h⟩

/-- The handling of a result never panics. -/
theorem exists_next_handle {s : Reading κ} (h : s.handling ≠ none)
    (current : LevelFilter) (id : SpanId) :
    ∃ s', s.next crateRoot sourceLoc e (.handle current id) = some s' := by
  cases hhandling : s.handling with
  | none => exact absurd hhandling h
  | some res =>
      cases res with
      | ok event =>
          obtain ⟨tl', ds, hemit, _⟩ := emit_spec crateRoot current s.tl event id
          simp [next, hhandling, hemit]
      | error err => simp [next, hhandling]

end Reading

section Conservation

variable {κ ε V : Type*} [BoundedChannel κ Record] (tryFrom : Record → Except ε V)
  (crateRoot : List Char) (sourceLoc : Bool) (e : Endian)

end Conservation

def shortRecord : Record := [0, 0]

def messageRecord : Record := 3 :: List.replicate 131 0

theorem decode_messageRecord :
    decode false .little messageRecord = .ok ⟨.message .info, "", 0, none, none⟩ := by
  decide +kernel

theorem map_report_records :
    [shortRecord, messageRecord].map (fun r => report (decode false .little r)) =
      [report (decode false .little shortRecord),
        .emitted ⟨.message .info, "", 0, none, none⟩] := by
  rw [List.map_cons, List.map_singleton, decode_messageRecord, report]

end Tracing

end Xbpf
