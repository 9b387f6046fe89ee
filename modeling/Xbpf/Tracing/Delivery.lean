import Mathlib.Data.List.Forall2
import Xbpf.Tracing.Nesting
import Xbpf.Tracing.Submission

/-!
# From well-nested programs to well-nested spans

If the programs of all CPUs run at once and no record is lost, the subscriber is told of
what arrives of the trace of each CPU as if it had been the only one.
-/

namespace Xbpf

namespace Tracing

open Bytes Channels Collections Runs

def Trace.compiledCalls (bpfTracingLevel cpu : ℕ) (t : Trace) : List Arguments :=
  ((t.calls cpu).map Prod.fst).filter fun args => args.kind.CompiledIn bpfTracingLevel

def startIds (xs : List (Event × SpanId)) : List SpanId :=
  xs.filterMap fun x =>
    match x.1.kind with
    | .startSpan _ => some x.2
    | _ => none

/-- Only the ids of the spans that are started matter. -/
theorem run_nest_congr (current : LevelFilter) {xs ys : List (Event × SpanId)}
    (hevents : xs.map Prod.fst = ys.map Prod.fst) (hids : startIds xs = startIds ys)
    (stack : Stack) : run (nest current) stack xs = run (nest current) stack ys := by
  induction xs generalizing ys stack with
  | nil =>
      rw [List.map_nil, eq_comm, List.map_eq_nil_iff] at hevents
      rw [hevents]
  | cons x xs ih =>
      cases ys with
      | nil => cases hevents
      | cons y ys =>
          obtain ⟨event, id⟩ := x
          obtain ⟨event', id'⟩ := y
          obtain ⟨hevent, hrest⟩ := List.cons_eq_cons.mp hevents
          obtain rfl : event = event' := hevent
          have hnest : nest current stack (event, id) = nest current stack (event, id') ∧
              startIds xs = startIds ys := by
            cases hkind : event.kind with
            | startSpan lvl =>
                simp only [startIds, List.filterMap_cons, hkind, List.cons.injEq] at hids
                exact ⟨by rw [hids.1], hids.2⟩
            | _ =>
                simp only [startIds, List.filterMap_cons, hkind] at hids
                exact ⟨by simp only [nest, hkind], hids⟩
          rw [run_cons, run_cons, hnest.1, ih hrest hnest.2]

theorem toOption_decode_call {sourceLoc : Bool} {e : Endian} {args : Arguments}
    {mem : List UInt8} (h : args.Matches sourceLoc mem) :
    (decode sourceLoc e ((args.call mem).record e)).toOption = args.cut.map Arguments.event :=
  Arguments.toOption_decode_record h (args.record_eq_call e mem)

/-- What arrives of a trace is what the calls that are compiled in decode to. -/
theorem Trace.map_fst_arrivals (bpfTracingLevel cpu : ℕ) (t : Trace) :
    (t.arrivals bpfTracingLevel cpu).map Prod.fst =
      (t.compiledCalls bpfTracingLevel cpu).filterMap
        fun args => args.cut.map Arguments.event := by
  rw [arrivals, List.map_filterMap, compiledCalls, List.filterMap_filter, List.filterMap_map]
  congr 1
  funext x
  rw [Function.comp_apply, arrived]
  by_cases hin : x.1.kind.CompiledIn bpfTracingLevel
  · rw [if_pos hin, if_pos (decide_eq_true hin), Option.map_map]
    rfl
  · rw [if_neg hin, if_neg (by simpa using hin)]
    rfl

namespace Pipeline

variable {κ : Type*} [BoundedChannel κ Record]

/-- Every CPU has made the calls of a trace, of which those are there that are compiled in.
The trace names its spans by the ids that the subscriber gave to them. -/
structure Ran (sourceLoc : Bool) (bpfTracingLevel : ℕ) (t : ℕ → Trace) (s : Pipeline κ) :
    Prop where
  calls : ∀ cpu, List.Forall₂
    (fun (args : Arguments) call => ∃ mem, mem.length = args.size ∧ call = args.call mem)
    ((t cpu).compiledCalls bpfTracingLevel cpu)
    (s.reserved.filter fun call => call.cpu = cpu)
  valid : ∀ cpu, ∀ x ∈ (t cpu).calls cpu,
    x.1.Valid ∧ (sourceLoc = true → x.1.loc.isSome = true)
  ids : ∀ cpu, startIds (eventsOf cpu s.emitted) =
    startIds ((t cpu).arrivals bpfTracingLevel cpu)

/-- Nothing is on its way any more, and nothing was discarded. -/
structure Delivered (s : Pipeline κ) : Prop where
  slots : s.slots = []
  committed : s.reading.ringBuf.committed = []
  inFlight : s.reading.ringBuf.inFlight = []
  len : s.reading.ringBuf.len = 0
  handling : s.reading.handling = none
  discarded : s.reading.ringBuf.discarded = []
  alive : s.reading.ringBuf.owner = .alive

end Pipeline

section Delivery

variable {κ : Type*} [BoundedChannel κ Record] {crateRoot : List Char} {current : LevelFilter}
  {sourceLoc : Bool} {e : Endian} {bpfTracingLevel : ℕ} {t : ℕ → Trace} {s : Pipeline κ}

omit [BoundedChannel κ Record] in
theorem Pipeline.Ran.valid_of_mem (h : s.Ran sourceLoc bpfTracingLevel t) (cpu : ℕ) :
    ∀ args ∈ (t cpu).compiledCalls bpfTracingLevel cpu,
      args.Valid ∧ (sourceLoc = true → args.loc.isSome = true) := by
  intro args hargs
  obtain ⟨x, hx, rfl⟩ := List.mem_map.mp (List.mem_filter.mp hargs).1
  exact h.valid cpu x hx

omit [BoundedChannel κ Record] in
/-- The calls of a CPU decode to what arrives of its trace. -/
theorem Pipeline.Ran.filterMap_decode (h : s.Ran sourceLoc bpfTracingLevel t) (cpu : ℕ) :
    (s.reserved.filter fun call => call.cpu = cpu).filterMap
        (fun call => (decode sourceLoc e (call.record e)).toOption) =
      ((t cpu).arrivals bpfTracingLevel cpu).map Prod.fst := by
  rw [Trace.map_fst_arrivals]
  have hvalid := h.valid_of_mem cpu
  have hcalls := h.calls cpu
  revert hvalid hcalls
  generalize s.reserved.filter (fun call => call.cpu = cpu) = calls
  generalize (t cpu).compiledCalls bpfTracingLevel cpu = argss
  intro hvalid hcalls
  induction hcalls with
  | nil => rfl
  | cons hcall _ ih =>
      obtain ⟨mem, hmem, rfl⟩ := hcall
      obtain ⟨hfirst, hloc⟩ := hvalid _ List.mem_cons_self
      rw [List.filterMap_cons, List.filterMap_cons,
        toOption_decode_call ⟨hfirst, hloc, hmem⟩,
        ih fun args hargs => hvalid args (List.mem_cons_of_mem _ hargs)]

omit [BoundedChannel κ Record] in
theorem Pipeline.Ran.exists_args (h : s.Ran sourceLoc bpfTracingLevel t) {call : Call}
    (hcall : call ∈ s.reserved) :
    ∃ (args : Arguments) (mem : List UInt8), args.Valid ∧ mem.length = args.size ∧
      (sourceLoc = true → args.loc.isSome = true) ∧ call = args.call mem := by
  have hmem : call ∈ s.reserved.filter fun c => c.cpu = call.cpu := by simp [hcall]
  obtain ⟨i, hi, hget⟩ := List.mem_iff_getElem.mp hmem
  obtain ⟨hlength, hcalls⟩ := List.forall₂_iff_get.mp (h.calls call.cpu)
  obtain ⟨mem, hsize, heq⟩ := hcalls i (hlength ▸ hi) hi
  obtain ⟨hvalid, hloc⟩ := h.valid_of_mem call.cpu _ (List.get_mem _ ⟨i, hlength ▸ hi⟩)
  exact ⟨_, mem, hvalid, hsize, hloc, hget.symm.trans heq⟩

omit [BoundedChannel κ Record] in
theorem Pipeline.Ran.cpu_of_decode (h : s.Ran sourceLoc bpfTracingLevel t) {call : Call}
    (hcall : call ∈ s.reserved) {event : Event}
    (hevent : (decode sourceLoc e (call.record e)).toOption = some event) :
    event.cpu = call.cpu := by
  obtain ⟨args, mem, hvalid, hsize, hloc, rfl⟩ := h.exists_args hcall
  rw [toOption_decode_call ⟨hvalid, hloc, hsize⟩] at hevent
  obtain ⟨args', hcut, rfl⟩ := Option.map_eq_some_iff.mp hevent
  exact (Arguments.of_cut_eq_some hcut).2.1

/-- Once everything is delivered, every CPU is left with the stack that its trace leaves,
and the subscriber is told of what arrives of its messages in the spans around them, as if
the other CPUs had done nothing. Where the ends arrive, its stack is as it was and it is
told of every message that is kept exactly if the trace is clean and does not stray. -/
theorem pipeline_delivers {maps : List (String × Except Error MapType)}
    {rb : RingBuf κ EventDecodeError Event} {tl : Locals} (hinit : tryInit maps [] = .ok rb)
    (hon : bpfTracingLevel ≠ Header.bpfTracingLevelOff)
    (hrun : Relation.ReflTransGen (Pipeline.Step crateRoot current sourceLoc e)
      (.start rb tl) s)
    (hran : s.Ran sourceLoc bpfTracingLevel t) (hdelivered : s.Delivered) (cpu : ℕ) :
    s.reading.tl.stackOf cpu =
        (t cpu).after (Kept bpfTracingLevel current) (tl.stackOf cpu) ∧
      messages (toldOf cpu s.emitted s.told) =
        (t cpu).parents (Kept bpfTracingLevel current) (tl.stackOf cpu) ∧
      ((t cpu).EndsArrive (Kept bpfTracingLevel current) →
        ((t cpu).ids ++ (tl.stackOf cpu).map Prod.snd).Nodup →
        (s.reading.tl.stackOf cpu = tl.stackOf cpu ∧
          Trace.Tells (messages (toldOf cpu s.emitted s.told))
            ((t cpu).expected (Kept bpfTracingLevel current) (tl.stackOf cpu).top) ↔
        (tl.stackOf cpu = [] ∨ ¬ (t cpu).Strays (Kept bpfTracingLevel current)) ∧
          (t cpu).Clean (Kept bpfTracingLevel current) (.ofStack (tl.stackOf cpu)))) := by
  obtain ⟨mapType, hnew⟩ := Reading.exists_new_of_tryInit hinit
  obtain ⟨kept, hkept, hhanded, hcount⟩ := Pipeline.exists_handedOut hnew hrun
  have hinv := Pipeline.Inv.of_new hnew hrun
  have hreading := Reading.Inv.of_run (RingBuf.results_of_new hnew)
    (Pipeline.reading_of_run hrun)
  have hresults := (RingBuf.Inv.of_run hnew hreading.run).results
  -- nothing was lost, so all calls were handed out
  have hall : kept = s.reserved := by
    refine hkept.eq_of_length ?_
    have hlength := hcount hdelivered.alive
    rw [hdelivered.len, hdelivered.inFlight, hdelivered.discarded, hdelivered.committed,
      hdelivered.slots] at hlength
    simpa using hlength.symm
  have hemitted : s.emitted.map Prod.fst = s.reserved.filterMap
      fun call => (decode sourceLoc e (call.record e)).toOption := by
    have hdecoded := hinv.decoded
    rw [Pipeline.pending, hdelivered.handling, hresults, hhanded, hall, List.map_map,
      List.filterMap_map] at hdecoded
    simpa using hdecoded
  -- so the events of the CPU are what arrives of its trace
  have hevents : (eventsOf cpu s.emitted).map Prod.fst =
      ((t cpu).arrivals bpfTracingLevel cpu).map Prod.fst := by
    rw [← hran.filterMap_decode cpu, List.filterMap_filter, eventsOf,
      show (fun x : Event × SpanId => decide (x.1.cpu = cpu)) =
        (fun event : Event => decide (event.cpu = cpu)) ∘ Prod.fst from rfl,
      ← List.filter_map, hemitted, List.filter_filterMap]
    refine List.filterMap_congr fun call hcall => ?_
    cases hevent : (decode sourceLoc e (call.record e)).toOption with
    | none => simp
    | some event => simp [hran.cpu_of_decode hcall hevent, Option.filter]
  obtain ⟨tl', ds, hrunAll, hcpus⟩ := emitAll_spec crateRoot current tl s.emitted
  rw [hinv.emits, Option.some_inj, Prod.mk.injEq] at hrunAll
  obtain ⟨rfl, rfl⟩ := hrunAll
  have hcpu := hcpus cpu
  rw [run_nest_congr current hevents (hran.ids cpu)] at hcpu
  have hcalls := (t cpu).nested_calls current cpu hon (tl.stackOf cpu)
  rw [nested, ← Trace.arrivals, hcpu, Prod.mk.injEq] at hcalls
  obtain ⟨hstack, hmessages⟩ := hcalls
  refine ⟨hstack, hmessages, fun hends hnodup => ?_⟩
  rw [← Trace.after_tells_iff (t cpu) (tl.stackOf cpu) hends hnodup, ← hstack, ← hmessages]

section Example

/-- A span with a message within it on the first CPU, and a message on the second one. -/
def spanNextToMessage : ℕ → Trace
  | 0 => .span .info "s" none none 1 (.message .info "m" none .nil) .nil
  | 1 => .message .info "n" none .nil
  | _ + 2 => .nil

def atRest (reserved : List Call) (records : List Record)
    (results : List (Except EventDecodeError Event)) (tl : Locals) (log : List Report)
    (emitted : List (Event × SpanId)) (told : List (List (Dispatch ℕ))) :
    Pipeline (Queue Record) where
  slots := []
  reading :=
    ⟨⟨⟨[], userspaceCapacity, false⟩, 0, false, .polling, .alive, [], records, [], records,
      results⟩, tl, none, false, log⟩
  reserved := reserved
  emitted := emitted
  told := told

/-- A call without a source location gets from its program to the subscriber. -/
theorem handOver {emission : Header.Emission (List UInt8)} {cpu : ℕ} {mem : List UInt8}
    {event : Event} {reserved : List Call} {records : List Record}
    {results : List (Except EventDecodeError Event)} {tl : Locals} {log : List Report}
    {emitted : List (Event × SpanId)} {told : List (List (Dispatch ℕ))}
    (hdecode : decode false .little (Call.record .little ⟨emission, cpu, none, mem⟩) = .ok event)
    (id : SpanId) :
    ∃ records' results' tl' log' told',
      Relation.ReflTransGen (Pipeline.Step [] (.upTo .trace) false .little)
        (atRest reserved records results tl log emitted told)
        (atRest (reserved ++ [⟨emission, cpu, none, mem⟩]) records' results' tl' log'
          (emitted ++ [(event, id)]) told') := by
  let call : Call := ⟨emission, cpu, none, mem⟩
  let received (res : Except EventDecodeError Event) : Pipeline (Queue Record) :=
    { atRest (reserved ++ [call]) (records ++ [call.record .little]) (results ++ [res]) tl log
        emitted told with
      reading.handling := some res }
  have hreceived : Relation.ReflTransGen (Pipeline.Step [] (.upTo .trace) false .little)
      (atRest reserved records results tl log emitted told)
      (received (decode false .little (call.record .little))) :=
    ((((((((Relation.ReflTransGen.single ⟨.reserve call, rfl⟩).tail
      ⟨.write 0, rfl⟩).tail ⟨.write 0, rfl⟩).tail ⟨.write 0, rfl⟩).tail ⟨.write 0, rfl⟩).tail
      ⟨.submit 0, rfl⟩).tail ⟨.reader .deliver, rfl⟩).tail ⟨.reader .trySend, rfl⟩).tail
      ⟨.blockingRecv, rfl⟩
  rw [hdecode] at hreceived
  obtain ⟨tl', ds, hemit, _⟩ := emit_spec [] (.upTo .trace) tl event id
  refine ⟨records ++ [call.record .little], results ++ [.ok event], tl',
    log ++ [report (.ok event)], told ++ [ds], hreceived.tail ⟨.handle id, ?_⟩⟩
  simp only [Pipeline.next, Reading.next, received, atRest, hemit, Option.map_some,
    Option.bind_some]
  rfl

def callOn (kind : Kind) (cpu : ℕ) (msg : String) : Call :=
  (⟨kind, cpu, msg, none⟩ : Arguments).call (List.replicate 132 0)

theorem decode_callOn :
    decode false .little ((callOn (.startSpan .info) 0 "s").record .little) =
        .ok ⟨.startSpan .info, "s", 0, none, none⟩ ∧
      decode false .little ((callOn (.message .info) 1 "n").record .little) =
        .ok ⟨.message .info, "n", 1, none, none⟩ ∧
      decode false .little ((callOn (.message .info) 0 "m").record .little) =
        .ok ⟨.message .info, "m", 0, none, none⟩ ∧
      decode false .little ((callOn .endSpan 0 "s").record .little) =
        .ok ⟨.endSpan, "s", 0, none, none⟩ := by
  decide +kernel

theorem ran_spanNextToMessage (records : List Record)
    (results : List (Except EventDecodeError Event)) (tl : Locals) (log : List Report)
    (told : List (List (Dispatch ℕ))) :
    (atRest [callOn (.startSpan .info) 0 "s", callOn (.message .info) 1 "n",
        callOn (.message .info) 0 "m", callOn .endSpan 0 "s"] records results tl log
      [(⟨.startSpan .info, "s", 0, none, none⟩, 1), (⟨.message .info, "n", 1, none, none⟩, 2),
        (⟨.message .info, "m", 0, none, none⟩, 2), (⟨.endSpan, "s", 0, none, none⟩, 2)]
      told).Ran false 3 spanNextToMessage := by
  have hmem (kind : Kind) (cpu : ℕ) (msg : String) : ∃ mem : List UInt8,
      mem.length = (⟨kind, cpu, msg, none⟩ : Arguments).size ∧
        callOn kind cpu msg = (⟨kind, cpu, msg, none⟩ : Arguments).call mem :=
    ⟨List.replicate 132 0, by rw [Arguments.size_of_none rfl, List.length_replicate], rfl⟩
  have hvalid (kind : Kind) (cpu : ℕ) (hcpu : cpu < 2 ^ 16) :
      ∀ msg ∈ ["s", "m", "n"], (⟨kind, cpu, msg, none⟩ : Arguments).Valid := by
    have hmsg : ∀ msg ∈ ["s", "m", "n"], 0 ∉ ofText msg := by decide +kernel
    exact fun msg h => ⟨hcpu, hmsg msg h, by simp⟩
  constructor <;> rintro (_ | _ | cpu)
  · exact .cons (hmem ..) (.cons (hmem ..) (.cons (hmem ..) .nil))
  · exact .cons (hmem ..) .nil
  · exact .nil
  · simp [spanNextToMessage, Trace.calls, hvalid]
  · simp [spanNextToMessage, Trace.calls, hvalid]
  · simp [spanNextToMessage, Trace.calls]
  · exact (by decide +kernel : [1] = startIds (Trace.arrivals 3 0 (spanNextToMessage 0)))
  · exact (by decide +kernel : [] = startIds (Trace.arrivals 3 1 (spanNextToMessage 1)))
  · rfl

/-- The message of one CPU is delivered while a span is open on another one. -/
theorem pipeline_delivers_message :
    ∃ s : Pipeline (Queue Record),
      s.reserved = [callOn (.startSpan .info) 0 "s", callOn (.message .info) 1 "n",
        callOn (.message .info) 0 "m", callOn .endSpan 0 "s"] ∧
      s.reading.tl.stackOf 0 = [] ∧
      Trace.Tells (messages (toldOf 0 s.emitted s.told)) [("m", some 1)] ∧
      Trace.Tells (messages (toldOf 1 s.emitted s.told)) [("n", none)] := by
  have hopened : Relation.ReflTransGen (Pipeline.Step [] (.upTo .trace) false .little)
      (.start (openingWith []) (.init 1)) (atRest [] [] [] (.init 1) [] [] []) :=
    (Relation.ReflTransGen.single ⟨.reader (.openRing true), rfl⟩).tail
      ⟨.reader .checkStop, rfl⟩
  obtain ⟨hstart, hother, hmessage, hend⟩ := decode_callOn
  obtain ⟨records₁, results₁, tl₁, log₁, told₁, h₁⟩ := handOver hstart 1
  obtain ⟨records₂, results₂, tl₂, log₂, told₂, h₂⟩ := handOver hother 2
  obtain ⟨records₃, results₃, tl₃, log₃, told₃, h₃⟩ := handOver hmessage 2
  obtain ⟨records₄, results₄, tl₄, log₄, told₄, h₄⟩ := handOver hend 2
  have hrun := (((hopened.trans h₁).trans h₂).trans h₃).trans h₄
  have hdelivers := pipeline_delivers (tryInit_openingWith []) (by decide) hrun
    (ran_spanNextToMessage ..) ⟨rfl, rfl, rfl, rfl, rfl, rfl, rfl⟩
  obtain ⟨hstack, _, hnests⟩ := hdelivers 0
  obtain ⟨_, _, hnests'⟩ := hdelivers 1
  refine ⟨_, rfl, hstack, ?_, ?_⟩
  · exact ((hnests (by decide +kernel) (by decide)).mpr (by decide +kernel)).2
  · exact ((hnests' trivial (by decide)).mpr (by decide +kernel)).2

end Example

end Delivery

end Tracing

end Xbpf
