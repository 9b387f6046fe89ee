import Xbpf.Tracing.Arrival
import Xbpf.Tracing.PerCpu

/-!
# Traces of an eBPF program

What a program does on one CPU is a well-nested `Trace` of macro calls. The
preprocessor removes the calls above the level it is compiled with, except that
the end of a span is never removed, and `events` are what the records of the
calls that are left decode to, as far as they do. A trace is emitted from a
stack recursively: `after` is the stack it leaves, and `parents` are the spans
its messages are emitted in. They agree with what `emit` does to the thread
locals.
-/

namespace Xbpf

namespace Tracing

open Bytes Runs
open Header (Emission bpfMessage bpfStartSpan bpfEndSpan bpfTracingEmitEvent)

def Kind.CompiledIn (bpfTracingLevel : ℕ) : Kind → Prop
  | .message lvl => lvl.verbosity ≤ bpfTracingLevel
  | .startSpan lvl => lvl.verbosity ≤ bpfTracingLevel
  | .endSpan => bpfTracingLevel ≠ Header.bpfTracingLevelOff

instance (bpfTracingLevel : ℕ) (kind : Kind) :
    Decidable (kind.CompiledIn bpfTracingLevel) :=
  match kind with
  | .message lvl => inferInstanceAs (Decidable (lvl.verbosity ≤ bpfTracingLevel))
  | .startSpan lvl => inferInstanceAs (Decidable (lvl.verbosity ≤ bpfTracingLevel))
  | .endSpan => inferInstanceAs (Decidable (¬ bpfTracingLevel = 0))

namespace Arguments

/-- The emission that the macro call compiles to. -/
def compiled (bpfTracingLevel : ℕ) (args : Arguments) :
    Option (Emission (List UInt8)) :=
  match args.kind with
  | .message lvl => bpfMessage lvl bpfTracingLevel (ofText args.msg)
  | .startSpan lvl => bpfStartSpan lvl bpfTracingLevel (ofText args.msg)
  | .endSpan => bpfEndSpan bpfTracingLevel (ofText args.msg)

theorem compiled_eq (bpfTracingLevel : ℕ) (args : Arguments) :
    args.compiled bpfTracingLevel =
      if args.kind.CompiledIn bpfTracingLevel then some args.emission else none := by
  rcases args with ⟨kind, cpu, msg, loc⟩
  cases kind with
  | message lvl =>
      show bpfMessage lvl bpfTracingLevel (ofText msg) = _
      rw [Header.bpfMessage_eq]
      rfl
  | startSpan lvl =>
      show bpfStartSpan lvl bpfTracingLevel (ofText msg) = _
      rw [Header.bpfStartSpan_eq]
      rfl
  | endSpan =>
      by_cases h : bpfTracingLevel = 0
      · simp [compiled, bpfEndSpan, Kind.CompiledIn, Header.bpfTracingLevelOff, h]
      · simp [compiled, bpfEndSpan, Kind.CompiledIn, Header.bpfTracingLevelOff, h,
          emission, Kind.emittedLevel, Kind.eventType]

end Arguments

/-- What user space gets from a macro call with the memory that is reserved for it, if the
call is compiled in. A record that does not decode is only warned about. -/
def submitted (sourceLoc : Bool) (e : Endian) (bpfTracingLevel : ℕ) (x : Arguments × SpanId)
    (mem : List UInt8) : Option (Event × SpanId) := do
  let emission ← x.1.compiled bpfTracingLevel
  let buf ← bpfTracingEmitEvent e Header.bpfTracingStrLen x.1.sourceLoc (some mem) x.1.cpu
    emission
  let event ← (← (Event.tryFrom sourceLoc e buf).run).toOption
  some (event, x.2)

def arrived (bpfTracingLevel : ℕ) (x : Arguments × SpanId) : Option (Event × SpanId) :=
  if x.1.kind.CompiledIn bpfTracingLevel then x.1.cut.map fun args => (args.event, x.2)
  else none

theorem submitted_eq {sourceLoc : Bool} {e : Endian} {bpfTracingLevel : ℕ}
    {x : Arguments × SpanId} {mem : List UInt8} (h : x.1.Matches sourceLoc mem) :
    submitted sourceLoc e bpfTracingLevel x mem = arrived bpfTracingLevel x := by
  have hreceived : submitted sourceLoc e bpfTracingLevel x mem =
      (x.1.compiled bpfTracingLevel).bind fun emission =>
        (bpfTracingEmitEvent e Header.bpfTracingStrLen x.1.sourceLoc (some mem) x.1.cpu
          emission).bind fun buf => (Event.tryFrom sourceLoc e buf).run.bind fun res =>
            res.toOption.map fun event => (event, x.2) := by
    rw [submitted]
    simp only [Option.bind_eq_bind, Option.map_eq_bind]
    rfl
  rw [hreceived, Arguments.compiled_eq, arrived]
  split
  · have hrecord := x.1.record_eq e mem
    rw [Arguments.record] at hrecord
    rw [Option.bind_some, hrecord, Option.bind_some, run_tryFrom, Option.bind_some,
      Arguments.toOption_decode_record h (x.1.record_eq e mem), Option.map_map]
    rfl
  · rfl

/-- Well-nested macro calls. A span carries the source locations of both its
macros and the id that the subscriber gives to it. -/
inductive Trace
  | nil
  | message (lvl : Level) (msg : String) (loc : Loc) (rest : Trace)
  | span (lvl : Level) (name : String) (start stop : Loc) (id : SpanId)
      (body rest : Trace)

namespace Trace

def calls (cpu : ℕ) : Trace → List (Arguments × SpanId)
  | nil => []
  | message lvl msg loc rest => (⟨.message lvl, cpu, msg, loc⟩, 0) :: rest.calls cpu
  | span lvl name start stop id body rest =>
      (⟨.startSpan lvl, cpu, name, start⟩, id) :: (body.calls cpu ++
        (⟨.endSpan, cpu, name, stop⟩, id) :: rest.calls cpu)

/-- The events of the records that the program submits, where `mem` is the memory that is
reserved for each of its calls. -/
def events (sourceLoc : Bool) (e : Endian) (bpfTracingLevel cpu : ℕ) (mem : ℕ → List UInt8)
    (t : Trace) : List (Event × SpanId) :=
  (t.calls cpu).zipIdx.filterMap fun x => submitted sourceLoc e bpfTracingLevel x.1 (mem x.2)

def arrivals (bpfTracingLevel cpu : ℕ) (t : Trace) : List (Event × SpanId) :=
  (t.calls cpu).filterMap (arrived bpfTracingLevel)

/-- The calls fit in records that the decoder was built to read, and are given memory of
their size. -/
def Submits (sourceLoc : Bool) (cpu : ℕ) (mem : ℕ → List UInt8) (t : Trace) : Prop :=
  ∀ (i : ℕ) (x : Arguments × SpanId), (t.calls cpu)[i]? = some x → x.1.Matches sourceLoc (mem i)

def ids : Trace → List SpanId
  | nil => []
  | message _ _ _ rest => rest.ids
  | span _ _ _ _ id body rest => id :: (body.ids ++ rest.ids)

section Emission

variable (keep : Level → Prop) [DecidablePred keep]

/-- The stack after the start of a span, if it arrives and its level is emitted. -/
def push (lvl : Level) (name : String) (loc : Loc) (id : SpanId) (stack : Stack) : Stack :=
  if keep lvl then ((arriving name loc).map fun text => (text, id)).toList ++ stack else stack

def pop (name : String) (loc : Loc) (stack : Stack) : Stack :=
  (arriving name loc).elim stack fun text => (popUntil text stack).1

/-- The stack that a trace leaves, if the levels in `keep` are emitted. -/
def after : Trace → Stack → Stack
  | nil, stack => stack
  | message _ _ _ rest, stack => rest.after stack
  | span lvl name start stop id body rest, stack =>
      rest.after (pop name stop (body.after (push keep lvl name start id stack)))

/-- The messages of a trace with the spans they are emitted in. -/
def parents : Trace → Stack → List (String × Option SpanId)
  | nil, _ => []
  | message lvl msg loc rest, stack =>
      (if keep lvl then ((arriving msg loc).map fun text => (text, stack.top)).toList else []) ++
        rest.parents stack
  | span lvl name start stop id body rest, stack =>
      body.parents (push keep lvl name start id stack) ++
        rest.parents (pop name stop (body.after keep (push keep lvl name start id stack)))

/-- The messages of a trace with the innermost spans around them that are in
`keep`, where `parent` is the one around the whole trace. -/
def expected : Trace → Option SpanId → List (String × Option SpanId)
  | nil, _ => []
  | message lvl msg _ rest, parent =>
      (if keep lvl then [(msg, parent)] else []) ++ rest.expected parent
  | span lvl _ _ _ id body rest, parent =>
      body.expected (if keep lvl then some id else parent) ++ rest.expected parent

end Emission

end Trace

def messages {μ : Type*} (ds : List (List (Dispatch μ))) :
    List (String × Option SpanId) :=
  ds.flatten.filterMap fun d =>
    match d with
    | .event parent _ msg => some (msg, parent)
    | _ => none

section Messages

variable {μ : Type*}

theorem messages_append (ds ds' : List (List (Dispatch μ))) :
    messages (ds ++ ds') = messages ds ++ messages ds' := by
  rw [messages, List.flatten_append, List.filterMap_append]
  rfl

theorem messages_cons (d : List (Dispatch μ)) (ds : List (List (Dispatch μ))) :
    messages (d :: ds) = messages [d] ++ messages ds :=
  messages_append [d] ds

theorem messages_leave (ids : List SpanId) :
    messages [ids.flatMap (Dispatch.leave : SpanId → List (Dispatch μ))] = [] := by
  induction ids with
  | nil => rfl
  | cons id ids ih => exact ih

theorem messages_eraseAll (ds : List (List (Dispatch ℕ))) :
    messages (ds.map eraseAll) = messages ds := by
  rw [messages, messages]
  induction ds with
  | nil => rfl
  | cons d ds ih =>
      rw [List.map_cons, List.flatten_cons, List.flatten_cons, List.filterMap_append,
        List.filterMap_append, ih, eraseAll, List.filterMap_map]
      congr 2
      funext d
      cases d <;> rfl

end Messages

/-- Both filters let a level through: the preprocessor and the subscriber. -/
def Kept (bpfTracingLevel : ℕ) (current : LevelFilter) (lvl : Level) : Prop :=
  lvl.verbosity ≤ bpfTracingLevel ∧ lvl.passes current

instance (bpfTracingLevel : ℕ) (current : LevelFilter) :
    DecidablePred (Kept bpfTracingLevel current) :=
  fun lvl => inferInstanceAs (Decidable (lvl.verbosity ≤ bpfTracingLevel ∧ _))

section Nested

variable (bpfTracingLevel : ℕ) (current : LevelFilter)

/-- The stack that macro calls leave, and the messages they emit along with
their parents. -/
def nested (stack : Stack) (xs : List (Arguments × SpanId)) :
    Stack × List (String × Option SpanId) :=
  let r := run (nest current) stack (xs.filterMap (arrived bpfTracingLevel))
  (r.1, messages r.2)

theorem nested_append (stack : Stack) (xs ys : List (Arguments × SpanId)) :
    nested bpfTracingLevel current stack (xs ++ ys) =
      ((nested bpfTracingLevel current (nested bpfTracingLevel current stack xs).1 ys).1,
        (nested bpfTracingLevel current stack xs).2 ++
          (nested bpfTracingLevel current
            (nested bpfTracingLevel current stack xs).1 ys).2) := by
  simp only [nested, List.filterMap_append, run_append, messages_append]

/-- Either a call does not arrive, or what arrives of it acts on the stack. -/
theorem nested_cons (stack : Stack) (x : Arguments × SpanId) (xs : List (Arguments × SpanId)) :
    (arrived bpfTracingLevel x = none ∧
      nested bpfTracingLevel current stack (x :: xs) =
        nested bpfTracingLevel current stack xs) ∨
    ∃ args, x.1.kind.CompiledIn bpfTracingLevel ∧ x.1.cut = some args ∧
      nested bpfTracingLevel current stack (x :: xs) =
        ((nested bpfTracingLevel current (nest current stack (args.event, x.2)).1 xs).1,
          messages [(nest current stack (args.event, x.2)).2] ++
            (nested bpfTracingLevel current
              (nest current stack (args.event, x.2)).1 xs).2) := by
  cases harrived : arrived bpfTracingLevel x with
  | none =>
      left
      simp only [nested, List.filterMap_cons_none harrived, true_and]
  | some y =>
      right
      have hy := harrived
      rw [arrived] at hy
      split at hy
      · rename_i hcompiled
        obtain ⟨args, hargs, rfl⟩ := Option.map_eq_some_iff.mp hy
        refine ⟨args, hcompiled, hargs, ?_⟩
        simp only [nested, List.filterMap_cons_some harrived, run_cons]
        rw [messages_cons]
      · cases hy

variable (stack : Stack) (lvl : Level) (cpu : ℕ) (msg : String) (loc : Loc)
  (id : SpanId) (xs : List (Arguments × SpanId))

theorem nested_message :
    nested bpfTracingLevel current stack ((⟨.message lvl, cpu, msg, loc⟩, id) :: xs) =
      ((nested bpfTracingLevel current stack xs).1,
        (if Kept bpfTracingLevel current lvl then
          ((arriving msg loc).map fun text => (text, stack.top)).toList else []) ++
          (nested bpfTracingLevel current stack xs).2) := by
  have htext := Arguments.map_msg_cut ⟨.message lvl, cpu, msg, loc⟩
  rcases nested_cons bpfTracingLevel current stack (⟨.message lvl, cpu, msg, loc⟩, id) xs with
    ⟨hnone, hnested⟩ | ⟨args, hcompiled, hcut, hnested⟩
  · rw [hnested]
    rw [arrived, ite_eq_right_iff] at hnone
    split
    · rename_i hkept
      have hcut := Option.map_eq_none_iff.mp (hnone hkept.1)
      rw [hcut] at htext
      rw [← htext]
      rfl
    · rfl
  · rw [hcut] at htext
    have hkind := (Arguments.of_cut_eq_some hcut).1
    rw [hnested, ← htext]
    by_cases hpass : lvl.passes current
    · rw [if_pos ⟨hcompiled, hpass⟩]
      simp [nest, Arguments.event, hkind, hpass, messages]
    · rw [if_neg fun hkept => hpass hkept.2]
      simp [nest, Arguments.event, hkind, hpass, messages]

theorem nested_startSpan :
    nested bpfTracingLevel current stack ((⟨.startSpan lvl, cpu, msg, loc⟩, id) :: xs) =
      nested bpfTracingLevel current
        (Trace.push (Kept bpfTracingLevel current) lvl msg loc id stack) xs := by
  have htext := Arguments.map_msg_cut ⟨.startSpan lvl, cpu, msg, loc⟩
  rw [Trace.push]
  rcases nested_cons bpfTracingLevel current stack (⟨.startSpan lvl, cpu, msg, loc⟩, id) xs with
    ⟨hnone, hnested⟩ | ⟨args, hcompiled, hcut, hnested⟩
  · rw [hnested]
    rw [arrived, ite_eq_right_iff] at hnone
    split
    · rename_i hkept
      have hcut := Option.map_eq_none_iff.mp (hnone hkept.1)
      rw [hcut] at htext
      rw [← htext]
      rfl
    · rfl
  · rw [hcut] at htext
    have hkind := (Arguments.of_cut_eq_some hcut).1
    rw [hnested, ← htext]
    by_cases hpass : lvl.passes current
    · rw [if_pos ⟨hcompiled, hpass⟩]
      simp [nest, Arguments.event, hkind, hpass, messages]
    · rw [if_neg fun hkept => hpass hkept.2]
      simp [nest, Arguments.event, hkind, hpass, messages]

theorem nested_endSpan (hon : bpfTracingLevel ≠ Header.bpfTracingLevelOff) :
    nested bpfTracingLevel current stack ((⟨.endSpan, cpu, msg, loc⟩, id) :: xs) =
      nested bpfTracingLevel current (Trace.pop msg loc stack) xs := by
  have htext := Arguments.map_msg_cut ⟨.endSpan, cpu, msg, loc⟩
  rw [Trace.pop]
  rcases nested_cons bpfTracingLevel current stack (⟨.endSpan, cpu, msg, loc⟩, id) xs with
    ⟨hnone, hnested⟩ | ⟨args, _, hcut, hnested⟩
  · rw [arrived, ite_eq_right_iff] at hnone
    have hcut := Option.map_eq_none_iff.mp (hnone hon)
    rw [hcut] at htext
    rw [hnested, ← htext]
    rfl
  · rw [hcut] at htext
    have hkind := (Arguments.of_cut_eq_some hcut).1
    rw [hnested, ← htext]
    simp only [nest, Arguments.event, hkind, messages_leave]
    rfl

end Nested

namespace Trace

variable {sourceLoc : Bool} {e : Endian} {bpfTracingLevel : ℕ} {mem : ℕ → List UInt8}
  (current : LevelFilter) (cpu : ℕ)

theorem cpu_of_mem_calls {t : Trace} {x : Arguments × SpanId} (h : x ∈ t.calls cpu) :
    x.1.cpu = cpu := by
  induction t with
  | nil => cases h
  | message lvl msg loc rest ih =>
      rcases List.mem_cons.mp h with rfl | h
      · rfl
      · exact ih h
  | span lvl name start stop id body rest ihbody ihrest =>
      simp only [calls, List.mem_cons, List.mem_append] at h
      rcases h with rfl | h | rfl | h
      · rfl
      · exact ihbody h
      · rfl
      · exact ihrest h

theorem Submits.events_eq {t : Trace} (h : t.Submits sourceLoc cpu mem) :
    t.events sourceLoc e bpfTracingLevel cpu mem = t.arrivals bpfTracingLevel cpu := by
  have hsame : ∀ x ∈ (t.calls cpu).zipIdx, submitted sourceLoc e bpfTracingLevel x.1 (mem x.2) =
      arrived bpfTracingLevel x.1 := by
    intro x hx
    exact submitted_eq (h _ _ (List.mem_zipIdx_iff_getElem?.mp hx))
  rw [events, List.filterMap_congr hsame, arrivals]
  conv_rhs => rw [← List.zipIdx_map_fst 0 (t.calls cpu), List.filterMap_map]
  rfl

theorem cpu_of_mem_arrivals {t : Trace} {x : Event × SpanId}
    (hx : x ∈ t.arrivals bpfTracingLevel cpu) : x.1.cpu = cpu := by
  obtain ⟨y, hy, heq⟩ := List.mem_filterMap.mp hx
  rw [arrived] at heq
  split at heq
  · obtain ⟨args, hargs, rfl⟩ := Option.map_eq_some_iff.mp heq
    exact (Arguments.of_cut_eq_some hargs).2.1.trans (cpu_of_mem_calls cpu hy)
  · cases heq

/-- The calls of a trace act on the stack of their CPU as the trace does. -/
theorem nested_calls (hon : bpfTracingLevel ≠ Header.bpfTracingLevelOff) (t : Trace)
    (stack : Stack) :
    nested bpfTracingLevel current stack (t.calls cpu) =
      (t.after (Kept bpfTracingLevel current) stack,
        t.parents (Kept bpfTracingLevel current) stack) := by
  induction t generalizing stack with
  | nil => rfl
  | message lvl msg loc rest ih =>
      rw [calls, nested_message, ih]
      rfl
  | span lvl name start stop id body rest ihbody ihrest =>
      rw [calls, nested_startSpan, nested_append, ihbody,
        nested_endSpan bpfTracingLevel current _ _ _ _ _ _ hon, ihrest]
      rfl

/-- Emitting the events of a trace never panics, and acts on the stack of its
CPU as the trace does. -/
theorem emitAll_events (crateRoot : List Char)
    (hon : bpfTracingLevel ≠ Header.bpfTracingLevelOff) {t : Trace}
    (h : t.Submits sourceLoc cpu mem) (tl : Locals) :
    ∃ tl' ds, emitAll crateRoot current tl (t.events sourceLoc e bpfTracingLevel cpu mem) =
        some (tl', ds) ∧
      tl'.stackOf cpu = t.after (Kept bpfTracingLevel current) (tl.stackOf cpu) ∧
      messages ds = t.parents (Kept bpfTracingLevel current) (tl.stackOf cpu) := by
  have hcpu : ∀ x ∈ t.arrivals bpfTracingLevel cpu, x.1.cpu = cpu :=
    fun x hx => cpu_of_mem_arrivals cpu hx
  obtain ⟨tl', ds, hrun, hown⟩ := emitAll_of_cpu crateRoot current hcpu tl
  have hcalls := nested_calls current cpu hon t (tl.stackOf cpu)
  rw [nested, ← arrivals, hown, messages_eraseAll, Prod.mk.injEq] at hcalls
  rw [h.events_eq]
  exact ⟨tl', ds, hrun, hcalls.1, hcalls.2⟩

end Trace

end Tracing

end Xbpf
