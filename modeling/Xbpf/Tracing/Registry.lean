import Xbpf.Scopes.Registry
import Xbpf.Tracing.PerCpu

/-!
# What the subscriber gets to see

A subscriber relies on the spans it is told of: it is told of one within a span that is
open, if any, each span is entered and exited once, and closed once nothing is open within
it. Events arrive from many CPUs at once, get lost and end spans that were never opened,
but `emit` keeps to the rules as long as the subscriber gives each span an id that is not
in use. What is open is what is on the stacks, and no span is open within one of another
CPU.
-/

namespace Xbpf

namespace Tracing

open Scopes (Registry Tracks scopes)

namespace Dispatch

variable {μ : Type*}

/-- What a dispatch means for the spans of the subscriber. -/
def call : Dispatch μ → Scopes.Call SpanId
  | event parent _ _ => .use parent
  | newSpan parent _ _ id => .new parent id
  | enter id => .enter id
  | exit id => .exit id
  | tryClose id => .close id

theorem call_erase (d : Dispatch μ) : d.erase.call = d.call := by
  cases d <;> rfl

theorem map_call_leave (ids : List SpanId) :
    (ids.flatMap (leave : SpanId → List (Dispatch μ))).map call =
      ids.flatMap fun id => [.exit id, .close id] := by
  rw [List.map_flatMap]
  rfl

end Dispatch

def callsOf {μ : Type*} (ds : List (Dispatch μ)) : List (Scopes.Call SpanId) :=
  ds.map Dispatch.call

theorem callsOf_eraseAll (ds : List (Dispatch ℕ)) : callsOf (eraseAll ds) = callsOf ds := by
  rw [callsOf, eraseAll, List.map_map]
  exact List.map_congr_left fun d _ => d.call_erase

def Stack.ids (stack : Stack) : List SpanId :=
  stack.map Prod.snd

def Locals.ids (tl : Locals) (cpu : ℕ) : List SpanId :=
  (tl.stackOf cpu).ids

theorem Stack.head?_ids (stack : Stack) : stack.ids.head? = stack.top :=
  List.head?_map

theorem popUntil_append_ids (content : String) (stack : Stack) :
    (popUntil content stack).2 ++ (popUntil content stack).1.ids = stack.ids := by
  induction stack with
  | nil => rfl
  | cons span rest ih =>
      rw [popUntil]
      split
      · rfl
      · rw [List.cons_append, ih]
        rfl

/-- The thread that emits the events, and the spans of the subscriber. -/
structure Emitter where
  locals : Locals
  registry : Registry SpanId

abbrev Emitter.Tracked (s : Emitter) : Prop :=
  Tracks s.registry s.locals.ids

/-- An event is emitted. The level that the subscriber lets through can change from event to
event, and it gives a span an id that is not in use. -/
inductive Emitter.Step (crateRoot : List Char) : Emitter → Emitter → Prop
  | emit {s : Emitter} (current : LevelFilter) (event : Event) (id : SpanId) {tl ds registry}
      (hfresh : s.registry id = none)
      (hemit : Tracing.emit crateRoot current s.locals event id = some (tl, ds))
      (htold : s.registry.calls (callsOf ds) = some registry) :
      Emitter.Step crateRoot s ⟨tl, registry⟩

section Tracks

variable (crateRoot : List Char) (current : LevelFilter) {s : Emitter}

/-- What an event does to the stack of its CPU is told to the registry of the subscriber,
which goes along. -/
theorem calls_nest {stackAt : ℕ → List SpanId} {registry : Registry SpanId} {stack : Stack}
    (htracks : Tracks registry stackAt) {x : Event × SpanId}
    (hstack : stackAt x.1.cpu = stack.ids) (hfresh : registry x.2 = none) :
    ∃ registry', registry.calls (callsOf (nest current stack x).2) = some registry' ∧
      Tracks registry'
        (Function.update stackAt x.1.cpu (nest current stack x).1.ids) := by
  have htop : stack.top = (stackAt x.1.cpu).head? := by rw [hstack, Stack.head?_ids]
  have hsame : Tracks registry (Function.update stackAt x.1.cpu stack.ids) := by
    rwa [← hstack, Function.update_eq_self]
  rw [nest]
  split
  · split
    · refine ⟨registry, ?_, hsame⟩
      show (registry.call (.use stack.top)).bind _ = _
      rw [htop, htracks.call_use]
      rfl
    · exact ⟨registry, rfl, hsame⟩
  · split
    · obtain ⟨registry', hcalls, htracks'⟩ := htracks.calls_push x.1.cpu hfresh
      refine ⟨registry', ?_, ?_⟩
      · show registry.calls [.new stack.top x.2, .enter x.2] = _
        rw [htop, hcalls]
      · rw [hstack] at htracks'
        exact htracks'
    · exact ⟨registry, rfl, hsame⟩
  · rw [callsOf, Dispatch.map_call_leave]
    exact htracks.calls_popAll (hstack.trans (popUntil_append_ids x.1.content stack).symm)

/-- Every event can be emitted, whatever id that is not in use its span is given, and the
registry keeps track of the stacks. -/
theorem calls_emit (htracks : s.Tracked) (event : Event) {id : SpanId}
    (hfresh : s.registry id = none) :
    ∃ tl ds registry, emit crateRoot current s.locals event id = some (tl, ds) ∧
      s.registry.calls (callsOf ds) = some registry ∧ Tracks registry tl.ids := by
  obtain ⟨tl, ds, hemit, hown, hds, hframe⟩ := emit_spec crateRoot current s.locals event id
  obtain ⟨registry, hcalls, htracks'⟩ :=
    calls_nest current (x := (event, id)) htracks rfl hfresh
  refine ⟨tl, ds, registry, hemit, ?_, ?_⟩
  · rw [← callsOf_eraseAll, hds, hcalls]
  · have hids : tl.ids = Function.update s.locals.ids event.cpu (tl.stackOf event.cpu).ids := by
      funext cpu
      by_cases hcpu : cpu = event.cpu
      · rw [hcpu, Function.update_self]
        rfl
      · rw [Function.update_of_ne hcpu, Locals.ids, hframe cpu hcpu]
        rfl
    rw [hids, hown]
    exact htracks'

theorem Emitter.Step.tracked {s' : Emitter} (htracks : s.Tracked)
    (hstep : Emitter.Step crateRoot s s') : s'.Tracked := by
  cases hstep with
  | emit current event id hfresh hemit htold =>
      obtain ⟨tl, ds, registry, hemit', htold', htracks'⟩ :=
        calls_emit crateRoot current htracks event hfresh
      rw [hemit, Option.some_inj] at hemit'
      cases hemit'
      rw [htold, Option.some_inj] at htold'
      cases htold'
      exact htracks'

theorem tracks_init (availableParallelism : ℕ) :
    Tracks Registry.empty (Locals.init availableParallelism).ids := by
  have hids : (Locals.init availableParallelism).ids = fun _ => [] := by
    funext cpu
    rw [Locals.ids, Locals.stackOf, Locals.init, List.getD_eq_getElem?_getD,
      List.getElem?_replicate]
    split <;> rfl
  rw [hids]
  exact .empty

end Tracks

end Tracing

end Xbpf
