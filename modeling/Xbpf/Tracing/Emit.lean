import Xbpf.Runs.Machine
import Xbpf.Tracing.Callsite

/-!
# Emitting an event

The open spans are a stack for each CPU, which `emit` finds in its thread
locals. It is told the most verbose level that the subscriber lets through and
the id that the subscriber would give to a span, and returns what the subscriber
is told. It panics where an index is out of range or an event has no callsite,
which never happens: `emit` acts as `nest` does on the stack of the CPU of the
event, and leaves the other stacks alone.
-/

namespace Xbpf

namespace Tracing

abbrev SpanId := ℕ

/-- The open spans of a CPU along with their names, innermost first. -/
abbrev Stack := List (String × SpanId)

/-- What a subscriber is told, with references to metadata in `μ`. -/
inductive Dispatch (μ : Type*)
  | event (parent : Option SpanId) (metadata : μ) (message : String)
  | newSpan (parent : Option SpanId) (metadata : μ) (message : String) (id : SpanId)
  | enter (id : SpanId)
  | exit (id : SpanId)
  | tryClose (id : SpanId)
  deriving DecidableEq, Repr

namespace Dispatch

variable {μ : Type*}

def erase : Dispatch μ → Dispatch Unit
  | event parent _ message => .event parent () message
  | newSpan parent _ message id => .newSpan parent () message id
  | enter id => .enter id
  | exit id => .exit id
  | tryClose id => .tryClose id

def leave (id : SpanId) : List (Dispatch μ) :=
  [.exit id, .tryClose id]

theorem map_erase_leave (id : SpanId) :
    (leave id : List (Dispatch μ)).map erase = leave id :=
  rfl

end Dispatch

structure Locals where
  callsites : Callsites
  spans : List Stack

def Locals.init (availableParallelism : ℕ) : Locals :=
  ⟨⟨[], []⟩, List.replicate availableParallelism []⟩

def resizeWith (spans : List Stack) (n : ℕ) : List Stack :=
  spans.take n ++ List.replicate (n - spans.length) []

def Stack.top (stack : Stack) : Option SpanId :=
  stack.head?.map Prod.snd

/-- Pops spans up to one with the given name, and returns what is left along
with the spans popped. -/
def popUntil (content : String) : Stack → Stack × List SpanId
  | [] => ([], [])
  | (n, id) :: rest =>
      if n = content then (rest, [id])
      else ((popUntil content rest).1, id :: (popUntil content rest).2)

/-- Emits an event, nested in the spans that are open on the CPU it came from. -/
def emit (crateRoot : List Char) (current : LevelFilter) (tl : Locals)
    (event : Event) (id : SpanId) : Option (Locals × List (Dispatch ℕ)) :=
  let cpu := event.cpu
  let spans :=
    if tl.spans.length ≤ cpu then resizeWith tl.spans (cpu + 1) else tl.spans
  match event.kind with
  | .message lvl =>
      if lvl.passes current then do
        let key ← event.callsiteKey.toOption
        let (callsites, metadata) := getCallsite crateRoot tl.callsites key
        let parent := (← spans[cpu]?).top
        some (⟨callsites, spans⟩, [.event parent metadata event.content])
      else some (⟨tl.callsites, spans⟩, [])
  | .startSpan lvl =>
      if lvl.passes current then do
        let key ← event.callsiteKey.toOption
        let (callsites, metadata) := getCallsite crateRoot tl.callsites key
        let stack ← spans[cpu]?
        let parent := stack.top
        some (⟨callsites, spans.set cpu ((event.content, id) :: stack)⟩,
          [.newSpan parent metadata event.content id, .enter id])
      else some (⟨tl.callsites, spans⟩, [])
  | .endSpan => do
      let (rest, popped) := popUntil event.content (← spans[cpu]?)
      some (⟨tl.callsites, spans.set cpu rest⟩, popped.flatMap Dispatch.leave)

/-- The open spans of a CPU, none if the vector has no stack for it. -/
def Locals.stackOf (tl : Locals) (cpu : ℕ) : Stack :=
  tl.spans.getD cpu []

/-- What an event does to the stack of its own CPU. -/
def nest (current : LevelFilter) (stack : Stack) (x : Event × SpanId) :
    Stack × List (Dispatch Unit) :=
  match x.1.kind with
  | .message lvl =>
      (stack, if lvl.passes current then [.event stack.top () x.1.content] else [])
  | .startSpan lvl =>
      if lvl.passes current then
        ((x.1.content, x.2) :: stack,
          [.newSpan stack.top () x.1.content x.2, .enter x.2])
      else (stack, [])
  | .endSpan =>
      ((popUntil x.1.content stack).1,
        (popUntil x.1.content stack).2.flatMap Dispatch.leave)

section Pop

variable (content : String)

theorem popUntil_suffix (stack : Stack) : (popUntil content stack).1 <:+ stack := by
  induction stack with
  | nil => exact List.suffix_rfl
  | cons span rest ih =>
      rw [popUntil]
      split
      · exact List.suffix_cons span rest
      · exact ih.trans (List.suffix_cons span rest)

/-- An end pops at least one span, unless none is open. -/
theorem length_popUntil_lt {stack : Stack} (h : stack ≠ []) :
    (popUntil content stack).1.length < stack.length := by
  cases stack with
  | nil => exact absurd rfl h
  | cons span rest =>
      rw [popUntil, List.length_cons, Nat.lt_succ_iff]
      split
      · exact Nat.le_refl _
      · exact (popUntil_suffix content rest).length_le

theorem popUntil_top (id : SpanId) (stack : Stack) :
    (popUntil content ((content, id) :: stack)).1 = stack := by
  simp [popUntil]

end Pop

section Grow

variable (spans : List Stack) (cpu : ℕ)

def grown : List Stack :=
  if spans.length ≤ cpu then resizeWith spans (cpu + 1) else spans

theorem lt_length_grown : cpu < (grown spans cpu).length := by
  unfold grown resizeWith
  split
  · rw [List.length_append, List.length_replicate, List.length_take]
    omega
  · omega

theorem getD_grown (k : ℕ) : (grown spans cpu).getD k [] = spans.getD k [] := by
  unfold grown resizeWith
  split
  · rename_i hle
    rw [List.take_of_length_le (by omega), List.getD_eq_getElem?_getD,
      List.getD_eq_getElem?_getD, List.getElem?_append]
    split
    · rfl
    · rename_i hlen
      rw [List.getElem?_eq_none (Nat.le_of_not_lt hlen), List.getElem?_replicate]
      split <;> rfl
  · rfl

theorem getElem?_grown {k : ℕ} (h : k < spans.length) :
    (grown spans cpu)[k]? = spans[k]? := by
  unfold grown resizeWith
  split
  · rw [List.take_of_length_le (by omega), List.getElem?_append_left h]
  · rfl

theorem getElem?_grown_self : (grown spans cpu)[cpu]? = some (spans.getD cpu []) := by
  rw [← getD_grown spans cpu cpu, List.getD_eq_getElem?_getD,
    List.getElem?_eq_getElem (lt_length_grown spans cpu)]
  rfl

theorem getD_set_grown_self (stack : Stack) :
    ((grown spans cpu).set cpu stack).getD cpu [] = stack := by
  rw [List.getD_eq_getElem?_getD, List.getElem?_set_self (lt_length_grown spans cpu)]
  rfl

theorem getD_set_grown_of_ne (stack : Stack) {k : ℕ} (h : k ≠ cpu) :
    ((grown spans cpu).set cpu stack).getD k [] = spans.getD k [] := by
  rw [← getD_grown spans cpu k, List.getD_eq_getElem?_getD,
    List.getElem?_set_ne fun hk => h hk.symm, ← List.getD_eq_getElem?_getD]

end Grow

theorem callsiteKey_eq_ok {event : Event} (h : event.kind ≠ .endSpan) :
    ∃ key, event.callsiteKey = .ok key := by
  unfold Event.callsiteKey
  split
  · exact ⟨_, rfl⟩
  · rename_i hkind
    exact absurd hkind h
  · exact ⟨_, rfl⟩

end Tracing

end Xbpf
