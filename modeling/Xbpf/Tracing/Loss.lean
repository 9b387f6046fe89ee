import Xbpf.Tracing.Arrival
import Xbpf.Tracing.PerCpu

/-!
# Lost records

A program runs on one CPU and submits a record for each macro call. A record may be lost:
it may be dropped before it gets to user space, or not decode there. `Lossy` is the state
of both sides: the spans that the program has started and not ended yet, and the thread
locals that the records that arrive are emitted with.

A span whose end was lost is `stale` until the next end arrives, which pops it, unless the
end has the name of a stale span. So the stack never outgrows the nesting of the program if
no span starts, and no end has the name of a stale span, while there is one.
-/

namespace Xbpf

namespace Tracing

open Bytes

/-- A span that a program has open. It is `shown` if its start arrived and passed the
filter of the subscriber. -/
structure OpenSpan where
  name : String
  id : SpanId
  shown : Bool

/-- The span as it was opened in user space, if it was. -/
def OpenSpan.inUserSpace (span : OpenSpan) : Option (String × SpanId) :=
  if span.shown then (Arguments.cut? span.name).map fun text => (text, span.id) else none

def shownSpans (opened : List OpenSpan) : Stack :=
  opened.filterMap OpenSpan.inUserSpace

theorem shownSpans_cons (span : OpenSpan) (rest : List OpenSpan) :
    shownSpans (span :: rest) = shownSpans [span] ++ shownSpans rest :=
  List.filterMap_append (l := [span])

theorem shownSpans_unseen (name : String) (id : SpanId) (rest : List OpenSpan) :
    shownSpans (⟨name, id, false⟩ :: rest) = shownSpans rest :=
  rfl

theorem shownSpans_started {name text : String} (htext : Arguments.cut? name = some text)
    (id : SpanId) (rest : List OpenSpan) :
    shownSpans (⟨name, id, true⟩ :: rest) = (text, id) :: shownSpans rest := by
  rw [shownSpans, List.filterMap_cons, OpenSpan.inUserSpace, if_pos rfl, htext]
  rfl

/-- What becomes of a record that is delivered or dropped. -/
def outcome (sourceLoc : Bool) (e : Endian) (args : Arguments) (mem : List UInt8)
    (delivered : Bool) : Option Event :=
  if delivered then args.received sourceLoc e mem else none

section Calls

variable (crateRoot : List Char) (current : LevelFilter)

/-- The spans that a program has open after a macro call. An end matches the innermost
one. -/
def opens (opened : List OpenSpan) (args : Arguments) (id : SpanId) (arrives : Bool) :
    Option (List OpenSpan) :=
  match args.kind with
  | .message _ => some opened
  | .startSpan lvl =>
      some (⟨args.msg, id, arrives && decide (lvl.passes current)⟩ :: opened)
  | .endSpan =>
      match opened with
      | [] => none
      | span :: rest => if span.name = args.msg then some rest else none

def deliver (tl : Locals) (event : Option Event) (id : SpanId) : Option Locals :=
  match event with
  | some event => (emit crateRoot current tl event id).map Prod.fst
  | none => some tl

variable {sourceLoc : Bool} {e : Endian} {args : Arguments} {mem : List UInt8}
  {delivered : Bool} {opened opened' : List OpenSpan} {id : SpanId}

/-- What a macro call does to the open spans of its program, and what arrives of it to the
stack of its CPU. -/
inductive Effect (opened : List OpenSpan) (stack : Stack) (args : Arguments) (id : SpanId) :
    Option Event → List OpenSpan → Stack → Prop
  | message (lvl : Level) (event : Option Event) (hkind : args.kind = .message lvl) :
      Effect opened stack args id event opened stack
  | unseen (lvl : Level) (event : Option Event) (hkind : args.kind = .startSpan lvl)
      (hnot : ¬ (event ≠ none ∧ lvl.passes current)) :
      Effect opened stack args id event (⟨args.msg, id, false⟩ :: opened) stack
  | started (lvl : Level) (event : Event) (hkind : args.kind = .startSpan lvl)
      (hpass : lvl.passes current) (htext : Arguments.cut? args.msg = some event.content) :
      Effect opened stack args id (some event) (⟨args.msg, id, true⟩ :: opened)
        ((event.content, id) :: stack)
  | ended (span : OpenSpan) (rest : List OpenSpan) (event : Event)
      (hkind : args.kind = .endSpan) (hopened : opened = span :: rest)
      (hname : span.name = args.msg) (htext : Arguments.cut? args.msg = some event.content) :
      Effect opened stack args id (some event) rest (popUntil event.content stack).1
  | lost (span : OpenSpan) (rest : List OpenSpan) (hkind : args.kind = .endSpan)
      (hopened : opened = span :: rest) (hname : span.name = args.msg) :
      Effect opened stack args id none rest stack

theorem of_outcome_eq_some {event : Event} (hmatches : args.Matches sourceLoc mem)
    (h : outcome sourceLoc e args mem delivered = some event) :
    event.kind = args.kind ∧ event.cpu = args.cpu ∧
      Arguments.cut? args.msg = some event.content := by
  rw [outcome] at h
  split at h
  · rw [Arguments.received_eq hmatches] at h
    obtain ⟨args', hcut, rfl⟩ := Option.map_eq_some_iff.mp h
    exact Arguments.of_cut_eq_some hcut
  · cases h

theorem stackOf_deliver_of_ne {event : Option Event} {tl tl' : Locals}
    (hcpu : ∀ ev, event = some ev → ev.cpu = args.cpu)
    (h : deliver crateRoot current tl event id = some tl') {k : ℕ} (hk : k ≠ args.cpu) :
    tl'.stackOf k = tl.stackOf k := by
  cases event with
  | none =>
      cases h
      rfl
  | some event =>
      obtain ⟨tl₁, ds, hemit, _, _, hother⟩ := emit_spec crateRoot current tl event id
      rw [deliver, hemit] at h
      cases h
      exact hother k (hcpu event rfl ▸ hk)

theorem opens_cases {arrives : Bool}
    (h : opens current opened args id arrives = some opened') :
    (∃ lvl, args.kind = .message lvl ∧ opened' = opened) ∨
    (∃ lvl, args.kind = .startSpan lvl ∧
      opened' = ⟨args.msg, id, arrives && decide (lvl.passes current)⟩ :: opened) ∨
    (args.kind = .endSpan ∧ ∃ span, opened = span :: opened' ∧ span.name = args.msg) := by
  unfold opens at h
  cases hkind : args.kind with
  | message lvl =>
      rw [hkind] at h
      exact .inl ⟨lvl, rfl, (Option.some.inj h).symm⟩
  | startSpan lvl =>
      rw [hkind] at h
      exact .inr (.inl ⟨lvl, rfl, (Option.some.inj h).symm⟩)
  | endSpan =>
      rw [hkind] at h
      refine .inr (.inr ⟨rfl, ?_⟩)
      cases opened with
      | nil => cases h
      | cons span rest =>
          obtain ⟨hname, heq⟩ := Option.ite_none_right_eq_some.mp h
          exact ⟨span, by rw [Option.some_inj.mp heq], hname⟩

theorem exists_effect {event : Option Event} {tl tl' : Locals}
    (hevent : ∀ ev, event = some ev → ev.kind = args.kind ∧ ev.cpu = args.cpu ∧
      Arguments.cut? args.msg = some ev.content)
    (hopens : opens current opened args id event.isSome = some opened')
    (hdeliver : deliver crateRoot current tl event id = some tl') :
    Effect current opened (tl.stackOf args.cpu) args id event opened'
      (tl'.stackOf args.cpu) := by
  cases event with
  | none =>
      cases hdeliver
      rcases opens_cases current hopens with ⟨lvl, hkind, rfl⟩ | ⟨lvl, hkind, rfl⟩ |
        ⟨hkind, span, rfl, hname⟩
      · exact .message lvl none hkind
      · exact .unseen lvl none hkind (by simp)
      · exact .lost span opened' hkind rfl hname
  | some ev =>
      obtain ⟨hevkind, hcpu, htext⟩ := hevent ev rfl
      obtain ⟨tl₁, ds, hemit, hstack, _⟩ := emit_spec crateRoot current tl ev id
      rw [deliver, hemit] at hdeliver
      cases hdeliver
      rw [← hcpu, hstack, nest, hevkind]
      rcases opens_cases current hopens with ⟨lvl, hkind, rfl⟩ | ⟨lvl, hkind, rfl⟩ |
        ⟨hkind, span, rfl, hname⟩
      · simp only [hkind]
        exact .message lvl (some ev) hkind
      · simp only [hkind]
        by_cases hpass : lvl.passes current
        · simp only [hpass, if_true, decide_true, Option.isSome_some, Bool.and_true]
          exact .started lvl ev hkind hpass htext
        · simp only [hpass, if_false, decide_false, Bool.and_false]
          exact .unseen lvl (some ev) hkind fun h => hpass h.2
      · simp only [hkind]
        exact .ended span opened' ev hkind rfl hname htext

end Calls

section Popping

variable {content : String}

/-- An end leaves no more of a part of a stack than of the whole. -/
theorem sublist_popUntil {stack stack' : Stack} (h : stack'.Sublist stack) :
    (popUntil content stack').1.Sublist (popUntil content stack).1 := by
  induction h with
  | slnil => exact .refl _
  | cons span h ih =>
      obtain ⟨name, id⟩ := span
      rw [popUntil]
      split
      · exact (popUntil_suffix content _).sublist.trans h
      · exact ih
  | cons_cons span h ih =>
      obtain ⟨name, id⟩ := span
      rw [popUntil, popUntil]
      split
      · exact h
      · exact ih

/-- Spans with other names are popped before the one that the end matches. -/
theorem popUntil_append_of_ne {inside : Stack} (h : ∀ span ∈ inside, span.1 ≠ content)
    (stack : Stack) :
    (popUntil content (inside ++ stack)).1 = (popUntil content stack).1 := by
  induction inside with
  | nil => rfl
  | cons span inside ih =>
      obtain ⟨name, id⟩ := span
      rw [List.cons_append, popUntil, if_neg (h _ List.mem_cons_self)]
      exact ih fun span hspan => h span (List.mem_cons_of_mem _ hspan)

theorem popUntil_shownSpans_sublist {span : OpenSpan} (rest : List OpenSpan)
    (htext : Arguments.cut? span.name = some content) :
    (popUntil content (shownSpans (span :: rest))).1.Sublist (shownSpans rest) := by
  rw [shownSpans, List.filterMap_cons]
  cases hshown : span.inUserSpace with
  | none => exact (popUntil_suffix content _).sublist
  | some shown =>
      rw [OpenSpan.inUserSpace, htext] at hshown
      obtain ⟨_, heq⟩ := Option.ite_none_right_eq_some.mp hshown
      cases heq
      dsimp only
      rw [popUntil_top]
      exact .refl _

end Popping

/-- A program and the thread that emits its events. -/
structure Lossy where
  opened : List OpenSpan
  next : SpanId
  tl : Locals
  /-- The spans that were shown, and have lost their end since an end last arrived. -/
  stale : Stack

namespace Lossy

def init (tl : Locals) : Lossy :=
  ⟨[], 0, tl, []⟩

def staleAfter (s : Lossy) (args : Arguments) (arrives : Bool) : Stack :=
  match args.kind with
  | .endSpan => if arrives then [] else s.stale ++ shownSpans (s.opened.take 1)
  | _ => s.stale

section Steps

variable (crateRoot : List Char) (current : LevelFilter)

/-- A macro call, and what arrives of it. -/
def submit (s : Lossy) (args : Arguments) (event : Option Event) : Option Lossy := do
  let opened ← opens current s.opened args s.next event.isSome
  let tl ← deliver crateRoot current s.tl event s.next
  some ⟨opened, s.next + 1, tl, s.staleAfter args event.isSome⟩

/-- No span starts while one is stale, and no end has the name of a stale span. Calls that
do not arrive and starts that are filtered out don't count. -/
structure Clears (s : Lossy) (args : Arguments) (event : Option Event) : Prop where
  start : ∀ lvl, args.kind = .startSpan lvl → lvl.passes current → event ≠ none → s.stale = []
  stop : ∀ ev, args.kind = .endSpan → event = some ev → ∀ span ∈ s.stale, span.1 ≠ ev.content

variable (sourceLoc : Bool) (e : Endian) (cpu d : ℕ)

/-- A macro call on the CPU that keeps the nesting depth within `d`, of which `event`
arrives if its record is not dropped. -/
def Calls (args : Arguments) (event : Option Event) (s s' : Lossy) : Prop :=
  ∃ mem delivered, args.cpu = cpu ∧ args.Matches sourceLoc mem ∧
    event = outcome sourceLoc e args mem delivered ∧
    s.submit crateRoot current args event = some s' ∧ s'.opened.length ≤ d

def Step (s s' : Lossy) : Prop :=
  ∃ args event, Calls crateRoot current sourceLoc e cpu d args event s s'

/-- A step that meets no stale span. -/
def ClearStep (s s' : Lossy) : Prop :=
  ∃ args event, Calls crateRoot current sourceLoc e cpu d args event s s' ∧
    s.Clears current args event

/-- A step that meets no stale span in which an end arrives. -/
def ClearEnd (s s' : Lossy) : Prop :=
  ∃ args event, Calls crateRoot current sourceLoc e cpu d args event s s' ∧
    s.Clears current args event ∧ args.kind = .endSpan ∧ event ≠ none

end Steps

section Invariant

variable {crateRoot : List Char} {current : LevelFilter} {sourceLoc : Bool} {e : Endian}
  {cpu d : ℕ} {s s' : Lossy} {args : Arguments} {event : Option Event}

/-- The spans on the stack of the CPU are stale or open in the program, and these are
within the bound. -/
structure Bounded (cpu d : ℕ) (s : Lossy) : Prop where
  sublist : (s.tl.stackOf cpu).Sublist (s.stale ++ shownSpans s.opened)
  length_le : (s.stale ++ shownSpans s.opened).length ≤ d

theorem Calls.effect (h : Calls crateRoot current sourceLoc e cpu d args event s s') :
    args.cpu = cpu ∧ s'.opened.length ≤ d ∧
      s'.stale = s.staleAfter args event.isSome ∧
      Effect current s.opened (s.tl.stackOf cpu) args s.next event s'.opened
        (s'.tl.stackOf cpu) := by
  obtain ⟨mem, delivered, rfl, hmatches, hevent, hsubmit, hdepth⟩ := h
  obtain ⟨opened, hopens, hsubmit⟩ := Option.bind_eq_some_iff.mp hsubmit
  obtain ⟨tl, hdeliver, hsubmit⟩ := Option.bind_eq_some_iff.mp hsubmit
  cases hsubmit
  refine ⟨rfl, hdepth, rfl, exists_effect crateRoot current ?_ hopens hdeliver⟩
  rintro ev rfl
  exact of_outcome_eq_some hmatches hevent.symm

/-- Spans that start on a stack without stale ones are as many as in the program, and an end
leaves no stale span. -/
theorem Bounded.of_effect {opened' : List OpenSpan} {stack' : Stack}
    (heffect : Effect current s.opened (s.tl.stackOf cpu) args s.next event opened' stack')
    (h : s.Bounded cpu d) (hclears : s.Clears current args event) (hdepth : opened'.length ≤ d) :
    stack'.Sublist (s.staleAfter args event.isSome ++ shownSpans opened') ∧
      (s.staleAfter args event.isSome ++ shownSpans opened').length ≤ d := by
  obtain ⟨hsublist, hlength⟩ := h
  rw [staleAfter]
  cases heffect with
  | message lvl _ hkind =>
      simp only [hkind]
      exact ⟨hsublist, hlength⟩
  | unseen lvl _ hkind _ =>
      simp only [hkind]
      exact ⟨hsublist, hlength⟩
  | started lvl event hkind hpass htext =>
      simp only [hkind]
      have hstale := hclears.start lvl hkind hpass (by simp)
      rw [hstale, List.nil_append] at hsublist ⊢
      refine ⟨?_, (List.length_filterMap_le _ _).trans hdepth⟩
      rw [shownSpans_started htext]
      exact hsublist.cons_cons _
  | ended span rest event hkind hopened hname htext =>
      have hrest : (popUntil event.content (s.tl.stackOf cpu)).1.Sublist
          (shownSpans opened') := by
        refine (sublist_popUntil hsublist).trans ?_
        rw [popUntil_append_of_ne (hclears.stop event hkind rfl), hopened]
        exact popUntil_shownSpans_sublist opened' (hname ▸ htext)
      simp only [hkind, Option.isSome_some, if_true, List.nil_append]
      exact ⟨hrest, (List.length_filterMap_le _ _).trans hdepth⟩
  | lost span rest hkind hopened hname =>
      -- the span moves from those that are open to those that are stale
      have hmoved : s.stale ++ shownSpans (s.opened.take 1) ++ shownSpans opened' =
          s.stale ++ shownSpans s.opened := by
        rw [hopened, List.append_assoc, shownSpans, shownSpans, ← List.filterMap_append]
        rfl
      simp only [hkind, Option.isSome_none, Bool.false_eq_true, if_false, hmoved]
      exact ⟨hsublist, hlength⟩

theorem Bounded.step (h : s.Bounded cpu d)
    (hstep : ClearStep crateRoot current sourceLoc e cpu d s s') : s'.Bounded cpu d := by
  obtain ⟨args, event, hcalls, hclears⟩ := hstep
  obtain ⟨_, hdepth, hstale, heffect⟩ := hcalls.effect
  obtain ⟨hsublist, hlength⟩ := Bounded.of_effect heffect h hclears hdepth
  exact ⟨hstale ▸ hsublist, hstale ▸ hlength⟩

theorem stale_of_clearEnd (h : ClearEnd crateRoot current sourceLoc e cpu d s s') :
    ClearStep crateRoot current sourceLoc e cpu d s s' ∧ s'.stale = [] := by
  obtain ⟨args, event, hcalls, hclears, hkind, hevent⟩ := h
  refine ⟨⟨args, event, hcalls, hclears⟩, ?_⟩
  obtain ⟨ev, rfl⟩ := Option.ne_none_iff_exists'.mp hevent
  rw [hcalls.effect.2.2.1, staleAfter, hkind]
  rfl

end Invariant

section Run

variable (crateRoot : List Char) (current : LevelFilter) (sourceLoc : Bool) (e : Endian)
  (cpu d : ℕ)

/-- If no span starts while one is stale, and no end that arrives has the name of a stale
span, the stack never outgrows the nesting depth of the program. A span on it that the
program has ended is one that has lost its end since an end last arrived, so none is left
when the next end arrives. -/
theorem length_stackOf_le (tl : Locals) (hempty : tl.stackOf cpu = []) (s : Lossy)
    (hrun : Relation.ReflTransGen (ClearStep crateRoot current sourceLoc e cpu d) (init tl) s) :
    (s.tl.stackOf cpu).length ≤ d ∧
      (s.tl.stackOf cpu).Sublist (s.stale ++ shownSpans s.opened) ∧
      ∀ s', ClearEnd crateRoot current sourceLoc e cpu d s s' →
        (s'.tl.stackOf cpu).Sublist (shownSpans s'.opened) := by
  have hinit : (init tl).Bounded cpu d := by
    constructor <;> simp [init, hempty, shownSpans]
  have hsteps : ∀ s s', s.Bounded cpu d →
      ClearStep crateRoot current sourceLoc e cpu d s s' → s'.Bounded cpu d :=
    fun _ _ h hstep => h.step hstep
  have hbounded : s.Bounded cpu d := Runs.invariant hsteps hinit hrun
  refine ⟨hbounded.sublist.length_le.trans hbounded.length_le, hbounded.sublist, ?_⟩
  intro s' hend
  obtain ⟨hstep, hstale⟩ := stale_of_clearEnd hend
  have hsublist := (hbounded.step hstep).sublist
  rwa [hstale, List.nil_append] at hsublist

end Run

def spanCall (kind : Kind) (name : String) : Arguments :=
  ⟨kind, 0, name, none⟩

def shortEvent (args : Arguments) (delivered : Bool) : Option Event :=
  if delivered then some args.event else none

section Short

variable {kind : Kind} {name : String}

theorem matches_spanCall (hname : name.utf8ByteSize ≤ 127 ∧ 0 ∉ ofText name) :
    (spanCall kind name).Matches false (List.replicate (spanCall kind name).size 0) :=
  ⟨⟨Nat.two_pow_pos 16, hname.2, by simp [spanCall]⟩, by simp, List.length_replicate⟩

theorem outcome_spanCall (hname : name.utf8ByteSize ≤ 127 ∧ 0 ∉ ofText name)
    (delivered : Bool) :
    outcome false .little (spanCall kind name) (List.replicate (spanCall kind name).size 0)
      delivered = shortEvent (spanCall kind name) delivered := by
  have hcut : (spanCall kind name).cut = some (spanCall kind name) := by
    rw [Arguments.cut, spanCall, Arguments.cut?_of_le hname.1]
    rfl
  rw [outcome, Arguments.received_eq (matches_spanCall hname), hcut]
  rfl

theorem calls_spanCall {s s' : Lossy} {d : ℕ} (delivered : Bool)
    (hname : name.utf8ByteSize ≤ 127 ∧ 0 ∉ ofText name)
    (hsubmit : s.submit [] (.upTo .trace) (spanCall kind name)
      (shortEvent (spanCall kind name) delivered) = some s')
    (hdepth : s'.opened.length ≤ d) :
    Calls [] (.upTo .trace) false .little 0 d (spanCall kind name)
      (shortEvent (spanCall kind name) delivered) s s' :=
  ⟨_, delivered, rfl, matches_spanCall hname, (outcome_spanCall hname delivered).symm, hsubmit,
    hdepth⟩

end Short

theorem short_names : ∀ name ∈ ["a", "b"], name.utf8ByteSize ≤ 127 ∧ 0 ∉ ofText name := by
  decide +kernel

section Clears

variable {s : Lossy} {lvl : Level} {name : String} {event : Option Event}

theorem clears_startSpan (h : s.stale = []) :
    s.Clears (.upTo .trace) (spanCall (.startSpan lvl) name) event :=
  ⟨fun _ _ _ _ => h, fun _ hkind _ => absurd hkind (by simp [spanCall])⟩

theorem clears_endSpan (h : ∀ ev, event = some ev → ∀ span ∈ s.stale, span.1 ≠ ev.content) :
    s.Clears (.upTo .trace) (spanCall .endSpan name) event :=
  ⟨fun _ hkind => absurd hkind (by simp [spanCall]), fun ev _ => h ev⟩

end Clears

/-- The end of the inner one of two spans is lost, and the end of the outer one closes
both. -/
theorem length_stackOf_le_two :
    ∃ s s' : Lossy,
      Relation.ReflTransGen (ClearStep [] (.upTo .trace) false .little 0 2) (init (.init 1)) s ∧
      s.stale = [("b", 1)] ∧ s.tl.stackOf 0 = [("b", 1), ("a", 0)] ∧
      (s.tl.stackOf 0).length ≤ 2 ∧
      (s.tl.stackOf 0).Sublist (s.stale ++ shownSpans s.opened) ∧
      s'.tl.stackOf 0 = [] ∧ (s'.tl.stackOf 0).Sublist (shownSpans s'.opened) := by
  obtain ⟨s, s', hrun, hend, hstale, hstack, hstack'⟩ : ∃ s s' : Lossy,
      Relation.ReflTransGen (ClearStep [] (.upTo .trace) false .little 0 2) (init (.init 1)) s ∧
        ClearEnd [] (.upTo .trace) false .little 0 2 s s' ∧ s.stale = [("b", 1)] ∧
        s.tl.stackOf 0 = [("b", 1), ("a", 0)] ∧ s'.tl.stackOf 0 = [] := by
    refine ⟨_, _, ((Relation.ReflTransGen.single
      ⟨spanCall (.startSpan .info) "a", _,
        calls_spanCall true (short_names _ (by simp)) rfl ?_, clears_startSpan rfl⟩).tail
      ⟨spanCall (.startSpan .info) "b", _,
        calls_spanCall true (short_names _ (by simp)) rfl ?_, clears_startSpan rfl⟩).tail
      ⟨spanCall .endSpan "b", _,
        calls_spanCall false (short_names _ (by simp)) rfl ?_, clears_endSpan nofun⟩,
      ⟨spanCall .endSpan "a", _,
        calls_spanCall true (short_names _ (by simp)) rfl ?_, clears_endSpan ?_, rfl, nofun⟩,
      ?_, ?_, ?_⟩
    · decide
    · decide
    · decide
    · decide
    · rintro _ ⟨⟩
      decide
    · decide
    · decide
    · decide
  obtain ⟨hlength, hsublist, hends⟩ :=
    length_stackOf_le [] (.upTo .trace) false .little 0 2 (.init 1) rfl s hrun
  exact ⟨s, s', hrun, hstale, hstack, hlength, hsublist, hstack', hends s' hend⟩

/-- Two spans that follow each other are open at once if the first one loses its
end. -/
theorem exists_length_stackOf_gt :
    ∃ s, Relation.ReflTransGen (Step [] (.upTo .trace) false .little 0 1) (init (.init 1)) s ∧
      1 < (s.tl.stackOf 0).length := by
  refine ⟨_, ((Relation.ReflTransGen.single
    ⟨spanCall (.startSpan .info) "a", _, calls_spanCall true (short_names _ (by simp)) rfl ?_⟩).tail
    ⟨spanCall .endSpan "a", _, calls_spanCall false (short_names _ (by simp)) rfl ?_⟩).tail
    ⟨spanCall (.startSpan .info) "b", _, calls_spanCall true (short_names _ (by simp)) rfl ?_⟩, ?_⟩
  · decide
  · decide
  · decide
  · decide

end Lossy

end Tracing

end Xbpf
