import Xbpf.Tracing.PerCpu

/-!
# Ends without a start, and spans without an end

An end is meant to close the innermost span of its name, along with what was
opened inside it. If its name is not on the stack, there is no such span, but
`emit` pops the stack until it is empty, so nothing stays open.

If the name is on the stack, spans that lack their end do no harm. `Opens`
describes a sequence of events whose ends all match a span that the sequence
itself opened. Such a sequence acts on the part of the stack that it opened, and
the end of a span around it pops exactly what it left open.
-/

namespace Xbpf

namespace Tracing

open Runs

section Popping

variable {content : String}

theorem popUntil_of_notMem {stack : Stack} (h : ∀ span ∈ stack, span.1 ≠ content) :
    popUntil content stack = ([], stack.map Prod.snd) := by
  induction stack with
  | nil => rfl
  | cons span rest ih =>
      have hrest := ih fun s hs => h s (List.mem_cons_of_mem span hs)
      rw [popUntil, if_neg (h span List.mem_cons_self), hrest]
      rfl

/-- The innermost span of the name is popped, and what is inside it before. -/
theorem popUntil_append {inside : Stack} (h : ∀ span ∈ inside, span.1 ≠ content)
    (id : SpanId) (rest : Stack) :
    popUntil content (inside ++ (content, id) :: rest) =
      (rest, inside.map Prod.snd ++ [id]) := by
  induction inside with
  | nil => simp [popUntil]
  | cons span inside ih =>
      have hrest := ih fun s hs => h s (List.mem_cons_of_mem span hs)
      rw [List.cons_append, popUntil, if_neg (h span List.mem_cons_self), hrest]
      rfl

end Popping

section Ignoring

variable (crateRoot : List Char) (current : LevelFilter)

def LeavesOpen (tl : Locals) (event : Event) (id : SpanId) : Prop :=
  ∃ tl' ds, emit crateRoot current tl event id = some (tl', ds) ∧ ds = [] ∧
    ∀ cpu, tl'.stackOf cpu = tl.stackOf cpu

/-- An end whose name is not on the stack of its CPU leaves every span open
exactly if no span is open on the CPU. -/
theorem leavesOpen_iff (tl : Locals) (event : Event) (hkind : event.kind = .endSpan)
    (hnot : ∀ span ∈ tl.stackOf event.cpu, span.1 ≠ event.content) (id : SpanId) :
    LeavesOpen crateRoot current tl event id ↔ tl.stackOf event.cpu = [] := by
  have hpop := popUntil_of_notMem hnot
  constructor
  · rintro ⟨tl', ds, hemit', _, hsame⟩
    obtain ⟨_, _, hspec, hstack, _⟩ := emit_spec crateRoot current tl event id
    rw [hemit', Option.some_inj] at hspec
    cases hspec
    rw [nest, hkind] at hstack
    rw [← hsame, hstack, hpop]
  · intro hempty
    obtain ⟨tl', ds, hspec, hstack, _, hframe⟩ := emit_spec crateRoot current tl event id
    refine ⟨tl', ds, hspec, ?_, ?_⟩
    · rw [emit_endSpan crateRoot tl hkind id, hempty, Option.some_inj] at hspec
      cases hspec
      rfl
    · intro cpu
      by_cases hcpu : cpu = event.cpu
      · rw [hcpu, hstack, nest, hkind, hempty]
        rfl
      · exact hframe cpu hcpu

end Ignoring

def spanEvent (kind : Kind) (name : String) : Event :=
  ⟨kind, name, 0, none, none⟩

/-- A span of the name is open, but on another CPU, which also has another one open. -/
theorem leavesOpen_otherCpu :
    ∃ tl ds, emitAll [] (.upTo .trace) (.init 1)
        [(⟨.startSpan .info, "a", 1, none, none⟩, 0), (⟨.startSpan .info, "b", 1, none, none⟩, 1)] =
          some (tl, ds) ∧
      tl.stackOf 1 = [("b", 1), ("a", 0)] ∧
      LeavesOpen [] (.upTo .trace) tl (spanEvent .endSpan "b") 2 :=
  ⟨_, _, rfl, rfl,
    (leavesOpen_iff [] (.upTo .trace) _ (spanEvent .endSpan "b") rfl (by decide) 2).mpr rfl⟩

/-- The end of a span that was never started closes the one that is open. -/
theorem not_leavesOpen_unrelated :
    ¬ ∀ (crateRoot : List Char) (current : LevelFilter) (n : ℕ)
      (xs : List (Event × SpanId)) (tl : Locals) (ds : List (List (Dispatch ℕ)))
      (event : Event) (id : SpanId),
      emitAll crateRoot current (.init n) xs = some (tl, ds) → event.kind = .endSpan →
        (∀ span ∈ tl.stackOf event.cpu, span.1 ≠ event.content) →
          LeavesOpen crateRoot current tl event id := by
  intro h
  obtain ⟨tl', ds, hemit, hds, _⟩ := h [] (.upTo .trace) 1
    [(spanEvent (.startSpan .info) "a", 0)] _ _ (spanEvent .endSpan "b") 1 rfl rfl (by decide)
  cases hemit
  cases hds

/-- The innermost of some open spans, or the one around them. -/
def innermost (around : SpanId) (opened : Stack) : SpanId :=
  opened.top.getD around

def closed (spans : Stack) : List (Dispatch Unit) :=
  (spans.map Prod.snd).flatMap Dispatch.leave

/-- Events inside the span `around` that all pass the level filter and whose ends
all match a span that the events opened before. They start with the spans `opened`
of their own and leave the spans `left`. -/
inductive Opens (current : LevelFilter) (around : SpanId) :
    Stack → List (Event × SpanId) → List (List (Dispatch Unit)) → Stack → Prop
  | nil (opened) : Opens current around opened [] [] opened
  | message {opened left x xs told lvl} (hkind : x.1.kind = .message lvl)
      (hpass : lvl.passes current) (h : Opens current around opened xs told left) :
      Opens current around opened (x :: xs)
        ([.event (some (innermost around opened)) () x.1.content] :: told) left
  | startSpan {opened left x xs told lvl} (hkind : x.1.kind = .startSpan lvl)
      (hpass : lvl.passes current)
      (h : Opens current around ((x.1.content, x.2) :: opened) xs told left) :
      Opens current around opened (x :: xs)
        ([.newSpan (some (innermost around opened)) () x.1.content x.2, .enter x.2] :: told)
        left
  | endSpan {inside rest left x xs told id} (hkind : x.1.kind = .endSpan)
      (hinside : ∀ span ∈ inside, span.1 ≠ x.1.content)
      (h : Opens current around rest xs told left) :
      Opens current around (inside ++ (x.1.content, id) :: rest) (x :: xs)
        (closed (inside ++ [(x.1.content, id)]) :: told) left

namespace Opens

variable {current : LevelFilter} {around : SpanId} {opened left : Stack}
  {xs ys : List (Event × SpanId)} {told : List (List (Dispatch Unit))}

theorem top_append (opened : Stack) (name : String) (around : SpanId) (stack : Stack) :
    Stack.top (opened ++ (name, around) :: stack) = some (innermost around opened) := by
  cases opened <;> rfl

/-- The events only touch the spans they opened themselves. -/
theorem run_nest (h : Opens current around opened xs told left) (name : String)
    (stack : Stack) :
    run (nest current) (opened ++ (name, around) :: stack) xs =
      (left ++ (name, around) :: stack, told) := by
  induction h with
  | nil opened => rfl
  | @message opened left x xs told lvl hkind hpass _ ih =>
      rw [run_cons]
      simp only [nest, hkind, hpass, if_true, top_append, ih]
  | @startSpan opened left x xs told lvl hkind hpass _ ih =>
      rw [run_cons]
      simp only [nest, hkind, hpass, if_true, top_append]
      rw [← List.cons_append, ih]
  | @endSpan inside rest left x xs told id hkind hinside _ ih =>
      have hpop := popUntil_append hinside id (rest ++ (name, around) :: stack)
      rw [run_cons]
      simp only [nest, hkind, List.append_assoc, List.cons_append, hpop, ih, closed,
        List.map_append, List.map_cons, List.map_nil]

theorem exists_of_append (h : Opens current around opened (xs ++ ys) told left) :
    ∃ told' mid, Opens current around opened xs told' mid := by
  induction xs generalizing opened told with
  | nil => exact ⟨[], opened, .nil opened⟩
  | cons x xs ih =>
      cases h with
      | message hkind hpass h =>
          obtain ⟨told', mid, hmid⟩ := ih h
          exact ⟨_, mid, .message hkind hpass hmid⟩
      | startSpan hkind hpass h =>
          obtain ⟨told', mid, hmid⟩ := ih h
          exact ⟨_, mid, .startSpan hkind hpass hmid⟩
      | endSpan hkind hinside h =>
          obtain ⟨told', mid, hmid⟩ := ih h
          exact ⟨_, mid, .endSpan hkind hinside hmid⟩

end Opens

section Recovering

variable (crateRoot : List Char) (current : LevelFilter) (cpu : ℕ)
  (start stop : Event × SpanId) {lvl : Level} {xs : List (Event × SpanId)}
  {told : List (List (Dispatch Unit))} {left : Stack}

/-- The end of a span closes it along with what the events inside it left open, and
brings the stack back to what it was. Nothing below the span is popped before, and
what the subscriber is told is only about the spans of these events. -/
theorem recovers (tl : Locals) (hcpu : ∀ x ∈ start :: xs ++ [stop], x.1.cpu = cpu)
    (hstart : start.1.kind = .startSpan lvl) (hpass : lvl.passes current)
    (h : Opens current start.2 [] xs told left)
    (hleft : ∀ span ∈ left, span.1 ≠ start.1.content)
    (hstop : stop.1.kind = .endSpan) (hname : stop.1.content = start.1.content) :
    (∃ tl' ds, emitAll crateRoot current tl (start :: xs ++ [stop]) = some (tl', ds) ∧
      tl'.stackOf cpu = tl.stackOf cpu ∧
      ds.map eraseAll =
        [.newSpan (tl.stackOf cpu).top () start.1.content start.2, .enter start.2] ::
          told ++ [closed (left ++ [(start.1.content, start.2)])]) ∧
    ∀ before after, xs = before ++ after → ∃ tl' ds opened,
      emitAll crateRoot current tl (start :: before) = some (tl', ds) ∧
        tl'.stackOf cpu = opened ++ (start.1.content, start.2) :: tl.stackOf cpu := by
  have hfirst : nest current (tl.stackOf cpu) start =
      ((start.1.content, start.2) :: tl.stackOf cpu,
        [.newSpan (tl.stackOf cpu).top () start.1.content start.2, .enter start.2]) := by
    rw [nest, hstart]
    simp only [hpass, if_true]
  constructor
  · obtain ⟨tl', ds, hrun, hown⟩ := emitAll_of_cpu crateRoot current hcpu tl
    have hinside := h.run_nest start.1.content (tl.stackOf cpu)
    have hpop := popUntil_append hleft start.2 (tl.stackOf cpu)
    rw [List.nil_append] at hinside
    rw [List.cons_append, run_cons, hfirst, run_append, hinside, run_cons, run_nil, nest,
      hstop, hname] at hown
    simp only [hpop, Prod.mk.injEq] at hown
    refine ⟨tl', ds, hrun, hown.1.symm, ?_⟩
    rw [← hown.2, closed, List.map_append]
    rfl
  · rintro before after rfl
    obtain ⟨told', opened, hbefore⟩ := h.exists_of_append
    have hcpu' : ∀ x ∈ start :: before, x.1.cpu = cpu := by
      intro x hx
      refine hcpu x ?_
      rw [← List.cons_append, List.append_assoc]
      exact List.mem_append_left _ hx
    obtain ⟨tl', ds, hrun, hown⟩ := emitAll_of_cpu crateRoot current hcpu' tl
    have hinside := hbefore.run_nest start.1.content (tl.stackOf cpu)
    rw [List.nil_append] at hinside
    rw [run_cons, hfirst, hinside, Prod.mk.injEq] at hown
    exact ⟨tl', ds, opened, hrun, hown.1.symm⟩

end Recovering

/-- A span whose end is lost, in one whose end is not. -/
theorem recovers_lostEnd :
    ∃ tl ds, emitAll [] (.upTo .trace) (.init 1)
        [(spanEvent (.startSpan .info) "a", 0), (spanEvent (.startSpan .info) "b", 1),
          (spanEvent .endSpan "a", 2)] = some (tl, ds) ∧
      tl.stackOf 0 = [] := by
  have hopens : Opens (.upTo .trace) 0 [] [(spanEvent (.startSpan .info) "b", 1)]
      [[.newSpan (some 0) () "b" 1, .enter 1]] [("b", 1)] :=
    .startSpan rfl (show Level.info.passes (.upTo .trace) by decide) (.nil _)
  obtain ⟨tl, ds, hrun, hstack, _⟩ := (recovers [] (.upTo .trace) 0
    (spanEvent (.startSpan .info) "a", 0) (spanEvent .endSpan "a", 2) (.init 1)
    (by decide) rfl (show Level.info.passes (.upTo .trace) by decide) hopens
    (by decide) rfl rfl).1
  exact ⟨tl, ds, hrun, hstack⟩

end Tracing

end Xbpf
