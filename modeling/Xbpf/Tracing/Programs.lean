import Mathlib.Algebra.BigOperators.Group.Finset.Basic
import Mathlib.Data.Fintype.Basic
import Xbpf.Tracing.Loss

/-!
# Programs that share a CPU

Programs interrupt each other on a CPU, each with open spans of its own, but their events
are emitted with one stack for the CPU. Records may be lost, and the subscriber may let
through other levels at any time.

Every span on the stack is accounted for by a span that some program on the CPU has open,
or by an end that was lost. If no end was lost, and no two programs use the same name, the
spans on the stack are open in their programs, and are as deeply nested as there.
-/

namespace Xbpf

namespace Tracing

def Stack.named (stack : Stack) (name : String) : ℕ :=
  (stack.map Prod.fst).count name

namespace Stack

variable {name content : String} {stack stack' : Stack}

@[simp] theorem named_cons (id : SpanId) :
    named ((content, id) :: stack) name = stack.named name + if content = name then 1 else 0 := by
  simp [named, List.count_cons]

theorem named_le (h : stack'.Sublist stack) : stack'.named name ≤ stack.named name :=
  (h.map Prod.fst).count_le name

theorem named_popUntil (content : String) (stack : Stack) :
    named (popUntil content stack).1 content = stack.named content - 1 := by
  induction stack with
  | nil => rfl
  | cons span rest ih =>
      obtain ⟨n, id⟩ := span
      rw [popUntil, named_cons]
      split
      · rfl
      · exact ih

/-- Spans with other names do not matter to an end. -/
theorem filter_popUntil (own : String → Bool) (hown : own content = true) (stack : Stack) :
    (popUntil content stack).1.filter (fun span => own span.1) =
      (popUntil content (stack.filter fun span => own span.1)).1 := by
  induction stack with
  | nil => rfl
  | cons span rest ih =>
      obtain ⟨n, id⟩ := span
      by_cases hn : n = content
      · subst hn
        rw [List.filter_cons_of_pos (by exact hown), popUntil_top, popUntil_top]
      · rw [popUntil, if_neg hn, ih]
        cases hkeep : own n with
        | false => rw [List.filter_cons_of_neg (by simp [hkeep])]
        | true => rw [List.filter_cons_of_pos (by exact hkeep), popUntil, if_neg hn]

@[simp] theorem named_append : named (stack ++ stack') name =
    stack.named name + stack'.named name := by
  simp [named]

end Stack

theorem named_shownSpans_le {span : OpenSpan} {text : String}
    (htext : Arguments.cut? span.name = some text) (name : String) :
    (shownSpans [span]).named name ≤ if text = name then 1 else 0 := by
  rcases span with ⟨msg, id, _ | _⟩
  · rw [shownSpans_unseen]
    exact Nat.zero_le _
  · rw [shownSpans_started htext, Stack.named_cons]
    exact Nat.le_of_eq (Nat.zero_add _)

/-- Programs, and the thread that emits their events. -/
structure Programs (ι : Type*) where
  opened : ι → List OpenSpan
  next : SpanId
  tl : Locals
  /-- The names that were shown of spans that lost their end, with their CPUs. -/
  lost : List (ℕ × String)

namespace Programs

variable {ι : Type*} {s s' : Programs ι} {i : ι} {args : Arguments}

def init (tl : Locals) : Programs ι :=
  ⟨fun _ => [], 0, tl, []⟩

/-- What a macro call of a program adds to the spans that lost their end. -/
def lostBy (s : Programs ι) (i : ι) (args : Arguments) (arrives : Bool) : List (ℕ × String) :=
  if args.kind = .endSpan ∧ arrives = false then
    (shownSpans ((s.opened i).take 1)).map fun span => (args.cpu, span.1)
  else []

theorem lostBy_of_lost {span : OpenSpan} {rest : List OpenSpan} (hkind : args.kind = .endSpan)
    (hopened : s.opened i = span :: rest) :
    s.lostBy i args false = (shownSpans [span]).map fun span => (args.cpu, span.1) := by
  rw [lostBy, if_pos ⟨hkind, rfl⟩, hopened]
  rfl

theorem mem_lostBy {arrives : Bool} {x : ℕ × String} (h : x ∈ s.lostBy i args arrives) :
    x.1 = args.cpu := by
  rw [lostBy] at h
  split at h
  · obtain ⟨span, _, rfl⟩ := List.mem_map.mp h
    rfl
  · cases h

variable [DecidableEq ι]

/-- A macro call of a program, of which `event` arrives. -/
def call (crateRoot : List Char) (current : LevelFilter) (s : Programs ι) (i : ι)
    (args : Arguments) (event : Option Event) : Option (Programs ι) :=
  (opens current (s.opened i) args s.next event.isSome).bind fun opened =>
    (deliver crateRoot current s.tl event s.next).map fun tl =>
      { opened := Function.update s.opened i opened
        next := s.next + 1
        tl := tl
        lost := s.lostBy i args event.isSome ++ s.lost }

/-- A macro call of some program on its CPU, whose record is delivered or dropped, whatever
the subscriber lets through. -/
def Step (crateRoot : List Char) (sourceLoc : Bool) (e : Bytes.Endian) (cpuOf : ι → ℕ)
    (s s' : Programs ι) : Prop :=
  ∃ current i args mem delivered, args.cpu = cpuOf i ∧ args.Matches sourceLoc mem ∧
    s.call crateRoot current i args (outcome sourceLoc e args mem delivered) = some s'

/-- A step of a program that only uses span names of its own, as far as they arrive. -/
def OwnStep (crateRoot : List Char) (sourceLoc : Bool) (e : Bytes.Endian) (cpuOf : ι → ℕ)
    (owner : String → ι) (s s' : Programs ι) : Prop :=
  ∃ current i args mem delivered, args.cpu = cpuOf i ∧ args.Matches sourceLoc mem ∧
    ((∀ lvl, args.kind ≠ .message lvl) →
      ∀ text, Arguments.cut? args.msg = some text → owner text = i) ∧
    s.call crateRoot current i args (outcome sourceLoc e args mem delivered) = some s'

section Calls

variable {crateRoot : List Char} {current : LevelFilter} {sourceLoc : Bool} {e : Bytes.Endian}
  {mem : List UInt8} {delivered : Bool} {event : Option Event}

/-- What a call does to the open spans of its program and to the stacks of the CPUs. -/
theorem exists_effect (hmatches : args.Matches sourceLoc mem)
    (hevent : event = outcome sourceLoc e args mem delivered)
    (h : s.call crateRoot current i args event = some s') :
    ∃ opened', s'.opened = Function.update s.opened i opened' ∧
      s'.lost = s.lostBy i args event.isSome ++ s.lost ∧
      Effect current (s.opened i) (s.tl.stackOf args.cpu) args s.next event opened'
        (s'.tl.stackOf args.cpu) ∧
      ∀ k, k ≠ args.cpu → s'.tl.stackOf k = s.tl.stackOf k := by
  obtain ⟨opened, hopens, h⟩ := Option.bind_eq_some_iff.mp h
  obtain ⟨tl, hdeliver, rfl⟩ := Option.map_eq_some_iff.mp h
  have harrives : ∀ ev, event = some ev → ev.kind = args.kind ∧ ev.cpu = args.cpu ∧
      Arguments.cut? args.msg = some ev.content := by
    rintro ev rfl
    exact of_outcome_eq_some hmatches hevent.symm
  exact ⟨opened, rfl, rfl, Tracing.exists_effect crateRoot current harrives hopens hdeliver,
    fun k hk => stackOf_deliver_of_ne crateRoot current (fun ev hev => (harrives ev hev).2.1)
      hdeliver hk⟩

end Calls

section Accounting

variable [Fintype ι] {crateRoot : List Char} {sourceLoc : Bool} {e : Bytes.Endian}
  {cpuOf : ι → ℕ} {cpu : ℕ} {name : String}

/-- The shown spans of a name that programs on a CPU have open, and those whose end was
lost. -/
def accounted (cpuOf : ι → ℕ) (s : Programs ι) (cpu : ℕ) (name : String) : ℕ :=
  (∑ i with cpuOf i = cpu, (shownSpans (s.opened i)).named name) + s.lost.count (cpu, name)

theorem sum_update {α : Type*} (opened : ι → α) (f : α → ℕ) (hi : cpuOf i = cpu) (x : α) :
    (∑ j with cpuOf j = cpu, f (Function.update opened i x j)) + f (opened i) =
      (∑ j with cpuOf j = cpu, f (opened j)) + f x := by
  have hmem : i ∈ Finset.univ.filter fun j => cpuOf j = cpu := by simpa using hi
  rw [← Finset.add_sum_erase _ _ hmem, ← Finset.add_sum_erase _ (fun j => f (opened j)) hmem,
    Function.update_self]
  have hothers : ∑ j ∈ (Finset.univ.filter fun j => cpuOf j = cpu).erase i,
      f (Function.update opened i x j) =
        ∑ j ∈ (Finset.univ.filter fun j => cpuOf j = cpu).erase i, f (opened j) :=
    Finset.sum_congr rfl fun j hj => by rw [Function.update_of_ne (Finset.ne_of_mem_erase hj)]
  omega

theorem sum_update_of_ne {α : Type*} (opened : ι → α) (f : α → ℕ) (hi : cpuOf i ≠ cpu)
    (x : α) :
    (∑ j with cpuOf j = cpu, f (Function.update opened i x j)) =
      ∑ j with cpuOf j = cpu, f (opened j) := by
  refine Finset.sum_congr rfl fun j hj => ?_
  rw [Function.update_of_ne]
  rintro rfl
  exact hi (Finset.mem_filter.mp hj).2

/-- The spans on the stack that were not there before the first macro call are accounted
for. -/
def Accounts (cpuOf : ι → ℕ) (tl : Locals) (s : Programs ι) : Prop :=
  ∀ cpu name, (s.tl.stackOf cpu).named name ≤
    (tl.stackOf cpu).named name + s.accounted cpuOf cpu name

theorem count_map_named (stack : Stack) (cpu : ℕ) (name : String) :
    (stack.map fun span => (cpu, span.1)).count (cpu, name) = stack.named name := by
  have hmap : stack.map (fun span => (cpu, span.1)) =
      (stack.map Prod.fst).map (Prod.mk cpu) := by
    rw [List.map_map]
    rfl
  rw [hmap, List.count_map_of_injective _ _ (Prod.mk_right_injective cpu)]
  rfl

theorem Accounts.step {tl : Locals} (h : s.Accounts cpuOf tl)
    (hstep : s.Step crateRoot sourceLoc e cpuOf s') : s'.Accounts cpuOf tl := by
  obtain ⟨current, i, args, mem, delivered, hcpu, hmatches, hcall⟩ := hstep
  obtain ⟨opened', hopened, hlost, heffect, hothers⟩ := exists_effect hmatches rfl hcall
  generalize outcome sourceLoc e args mem delivered = event at heffect hlost
  intro cpu name
  have hold := h cpu name
  unfold accounted at hold ⊢
  rw [hlost, hopened, List.count_append]
  by_cases hsame : cpu = args.cpu
  · subst hsame
    have hsum := sum_update s.opened (fun opened => (shownSpans opened).named name) hcpu.symm
      opened'
    generalize s'.tl.stackOf args.cpu = stack at heffect ⊢
    cases heffect with
    | message lvl _ hkind => omega
    | unseen lvl _ hkind _ =>
        rw [shownSpans_unseen] at hsum
        omega
    | started lvl event hkind hpass htext =>
        rw [shownSpans_started htext, Stack.named_cons] at hsum
        rw [Stack.named_cons]
        omega
    | ended span rest event hkind hrest hname htext =>
        have hcut : Arguments.cut? span.name = some event.content := hname ▸ htext
        have hspan := named_shownSpans_le hcut name
        rw [hrest, shownSpans_cons, Stack.named_append] at hsum
        by_cases hcontent : event.content = name
        · rw [hcontent, if_pos rfl] at hspan
          rw [hcontent, Stack.named_popUntil]
          omega
        · rw [if_neg hcontent] at hspan
          have hle : Stack.named (popUntil event.content (s.tl.stackOf args.cpu)).1 name ≤
              (s.tl.stackOf args.cpu).named name :=
            Stack.named_le (popUntil_suffix event.content _).sublist
          omega
    | lost span rest hkind hrest hname =>
        rw [hrest, shownSpans_cons, Stack.named_append] at hsum
        rw [Option.isSome_none, lostBy_of_lost hkind hrest, count_map_named]
        omega
  · have hnone : (s.lostBy i args event.isSome).count (cpu, name) = 0 :=
      List.count_eq_zero.mpr fun hmem => hsame (mem_lostBy hmem)
    rw [hothers cpu hsame, hnone,
      sum_update_of_ne s.opened (fun opened => (shownSpans opened).named name) (by omega) opened']
    omega

/-- However programs interrupt each other, whatever is lost, and whatever the subscriber lets
through, an open span is one that a program on its CPU has open and whose start arrived, or
one whose end was lost, unless it was open before. No span of a name is open otherwise. -/
theorem open_spans_accounted (tl : Locals)
    (hrun : Relation.ReflTransGen (Step crateRoot sourceLoc e cpuOf) (init tl) s) (cpu : ℕ)
    (name : String) :
    (s.tl.stackOf cpu).named name ≤
      (tl.stackOf cpu).named name + s.accounted cpuOf cpu name := by
  have hinit : (init tl : Programs ι).Accounts cpuOf tl := fun cpu name => Nat.le_add_right _ _
  have hsteps : ∀ s s' : Programs ι, s.Accounts cpuOf tl →
      s.Step crateRoot sourceLoc e cpuOf s' → s'.Accounts cpuOf tl :=
    fun _ _ h hstep => h.step hstep
  exact Runs.invariant hsteps hinit hrun cpu name

end Accounting

section Short

variable (current : LevelFilter) (i : ι) (kind : Kind) {name : String}

theorem step_spanCall (delivered : Bool)
    (hname : name.utf8ByteSize ≤ 127 ∧ 0 ∉ Bytes.ofText name)
    (h : s.call [] current i (Lossy.spanCall kind name)
      (Lossy.shortEvent (Lossy.spanCall kind name) delivered) = some s') :
    s.Step [] false .little (fun _ => 0) s' :=
  ⟨current, i, _, _, delivered, rfl, Lossy.matches_spanCall hname, by
    rwa [Lossy.outcome_spanCall hname]⟩

theorem ownStep_spanCall {owner : String → ι} (delivered : Bool)
    (hname : name.utf8ByteSize ≤ 127 ∧ 0 ∉ Bytes.ofText name) (howner : owner name = i)
    (h : s.call [] current i (Lossy.spanCall kind name)
      (Lossy.shortEvent (Lossy.spanCall kind name) delivered) = some s') :
    s.OwnStep [] false .little (fun _ => 0) owner s' := by
  refine ⟨current, i, _, _, delivered, rfl, Lossy.matches_spanCall hname, fun _ text htext => ?_,
    by rwa [Lossy.outcome_spanCall hname]⟩
  rw [Lossy.spanCall, Arguments.cut?_of_le hname.1, Option.some_inj] at htext
  rw [← htext, howner]

end Short

/-- Two programs have a span of one name open, and one of them loses its end. -/
theorem open_spans_accounted_lost : ∃ s : Programs (Fin 2),
    Relation.ReflTransGen (Step [] false .little fun _ => 0) (init (.init 1)) s ∧
      s.lost = [(0, "a")] ∧ (s.tl.stackOf 0).named "a" = 2 ∧
      (s.tl.stackOf 0).named "a" ≤
        ((Locals.init 1).stackOf 0).named "a" + s.accounted (fun _ => 0) 0 "a" := by
  obtain ⟨s, hrun, hlost, hstack⟩ : ∃ s : Programs (Fin 2),
      Relation.ReflTransGen (Step [] false .little fun _ => 0) (init (.init 1)) s ∧
        s.lost = [(0, "a")] ∧ (s.tl.stackOf 0).named "a" = 2 := by
    have hname := Lossy.short_names "a" (by simp)
    refine ⟨_, ((Relation.ReflTransGen.single
      (step_spanCall (.upTo .trace) 0 (.startSpan .info) true hname rfl)).tail
      (step_spanCall (.upTo .info) 1 (.startSpan .info) true hname rfl)).tail
      (step_spanCall .off 1 .endSpan false hname rfl), ?_, ?_⟩
    · decide +kernel
    · decide
  exact ⟨s, hrun, hlost, hstack, open_spans_accounted (.init 1) hrun 0 "a"⟩

section Owners

variable {crateRoot : List Char} {sourceLoc : Bool} {e : Bytes.Endian} {cpuOf : ι → ℕ}
  {owner : String → ι} {cpu : ℕ}

/-- The spans on the stack of a CPU are open in the programs that own their names, and those
of a program are nested as there. -/
structure Nests (cpuOf : ι → ℕ) (owner : String → ι) (cpu : ℕ) (s : Programs ι) : Prop where
  owned : ∀ span ∈ s.tl.stackOf cpu, cpuOf (owner span.1) = cpu
  sublist : ∀ i, cpuOf i = cpu →
    ((s.tl.stackOf cpu).filter fun span => owner span.1 = i).Sublist (shownSpans (s.opened i))

theorem Nests.of_effect {current : LevelFilter} {opened' : List OpenSpan} {stack' : Stack}
    {args : Arguments} {event : Option Event}
    (heffect : Effect current (s.opened i) (s.tl.stackOf args.cpu) args s.next event opened'
      stack')
    (h : s.Nests cpuOf owner args.cpu) (hcpu : args.cpu = cpuOf i)
    (hown : (∀ lvl, args.kind ≠ .message lvl) →
      ∀ text, Arguments.cut? args.msg = some text → owner text = i)
    (hlost : s.lostBy i args event.isSome = []) :
    (∀ span ∈ stack', cpuOf (owner span.1) = args.cpu) ∧
      (stack'.filter fun span => owner span.1 = i).Sublist (shownSpans opened') ∧
      ∀ j, j ≠ i → (stack'.filter fun span => owner span.1 = j).Sublist
        ((s.tl.stackOf args.cpu).filter fun span => owner span.1 = j) := by
  have hself := h.sublist i hcpu.symm
  cases heffect with
  | message lvl _ hkind => exact ⟨h.owned, hself, fun j _ => .refl _⟩
  | unseen lvl _ hkind _ => exact ⟨h.owned, hself, fun j _ => .refl _⟩
  | started lvl event hkind hpass htext =>
      have howner : owner event.content = i := hown (by simp [hkind]) _ htext
      refine ⟨fun span hspan => ?_, ?_, fun j hj => ?_⟩
      · rcases List.mem_cons.mp hspan with rfl | hspan
        · exact howner ▸ hcpu.symm
        · exact h.owned span hspan
      · rw [List.filter_cons_of_pos (by simpa using howner), shownSpans_started htext]
        exact hself.cons_cons _
      · rw [List.filter_cons_of_neg (by simpa [howner] using fun heq => hj heq.symm)]
  | ended span rest event hkind hopened hname htext =>
      have howner : owner event.content = i := hown (by simp [hkind]) _ htext
      have hsuffix := popUntil_suffix event.content (s.tl.stackOf args.cpu)
      refine ⟨fun span hspan => h.owned span (hsuffix.subset hspan), ?_, fun j _ =>
        hsuffix.sublist.filter _⟩
      rw [hopened] at hself
      rw [Stack.filter_popUntil (fun name => decide (owner name = i)) (by simpa using howner)]
      exact (sublist_popUntil hself).trans (popUntil_shownSpans_sublist opened' (hname ▸ htext))
  | lost span rest hkind hopened hname =>
      -- the span whose end was lost is not shown
      rw [Option.isSome_none, lostBy_of_lost hkind hopened, List.map_eq_nil_iff] at hlost
      rw [hopened, shownSpans_cons, hlost] at hself
      exact ⟨h.owned, hself, fun j _ => .refl _⟩

theorem Nests.step (h : s.Nests cpuOf owner cpu)
    (hstep : s.OwnStep crateRoot sourceLoc e cpuOf owner s')
    (hlost : ∀ name, (cpu, name) ∉ s'.lost) : s'.Nests cpuOf owner cpu := by
  obtain ⟨current, i, args, mem, delivered, hcpu, hmatches, hown, hcall⟩ := hstep
  obtain ⟨opened', hopened, hlosts, heffect, hothers⟩ := exists_effect hmatches rfl hcall
  by_cases hsame : cpu = args.cpu
  · subst hsame
    have hnone : s.lostBy i args (outcome sourceLoc e args mem delivered).isSome = [] := by
      refine List.eq_nil_iff_forall_not_mem.mpr fun x hx => hlost x.2 ?_
      rw [hlosts, ← mem_lostBy hx]
      exact List.mem_append_left _ hx
    obtain ⟨howned, hself, hrest⟩ := Nests.of_effect heffect h hcpu hown hnone
    refine ⟨howned, fun j hj => ?_⟩
    by_cases hji : j = i
    · subst hji
      rw [hopened, Function.update_self]
      exact hself
    · rw [hopened, Function.update_of_ne hji]
      exact (hrest j hji).trans (h.sublist j hj)
  · have hstack := hothers cpu hsame
    refine ⟨by rw [hstack]; exact h.owned, fun j hj => ?_⟩
    rw [hstack, hopened, Function.update_of_ne (by rintro rfl; omega)]
    exact h.sublist j hj

theorem mem_lost_of_ownStep (hstep : s.OwnStep crateRoot sourceLoc e cpuOf owner s')
    {x : ℕ × String} (hx : x ∈ s.lost) : x ∈ s'.lost := by
  obtain ⟨current, i, args, mem, delivered, _, hmatches, _, hcall⟩ := hstep
  obtain ⟨_, _, hlost, _⟩ := exists_effect hmatches rfl hcall
  rw [hlost]
  exact List.mem_append_right _ hx

/-- If no two programs use the same span name, as far as names arrive, and no span that is
shown loses its end on a CPU, then however programs interrupt each other and whatever the
subscriber lets through, the spans on the stack of the CPU are open in their programs, and
those of a program are nested as there. -/
theorem open_spans_are_open (tl : Locals) (hempty : tl.stackOf cpu = [])
    (hrun : Relation.ReflTransGen (OwnStep crateRoot sourceLoc e cpuOf owner) (init tl) s)
    (hlost : ∀ name, (cpu, name) ∉ s.lost) :
    (∀ span ∈ s.tl.stackOf cpu,
      cpuOf (owner span.1) = cpu ∧ span ∈ shownSpans (s.opened (owner span.1))) ∧
      ∀ i, cpuOf i = cpu →
        ((s.tl.stackOf cpu).filter fun span => owner span.1 = i).Sublist
          (shownSpans (s.opened i)) := by
  have hinit : (∀ name, (cpu, name) ∉ (init tl : Programs ι).lost) →
      (init tl : Programs ι).Nests cpuOf owner cpu := by
    intro _
    constructor <;> simp [init, hempty]
  have hsteps : ∀ s s' : Programs ι,
      ((∀ name, (cpu, name) ∉ s.lost) → s.Nests cpuOf owner cpu) →
        s.OwnStep crateRoot sourceLoc e cpuOf owner s' →
          (∀ name, (cpu, name) ∉ s'.lost) → s'.Nests cpuOf owner cpu :=
    fun _ _ h hstep hlost =>
      (h fun name hname => hlost name (mem_lost_of_ownStep hstep hname)).step hstep hlost
  have hnests : s.Nests cpuOf owner cpu := Runs.invariant hsteps hinit hrun hlost
  refine ⟨fun span hspan => ?_, hnests.sublist⟩
  have howned := hnests.owned span hspan
  refine ⟨howned, (hnests.sublist _ howned).subset ?_⟩
  exact List.mem_filter.mpr ⟨hspan, by simp⟩

end Owners

def firstOwns (name : String) : Fin 2 :=
  if name = "a" then 0 else 1

/-- A program is interrupted by another one within a span, which it ends first. -/
theorem open_spans_are_open_interrupted : ∃ s s' : Programs (Fin 2),
    Relation.ReflTransGen (OwnStep [] false .little (fun _ => 0) firstOwns) (init (.init 1)) s ∧
      s.tl.stackOf 0 = [("b", 1), ("a", 0)] ∧
      (∀ span ∈ s.tl.stackOf 0, 0 = 0 ∧ span ∈ shownSpans (s.opened (firstOwns span.1))) ∧
      Relation.ReflTransGen (OwnStep [] false .little (fun _ => 0) firstOwns) s s' ∧
      s'.tl.stackOf 0 = [] ∧ shownSpans (s'.opened 1) = [("b", 1)] ∧
      ∀ i, 0 = 0 → ((s'.tl.stackOf 0).filter fun span => firstOwns span.1 = i).Sublist
        (shownSpans (s'.opened i)) := by
  obtain ⟨s, s', hrun, hend, hstack, hstack', hshown, hlost, hlost'⟩ :
      ∃ s s' : Programs (Fin 2),
        Relation.ReflTransGen (OwnStep [] false .little (fun _ => 0) firstOwns)
          (init (.init 1)) s ∧
        OwnStep [] false .little (fun _ => 0) firstOwns s s' ∧
        s.tl.stackOf 0 = [("b", 1), ("a", 0)] ∧ s'.tl.stackOf 0 = [] ∧
        shownSpans (s'.opened 1) = [("b", 1)] ∧ s.lost = [] ∧ s'.lost = [] := by
    have ha := Lossy.short_names "a" (by simp)
    have hb := Lossy.short_names "b" (by simp)
    refine ⟨_, _, (Relation.ReflTransGen.single
      (ownStep_spanCall (.upTo .trace) 0 (.startSpan .info) true ha (by decide) rfl)).tail
      (ownStep_spanCall (.upTo .info) 1 (.startSpan .info) true hb (by decide) rfl),
      ownStep_spanCall .off 0 .endSpan true ha (by decide) rfl, ?_, ?_, ?_, rfl, rfl⟩
    · decide
    · decide
    · decide +kernel
  have hempty : (Locals.init 1).stackOf 0 = [] := rfl
  have hopen := open_spans_are_open (.init 1) hempty hrun (by simp [hlost])
  have hopen' := open_spans_are_open (.init 1) hempty (hrun.tail hend) (by simp [hlost'])
  exact ⟨s, s', hrun, hstack, hopen.1, .single hend, hstack', hshown, hopen'.2⟩

end Programs

end Tracing

end Xbpf
