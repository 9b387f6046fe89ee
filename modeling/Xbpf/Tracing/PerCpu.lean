import Xbpf.Tracing.Emit

/-!
# CPUs do not interfere

Seen from one CPU, emitting an event is a step of `nest` if the event came from
that CPU, and nothing at all otherwise. The stacks are therefore the components
of a machine, and what a run of events from many CPUs does to the stack of one
of them only depends on its own events.
-/

namespace Xbpf

namespace Tracing

open Runs

variable (crateRoot : List Char) (current : LevelFilter)

def emitNext (tl : Locals) (x : Event × SpanId) :
    Option (Locals × List (Dispatch ℕ)) :=
  emit crateRoot current tl x.1 x.2

def emitAll (tl : Locals) (xs : List (Event × SpanId)) :
    Option (Locals × List (List (Dispatch ℕ))) :=
  runAll (emitNext crateRoot current) tl xs

def eraseAll (ds : List (Dispatch ℕ)) : List (Dispatch Unit) :=
  ds.map Dispatch.erase

theorem eraseAll_leave (ids : List SpanId) :
    eraseAll (ids.flatMap Dispatch.leave) = ids.flatMap Dispatch.leave := by
  induction ids with
  | nil => rfl
  | cons id ids ih =>
      rw [List.flatMap_cons, List.flatMap_cons, eraseAll, List.map_append,
        Dispatch.map_erase_leave, ← ih]
      rfl

section Branches

variable {current} (tl : Locals) {event : Event} {lvl : Level}

theorem emit_message (hkind : event.kind = .message lvl) (id : SpanId)
    (hpass : lvl.passes current) :
    ∃ callsites metadata, emit crateRoot current tl event id =
      some (⟨callsites, grown tl.spans event.cpu⟩,
        [.event (tl.stackOf event.cpu).top metadata event.content]) := by
  obtain ⟨key, hkey⟩ : ∃ key, event.callsiteKey = .ok key :=
    callsiteKey_eq_ok (by simp [hkind])
  refine ⟨(getCallsite crateRoot tl.callsites key).1,
    (getCallsite crateRoot tl.callsites key).2, ?_⟩
  have hstack := getElem?_grown_self tl.spans event.cpu
  rw [grown] at hstack
  simp [emit, hkind, hpass, hkey, hstack, Except.toOption, Locals.stackOf, grown]

theorem emit_startSpan (hkind : event.kind = .startSpan lvl) (id : SpanId)
    (hpass : lvl.passes current) :
    ∃ callsites metadata, emit crateRoot current tl event id =
      some (⟨callsites, (grown tl.spans event.cpu).set event.cpu
          ((event.content, id) :: tl.stackOf event.cpu)⟩,
        [.newSpan (tl.stackOf event.cpu).top metadata event.content id,
          .enter id]) := by
  obtain ⟨key, hkey⟩ : ∃ key, event.callsiteKey = .ok key :=
    callsiteKey_eq_ok (by simp [hkind])
  refine ⟨(getCallsite crateRoot tl.callsites key).1,
    (getCallsite crateRoot tl.callsites key).2, ?_⟩
  have hstack := getElem?_grown_self tl.spans event.cpu
  rw [grown] at hstack
  simp [emit, hkind, hpass, hkey, hstack, Except.toOption, Locals.stackOf, grown]

theorem emit_filtered (hkind : event.kind = .message lvl ∨ event.kind = .startSpan lvl)
    (id : SpanId) (hpass : ¬ lvl.passes current) :
    emit crateRoot current tl event id =
      some (⟨tl.callsites, grown tl.spans event.cpu⟩, []) := by
  rcases hkind with hkind | hkind <;> simp [emit, hkind, hpass, grown]

theorem emit_endSpan (hkind : event.kind = .endSpan) (id : SpanId) :
    emit crateRoot current tl event id =
      some (⟨tl.callsites, (grown tl.spans event.cpu).set event.cpu
          (popUntil event.content (tl.stackOf event.cpu)).1⟩,
        (popUntil event.content (tl.stackOf event.cpu)).2.flatMap
          Dispatch.leave) := by
  have hstack := getElem?_grown_self tl.spans event.cpu
  rw [grown] at hstack
  simp [emit, hkind, hstack, Locals.stackOf, grown]

end Branches

/-- Emitting an event never panics. It is a step of `nest` on the stack of the
CPU the event came from and leaves the stacks of the other CPUs alone. -/
theorem emit_spec (tl : Locals) (event : Event) (id : SpanId) :
    ∃ tl' ds, emit crateRoot current tl event id = some (tl', ds) ∧
      tl'.stackOf event.cpu =
        (nest current (tl.stackOf event.cpu) (event, id)).1 ∧
      eraseAll ds = (nest current (tl.stackOf event.cpu) (event, id)).2 ∧
      ∀ k, k ≠ event.cpu → tl'.stackOf k = tl.stackOf k := by
  have hgrown : ∀ k, (grown tl.spans event.cpu).getD k [] = tl.stackOf k :=
    getD_grown tl.spans event.cpu
  cases hkind : event.kind with
  | message lvl =>
      by_cases hpass : lvl.passes current
      · obtain ⟨callsites, metadata, hemit⟩ :=
          emit_message crateRoot tl hkind id hpass
        refine ⟨_, _, hemit, ?_, ?_, fun k _ => hgrown k⟩
        · rw [nest, hkind]
          exact hgrown _
        · simp [nest, hkind, hpass, eraseAll, Dispatch.erase]
      · refine ⟨_, _, emit_filtered crateRoot tl (.inl hkind) id hpass, ?_, ?_,
          fun k _ => hgrown k⟩
        · rw [nest, hkind]
          exact hgrown _
        · simp [nest, hkind, hpass, eraseAll]
  | startSpan lvl =>
      by_cases hpass : lvl.passes current
      · obtain ⟨callsites, metadata, hemit⟩ :=
          emit_startSpan crateRoot tl hkind id hpass
        refine ⟨_, _, hemit, ?_, ?_, fun k hk => getD_set_grown_of_ne _ _ _ hk⟩
        · simp only [nest, hkind, hpass, if_true]
          exact getD_set_grown_self _ _ _
        · simp [nest, hkind, hpass, eraseAll, Dispatch.erase]
      · refine ⟨_, _, emit_filtered crateRoot tl (.inr hkind) id hpass, ?_, ?_,
          fun k _ => hgrown k⟩
        · simp only [nest, hkind, hpass, if_false]
          exact hgrown _
        · simp [nest, hkind, hpass, eraseAll]
  | endSpan =>
      refine ⟨_, _, emit_endSpan crateRoot tl hkind id, ?_, ?_,
        fun k hk => getD_set_grown_of_ne _ _ _ hk⟩
      · rw [nest, hkind]
        exact getD_set_grown_self _ _ _
      · rw [eraseAll_leave, nest, hkind]

theorem componentwise_emitNext :
    Componentwise (fun x : Event × SpanId => x.1.cpu) Locals.stackOf eraseAll
      (emitNext crateRoot current) (nest current) :=
  ⟨fun tl x => emit_spec crateRoot current tl x.1 x.2⟩

/-- Where the vector of stacks is too short for an event, growing it leaves every
stack that it has where it is. -/
theorem getElem?_spans_of_emit {tl tl' : Locals} {event : Event} {id : SpanId}
    {ds : List (Dispatch ℕ)} (h : emit crateRoot current tl event id = some (tl', ds))
    (hunseen : tl.spans.length ≤ event.cpu) {k : ℕ} (hk : k < tl.spans.length) :
    tl'.spans[k]? = tl.spans[k]? := by
  have hgrown := getElem?_grown tl.spans event.cpu hk
  have hset : ∀ stack, ((grown tl.spans event.cpu).set event.cpu stack)[k]? =
      tl.spans[k]? := by
    intro stack
    rw [List.getElem?_set_ne (by omega), hgrown]
  cases hkind : event.kind with
  | message lvl =>
      by_cases hpass : lvl.passes current
      · obtain ⟨_, _, hemit⟩ := emit_message crateRoot tl hkind id hpass
        rw [h, Option.some_inj, Prod.mk.injEq] at hemit
        rw [hemit.1, hgrown]
      · rw [emit_filtered crateRoot tl (.inl hkind) id hpass, Option.some_inj,
          Prod.mk.injEq] at h
        rw [← h.1, hgrown]
  | startSpan lvl =>
      by_cases hpass : lvl.passes current
      · obtain ⟨_, _, hemit⟩ := emit_startSpan crateRoot tl hkind id hpass
        rw [h, Option.some_inj, Prod.mk.injEq] at hemit
        rw [hemit.1, hset]
      · rw [emit_filtered crateRoot tl (.inr hkind) id hpass, Option.some_inj,
          Prod.mk.injEq] at h
        rw [← h.1, hgrown]
  | endSpan =>
      rw [emit_endSpan crateRoot tl hkind id, Option.some_inj, Prod.mk.injEq] at h
      rw [← h.1, hset]

def eventsOf (cpu : ℕ) (xs : List (Event × SpanId)) : List (Event × SpanId) :=
  xs.filter fun x => x.1.cpu = cpu

def toldOf (cpu : ℕ) (xs : List (Event × SpanId)) (ds : List (List (Dispatch ℕ))) :
    List (List (Dispatch Unit)) :=
  (outputsAt (fun x : Event × SpanId => x.1.cpu) cpu xs ds).map eraseAll

/-- Emitting never panics, and a CPU is left with the same stack, and its events
with the same parents, as if only its own events had been emitted. -/
theorem emitAll_spec (tl : Locals) (xs : List (Event × SpanId)) :
    ∃ tl' ds, emitAll crateRoot current tl xs = some (tl', ds) ∧ ∀ cpu,
      run (nest current) (tl.stackOf cpu) (eventsOf cpu xs) =
        (tl'.stackOf cpu, toldOf cpu xs ds) :=
  (componentwise_emitNext crateRoot current).runAll tl xs

theorem eventsOf_eventsOf (cpu : ℕ) (xs : List (Event × SpanId)) :
    eventsOf cpu (eventsOf cpu xs) = eventsOf cpu xs := by
  simp [eventsOf]

theorem toldOf_of_eventsOf_eq {cpu : ℕ} {xs : List (Event × SpanId)}
    (h : eventsOf cpu xs = xs) {ds : List (List (Dispatch ℕ))}
    (hlen : ds.length = xs.length) : toldOf cpu xs ds = ds.map eraseAll := by
  have hall : ∀ x ∈ xs, x.1.cpu = cpu := by
    intro x hx
    rw [← h, eventsOf, List.mem_filter] at hx
    simpa using hx.2
  have hzip : (xs.zip ds).filter (fun xd => xd.1.1.cpu = cpu) = xs.zip ds := by
    rw [List.filter_eq_self]
    intro xd hxd
    simpa using hall xd.1 (List.of_mem_zip hxd).1
  rw [toldOf, outputsAt, hzip, List.map_snd_zip (Nat.le_of_eq hlen)]

theorem emitAll_of_cpu {cpu : ℕ} {xs : List (Event × SpanId)} (h : ∀ x ∈ xs, x.1.cpu = cpu)
    (tl : Locals) :
    ∃ tl' ds, emitAll crateRoot current tl xs = some (tl', ds) ∧
      run (nest current) (tl.stackOf cpu) xs = (tl'.stackOf cpu, ds.map eraseAll) := by
  obtain ⟨tl', ds, hrun, hcpu⟩ := emitAll_spec crateRoot current tl xs
  have hown : eventsOf cpu xs = xs := by
    rw [eventsOf, List.filter_eq_self]
    intro x hx
    simpa using h x hx
  have hspec := hcpu cpu
  rw [hown, toldOf_of_eventsOf_eq hown (length_of_runAll hrun)] at hspec
  exact ⟨tl', ds, hrun, hspec⟩

/-- Emitting never panics, a stack that is there is not changed by growing the
vector, and a CPU sees nothing of the events of the others: neither in the stack
it is left with, nor in the spans that its events are nested in. -/
theorem cpus_do_not_interfere (tl : Locals) (xs : List (Event × SpanId)) :
    (∃ tl' ds, emitAll crateRoot current tl xs = some (tl', ds) ∧
      (∀ cpu, ∃ own dsOwn,
        emitAll crateRoot current tl (eventsOf cpu xs) = some (own, dsOwn) ∧
          tl'.stackOf cpu = own.stackOf cpu ∧
          toldOf cpu xs ds = dsOwn.map eraseAll) ∧
      ∀ ys tl'' ds', emitAll crateRoot current tl ys = some (tl'', ds') →
        ∀ cpu, eventsOf cpu xs = eventsOf cpu ys →
          tl'.stackOf cpu = tl''.stackOf cpu ∧ toldOf cpu xs ds = toldOf cpu ys ds') ∧
    (∀ event : Event, event.kind ≠ .endSpan → ∃ key, event.callsiteKey = .ok key) ∧
    ∀ event id tl' ds, emit crateRoot current tl event id = some (tl', ds) →
      tl.spans.length ≤ event.cpu →
        ∀ k, k < tl.spans.length → tl'.spans[k]? = tl.spans[k]? := by
  refine ⟨?_, fun event => callsiteKey_eq_ok, ?_⟩
  · obtain ⟨tl', ds, hrun, hcpu⟩ := emitAll_spec crateRoot current tl xs
    refine ⟨tl', ds, hrun, ?_, ?_⟩
    · intro cpu
      obtain ⟨own, dsOwn, hown, hself⟩ :=
        emitAll_spec crateRoot current tl (eventsOf cpu xs)
      have heq := hself cpu
      rw [eventsOf_eventsOf, hcpu cpu, Prod.mk.injEq,
        toldOf_of_eventsOf_eq (eventsOf_eventsOf cpu xs) (length_of_runAll hown)]
        at heq
      exact ⟨own, dsOwn, hown, heq.1, heq.2⟩
    · intro ys tl'' ds' hys cpu hevents
      exact (componentwise_emitNext crateRoot current).view_eq_of_filter_eq rfl
        hevents hrun hys
  · intro event id tl' ds h hunseen k hk
    exact getElem?_spans_of_emit crateRoot current h hunseen hk

end Tracing

end Xbpf
