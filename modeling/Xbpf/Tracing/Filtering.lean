import Xbpf.Tracing.PerCpu

/-!
# The filter of the subscriber

A subscriber enables events by their target and level, while `emit` only asks
for the most verbose level that is enabled for any target at all. The events of
a run are therefore filtered as the subscriber wants exactly if the target of
the eBPF events is enabled at every level of theirs at which, or above which,
some target is.
-/

namespace Xbpf

namespace Tracing

/-- What a subscriber lets through, and the most verbose level among it. -/
structure Filter where
  enabled : String → Level → Bool
  current : LevelFilter
  passes_of_enabled : ∀ target lvl, enabled target lvl = true → lvl.passes current
  enabled_current : ∀ lvl, current = .upTo lvl → ∃ target, enabled target lvl = true

def Kind.level? : Kind → Option Level
  | .message lvl => some lvl
  | .startSpan lvl => some lvl
  | .endSpan => none

def Dispatch.HandsOver {μ : Type*} : Dispatch μ → Prop
  | .event _ _ _ => True
  | .newSpan _ _ _ _ => True
  | _ => False

theorem Filter.passes_current_iff (f : Filter) (lvl : Level) :
    lvl.passes f.current ↔
      ∃ other lvl', lvl.verbosity ≤ lvl'.verbosity ∧ f.enabled other lvl' = true := by
  constructor
  · intro h
    cases hcurrent : f.current with
    | off =>
        rw [hcurrent] at h
        exact absurd h (Nat.not_le.mpr lvl.verbosity_pos)
    | upTo lvl' =>
        rw [hcurrent] at h
        obtain ⟨other, hother⟩ := f.enabled_current lvl' hcurrent
        exact ⟨other, lvl', h, hother⟩
  · rintro ⟨other, lvl', hle, hother⟩
    exact Nat.le_trans hle (f.passes_of_enabled other lvl' hother)

variable (crateRoot : List Char)

theorem emit_handsOver_iff {current : LevelFilter} {tl tl' : Locals} {event : Event}
    {id : SpanId} {ds : List (Dispatch ℕ)}
    (h : emit crateRoot current tl event id = some (tl', ds)) {lvl : Level}
    (hlvl : event.kind.level? = some lvl) :
    (∃ d ∈ ds, d.HandsOver) ↔ lvl.passes current := by
  have hkind : event.kind = .message lvl ∨ event.kind = .startSpan lvl := by
    cases hkind : event.kind with
    | message lvl' =>
        rw [hkind] at hlvl
        exact Or.inl (congrArg Kind.message (Option.some_inj.mp hlvl))
    | startSpan lvl' =>
        rw [hkind] at hlvl
        exact Or.inr (congrArg Kind.startSpan (Option.some_inj.mp hlvl))
    | endSpan =>
        rw [hkind] at hlvl
        cases hlvl
  by_cases hpass : lvl.passes current
  · refine iff_of_true ?_ hpass
    rcases hkind with hkind | hkind
    · obtain ⟨_, _, hemit⟩ := emit_message crateRoot tl hkind id hpass
      rw [hemit] at h
      cases h
      exact ⟨_, List.mem_cons_self, trivial⟩
    · obtain ⟨_, _, hemit⟩ := emit_startSpan crateRoot tl hkind id hpass
      rw [hemit] at h
      cases h
      exact ⟨_, List.mem_cons_self, trivial⟩
  · refine iff_of_false ?_ hpass
    rw [emit_filtered crateRoot tl hkind id hpass] at h
    cases h
    rintro ⟨d, hd, _⟩
    cases hd

/-- Every message and every start of a span among the events is handed to the
subscriber exactly if it is enabled. -/
def Respects (f : Filter) (tl : Locals) (xs : List (Event × SpanId)) : Prop :=
  ∃ tl' ds, emitAll crateRoot f.current tl xs = some (tl', ds) ∧
    ∀ xd ∈ xs.zip ds, ∀ lvl, xd.1.1.kind.level? = some lvl →
      ((∃ d ∈ xd.2, d.HandsOver) ↔ f.enabled target lvl = true)

/-- Events are filtered as the subscriber wants if their levels are enabled wherever more
verbose ones are. -/
theorem respects_of_enabled (f : Filter) (tl : Locals) {xs : List (Event × SpanId)}
    (h : ∀ x ∈ xs, ∀ lvl, x.1.kind.level? = some lvl →
      (∃ other lvl', lvl.verbosity ≤ lvl'.verbosity ∧ f.enabled other lvl' = true) →
        f.enabled target lvl = true) : Respects crateRoot f tl xs := by
  obtain ⟨tl', ds, hrun, _⟩ := emitAll_spec crateRoot f.current tl xs
  refine ⟨tl', ds, hrun, ?_⟩
  intro xd hxd lvl hlvl
  obtain ⟨t, t', hstep⟩ := Runs.exists_step_of_mem_zip hrun hxd
  rw [emit_handsOver_iff crateRoot hstep hlvl, f.passes_current_iff]
  refine ⟨h xd.1 (List.of_mem_zip hxd).1 lvl hlvl, fun henabled => ?_⟩
  exact ⟨target, lvl, Nat.le_refl _, henabled⟩

theorem respects_iff (f : Filter) (tl : Locals) (xs : List (Event × SpanId)) :
    Respects crateRoot f tl xs ↔
      ∀ x ∈ xs, ∀ lvl, x.1.kind.level? = some lvl →
        (∃ other lvl', lvl.verbosity ≤ lvl'.verbosity ∧ f.enabled other lvl' = true) →
          f.enabled target lvl = true := by
  constructor
  · rintro ⟨tl', ds, hrun, hall⟩ x hx lvl hlvl hother
    obtain ⟨i, hi, rfl⟩ := List.getElem_of_mem hx
    have hlen : i < ds.length := by rwa [Runs.length_of_runAll hrun]
    have hzip : (xs[i], ds[i]) ∈ xs.zip ds :=
      List.mem_iff_getElem.mpr ⟨i, by simp [hi, hlen], List.getElem_zip⟩
    obtain ⟨t, t', hstep⟩ := Runs.exists_step_of_mem_zip hrun hzip
    rw [← hall _ hzip lvl hlvl, emit_handsOver_iff crateRoot hstep hlvl,
      f.passes_current_iff]
    exact hother
  · exact respects_of_enabled crateRoot f tl

/-- A filter like `bpf=info,other=trace`. -/
def moreVerboseElsewhere : Filter where
  enabled t lvl := t == "other" || (t == target && decide (lvl.passes (.upTo .info)))
  current := .upTo .trace
  passes_of_enabled := by
    intro _ lvl _
    cases lvl <;> decide
  enabled_current := by
    intro lvl _
    exact ⟨"other", rfl⟩

/-- A message that the filter disables is handed over. -/
theorem not_respects_moreVerboseElsewhere :
    ¬ Respects [] moreVerboseElsewhere (.init 1)
      [(⟨.message .debug, "m", 0, none, none⟩, 0)] := by
  rintro ⟨tl', ds, hrun, hall⟩
  cases hrun
  have hiff := hall _ List.mem_cons_self .debug rfl
  exact absurd (hiff.mp ⟨_, List.mem_cons_self, trivial⟩) (by decide)

end Tracing

end Xbpf
