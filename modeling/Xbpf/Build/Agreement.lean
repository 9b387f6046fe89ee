import Xbpf.Build.ClangArgs
import Xbpf.Tracing.Filtering
import Xbpf.Tracing.Nesting
import Xbpf.Tracing.StrLen

/-!
# Programs and the crate that reads their events

The builder configures the programs, while the decoder and the subscriber know nothing of
it. They agree if the lengths of strings do and if source locations are compiled in where
the decoder expects them, which they are not if the level is only set by the caller. And
the filter that the programs were built with makes up for what `emit` does not ask for: a
program that is built and run with the same filter emits what is enabled and nothing else.
-/

namespace Xbpf

namespace Tracing

namespace Trace

variable {keep keep' : Level → Prop} [DecidablePred keep] [DecidablePred keep']

theorem expected_congr (h : ∀ lvl, keep lvl ↔ keep' lvl) (t : Trace) (parent : Option SpanId) :
    t.expected keep parent = t.expected keep' parent := by
  induction t generalizing parent with
  | nil => rfl
  | message lvl msg loc rest ih => simp only [expected, h lvl, ih]
  | span lvl name start stop id body rest ihbody ihrest =>
      simp only [expected, h lvl, ihbody, ihrest]

theorem expected_eq_nil (h : ∀ lvl, ¬ keep lvl) (t : Trace) (parent : Option SpanId) :
    t.expected keep parent = [] := by
  induction t generalizing parent with
  | nil => rfl
  | message lvl msg loc rest ih => rw [expected, if_neg (h lvl), ih, List.append_nil]
  | span lvl name start stop id body rest ihbody ihrest =>
      rw [expected, ihbody, ihrest, List.append_nil]

end Trace

end Tracing

namespace Build

open Files Preprocessor Runs
open Bytes (Endian)
open Tracing (LevelFilter Locals Reads Trace)

section Decoder

variable {C : Type} {b : ClangBuilder} {features : Features} {includePathRoot : Name}
  {defaultEnv : EnvFilter} {env : Environment Char C} {fs fs' : FileSystem Char C}
  {args : List Name} {separate : Text → Bool} {user opts : List Opt} {config : Header.Config}

/-- The settings that come from the builder alone if the caller says nothing about them. -/
theorem strLen_sourceLoc_of_config (htracing : features.tracing = true) {dir : Text}
    (hsilent : ∀ name ∈ [Header.bpfTracingStrLenMacro, Header.bpfTracingSourceLocMacro],
      effect user name = none)
    (hconfig : Header.config (macros ([.includeDir dir] ++
      b.tracingOpts features includePathRoot defaultEnv ++ user)) = some config) :
    config.bpfTracingStrLen = b.tracingStrLen.getD 128 ∧
      config.bpfTracingSourceLoc =
        (features.tracingSourceLoc && decide ((b.level defaultEnv).verbosity ≠ 0)) := by
  have hsetting : ∀ name ∈ [Header.bpfTracingStrLenMacro, Header.bpfTracingSourceLocMacro],
      macros ([.includeDir dir] ++ b.tracingOpts features includePathRoot defaultEnv ++ user)
        name = (b.setting features defaultEnv name).map decimal := by
    intro name hname
    rw [macros_allOpts, hsilent name hname]
    rfl
  have hlen := valueOr_of_setting Header.bpfTracingStrLen
    (hsetting Header.bpfTracingStrLenMacro (by simp))
  have hloc := hsetting Header.bpfTracingSourceLocMacro (by simp)
  obtain ⟨level, _, hconfig⟩ := Option.bind_eq_some_iff.mp hconfig
  obtain ⟨size, _, hconfig⟩ := Option.bind_eq_some_iff.mp hconfig
  rw [hlen] at hconfig
  cases hconfig
  refine ⟨?_, ?_⟩
  · simp +decide [ClangBuilder.setting, htracing]
    rfl
  · simp only [hloc]
    by_cases hoff : (b.level defaultEnv).verbosity = 0 <;>
      cases hfeature : features.tracingSourceLoc <;>
        simp +decide [ClangBuilder.setting, htracing, hoff, hfeature]

/-- A builder that is told a length that is one byte shorter. -/
def oneShorter : ClangBuilder :=
  (ClangBuilder.new.setTracingLevel (.upTo .info)).setTracingStrLen 127

end Decoder

section Levels

variable {filter : EnvFilter} {lvl : Tracing.Level}

theorem verbosity_le_levelFromEnv_iff :
    lvl.verbosity ≤ (levelFromEnv filter).verbosity ↔
      ∃ lvl' : Tracing.Level, lvl.verbosity ≤ lvl'.verbosity ∧ filter "bpf" lvl' = true := by
  constructor
  · intro h
    rw [levelFromEnv] at h
    split at h
    · exact ⟨.trace, h, ‹_›⟩
    split at h
    · exact ⟨.debug, h, ‹_›⟩
    split at h
    · exact ⟨.info, h, ‹_›⟩
    split at h
    · exact ⟨.warn, h, ‹_›⟩
    split at h
    · exact ⟨.error, h, ‹_›⟩
    · exact absurd h (Nat.not_le.mpr lvl.verbosity_pos)
  · rintro ⟨lvl', hle, henabled⟩
    refine Nat.le_trans hle ?_
    rw [levelFromEnv]
    cases lvl' <;> simp only [henabled, if_true] <;> (repeat' split) <;> decide

/-- A level is compiled in and let through exactly if it is enabled for the programs. -/
theorem kept_iff_enabled {f : Tracing.Filter}
    (hdown : ∀ lvl lvl' : Tracing.Level, lvl.verbosity ≤ lvl'.verbosity →
      filter "bpf" lvl' = true → filter "bpf" lvl = true)
    (hrun : ∀ lvl, filter "bpf" lvl = true → f.enabled Tracing.target lvl = true) :
    Tracing.Kept (levelFromEnv filter).verbosity f.current lvl ↔ filter "bpf" lvl = true := by
  constructor
  · rintro ⟨hcompiled, _⟩
    obtain ⟨lvl', hle, henabled⟩ := verbosity_le_levelFromEnv_iff.mp hcompiled
    exact hdown lvl lvl' hle henabled
  · intro henabled
    exact ⟨verbosity_le_levelFromEnv_iff.mpr ⟨lvl, Nat.le_refl _, henabled⟩,
      f.passes_of_enabled _ lvl (hrun lvl henabled)⟩

end Levels

section Run

variable (crateRoot : List Char) {filter : EnvFilter} {f : Tracing.Filter} {sourceLoc : Bool}
  {e : Endian} {cpu : ℕ} {mem : ℕ → List UInt8} {t : Trace}

theorem arrivals_off (t : Trace) (cpu : ℕ) : t.arrivals 0 cpu = [] := by
  rw [Trace.arrivals, List.filterMap_eq_nil_iff]
  intro x _
  rw [Tracing.arrived, if_neg]
  cases hkind : x.1.kind with
  | message lvl => exact Nat.not_le.mpr lvl.verbosity_pos
  | startSpan lvl => exact Nat.not_le.mpr lvl.verbosity_pos
  | endSpan => exact fun h => h rfl

/-- What is compiled in is not more verbose than the level of the programs. -/
theorem verbosity_le_of_compiledIn {args : Tracing.Arguments} {bpfTracingLevel : ℕ}
    {lvl : Tracing.Level} (hcompiled : args.kind.CompiledIn bpfTracingLevel)
    (hlvl : args.kind.level? = some lvl) : lvl.verbosity ≤ bpfTracingLevel := by
  cases hkind : args.kind with
  | message lvl' =>
      rw [hkind] at hcompiled hlvl
      cases hlvl
      exact hcompiled
  | startSpan lvl' =>
      rw [hkind] at hcompiled hlvl
      cases hlvl
      exact hcompiled
  | endSpan =>
      rw [hkind] at hlvl
      cases hlvl

/-- What arrives of a program that is built with a filter is enabled by it. -/
theorem enabled_of_mem_arrivals {lvl : Tracing.Level} {x : Tracing.Event × Tracing.SpanId}
    (hdown : ∀ lvl lvl' : Tracing.Level, lvl.verbosity ≤ lvl'.verbosity →
      filter "bpf" lvl' = true → filter "bpf" lvl = true)
    (hx : x ∈ t.arrivals (levelFromEnv filter).verbosity cpu)
    (hlvl : x.1.kind.level? = some lvl) : filter "bpf" lvl = true := by
  obtain ⟨y, _, hy⟩ := List.mem_filterMap.mp hx
  rw [Tracing.arrived] at hy
  split at hy
  · rename_i hcompiled
    obtain ⟨args, hcut, rfl⟩ := Option.map_eq_some_iff.mp hy
    have hkind := (Tracing.Arguments.of_cut_eq_some hcut).1
    have hle : lvl.verbosity ≤ (levelFromEnv filter).verbosity :=
      verbosity_le_of_compiledIn hcompiled (hkind ▸ hlvl)
    obtain ⟨lvl', hle', henabled⟩ := verbosity_le_levelFromEnv_iff.mp hle
    exact hdown lvl lvl' hle' henabled
  · cases hy

/-- A program that is built with a filter, and run with one that enables as much for it,
emits exactly what the first one enables. Both of its filters are respected, and if no end
strays into an open span and the trace is clean, the subscriber is told of all messages
that are enabled, in the spans around them. -/
theorem built_filter_is_respected
    (hdown : ∀ lvl lvl' : Tracing.Level, lvl.verbosity ≤ lvl'.verbosity →
      filter "bpf" lvl' = true → filter "bpf" lvl = true)
    (hrun : ∀ lvl, filter "bpf" lvl = true → f.enabled Tracing.target lvl = true)
    (hsubmits : t.Submits sourceLoc cpu mem) (tl : Locals) :
    Tracing.Respects crateRoot f tl
        (t.events sourceLoc e (levelFromEnv filter).verbosity cpu mem) ∧
      (t.EndsArrive (fun lvl => filter "bpf" lvl = true) →
        (t.ids ++ (tl.stackOf cpu).map Prod.snd).Nodup →
        (tl.stackOf cpu = [] ∨ ¬ t.Strays fun lvl => filter "bpf" lvl = true) →
        t.Clean (fun lvl => filter "bpf" lvl = true) (.ofStack (tl.stackOf cpu)) →
        ∃ tl' ds, Tracing.emitAll crateRoot f.current tl
            (t.events sourceLoc e (levelFromEnv filter).verbosity cpu mem) = some (tl', ds) ∧
          tl'.stackOf cpu = tl.stackOf cpu ∧
          Trace.Tells (Tracing.messages ds)
            (t.expected (fun lvl => filter "bpf" lvl = true) (tl.stackOf cpu).top)) := by
  constructor
  · rw [hsubmits.events_eq]
    exact Tracing.respects_of_enabled crateRoot f tl fun x hx lvl hlvl _ =>
      hrun lvl (enabled_of_mem_arrivals hdown hx hlvl)
  · intro hends hids hstrays hclean
    have hiff : ∀ lvl, Tracing.Kept (levelFromEnv filter).verbosity f.current lvl ↔
        filter "bpf" lvl = true :=
      fun _ => kept_iff_enabled hdown hrun
    by_cases hoff : (levelFromEnv filter).verbosity = 0
    · have hnone : ∀ lvl, ¬ filter "bpf" lvl = true := by
        intro lvl henabled
        have hle := ((hiff lvl).mpr henabled).1
        rw [hoff] at hle
        exact absurd hle (Nat.not_le.mpr lvl.verbosity_pos)
      rw [hsubmits.events_eq, hoff, arrivals_off, t.expected_eq_nil hnone]
      exact ⟨tl, [], rfl, rfl, rfl⟩
    · have hkept : Tracing.Kept (levelFromEnv filter).verbosity f.current =
          fun lvl => filter "bpf" lvl = true :=
        funext fun lvl => propext (hiff lvl)
      rw [← hkept] at hends hstrays hclean
      obtain ⟨tl', ds, hemit, hstack, hmessages⟩ :=
        Trace.emitAll_events (e := e) f.current cpu crateRoot hoff hsubmits tl
      obtain ⟨hafter, htells⟩ :=
        (Trace.after_tells_iff t (tl.stackOf cpu) hends hids).mpr ⟨hstrays, hclean⟩
      refine ⟨tl', ds, hemit, hstack.trans hafter, ?_⟩
      rw [hmessages, ← t.expected_congr hiff]
      exact htells

def infoFilter : Tracing.Filter where
  enabled t lvl := t == Tracing.target && decide (lvl.passes (.upTo .info))
  current := .upTo .info
  passes_of_enabled := by
    intro _ lvl h
    exact of_decide_eq_true (Bool.and_eq_true_iff.mp h).2
  enabled_current := by
    intro lvl h
    cases h
    exact ⟨Tracing.target, rfl⟩

/-- A message outside of any span, and one within a span, which is too verbose. -/
def verboseWithin : Trace :=
  .message .info "m" none (.span .warn "s" none none 1 (.message .debug "d" none .nil) .nil)

theorem built_filter_is_respected_info :
    Tracing.Respects [] infoFilter (.init 1)
        (verboseWithin.events false .little 3 0 Trace.reservedMemory) ∧
      ∃ tl' ds, Tracing.emitAll [] infoFilter.current (.init 1)
          (verboseWithin.events false .little 3 0 Trace.reservedMemory) = some (tl', ds) ∧
        Trace.Tells (Tracing.messages ds) [("m", none)] := by
  have hdown : ∀ lvl lvl' : Tracing.Level, lvl.verbosity ≤ lvl'.verbosity →
      infoFilter.enabled "bpf" lvl' = true → infoFilter.enabled "bpf" lvl = true := by
    intro lvl lvl'
    cases lvl <;> cases lvl' <;> decide
  have hsubmits : verboseWithin.Submits false 0 Trace.reservedMemory :=
    Trace.submits_reservedMemory (by decide) (by decide +kernel)
  obtain ⟨hrespects, hemitted⟩ :=
    built_filter_is_respected [] (e := .little) hdown (fun _ h => h) hsubmits (.init 1)
  obtain ⟨tl', ds, hrun, _, hmessages⟩ :=
    hemitted (by decide +kernel) (by decide) (Or.inl rfl) (by decide +kernel)
  exact ⟨hrespects, tl', ds, hrun, hmessages⟩

end Run

end Build

end Xbpf
