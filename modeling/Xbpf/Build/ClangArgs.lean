import Xbpf.Build.Builder
import Xbpf.Preprocessor.Options
import Xbpf.Tracing.Header

/-!
# Configuring the header

The header is configured by macros, which have defaults. The builder defines them by the
arguments it gives to clang: the tracing level, which comes from an environment variable if
it is not set, and the sizes that were set. What the caller adds comes last. So the header
gets to see what the caller says about a macro, and what the builder was told otherwise.
-/

namespace Xbpf

namespace Header

open Preprocessor

/-- The levels that the header has names for. -/
def levelConstants : List (Text × ℕ) :=
  [("BPF_TRACING_LEVEL_OFF".toList, 0), ("BPF_TRACING_LEVEL_ERROR".toList, 1),
    ("BPF_TRACING_LEVEL_WARN".toList, 2), ("BPF_TRACING_LEVEL_INFO".toList, 3),
    ("BPF_TRACING_LEVEL_DEBUG".toList, 4), ("BPF_TRACING_LEVEL_TRACE".toList, 5)]

/-- What the header is compiled with. -/
structure Config where
  bpfTracingLevel : ℕ
  bpfTracingRingBufSize : ℕ
  bpfTracingStrLen : ℕ
  bpfTracingSourceLoc : Bool
  deriving DecidableEq, Repr

def valueOr (macros : Text → Option Text) (name : Text) (default : ℕ) : Option ℕ :=
  match macros name with
  | none => some default
  | some text => (levelConstants.lookup text).or (number? text)

def bpfTracingLevelMacro : Text := "BPF_TRACING_LEVEL".toList

def bpfTracingRingBufSizeMacro : Text := "BPF_TRACING_RING_BUF_SIZE".toList

def bpfTracingStrLenMacro : Text := "BPF_TRACING_STR_LEN".toList

def bpfTracingSourceLocMacro : Text := "BPF_TRACING_SOURCE_LOC".toList

/-- The configuration that the header reads off the macros, with its defaults. -/
def config (macros : Text → Option Text) : Option Config := do
  let bpfTracingLevel ← valueOr macros bpfTracingLevelMacro bpfTracingLevelOff
  let bpfTracingRingBufSize ← valueOr macros bpfTracingRingBufSizeMacro 8192
  let bpfTracingStrLen ← valueOr macros bpfTracingStrLenMacro bpfTracingStrLen
  let bpfTracingSourceLoc := (macros bpfTracingSourceLocMacro).isSome
  some { bpfTracingLevel, bpfTracingRingBufSize, bpfTracingStrLen, bpfTracingSourceLoc }

end Header

namespace Build

open Files Preprocessor Runs
open Tracing (LevelFilter)

structure Features where
  tracing : Bool
  tracingSourceLoc : Bool

/-- What a filter enables, by target and level. -/
abbrev EnvFilter :=
  String → Tracing.Level → Bool

def levelFromEnv (filter : EnvFilter) : LevelFilter :=
  if filter "bpf" .trace then .upTo .trace
  else if filter "bpf" .debug then .upTo .debug
  else if filter "bpf" .info then .upTo .info
  else if filter "bpf" .warn then .upTo .warn
  else if filter "bpf" .error then .upTo .error
  else .off

def defineArgs (name : Text) (n : ℕ) : List Name :=
  ["-D".toList, name ++ '=' :: decimal n]

def includeArgs (dir : Name) : List Name :=
  ["-I".toList, dir]

def tracingClangArgs (features : Features) (includePathRoot : Name) (level : LevelFilter) :
    List Name :=
  let args := includeArgs includePathRoot
  let logLevel := level.verbosity
  if logLevel = 0 then args
  else
    args ++ defineArgs Header.bpfTracingLevelMacro logLevel ++
      if features.tracingSourceLoc then defineArgs Header.bpfTracingSourceLocMacro 1 else []

def tracingRingBufSizeArgs (size : ℕ) : List Name :=
  defineArgs Header.bpfTracingRingBufSizeMacro size

def tracingStrLenArgs (len : ℕ) : List Name :=
  defineArgs Header.bpfTracingStrLenMacro len

def osString (path : Path Char) : Name :=
  match path with
  | [.rootDir] => ['/']
  | _ => ['/'].intercalate (path.map fun c =>
      match c with
      | .rootDir => []
      | .curDir => ['.']
      | .parentDir => ['.', '.']
      | .normal name => name)

structure ClangBuilder extends Builder Char where
  clangArgs : List Name
  tracingLevel : Option LevelFilter
  tracingRingBufSize : Option ℕ
  tracingStrLen : Option ℕ

namespace ClangBuilder

variable {C : Type}

def new : ClangBuilder where
  toBuilder := .new
  clangArgs := []
  tracingLevel := none
  tracingRingBufSize := none
  tracingStrLen := none

def clangArg (self : ClangBuilder) (args : List Name) : ClangBuilder :=
  { self with clangArgs := self.clangArgs ++ args }

def setTracingLevel (self : ClangBuilder) (level : LevelFilter) : ClangBuilder :=
  { self with tracingLevel := some level }

def setTracingRingBufSize (self : ClangBuilder) (size : ℕ) : ClangBuilder :=
  { self with tracingRingBufSize := some size }

def setTracingStrLen (self : ClangBuilder) (len : ℕ) : ClangBuilder :=
  { self with tracingStrLen := some len }

def level (self : ClangBuilder) (defaultEnv : EnvFilter) : LevelFilter :=
  match self.tracingLevel with
  | some level => level
  | none => levelFromEnv defaultEnv

def tracingArgs (self : ClangBuilder) (features : Features) (includePathRoot : Name)
    (defaultEnv : EnvFilter) : List Name :=
  if features.tracing then
    tracingClangArgs features includePathRoot (self.level defaultEnv) ++
      (match self.tracingRingBufSize with
      | some size => tracingRingBufSizeArgs size
      | none => []) ++
      match self.tracingStrLen with
      | some len => tracingStrLenArgs len
      | none => []
  else []

def allClangArgs (self : ClangBuilder) (features : Features) (includePathRoot : Name)
    (defaultEnv : EnvFilter) (env : Environment Char C) : Script Char C (List Name) := do
  let outDir ← self.getOutDir env
  let btfInclude ← dumpKernelBtf env outDir
  pure (includeArgs (osString btfInclude) ++
    self.tracingArgs features includePathRoot defaultEnv ++ self.clangArgs)

def tracingOpts (self : ClangBuilder) (features : Features) (includePathRoot : Name)
    (defaultEnv : EnvFilter) : List Opt :=
  let level := (self.level defaultEnv).verbosity
  if features.tracing then
    [.includeDir includePathRoot] ++
      (if level = 0 then []
      else [.define Header.bpfTracingLevelMacro (decimal level)] ++
        if features.tracingSourceLoc then [.define Header.bpfTracingSourceLocMacro (decimal 1)]
        else []) ++
      (self.tracingRingBufSize.map fun size =>
        .define Header.bpfTracingRingBufSizeMacro (decimal size)).toList ++
      (self.tracingStrLen.map fun len =>
        .define Header.bpfTracingStrLenMacro (decimal len)).toList
  else []

def setting (self : ClangBuilder) (features : Features) (defaultEnv : EnvFilter)
    (name : Text) : Option ℕ :=
  let level := (self.level defaultEnv).verbosity
  if features.tracing = false then none
  else if name = Header.bpfTracingLevelMacro then if level = 0 then none else some level
  else if name = Header.bpfTracingSourceLocMacro then
    if level ≠ 0 ∧ features.tracingSourceLoc = true then some 1 else none
  else if name = Header.bpfTracingRingBufSizeMacro then self.tracingRingBufSize
  else if name = Header.bpfTracingStrLenMacro then self.tracingStrLen
  else none

def config (self : ClangBuilder) (features : Features) (defaultEnv : EnvFilter) :
    Header.Config :=
  if features.tracing then
    { bpfTracingLevel := (self.level defaultEnv).verbosity
      bpfTracingRingBufSize := self.tracingRingBufSize.getD 8192
      bpfTracingStrLen := self.tracingStrLen.getD Header.bpfTracingStrLen
      bpfTracingSourceLoc :=
        features.tracingSourceLoc && decide ((self.level defaultEnv).verbosity ≠ 0) }
  else
    { bpfTracingLevel := Header.bpfTracingLevelOff
      bpfTracingRingBufSize := 8192
      bpfTracingStrLen := Header.bpfTracingStrLen
      bpfTracingSourceLoc := false }

end ClangBuilder

section Options

variable {separate : Text → Bool}

theorem parse_defineArgs {name : Text} (hname : (name.all fun c => c != '=' && c != '(') = true)
    (n : ℕ) : parse separate (defineArgs name n) = some [.define name (decimal n)] := by
  have h : ∀ c ∈ name, c ≠ '=' ∧ c ≠ '(' := by
    simpa using hname
  have hshape : shape separate "-D".toList = .withNext .ofDefine := rfl
  rw [defineArgs, parse_withNext hshape, Opt.ofDefine_eq h]
  rfl

theorem parse_includeArgs (dir : Name) :
    parse separate (includeArgs dir) = some [.includeDir dir] :=
  rfl

theorem parse_append_eq_some {args args' : List Text} {opts opts' : List Opt}
    (h : parse separate args = some opts) (h' : parse separate args' = some opts') :
    parse separate (args ++ args') = some (opts ++ opts') := by
  rw [parse_append h, h']
  rfl

theorem parse_tracingClangArgs (features : Features) (includePathRoot : Name)
    (level : LevelFilter) :
    parse separate (tracingClangArgs features includePathRoot level) =
      some ([.includeDir includePathRoot] ++
        (if level.verbosity = 0 then []
        else [.define Header.bpfTracingLevelMacro (decimal level.verbosity)] ++
          if features.tracingSourceLoc then
            [.define Header.bpfTracingSourceLocMacro (decimal 1)]
          else [])) := by
  have hlevel : parse separate (defineArgs Header.bpfTracingLevelMacro level.verbosity) = _ :=
    parse_defineArgs rfl level.verbosity
  have hloc : parse separate (defineArgs Header.bpfTracingSourceLocMacro 1) = _ :=
    parse_defineArgs rfl 1
  have hinclude : parse separate (includeArgs includePathRoot) = _ :=
    parse_includeArgs includePathRoot
  rw [tracingClangArgs]
  by_cases hoff : level.verbosity = 0
  · simp only [hoff, if_true]
    exact parse_append_eq_some hinclude rfl
  · simp only [hoff, if_false]
    rw [List.append_assoc]
    refine parse_append_eq_some hinclude (parse_append_eq_some hlevel ?_)
    cases features.tracingSourceLoc with
    | false => rfl
    | true => exact hloc

theorem ClangBuilder.parse_tracingArgs (b : ClangBuilder) (features : Features)
    (includePathRoot : Name) (defaultEnv : EnvFilter) :
    parse separate (b.tracingArgs features includePathRoot defaultEnv) =
      some (b.tracingOpts features includePathRoot defaultEnv) := by
  rw [tracingArgs, tracingOpts]
  by_cases htracing : features.tracing = true
  · rw [if_pos htracing, if_pos htracing]
    refine parse_append_eq_some (parse_append_eq_some (parse_tracingClangArgs ..) ?_) ?_
    · cases b.tracingRingBufSize with
      | none => rfl
      | some size => exact parse_defineArgs rfl size
    · cases b.tracingStrLen with
      | none => rfl
      | some len => exact parse_defineArgs rfl len
  · rw [if_neg htracing, if_neg htracing]
    rfl

end Options

section Config

variable (b : ClangBuilder) (features : Features) (includePathRoot : Name)
  (defaultEnv : EnvFilter)

theorem valueOr_of_decimal {macros : Text → Option Text} {name : Text} {default n : ℕ}
    (h : macros name = some (decimal n)) : Header.valueOr macros name default = some n := by
  have hnames : ∀ p ∈ Header.levelConstants, number? p.1 = none := by decide
  have hlookup : Header.levelConstants.lookup (decimal n) = none := by
    rw [List.lookup_eq_none_iff]
    intro p hp
    rw [bne_iff_ne]
    rintro heq
    have hnone := hnames p hp
    rw [← heq, number?_decimal] at hnone
    cases hnone
  rw [Header.valueOr, h]
  simp only [hlookup, Option.none_or, number?_decimal]

/-- A macro that was set to a number or not at all. -/
theorem valueOr_of_setting {macros : Text → Option Text} {name : Text} (default : ℕ)
    {setting : Option ℕ} (h : macros name = setting.map decimal) :
    Header.valueOr macros name default = some (setting.getD default) := by
  cases setting with
  | none => rw [Header.valueOr, h, Option.map_none, Option.getD_none]
  | some n => exact valueOr_of_decimal h

theorem effect_toList (setting : Option ℕ) (n name : Text) :
    effect (setting.map fun k => Opt.define n (decimal k)).toList name =
      if n = name then setting.map fun k => some (decimal k) else none := by
  cases setting with
  | none => simp
  | some k => simp

/-- The options of the tracing macros make of a macro what the builder was told. -/
theorem effect_tracingOpts (name : Text) :
    effect (b.tracingOpts features includePathRoot defaultEnv) name =
      (b.setting features defaultEnv name).map fun n => some (decimal n) := by
  rw [ClangBuilder.tracingOpts, ClangBuilder.setting]
  cases features.tracing with
  | false => rfl
  | true =>
      simp only [Bool.true_eq_false, if_true, if_false, effect_append, effect_includeDir,
        effect_toList, apply_ite fun opts => effect opts name, effect_nil, effect_define]
      by_cases hlevel : name = Header.bpfTracingLevelMacro
      · subst hlevel
        simp +decide [apply_ite]
      by_cases hloc : name = Header.bpfTracingSourceLocMacro
      · subst hloc
        by_cases hoff : (b.level defaultEnv).verbosity = 0 <;>
          cases features.tracingSourceLoc <;> simp +decide [hoff]
      by_cases hsize : name = Header.bpfTracingRingBufSizeMacro
      · subst hsize
        simp +decide
      by_cases hlen : name = Header.bpfTracingStrLenMacro
      · subst hlen
        simp +decide
      simp [hlevel, hloc, hsize, hlen, Ne.symm hlevel, Ne.symm hloc, Ne.symm hsize, Ne.symm hlen]

theorem includeDirs_tracingOpts :
    includeDirs (b.tracingOpts features includePathRoot defaultEnv) =
      if features.tracing then [includePathRoot] else [] := by
  rw [ClangBuilder.tracingOpts]
  cases features.tracing with
  | false => rfl
  | true =>
      by_cases hoff : (b.level defaultEnv).verbosity = 0 <;>
        cases features.tracingSourceLoc <;> cases b.tracingRingBufSize <;>
          cases b.tracingStrLen <;> simp [includeDirs, hoff]

/-- The header reads off the macros what the builder was told. -/
theorem config_of_settings {macros : Text → Option Text}
    (h : ∀ name ∈ [Header.bpfTracingLevelMacro, Header.bpfTracingRingBufSizeMacro,
        Header.bpfTracingStrLenMacro, Header.bpfTracingSourceLocMacro],
      macros name = (b.setting features defaultEnv name).map decimal) :
    Header.config macros = some (b.config features defaultEnv) := by
  have hlevel := valueOr_of_setting Header.bpfTracingLevelOff
    (h Header.bpfTracingLevelMacro (by simp))
  have hsize := valueOr_of_setting 8192 (h Header.bpfTracingRingBufSizeMacro (by simp))
  have hlen := valueOr_of_setting Header.bpfTracingStrLen
    (h Header.bpfTracingStrLenMacro (by simp))
  have hloc := h Header.bpfTracingSourceLocMacro (by simp)
  rw [Header.config, hlevel, hsize, hlen, hloc]
  cases htracing : features.tracing with
  | false => simp [ClangBuilder.setting, ClangBuilder.config, htracing]
  | true =>
      by_cases hoff : (b.level defaultEnv).verbosity = 0 <;>
        cases hfeature : features.tracingSourceLoc <;>
          simp +decide [ClangBuilder.setting, ClangBuilder.config, htracing, hoff, hfeature]

end Config

section Build

variable {C : Type} {b : ClangBuilder} {features : Features} {includePathRoot : Name}
  {defaultEnv : EnvFilter} {env : Environment Char C} {fs fs' : FileSystem Char C}
  {args : List Name} {separate : Text → Bool} {user : List Opt}

theorem eq_of_exec_dumpKernelBtf {dir path : Path Char}
    (h : Fallible.exec (dumpKernelBtf env dir) fs = (.ok path, fs')) : path = dir := by
  obtain ⟨_, _, _, h⟩ := Fallible.exec_bind_eq_ok h
  split at h
  · cases h
    rfl
  · rw [writeKernelBtf] at h
    split at h
    · cases h
    · cases h
    · obtain ⟨_, _, _, h⟩ := Fallible.exec_bind_eq_ok h
      obtain ⟨_, _, _, h⟩ := Fallible.exec_bind_eq_ok h
      cases h
      rfl

/-- The arguments are the directory of the BTF, those of the tracing macros and those of
the caller. -/
theorem eq_of_exec_allClangArgs
    (h : Fallible.exec (b.allClangArgs features includePathRoot defaultEnv env) fs =
      (.ok args, fs')) :
    ∃ outDir, (b.outDir <|> env.outDir) = some outDir ∧
      args = includeArgs (osString outDir) ++
        b.tracingArgs features includePathRoot defaultEnv ++ b.clangArgs := by
  obtain ⟨outDir, fs₁, hdir, h⟩ := Fallible.exec_bind_eq_ok h
  obtain ⟨path, fs₂, hdump, h⟩ := Fallible.exec_bind_eq_ok h
  cases h
  refine ⟨outDir, ?_, by rw [eq_of_exec_dumpKernelBtf hdump]⟩
  rw [Builder.getOutDir] at hdir
  cases hout : (b.outDir <|> env.outDir) with
  | none =>
      rw [hout] at hdir
      cases hdir
  | some dir =>
      rw [hout] at hdir
      cases hdir
      rfl

theorem parse_of_exec_allClangArgs
    (hexec : Fallible.exec (b.allClangArgs features includePathRoot defaultEnv env) fs =
      (.ok args, fs'))
    (huser : parse separate b.clangArgs = some user) :
    ∃ outDir, (b.outDir <|> env.outDir) = some outDir ∧
      parse separate args = some ([.includeDir (osString outDir)] ++
        b.tracingOpts features includePathRoot defaultEnv ++ user) := by
  obtain ⟨outDir, hdir, rfl⟩ := eq_of_exec_allClangArgs hexec
  exact ⟨outDir, hdir, parse_append_eq_some
    (parse_append_eq_some (parse_includeArgs (osString outDir))
      (b.parse_tracingArgs features includePathRoot defaultEnv)) huser⟩

/-- A macro is what the caller makes of it, or what the builder was told. -/
theorem macros_allOpts (dir name : Text) :
    macros ([.includeDir dir] ++ b.tracingOpts features includePathRoot defaultEnv ++ user)
        name =
      (effect user name).getD ((b.setting features defaultEnv name).map decimal) := by
  rw [macros_append, macros_eq, effect_append, effect_tracingOpts, effect_includeDir,
    Option.or_none]
  cases b.setting features defaultEnv name <;> rfl

/-- The header is configured as the builder was told if the caller says nothing. -/
theorem config_allOpts (dir : Text)
    (hsilent : ∀ name ∈ [Header.bpfTracingLevelMacro, Header.bpfTracingRingBufSizeMacro,
        Header.bpfTracingStrLenMacro, Header.bpfTracingSourceLocMacro],
      effect user name = none) :
    Header.config (macros ([.includeDir dir] ++
      b.tracingOpts features includePathRoot defaultEnv ++ user)) =
        some (b.config features defaultEnv) := by
  refine config_of_settings b features defaultEnv fun name hname => ?_
  rw [macros_allOpts, hsilent name hname]
  rfl

/-- A builder that is told a level, and that the caller has add another length of strings. -/
def shortStrings : ClangBuilder :=
  (ClangBuilder.new.setTracingLevel (.upTo .info)).clangArg
    ["-D".toList, "BPF_TRACING_STR_LEN=64".toList]

def outScript : Environment Char Unit where
  outDir := some [.rootDir, .normal "out".toList]
  manifestDir := none
  glob _ := none
  bpftool := .missing
  generate _ := none

end Build

end Build

end Xbpf
