import Mathlib.Data.List.Dedup
import Mathlib.Data.List.Infix
import Xbpf.Build.Placement
import Xbpf.Files.Entries
import Xbpf.Files.Glob

/-!
# Finding the sources of a crate

The sources of a crate are found by a pattern that the path of the crate is a part of.
They are the files below its `src` whose names end in a suffix, as long as nothing else
there has such a name. This needs a path of the crate whose characters all stand for
themselves. Any other path leads astray, or is not a pattern at all.
-/

namespace Xbpf

namespace Build

open Files Runs

variable {C : Type}

def belowSrc (root : Path Char) (dirs : List Name) (name : Name) : Path Char :=
  root ++ src :: dirs.map .normal ++ [.normal name]

/-- A file below the `src` of a crate whose name ends in a dot and the suffix. -/
def IsSourceFile (fs : FileSystem Char C) (root : Path Char) (suffix : Name)
    (file : Path Char) : Prop :=
  ∃ dirs name, file = belowSrc root dirs name ∧ '.' :: suffix <:+ name ∧
    filePrefix file ≠ none ∧ (fs.read file).isSome = true

def IsRegular (fs : FileSystem Char C) (root : Path Char) (suffix : Name) : Prop :=
  ∀ dirs name, '.' :: suffix <:+ name → fs.symlinkMetadata (belowSrc root dirs name) = true →
    (fs.read (belowSrc root dirs name)).isSome = true

/-- What is globbed are the source files of a crate, each of them once. -/
def Discovers (fs : FileSystem Char C) (env : Environment Char C) (self : Builder Char)
    (root : Path Char) (suffix : Name) : Prop :=
  ∃ found counts, Fallible.exec (self.namedSources env) fs =
      (.ok (found ++ Builder.named self.sources, counts), fs) ∧
    (found.map Prod.fst).Nodup ∧
    ∀ file, file ∈ found.map Prod.fst ↔ IsSourceFile fs root suffix file

/-- A builder is used in the build script of a crate. -/
structure IsBuildScript (fs : FileSystem Char C) (env : Environment Char C) (manifestDir : Name)
    (builder : Builder Char) : Prop where
  manifestDir_eq : env.manifestDir = some manifestDir
  finds : Glob.Finds fs (push manifestDir builder.pattern)
    (env.glob (push manifestDir builder.pattern))

/-- The default is a suffix as well. -/
theorem sourcesWithSuffix_new :
    (Builder.new : Builder Char).sourcesWithSuffix "bpf.c".toList = .new :=
  rfl

section Pattern

variable {suffix manifestDir : Name} {pattern : List Glob.PatternComponent} {path : Path Char}

def sourcePattern (suffix : Name) : List Glob.PatternComponent :=
  [.name ("src".toList.map .char), .anyRecursiveSequence,
    .name (.anySequence :: ('.' :: suffix).map .char)]

theorem matches_sourcePattern :
    Glob.Matches (sourcePattern suffix) path ↔
      ∃ dirs name, path = belowSrc [] dirs name ∧ '.' :: suffix <:+ name := by
  simp only [sourcePattern, Glob.matches_name_cons, Glob.matches_anyRecursiveSequence_cons,
    Glob.matchesName_map_char, Glob.matchesName_anySequence_map_char, Glob.matches_nil]
  constructor
  · rintro ⟨_, _, rfl, rfl, dirs, _, rfl, name, _, rfl, hname, rfl⟩
    exact ⟨dirs, name, rfl, hname⟩
  · rintro ⟨dirs, name, rfl, hname⟩
    exact ⟨_, _, rfl, rfl, dirs, _, rfl, name, _, rfl, hname, rfl⟩

theorem matches_append_sourcePattern :
    Glob.Matches (pattern ++ sourcePattern suffix) path ↔
      ∃ root dirs name, path = belowSrc root dirs name ∧ Glob.Matches pattern root ∧
        '.' :: suffix <:+ name := by
  simp only [Glob.matches_append, matches_sourcePattern]
  constructor
  · rintro ⟨root, _, rfl, hroot, dirs, name, rfl, hname⟩
    exact ⟨root, dirs, name, by simp [belowSrc], hroot, hname⟩
  · rintro ⟨root, dirs, name, rfl, hroot, hname⟩
    exact ⟨root, belowSrc [] dirs name, by simp [belowSrc], hroot, dirs, name, rfl, hname⟩

theorem parseComponent_suffix (h : Glob.IsPlain suffix) :
    Glob.parseComponent (.normal ("*.".toList ++ suffix)) =
      some (.name (.anySequence :: ('.' :: suffix).map .char)) := by
  have hplain : Glob.IsPlain ('.' :: suffix) := Glob.isPlain_cons.mpr ⟨by decide, h⟩
  have htokens : Glob.parseTokens none ("*.".toList ++ suffix) =
      (Glob.parseTokens none ('.' :: suffix)).map (.anySequence :: ·) := rfl
  rw [Glob.parseComponent, if_neg (fun heq => by cases heq), htokens,
    Glob.parseTokens_of_isPlain hplain]
  rfl

theorem components_pattern (hroot : manifestDir ≠ []) (hsuffix : '/' ∉ suffix)
    (self : Builder Char) :
    components (push manifestDir (self.sourcesWithSuffix suffix).pattern) =
      components manifestDir ++
        [src, .normal "**".toList, .normal ("*.".toList ++ suffix)] := by
  have htext : (self.sourcesWithSuffix suffix).pattern =
      "src".toList ++ '/' :: ("**".toList ++ '/' :: ("*.".toList ++ suffix)) := rfl
  have hlast : '/' ∉ "*.".toList ++ suffix := by
    simp [hsuffix]
  have hsplit : (self.sourcesWithSuffix suffix).pattern.splitOn PathAlphabet.sep =
      ["src".toList, "**".toList, "*.".toList ++ suffix] := by
    rw [htext]
    refine (List.splitOn_append_cons_self_of_not_mem (by decide) _).trans ?_
    refine congrArg _ ((List.splitOn_append_cons_self_of_not_mem (by decide) _).trans ?_)
    exact congrArg _ (List.splitOn_eq_singleton hlast)
  have hhead : (self.sourcesWithSuffix suffix).pattern.head? ≠ some PathAlphabet.sep := by
    rw [htext]
    exact fun heq => absurd (Option.some.inj heq) (by decide)
  rw [components_push hroot hhead, hsplit]
  rfl

theorem parse_pattern (hroot : manifestDir ≠ []) (hplain : Glob.IsPlain suffix)
    (hsuffix : '/' ∉ suffix) (self : Builder Char) :
    Glob.parse (push manifestDir (self.sourcesWithSuffix suffix).pattern) =
      ((components manifestDir).mapM Glob.parseComponent).map (· ++ sourcePattern suffix) := by
  have hsrc : Glob.parseComponent src = some (.name ("src".toList.map .char)) :=
    Glob.parseComponent_of_isPlain (by decide)
  have hdirs : Glob.parseComponent (.normal "**".toList) = some .anyRecursiveSequence := rfl
  have htail : [src, .normal "**".toList, .normal ("*.".toList ++ suffix)].mapM
      Glob.parseComponent = some (sourcePattern suffix) := by
    simp only [List.mapM_cons, List.mapM_nil, hsrc, hdirs, parseComponent_suffix hplain]
    rfl
  rw [Glob.parse, components_pattern hroot hsuffix, List.mapM_append, htail]
  cases (components manifestDir).mapM Glob.parseComponent <;> rfl

end Pattern

theorem filePrefix_belowSrc (root : Path Char) (dirs : List Name) (name : Name) :
    filePrefix (belowSrc root dirs name) = some (splitFileAtDot name) := by
  rw [filePrefix, fileName, belowSrc, List.getLast?_concat]
  rfl

/-- No file is left out that has a name. -/
theorem map_fst_named {files : List (Path Char)} (h : ∀ file ∈ files, filePrefix file ≠ none) :
    (Builder.named files).map Prod.fst = files := by
  induction files with
  | nil => rfl
  | cons file files ih =>
      obtain ⟨hfile, hfiles⟩ := List.forall_mem_cons.mp h
      obtain ⟨name, hname⟩ := Option.ne_none_iff_exists'.mp hfile
      have hcons : Builder.named (file :: files) = (file, name) :: Builder.named files := by
        rw [Builder.named, List.filterMap_cons, hname]
        rfl
      rw [hcons, List.map_cons, ih hfiles]

section Reduction

variable {fs : FileSystem Char C} {env : Environment Char C} {self : Builder Char}
  {manifestDir suffix : Name} {root : Path Char} {pattern : List Glob.PatternComponent}

theorem globbed_eq (hscript : IsBuildScript fs env manifestDir self) :
    self.globbed env =
      (env.glob (push manifestDir self.pattern)).map fun files => files.filterMap id := by
  rw [Builder.globbed, hscript.manifestDir_eq]
  rfl

theorem exec_namedSources {globbed : List (Path Char)} (h : self.globbed env = some globbed) :
    Fallible.exec (self.namedSources env) fs =
      (.ok (Builder.named globbed ++ Builder.named self.sources,
        Builder.nameCount (Builder.named (globbed ++ self.sources))), fs) := by
  have happend : Builder.named (globbed ++ self.sources) =
      Builder.named globbed ++ Builder.named self.sources := List.filterMap_append
  rw [Builder.namedSources, h, ← happend]
  rfl

theorem not_discovers (hscript : IsBuildScript fs env manifestDir self)
    (hparse : Glob.parse (push manifestDir self.pattern) = none) :
    ¬ Discovers fs env self root suffix := by
  rintro ⟨found, counts, hexec, _⟩
  have hfinds := hscript.finds
  rw [Glob.Finds, hparse] at hfinds
  have hglobbed : self.globbed env = none := by
    rw [globbed_eq hscript, show env.glob (push manifestDir self.pattern) = none from hfinds]
    rfl
  rw [Builder.namedSources, hglobbed] at hexec
  cases hexec

/-- The source files of a crate are discovered exactly if they are the entries that the
pattern matches. -/
theorem discovers_iff_forall (hscript : IsBuildScript fs env manifestDir self)
    (hparse : Glob.parse (push manifestDir self.pattern) =
      some (pattern ++ sourcePattern suffix)) :
    Discovers fs env self root suffix ↔
      ∀ file, (Glob.Matches (pattern ++ sourcePattern suffix) file ∧
        fs.symlinkMetadata file = true) ↔ IsSourceFile fs root suffix file := by
  obtain ⟨found, hfound, hnodup, hmem⟩ : ∃ found,
      env.glob (push manifestDir self.pattern) = some found ∧ (found.filterMap id).Nodup ∧
      ∀ path, some path ∈ found ↔ Glob.Matches (pattern ++ sourcePattern suffix) path ∧
        fs.symlinkMetadata path = true := by
    have hfinds := hscript.finds
    rw [Glob.Finds, hparse] at hfinds
    exact hfinds
  have hglobbed : self.globbed env = some (found.filterMap id) := by
    rw [globbed_eq hscript, hfound]
    rfl
  have hiff (file : Path Char) : file ∈ found.filterMap id ↔
      Glob.Matches (pattern ++ sourcePattern suffix) file ∧ fs.symlinkMetadata file = true := by
    rw [← hmem, List.mem_filterMap]
    simp
  have hnamed : (Builder.named (found.filterMap id)).map Prod.fst = found.filterMap id := by
    refine map_fst_named fun file hfile => ?_
    obtain ⟨root, dirs, name, rfl, _⟩ := matches_append_sourcePattern.mp ((hiff file).mp hfile).1
    rw [filePrefix_belowSrc]
    simp
  constructor
  · rintro ⟨found', counts, hexec, _, hsources⟩ file
    rw [exec_namedSources hglobbed] at hexec
    obtain ⟨hok, -⟩ := Prod.mk.inj hexec
    obtain ⟨happend, -⟩ := Prod.mk.inj (Except.ok.inj hok)
    rw [← List.append_cancel_right happend, hnamed] at hsources
    rw [← hsources, hiff]
  · intro hall
    refine ⟨_, _, exec_namedSources hglobbed, by rwa [hnamed], fun file => ?_⟩
    rw [hnamed, hiff, hall]

end Reduction

section Root

variable {fs : FileSystem Char C} {env : Environment Char C} {self : Builder Char}
  {manifestDir suffix : Name} {root : List Name} {pattern : List Glob.PatternComponent}
  {path : Path Char}

theorem ne_nil_of_components (hroot : components manifestDir = .rootDir :: root.map .normal) :
    manifestDir ≠ [] := by
  rintro rfl
  cases hroot

/-- In a crate whose path stands for itself, the source files are discovered exactly if
nothing else has the name of one. -/
theorem discovers_iff_isRegular (hroot : components manifestDir = .rootDir :: root.map .normal)
    (hplain : ∀ x ∈ root, Glob.IsPlain x) (hsuffix : Glob.IsPlain suffix) (hsep : '/' ∉ suffix)
    (hscript : IsBuildScript fs env manifestDir (self.sourcesWithSuffix suffix)) :
    Discovers fs env (self.sourcesWithSuffix suffix) (components manifestDir) suffix ↔
      IsRegular fs (components manifestDir) suffix := by
  have hparse := parse_pattern (ne_nil_of_components hroot) hsuffix hsep self
  have hcomponents : (components manifestDir).mapM Glob.parseComponent =
      some (.exactly .rootDir :: root.map fun x => .name (x.map .char)) := by
    have hfirst : Glob.parseComponent .rootDir = some (.exactly .rootDir) := rfl
    rw [hroot, List.mapM_cons, hfirst, Glob.mapM_parseComponent_of_isPlain hplain]
    rfl
  have hmatches (r : Path Char) :
      Glob.Matches (.exactly .rootDir :: root.map fun x => .name (x.map .char)) r ↔
        r = components manifestDir := by
    simp only [Glob.matches_exactly_cons, Glob.matches_map_name, exists_eq_right, hroot]
  rw [hcomponents, Option.map_some] at hparse
  rw [discovers_iff_forall hscript hparse]
  simp only [matches_append_sourcePattern, hmatches]
  constructor
  · intro hall dirs name hname hentry
    obtain ⟨_, _, _, _, _, hread⟩ := (hall _).mp ⟨⟨_, dirs, name, rfl, rfl, hname⟩, hentry⟩
    exact hread
  · intro hregular file
    constructor
    · rintro ⟨⟨_, dirs, name, rfl, rfl, hname⟩, hentry⟩
      refine ⟨dirs, name, rfl, hname, ?_, hregular dirs name hname hentry⟩
      rw [filePrefix_belowSrc]
      simp
    · rintro ⟨dirs, name, rfl, hname, _, hread⟩
      exact ⟨⟨_, dirs, name, rfl, rfl, hname⟩, FileSystem.symlinkMetadata_of_read hread⟩

theorem belowSrc_eq (root : List Name) (dirs : List Name) (name : Name) :
    belowSrc (.rootDir :: root.map .normal) dirs name =
      .rootDir :: (root ++ "src".toList :: dirs).map .normal ++ [.normal name] := by
  simp [belowSrc, src]

theorem prefix_of_symlinkMetadata {l : Location Char} {x y : Name} {c : C} {names : List Name}
    (h : (FileSystem.ofFile l x c).symlinkMetadata
      (.rootDir :: names.map .normal ++ [.normal y]) = true) : names ++ [y] <+: l ++ [x] :=
  FileSystem.prefix_of_node_ofFile
    (FileSystem.node_of_symlinkMetadata (fun _ => FileSystem.node_ofFile_ne_symlink) h)

theorem exists_finds (l : Location Char) (x : Name) (c : C) {text : Name}
    (hparse : Glob.parse text = some pattern)
    (hnames : ∀ path, Glob.Matches pattern path → ∃ (names : List Name) (y : Name),
      path = .rootDir :: names.map .normal ++ [.normal y]) :
    ∃ result, Glob.Finds (FileSystem.ofFile l x c) text result := by
  classical
  let paths : List (Path Char) :=
    ((l ++ [x]).inits.map fun k => Component.rootDir :: k.map .normal).dedup.filter fun path =>
      Glob.Matches pattern path ∧ (FileSystem.ofFile l x c).symlinkMetadata path = true
  refine ⟨some (paths.map some), ?_⟩
  rw [Glob.Finds, hparse]
  refine ⟨_, rfl, ?_, fun path => ?_⟩
  · rw [List.filterMap_map]
    simpa using (List.nodup_dedup _).filter _
  · simp only [List.mem_map, Option.some.injEq, exists_eq_right, paths, List.mem_filter,
      List.mem_dedup, decide_eq_true_eq]
    refine ⟨And.right, fun hfound => ⟨?_, hfound⟩⟩
    obtain ⟨names, y, rfl⟩ := hnames path hfound.1
    refine ⟨names ++ [y], List.mem_inits _ _ |>.mpr (prefix_of_symlinkMetadata hfound.2), ?_⟩
    simp

theorem mapM_components (hroot : components manifestDir = .rootDir :: root.map .normal) :
    (components manifestDir).mapM Glob.parseComponent =
      ((root.map Component.normal).mapM Glob.parseComponent).map (.exactly .rootDir :: ·) := by
  have hfirst : Glob.parseComponent .rootDir = some (.exactly .rootDir) := rfl
  rw [hroot, List.mapM_cons, hfirst]
  cases (root.map Component.normal).mapM Glob.parseComponent <;> rfl

theorem exists_isBuildScript (hroot : components manifestDir = .rootDir :: root.map .normal)
    (hsuffix : Glob.IsPlain suffix) (hsep : '/' ∉ suffix) (self : Builder Char)
    (l : Location Char) (x : Name) (c : C) :
    ∃ env, IsBuildScript (FileSystem.ofFile l x c) env manifestDir
      (self.sourcesWithSuffix suffix) := by
  suffices h : ∃ result, Glob.Finds (FileSystem.ofFile l x c)
      (push manifestDir (self.sourcesWithSuffix suffix).pattern) result by
    obtain ⟨result, hfinds⟩ := h
    exact ⟨⟨none, some manifestDir, fun _ => result, .missing, fun _ => none⟩, rfl, hfinds⟩
  have hparse := parse_pattern (ne_nil_of_components hroot) hsuffix hsep self
  rw [mapM_components hroot] at hparse
  cases hnames : (root.map Component.normal).mapM Glob.parseComponent with
  | none =>
      rw [hnames] at hparse
      refine ⟨none, ?_⟩
      rw [Glob.Finds, hparse]
      rfl
  | some pattern =>
      rw [hnames] at hparse
      refine exists_finds l x c hparse fun path hpath => ?_
      obtain ⟨_, dirs, name, rfl, hmatches, _⟩ := matches_append_sourcePattern.mp hpath
      obtain ⟨_, rfl, hrest⟩ := Glob.matches_exactly_cons.mp hmatches
      obtain ⟨names, rfl⟩ := Glob.exists_names hnames hrest
      exact ⟨_, name, belowSrc_eq names dirs name⟩

section OneFile

variable {x : Name} {c : C}

theorem eq_of_symlinkMetadata_ofFile {dirs : List Name} {y : Name}
    (h : (FileSystem.ofFile (root ++ ["src".toList]) x c).symlinkMetadata
      (belowSrc (.rootDir :: root.map .normal) dirs y) = true) : dirs = [] ∧ y = x := by
  rw [belowSrc_eq] at h
  have hprefix := prefix_of_symlinkMetadata h
  rw [List.append_assoc, List.append_assoc, List.prefix_append_right_inj, List.cons_append,
    List.singleton_append, List.cons_prefix_cons] at hprefix
  cases dirs with
  | nil => exact ⟨rfl, (List.cons_prefix_cons.mp hprefix.2).1⟩
  | cons d dirs =>
      have hlen := hprefix.2.length_le
      simp at hlen

theorem read_ofFile : (FileSystem.ofFile (root ++ ["src".toList]) x c).read
    (belowSrc (.rootDir :: root.map .normal) [] x) = some c := by
  rw [belowSrc_eq, FileSystem.read_of_node FileSystem.node_ofFile_self]

theorem isRegular_ofFile (root : List Name) (x : Name) (c : C) :
    IsRegular (FileSystem.ofFile (root ++ ["src".toList]) x c) (.rootDir :: root.map .normal)
      suffix := by
  intro dirs name _ hentry
  obtain ⟨rfl, rfl⟩ := eq_of_symlinkMetadata_ofFile hentry
  rw [read_ofFile]
  rfl

theorem isSourceFile_ofFile (hx : '.' :: suffix <:+ x) :
    IsSourceFile (FileSystem.ofFile (root ++ ["src".toList]) x c) (.rootDir :: root.map .normal)
      suffix (belowSrc (.rootDir :: root.map .normal) [] x) := by
  refine ⟨[], x, rfl, hx, ?_, ?_⟩
  · rw [filePrefix_belowSrc]
    simp
  · rw [read_ofFile]
    rfl

end OneFile

/-- Some source files of a crate are not discovered, or something else is, although nothing
else has the name of one. -/
def GoesAstray (C : Type) (manifestDir : Name) (self : Builder Char) (suffix : Name) : Prop :=
  ∃ (fs : FileSystem Char C) (env : Environment Char C),
    IsBuildScript fs env manifestDir (self.sourcesWithSuffix suffix) ∧
    IsRegular fs (components manifestDir) suffix ∧
    ¬ Discovers fs env (self.sourcesWithSuffix suffix) (components manifestDir) suffix

section Astray

variable (hroot : components manifestDir = .rootDir :: root.map .normal)
  (hsuffix : Glob.IsPlain suffix) (hsep : '/' ∉ suffix) (c : C)

include hroot hsuffix hsep c

/-- The path of the crate is not a pattern. -/
theorem goesAstray_of_invalid (hparse :
    Glob.parse (push manifestDir (self.sourcesWithSuffix suffix).pattern) = none) :
    GoesAstray C manifestDir self suffix := by
  obtain ⟨env, hscript⟩ := exists_isBuildScript hroot hsuffix hsep self
    (root ++ ["src".toList]) ('x' :: '.' :: suffix) c
  refine ⟨_, env, hscript, ?_, not_discovers hscript hparse⟩
  rw [hroot]
  exact isRegular_ofFile root _ c

/-- A source file of the crate is not matched. -/
theorem goesAstray_of_not_matches (hparse : Glob.parse (push manifestDir
      (self.sourcesWithSuffix suffix).pattern) = some (pattern ++ sourcePattern suffix))
    (hmisses : ¬ Glob.Matches (pattern ++ sourcePattern suffix)
      (belowSrc (components manifestDir) [] ('x' :: '.' :: suffix))) :
    GoesAstray C manifestDir self suffix := by
  obtain ⟨env, hscript⟩ := exists_isBuildScript hroot hsuffix hsep self
    (root ++ ["src".toList]) ('x' :: '.' :: suffix) c
  refine ⟨_, env, hscript, ?_, fun hdiscovers => hmisses ?_⟩
  · rw [hroot]
    exact isRegular_ofFile root _ c
  · refine (((discovers_iff_forall hscript hparse).mp hdiscovers _).mpr ?_).1
    rw [hroot]
    exact isSourceFile_ofFile (List.suffix_cons _ _)

/-- A file outside of the crate is matched. -/
theorem goesAstray_of_apart (hparse : Glob.parse (push manifestDir
      (self.sourcesWithSuffix suffix).pattern) = some (pattern ++ sourcePattern suffix))
    {names : List Name} (hmatches : Glob.Matches pattern (.rootDir :: names.map .normal))
    (hapart : ∀ rest, ¬ root <+: names ++ rest) : GoesAstray C manifestDir self suffix := by
  obtain ⟨env, hscript⟩ := exists_isBuildScript hroot hsuffix hsep self
    (names ++ ["src".toList]) ('x' :: '.' :: suffix) c
  have hnone : ∀ dirs y, ¬ (FileSystem.ofFile (names ++ ["src".toList])
      ('x' :: '.' :: suffix) c).symlinkMetadata (belowSrc (components manifestDir) dirs y) =
        true := by
    intro dirs y hentry
    rw [hroot, belowSrc_eq] at hentry
    have hprefix := prefix_of_symlinkMetadata hentry
    rw [List.append_assoc, List.append_assoc names] at hprefix
    exact hapart _ ((List.prefix_append root _).trans hprefix)
  refine ⟨_, env, hscript, fun dirs y _ hentry => absurd hentry (hnone dirs y),
    fun hdiscovers => ?_⟩
  have hentry : (FileSystem.ofFile (names ++ ["src".toList]) ('x' :: '.' :: suffix)
      c).symlinkMetadata (belowSrc (.rootDir :: names.map .normal) []
        ('x' :: '.' :: suffix)) = true := by
    rw [belowSrc_eq]
    refine FileSystem.symlinkMetadata_of_node fun hnode => ?_
    cases hnode.symm.trans FileSystem.node_ofFile_self
  have hother := matches_append_sourcePattern.mpr
    ⟨_, [], 'x' :: '.' :: suffix, rfl, hmatches, List.suffix_cons 'x' _⟩
  obtain ⟨dirs, y, heq, _⟩ :=
    ((discovers_iff_forall hscript hparse).mp hdiscovers _).mp ⟨hother, hentry⟩
  rw [heq] at hentry
  exact hnone dirs y hentry

/-- In a crate whose path does not stand for itself, the source files are not always
discovered. -/
theorem goesAstray (hplain : ¬ ∀ x ∈ root, Glob.IsPlain x) :
    GoesAstray C manifestDir self suffix := by
  have hparse := parse_pattern (ne_nil_of_components hroot) hsuffix hsep self
  rw [mapM_components hroot] at hparse
  cases hnames : (root.map Component.normal).mapM Glob.parseComponent with
  | none =>
      rw [hnames] at hparse
      exact goesAstray_of_invalid hroot hsuffix hsep c hparse
  | some pattern =>
      rw [hnames, Option.map_some, Option.map_some] at hparse
      by_cases hfound : Glob.Matches (.exactly .rootDir :: pattern ++ sourcePattern suffix)
          (belowSrc (components manifestDir) [] ('x' :: '.' :: suffix))
      · obtain ⟨r, _, _, _, hr, _⟩ := matches_append_sourcePattern.mp hfound
        obtain ⟨_, rfl, hrest⟩ := Glob.matches_exactly_cons.mp hr
        obtain ⟨names, hmatches, hapart⟩ := Glob.exists_apart hnames hplain hrest
        exact goesAstray_of_apart hroot hsuffix hsep c hparse (.exactly .rootDir hmatches) hapart
      · exact goesAstray_of_not_matches hroot hsuffix hsep c hparse hfound

end Astray

/-- That in every tree the source files of a crate are discovered as long as nothing else
has the name of one takes a path of the crate in which all characters stand for themselves. -/
theorem discovers_iff [Inhabited C]
    (hroot : components manifestDir = .rootDir :: root.map .normal) :
    (∀ (self : Builder Char) (env : Environment Char C) (fs : FileSystem Char C) (suffix : Name),
      Glob.IsPlain suffix → '/' ∉ suffix →
      IsBuildScript fs env manifestDir (self.sourcesWithSuffix suffix) →
      (Discovers fs env (self.sourcesWithSuffix suffix) (components manifestDir) suffix ↔
        IsRegular fs (components manifestDir) suffix)) ↔
      ∀ x ∈ root, Glob.IsPlain x := by
  constructor
  · intro hall
    by_contra hplain
    have hsuffix : Glob.IsPlain "bpf.c".toList := by decide
    have hsep : '/' ∉ "bpf.c".toList := by decide
    obtain ⟨fs, env, hscript, hregular, hnot⟩ : GoesAstray C manifestDir Builder.new _ :=
      goesAstray hroot hsuffix hsep default hplain
    exact hnot ((hall _ env fs _ hsuffix hsep hscript).mpr hregular)
  · intro hplain self env fs suffix hsuffix hsep hscript
    exact discovers_iff_isRegular hroot hplain hsuffix hsep hscript

end Root

section Example

/-- The environment of a build script of a crate, where the pattern finds these files. -/
def scriptOf (manifestDir : Name) (files : List (Path Char)) : Environment Char Unit where
  outDir := none
  manifestDir := some manifestDir
  glob _ := some (files.map some)
  bpftool := .missing
  generate _ := none

def crateOf (crate : String) : FileSystem Char Unit :=
  .ofFile [crate.toList, "src".toList] "foo.bpf.c".toList ()

def nestedEntries : List (List Name × Name) :=
  [([], "a".toList), ([], "foo.bpf.c".toList), (["a".toList], "bar.bpf.c".toList),
    (["a".toList], "notes.txt".toList)]

def nestedDirs : List (Location Char) :=
  [[], ["crate".toList], ["crate".toList, "src".toList],
    ["crate".toList, "src".toList, "a".toList]]

/-- The crate `/crate` with the files `foo.bpf.c`, `a/bar.bpf.c` and `a/notes.txt` below
its `src`. -/
def nestedCrate : FileSystem Char Unit where
  node l :=
    if l ∈ nestedDirs then some .dir
    else if l ∈ nestedEntries.map fun e => "crate".toList :: "src".toList :: e.1 ++ [e.2] then
      some (.file ())
    else none
  cwd := []
  root_dir := rfl
  cwd_dir := rfl
  parent_dir := by
    intro l x n h
    have hparents : ∀ k ∈ nestedDirs ++ nestedEntries.map fun e =>
        "crate".toList :: "src".toList :: e.1 ++ [e.2], k.dropLast ∈ nestedDirs := by
      decide
    have hl := hparents (l ++ [x]) (by
      refine List.mem_append.mpr ?_
      split_ifs at h with hdir hfile
      · exact .inl hdir
      · exact .inr hfile)
    rw [List.dropLast_concat] at hl
    exact if_pos hl

theorem eq_of_symlinkMetadata_nestedCrate {dirs : List Name} {name : Name}
    (hname : '.' :: "bpf.c".toList <:+ name)
    (h : nestedCrate.symlinkMetadata (belowSrc [.rootDir, .normal "crate".toList] dirs name) =
      true) :
    (dirs = [] ∧ name = "foo.bpf.c".toList) ∨
      (dirs = ["a".toList] ∧ name = "bar.bpf.c".toList) := by
  have hnone : ∀ k t, nestedCrate.node k ≠ some (.symlink t) := by
    intro k t ht
    simp only [nestedCrate] at ht
    split_ifs at ht
    · cases ht
    · cases ht
  have hroot := belowSrc_eq ["crate".toList] dirs name
  rw [List.map_singleton] at hroot
  rw [hroot] at h
  have hnode := FileSystem.node_of_symlinkMetadata hnone h
  have hentry : ("crate".toList :: "src".toList :: dirs ++ [name]) ∈ nestedEntries.map fun e =>
      "crate".toList :: "src".toList :: e.1 ++ [e.2] := by
    have hshort : ∀ k ∈ nestedDirs, k.length < 3 ∨ k ∈ nestedEntries.map fun e =>
        "crate".toList :: "src".toList :: e.1 ++ [e.2] := by
      decide
    by_contra hnot
    refine hnode ((if_neg fun hdir => ?_).trans (if_neg hnot))
    rcases hshort _ hdir with hlen | hmem
    · simp only [List.length_append, List.length_cons] at hlen
      omega
    · exact hnot hmem
  obtain ⟨e, he, heq⟩ := List.mem_map.mp hentry
  obtain ⟨hdirs, hlast⟩ := List.append_inj' heq rfl
  rw [List.cons.injEq, List.cons.injEq] at hdirs
  obtain rfl : e.1 = dirs := hdirs.2.2
  obtain rfl : e.2 = name := List.singleton_inj.mp hlast
  have hsource : ∀ e ∈ nestedEntries, '.' :: "bpf.c".toList <:+ e.2 →
      (e.1 = [] ∧ e.2 = "foo.bpf.c".toList) ∨ (e.1 = ["a".toList] ∧ e.2 = "bar.bpf.c".toList) := by
    decide
  exact hsource e he hname

/-- Both source files of the crate `/crate` are found, and nothing else. -/
theorem discovers_iff_crate :
    Discovers nestedCrate (scriptOf "/crate".toList
        [belowSrc [.rootDir, .normal "crate".toList] [] "foo.bpf.c".toList,
          belowSrc [.rootDir, .normal "crate".toList] ["a".toList] "bar.bpf.c".toList])
      (Builder.new.sourcesWithSuffix "bpf.c".toList) (components "/crate".toList)
      "bpf.c".toList := by
  have hroot : components "/crate".toList = .rootDir :: ["crate".toList].map .normal := by
    decide +kernel
  have hparse : Glob.parse "/crate/src/**/*.bpf.c".toList =
      some ([.exactly .rootDir, .name ("crate".toList.map .char)] ++
        sourcePattern "bpf.c".toList) := by
    decide +kernel
  have hfinds : Glob.Finds nestedCrate "/crate/src/**/*.bpf.c".toList
      (some [some (belowSrc [.rootDir, .normal "crate".toList] [] "foo.bpf.c".toList),
        some (belowSrc [.rootDir, .normal "crate".toList] ["a".toList] "bar.bpf.c".toList)]) := by
    rw [Glob.Finds, hparse]
    refine ⟨_, rfl, by decide +kernel, fun path => ?_⟩
    simp only [List.mem_cons, List.not_mem_nil, or_false, Option.some.injEq,
      matches_append_sourcePattern, Glob.matches_exactly_cons, Glob.matches_name_cons,
      Glob.matchesName_map_char, Glob.matches_nil]
    constructor
    · rintro (rfl | rfl)
      · exact ⟨⟨_, [], _, rfl, ⟨_, rfl, _, _, rfl, rfl, rfl⟩, by decide⟩, by decide +kernel⟩
      · exact ⟨⟨_, ["a".toList], _, rfl, ⟨_, rfl, _, _, rfl, rfl, rfl⟩, by decide⟩,
          by decide +kernel⟩
    · rintro ⟨⟨_, dirs, name, rfl, ⟨_, rfl, _, _, rfl, rfl, rfl⟩, hname⟩, hentry⟩
      rcases eq_of_symlinkMetadata_nestedCrate hname hentry with ⟨rfl, rfl⟩ | ⟨rfl, rfl⟩
      · exact .inl rfl
      · exact .inr rfl
  refine ((discovers_iff hroot).mpr (by decide) Builder.new _ _ _ (by decide) (by decide)
    ⟨rfl, hfinds⟩).mpr ?_
  intro dirs name hname hentry
  rw [hroot] at hentry ⊢
  rcases eq_of_symlinkMetadata_nestedCrate hname hentry with ⟨rfl, rfl⟩ | ⟨rfl, rfl⟩
  · decide +kernel
  · decide +kernel

/-- The pattern of the crate `/a[b]` does not match its own path. -/
theorem not_discovers_brackets :
    IsBuildScript (crateOf "a[b]") (scriptOf "/a[b]".toList []) "/a[b]".toList
        (Builder.new.sourcesWithSuffix "bpf.c".toList) ∧
      IsRegular (crateOf "a[b]") (components "/a[b]".toList) "bpf.c".toList ∧
      ¬ Discovers (crateOf "a[b]") (scriptOf "/a[b]".toList [])
        (Builder.new.sourcesWithSuffix "bpf.c".toList) (components "/a[b]".toList)
        "bpf.c".toList := by
  have hroot : components "/a[b]".toList = .rootDir :: ["a[b]".toList].map .normal := by
    decide +kernel
  have hparse : Glob.parse "/a[b]/src/**/*.bpf.c".toList =
      some ([.exactly .rootDir, .name [.char 'a', .anyWithin [.singleChar 'b']]] ++
        sourcePattern "bpf.c".toList) := by
    decide +kernel
  have hnone (path : Path Char) : ¬ (Glob.Matches ([.exactly .rootDir,
      .name [.char 'a', .anyWithin [.singleChar 'b']]] ++ sourcePattern "bpf.c".toList) path ∧
        (crateOf "a[b]").symlinkMetadata path = true) := by
    simp only [matches_append_sourcePattern, Glob.matches_exactly_cons, Glob.matches_name_cons,
      Glob.matches_nil]
    rintro ⟨⟨_, dirs, name, rfl, ⟨_, rfl, x, _, rfl, hx, rfl⟩, _⟩, hentry⟩
    have hbelow := belowSrc_eq [x] dirs name
    rw [List.map_singleton] at hbelow
    rw [hbelow] at hentry
    obtain ⟨rfl, -⟩ := List.cons_prefix_cons.mp (prefix_of_symlinkMetadata hentry)
    exact absurd (hx.length_eq (by decide)) (by decide)
  have hscript : IsBuildScript (crateOf "a[b]") (scriptOf "/a[b]".toList []) "/a[b]".toList
      (Builder.new.sourcesWithSuffix "bpf.c".toList) := by
    refine ⟨rfl, ?_⟩
    have hfinds : Glob.Finds (crateOf "a[b]") "/a[b]/src/**/*.bpf.c".toList (some []) := by
      rw [Glob.Finds, hparse]
      exact ⟨_, rfl, by simp, fun path => iff_of_false (by simp) (hnone path)⟩
    exact hfinds
  refine ⟨hscript, ?_, fun hdiscovers => ?_⟩
  · rw [hroot]
    exact isRegular_ofFile ["a[b]".toList] _ ()
  · have hsource : IsSourceFile (crateOf "a[b]") (components "/a[b]".toList) "bpf.c".toList
        (belowSrc (.rootDir :: ["a[b]".toList].map .normal) [] "foo.bpf.c".toList) := by
      rw [hroot]
      exact isSourceFile_ofFile (by decide)
    exact hnone _ (((discovers_iff_forall hscript hparse).mp hdiscovers _).mpr hsource)

end Example

end Build

end Xbpf
