import Xbpf.Build.Covers
import Xbpf.Runs.Machine

/-!
# Builds into one output directory

A build should not depend on what earlier builds left in the output directory.
Each source should be read at its artifact, and a name in the output directory
should be what it is after the same build into an empty one.

A build only removes a link when it makes one of the same name. A link of an earlier
build therefore stays when its name becomes ambiguous, and a skeleton that comes to
lie in the output directory itself is written through it.
-/

namespace Xbpf

namespace Build

open Files Runs

structure Run (α C : Type) where
  builder : Builder α
  env : Environment α C

variable {α C : Type} [DecidableEq α] [OsAlphabet α]

namespace Run

def outDir (run : Run α C) : Option (Path α) :=
  run.builder.outDir <|> run.env.outDir

def sources (run : Run α C) : List (Source α) :=
  Builder.named ((run.builder.globbed run.env).getD [] ++ run.builder.sources)

def exec (run : Run α C) (fs : FileSystem α C) : Except (Panic α) Unit × FileSystem α C :=
  Fallible.exec (run.builder.build run.env) fs

theorem exec_eq_ok {run : Run α C} {fs : FileSystem α C}
    (hok : (run.exec fs).1.isOk = true) : run.exec fs = (.ok (), (run.exec fs).2) := by
  cases hexec : run.exec fs with
  | mk out fs' =>
      rw [hexec] at hok
      cases out with
      | error e => cases hok
      | ok u => rfl

end Run

def artifactPath (path : Path α) (s : Source α) : Path α :=
  join (join path (Builder.relDir s.1)) [.normal (Builder.skelName s.2)]

def includePath (path : Path α) (name : Name) : Path α :=
  join path [.normal (Builder.skelName name)]

/-- Nothing is found below the output directory. -/
structure IsEmptyOutDir (path : Path α) (d : Location α) (fs : FileSystem α C) :
    Prop where
  outDir : IsOutDir path d fs
  node : ∀ l, l ≠ [] → fs.node (d ++ l) = none

/-- What a run left is what it leaves in an empty output directory, where it returns as
well if it can dump the BTF there. -/
structure IsIndependent (run : Run α C) (path : Path α) (d : Location α)
    (fs' : FileSystem α C) : Prop where
  artifacts : ∀ s ∈ run.sources, ∃ c, run.env.generate s.1 = some c ∧
    fs'.read (artifactPath path s) = some c
  names : ∀ fs₁, IsEmptyOutDir path d fs₁ → ∀ btf, run.env.bpftool = .dumped btf →
    ∃ fs₁', run.exec fs₁ = (.ok (), fs₁') ∧ ∀ s ∈ run.sources,
      fs'.pathExists (includePath path s.2) = fs₁'.pathExists (includePath path s.2) ∧
        fs'.read (includePath path s.2) = fs₁'.read (includePath path s.2)

/-- The run writes into the output directory, where no link is in its way. -/
structure IsUnobstructed (path : Path α) (d : Location α) (fs : FileSystem α C)
    (run : Run α C) : Prop where
  outDir : run.outDir = some path
  layout : Layout run.sources
  clear : Clear path d run.sources fs

def Rebuilds (path : Path α) (d : Location α) (fs fs' : FileSystem α C) : Prop :=
  ∃ run, IsUnobstructed path d fs run ∧ (run.exec fs).2 = fs'

variable {path : Path α} {d : Location α} {fs fs₀ fs' : FileSystem α C}
  {run : Run α C}

namespace IsEmptyOutDir

omit [DecidableEq α] in
theorem tidy (h : IsEmptyOutDir path d fs) : Tidy path d True fs := by
  refine ⟨h.outDir.leadsTo, fun _ => h.outDir, fun l t hl ht => ?_⟩
  cases ht.symm.trans (h.node l hl)

omit [DecidableEq α] in
theorem find (h : IsEmptyOutDir path d fs) (x : List α) :
    fs.find (path ++ [.normal x]) = some (d ++ [x]) := by
  have hhere : Reaches path d fs [] x [] := by
    refine .here fun t ht => ?_
    rw [List.append_nil] at ht
    cases ht.symm.trans (h.node [x] (by simp))
  have hfind := hhere.find h.tidy (r := []) rfl (by simp [trail])
  rwa [List.append_nil, List.append_nil] at hfind

theorem clear (h : IsEmptyOutDir path d fs) {sources : List (Source α)}
    (hlayout : Layout sources) : Clear path d sources fs := by
  constructor
  case apart =>
    intro s hs t ht hne hroot heq
    obtain ⟨m, hm⟩ := Option.ne_none_iff_exists'.mp (hlayout.inside t ht)
    rw [h.find, artifact_eq hm, Option.map_some, Option.some.injEq] at heq
    apply hlayout.artifact_ne hs ht hne
    rw [artifact_eq hroot, artifact_eq hm, ← List.append_cancel_left heq]
    rfl
  case vacant =>
    intro s _ _ _ hexists
    rw [FileSystem.pathExists, h.find, Option.any_some, h.node _ (by simp)] at hexists
    cases hexists

end IsEmptyOutDir

omit [DecidableEq α] in
theorem IsEmptyOutDir.isLeft (h : IsEmptyOutDir path d fs) : IsLeft path d fs :=
  ⟨h.tidy, fun hdir => by cases hdir.symm.trans (h.node _ (by simp))⟩

theorem Run.sources_eq {globbed : List (Path α)}
    (hglobbed : run.builder.globbed run.env = some globbed) :
    run.sources = Builder.named (globbed ++ run.builder.sources) := by
  rw [Run.sources, hglobbed, Option.getD_some]

namespace IsUnobstructed

theorem ends (hrun : IsUnobstructed path d fs run) (h : IsLeft path d fs) :
    Fallible.Ends (run.builder.build run.env) fs
      (fun _ fs' => Progress path d run.env.generate run.sources fs run.sources run.sources
        run.sources fs' ∧ IsLeft path d fs')
      (IsLeft path d) := by
  cases hglobbed : run.builder.globbed run.env with
  | none =>
      exact (h.build_of_invalid hrun.outDir hglobbed).mono (fun _ _ h => h.elim) fun _ h => h
  | some globbed =>
      refine (h.build hrun.outDir hglobbed (Run.sources_eq hglobbed) hrun.layout
        hrun.clear).mono ?_ fun _ h => h
      rintro _ fs' ⟨hprogress, hheader⟩
      exact ⟨hprogress, hprogress.tidy, FileSystem.not_isDir_of_isOccupied hheader⟩

theorem exists_exec_of_empty (hrun : IsUnobstructed path d fs run) (h : IsLeft path d fs)
    (hexec : run.exec fs = (.ok (), fs')) {fs₁ : FileSystem α C}
    (hempty : IsEmptyOutDir path d fs₁) {btf : C} (hbpftool : run.env.bpftool = .dumped btf) :
    ∃ fs₁', run.exec fs₁ = (.ok (), fs₁') := by
  cases hglobbed : run.builder.globbed run.env with
  | none => exact ((h.build_of_invalid hrun.outDir hglobbed).of_exec_eq_ok hexec).elim
  | some globbed =>
      exact exists_exec_build_of_empty hrun.outDir hglobbed (Run.sources_eq hglobbed)
        hrun.layout h hexec hempty.tidy hempty.node hbpftool

end IsUnobstructed

theorem Rebuilds.isLeft (hrebuilds : Rebuilds path d fs fs') (h : IsLeft path d fs) :
    IsLeft path d fs' := by
  obtain ⟨run, hrun, rfl⟩ := hrebuilds
  exact ((hrun.ends h).mono (fun _ _ hdone => hdone.2) fun _ h => h).left

theorem artifactPath_eq {s : Source α} (h : artifactDir s ≠ none) (path : Path α) :
    artifactPath path s =
      path ++ Builder.relDir s.1 ++ [.normal (Builder.skelName s.2)] := by
  obtain ⟨m, hm⟩ := Option.ne_none_iff_exists'.mp h
  rw [artifactPath, join_of_descend hm]
  rfl

/-- After every run that returns, and whatever ran before, every source is read at its
artifact and every name is what it is after the same run into an empty output
directory, as long as no link is in the way of a run. -/
theorem isIndependent_of_rebuilds (hempty : IsEmptyOutDir path d fs₀)
    (hruns : Relation.ReflTransGen (Rebuilds path d) fs₀ fs)
    (hrun : IsUnobstructed path d fs run) (hexec : run.exec fs = (.ok (), fs')) :
    IsIndependent run path d fs' := by
  have h : IsLeft path d fs :=
    Runs.invariant (fun _ _ h hstep => hstep.isLeft h) hempty.isLeft hruns
  obtain ⟨hprogress, _⟩ := (hrun.ends h).of_exec_eq_ok hexec
  constructor
  case artifacts =>
    intro s hs
    rw [artifactPath_eq (hrun.layout.inside s hs)]
    exact hprogress.read_artifact hs
  case names =>
    intro fs₁ hempty₁ btf hbpftool
    obtain ⟨fs₁', hexec₁⟩ := hrun.exists_exec_of_empty h hexec hempty₁ hbpftool
    have hrun₁ : IsUnobstructed path d fs₁ run :=
      ⟨hrun.outDir, hrun.layout, hempty₁.clear hrun.layout⟩
    obtain ⟨hprogress₁, _⟩ := (hrun₁.ends hempty₁.isLeft).of_exec_eq_ok hexec₁
    exact ⟨fs₁', hexec₁, fun s hs => hprogress.names_eq hprogress₁ h.tidy hempty₁.tidy
      hrun.clear hrun₁.clear hrun.layout hs⟩

section Example

def emptyOut : FileSystem Char (Path Char) where
  node l := if l = [] ∨ l = ["out".toList] then some .dir else none
  cwd := []
  root_dir := by simp
  cwd_dir := by simp
  parent_dir := by
    intro l x n h
    cases l with
    | nil => simp
    | cons y l => simp at h

/-- A build of some files into `/out`. The skeleton of a file is its path. -/
def buildOf (files : List (Path Char)) : Run Char (Path Char) where
  builder := (files.foldl Builder.source Builder.new).setOutDir
    [.rootDir, .normal "out".toList]
  env := {
    outDir := none
    manifestDir := none
    glob := fun _ => none
    bpftool := .dumped []
    generate := some }

def fooIn (dirs : List String) : Path Char :=
  .normal "src".toList :: dirs.map (fun s => .normal s.toList) ++ [.normal "foo.bpf.c".toList]

theorem isEmptyOutDir_emptyOut :
    IsEmptyOutDir [.rootDir, .normal "out".toList] ["out".toList] emptyOut := by
  have hroot : Outside ["out".toList] [] := fun l h => by simp at h
  have hout : emptyOut.IsDir ["out".toList] := by simp [FileSystem.IsDir, emptyOut]
  have hlead (l : Location Char) (hl : emptyOut.IsDir l) (hvia : Outside ["out".toList] l) :
      Leads emptyOut (Outside ["out".toList]) l [.rootDir, .normal "out".toList]
        ["out".toList] 0 := by
    have hnode : ∀ t, emptyOut.node ["out".toList] ≠ some (.symlink t) :=
      fun t ht => by cases hout.symm.trans ht
    have hnode' : ∀ t, emptyOut.node [] ≠ some (.symlink t) :=
      fun t ht => by cases emptyOut.root_dir.symm.trans ht
    exact .next hvia hl hroot hnode'
      (.next hroot emptyOut.root_dir outside_self hnode (.nil _))
  refine ⟨⟨hout, 0, 0, by decide, hlead _ emptyOut.cwd_dir hroot,
    hlead _ hout outside_self⟩, ?_⟩
  intro l hl
  simp [emptyOut, hl]

/-- The link to a skeleton stays when the name becomes ambiguous. -/
theorem not_isIndependent_ambiguous :
    ¬ ∀ (path : Path Char) (d : Location Char) (fs₀ fs fs' : FileSystem Char (Path Char))
      (run : Run Char (Path Char)), IsEmptyOutDir path d fs₀ →
      Relation.ReflTransGen (fun fs fs' => ∃ run : Run Char (Path Char), run.outDir = some path ∧
        (run.sources.map (artifactPath path)).Nodup ∧ (run.exec fs).2 = fs') fs₀ fs →
      run.outDir = some path → (run.sources.map (artifactPath path)).Nodup →
      run.exec fs = (.ok (), fs') → IsIndependent run path d fs' := by
  intro h
  have hind := h _ _ emptyOut _ _ (buildOf [fooIn ["a"], fooIn ["b"]]) isEmptyOutDir_emptyOut
    (.single ⟨buildOf [fooIn ["a"]], rfl, by decide +kernel, rfl⟩) rfl (by decide +kernel)
    (Run.exec_eq_ok (by decide +kernel))
  obtain ⟨fs₁', hexec₁, hnames⟩ := hind.names emptyOut isEmptyOutDir_emptyOut [] rfl
  obtain ⟨hexists, _⟩ := hnames (fooIn ["a"], "foo".toList) (by decide +kernel)
  have hleft : ((buildOf [fooIn ["a"], fooIn ["b"]]).exec emptyOut).2 = fs₁' := by
    rw [hexec₁]
  subst hleft
  exact absurd hexists (by decide +kernel)

/-- A skeleton that moves into the output directory is written through its link, which
obstructs no other skeleton. -/
theorem isIndependent_of_rebuilds_moved :
    IsIndependent (buildOf [fooIn []]) [.rootDir, .normal "out".toList] ["out".toList]
      ((buildOf [fooIn []]).exec ((buildOf [fooIn ["a"]]).exec emptyOut).2).2 :=
  isIndependent_of_rebuilds isEmptyOutDir_emptyOut
    (.single ⟨buildOf [fooIn ["a"]], ⟨rfl,
      ⟨by decide +kernel, by decide +kernel, by decide +kernel⟩,
      ⟨by decide +kernel, by decide +kernel⟩⟩, rfl⟩)
    ⟨rfl, ⟨by decide +kernel, by decide +kernel, by decide +kernel⟩,
      ⟨by decide +kernel, by decide +kernel⟩⟩
    (Run.exec_eq_ok (by decide +kernel))

end Example

end Build

end Xbpf
