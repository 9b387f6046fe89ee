import Xbpf.Build.Placement
import Xbpf.Files.Lexical

/-!
# Artifacts inside of the output directory

The directories between the first `src` of a source and its file name are appended to
the output directory as they are. If there are `..` among them, the artifacts of the
source can lie outside of the output directory.
-/

namespace Xbpf

namespace Build

open Files Files.OsAlphabet Runs

variable {α C : Type} [DecidableEq α] [OsAlphabet α]

/-- What comes between the first `src` and the file name does not climb above the output
directory, or goes down into it again by the names of the directories it climbed over. -/
def StaysInside (path file : Path α) : Prop :=
  ∃ dirs, LiesAt file dirs ∧ Reenters path dirs

variable {self : Builder α} {env : Environment α C} {path file : Path α} {name : List α}

theorem staysInside_iff (hname : filePrefix file = some name) (path : Path α) :
    StaysInside path file ↔ Reenters path (Builder.relDir file) := by
  constructor
  · rintro ⟨dirs, hdirs, hreenters⟩
    rwa [relDir_of_liesAt hname hdirs]
  · exact fun hreenters => ⟨_, (relDir_eq_iff hname _).mp rfl, hreenters⟩

theorem placeOf_liesIn_iff (hfile : IsPath file) (hname : filePrefix file = some name)
    (path : Path α) (text ext : Name) :
    (lexical (placeOf path ext (file, text))).LiesIn (lexical path) ↔ StaysInside path file := by
  have hrel : .rootDir ∉ Builder.relDir file := fun hmem => (of_mem_relDir hfile hname hmem).1 rfl
  rw [placeOf_eq hfile hname, liesIn_iff_reenters hrel,
    staysInside_iff hname]

/-- The skeleton and the object file of a source are written to a path in the output
directory or below it exactly if what comes after the first `src` stays inside. -/
theorem artifacts_liesIn_iff (hdir : (self.outDir <|> env.outDir) = some path)
    (hfile : IsPath file) (hname : filePrefix file = some name) :
    (∀ fs p fs', Fallible.exec (self.outSubdir env file) fs = (.ok p, fs') →
      ((lexical (join p [.normal (Builder.skelName (toStringLossy name))])).LiesIn
        (lexical path) ↔ StaysInside path file)) ∧
    ∀ compile fs p fs', Fallible.exec (self.buildObject env compile file (toStringLossy name)) fs =
      (.ok p, fs') → ((lexical p).LiesIn (lexical path) ↔ StaysInside path file) := by
  constructor
  · intro fs p fs' hexec
    rw [eq_of_exec_outSubdir hdir hexec]
    exact placeOf_liesIn_iff hfile hname path _ ".skel.rs".toList
  · intro compile fs p fs' hexec
    rw [eq_of_exec_buildObject (s := (file, toStringLossy name)) hdir hexec]
    exact placeOf_liesIn_iff hfile hname path _ ".o".toList

/-- The directory of the artifacts of `src/…/foo.bpf.c` for a build into `/out`. -/
def outSubdirOf (dirs : Path Char) :
    Except (Panic Char) (Path Char) × FileSystem Char (Path Char) :=
  Fallible.exec ((buildOf []).builder.outSubdir (buildOf []).env
    (src :: dirs ++ [.normal "foo.bpf.c".toList])) emptyOut

/-- The path of the source is `src/../out/a/foo.bpf.c`. -/
theorem artifacts_liesIn_reentering :
    ∃ p fs', outSubdirOf [.parentDir, .normal "out".toList, .normal "a".toList] = (.ok p, fs') ∧
      (lexical (join p [.normal (Builder.skelName "foo".toList)])).LiesIn
        (lexical [.rootDir, .normal "out".toList]) := by
  have hexec : outSubdirOf [.parentDir, .normal "out".toList, .normal "a".toList] =
      (.ok [.rootDir, .normal "out".toList, .parentDir, .normal "out".toList,
        .normal "a".toList], _) :=
    Prod.ext (by decide +kernel) rfl
  have hfile : IsPath [src, .parentDir, .normal "out".toList, .normal "a".toList,
      .normal "foo.bpf.c".toList] := ⟨"src/../out/a/foo.bpf.c".toList, by decide +kernel⟩
  have hstays : StaysInside [.rootDir, .normal "out".toList] [src, .parentDir,
      .normal "out".toList, .normal "a".toList, .normal "foo.bpf.c".toList] := by
    refine ⟨[.parentDir, .normal "out".toList, .normal "a".toList],
      .inl ⟨[], .normal "foo.bpf.c".toList, List.not_mem_nil, rfl⟩, 1, rfl, .inr rfl, ?_⟩
    decide +kernel
  exact ⟨_, _, hexec, ((artifacts_liesIn_iff rfl hfile (by decide +kernel)).1 _ _ _ hexec).mpr
    hstays⟩

/-- The path of the source is `src/../foo.bpf.c`. -/
theorem not_artifacts_liesIn_climbing :
    IsPath [src, .parentDir, .normal "foo.bpf.c".toList] ∧
    ∃ p fs', outSubdirOf [.parentDir] = (.ok p, fs') ∧
      ¬ (lexical (join p [.normal (Builder.skelName "foo".toList)])).LiesIn
        (lexical [.rootDir, .normal "out".toList]) := by
  have hexec : outSubdirOf [.parentDir] =
      (.ok [.rootDir, .normal "out".toList, .parentDir], _) :=
    Prod.ext (by decide +kernel) rfl
  refine ⟨⟨"src/../foo.bpf.c".toList, by decide +kernel⟩, _, _, hexec, ?_⟩
  rintro ⟨_, below, _, hnames⟩
  have hbelow := List.prefix_append (lexical [.rootDir, .normal "out".toList]).names below
  rw [← hnames] at hbelow
  revert hbelow
  decide +kernel

end Build

end Xbpf
