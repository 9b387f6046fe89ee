import Mathlib.Data.List.Pairwise
import Xbpf.Build.Objects

/-!
# Where artifacts lie

The artifacts of a source lie in the directories that come after the first `src` in
its path. This is below the `src` of the crate only if the crate does not lie below
a directory of that name itself, and what comes before the first `src` is lost, as is
what comes after the first dot of the file name. Of a name that is no text only what it
reads as is kept.
-/

namespace Xbpf

namespace Build

open Files Files.OsAlphabet Runs

variable {α C : Type} [DecidableEq α] [OsAlphabet α]

def src : Component α :=
  .normal (ofText "src".toList)

/-- The file lies in these directories below the first `src` of its path. A file that
is not below a `src` counts as lying directly below one. -/
def LiesAt (file dirs : Path α) : Prop :=
  (∃ root last, src ∉ root ∧ file = root ++ src :: dirs ++ [last]) ∨
    (src ∉ file.dropLast ∧ dirs = [])

omit [DecidableEq α] in
theorem asOsStr_eq_src (c : Component α) : c.asOsStr = ofText "src".toList ↔ c = src := by
  cases c with
  | rootDir =>
      refine iff_of_false (fun h => ?_) (by simp [src])
      exact absurd (ofText_injective (ofText_sep.trans h)) (by decide)
  | curDir =>
      refine iff_of_false (fun h => ?_) (by simp [src])
      exact absurd (ofText_injective (ofText_dot.trans h)) (by decide)
  | parentDir =>
      refine iff_of_false (fun h => ?_) (by simp [src])
      have hdots : ofText ['.', '.'] = (.parentDir : Component α).asOsStr := by
        change ofText (['.'] ++ ['.']) = _
        rw [ofText_append, ofText_dot]
        rfl
      exact absurd (ofText_injective (hdots.trans h)) (by decide)
  | normal name => simp [Component.asOsStr, src]

theorem dropWhile_src {root : Path α} (h : src ∉ root) (rest : Path α) :
    (root ++ rest).dropWhile (fun c => c.asOsStr ≠ ofText "src".toList) =
      rest.dropWhile fun c => c.asOsStr ≠ ofText "src".toList := by
  rw [List.dropWhile_append_of_pos]
  intro c hc
  have hne : c.asOsStr ≠ ofText "src".toList := fun heq => h ((asOsStr_eq_src c).mp heq ▸ hc)
  simpa using hne

theorem pathRelativeToSrc_append {root : Path α} (h : src ∉ root) (rest : Path α) :
    Builder.pathRelativeToSrc (root ++ src :: rest) = parent rest := by
  rw [Builder.pathRelativeToSrc, dropWhile_src h, List.dropWhile_cons_of_neg]
  simp [(asOsStr_eq_src src).mpr rfl]

omit [DecidableEq α] [OsAlphabet α] in
theorem parent_concat {last : Component α} (hlast : last ≠ .rootDir) (path : Path α) :
    parent (path ++ [last]) = some path := by
  rw [parent, List.getLast?_concat]
  cases last <;> simp_all

theorem eq_concat_of_filePrefix {file : Path α} {name : List α}
    (hname : filePrefix file = some name) :
    ∃ dir x, file = dir ++ [.normal x] := by
  obtain ⟨x, hx, _⟩ := Option.map_eq_some_iff.mp hname
  rw [fileName] at hx
  split at hx
  · rename_i y hlast
    obtain ⟨dir, hdir⟩ := List.getLast?_eq_some_iff.mp hlast
    exact ⟨dir, y, hdir⟩
  · cases hx

theorem exists_liesAt {file : Path α} {name : List α} (hname : filePrefix file = some name) :
    ∃ dirs, LiesAt file dirs := by
  obtain ⟨dir, x, rfl⟩ := eq_concat_of_filePrefix hname
  by_cases hsrc : src ∈ dir
  · obtain ⟨root, dirs, rfl, hroot⟩ := List.eq_append_cons_of_mem hsrc
    exact ⟨dirs, .inl ⟨root, .normal x, hroot, rfl⟩⟩
  · exact ⟨[], .inr ⟨by rwa [List.dropLast_concat], rfl⟩⟩

theorem relDir_of_liesAt {file dirs : Path α} {name : List α}
    (hname : filePrefix file = some name) (h : LiesAt file dirs) :
    Builder.relDir file = dirs := by
  obtain ⟨dir, x, rfl⟩ := eq_concat_of_filePrefix hname
  rw [Builder.relDir]
  rcases h with ⟨root, last, hroot, heq⟩ | ⟨hsrc, rfl⟩
  · have hlast : .normal x = last := List.singleton_inj.mp (List.append_inj' heq rfl).2
    rw [heq, List.append_assoc, List.cons_append, pathRelativeToSrc_append hroot, ← hlast,
      parent_concat (by simp), Option.getD_some]
  · rw [List.dropLast_concat] at hsrc
    rw [Builder.pathRelativeToSrc, dropWhile_src hsrc]
    by_cases hx : (.normal x : Component α) = src
    · rw [hx, List.dropWhile_cons_of_neg (by simp [(asOsStr_eq_src src).mpr rfl])]
      rfl
    · have hne : (.normal x : Component α).asOsStr ≠ ofText "src".toList :=
        fun heq => hx ((asOsStr_eq_src _).mp heq)
      rw [List.dropWhile_cons_of_pos (by simpa using hne)]
      rfl

theorem relDir_eq_iff {file : Path α} {name : List α} (hname : filePrefix file = some name)
    (dirs : Path α) : Builder.relDir file = dirs ↔ LiesAt file dirs := by
  constructor
  · rintro rfl
    obtain ⟨dirs, hdirs⟩ := exists_liesAt hname
    rwa [relDir_of_liesAt hname hdirs]
  · exact relDir_of_liesAt hname

theorem of_mem_relDir {file : Path α} {name : List α} (hfile : IsPath file)
    (hname : filePrefix file = some name) {c : Component α} (hc : c ∈ Builder.relDir file) :
    c ≠ .rootDir ∧ c ≠ .curDir := by
  obtain ⟨dirs, hdirs⟩ := exists_liesAt hname
  rw [relDir_of_liesAt hname hdirs] at hc
  rcases hdirs with ⟨root, last, _, rfl⟩ | ⟨_, rfl⟩
  · refine hfile.of_mem_tail ?_
    have hmem : c ∈ dirs ++ [last] := List.mem_append_left _ hc
    rw [List.append_assoc]
    cases root with
    | nil => exact hmem
    | cons c' root => exact List.mem_append_right _ (List.mem_cons_of_mem _ hmem)
  · cases hc

theorem join_relDir {file : Path α} {name : List α} (hfile : IsPath file)
    (hname : filePrefix file = some name) (path : Path α) :
    join path (Builder.relDir file) = path ++ Builder.relDir file :=
  join_eq_append fun _ hc => of_mem_relDir hfile hname (List.mem_of_mem_head? hc)

section Mirror

variable {self : Builder α} {env : Environment α C} {path p R : Path α}
  {fs fs' : FileSystem α C}

/-- What comes before the `src` of the crate gets into the directory of the artifacts if
it has a `src` itself. -/
theorem relDir_below_src {root mid : Path α} (hroot : src ∉ root) (dirs : List (List α))
    (file : List α) :
    Builder.relDir (root ++ src :: mid ++ [src] ++ dirs.map .normal ++ [.normal file]) =
      mid ++ src :: dirs.map .normal := by
  have hname : filePrefix (root ++ src :: mid ++ [src] ++ dirs.map .normal ++ [.normal file]) =
      some (splitFileAtDot file) := by
    rw [filePrefix, fileName, List.getLast?_concat]
    rfl
  refine relDir_of_liesAt hname (.inl ⟨root, .normal file, hroot, ?_⟩)
  simp

/-- The artifacts of a file below the `src` of a crate mirror its layout exactly if no
directory that the crate lies in is named `src`. -/
theorem mirrors_iff (hdir : (self.outDir <|> env.outDir) = some path) (hR : IsPath R)
    {dirs : List (List α)} {file : List α}
    (hexec : Fallible.exec (self.outSubdir env
      (R ++ [src] ++ dirs.map .normal ++ [.normal file])) fs = (.ok p, fs')) :
    p = path ++ dirs.map .normal ↔ src ∉ R := by
  rw [eq_of_exec_outSubdir hdir hexec]
  constructor
  · intro hp hsrc
    obtain ⟨root, mid, rfl, hroot⟩ := List.eq_append_cons_of_mem hsrc
    rw [relDir_below_src hroot, join_eq_append] at hp
    · have hlen := congrArg List.length (List.append_cancel_left hp)
      simp only [List.length_append, List.length_cons] at hlen
      omega
    · intro c hc
      cases mid with
      | nil =>
          cases hc
          exact ⟨by simp [src], by simp [src]⟩
      | cons c' mid =>
          cases hc
          refine hR.of_mem_tail ?_
          cases root <;> simp
  · intro hsrc
    have hname : filePrefix (R ++ [src] ++ dirs.map .normal ++ [.normal file]) =
        some (splitFileAtDot file) := by
      rw [filePrefix, fileName, List.getLast?_concat]
      rfl
    have hlies : LiesAt (R ++ [src] ++ dirs.map .normal ++ [.normal file]) (dirs.map .normal) :=
      .inl ⟨R, .normal file, hsrc, by simp⟩
    rw [relDir_of_liesAt hname hlies]
    refine join_eq_append fun c hc => ?_
    obtain ⟨x, _, rfl⟩ := List.mem_map.mp (List.mem_of_mem_head? hc)
    exact ⟨by simp, by simp⟩

/-- The directory of the artifacts of `src/…/foo.bpf.c` in a crate is created. -/
def outSubdirIn (root : Path Char) (dirs : List Name) :
    Except (Panic Char) (Path Char) × FileSystem Char (Path Char) :=
  Fallible.exec ((buildOf []).builder.outSubdir (buildOf []).env
    (root ++ [src] ++ dirs.map .normal ++ [.normal "foo.bpf.c".toList])) emptyOut

/-- The crate is `/crate`. -/
theorem mirrors_iff_crate :
    ∃ p fs', outSubdirIn [.rootDir, .normal "crate".toList] ["a".toList] = (.ok p, fs') ∧
      p = [.rootDir, .normal "out".toList] ++ ["a".toList].map .normal := by
  have hR : IsPath [.rootDir, .normal "crate".toList] := ⟨"/crate".toList, by decide +kernel⟩
  have hexec : outSubdirIn [.rootDir, .normal "crate".toList] ["a".toList] =
      (.ok [.rootDir, .normal "out".toList, .normal "a".toList], _) :=
    Prod.ext (by decide +kernel) rfl
  exact ⟨_, _, hexec, (mirrors_iff rfl hR hexec).mpr (by decide)⟩

/-- The crate is `/src/crate`. -/
theorem not_mirrors_below_src :
    ∃ p fs', outSubdirIn [.rootDir, src, .normal "crate".toList] [] = (.ok p, fs') ∧
      p ≠ [.rootDir, .normal "out".toList] := by
  have hexec : outSubdirIn [.rootDir, src, .normal "crate".toList] [] =
      (.ok [.rootDir, .normal "out".toList, .normal "crate".toList, src], _) :=
    Prod.ext (by decide +kernel) rfl
  exact ⟨_, _, hexec, by decide⟩

end Mirror

section Distinct

variable {path : Path α}

def Run.files (run : Run α C) : List (Path α) :=
  (run.builder.globbed run.env).getD [] ++ run.builder.sources

/-- Both files have names that read the same, up to the first dot, and lie in the same
directory below their first `src`. -/
def Collide (file file' : Path α) : Prop :=
  ∃ name name' dirs, filePrefix file = some name ∧ filePrefix file' = some name' ∧
    toStringLossy name = toStringLossy name' ∧ LiesAt file dirs ∧ LiesAt file' dirs

/-- No two different files collide. -/
def Apart (files : List (Path α)) : Prop :=
  ∀ file ∈ files, ∀ file' ∈ files, file ≠ file' → ¬ Collide file file'

theorem collide_iff (file file' : Path α) : Collide file file' ↔
    (filePrefix file).isSome ∧ (filePrefix file).map toStringLossy =
      (filePrefix file').map toStringLossy ∧ Builder.relDir file = Builder.relDir file' := by
  constructor
  · rintro ⟨name, name', dirs, hname, hname', htext, hdirs, hdirs'⟩
    rw [relDir_of_liesAt hname hdirs, relDir_of_liesAt hname' hdirs', hname, hname']
    exact ⟨rfl, congrArg some htext, rfl⟩
  · rintro ⟨hsome, htext, hdirs⟩
    obtain ⟨name, hname⟩ := Option.isSome_iff_exists.mp hsome
    rw [hname, Option.map_some, eq_comm, Option.map_eq_some_iff] at htext
    obtain ⟨name', hname', htext⟩ := htext
    exact ⟨name, name', Builder.relDir file, hname, hname', htext.symm,
      (relDir_eq_iff hname _).mp rfl, (relDir_eq_iff hname' _).mp hdirs.symm⟩

instance (file file' : Path α) : Decidable (Collide file file') :=
  decidable_of_iff _ (collide_iff file file').symm

instance (files : List (Path α)) : Decidable (Apart files) :=
  inferInstanceAs (Decidable (∀ file ∈ files, ∀ file' ∈ files, file ≠ file' → _))

/-- The path of the artifact of a source whose file name ends in `ext`. -/
def placeOf (path : Path α) (ext : Name) (s : Source α) : Path α :=
  join (join path (Builder.relDir s.1)) [.normal (ofText (s.2 ++ ext))]

theorem placeOf_eq {file : Path α} {name : List α} (hfile : IsPath file)
    (hname : filePrefix file = some name) (path : Path α) (text ext : Name) :
    placeOf path ext (file, text) =
      path ++ (Builder.relDir file ++ [.normal (ofText (text ++ ext))]) := by
  rw [placeOf, join_relDir hfile hname]
  exact List.append_assoc path _ _

/-- Two sources have one artifact if their files collide. -/
theorem placeOf_eq_iff {file file' : Path α} {name name' : List α} (hfile : IsPath file)
    (hfile' : IsPath file') (hname : filePrefix file = some name)
    (hname' : filePrefix file' = some name') (path : Path α) (ext : Name) :
    placeOf path ext (file, toStringLossy name) = placeOf path ext (file', toStringLossy name') ↔
      Collide file file' := by
  rw [placeOf_eq hfile hname, placeOf_eq hfile' hname', List.append_cancel_left_eq]
  constructor
  · intro heq
    obtain ⟨hdirs, hlast⟩ := List.append_inj' heq rfl
    have htext : toStringLossy name ++ ext = toStringLossy name' ++ ext :=
      ofText_injective (Component.normal.inj (List.singleton_inj.mp hlast))
    exact ⟨name, name', Builder.relDir file, hname, hname', List.append_cancel_right htext,
      (relDir_eq_iff hname _).mp rfl, (relDir_eq_iff hname' _).mp hdirs.symm⟩
  · rintro ⟨_, _, dirs, hn, hn', htext, hdirs, hdirs'⟩
    cases hname.symm.trans hn
    cases hname'.symm.trans hn'
    rw [relDir_of_liesAt hname hdirs, relDir_of_liesAt hname' hdirs', htext]

def Differ (path : Path α) (ext : Name) (file file' : Path α) : Prop :=
  ∀ name, filePrefix file = some name → ∀ name', filePrefix file' = some name' →
    placeOf path ext (file, toStringLossy name) ≠ placeOf path ext (file', toStringLossy name')

instance (path : Path α) (ext : Name) : Std.Symm (Differ path ext) where
  symm _ _ h name hname name' hname' := (h name' hname' name hname).symm

theorem differ_iff {file file' : Path α} (hfile : IsPath file) (hfile' : IsPath file')
    (path : Path α) (ext : Name) : Differ path ext file file' ↔ ¬ Collide file file' := by
  constructor
  · rintro h hcollide
    obtain ⟨name, name', _, hname, hname', _⟩ := id hcollide
    have heq := (placeOf_eq_iff hfile hfile' hname hname' path ext).mpr hcollide
    exact h name hname name' hname' heq
  · intro h name hname name' hname' heq
    exact h ((placeOf_eq_iff hfile hfile' hname hname' path ext).mp heq)

/-- The artifacts of different files lie in different places exactly if no two of the
files collide. -/
theorem nodup_placeOf_iff {files : List (Path α)} (hpaths : ∀ file ∈ files, IsPath file)
    (hdistinct : files.Nodup) (path : Path α) (ext : Name) :
    ((Builder.named files).map (placeOf path ext)).Nodup ↔ Apart files := by
  have hnodup : ((Builder.named files).map (placeOf path ext)).Nodup ↔
      files.Pairwise (Differ path ext) := by
    rw [Builder.named, List.map_filterMap, List.Nodup, List.pairwise_filterMap]
    simp only [Option.map_map, Option.map_eq_some_iff, Function.comp_apply, forall_exists_index,
      and_imp, forall_apply_eq_imp_iff₂]
    rfl
  rw [hnodup]
  constructor
  · intro hpairs file hfile file' hfile' hne
    exact (differ_iff (hpaths file hfile) (hpaths file' hfile') path ext).mp
      (hpairs.forall hfile hfile' hne)
  · intro hapart
    refine hdistinct.pairwise_of_forall_ne fun file hfile file' hfile' hne => ?_
    exact (differ_iff (hpaths file hfile) (hpaths file' hfile') path ext).mpr
      (hapart file hfile file' hfile' hne)

/-- The paths of the skeletons that a build writes, and those of the object files that
are returned, are pairwise distinct exactly if no two different files collide. -/
theorem artifacts_nodup_iff {run : Run α C} (hpaths : ∀ file ∈ run.files, IsPath file)
    (hdistinct : run.files.Nodup) (hdir : run.outDir = some path) :
    ((run.sources.map (artifactPath path)).Nodup ↔ Apart run.files) ∧
      ∀ compile fs outs fs', Fallible.exec (run.builder.buildObjects run.env compile) fs =
        (.ok outs, fs') → (outs.Nodup ↔ Apart run.files) := by
  constructor
  · exact nodup_placeOf_iff hpaths hdistinct path ".skel.rs".toList
  · intro compile fs outs fs' hexec
    rw [eq_of_exec_buildObjects hdir hexec]
    exact nodup_placeOf_iff hpaths hdistinct path ".o".toList

def threeFiles : List (Path Char) :=
  [fooIn [], [src, .normal "bar.bpf.c".toList], fooIn ["a"]]

theorem artifacts_nodup_iff_names :
    ((buildOf threeFiles).sources.map (artifactPath [.rootDir, .normal "out".toList])).Nodup ∧
      ∃ outs fs', Fallible.exec ((buildOf threeFiles).builder.buildObjects (buildOf threeFiles).env
        some) emptyOut = (.ok outs, fs') ∧ outs.length = 3 ∧ outs.Nodup := by
  have hpaths : ∀ file ∈ threeFiles, IsPath file := by
    intro file hfile
    simp only [threeFiles, List.mem_cons, List.not_mem_nil, or_false] at hfile
    rcases hfile with rfl | rfl | rfl
    · exact ⟨"src/foo.bpf.c".toList, by decide +kernel⟩
    · exact ⟨"src/bar.bpf.c".toList, by decide +kernel⟩
    · exact ⟨"src/a/foo.bpf.c".toList, by decide +kernel⟩
  have hapart : Apart threeFiles := by decide +kernel
  obtain ⟨hskels, hobjects⟩ := @artifacts_nodup_iff _ _ _ _ _ (buildOf threeFiles) hpaths
    (by decide +kernel) rfl
  refine ⟨hskels.mpr hapart, ?_⟩
  cases hexec : Fallible.exec ((buildOf threeFiles).builder.buildObjects (buildOf threeFiles).env
      some) emptyOut with
  | mk result fs' =>
      have hresult : (Fallible.exec ((buildOf threeFiles).builder.buildObjects
          (buildOf threeFiles).env some) emptyOut).1 = .ok
          ((buildOf threeFiles).sources.map (objectPath [.rootDir, .normal "out".toList])) := by
        decide +kernel
      rw [hexec] at hresult
      subst hresult
      exact ⟨_, fs', rfl, by decide +kernel, (hobjects _ _ _ _ hexec).mpr hapart⟩

/-- What comes after the first dot does not tell artifacts apart. -/
theorem not_artifacts_nodup_dots :
    (buildOf [fooIn [], [src, .normal "foo.x.bpf.c".toList]]).files.Nodup ∧
      ¬ ((buildOf [fooIn [], [src, .normal "foo.x.bpf.c".toList]]).sources.map
        (artifactPath [.rootDir, .normal "out".toList])).Nodup := by
  constructor <;> decide +kernel

/-- Two names of one byte each that is no character. -/
example : Collide ([src, .normal (0xFF :: ofText ".bpf.c".toList)] : Path UInt8)
    [src, .normal (0xFE :: ofText ".bpf.c".toList)] := by decide +kernel

end Distinct

end Build

end Xbpf
