import Xbpf.Build.Dangling

/-!
# Skeletons that are included

After a build into an empty output directory the names of the skeletons lead to them, if
they are placed and links can be read. If the path of the output directory, followed
from inside, leads back there or further down, they do not lead to them otherwise.
-/

namespace Xbpf

namespace Build

open Files Runs

variable {α C : Type} [DecidableEq α] [OsAlphabet α] {path : Path α} {d : Location α}
  {fs fs' : FileSystem α C} {sources : List (Source α)} {s : Source α}

/-- The links that a build makes can be read, if it makes any. -/
def IsReadable (path : Path α) (d : Location α) (fs : FileSystem α C)
    (sources : List (Source α)) : Prop :=
  IsOutDir path d fs ∨ ∀ s ∈ sources, ¬ IsLinked sources s

/-- The path of the output directory, followed from inside, leads back or further down. -/
def LeadsInside (path : Path α) (d : Location α) (fs : FileSystem α C) : Prop :=
  (∃ j, Leads fs (Outside d) d path d j) ∨ ∃ m, m ≠ [] ∧ GoesDown path m

omit [DecidableEq α] [OsAlphabet α] in
/-- It does not matter where an absolute path is followed. -/
theorem LeadsTo.leadsInside {p : Path α} (h : LeadsTo (.rootDir :: p) d fs) :
    LeadsInside (.rootDir :: p) d fs := by
  obtain ⟨j, _, hcwd⟩ := h.lead
  refine .inl ⟨j, ?_⟩
  cases hcwd with
  | next _ _ hroot hnode hrest => exact .next outside_self h.dir hroot hnode hrest
  | symlink _ _ _ hnode _ => cases fs.root_dir.symm.trans hnode

theorem forall_or_exists_first {β : Type} (p : β → Prop) [DecidablePred p] (l : List β) :
    (∀ b ∈ l, ¬ p b) ∨ ∃ before b after, l = before ++ b :: after ∧ p b ∧
      ∀ a ∈ before, ¬ p a := by
  cases hfind : l.find? fun b => p b with
  | none => exact .inl fun b hb hp => by simpa [hp] using List.find?_eq_none.mp hfind b hb
  | some b =>
      obtain ⟨hp, before, after, hl, hbefore⟩ := List.find?_eq_some_iff_append.mp hfind
      exact .inr ⟨before, b, after, hl, of_decide_eq_true hp,
        fun a ha hpa => by simpa [hpa] using hbefore a ha⟩

theorem isUnambiguous_of_isLinked (hs : s ∈ sources) (hl : IsLinked sources s) :
    IsUnambiguous fs sources s.2 := by
  refine ⟨⟨s, hs, rfl⟩, fun t ht u hu hname hname' => .inl ?_⟩
  rw [eq_of_nameCount_eq_one hl.1 hs ht hname, eq_of_nameCount_eq_one hl.1 hs hu hname']

theorem not_isPlaced (hs : s ∈ sources) (hl : IsLinked sources s)
    (hroot : artifactDir s = some []) : ¬ IsPlaced sources s.2 := by
  rintro (⟨_, hbelow⟩ | ⟨hcount, _⟩)
  · exact hbelow s hs rfl hl hroot
  · exact hcount hl.1

omit [DecidableEq α] in
theorem not_isFound_of_read {generate : Path α → Option C} {name : Name}
    (h : fs.read (includePath path name) = none) : ¬ IsFound path generate sources fs name := by
  rintro ⟨_, _, _, c, _, hread⟩
  cases h.symm.trans hread

section Parts

variable {self : Builder α} {env : Environment α C}

/-- A build whose links can be read. -/
theorem found_of_readable (hempty : IsEmptyDir path d fs)
    (hdir : (self.outDir <|> env.outDir) = some path)
    (hinside : ∀ s ∈ sources, artifactDir s ≠ none) (hreads : IsReadable path d fs sources) :
    Fallible.Ends (do
      let _ ← dumpKernelBtf env path
      sources.forM fun s => self.buildSource env path (Builder.nameCount sources) s.1 s.2) fs
      (fun _ fs' => (∀ name, IsUnambiguous fs sources name →
          IsFound path env.generate sources fs' name) ↔
        ∀ name, IsUnambiguous fs sources name → IsPlaced sources name) fun _ => True := by
  have hout : ∀ s ∈ sources, IsLinked sources s → IsOutDir path d fs :=
    fun s hs hl => hreads.resolve_right fun hnone => hnone s hs hl
  rcases forall_or_exists_first (fun s => IsLinked sources s ∧ artifactDir s = some []) sources
    with hbelow | ⟨before, s, after, hsources, ⟨hl, hroot⟩, hbelow⟩
  · replace hbelow : ∀ s ∈ sources, IsLinked sources s → artifactDir s ≠ some [] :=
      fun s hs hl hroot => hbelow s hs ⟨hl, hroot⟩
    refine (Written.of_build hempty hdir hinside hout hbelow).mono ?_ fun _ h => h
    intro _ fs' h
    exact forall₂_congr fun name hname => h.isFound_iff hinside hbelow hname.1
  · have hs : s ∈ sources := by simp [hsources]
    have hmem : ∀ t ∈ before, t ∈ sources := fun t ht => by simp [hsources, ht]
    have hbefore : Fallible.Ends (do
        let _ ← dumpKernelBtf env path
        before.forM fun t => self.buildSource env path (Builder.nameCount sources) t.1 t.2) fs
        (fun _ => Written path d (IsOutDir path d fs) env.generate sources before)
        fun _ => True := by
      refine Fallible.Ends.bind ((Written.of_dumpKernelBtf hempty sources).mono ?_ fun _ h => h)
      intro _ fs₁ h₁
      exact h₁.forM hdir hsources (fun t ht => hinside t (hmem t ht))
        (fun t ht => hout t (hmem t ht)) fun t ht hlt hroott => hbelow t ht ⟨hlt, hroott⟩
    refine (Persists.of_build (I := Loops path d s) Loops.persists hdir hsources
      (fun t ht => hinside t (by simp [hsources, ht])) hl hbefore ?_).mono ?_ fun _ h => h
    · intro fs₁ h₁
      refine (h₁.tidy.buildLinked hdir hroot hl).mono ?_ fun _ h => h
      rintro _ fs₂ ⟨c, htreated⟩
      exact .of_treated (h₁.tidy.outDir (hout s hs hl)) hroot htreated
    · intro _ fs' h
      refine iff_of_false (fun hall => ?_) fun hall => ?_
      · refine not_isFound_of_read ?_ (hall s.2 (isUnambiguous_of_isLinked hs hl))
        rw [FileSystem.read, h.find_eq_none]
        rfl
      · exact not_isPlaced hs hl hroot (hall s.2 (isUnambiguous_of_isLinked hs hl))

/-- A build that makes a link that cannot be read. -/
theorem not_found_of_leadsInside (hempty : IsEmptyDir path d fs)
    (hdir : (self.outDir <|> env.outDir) = some path)
    (hinside : ∀ s ∈ sources, artifactDir s ≠ none) (hpath : LeadsInside path d fs)
    (hreads : ¬ IsReadable path d fs sources) :
    Fallible.Ends (do
      let _ ← dumpKernelBtf env path
      sources.forM fun s => self.buildSource env path (Builder.nameCount sources) s.1 s.2) fs
      (fun _ fs' => ¬ ∀ name, IsUnambiguous fs sources name →
        IsFound path env.generate sources fs' name) fun _ => True := by
  rw [IsReadable, not_or] at hreads
  obtain ⟨hout, hlinked⟩ := hreads
  obtain ⟨before, s, after, hsources, hl, hnot⟩ :=
    (forall_or_exists_first (IsLinked sources) sources).resolve_left hlinked
  have hs : s ∈ sources := by simp [hsources]
  have hafter : ∀ t ∈ after, artifactDir t ≠ none :=
    fun t ht => hinside t (by simp [hsources, ht])
  have hbefore : Fallible.Ends (do
      let _ ← dumpKernelBtf env path
      before.forM fun t => self.buildSource env path (Builder.nameCount sources) t.1 t.2) fs
      (fun _ => Unlinked path d s.2 fs) fun _ => True :=
    Unlinked.of_build hempty hdir hsources (fun t ht => hinside t (by simp [hsources, ht])) hnot hl
  obtain ⟨m, hm⟩ := Option.ne_none_iff_exists'.mp (hinside s hs)
  rcases hpath with ⟨j, hself⟩ | ⟨mp, hbelow, hdown⟩
  · have hlead : ∃ i j, FileSystem.maxLinks < i + (j + 1) ∧
        Leads fs (Outside d) fs.cwd path d i ∧ Leads fs (Outside d) d path d j := by
      obtain ⟨i, _, hcwd⟩ := hempty.leadsTo.lead
      refine ⟨i, j, ?_, hcwd, hself⟩
      by_contra hle
      exact hout ⟨hempty.leadsTo.dir, i, j, Nat.le_of_not_lt hle, hcwd, hself⟩
    refine (Persists.of_build (I := Exceeds path d s) Exceeds.persists hdir hsources hafter hl
      hbefore ?_).mono ?_ fun _ h => h
    · intro fs₁ h₁
      refine (h₁.tidy.buildLinked hdir hm hl).mono ?_ fun _ h => h
      rintro _ fs₂ ⟨c, htreated⟩
      exact .of_treated h₁ hlead htreated
    · intro _ fs' h hall
      refine not_isFound_of_read ?_ (hall s.2 (isUnambiguous_of_isLinked hs hl))
      rw [FileSystem.read, h.find_eq_none]
      rfl
  · refine (Persists.of_build (I := Dangles path d mp s) Dangles.persists hdir hsources hafter hl
      hbefore ?_).mono ?_ fun _ h => h
    · intro fs₁ h₁
      refine (h₁.tidy.buildLinked hdir hm hl).mono ?_ fun _ h => h
      rintro _ fs₂ ⟨c, htreated⟩
      exact .of_treated h₁ hdown hbelow hm htreated
    · intro _ fs' h hall
      exact not_isFound_of_read (h.read_eq_none hm)
        (hall s.2 (isUnambiguous_of_isLinked hs hl))

end Parts

/-- After a build into an empty output directory whose links can be read, every
unambiguous name leads to a skeleton of its file exactly if every unambiguous name is
placed. If the path of the output directory leads back there or further down from inside,
the links have to be readable. -/
theorem found_iff_placed {run : Run α C} (hempty : IsEmptyDir path d fs)
    (hdir : run.outDir = some path) (hinside : ∀ s ∈ run.sources, artifactDir s ≠ none)
    (hexec : run.exec fs = (.ok (), fs')) :
    (IsReadable path d fs run.sources →
      ((∀ name, IsUnambiguous fs run.sources name →
          IsFound path run.env.generate run.sources fs' name) ↔
        ∀ name, IsUnambiguous fs run.sources name → IsPlaced run.sources name)) ∧
    (LeadsInside path d fs →
      ((∀ name, IsUnambiguous fs run.sources name →
          IsFound path run.env.generate run.sources fs' name) ↔
        IsReadable path d fs run.sources ∧
          ∀ name, IsUnambiguous fs run.sources name → IsPlaced run.sources name)) := by
  cases hglobbed : run.builder.globbed run.env with
  | none =>
      rw [Run.exec, Builder.build, getOutDir_eq hdir, pure_bind] at hexec
      obtain ⟨_, fs₁, _, hexec⟩ := Fallible.exec_bind_eq_ok hexec
      obtain ⟨_, fs₂, hnamed, _⟩ := Fallible.exec_bind_eq_ok hexec
      rw [Builder.namedSources, hglobbed] at hnamed
      cases hnamed
  | some globbed =>
      rw [Run.exec, build_eq hdir hglobbed (Run.sources_eq hglobbed)] at hexec
      have hiff (hreads : IsReadable path d fs run.sources) :=
        (found_of_readable hempty hdir hinside hreads).of_exec_eq_ok hexec
      refine ⟨hiff, fun hpath => ?_⟩
      by_cases hreads : IsReadable path d fs run.sources
      · rw [hiff hreads, and_iff_right hreads]
      · exact iff_of_false
          ((not_found_of_leadsInside hempty hdir hinside hpath hreads).of_exec_eq_ok hexec)
          fun h => hreads h.1

section Example

def srcBar : Path Char :=
  [.normal "src".toList, .normal "bar.bpf.c".toList]

def buildNextTo (files : List (Path Char)) : Run Char (Path Char) :=
  { buildOf files with builder := (buildOf files).builder.setOutDir [.normal "out".toList] }

theorem isEmptyDir_emptyOut : IsEmptyDir [.rootDir, .normal "out".toList] ["out".toList] emptyOut :=
  ⟨isEmptyOutDir_emptyOut.outDir.leadsTo, isEmptyOutDir_emptyOut.node⟩

theorem isEmptyDir_emptyOut_relative :
    IsEmptyDir [.normal "out".toList] ["out".toList] emptyOut := by
  refine ⟨⟨isEmptyDir_emptyOut.leadsTo.dir, 0, Nat.zero_le _, ?_⟩, isEmptyDir_emptyOut.node⟩
  obtain ⟨_, _, hcwd⟩ := isEmptyDir_emptyOut.leadsTo.lead
  cases hcwd with
  | next _ _ _ _ h =>
      cases h with
      | next hroot hdir hout hnode h => exact .next hroot hdir hout hnode (.nil _)
      | symlink _ _ _ hlink _ => cases isEmptyDir_emptyOut.leadsTo.dir.symm.trans hlink
  | symlink _ _ _ hlink _ => cases emptyOut.root_dir.symm.trans hlink

theorem not_isOutDir_relative : ¬ IsOutDir [.normal "out".toList] ["out".toList] emptyOut := by
  intro h
  obtain ⟨_, j, hj, _, hself⟩ := h.lead
  have hend := hself.resolveWithin_eq (Nat.le_of_lt (show j < FileSystem.maxLinks by omega))
  exact absurd hend (by decide +kernel)

/-- A file that is listed once is found by its name, and one that is listed twice in the
output directory itself. Nothing is found through a link to `out/a` in `out`. -/
theorem found_iff_placed_once :
    (∀ name, IsUnambiguous emptyOut (buildOf [fooIn ["a"], srcBar, srcBar]).sources name →
      IsFound [.rootDir, .normal "out".toList] some (buildOf [fooIn ["a"], srcBar, srcBar]).sources
        ((buildOf [fooIn ["a"], srcBar, srcBar]).exec emptyOut).2 name) ∧
    ¬ ∀ name, IsUnambiguous emptyOut (buildNextTo [fooIn ["a"]]).sources name →
      IsFound [.normal "out".toList] some (buildNextTo [fooIn ["a"]]).sources
        ((buildNextTo [fooIn ["a"]]).exec emptyOut).2 name := by
  constructor
  · have hsources : (buildOf [fooIn ["a"], srcBar, srcBar]).sources =
        [(fooIn ["a"], "foo".toList), (srcBar, "bar".toList), (srcBar, "bar".toList)] := by
      decide +kernel
    refine ((found_iff_placed isEmptyDir_emptyOut rfl (by decide +kernel)
      (Run.exec_eq_ok (by decide +kernel))).1 (.inl isEmptyOutDir_emptyOut.outDir)).mpr ?_
    rintro name ⟨⟨s, hs, rfl⟩, _⟩
    rw [hsources] at hs ⊢
    simp only [List.mem_cons, List.not_mem_nil, or_false, or_self] at hs
    rcases hs with rfl | rfl
    · exact .inl (by decide +kernel)
    · exact .inr (by decide +kernel)
  · intro hall
    have hdown : LeadsInside [.normal "out".toList] ["out".toList] emptyOut :=
      .inr ⟨["out".toList], by simp, [.normal "out".toList], rfl, .inl rfl⟩
    obtain ⟨hout | hnone, _⟩ := ((found_iff_placed isEmptyDir_emptyOut_relative rfl
      (by decide +kernel) (Run.exec_eq_ok (by decide +kernel))).2 hdown).mp hall
    · exact not_isOutDir_relative hout
    · exact hnone (fooIn ["a"], "foo".toList) (by decide +kernel) (by decide +kernel)

/-- A file that is listed twice has one name, which leads nowhere. -/
theorem not_found_twice :
    IsUnambiguous emptyOut (buildOf [fooIn ["a"], fooIn ["a"]]).sources "foo".toList ∧
      ((buildOf [fooIn ["a"], fooIn ["a"]]).exec emptyOut).1 = .ok () ∧
      ¬ IsFound [.rootDir, .normal "out".toList] some
        (buildOf [fooIn ["a"], fooIn ["a"]]).sources
        ((buildOf [fooIn ["a"], fooIn ["a"]]).exec emptyOut).2 "foo".toList := by
  have hsources : (buildOf [fooIn ["a"], fooIn ["a"]]).sources =
      [(fooIn ["a"], "foo".toList), (fooIn ["a"], "foo".toList)] := by
    decide +kernel
  refine ⟨⟨⟨(fooIn ["a"], "foo".toList), by simp [hsources], rfl⟩, ?_⟩, by decide +kernel, ?_⟩
  · intro s hs t ht _ _
    rw [hsources] at hs ht
    simp only [List.mem_cons, List.not_mem_nil, or_false, or_self] at hs ht
    exact .inl (by rw [hs, ht])
  · rintro ⟨s, _, _, c, _, hread⟩
    have hnone : ((buildOf [fooIn ["a"], fooIn ["a"]]).exec emptyOut).2.read
        (includePath [.rootDir, .normal "out".toList] "foo".toList) = none := by
      decide +kernel
    cases hnone.symm.trans hread

end Example

end Build

end Xbpf
