import Xbpf.Build.Rebuild
import Xbpf.Files.Kinds

/-!
# Running a build again

Cargo runs a build script again when one of its sources may have changed. A build
that returned has nothing left to do then: its directories are there, its skeletons
are written over with what they hold, and each link is removed and made again. The
output directory is a fixed point of the build, whatever is in the way of bpftool
and in whatever order a pattern finds the sources.
-/

namespace Xbpf

namespace Build

open Files Runs

variable {α C : Type} [DecidableEq α] [OsAlphabet α] {path : Path α} {d : Location α}
  {fs₀ fs fs' : FileSystem α C}
  {sources : List (Source α)} {s : Source α}

omit [DecidableEq α] in
theorem Linked.node_of_eq {m w : Location α} {name : Name} {x : List α} {r : Path α}
    (h : Linked path d fs name r w) (hm : m = []) (hx : x = Builder.skelName name) :
    fs.node (d ++ m ++ [x]) =
      some (.symlink (path ++ r ++ [.normal (Builder.skelName name)])) := by
  subst hm hx
  rw [List.append_nil]
  exact h.node

omit [DecidableEq α] in
theorem Reaches.eq_of_reaches {m w w' : Location α} {x : List α}
    (hw : Reaches path d fs m x w) (hw' : Reaches path d fs m x w') : w = w' := by
  cases hw with
  | here hnode =>
      cases hw' with
      | here => rfl
      | linked hm hx hlinked => exact absurd (hlinked.node_of_eq hm hx) (hnode _)
  | linked hm hx hlinked =>
      cases hw' with
      | here hnode => exact absurd (hlinked.node_of_eq hm hx) (hnode _)
      | linked _ hx' hlinked' =>
          cases skelName_injective (hx.symm.trans hx')
          have htarget := hlinked.node.symm.trans hlinked'.node
          simp only [Option.some.injEq, Node.symlink.injEq, List.append_cancel_right_eq,
            List.append_cancel_left_eq] at htarget
          subst htarget
          exact Option.some.inj (hlinked.descends.symm.trans hlinked'.descends)

omit [OsAlphabet α] in
theorem eq_of_grown {ks : List (Location α)} (hgrown : Grown d fs fs' ks)
    (hdirs : ∀ k ∈ ks, fs.IsDir (d ++ k)) : fs' = fs := by
  refine FileSystem.eq_of_node (funext fun k => ?_) hgrown.cwd
  by_cases hmem : ∃ k' ∈ ks, k = d ++ k'
  · obtain ⟨k', hk', rfl⟩ := hmem
    exact (hgrown.dirs k' hk').trans (hdirs k' hk').symm
  · exact hgrown.other k fun k' hk' heq => hmem ⟨k', hk', heq⟩

theorem Wrote.eq_of_node {m w : Location α} {x : List α} {c : C}
    (hwrote : Wrote path d fs fs' m x c w) (hnode : fs.node (d ++ (w ++ [x])) = some (.file c)) :
    fs' = fs := by
  refine FileSystem.eq_of_node ?_ hwrote.cwd
  rw [hwrote.node, ← hnode, Function.update_eq_self]

omit [OsAlphabet α] in
theorem Replaced.eq_of_node {x : List α} {n : Option (Node α C)}
    (hrep : Replaced d fs fs' x n) (hnode : fs.node (d ++ [x]) = n) : fs' = fs := by
  refine FileSystem.eq_of_node ?_ hrep.cwd
  rw [hrep.node, ← hnode, Function.update_eq_self]

namespace Progress

variable {generate : Path α → Option C}

theorem not_isBlocked (h : Progress path d generate sources fs₀ sources sources sources fs)
    (hs : s ∈ sources) {m : Location α} (hm : artifactDir s = some m) :
    ¬ IsBlocked d fs (Builder.relDir s.1) m s.2 (IsLinked sources s) := by
  obtain ⟨c, m', w, _, hat⟩ := h.skels s hs
  cases hm.symm.trans hat.dir
  have hfree : ∀ l, ¬ fs.IsDir (d ++ l) →
      ¬ (fs.IsDir (d ++ l) ∨ l ∈ trail [] (Builder.relDir s.1)) := by
    rintro l hl (hdir | hmem)
    · exact hl hdir
    · exact hl (h.dirs s hs l hmem)
  rintro (⟨k, hk, hoccupied⟩ | hskel | ⟨hlink, hdir⟩)
  · exact FileSystem.not_isDir_of_isOccupied hoccupied (h.dirs s hs k hk)
  · refine hfree _ ?_ hskel
    intro hdir
    cases hat.reaches with
    | here => cases hdir.symm.trans hat.node
    | linked hnil hx hlinked =>
        rw [hnil, hx] at hdir
        cases hdir.symm.trans hlinked.node
  · refine hfree _ ?_ hdir
    intro hdir
    cases hdir.symm.trans (h.links s hs hlink)

/-- Treating a source again changes nothing. -/
theorem eq_of_treated (h : Progress path d generate sources fs₀ sources sources sources fs)
    (hs : s ∈ sources) {m : Location α} {c : C} (hm : artifactDir s = some m)
    (hgen : generate s.1 = some c)
    (htreated : Treated path d fs fs' (Builder.relDir s.1) m s.2 (IsLinked sources s) c) :
    fs' = fs := by
  obtain ⟨fs₁, fs₂, w, hgrown, hwrote, hrep, hsame⟩ := htreated.steps
  obtain ⟨c', m', w', hgen', hat⟩ := h.skels s hs
  cases hm.symm.trans hat.dir
  cases hgen.symm.trans hgen'
  cases eq_of_grown hgrown (h.dirs s hs)
  cases hwrote.reaches.eq_of_reaches hat.reaches
  cases hwrote.eq_of_node hat.node
  by_cases hlink : IsLinked sources s
  · exact (hrep hlink).eq_of_node (h.links s hs hlink)
  · exact hsame hlink

end Progress

namespace IsUnobstructed

variable {run : Run α C}

theorem progress (hrun : IsUnobstructed path d fs run) (h : IsLeft path d fs)
    (hexec : run.exec fs = (.ok (), fs')) :
    Progress path d run.env.generate run.sources fs run.sources run.sources run.sources fs' ∧
      fs'.IsOccupied (d ++ [vmlinux]) := by
  cases hglobbed : run.builder.globbed run.env with
  | none => exact ((h.build_of_invalid hrun.outDir hglobbed).of_exec_eq_ok hexec).elim
  | some globbed =>
      exact (h.build hrun.outDir hglobbed (Run.sources_eq hglobbed) hrun.layout
        hrun.clear).of_exec_eq_ok hexec

end IsUnobstructed

omit [DecidableEq α] [OsAlphabet α] in
theorem nameCount_eq_of_perm {sources' : List (Source α)} (hperm : sources'.Perm sources) :
    Builder.nameCount sources' = Builder.nameCount sources := by
  funext name
  exact (hperm.map Prod.snd).count_eq name

section Parts

variable {env : Environment α C}

theorem exec_dumpKernelBtf_of_tidy (h : Tidy path d True fs)
    (hheader : fs.node (d ++ [vmlinux]) ≠ none) :
    Fallible.exec (dumpKernelBtf env path) fs = (.ok path, fs) := by
  have hexists : fs.pathExists (join path [.normal vmlinux]) = true := by
    have hfound := h.reaches_vmlinux.pathExists h (r := []) rfl (by simp [trail])
    rw [List.append_nil, List.append_nil] at hfound
    exact hfound.trans (Option.isSome_iff_ne_none.mpr hheader)
  change Fallible.exec (if fs.pathExists (join path [.normal vmlinux]) then pure path
    else writeKernelBtf env path) fs = _
  rw [if_pos hexists]
  rfl

theorem Progress.exec_buildSource {self : Builder α} {generate : Path α → Option C}
    (h : Progress path d generate sources fs₀ sources sources sources fs)
    (hdir : (self.outDir <|> env.outDir) = some path) (hlayout : Layout sources)
    (hs : s ∈ sources) (hgen : env.generate s.1 = generate s.1) :
    Fallible.exec (self.buildSource env path (Builder.nameCount sources) s.1 s.2) fs =
      (.ok (), fs) := by
  obtain ⟨m, hm, hends⟩ := h.tidy.buildSource_of_mem hdir hlayout hs
  obtain ⟨c, _, _, hc, _⟩ := h.skels s hs
  obtain ⟨⟨⟩, fs', hexec, _, c', hc', htreated⟩ := hends.exists_exec_eq_ok (by
    rintro fs' ⟨_, hnone | hblocked⟩
    · cases hc.symm.trans (hgen.symm.trans hnone)
    · exact h.not_isBlocked hs hm hblocked)
  rw [hexec, h.eq_of_treated hs hm (hgen.symm.trans hc') htreated]

end Parts

/-- A build that returned can be run again, whatever ran before it and whatever becomes of
bpftool, and with its sources found in any order. It returns, and changes nothing. -/
theorem build_again {run run' : Run α C} (hempty : IsEmptyOutDir path d fs₀)
    (hruns : Relation.ReflTransGen (Rebuilds path d) fs₀ fs)
    (hrun : IsUnobstructed path d fs run) (hexec : run.exec fs = (.ok (), fs'))
    (hdir : run'.outDir = some path) (hglob : run'.builder.globbed run'.env ≠ none)
    (hperm : run'.sources.Perm run.sources)
    (hgen : ∀ s ∈ run.sources, run'.env.generate s.1 = run.env.generate s.1) :
    run'.exec fs' = (.ok (), fs') := by
  have h : IsLeft path d fs :=
    Runs.invariant (fun _ _ h hstep => hstep.isLeft h) hempty.isLeft hruns
  obtain ⟨hprogress, _, hheader, _⟩ := hrun.progress h hexec
  obtain ⟨globbed, hglobbed⟩ := Option.ne_none_iff_exists'.mp hglob
  rw [Run.exec, build_eq hdir hglobbed (Run.sources_eq hglobbed), Fallible.exec_bind,
    exec_dumpKernelBtf_of_tidy hprogress.tidy (by simp [hheader]), nameCount_eq_of_perm hperm]
  refine Fallible.exec_forM_of_fixed fun s hs => ?_
  have hmem := hperm.mem_iff.mp hs
  exact hprogress.exec_buildSource hdir hrun.layout hmem (hgen s hmem)

section Example

def barIn : Path Char :=
  [.normal "src".toList, .normal "b".toList, .normal "bar.bpf.c".toList]

def buildWithoutBpftool (files : List (Path Char)) : Run Char (Path Char) :=
  { buildOf files with env := { (buildOf files).env with bpftool := .missing } }

/-- Two skeletons that are linked are built again in the other order. -/
theorem build_again_swapped : ∃ fs', (buildOf [fooIn ["a"], barIn]).exec emptyOut = (.ok (), fs') ∧
    (buildWithoutBpftool [barIn, fooIn ["a"]]).exec fs' = (.ok (), fs') := by
  obtain ⟨fs', hexec⟩ : ∃ fs', (buildOf [fooIn ["a"], barIn]).exec emptyOut = (.ok (), fs') :=
    ⟨_, Run.exec_eq_ok (by decide +kernel)⟩
  refine ⟨fs', hexec, build_again isEmptyOutDir_emptyOut .refl ⟨rfl,
    ⟨by decide +kernel, by decide +kernel, by decide +kernel⟩,
    ⟨by decide +kernel, by decide +kernel⟩⟩ hexec rfl (by decide) ?_ fun _ _ => rfl⟩
  exact .swap (fooIn ["a"], "foo".toList) (barIn, "bar".toList) []

end Example

end Build

end Xbpf
