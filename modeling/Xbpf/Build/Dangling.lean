import Xbpf.Build.Names
import Xbpf.Files.Descents
import Xbpf.Files.Stays

/-!
# Links that cannot be followed

The target of a link begins with the path of the output directory, and is read from
inside of it. A relative path leads elsewhere from there, and no link to a skeleton
leads to its skeleton. Neither does a link to itself, nor one behind too many others.

Nothing that is done about sources of other names makes such a link readable. So a build
whose links can be read, where no skeleton is replaced by a link to itself, finds every
skeleton that is placed, and one that leaves a link that cannot be followed does not.
-/

namespace Xbpf

namespace Build

open Files Runs

variable {α C : Type} [DecidableEq α] [OsAlphabet α] {path : Path α} {d m mp : Location α}
  {fs₀ fs fs₁ fs' : FileSystem α C} {generate : Path α → Option C}
  {sources before after : List (Source α)} {s t : Source α} {name : Name} {reads : Prop}

/-- The skeleton of a source is linked, wherever the link leads. -/
structure HasLink (path : Path α) (d : Location α) (s : Source α) (fs : FileSystem α C) :
    Prop where
  leadsTo : LeadsTo path d fs
  node : fs.node (d ++ [Builder.skelName s.2]) =
    some (.symlink (path ++ Builder.relDir s.1 ++ [.normal (Builder.skelName s.2)]))

structure Loops (path : Path α) (d : Location α) (s : Source α) (fs : FileSystem α C) :
    Prop where
  hasLink : HasLink path d s fs
  back : ∃ j, Leads fs (Outside d) d path d j
  dir : artifactDir s = some []
  dirs : ∀ k ∈ trail [] (Builder.relDir s.1), fs.IsDir (d ++ k)

/-- The link is behind more links than may be followed. -/
structure Exceeds (path : Path α) (d : Location α) (s : Source α) (fs : FileSystem α C) :
    Prop where
  hasLink : HasLink path d s fs
  lead : ∃ i j, FileSystem.maxLinks < i + (j + 1) ∧
    Leads fs (Outside d) fs.cwd path d i ∧ Leads fs (Outside d) d path d j

/-- The path of the output directory leads further down from inside, where the skeleton of
the link is not. -/
structure Dangles (path : Path α) (d mp : Location α) (s : Source α) (fs : FileSystem α C) :
    Prop where
  hasLink : HasLink path d s fs
  down : GoesDown path mp
  below : mp ≠ []
  links : LinksThrough path d fs
  own : ∀ u c, fs.node (d ++ (u ++ [Builder.skelName s.2])) = some (.file c) →
    artifactDir s = some u

section Unreadable

variable {via : Location α → Prop} {k : Location α} {j : ℕ}

theorem HasLink.exists_leads (h : HasLink path d s fs)
    (hfind : fs.find (includePath path s.2) = some k) :
    ∃ i j, i + (j + 1) ≤ FileSystem.maxLinks ∧ Leads fs (fun _ => True) fs.cwd path d i ∧
      Leads fs (fun _ => True) d
        (path ++ (Builder.relDir s.1 ++ [.normal (Builder.skelName s.2)])) k j := by
  rw [includePath_eq, FileSystem.find, if_neg (by simp)] at hfind
  obtain ⟨n, hn, hlead⟩ := FileSystem.exists_leads hfind
  obtain ⟨m, i, i', hi, hpath, hrest⟩ := hlead.split
  obtain ⟨i₀, _, hcwd⟩ := h.leadsTo.lead
  cases hpath.eq_of_leads hcwd
  cases hrest with
  | next _ _ _ hnode => exact absurd h.node (hnode _)
  | @symlink _ _ _ t _ j _ _ _ hnode htarget =>
      cases h.node.symm.trans hnode
      rw [List.append_nil, List.append_assoc] at htarget
      exact ⟨i, j, by omega, hpath, htarget⟩

theorem Loops.find_eq_none (h : Loops path d s fs) : fs.find (includePath path s.2) = none := by
  refine Option.eq_none_iff_forall_ne_some.mpr fun k hk => ?_
  obtain ⟨j, hself⟩ := h.back
  have hrest := leads_of_descend h.dir (by simpa using h.hasLink.leadsTo.dir) h.dirs
  rw [List.append_nil] at hrest
  obtain ⟨_, hcwd⟩ := h.hasLink.leadsTo.lead
  rw [includePath_eq, FileSystem.find, if_neg (by simp)] at hk
  obtain ⟨n, _, hk⟩ := hcwd.2.exists_resolveWithin_eq hk
  rw [resolveWithin_loop h.hasLink.node ((hself.mono fun _ _ => trivial).append hrest)] at hk
  cases hk

theorem Exceeds.find_eq_none (h : Exceeds path d s fs) :
    fs.find (includePath path s.2) = none := by
  refine Option.eq_none_iff_forall_ne_some.mpr fun k hk => ?_
  obtain ⟨i, j, hij, hcwd, hlead⟩ := h.hasLink.exists_leads hk
  obtain ⟨i', j', hlt, hcwd', hself⟩ := h.lead
  obtain ⟨m, j₁, j₂, hj, hpath, _⟩ := hlead.split
  cases hpath.eq_of_leads hself
  rw [hcwd.count_eq hcwd'] at hij
  rw [hpath.count_eq hself] at hj
  omega

/-- Where a link leads that dangles there is no file. -/
theorem Dangles.read_eq_none (h : Dangles path d mp s fs) (hm : artifactDir s = some m) :
    fs.read (includePath path s.2) = none := by
  refine Option.eq_none_iff_forall_ne_some.mpr fun c hc => ?_
  obtain ⟨k, hk, hfile⟩ := Option.bind_eq_some_iff.mp hc
  obtain ⟨i, j, _, _, hlead⟩ := h.hasLink.exists_leads hk
  have hinside := h.links.leads_of_goesDown h.hasLink.leadsTo.dir h.down hlead
  have hdir : fs.IsDir (d ++ mp) := hinside.isDir_of_ne_nil (by simp)
  have hplace : descend [] (Builder.relDir s.1 ++ [.normal (Builder.skelName s.2)]) =
      some (m ++ [Builder.skelName s.2]) := descend_concat hm _
  -- There are no links in the directories below, where the target is looked for.
  have hfree : ∀ v ∈ trail [] (Builder.relDir s.1 ++ [.normal (Builder.skelName s.2)]),
      ∀ t, fs.node (d ++ mp ++ v) ≠ some (.symlink t) := by
    intro v _ t ht
    rw [List.append_assoc] at ht
    obtain ⟨x, _, heq, _⟩ := h.links (mp ++ v) t (by simp [h.below]) ht
    obtain ⟨_, rfl⟩ := List.append_eq_singleton_iff.mp heq |>.resolve_left
      fun hnil => h.below hnil.1
    rw [List.append_nil] at ht
    cases hdir.symm.trans ht
  rw [← List.append_nil (d ++ mp), ← List.append_nil (Builder.relDir s.1 ++ _)] at hinside
  cases hinside.of_trail hplace hfree
  rw [FileSystem.fileAt] at hfile
  split at hfile
  · rename_i c' hnode
    rw [List.append_assoc, ← List.append_assoc mp m] at hnode
    have heq := Option.some.inj (hm.symm.trans (h.own _ _ hnode))
    exact h.below (List.append_left_eq_self.mp heq.symm)
  · cases hfile

end Unreadable

def IsOther (d : Location α) (name : Name) (k : Location α) : Prop :=
  ∃ name', name' ≠ name ∧ k = d ++ [Builder.skelName name']

section Others

omit [DecidableEq α] in
theorem not_isOther_of_outside {k : Location α} (hk : Outside d k) : ¬ IsOther d name k := by
  rintro ⟨name', _, heq⟩
  cases hk _ heq

omit [DecidableEq α] in
theorem LeadsTo.of_stays (h : LeadsTo path d fs) (hstays : Stays (IsOther d name) fs fs') :
    LeadsTo path d fs' := by
  obtain ⟨i, hi, hcwd⟩ := h.lead
  refine ⟨hstays.dirs d h.dir, i, hi, ?_⟩
  rw [hstays.cwd]
  exact hcwd.of_stays hstays (fun _ => not_isOther_of_outside) h.dir

theorem HasLink.of_stays (h : HasLink path d s fs) (hstays : Stays (IsOther d s.2) fs fs') :
    HasLink path d s fs' := by
  refine ⟨h.leadsTo.of_stays hstays, hstays.links _ _ ?_ h.node⟩
  rintro ⟨name, hne, heq⟩
  have hlast := List.singleton_inj.mp (List.append_cancel_left heq)
  exact hne (skelName_injective hlast).symm

theorem Loops.of_stays (h : Loops path d s fs) (hstays : Stays (IsOther d s.2) fs fs') :
    Loops path d s fs' where
  hasLink := h.hasLink.of_stays hstays
  back := by
    obtain ⟨j, hself⟩ := h.back
    exact ⟨j, hself.of_stays hstays (fun _ => not_isOther_of_outside) h.hasLink.leadsTo.dir⟩
  dir := h.dir
  dirs := fun k hk => hstays.dirs _ (h.dirs k hk)

theorem Exceeds.of_stays (h : Exceeds path d s fs) (hstays : Stays (IsOther d s.2) fs fs') :
    Exceeds path d s fs' := by
  obtain ⟨i, j, hij, hcwd, hself⟩ := h.lead
  have hdir := h.hasLink.leadsTo.dir
  refine ⟨h.hasLink.of_stays hstays, i, j, hij, ?_,
    hself.of_stays hstays (fun _ => not_isOther_of_outside) hdir⟩
  rw [hstays.cwd]
  exact hcwd.of_stays hstays (fun _ => not_isOther_of_outside) hdir

theorem Replaced.stays {name' : Name} {n : Option (Node α C)}
    (hrep : Replaced d fs fs' (Builder.skelName name') n) (hne : name' ≠ name) :
    Stays (IsOther d name) fs fs' where
  cwd := hrep.cwd
  dirs := hrep.kept.dirs
  links := by
    intro k t hk ht
    rw [hrep.node, Function.update_of_ne, ht]
    exact fun heq => hk ⟨name', hne, heq⟩

end Others

/-- What is kept by creating directories, and by writing and linking skeletons of other
names. -/
structure Persists (path : Path α) (d : Location α) (name : Name)
    (I : FileSystem α C → Prop) : Prop where
  leadsTo : ∀ fs, I fs → LeadsTo path d fs
  createDir : ∀ fs p fs', I fs → fs.createDir p = some fs' → I fs'
  write : ∀ fs q name' c fs', I fs → descend [] q ≠ none → name' ≠ name →
    fs.write (path ++ q ++ [.normal (Builder.skelName name')]) c = some fs' → I fs'
  linked : ∀ fs q name' fs', I fs → descend [] q ≠ none → name' ≠ name →
    Replaced d fs fs' (Builder.skelName name')
      (some (.symlink (path ++ q ++ [.normal (Builder.skelName name')]))) → I fs'

theorem Persists.of_stays {I : FileSystem α C → Prop} (hleads : ∀ fs, I fs → LeadsTo path d fs)
    (hstays : ∀ fs fs', I fs → Stays (IsOther d name) fs fs' → I fs') :
    Persists path d name I where
  leadsTo := hleads
  createDir := fun fs _ fs' h hcreate => hstays fs fs' h (.createDir hcreate)
  write := fun fs _ _ _ fs' h _ _ hwrite => hstays fs fs' h (.write hwrite)
  linked := fun fs _ _ fs' h _ hne hrep => hstays fs fs' h (hrep.stays hne)

theorem Loops.persists :
    Persists path d s.2 (Loops path d s : FileSystem α C → Prop) :=
  .of_stays (fun _ h => h.hasLink.leadsTo) fun _ _ => Loops.of_stays

theorem Exceeds.persists :
    Persists path d s.2 (Exceeds path d s : FileSystem α C → Prop) :=
  .of_stays (fun _ h => h.hasLink.leadsTo) fun _ _ => Exceeds.of_stays

/-- A link that dangles is not filled in by skeletons of other names. -/
theorem Dangles.persists :
    Persists path d s.2 (Dangles path d mp s : FileSystem α C → Prop) where
  leadsTo := fun _ h => h.hasLink.leadsTo
  createDir := by
    intro fs p fs' h hcreate
    refine ⟨h.hasLink.of_stays (.createDir hcreate), h.down, h.below, ?_, ?_⟩
    · exact fun u t hu ht => h.links u t hu (FileSystem.node_of_createDir hcreate ht (by simp))
    · exact fun u c hc => h.own u c (FileSystem.node_of_createDir hcreate hc (by simp))
  write := by
    intro fs q name' c fs' h hq hne hwrite
    refine ⟨h.hasLink.of_stays (.write hwrite), h.down, h.below, ?_, ?_⟩
    · intro u t hu ht
      rcases FileSystem.node_of_write hwrite ht with hold | ⟨_, hfile⟩
      · exact h.links u t hu hold
      · cases hfile
    · intro u c' hc'
      rcases FileSystem.node_of_write hwrite hc' with hold | ⟨hfind, _⟩
      · exact h.own u c' hold
      · -- A skeleton comes to lie in a place that has its name.
        rw [FileSystem.find, if_neg (by simp), List.append_assoc] at hfind
        obtain ⟨n, _, hlead⟩ := FileSystem.exists_leads hfind
        obtain ⟨m', i, i', _, hpath, hrest⟩ := hlead.split
        obtain ⟨i₀, _, hcwd⟩ := h.hasLink.leadsTo.lead
        cases hpath.eq_of_leads hcwd
        rw [← List.append_nil d] at hrest
        obtain ⟨u', heq⟩ := h.links.exists_eq_concat h.down h.hasLink.leadsTo.dir hrest hq
          (Nat.le_refl _) (.inl rfl)
        rw [List.append_nil] at heq
        have hlast := (List.append_inj' (List.append_cancel_left heq) rfl).2
        exact absurd (skelName_injective (List.singleton_inj.mp hlast)).symm hne
  linked := by
    intro fs q name' fs' h hq hne hrep
    refine ⟨h.hasLink.of_stays (hrep.stays hne), h.down, h.below, ?_, ?_⟩
    · intro u t hu ht
      by_cases heq : u = [Builder.skelName name']
      · subst heq
        cases hrep.node_self.symm.trans ht
        exact ⟨_, q, rfl, rfl, hq⟩
      · exact h.links u t hu ((hrep.node_of_ne heq).symm.trans ht)
    · intro u c hc
      by_cases heq : u ++ [Builder.skelName s.2] = [Builder.skelName name']
      · rw [heq, hrep.node_self] at hc
        cases hc
      · exact h.own u c ((hrep.node_of_ne heq).symm.trans hc)

/-- Nothing was linked since, and no file has the name of the skeleton. -/
structure Unlinked (path : Path α) (d : Location α) (name : Name) (fs₀ fs : FileSystem α C) :
    Prop where
  tidy : Tidy path d False fs
  kept : Kept d fs₀ fs
  unused : ∀ u c, fs.node (d ++ (u ++ [Builder.skelName name])) ≠ some (.file c)

section Treating

variable {c : C}

theorem HasLink.of_treated (h : LeadsTo path d fs)
    (htreated : Treated path d fs fs' (Builder.relDir s.1) m s.2 True c) :
    HasLink path d s fs' := by
  refine ⟨h.of_kept (htreated.kept h.dir), ?_⟩
  obtain ⟨_, _, _, _, _, hrep, _⟩ := htreated.steps
  exact (hrep trivial).node_self

theorem Loops.of_treated (h : IsOutDir path d fs) (hroot : artifactDir s = some [])
    (htreated : Treated path d fs fs' (Builder.relDir s.1) m s.2 True c) :
    Loops path d s fs' where
  hasLink := .of_treated h.leadsTo htreated
  back := by
    obtain ⟨_, j, _, _, hself⟩ := h.lead
    exact ⟨j, hself.of_agree (htreated.kept h.dir).outside⟩
  dir := hroot
  dirs := fun _ hk => htreated.isDir_iff.mpr (.inr hk)

theorem Exceeds.of_treated (h : Unlinked path d s.2 fs₀ fs)
    (hlead : ∃ i j, FileSystem.maxLinks < i + (j + 1) ∧
      Leads fs₀ (Outside d) fs₀.cwd path d i ∧ Leads fs₀ (Outside d) d path d j)
    (htreated : Treated path d fs fs' (Builder.relDir s.1) m s.2 True c) :
    Exceeds path d s fs' where
  hasLink := .of_treated h.tidy.leadsTo htreated
  lead := by
    have hkept := h.kept.trans (htreated.kept h.tidy.leadsTo.dir)
    obtain ⟨i, j, hij, hcwd, hself⟩ := hlead
    refine ⟨i, j, hij, ?_, hself.of_agree hkept.outside⟩
    rw [hkept.cwd]
    exact hcwd.of_agree hkept.outside

theorem Wrote.eq_of_tidy {w : Location α} {x : List α} (h : Tidy path d False fs)
    (hwrote : Wrote path d fs fs' m x c w) : w = m := by
  cases hwrote.reaches with
  | here => rfl
  | linked _ _ hlinked => exact (h.links _ _ (by simp) hlinked.node).1.elim

/-- The only link that is made dangles. -/
theorem Dangles.of_treated (h : Unlinked path d s.2 fs₀ fs) (hdown : GoesDown path mp)
    (hbelow : mp ≠ []) (hm : artifactDir s = some m)
    (htreated : Treated path d fs fs' (Builder.relDir s.1) m s.2 True c) :
    Dangles path d mp s fs' := by
  have hlink := HasLink.of_treated h.tidy.leadsTo htreated
  obtain ⟨fs₁, fs₂, w, hgrown, hwrote, hrep, _⟩ := htreated.steps
  have h₁ := h.tidy.of_grown hgrown
  cases hwrote.eq_of_tidy h₁
  have h₂ := hwrote.tidy h₁
  refine ⟨hlink, hdown, hbelow, ?_, ?_⟩
  · intro u t hu ht
    by_cases heq : u = [Builder.skelName s.2]
    · subst heq
      cases (hrep trivial).node_self.symm.trans ht
      exact ⟨_, _, rfl, rfl, by rw [← artifactDir, hm]; simp⟩
    · rw [(hrep trivial).node_of_ne heq] at ht
      exact (h₂.links u t hu ht).1.elim
  · intro u c' hc'
    by_cases hroot : u ++ [Builder.skelName s.2] = [Builder.skelName s.2]
    · rw [hroot, (hrep trivial).node_self] at hc'
      cases hc'
    · rw [(hrep trivial).node_of_ne hroot] at hc'
      by_cases hplace : u ++ [Builder.skelName s.2] = m ++ [Builder.skelName s.2]
      · rw [hm, List.append_cancel_right hplace]
      · rw [hwrote.node_of_ne hplace] at hc'
        exact absurd (hgrown.node_of_eq_some hc' (by simp)) (h.unused u c')

theorem Unlinked.of_treated (h : Unlinked path d name fs₀ fs) {link : Prop} (hnot : ¬ link)
    (hname : t.2 ≠ name) (h' : Tidy path d False fs')
    (htreated : Treated path d fs fs' (Builder.relDir t.1) m t.2 link c) :
    Unlinked path d name fs₀ fs' := by
  refine ⟨h', h.kept.trans (htreated.kept h.tidy.leadsTo.dir), fun u c' hc' => ?_⟩
  obtain ⟨fs₁, fs₂, w, hgrown, hwrote, _, hsame⟩ := htreated.steps
  rw [hsame hnot, hwrote.node_of_ne] at hc'
  · exact h.unused u c' (hgrown.node_of_eq_some hc' (by simp))
  · intro heq
    have hlast := (List.append_inj' heq rfl).2
    exact hname (skelName_injective (List.singleton_inj.mp hlast)).symm

end Treating

section Parts

variable {self : Builder α} {env : Environment α C} {counts : Name → ℕ}
  {I : FileSystem α C → Prop}

/-- A source that is to be linked is linked, wherever the link leads. -/
theorem Tidy.buildLinked (h : Tidy path d reads fs)
    (hdir : (self.outDir <|> env.outDir) = some path) (hm : artifactDir s = some m)
    (hl : IsLinked sources s) :
    Fallible.Ends (self.buildSource env path (Builder.nameCount sources) s.1 s.2) fs
      (fun _ fs' => ∃ c, Treated path d fs fs' (Builder.relDir s.1) m s.2 True c)
      fun _ => True := by
  refine Fallible.Ends.bind ((h.outSubdir hdir hm).mono ?_ fun _ _ => trivial)
  rintro _ fs₁ ⟨rfl, ⟨h₁, _⟩, hgrown⟩
  refine Fallible.Ends.bind
    ((h₁.buildAndGenerate hm hgrown.dirs _).mono ?_ fun _ _ => trivial)
  rintro _ fs₂ ⟨c, w, _, hwrote⟩
  have h₂ := h₁.leadsTo.of_kept hwrote.kept
  have hne : path ++ Builder.relDir s.1 ≠ path := by simpa using hl.2
  rw [if_pos ⟨hl.1, hne⟩]
  have hout : path ++ Builder.relDir s.1 ++ [.normal (Builder.skelName s.2)] ≠ [] := by simp
  refine (h₂.replaced_of_linkSkeleton hout).mono ?_ fun _ _ => trivial
  intro _ fs' hrep
  exact ⟨c, fs₁, fs₂, w, hgrown, hwrote, fun _ => hrep, fun hnot => absurd trivial hnot⟩

theorem Persists.buildSource (hI : Persists path d name I) (h : I fs)
    (hdir : (self.outDir <|> env.outDir) = some path) (hinside : artifactDir t ≠ none)
    (hname : t.2 ≠ name) :
    Fallible.Ends (self.buildSource env path counts t.1 t.2) fs (fun _ => I)
      fun _ => True := by
  obtain ⟨m, hm⟩ := Option.ne_none_iff_exists'.mp hinside
  have hsub : Fallible.Ends (self.outSubdir env t.1) fs
      (fun outSubdir fs' => outSubdir = path ++ Builder.relDir t.1 ∧ I fs')
      fun _ => True := by
    rw [Builder.outSubdir, getOutDir_eq hdir, pure_bind, join_of_descend hm]
    refine Fallible.Ends.bind
      ((FileSystem.createDirAllFrom_ends hI.createDir _ [] _ h).mono ?_ fun _ _ => trivial)
    exact fun _ fs' h' => Fallible.Ends.pure ⟨rfl, h'⟩
  refine Fallible.Ends.bind (hsub.mono ?_ fun _ _ => trivial)
  rintro _ fs₁ ⟨rfl, h₁⟩
  have hgen : Fallible.Ends (Builder.buildAndGenerate env t.1
      (path ++ Builder.relDir t.1 ++ [.normal (Builder.skelName t.2)])) fs₁ (fun _ => I)
      fun _ => True := by
    rw [Builder.buildAndGenerate]
    cases env.generate t.1 with
    | none => exact Fallible.Ends.throw trivial
    | some c =>
        refine Fallible.Ends.attempt (fun fs' hwrite => ?_) fun _ => trivial
        exact hI.write fs₁ _ _ c fs' h₁ hinside hname hwrite
  refine Fallible.Ends.bind (hgen.mono ?_ fun _ _ => trivial)
  intro _ fs₂ h₂
  have hout : path ++ Builder.relDir t.1 ++ [.normal (Builder.skelName t.2)] ≠ [] := by simp
  split
  · refine ((hI.leadsTo fs₂ h₂).replaced_of_linkSkeleton hout).mono ?_ fun _ _ => trivial
    exact fun _ fs' hrep => hI.linked fs₂ _ _ fs' h₂ hinside hname hrep
  · exact Fallible.Ends.pure h₂

theorem Persists.forM (hI : Persists path d name I) (h : I fs)
    (hdir : (self.outDir <|> env.outDir) = some path)
    (hafter : ∀ t ∈ after, artifactDir t ≠ none ∧ t.2 ≠ name) :
    Fallible.Ends (after.forM fun t => self.buildSource env path counts t.1 t.2) fs
      (fun _ => I) fun _ => True := by
  refine Fallible.Ends.forM (I := fun _ => I) h ?_
  intro front t back fs hsplit h
  obtain ⟨hinside, hname⟩ := hafter t (by simp [hsplit])
  exact hI.buildSource h hdir hinside hname

/-- What a source that is linked brings about holds at the end of the build, if it
persists. -/
theorem Persists.of_build {J : FileSystem α C → Prop} (hI : Persists path d s.2 I)
    (hdir : (self.outDir <|> env.outDir) = some path)
    (hsources : sources = before ++ s :: after)
    (hinside : ∀ t ∈ after, artifactDir t ≠ none) (hl : IsLinked sources s)
    (hbefore : Fallible.Ends (do
      let _ ← dumpKernelBtf env path
      before.forM fun t => self.buildSource env path (Builder.nameCount sources) t.1 t.2) fs
      (fun _ => J) fun _ => True)
    (hstep : ∀ fs, J fs → Fallible.Ends
      (self.buildSource env path (Builder.nameCount sources) s.1 s.2) fs (fun _ => I)
      fun _ => True) :
    Fallible.Ends (do
      let _ ← dumpKernelBtf env path
      sources.forM fun t => self.buildSource env path (Builder.nameCount sources) t.1 t.2) fs
      (fun _ => I) fun _ => True := by
  refine Fallible.Ends.bind ((Fallible.Ends.bind_iff.mp hbefore).mono ?_ fun _ h => h)
  intro _ fs₁ h₁
  have hall : Fallible.Ends ((before ++ s :: after).forM fun t =>
      self.buildSource env path (Builder.nameCount sources) t.1 t.2) fs₁ (fun _ => I)
      fun _ => True := by
    refine Fallible.Ends.forM_append (h₁.mono ?_ fun _ h => h)
    intro _ fs₂ h₂
    refine Fallible.Ends.bind ((hstep fs₂ h₂).mono ?_ fun _ h => h)
    intro _ fs₃ h₃
    exact hI.forM h₃ hdir fun t ht => ⟨hinside t ht, ne_of_mem_after hsources hl.1 ht⟩
  rwa [← hsources] at hall

/-- The sources before the first one that is linked. -/
theorem Unlinked.of_build (hempty : IsEmptyDir path d fs)
    (hdir : (self.outDir <|> env.outDir) = some path)
    (hsources : sources = before ++ s :: after)
    (hinside : ∀ t ∈ before, artifactDir t ≠ none)
    (hnot : ∀ t ∈ before, ¬ IsLinked sources t) (hl : IsLinked sources s) :
    Fallible.Ends (do
      let _ ← dumpKernelBtf env path
      before.forM fun t => self.buildSource env path (Builder.nameCount sources) t.1 t.2) fs
      (fun _ => Unlinked path d s.2 fs) fun _ => True := by
  refine Fallible.Ends.bind
    (((hempty.tidy False.elim).dumpKernelBtf env).mono ?_ fun _ _ => trivial)
  rintro _ fs₁ ⟨⟨h₁, hkept₁⟩, hsame, _⟩
  have hunused : ∀ u c, fs₁.node (d ++ (u ++ [Builder.skelName s.2])) ≠ some (.file c) := by
    intro u c hc
    rw [hsame] at hc
    · cases hc.symm.trans (hempty.node _ (by simp))
    · exact fun heq => vmlinux_ne_skelName s.2 (eq_of_concat_eq_singleton heq).2.symm
  refine Fallible.Ends.forM (I := fun _ => Unlinked path d s.2 fs) ⟨h₁, hkept₁, hunused⟩ ?_
  intro front t back fs₂ hsplit h
  have ht : t ∈ before := by simp [hsplit]
  obtain ⟨m, hm⟩ := Option.ne_none_iff_exists'.mp (hinside t ht)
  have hlt (hcount : Builder.nameCount sources t.2 = 1) : ¬ Builder.relDir t.1 ≠ [] :=
    fun hrel => hnot t ht ⟨hcount, hrel⟩
  refine (h.tidy.buildSource hdir hm (fun hcount _ => not_not.mp (hlt hcount)) hlt).mono ?_
    fun _ _ => trivial
  rintro _ fs₃ ⟨h', c, _, htreated⟩
  refine h.of_treated (hnot t ht) (fun hname => ?_) h' htreated
  exact nameCount_ne_one hsources ht hname hl.1

end Parts

end Build

end Xbpf
