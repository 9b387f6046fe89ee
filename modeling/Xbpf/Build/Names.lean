import Xbpf.Build.Rebuild

/-!
# Skeletons by name

A skeleton should be found in the output directory by its name alone if only one file
has that name. The builder counts how often a name is listed instead of the files that
have it, so that a file that is matched and added as well is not linked. And it compares
the directory of a skeleton with the output directory as a path, so that a skeleton that
comes to lie in the output directory in a roundabout way is replaced by a link to itself.
-/

namespace Xbpf

namespace Build

open Files Runs

variable {α C : Type} [DecidableEq α] [OsAlphabet α] {path : Path α} {d : Location α}
  {fs₀ fs fs₁ fs' : FileSystem α C}
  {generate : Path α → Option C} {sources before after : List (Source α)} {s t : Source α}
  {name : Name} {reads : Prop}

/-- The path leads to a directory with nothing in it, wherever it leads from inside. -/
structure IsEmptyDir (path : Path α) (d : Location α) (fs : FileSystem α C) : Prop where
  leadsTo : LeadsTo path d fs
  node : ∀ l, l ≠ [] → fs.node (d ++ l) = none

def SameFile (fs : FileSystem α C) (p q : Path α) : Prop :=
  p = q ∨ ∃ k, fs.find p = some k ∧ fs.find q = some k

/-- The name is that of exactly one file, which may be listed several times. -/
def IsUnambiguous (fs : FileSystem α C) (sources : List (Source α)) (name : Name) : Prop :=
  (∃ s ∈ sources, s.2 = name) ∧
    ∀ s ∈ sources, ∀ t ∈ sources, s.2 = name → t.2 = name → SameFile fs s.1 t.1

/-- The skeleton of a source of this name is included by the name. -/
def IsFound (path : Path α) (generate : Path α → Option C) (sources : List (Source α))
    (fs : FileSystem α C) (name : Name) : Prop :=
  ∃ s ∈ sources, s.2 = name ∧ ∃ c, generate s.1 = some c ∧
    fs.read (includePath path name) = some c

/-- A name that is listed once, unless its artifact is a link to itself, or a name that is
listed several times, at least once in the output directory itself. -/
def IsPlaced (sources : List (Source α)) (name : Name) : Prop :=
  (Builder.nameCount sources name = 1 ∧
      ∀ s ∈ sources, s.2 = name → IsLinked sources s → artifactDir s ≠ some []) ∨
    (Builder.nameCount sources name ≠ 1 ∧ ∃ s ∈ sources, s.2 = name ∧ artifactDir s = some [])

omit [DecidableEq α] in
theorem IsEmptyDir.tidy (h : IsEmptyDir path d fs) (hreads : reads → IsOutDir path d fs) :
    Tidy path d reads fs := by
  refine ⟨h.leadsTo, hreads, fun l t hl ht => ?_⟩
  cases ht.symm.trans (h.node l hl)

omit [DecidableEq α] [OsAlphabet α] in
theorem nameCount_ne_one (hsources : sources = before ++ t :: after)
    (hs : s ∈ before) (hname : s.2 = t.2) : Builder.nameCount sources t.2 ≠ 1 := by
  have hbefore : 0 < (before.map Prod.snd).count t.2 :=
    List.count_pos_iff.mpr (List.mem_map.mpr ⟨s, hs, hname⟩)
  rw [Builder.nameCount, hsources, List.map_append, List.map_cons, List.count_append,
    List.count_cons_self]
  omega

omit [DecidableEq α] [OsAlphabet α] in
theorem ne_of_mem_after (hsources : sources = before ++ s :: after)
    (hcount : Builder.nameCount sources s.2 = 1) (ht : t ∈ after) : t.2 ≠ s.2 := by
  intro hname
  have hafter : 0 < (after.map Prod.snd).count s.2 :=
    List.count_pos_iff.mpr (List.mem_map.mpr ⟨t, ht, hname⟩)
  rw [Builder.nameCount, hsources, List.map_append, List.map_cons, List.count_append,
    List.count_cons_self] at hcount
  omega

/-- What has been done about the sources so far, without a link to itself. -/
structure Written (path : Path α) (d : Location α) (reads : Prop)
    (generate : Path α → Option C) (sources done : List (Source α)) (fs : FileSystem α C) :
    Prop where
  tidy : Tidy path d reads fs
  files : ∀ s ∈ done, ∀ m, artifactDir s = some m → ∃ t ∈ done, t.2 = s.2 ∧
    ∃ c, generate t.1 = some c ∧ fs.node (d ++ (m ++ [Builder.skelName s.2])) = some (.file c)
  links : ∀ s ∈ done, IsLinked sources s → fs.node (d ++ [Builder.skelName s.2]) =
    some (.symlink (path ++ Builder.relDir s.1 ++ [.normal (Builder.skelName s.2)]))
  own : ∀ name, fs.IsOccupied (d ++ [Builder.skelName name]) →
    ∃ s ∈ done, s.2 = name ∧ (artifactDir s = some [] ∨ IsLinked sources s)
  linked : ∀ name u, fs.node (d ++ [Builder.skelName name]) = some (.symlink u) →
    ∃ s ∈ done, s.2 = name ∧ IsLinked sources s

/-- A source was treated whose skeleton lies in its own place, below its link if it has one. -/
structure Added (path : Path α) (d : Location α) (fs fs' : FileSystem α C) (t : Source α)
    (m : Location α) (c : C) (link : Prop) : Prop where
  skel : fs'.node (d ++ (m ++ [Builder.skelName t.2])) = some (.file c)
  symlink : link → fs'.node (d ++ [Builder.skelName t.2]) =
    some (.symlink (path ++ Builder.relDir t.1 ++ [.normal (Builder.skelName t.2)]))
  stays : ∀ l n, n ≠ .dir → l ≠ m ++ [Builder.skelName t.2] →
    (link → l ≠ [Builder.skelName t.2]) → fs.node (d ++ l) = some n →
      fs'.node (d ++ l) = some n
  links : ∀ name u, fs'.node (d ++ [Builder.skelName name]) = some (.symlink u) →
    (link ∧ name = t.2) ∨ fs.node (d ++ [Builder.skelName name]) = some (.symlink u)

omit [DecidableEq α] in
theorem includePath_eq (path : Path α) (name : Name) :
    includePath path name = path ++ [.normal (Builder.skelName name)] :=
  rfl

namespace Written

theorem start (h : Tidy path d reads fs)
    (hempty : ∀ name, fs.node (d ++ [Builder.skelName name]) = none) :
    Written path d reads generate sources [] fs where
  tidy := h
  files := by simp
  links := by simp
  own := by
    rintro name ⟨n, hn, _⟩
    cases hn.symm.trans (hempty name)
  linked := by
    intro name u hu
    cases hu.symm.trans (hempty name)

/-- A skeleton is not written through a link. -/
theorem eq_of_wrote (h : Written path d reads generate sources before fs)
    (hsources : sources = before ++ t :: after) {m w : Location α} {c : C}
    (hgrown : Grown d fs fs₁ (trail [] (Builder.relDir t.1)))
    (hwrote : Wrote path d fs₁ fs' m (Builder.skelName t.2) c w) : w = m := by
  cases hwrote.reaches with
  | here => rfl
  | linked _ hx hlinked =>
      cases skelName_injective hx
      have hlink := hgrown.node_of_eq_some hlinked.node (by simp)
      obtain ⟨s, hs, hname, hl⟩ := h.linked _ _ hlink
      exact absurd (hname ▸ hl.1) (nameCount_ne_one hsources hs hname)

theorem added (h : Written path d reads generate sources before fs)
    (hsources : sources = before ++ t :: after) {m : Location α} {c : C}
    (hbelow : IsLinked sources t → m ≠ [])
    (htreated : Treated path d fs fs' (Builder.relDir t.1) m t.2 (IsLinked sources t) c) :
    Added path d fs fs' t m c (IsLinked sources t) := by
  obtain ⟨fs₁, fs₂, w, hgrown, hwrote, hrep, hsame⟩ := htreated.steps
  have hw := h.eq_of_wrote hsources hgrown hwrote
  rw [hw] at hwrote
  constructor
  case skel =>
    by_cases hl : IsLinked sources t
    · rw [(hrep hl).node_of_ne ?_, hwrote.node_self]
      exact fun heq => hbelow hl (eq_of_concat_eq_singleton heq).1
    · rw [hsame hl, hwrote.node_self]
  case symlink => exact fun hl => (hrep hl).node_self
  case stays =>
    intro l n hn hplace hlink hnode
    have h₂ : fs₂.node (d ++ l) = some n :=
      (hwrote.node_of_ne hplace).trans (hgrown.node_eq_some hnode hn)
    by_cases hl : IsLinked sources t
    · rw [(hrep hl).node_of_ne (hlink hl), h₂]
    · rw [hsame hl, h₂]
  case links =>
    intro name u hu
    by_cases hlt : IsLinked sources t ∧ name = t.2
    · exact .inl hlt
    · have h₂ : fs₂.node (d ++ [Builder.skelName name]) = some (.symlink u) := by
        by_cases hl : IsLinked sources t
        · rwa [(hrep hl).node_of_ne] at hu
          exact fun heq => hlt ⟨hl, skelName_injective (List.singleton_inj.mp heq)⟩
        · rwa [hsame hl] at hu
      have h₁ : fs₁.node (d ++ [Builder.skelName name]) = some (.symlink u) := by
        rwa [hwrote.node_of_ne] at h₂
        intro heq
        rw [heq, hwrote.node_self] at h₂
        cases h₂
      exact .inr (hgrown.node_of_eq_some h₁ (by simp))

/-- One more source. -/
theorem step (h : Written path d reads generate sources before fs)
    (hsources : sources = before ++ t :: after) {m : Location α} {c : C}
    (hm : artifactDir t = some m) (hbelow : IsLinked sources t → m ≠ [])
    (hgen : generate t.1 = some c)
    (htreated : Treated path d fs fs' (Builder.relDir t.1) m t.2 (IsLinked sources t) c)
    (h' : Tidy path d reads fs') : Written path d reads generate sources (before ++ [t]) fs' := by
  have hadded := h.added hsources hbelow htreated
  have hother : ∀ s ∈ before, IsLinked sources t → s.2 ≠ t.2 :=
    fun s hs hl hname => nameCount_ne_one hsources hs hname hl.1
  constructor
  case tidy => exact h'
  case files =>
    intro s hs m' hm'
    rcases List.mem_append.mp hs with hs | hs
    · by_cases hplace : m' ++ [Builder.skelName s.2] = m ++ [Builder.skelName t.2]
      · have hname : s.2 = t.2 :=
          skelName_injective (List.singleton_inj.mp (List.append_inj' hplace rfl).2)
        exact ⟨t, by simp, hname.symm, c, hgen, hplace ▸ hadded.skel⟩
      · obtain ⟨u, hu, hname, c', hgen', hfile⟩ := h.files s hs m' hm'
        refine ⟨u, by simp [hu], hname, c', hgen',
          hadded.stays _ _ (by simp) hplace (fun hl heq => ?_) hfile⟩
        exact hother s hs hl (skelName_injective (eq_of_concat_eq_singleton heq).2)
    · rw [List.mem_singleton.mp hs] at hm' ⊢
      cases hm.symm.trans hm'
      exact ⟨t, by simp, rfl, c, hgen, hadded.skel⟩
  case links =>
    intro s hs hl
    rcases List.mem_append.mp hs with hs | hs
    · have hne : s.2 ≠ t.2 := fun hname => nameCount_ne_one hsources hs hname (hname ▸ hl.1)
      refine hadded.stays _ _ (by simp) ?_ ?_ (h.links s hs hl)
      · exact fun heq => hne (skelName_injective (eq_of_concat_eq_singleton heq.symm).2.symm)
      · exact fun _ heq => hne (skelName_injective (List.singleton_inj.mp heq))
    · rw [List.mem_singleton.mp hs] at hl ⊢
      exact hadded.symlink hl
  case own =>
    intro name hoccupied
    rcases htreated.isOccupied_cases hoccupied with hold | hplace | ⟨hl, hplace⟩
    · obtain ⟨s, hs, hname, hwhy⟩ := h.own name hold
      exact ⟨s, by simp [hs], hname, hwhy⟩
    · obtain ⟨rfl, hx⟩ := eq_of_concat_eq_singleton hplace.symm
      exact ⟨t, by simp, skelName_injective hx, .inl hm⟩
    · exact ⟨t, by simp, skelName_injective (List.singleton_inj.mp hplace).symm, .inr hl⟩
  case linked =>
    intro name u hu
    rcases hadded.links name u hu with ⟨hl, rfl⟩ | hold
    · exact ⟨t, by simp, rfl, hl⟩
    · obtain ⟨s, hs, hname, hl⟩ := h.linked name u hold
      exact ⟨s, by simp [hs], hname, hl⟩

theorem isPlaced_of_isFound (h : Written path d reads generate sources sources fs)
    (hbelow : ∀ s ∈ sources, IsLinked sources s → artifactDir s ≠ some [])
    (hfound : IsFound path generate sources fs name) : IsPlaced sources name := by
  obtain ⟨s, hs, rfl, c, _, hread⟩ := hfound
  by_cases hcount : Builder.nameCount sources s.2 = 1
  · exact .inl ⟨hcount, fun t ht _ => hbelow t ht⟩
  · refine .inr ⟨hcount, ?_⟩
    obtain ⟨w, hw⟩ := h.tidy.exists_reaches [] (Builder.skelName s.2)
    rw [includePath_eq, (Progress.found h.tidy hw).2] at hread
    have hoccupied : fs.IsOccupied (d ++ [Builder.skelName s.2]) := by
      cases hw with
      | here =>
          rw [List.nil_append, FileSystem.fileAt] at hread
          split at hread
          · rename_i hnode
            exact ⟨_, hnode, by simp⟩
          · cases hread
      | linked _ hx hlinked =>
          cases skelName_injective hx
          exact ⟨_, hlinked.node, by simp⟩
    obtain ⟨t, ht, hname, hroot | hl⟩ := h.own s.2 hoccupied
    · exact ⟨t, ht, hname, hroot⟩
    · exact absurd (hname ▸ hl.1) hcount

theorem isFound_of_root (h : Written path d reads generate sources sources fs) (hs : s ∈ sources)
    (hroot : artifactDir s = some []) : IsFound path generate sources fs s.2 := by
  obtain ⟨t, ht, hname, c, hgen, hfile⟩ := h.files s hs [] hroot
  have hhere : Reaches path d fs [] (Builder.skelName s.2) [] := by
    refine .here fun u hu => ?_
    rw [List.append_assoc] at hu
    cases hu.symm.trans hfile
  refine ⟨t, ht, hname, c, hgen, ?_⟩
  rw [includePath_eq, (Progress.found h.tidy hhere).2, FileSystem.fileAt_eq_some hfile]

theorem isFound_of_isLinked (h : Written path d reads generate sources sources fs)
    (hs : s ∈ sources) (hl : IsLinked sources s) {m : Location α} (hm : artifactDir s = some m) :
    IsFound path generate sources fs s.2 := by
  have hlinked := h.tidy.linked_of_node (h.links s hs hl) hm
  obtain ⟨t, ht, hname, c, hgen, hfile⟩ := h.files s hs m hm
  refine ⟨t, ht, hname, c, hgen, ?_⟩
  rw [includePath_eq, (Progress.found h.tidy (.linked rfl rfl hlinked)).2,
    FileSystem.fileAt_eq_some hfile]

/-- What the name of a source leads to once all sources are written. -/
theorem isFound_iff (h : Written path d reads generate sources sources fs)
    (hinside : ∀ s ∈ sources, artifactDir s ≠ none)
    (hbelow : ∀ s ∈ sources, IsLinked sources s → artifactDir s ≠ some [])
    (hname : ∃ s ∈ sources, s.2 = name) :
    IsFound path generate sources fs name ↔ IsPlaced sources name := by
  refine ⟨h.isPlaced_of_isFound hbelow, ?_⟩
  rintro (⟨hcount, _⟩ | ⟨_, s, hs, rfl, hroot⟩)
  · obtain ⟨s, hs, rfl⟩ := hname
    by_cases hl : IsLinked sources s
    · obtain ⟨m, hm⟩ := Option.ne_none_iff_exists'.mp (hinside s hs)
      exact h.isFound_of_isLinked hs hl hm
    · refine h.isFound_of_root hs ?_
      have hrel : Builder.relDir s.1 = [] := by
        by_contra hrel
        exact hl ⟨hcount, hrel⟩
      rw [artifactDir, hrel]
      rfl
  · exact h.isFound_of_root hs hroot

end Written

section Parts

variable {self : Builder α} {env : Environment α C}

/-- The sources before the first link to itself. -/
theorem Written.forM (hdir : (self.outDir <|> env.outDir) = some path)
    (hsources : sources = before ++ after) (hinside : ∀ s ∈ before, artifactDir s ≠ none)
    (hreads : ∀ s ∈ before, IsLinked sources s → reads)
    (hbelow : ∀ s ∈ before, IsLinked sources s → artifactDir s ≠ some [])
    (h : Written path d reads env.generate sources [] fs) :
    Fallible.Ends (before.forM fun s =>
        self.buildSource env path (Builder.nameCount sources) s.1 s.2) fs
      (fun _ => Written path d reads env.generate sources before) fun _ => True := by
  refine Fallible.Ends.forM (I := Written path d reads env.generate sources) h ?_
  intro front t back fs hsplit h
  have ht : t ∈ before := by simp [hsplit]
  obtain ⟨m, hm⟩ := Option.ne_none_iff_exists'.mp (hinside t ht)
  refine (h.tidy.buildSource hdir hm ?_ fun hcount hrel => hreads t ht ⟨hcount, hrel⟩).mono ?_
    fun _ _ => trivial
  · intro hcount hnil
    by_contra hrel
    exact hbelow t ht ⟨hcount, hrel⟩ (hnil ▸ hm)
  · rintro _ fs' ⟨h', c, hgen, htreated⟩
    have hsplit' : sources = front ++ t :: (back ++ after) := by
      rw [hsources, hsplit, List.append_assoc, List.cons_append]
    exact h.step hsplit' hm (fun hl hnil => hbelow t ht hl (hnil ▸ hm)) hgen htreated h'

theorem Written.of_dumpKernelBtf (hempty : IsEmptyDir path d fs) (sources : List (Source α)) :
    Fallible.Ends (dumpKernelBtf env path) fs
      (fun _ => Written path d (IsOutDir path d fs) env.generate sources []) fun _ => True := by
  refine ((hempty.tidy id).dumpKernelBtf env).mono ?_ fun _ _ => trivial
  rintro _ fs' ⟨⟨h, _⟩, hsame, _⟩
  refine .start h fun name => ?_
  rw [hsame _ fun heq => vmlinux_ne_skelName name (List.singleton_inj.mp heq).symm]
  exact hempty.node _ (by simp)

/-- A build into an empty directory writes all sources if its links can be read and none
is a link to itself. -/
theorem Written.of_build (hempty : IsEmptyDir path d fs)
    (hdir : (self.outDir <|> env.outDir) = some path)
    (hinside : ∀ s ∈ sources, artifactDir s ≠ none)
    (hreads : ∀ s ∈ sources, IsLinked sources s → IsOutDir path d fs)
    (hbelow : ∀ s ∈ sources, IsLinked sources s → artifactDir s ≠ some []) :
    Fallible.Ends (do
      let _ ← dumpKernelBtf env path
      sources.forM fun s => self.buildSource env path (Builder.nameCount sources) s.1 s.2) fs
      (fun _ => Written path d (IsOutDir path d fs) env.generate sources sources)
      fun _ => True := by
  refine Fallible.Ends.bind ((Written.of_dumpKernelBtf hempty sources).mono ?_ fun _ h => h)
  intro _ fs' h
  exact h.forM hdir (List.append_nil _).symm hinside hreads hbelow

end Parts

end Build

end Xbpf
