import Mathlib.Data.List.Nodup
import Xbpf.Build.Artifacts

/-!
# The progress of a build

A build treats its sources in order. While it does, the directories of the sources
it has begun are there, the skeletons it has written can be read where their
artifacts lead, and the links it has made stay. In the output directory itself
nothing else appears, and no other link than the ones that were there before.

This needs a layout in which no two sources have one artifact, and an output
directory in which no artifact leads to another one to begin with.
-/

namespace Xbpf

namespace Build

open Files Runs

abbrev Source (α : Type) :=
  Path α × Name

variable {α C : Type} [DecidableEq α] [OsAlphabet α]

/-- The directory of the artifacts of a source, relative to the output directory. -/
def artifactDir (s : Source α) : Option (Location α) :=
  descend [] (Builder.relDir s.1)

def artifact (s : Source α) : Option (Location α) :=
  (artifactDir s).map fun m => m ++ [Builder.skelName s.2]

def IsLinked (sources : List (Source α)) (s : Source α) : Prop :=
  Builder.nameCount sources s.2 = 1 ∧ Builder.relDir s.1 ≠ []

instance (sources : List (Source α)) (s : Source α) : Decidable (IsLinked sources s) :=
  inferInstanceAs (Decidable (_ ∧ _))

/-- The artifacts lie in the output directory, each in a place of its own, and a
source that is linked has its artifact in a directory below. -/
structure Layout (sources : List (Source α)) : Prop where
  inside : ∀ s ∈ sources, artifactDir s ≠ none
  distinct : (sources.map artifact).Nodup
  below : ∀ s ∈ sources, IsLinked sources s → artifactDir s ≠ some []

variable {path : Path α} {d : Location α} {fs₀ fs fs' : FileSystem α C}
  {sources : List (Source α)} {s t : Source α}

omit [DecidableEq α] [OsAlphabet α] in
theorem eq_of_concat_eq_singleton {w : Location α} {x y : List α} (h : w ++ [x] = [y]) :
    w = [] ∧ x = y := by
  cases w with
  | nil => exact ⟨rfl, List.singleton_inj.mp h⟩
  | cons z w => simp at h

omit [DecidableEq α] [OsAlphabet α] in
theorem eq_of_nameCount_eq_one (hcount : Builder.nameCount sources s.2 = 1)
    (hs : s ∈ sources) (ht : t ∈ sources) (hname : t.2 = s.2) : t = s := by
  have hlen : (sources.filter fun u => u.2 = s.2).length = 1 := by
    rw [← hcount, Builder.nameCount, List.count, List.countP_map, List.countP_eq_length_filter]
    congr 1
    apply List.filter_congr
    intro u _
    rw [Bool.eq_iff_iff]
    simp
  obtain ⟨u, hu⟩ := List.length_eq_one_iff.mp hlen
  have hs' : s ∈ sources.filter fun u => u.2 = s.2 := by simp [hs]
  have ht' : t ∈ sources.filter fun u => u.2 = s.2 := by simp [ht, hname]
  rw [hu, List.mem_singleton] at hs' ht'
  rw [hs', ht']

namespace Layout

theorem artifact_ne (h : Layout sources) (hs : s ∈ sources) (ht : t ∈ sources)
    (hne : s ≠ t) : artifact s ≠ artifact t :=
  fun heq => hne (List.inj_on_of_nodup_map h.distinct hs ht heq)

theorem nodup (h : Layout sources) : sources.Nodup :=
  List.Nodup.of_map artifact h.distinct

end Layout

theorem artifact_eq {m : Location α} (hm : artifactDir s = some m) :
    artifact s = some (m ++ [Builder.skelName s.2]) := by
  rw [artifact, hm, Option.map_some]

/-- No artifact leads to another one, and what is found at a name that is neither an
artifact nor linked will be there in any case. -/
structure Clear (path : Path α) (d : Location α) (sources : List (Source α))
    (fs : FileSystem α C) : Prop where
  apart : ∀ s ∈ sources, ∀ t ∈ sources, s ≠ t → artifactDir s = some [] →
    fs.find (path ++ [.normal (Builder.skelName s.2)]) ≠ (artifact t).map fun l => d ++ l
  vacant : ∀ s ∈ sources, Builder.nameCount sources s.2 ≠ 1 →
    (∀ t ∈ sources, t.2 = s.2 → artifactDir t ≠ some []) →
      fs.pathExists (path ++ [.normal (Builder.skelName s.2)]) = true →
        ∃ t ∈ sources, [Builder.skelName s.2] ∈ trail [] (Builder.relDir t.1)

/-- The skeleton of a source is found where its artifact leads. -/
structure WrittenAt (path : Path α) (d : Location α) (fs : FileSystem α C)
    (s : Source α) (c : C) (m w : Location α) : Prop where
  dir : artifactDir s = some m
  reaches : Reaches path d fs m (Builder.skelName s.2) w
  node : fs.node (d ++ (w ++ [Builder.skelName s.2])) = some (.file c)

/-- An artifact leads to the same place if a link to it stays. -/
theorem WrittenAt.of_kept {c : C} {m w : Location α} (hdir : artifactDir s = some m)
    (hreaches : Reaches path d fs m (Builder.skelName s.2) w) (hkept : Kept d fs fs')
    (hlink : ∀ u, m = [] → fs.node (d ++ [Builder.skelName s.2]) = some (.symlink u) →
      fs'.node (d ++ [Builder.skelName s.2]) = some (.symlink u))
    (hnode : fs'.node (d ++ (w ++ [Builder.skelName s.2])) = some (.file c)) :
    WrittenAt path d fs' s c m w := by
  refine ⟨hdir, ?_, hnode⟩
  cases hreaches with
  | here =>
      refine .here fun u hu => ?_
      rw [List.append_assoc] at hu
      cases hu.symm.trans hnode
  | linked hm hx hlinked =>
      have hname := skelName_injective hx
      subst hname
      exact .linked hm rfl
        (hlinked.of_kept hkept ((hlink _ hm hlinked.node).trans hlinked.node.symm))

/-- How far a build that started from `fs₀` has come: the sources whose directories
are created, whose skeletons are written, and whose links are made. -/
structure Progress (path : Path α) (d : Location α) (generate : Path α → Option C)
    (sources : List (Source α)) (fs₀ : FileSystem α C) (created written linked : List (Source α))
    (fs : FileSystem α C) : Prop where
  tidy : Tidy path d True fs
  dirs : ∀ s ∈ created, ∀ k ∈ trail [] (Builder.relDir s.1), fs.IsDir (d ++ k)
  skels : ∀ s ∈ written, ∃ c m w, generate s.1 = some c ∧ WrittenAt path d fs s c m w
  links : ∀ s ∈ linked, IsLinked sources s → fs.node (d ++ [Builder.skelName s.2]) =
    some (.symlink (path ++ Builder.relDir s.1 ++ [.normal (Builder.skelName s.2)]))
  same : ∀ s ∈ sources, ¬ IsLinked sources s → ∀ u,
    fs.node (d ++ [Builder.skelName s.2]) = some (.symlink u) →
      fs₀.node (d ++ [Builder.skelName s.2]) = some (.symlink u)
  vacant : ∀ s ∈ sources, Builder.nameCount sources s.2 ≠ 1 →
    (∀ t ∈ sources, t.2 = s.2 → artifactDir t ≠ some []) →
      fs.node (d ++ [Builder.skelName s.2]) ≠ none →
        fs₀.node (d ++ [Builder.skelName s.2]) ≠ none ∨
          ∃ t ∈ created, [Builder.skelName s.2] ∈ trail [] (Builder.relDir t.1)

namespace Progress

variable {generate : Path α → Option C} {created written linked : List (Source α)}

theorem start (h₀ : ∀ name, fs.node (d ++ [Builder.skelName name]) =
      fs₀.node (d ++ [Builder.skelName name])) (h : Tidy path d True fs) :
    Progress path d generate sources fs₀ [] [] [] fs where
  tidy := h
  dirs := by simp
  skels := by simp
  links := by simp
  same := fun s _ _ u hu => by rwa [← h₀]
  vacant := fun s _ _ _ hne => .inl (by rwa [← h₀])

theorem grown (h : Progress path d generate sources fs₀ created written linked fs)
    (hgrown : Grown d fs fs' (trail [] (Builder.relDir t.1))) (h' : Tidy path d True fs') :
    Progress path d generate sources fs₀ (created ++ [t]) written linked fs' where
  tidy := h'
  dirs := by
    intro s hs k hk
    rcases List.mem_append.mp hs with hs | hs
    · exact hgrown.isDir (h.dirs s hs k hk)
    · rw [List.mem_singleton.mp hs] at hk
      exact hgrown.dirs k hk
  skels := by
    intro s hs
    obtain ⟨c, m, w, hgen, hwritten⟩ := h.skels s hs
    have hkept := kept_of_grown hgrown h.tidy.leadsTo.dir
    exact ⟨c, m, w, hgen, .of_kept hwritten.dir hwritten.reaches hkept
      (fun u _ hu => hgrown.node_eq_some hu (by simp))
      (hgrown.node_eq_some hwritten.node (by simp))⟩
  links := fun s hs hl => hgrown.node_eq_some (h.links s hs hl) (by simp)
  same := by
    intro s hs hl u hu
    exact h.same s hs hl u (hgrown.node_of_eq_some hu (by simp))
  vacant := by
    intro s hs hcount hroot hne
    by_cases hmem : [Builder.skelName s.2] ∈ trail [] (Builder.relDir t.1)
    · exact .inr ⟨t, by simp, hmem⟩
    · rw [hgrown.other] at hne
      · rcases h.vacant s hs hcount hroot hne with hold | ⟨u, hu, hmem⟩
        · exact .inl hold
        · exact .inr ⟨u, by simp [hu], hmem⟩
      · intro k hk heq
        rw [List.append_cancel_left heq] at hmem
        exact hmem hk

theorem find_of_linked (h : Progress path d generate sources fs₀ created written linked fs)
    (h₀ : Tidy path d True fs₀) (hlayout : Layout sources) (hs : s ∈ sources)
    (hroot : artifactDir s = some []) {r : Path α} {w : Location α}
    (hlinked : Linked path d fs s.2 r w) :
    fs₀.find (path ++ [.normal (Builder.skelName s.2)]) =
      some (d ++ (w ++ [Builder.skelName s.2])) := by
  have hnode := h.same s hs (fun hl => hlayout.below s hs hl hroot) _ hlinked.node
  have hlinked₀ := h₀.linked_of_node hnode hlinked.descends
  have hfind := (Reaches.linked rfl rfl hlinked₀).find h₀ (r := []) rfl (by simp [trail])
  rwa [List.append_nil, List.append_assoc] at hfind

/-- A link in the place of an artifact does not lead to another artifact. -/
theorem not_onto (h : Progress path d generate sources fs₀ created written linked fs)
    (h₀ : Tidy path d True fs₀) (hlayout : Layout sources) (hclear : Clear path d sources fs₀)
    (hs : s ∈ sources) (ht : t ∈ sources) (hne : s ≠ t) (hroot : artifactDir s = some [])
    {r : Path α} {w m : Location α} (hlinked : Linked path d fs s.2 r w)
    (hm : artifactDir t = some m) :
    w ++ [Builder.skelName s.2] ≠ m ++ [Builder.skelName t.2] := by
  intro heq
  apply hclear.apart s hs t ht hne hroot
  rw [h.find_of_linked h₀ hlayout hs hroot hlinked, artifact_eq hm, heq, Option.map_some]

theorem place_ne (h : Progress path d generate sources fs₀ created written linked fs)
    (h₀ : Tidy path d True fs₀) (hlayout : Layout sources) (hclear : Clear path d sources fs₀)
    (hs : s ∈ sources) (ht : t ∈ sources) (hne : s ≠ t) {m m' w w' : Location α}
    (hm : artifactDir s = some m) (hw : Reaches path d fs m (Builder.skelName s.2) w)
    (hm' : artifactDir t = some m') (hw' : Reaches path d fs m' (Builder.skelName t.2) w') :
    w ++ [Builder.skelName s.2] ≠ w' ++ [Builder.skelName t.2] := by
  have hartifact := hlayout.artifact_ne hs ht hne
  rw [artifact_eq hm, artifact_eq hm'] at hartifact
  cases hw with
  | here =>
      cases hw' with
      | here => exact fun heq => hartifact (congrArg some heq)
      | linked hnil hx hlinked =>
          cases skelName_injective hx
          subst hnil
          exact (h.not_onto h₀ hlayout hclear ht hs hne.symm hm' hlinked hm).symm
  | linked hnil hx hlinked =>
      cases skelName_injective hx
      subst hnil
      cases hw' with
      | here => exact h.not_onto h₀ hlayout hclear hs ht hne hm hlinked hm'
      | linked hnil' =>
          subst hnil'
          intro heq
          have hlast := (List.append_inj' heq rfl).2
          exact hartifact (congrArg some hlast)

theorem wrote (h : Progress path d generate sources fs₀ created written linked fs)
    (h₀ : Tidy path d True fs₀) (hlayout : Layout sources) (hclear : Clear path d sources fs₀)
    (ht : t ∈ sources) (hwritten : ∀ s ∈ written, s ∈ sources ∧ s ≠ t) {c : C}
    {m w : Location α} (hgen : generate t.1 = some c) (hm : artifactDir t = some m)
    (hwrote : Wrote path d fs fs' m (Builder.skelName t.2) c w) :
    Progress path d generate sources fs₀ created (written ++ [t]) linked fs' := by
  have hlink : ∀ l u, fs.node (d ++ l) = some (.symlink u) →
      fs'.node (d ++ l) = some (.symlink u) := by
    intro l u hu
    rw [hwrote.node_of_ne ?_, hu]
    rintro rfl
    rw [← List.append_assoc] at hu
    exact hwrote.reaches.node_ne_symlink u hu
  constructor
  case tidy => exact hwrote.tidy h.tidy
  case dirs => exact fun s hs k hk => hwrote.kept.dirs _ (h.dirs s hs k hk)
  case skels =>
    intro s hs
    rcases List.mem_append.mp hs with hs | hs
    · obtain ⟨c', m', w', hgen', hat⟩ := h.skels s hs
      obtain ⟨hmem, hne⟩ := hwritten s hs
      have hplace := h.place_ne h₀ hlayout hclear hmem ht hne hat.dir hat.reaches hm
        hwrote.reaches
      exact ⟨c', m', w', hgen', .of_kept hat.dir hat.reaches hwrote.kept
        (fun u _ => hlink _ u) ((hwrote.node_of_ne hplace).trans hat.node)⟩
    · rw [List.mem_singleton.mp hs]
      exact ⟨c, m, w, hgen, .of_kept hm hwrote.reaches hwrote.kept (fun u _ => hlink _ u)
        hwrote.node_self⟩
  case links => exact fun s hs hl => hlink _ _ (h.links s hs hl)
  case same =>
    intro s hs hl u hu
    refine h.same s hs hl u ?_
    by_cases heq : [Builder.skelName s.2] = w ++ [Builder.skelName t.2]
    · rw [heq, hwrote.node_self] at hu
      cases hu
    · rwa [hwrote.node_of_ne heq] at hu
  case vacant =>
    intro s hs hcount hroot hne
    refine h.vacant s hs hcount hroot ?_
    rwa [hwrote.node_of_ne] at hne
    intro heq
    obtain ⟨rfl, hx⟩ := eq_of_concat_eq_singleton heq.symm
    have hname : t.2 = s.2 := skelName_injective hx
    cases hwrote.reaches with
    | here => exact hroot t ht hname hm
    | linked _ _ hlinked => exact hlinked.below rfl

theorem replaced (h : Progress path d generate sources fs₀ created written linked fs)
    (hlayout : Layout sources) (ht : t ∈ sources) (hlt : IsLinked sources t)
    (hwritten : ∀ s ∈ written, s ∈ sources) (hlinked : ∀ s ∈ linked, s ∈ sources ∧ s ≠ t)
    (hrep : Replaced d fs fs' (Builder.skelName t.2) (some (.symlink
      (path ++ Builder.relDir t.1 ++ [.normal (Builder.skelName t.2)]))))
    (h' : Tidy path d True fs') :
    Progress path d generate sources fs₀ created written (linked ++ [t]) fs' := by
  have hbelow := hlayout.below t ht hlt
  have hown : ∀ s ∈ sources, (Builder.skelName s.2 : List α) = Builder.skelName t.2 → s = t :=
    fun s hs hx => eq_of_nameCount_eq_one hlt.1 ht hs (skelName_injective hx)
  have hother : ∀ s ∈ sources, s ≠ t →
      fs'.node (d ++ [Builder.skelName s.2]) = fs.node (d ++ [Builder.skelName s.2]) :=
    fun s hs hne => hrep.node_of_ne fun heq => hne (hown s hs (List.singleton_inj.mp heq))
  constructor
  case tidy => exact h'
  case dirs => exact fun s hs k hk => hrep.kept.dirs _ (h.dirs s hs k hk)
  case skels =>
    intro s hs
    obtain ⟨c, m, w, hgen, hat⟩ := h.skels s hs
    have hplace : w ++ [Builder.skelName s.2] ≠ [Builder.skelName t.2] := by
      intro heq
      obtain ⟨rfl, hx⟩ := eq_of_concat_eq_singleton heq
      cases hown s (hwritten s hs) hx
      cases hat.reaches with
      | here => exact hbelow hat.dir
      | linked _ _ hl => exact hl.below rfl
    refine ⟨c, m, w, hgen, .of_kept hat.dir hat.reaches hrep.kept ?_
      ((hrep.node_of_ne hplace).trans hat.node)⟩
    rintro u rfl hu
    rw [hother s (hwritten s hs) ?_, hu]
    rintro rfl
    exact hbelow hat.dir
  case links =>
    intro s hs hl
    rcases List.mem_append.mp hs with hs | hs
    · rw [hother s (hlinked s hs).1 (hlinked s hs).2]
      exact h.links s hs hl
    · rw [List.mem_singleton.mp hs]
      exact hrep.node_self
  case same =>
    intro s hs hl u hu
    rw [hother s hs fun heq => hl (heq ▸ hlt)] at hu
    exact h.same s hs hl u hu
  case vacant =>
    intro s hs hcount hroot hne
    rw [hother s hs fun heq => hcount (heq ▸ hlt.1)] at hne
    exact h.vacant s hs hcount hroot hne

theorem notLinked (h : Progress path d generate sources fs₀ created written linked fs)
    (hlt : ¬ IsLinked sources t) :
    Progress path d generate sources fs₀ created written (linked ++ [t]) fs := by
  refine { h with links := fun s hs hl => ?_ }
  rcases List.mem_append.mp hs with hs | hs
  · exact h.links s hs hl
  · exact absurd (List.mem_singleton.mp hs ▸ hl) hlt

/-- One more source. -/
theorem step {before after : List (Source α)} (hsources : sources = before ++ t :: after)
    (h : Progress path d generate sources fs₀ before before before fs)
    (h₀ : Tidy path d True fs₀) (hlayout : Layout sources) (hclear : Clear path d sources fs₀)
    {c : C} {m : Location α} (hgen : generate t.1 = some c) (hm : artifactDir t = some m)
    (htreated : Treated path d fs fs' (Builder.relDir t.1) m t.2 (IsLinked sources t) c)
    (h' : Tidy path d True fs') :
    Progress path d generate sources fs₀ (before ++ [t]) (before ++ [t]) (before ++ [t]) fs' := by
  obtain ⟨fs₁, fs₂, w, hgrown, hwrote, hrep, hsame⟩ := htreated.steps
  have h₁ := h.tidy.of_grown hgrown
  have ht : t ∈ sources := by simp [hsources]
  have hnodup := hlayout.nodup
  rw [hsources] at hnodup
  have hbefore : ∀ s ∈ before, s ∈ sources ∧ s ≠ t := by
    intro s hs
    refine ⟨by simp [hsources, hs], ?_⟩
    rintro rfl
    exact List.disjoint_of_nodup_append hnodup hs List.mem_cons_self
  have hwritten := (h.grown hgrown h₁).wrote h₀ hlayout hclear ht hbefore hgen hm hwrote
  by_cases hlt : IsLinked sources t
  · refine hwritten.replaced hlayout ht hlt ?_ hbefore (hrep hlt) h'
    intro s hs
    rcases List.mem_append.mp hs with hs | hs
    · exact (hbefore s hs).1
    · rwa [List.mem_singleton.mp hs]
  · cases hsame hlt
    exact hwritten.notLinked hlt

end Progress

namespace Progress

variable {generate : Path α → Option C}

theorem read_artifact (h : Progress path d generate sources fs₀ sources sources sources fs)
    (hs : s ∈ sources) : ∃ c, generate s.1 = some c ∧
      fs.read (path ++ Builder.relDir s.1 ++ [.normal (Builder.skelName s.2)]) = some c := by
  obtain ⟨c, m, w, hgen, hat⟩ := h.skels s hs
  refine ⟨c, hgen, ?_⟩
  rw [hat.reaches.read h.tidy hat.dir (h.dirs s hs), List.append_assoc]
  exact FileSystem.fileAt_eq_some hat.node

omit [DecidableEq α] in
theorem found {reads : Prop} (h : Tidy path d reads fs) {name : Name} {w : Location α}
    (hw : Reaches path d fs [] (Builder.skelName name) w) :
    fs.pathExists (path ++ [.normal (Builder.skelName name)]) =
        (fs.node (d ++ (w ++ [Builder.skelName name]))).isSome ∧
      fs.read (path ++ [.normal (Builder.skelName name)]) =
        fs.fileAt (d ++ (w ++ [Builder.skelName name])) := by
  have hexists := hw.pathExists h (r := []) rfl (by simp [trail])
  have hread := hw.read h (r := []) rfl (by simp [trail])
  rw [List.append_nil, List.append_assoc] at hexists hread
  exact ⟨hexists, hread⟩

theorem of_root (h : Progress path d generate sources fs₀ sources sources sources fs)
    (hs : s ∈ sources) (hroot : artifactDir s = some []) :
    fs.pathExists (path ++ [.normal (Builder.skelName s.2)]) = true ∧
      fs.read (path ++ [.normal (Builder.skelName s.2)]) = generate s.1 := by
  obtain ⟨c, m, w, hgen, hat⟩ := h.skels s hs
  cases hroot.symm.trans hat.dir
  obtain ⟨hexists, hread⟩ := found h.tidy hat.reaches
  rw [hexists, hread, hat.node, hgen, FileSystem.fileAt_eq_some hat.node]
  exact ⟨rfl, rfl⟩

theorem of_linked (h : Progress path d generate sources fs₀ sources sources sources fs)
    (hlayout : Layout sources) (hs : s ∈ sources) (hl : IsLinked sources s) :
    fs.pathExists (path ++ [.normal (Builder.skelName s.2)]) = true ∧
      fs.read (path ++ [.normal (Builder.skelName s.2)]) = generate s.1 := by
  obtain ⟨c, m, w, hgen, hat⟩ := h.skels s hs
  have hlinked := h.tidy.linked_of_node (h.links s hs hl) hat.dir
  have hw : w = m := by
    cases hat.reaches with
    | here => rfl
    | linked hnil => exact absurd (hnil ▸ hat.dir) (hlayout.below s hs hl)
  obtain ⟨hexists, hread⟩ := found h.tidy (.linked rfl rfl hlinked)
  rw [hw] at hat
  rw [hexists, hread, hat.node, hgen, FileSystem.fileAt_eq_some hat.node]
  exact ⟨rfl, rfl⟩

/-- Any other name is found if artifacts lie in a directory of that name. -/
theorem of_neither (h : Progress path d generate sources fs₀ sources sources sources fs)
    (h₀ : Tidy path d True fs₀) (hclear : Clear path d sources fs₀) (hs : s ∈ sources)
    (hcount : Builder.nameCount sources s.2 ≠ 1)
    (hroot : ∀ t ∈ sources, t.2 = s.2 → artifactDir t ≠ some []) :
    (fs.pathExists (path ++ [.normal (Builder.skelName s.2)]) = true ↔
        ∃ t ∈ sources, [Builder.skelName s.2] ∈ trail [] (Builder.relDir t.1)) ∧
      fs.read (path ++ [.normal (Builder.skelName s.2)]) = none := by
  have hnone : (¬ ∃ t ∈ sources, [Builder.skelName s.2] ∈ trail [] (Builder.relDir t.1)) →
      fs.node (d ++ [Builder.skelName s.2]) = none := by
    intro hno
    by_contra hne
    rcases h.vacant s hs hcount hroot hne with hold | hmem
    · refine hno (hclear.vacant s hs hcount hroot ?_)
      obtain ⟨w, hw⟩ := h₀.exists_reaches [] (Builder.skelName s.2)
      rw [(found h₀ hw).1]
      cases hw with
      | here => exact Option.isSome_iff_ne_none.mpr hold
      | linked _ hx hlinked =>
          obtain ⟨c, hc⟩ := hlinked.file
          rw [hx, ← List.append_assoc, hc]
          rfl
    · exact hno hmem
  have hdir : (∃ t ∈ sources, [Builder.skelName s.2] ∈ trail [] (Builder.relDir t.1)) →
      fs.IsDir (d ++ [Builder.skelName s.2]) := by
    rintro ⟨t, ht, hmem⟩
    exact h.dirs t ht _ hmem
  have hhere : Reaches path d fs [] (Builder.skelName s.2) [] := by
    refine .here fun u hu => ?_
    rw [List.append_nil] at hu
    by_cases hex : ∃ t ∈ sources, [Builder.skelName s.2] ∈ trail [] (Builder.relDir t.1)
    · cases (hdir hex).symm.trans hu
    · cases (hnone hex).symm.trans hu
  obtain ⟨hexists, hread⟩ := found h.tidy hhere
  rw [List.nil_append] at hexists hread
  rw [hexists, hread, FileSystem.fileAt]
  by_cases hex : ∃ t ∈ sources, [Builder.skelName s.2] ∈ trail [] (Builder.relDir t.1)
  · rw [show fs.node (d ++ [Builder.skelName s.2]) = some .dir from hdir hex]
    simpa using hex
  · rw [hnone hex]
    simpa using hex

/-- What a name is after a build does not depend on what was there before. -/
theorem names_eq {fs₀' : FileSystem α C}
    (h : Progress path d generate sources fs₀ sources sources sources fs)
    (h' : Progress path d generate sources fs₀' sources sources sources fs')
    (h₀ : Tidy path d True fs₀) (h₀' : Tidy path d True fs₀') (hclear : Clear path d sources fs₀)
    (hclear' : Clear path d sources fs₀') (hlayout : Layout sources) (hs : s ∈ sources) :
    fs.pathExists (path ++ [.normal (Builder.skelName s.2)]) =
        fs'.pathExists (path ++ [.normal (Builder.skelName s.2)]) ∧
      fs.read (path ++ [.normal (Builder.skelName s.2)]) =
        fs'.read (path ++ [.normal (Builder.skelName s.2)]) := by
  by_cases hroot : ∃ t ∈ sources, t.2 = s.2 ∧ artifactDir t = some []
  · obtain ⟨t, ht, hname, hdir⟩ := hroot
    obtain ⟨hexists, hread⟩ := h.of_root ht hdir
    obtain ⟨hexists', hread'⟩ := h'.of_root ht hdir
    rw [← hname, hexists, hexists', hread, hread']
    exact ⟨rfl, rfl⟩
  · by_cases hl : IsLinked sources s
    · obtain ⟨hexists, hread⟩ := h.of_linked hlayout hs hl
      obtain ⟨hexists', hread'⟩ := h'.of_linked hlayout hs hl
      rw [hexists, hexists', hread, hread']
      exact ⟨rfl, rfl⟩
    · have hrootless : ∀ t ∈ sources, t.2 = s.2 → artifactDir t ≠ some [] :=
        fun t ht hname hdir => hroot ⟨t, ht, hname, hdir⟩
      have hcount : Builder.nameCount sources s.2 ≠ 1 := by
        intro hcount
        have hrel : Builder.relDir s.1 = [] := by
          by_contra hrel
          exact hl ⟨hcount, hrel⟩
        refine hrootless s hs rfl ?_
        rw [artifactDir, hrel]
        rfl
      obtain ⟨hexists, hread⟩ := h.of_neither h₀ hclear hs hcount hrootless
      obtain ⟨hexists', hread'⟩ := h'.of_neither h₀' hclear' hs hcount hrootless
      rw [hread, hread', Bool.eq_iff_iff, hexists, hexists']
      exact ⟨Iff.rfl, rfl⟩

end Progress

/-- An output directory between two builds. -/
structure IsLeft (path : Path α) (d : Location α) (fs : FileSystem α C) : Prop where
  tidy : Tidy path d True fs
  header : ¬ fs.IsDir (d ++ [vmlinux])

section Parts

variable {self : Builder α} {env : Environment α C}

/-- A build dumps the BTF and treats its sources in order. -/
theorem build_eq (hdir : (self.outDir <|> env.outDir) = some path)
    {globbed : List (Path α)} (hglobbed : self.globbed env = some globbed)
    (hsources : sources = Builder.named (globbed ++ self.sources)) :
    self.build env = (do
      let _ ← dumpKernelBtf env path
      sources.forM fun s =>
        self.buildSource env path (Builder.nameCount sources) s.1 s.2) := by
  have hnamed : (self.namedSources env : Script α C _) =
      pure (sources, Builder.nameCount sources) := by
    rw [Builder.namedSources, hglobbed, hsources]
  rw [Builder.build, getOutDir_eq hdir, hnamed]
  rfl

theorem IsLeft.build_of_invalid (h₀ : IsLeft path d fs₀)
    (hdir : (self.outDir <|> env.outDir) = some path) (hglobbed : self.globbed env = none) :
    Fallible.Ends (self.build env) fs₀ (fun _ _ => False) (IsLeft path d) := by
  rw [Builder.build, getOutDir_eq hdir, pure_bind]
  refine Fallible.Ends.bind ((h₀.tidy.dumpKernelBtf env).mono ?_ ?_)
  · rintro _ fs₁ ⟨⟨h₁, _⟩, _, hoccupied⟩
    refine Fallible.Ends.bind ?_
    rw [Builder.namedSources, hglobbed]
    exact Fallible.Ends.throw
      ⟨h₁, FileSystem.not_isDir_of_isOccupied (hoccupied h₀.header)⟩
  · rintro _ ⟨rfl, _⟩
    exact h₀

/-- A source is treated, unless it does not compile or is blocked. -/
theorem Tidy.buildSource_of_mem (h : Tidy path d True fs)
    (hdir : (self.outDir <|> env.outDir) = some path) (hlayout : Layout sources)
    (hs : s ∈ sources) :
    ∃ m, artifactDir s = some m ∧
      Fallible.Ends (self.buildSource env path (Builder.nameCount sources) s.1 s.2) fs
        (fun _ fs' => Tidy path d True fs' ∧ ∃ c, env.generate s.1 = some c ∧
          Treated path d fs fs' (Builder.relDir s.1) m s.2 (IsLinked sources s) c)
        (fun fs' => (Tidy path d True fs' ∧ KeepsOccupied fs fs') ∧ (env.generate s.1 = none ∨
          IsBlocked d fs (Builder.relDir s.1) m s.2 (IsLinked sources s))) := by
  obtain ⟨m, hm⟩ := Option.ne_none_iff_exists'.mp (hlayout.inside s hs)
  refine ⟨m, hm, h.buildSource hdir hm ?_ fun _ _ => trivial⟩
  intro hcount hnil
  by_contra hrel
  exact hlayout.below s hs ⟨hcount, hrel⟩ (hnil ▸ hm)

/-- A build that returns has treated all its sources, and one that panics leaves an
output directory that can be built into. -/
theorem IsLeft.build (h₀ : IsLeft path d fs₀)
    (hdir : (self.outDir <|> env.outDir) = some path) {globbed : List (Path α)}
    (hglobbed : self.globbed env = some globbed)
    (hsources : sources = Builder.named (globbed ++ self.sources)) (hlayout : Layout sources)
    (hclear : Clear path d sources fs₀) :
    Fallible.Ends (self.build env) fs₀
      (fun _ fs => Progress path d env.generate sources fs₀ sources sources sources fs ∧
        fs.IsOccupied (d ++ [vmlinux]))
      (IsLeft path d) := by
  rw [build_eq hdir hglobbed hsources]
  refine Fallible.Ends.bind ((h₀.tidy.dumpKernelBtf env).mono ?_ ?_)
  · rintro _ fs₁ ⟨⟨h₁, _⟩, hsame, hoccupied⟩
    have hnames : ∀ name, fs₁.node (d ++ [Builder.skelName name]) =
        fs₀.node (d ++ [Builder.skelName name]) := fun name =>
      hsame _ fun heq => vmlinux_ne_skelName name (List.singleton_inj.mp heq).symm
    refine Fallible.Ends.forM (I := fun before fs =>
      Progress path d env.generate sources fs₀ before before before fs ∧
        fs.IsOccupied (d ++ [vmlinux])) ⟨.start hnames h₁, hoccupied h₀.header⟩ ?_
    rintro before s after fs hsplit ⟨h, hheader⟩
    obtain ⟨m, hm, hends⟩ :=
      h.tidy.buildSource_of_mem hdir hlayout (s := s) (by simp [hsplit])
    refine hends.mono ?_ ?_
    · rintro _ fs' ⟨h', c, hgen, htreated⟩
      exact ⟨h.step hsplit h₀.tidy hlayout hclear hgen hm htreated h',
        htreated.keepsOccupied _ hheader⟩
    · rintro fs' ⟨⟨h', hkeeps⟩, _⟩
      exact ⟨h', FileSystem.not_isDir_of_isOccupied (hkeeps _ hheader)⟩
  · rintro _ ⟨rfl, _⟩
    exact h₀

end Parts

end Build

end Xbpf
