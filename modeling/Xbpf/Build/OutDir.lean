import Xbpf.Build.Builder

/-!
# The output directory

Builds leave links in the output directory, and only there. Each is named after a
skeleton, and its target is the skeleton of that name in a directory below. This
is an invariant of everything a build does, so that links can be told from what
else is found below the output directory.

The path of the output directory is given. It leads to the output directory, also
when it is followed from there, as it is when it begins the target of a link.
-/

namespace Xbpf

namespace Build

open Files Runs

variable {α C : Type}

def Outside (d k : Location α) : Prop :=
  ∀ l, k = d ++ l → l = []

/-- The path of the output directory leads there, and links can be read. -/
structure IsOutDir (path : Path α) (d : Location α) (fs : FileSystem α C) :
    Prop where
  dir : fs.IsDir d
  lead : ∃ i j, i + (j + 1) ≤ FileSystem.maxLinks ∧
    Leads fs (Outside d) fs.cwd path d i ∧ Leads fs (Outside d) d path d j

/-- The path leads to the directory, wherever it leads from inside. -/
structure LeadsTo (path : Path α) (d : Location α) (fs : FileSystem α C) : Prop where
  dir : fs.IsDir d
  lead : ∃ i, i ≤ FileSystem.maxLinks ∧ Leads fs (Outside d) fs.cwd path d i

/-- What a build does not undo: directories, and files in directories below. -/
structure Kept (d : Location α) (fs fs' : FileSystem α C) : Prop where
  cwd : fs'.cwd = fs.cwd
  outside : ∀ k, Outside d k → fs'.node k = fs.node k
  dirs : ∀ k, fs.IsDir k → fs'.IsDir k
  files : ∀ m x, m ≠ [] → (∃ c, fs.node (d ++ m ++ [x]) = some (.file c)) →
    ∃ c, fs'.node (d ++ m ++ [x]) = some (.file c)

def KeepsOccupied (fs fs' : FileSystem α C) : Prop :=
  ∀ k, fs.IsOccupied k → fs'.IsOccupied k

variable {path : Path α} {d : Location α} {fs fs' fs₀ : FileSystem α C}

theorem KeepsOccupied.refl (fs : FileSystem α C) : KeepsOccupied fs fs :=
  fun _ h => h

theorem KeepsOccupied.trans {fs₁ : FileSystem α C} (h₁ : KeepsOccupied fs fs₁)
    (h : KeepsOccupied fs₁ fs') : KeepsOccupied fs fs' :=
  fun k hk => h k (h₁ k hk)

theorem Kept.refl (fs : FileSystem α C) : Kept d fs fs :=
  ⟨rfl, fun _ _ => rfl, fun _ h => h, fun _ _ _ h => h⟩

theorem Kept.trans {fs₁ : FileSystem α C} (h₁ : Kept d fs fs₁) (h : Kept d fs₁ fs') :
    Kept d fs fs' where
  cwd := h.cwd.trans h₁.cwd
  outside := fun k hk => (h.outside k hk).trans (h₁.outside k hk)
  dirs := fun k hk => h.dirs k (h₁.dirs k hk)
  files := fun m x hm hc => h.files m x hm (h₁.files m x hm hc)

theorem outside_self : Outside d d :=
  fun _ h => by simpa using h

theorem IsOutDir.leadsTo (h : IsOutDir path d fs) : LeadsTo path d fs := by
  obtain ⟨i, j, hij, hcwd, _⟩ := h.lead
  exact ⟨h.dir, i, by omega, hcwd⟩

theorem LeadsTo.of_kept (h : LeadsTo path d fs) (hkept : Kept d fs fs') :
    LeadsTo path d fs' := by
  obtain ⟨i, hi, hcwd⟩ := h.lead
  refine ⟨hkept.dirs d h.dir, i, hi, ?_⟩
  rw [hkept.cwd]
  exact hcwd.of_agree hkept.outside

theorem IsOutDir.of_kept (h : IsOutDir path d fs) (hkept : Kept d fs fs') :
    IsOutDir path d fs' := by
  obtain ⟨i, j, hij, hcwd, hd⟩ := h.lead
  refine ⟨hkept.dirs d h.dir, i, j, hij, ?_, hd.of_agree hkept.outside⟩
  rw [hkept.cwd]
  exact hcwd.of_agree hkept.outside

section Update

variable [DecidableEq α]

theorem KeepsOccupied.update {l : Location α} {n : Node α C}
    (hnode : fs'.node = Function.update fs.node l (some n)) (hn : n ≠ .dir) :
    KeepsOccupied fs fs' := by
  rintro k ⟨n', hn', hne⟩
  by_cases heq : k = l
  · subst heq
    exact ⟨n, by rw [hnode, Function.update_self], hn⟩
  · exact ⟨n', by rw [hnode, Function.update_of_ne heq, hn'], hne⟩

/-- One place is changed. It is not a directory, and a file in a directory below stays
one. -/
theorem Kept.update {l : Location α} {n : Option (Node α C)} (hl : l ≠ [])
    (hcwd : fs'.cwd = fs.cwd) (hnode : fs'.node = Function.update fs.node (d ++ l) n)
    (hdir : ¬ fs.IsDir (d ++ l))
    (hfile : ∀ m x c, m ≠ [] → l = m ++ [x] → fs.node (d ++ l) = some (.file c) →
      ∃ c', n = some (.file c')) : Kept d fs fs' where
  cwd := hcwd
  outside := by
    intro k hk
    have hne : k ≠ d ++ l := fun heq => hl (hk l heq)
    rw [hnode, Function.update_of_ne hne]
  dirs := by
    intro k hk
    have hne : k ≠ d ++ l := fun heq => hdir (heq ▸ hk)
    rw [FileSystem.IsDir, hnode, Function.update_of_ne hne]
    exact hk
  files := by
    rintro m x hm ⟨c, hc⟩
    by_cases heq : l = m ++ [x]
    · rw [List.append_assoc, ← heq] at hc ⊢
      rw [hnode, Function.update_self]
      exact hfile m x c hm heq hc
    · have hne : d ++ m ++ [x] ≠ d ++ l := by
        rw [List.append_assoc]
        exact fun h => heq (List.append_cancel_left h).symm
      rw [hnode, Function.update_of_ne hne]
      exact ⟨c, hc⟩

end Update

variable [OsAlphabet α]

/-- The skeleton of a name in a directory below is linked. -/
structure Linked (path : Path α) (d : Location α) (fs : FileSystem α C)
    (name : Name) (r : Path α) (m : Location α) : Prop where
  node : fs.node (d ++ [Builder.skelName name]) =
    some (.symlink (path ++ r ++ [.normal (Builder.skelName name)]))
  descends : descend [] r = some m
  below : m ≠ []
  dirs : ∀ k ∈ trail [] r, fs.IsDir (d ++ k)
  file : ∃ c, fs.node (d ++ m ++ [Builder.skelName name]) = some (.file c)

/-- Every link below the output directory links a skeleton. There is none unless links
can be read there. -/
structure Tidy (path : Path α) (d : Location α) (reads : Prop) (fs : FileSystem α C) :
    Prop where
  leadsTo : LeadsTo path d fs
  outDir : reads → IsOutDir path d fs
  links : ∀ l t, l ≠ [] → fs.node (d ++ l) = some (.symlink t) →
    reads ∧ ∃ name r m, l = [Builder.skelName name] ∧ Linked path d fs name r m

variable {reads : Prop}

theorem skelName_injective : Function.Injective (Builder.skelName : Name → List α) :=
  fun _ _ h => List.append_cancel_right (ofText_injective h)

theorem Linked.of_kept {name : Name} {r : Path α} {m : Location α}
    (h : Linked path d fs name r m) (hkept : Kept d fs fs')
    (hnode : fs'.node (d ++ [Builder.skelName name]) =
      fs.node (d ++ [Builder.skelName name])) : Linked path d fs' name r m where
  node := hnode.trans h.node
  descends := h.descends
  below := h.below
  dirs := fun k hk => hkept.dirs _ (h.dirs k hk)
  file := hkept.files m _ h.below h.file

namespace Tidy

theorem of_kept (h : Tidy path d reads fs) (hkept : Kept d fs fs')
    (hnew : ∀ l t, l ≠ [] → fs'.node (d ++ l) = some (.symlink t) →
      fs.node (d ++ l) = some (.symlink t) ∨
        reads ∧ ∃ name r m, l = [Builder.skelName name] ∧ Linked path d fs' name r m) :
    Tidy path d reads fs' := by
  refine ⟨h.leadsTo.of_kept hkept, fun hreads => (h.outDir hreads).of_kept hkept, ?_⟩
  intro l t hl ht
  rcases hnew l t hl ht with hold | hnew
  · obtain ⟨hreads, name, r, m, rfl, hlinked⟩ := h.links l t hl hold
    exact ⟨hreads, name, r, m, rfl, hlinked.of_kept hkept (ht.trans hold.symm)⟩
  · exact hnew

/-- A link that is found leads to a skeleton of its own name. -/
theorem exists_linked (h : Tidy path d reads fs) {name : Name} {t : Path α}
    (ht : fs.node (d ++ [Builder.skelName name]) = some (.symlink t)) :
    ∃ r m, Linked path d fs name r m := by
  obtain ⟨_, name', r, m, heq, hlinked⟩ := h.links _ t (by simp) ht
  have hname : name' = name := skelName_injective (List.singleton_inj.mp heq).symm
  exact ⟨r, m, hname ▸ hlinked⟩

theorem linked_of_node (h : Tidy path d reads fs) {name : Name} {r : Path α}
    {m : Location α} (hnode : fs.node (d ++ [Builder.skelName name]) =
      some (.symlink (path ++ r ++ [.normal (Builder.skelName name)])))
    (hr : descend [] r = some m) : Linked path d fs name r m := by
  obtain ⟨r', m', hlinked⟩ := h.exists_linked hnode
  have htarget := hlinked.node.symm.trans hnode
  simp only [Option.some.injEq, Node.symlink.injEq, List.append_cancel_right_eq,
    List.append_cancel_left_eq] at htarget
  subst htarget
  cases hlinked.descends.symm.trans hr
  exact hlinked

theorem isDir_of_descend (h : Tidy path d reads fs) {r : Path α} {m : Location α}
    (hr : descend [] r = some m) (hdirs : ∀ k ∈ trail [] r, fs.IsDir (d ++ k)) :
    fs.IsDir (d ++ m) := by
  by_cases hempty : r = []
  · subst hempty
    cases hr
    simpa using h.leadsTo.dir
  · exact hdirs m (mem_trail_of_descend hr hempty)

theorem leads (h : Tidy path d reads fs) {r : Path α} {m l : Location α} {i : ℕ}
    (hr : descend [] r = some m) (hdirs : ∀ k ∈ trail [] r, fs.IsDir (d ++ k))
    (hlead : Leads fs (Outside d) l path d i) :
    Leads fs (fun _ => True) l (path ++ r) (d ++ m) i := by
  have hrest := leads_of_descend hr (by simpa using h.leadsTo.dir) hdirs
  rw [List.append_nil] at hrest
  exact (hlead.mono fun _ _ => trivial).append hrest

end Tidy

/-- The directory that a name in a directory leads to: that of a skeleton that is
linked, or the directory itself. -/
inductive Reaches (path : Path α) (d : Location α) (fs : FileSystem α C)
    (m : Location α) (x : List α) : Location α → Prop
  | here (h : ∀ t, fs.node (d ++ m ++ [x]) ≠ some (.symlink t)) : Reaches path d fs m x m
  | linked {name r w} (hm : m = []) (hx : x = Builder.skelName name)
      (h : Linked path d fs name r w) : Reaches path d fs m x w

namespace Tidy

theorem exists_reaches (h : Tidy path d reads fs) (m : Location α) (x : List α) :
    ∃ w, Reaches path d fs m x w := by
  by_cases hsym : ∃ t, fs.node (d ++ m ++ [x]) = some (.symlink t)
  · obtain ⟨t, ht⟩ := hsym
    rw [List.append_assoc] at ht
    obtain ⟨_, name, r, w, heq, hlinked⟩ := h.links (m ++ [x]) t (by simp) ht
    obtain ⟨hm, hx⟩ := List.append_eq_singleton_iff.mp heq |>.resolve_right (by simp)
    exact ⟨w, .linked hm (by simpa using hx) hlinked⟩
  · exact ⟨m, .here fun t ht => hsym ⟨t, ht⟩⟩

end Tidy

namespace Reaches

variable {r : Path α} {m w : Location α} {x : List α}

theorem isDir (hw : Reaches path d fs m x w) (h : Tidy path d reads fs)
    (hm : fs.IsDir (d ++ m)) : fs.IsDir (d ++ w) := by
  cases hw with
  | here => exact hm
  | linked _ _ hlinked => exact h.isDir_of_descend hlinked.descends hlinked.dirs

theorem node_ne_symlink (hw : Reaches path d fs m x w) (t : Path α) :
    fs.node (d ++ w ++ [x]) ≠ some (.symlink t) := by
  cases hw with
  | here hnode => exact hnode t
  | linked _ hx hlinked =>
      obtain ⟨c, hc⟩ := hlinked.file
      rw [hx, hc]
      simp

theorem leads (hw : Reaches path d fs m x w) (h : Tidy path d reads fs)
    (hr : descend [] r = some m) (hdirs : ∀ k ∈ trail [] r, fs.IsDir (d ++ k)) :
    ∃ j, j ≤ FileSystem.maxLinks ∧
      Leads fs (fun _ => True) fs.cwd (path ++ r ++ [.normal x]) (d ++ w ++ [x]) j := by
  have hm := h.isDir_of_descend hr hdirs
  cases hw with
  | here hnode =>
      obtain ⟨i, hi, hcwd⟩ := h.leadsTo.lead
      exact ⟨i, hi, (h.leads hr hdirs hcwd).append (.name hm hnode)⟩
  | linked hempty hx hlinked =>
      subst hempty hx
      have hnode := hlinked.node
      obtain ⟨hreads, _⟩ := h.links _ _ (by simp) hnode
      obtain ⟨i, j, hij, hcwd, hself⟩ := (h.outDir hreads).lead
      have hpath := h.leads hr hdirs hcwd
      have hw := h.isDir_of_descend hlinked.descends hlinked.dirs
      have htarget := (h.leads hlinked.descends hlinked.dirs hself).append
        (.name hw (Reaches.node_ne_symlink (.linked rfl rfl hlinked)))
      rw [List.append_nil] at hm hpath
      refine ⟨i + (j + 1), hij, hpath.append (.symlink trivial hm trivial hnode ?_)⟩
      simpa using htarget

end Reaches

namespace Tidy

/-- No link leads to a directory, so that directories can be created below. -/
theorem sheltered [DecidableEq α] (fs₀ : FileSystem α C) :
    Sheltered (fun fs => Tidy path d reads fs ∧ KeepsOccupied fs₀ fs) path d where
  lead := by
    rintro fs ⟨h, _⟩
    obtain ⟨i, hi, hcwd⟩ := h.leadsTo.lead
    exact ⟨h.leadsTo.dir, _, i, hi, hcwd⟩
  link := by
    rintro fs ⟨h, _⟩ q l x t hq hdirs ht
    obtain ⟨w, hw⟩ := h.exists_reaches l x
    obtain ⟨j, hj, hlead⟩ := hw.leads h hq hdirs
    rw [FileSystem.isDir_of_leads hlead hj (by simp)]
    cases hw with
    | here hnode => exact absurd ht (hnode t)
    | linked _ hx hlinked =>
        obtain ⟨c, hc⟩ := hlinked.file
        refine decide_eq_false fun hdir => ?_
        rw [hx] at hdir
        cases hdir.symm.trans hc
  put := by
    rintro fs ⟨h, hkeeps⟩ l x hl hnone
    have hdir : ¬ fs.IsDir (d ++ l ++ [x]) := fun hdir => by cases hdir.symm.trans hnone
    have hnode := FileSystem.node_put hl hdir (some .dir)
    rw [List.append_assoc] at hnone hdir hnode ⊢
    have hkept := Kept.update (by simp) (FileSystem.cwd_put _ _ _) hnode hdir
      fun _ _ c _ _ hc => by cases hc.symm.trans hnone
    refine ⟨h.of_kept hkept fun l' t _ ht => .inl ?_, ?_⟩
    · by_cases heq : d ++ l' = d ++ (l ++ [x])
      · rw [heq, hnode, Function.update_self] at ht
        cases ht
      · rwa [hnode, Function.update_of_ne heq] at ht
    · intro k hk
      obtain ⟨n, hn, hne⟩ := hkeeps k hk
      refine ⟨n, ?_, hne⟩
      rw [hnode, Function.update_of_ne, hn]
      rintro rfl
      cases hn.symm.trans hnone

end Tidy

end Build

end Xbpf
