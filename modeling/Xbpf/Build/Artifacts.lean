import Xbpf.Build.OutDir

/-!
# What the parts of a build change

In a tidy output directory each part of a build changes one place, or creates the
directories that lead to one, and leaves the output directory tidy, also when it
panics. A skeleton is written to its artifact, through a link if one is in its
place. A new link replaces whatever had its name.
-/

namespace Xbpf

namespace Build

open Files Runs

variable {α C : Type} [DecidableEq α] {path : Path α} {d : Location α} {fs fs' : FileSystem α C}

/-- The place of a name in the output directory was changed. -/
structure Replaced (d : Location α) (fs fs' : FileSystem α C) (x : List α)
    (n : Option (Node α C)) : Prop where
  notDir : ¬ fs.IsDir (d ++ [x])
  cwd : fs'.cwd = fs.cwd
  node : fs'.node = Function.update fs.node (d ++ [x]) n

namespace Replaced

variable {x : List α} {n : Option (Node α C)}

theorem kept (hrep : Replaced d fs fs' x n) : Kept d fs fs' := by
  refine Kept.update (by simp) hrep.cwd hrep.node hrep.notDir ?_
  intro m y _ hm heq
  have hlen := congrArg List.length heq
  simp only [List.length_append, List.length_singleton] at hlen
  exact absurd (List.eq_nil_of_length_eq_zero (by omega)) hm

theorem node_of_ne (hrep : Replaced d fs fs' x n) {l : Location α} (hl : l ≠ [x]) :
    fs'.node (d ++ l) = fs.node (d ++ l) := by
  rw [hrep.node, Function.update_of_ne fun h => hl (List.append_cancel_left h)]

theorem node_self (hrep : Replaced d fs fs' x n) : fs'.node (d ++ [x]) = n := by
  rw [hrep.node, Function.update_self]

theorem trans {fs₁ : FileSystem α C} {n₁ : Option (Node α C)}
    (h₁ : Replaced d fs fs₁ x n₁) (h : Replaced d fs₁ fs' x n) : Replaced d fs fs' x n where
  notDir := h₁.notDir
  cwd := h.cwd.trans h₁.cwd
  node := by rw [h.node, h₁.node, Function.update_idem]

theorem of_put (hd : fs.IsDir d) (hx : ¬ fs.IsDir (d ++ [x])) :
    Replaced d fs (fs.put (d ++ [x]) n) x n :=
  ⟨hx, FileSystem.cwd_put _ _ _, FileSystem.node_put hd hx n⟩

theorem isDir_iff (hrep : Replaced d fs fs' x n) (hn : n ≠ some .dir) {k : Location α} :
    fs'.IsDir k ↔ fs.IsDir k := by
  rw [FileSystem.IsDir, hrep.node]
  by_cases heq : k = d ++ [x]
  · subst heq
    rw [Function.update_self]
    exact iff_of_false hn hrep.notDir
  · rw [Function.update_of_ne heq]
    rfl

end Replaced

theorem kept_of_grown {ks : List (Location α)} (hgrown : Grown d fs fs' ks)
    (hd : fs.IsDir d) : Kept d fs fs' where
  cwd := hgrown.cwd
  outside := by
    intro k hk
    by_cases hmem : ∃ l ∈ ks, k = d ++ l
    · obtain ⟨l, hl, rfl⟩ := hmem
      have hnil := hk l rfl
      subst hnil
      have hdir := hgrown.dirs [] hl
      rw [List.append_nil] at hdir ⊢
      exact hdir.trans hd.symm
    · exact hgrown.other k fun l hl heq => hmem ⟨l, hl, heq⟩
  dirs := fun _ => hgrown.isDir
  files := by
    rintro m x _ ⟨c, hc⟩
    exact ⟨c, hgrown.node_eq_some hc (by simp)⟩

variable [OsAlphabet α] {reads : Prop}

namespace Reaches

variable {r : Path α} {m w : Location α} {x : List α}

omit [DecidableEq α] in
theorem find (hw : Reaches path d fs m x w) (h : Tidy path d reads fs)
    (hr : descend [] r = some m) (hdirs : ∀ k ∈ trail [] r, fs.IsDir (d ++ k)) :
    fs.find (path ++ r ++ [.normal x]) = some (d ++ w ++ [x]) := by
  obtain ⟨j, hj, hlead⟩ := hw.leads h hr hdirs
  exact hlead.find_eq hj (by simp)

omit [DecidableEq α] in
theorem pathExists (hw : Reaches path d fs m x w) (h : Tidy path d reads fs)
    (hr : descend [] r = some m) (hdirs : ∀ k ∈ trail [] r, fs.IsDir (d ++ k)) :
    fs.pathExists (path ++ r ++ [.normal x]) = (fs.node (d ++ w ++ [x])).isSome := by
  rw [FileSystem.pathExists, hw.find h hr hdirs]
  rfl

omit [DecidableEq α] in
theorem read (hw : Reaches path d fs m x w) (h : Tidy path d reads fs)
    (hr : descend [] r = some m) (hdirs : ∀ k ∈ trail [] r, fs.IsDir (d ++ k)) :
    fs.read (path ++ r ++ [.normal x]) = fs.fileAt (d ++ w ++ [x]) := by
  rw [FileSystem.read, hw.find h hr hdirs]
  rfl

end Reaches

structure Wrote (path : Path α) (d : Location α) (fs fs' : FileSystem α C)
    (m : Location α) (x : List α) (c : C) (w : Location α) : Prop where
  reaches : Reaches path d fs m x w
  notDir : ¬ fs.IsDir (d ++ (w ++ [x]))
  cwd : fs'.cwd = fs.cwd
  node : fs'.node = Function.update fs.node (d ++ (w ++ [x])) (some (.file c))

namespace Wrote

variable {m w : Location α} {x : List α} {c : C}

theorem kept (hwrote : Wrote path d fs fs' m x c w) : Kept d fs fs' :=
  Kept.update (by simp) hwrote.cwd hwrote.node hwrote.notDir fun _ _ _ _ _ _ => ⟨c, rfl⟩

theorem tidy (hwrote : Wrote path d fs fs' m x c w) (h : Tidy path d reads fs) :
    Tidy path d reads fs' := by
  refine h.of_kept hwrote.kept fun l t _ ht => .inl ?_
  by_cases heq : d ++ l = d ++ (w ++ [x])
  · rw [heq, hwrote.node, Function.update_self] at ht
    cases ht
  · rwa [hwrote.node, Function.update_of_ne heq] at ht

theorem keepsOccupied (hwrote : Wrote path d fs fs' m x c w) : KeepsOccupied fs fs' :=
  .update hwrote.node (by simp)

theorem isDir_iff (hwrote : Wrote path d fs fs' m x c w) {k : Location α} :
    fs'.IsDir k ↔ fs.IsDir k := by
  rw [FileSystem.IsDir, hwrote.node]
  by_cases heq : k = d ++ (w ++ [x])
  · subst heq
    simpa using hwrote.notDir
  · rw [Function.update_of_ne heq]
    rfl

theorem node_of_ne (hwrote : Wrote path d fs fs' m x c w) {l : Location α}
    (hl : l ≠ w ++ [x]) : fs'.node (d ++ l) = fs.node (d ++ l) := by
  rw [hwrote.node, Function.update_of_ne fun h => hl (List.append_cancel_left h)]

theorem node_self (hwrote : Wrote path d fs fs' m x c w) :
    fs'.node (d ++ (w ++ [x])) = some (.file c) := by
  rw [hwrote.node, Function.update_self]

end Wrote

theorem Tidy.isDir_of_write_eq_none (h : Tidy path d reads fs) {r : Path α} {m : Location α}
    (hr : descend [] r = some m) (hdirs : ∀ k ∈ trail [] r, fs.IsDir (d ++ k))
    {x : List α} {c : C} (hwrite : fs.write (path ++ r ++ [.normal x]) c = none) :
    fs.IsDir (d ++ (m ++ [x])) := by
  obtain ⟨w, hw⟩ := h.exists_reaches m x
  rw [FileSystem.write, hw.find h hr hdirs, Option.bind_some] at hwrite
  have hdir : fs.IsDir (d ++ w ++ [x]) := by
    split at hwrite
    · assumption
    · cases hwrite
  rw [List.append_assoc] at hdir
  cases hw with
  | here => exact hdir
  | linked _ hx hlinked =>
      obtain ⟨c', hc⟩ := hlinked.file
      rw [← List.append_assoc, hx] at hdir
      cases hdir.symm.trans hc

theorem Tidy.wrote_of_write (h : Tidy path d reads fs) {r : Path α} {m : Location α}
    (hr : descend [] r = some m) (hdirs : ∀ k ∈ trail [] r, fs.IsDir (d ++ k))
    {x : List α} {c : C} (hwrite : fs.write (path ++ r ++ [.normal x]) c = some fs') :
    ∃ w, Wrote path d fs fs' m x c w := by
  obtain ⟨w, hw⟩ := h.exists_reaches m x
  have hparent := hw.isDir h (h.isDir_of_descend hr hdirs)
  rw [FileSystem.write, hw.find h hr hdirs, Option.bind_some] at hwrite
  have hnotDir : ¬ fs.IsDir (d ++ w ++ [x]) := by
    intro hdir
    rw [show fs.node (d ++ w ++ [x]) = some .dir from hdir] at hwrite
    cases hwrite
  have hfs' : fs.put (d ++ w ++ [x]) (some (.file c)) = fs' := by
    split at hwrite
    · cases hwrite
    · exact Option.some.inj hwrite
  have hnode := FileSystem.node_put hparent hnotDir (some (.file c))
  rw [hfs', List.append_assoc] at hnode
  refine ⟨w, hw, by rwa [← List.append_assoc], ?_, hnode⟩
  rw [← hfs', FileSystem.cwd_put]

omit [DecidableEq α] [OsAlphabet α] in
theorem LeadsTo.entry (h : LeadsTo path d fs) (x : List α) :
    fs.entry (path ++ [.normal x]) = some (d ++ [x]) := by
  obtain ⟨i, hi, hcwd⟩ := h.lead
  exact hcwd.entry_eq hi h.dir x

omit [OsAlphabet α] in
theorem LeadsTo.replaced_of_removeFile (h : LeadsTo path d fs) {x : List α}
    (hremove : fs.removeFile (path ++ [.normal x]) = some fs') :
    Replaced d fs fs' x none := by
  rw [FileSystem.removeFile, h.entry, Option.bind_some] at hremove
  have hnotDir : ¬ fs.IsDir (d ++ [x]) := by
    intro hdir
    rw [show fs.node (d ++ [x]) = some .dir from hdir] at hremove
    cases hremove
  have hfs' : fs.put (d ++ [x]) none = fs' := by
    split at hremove
    · exact Option.some.inj hremove
    · exact Option.some.inj hremove
    · cases hremove
  exact hfs' ▸ Replaced.of_put h.dir hnotDir

omit [OsAlphabet α] in
theorem LeadsTo.symlink_eq (h : LeadsTo path d fs) {x : List α} {target : Path α}
    (htarget : target ≠ []) (hx : fs.node (d ++ [x]) = none) :
    fs.symlink target (path ++ [.normal x]) =
      some (fs.put (d ++ [x]) (some (.symlink target))) := by
  rw [FileSystem.symlink, if_neg htarget, h.entry, Option.bind_some, hx]

omit [OsAlphabet α] in
theorem LeadsTo.isDir_of_removeFile_eq_none (h : LeadsTo path d fs) {x : List α}
    (hne : fs.node (d ++ [x]) ≠ none) (hremove : fs.removeFile (path ++ [.normal x]) = none) :
    fs.IsDir (d ++ [x]) := by
  rw [FileSystem.removeFile, h.entry, Option.bind_some] at hremove
  rcases FileSystem.isDir_or_isOccupied hne with hdir | ⟨n, hn, hndir⟩
  · exact hdir
  · rw [hn] at hremove
    cases n with
    | dir => exact hn
    | file => cases hremove
    | symlink => cases hremove

omit [OsAlphabet α] in
/-- What is in the place of a link is gone, or it is a directory. -/
theorem LeadsTo.removeStale (h : LeadsTo path d fs) (x : List α) :
    Fallible.Ends (Builder.removeStale (path ++ [.normal x])) fs
      (fun _ fs' => Replaced d fs fs' x none) (fun fs' => fs' = fs ∧ fs.IsDir (d ++ [x])) := by
  refine Fallible.Ends.bind (Fallible.Ends.get ?_)
  have hmeta : fs.symlinkMetadata (path ++ [.normal x]) = (fs.node (d ++ [x])).isSome := by
    rw [FileSystem.symlinkMetadata, List.getLast?_concat, h.entry]
    rfl
  rw [hmeta]
  cases hnode : fs.node (d ++ [x]) with
  | none =>
      have hsame : fs.node = Function.update fs.node (d ++ [x]) none := by
        rw [← hnode, Function.update_eq_self]
      exact Fallible.Ends.pure ⟨fun hdir => (by cases hdir.symm.trans hnode), rfl, hsame⟩
  | some n =>
      exact Fallible.Ends.attempt (fun _ => h.replaced_of_removeFile)
        fun hnone => ⟨rfl, h.isDir_of_removeFile_eq_none (by simp [hnode]) hnone⟩

omit [OsAlphabet α] in
theorem LeadsTo.replaced_of_linkSkeleton (h : LeadsTo path d fs) {x : List α} {out : Path α}
    (hout : out ≠ []) :
    Fallible.Ends (Builder.linkSkeleton out (path ++ [.normal x])) fs
      (fun _ fs' => Replaced d fs fs' x (some (.symlink out)))
      (fun fs' => fs' = fs ∧ fs.IsDir (d ++ [x])) := by
  refine Fallible.Ends.bind ((h.removeStale x).mono ?_ fun _ h => h)
  intro _ fs₁ hrep₁
  have h₁ := h.of_kept hrep₁.kept
  refine Fallible.Ends.attempt? ?_
  rw [h₁.symlink_eq hout hrep₁.node_self, Option.getD_some]
  exact hrep₁.trans (Replaced.of_put h₁.dir fun hdir => by
    cases hdir.symm.trans hrep₁.node_self)

theorem Tidy.linkSkeleton (h : Tidy path d reads fs) (hreads : reads) {name : Name} {r : Path α}
    {m : Location α} (hr : descend [] r = some m) (hm : m ≠ [])
    (hdirs : ∀ k ∈ trail [] r, fs.IsDir (d ++ k))
    (hfile : ∃ c, fs.node (d ++ m ++ [Builder.skelName name]) = some (.file c)) :
    Fallible.Ends
      (Builder.linkSkeleton (path ++ r ++ [.normal (Builder.skelName name)])
        (path ++ [.normal (Builder.skelName name)])) fs
      (fun _ fs' => Tidy path d reads fs' ∧ Replaced d fs fs' (Builder.skelName name)
        (some (.symlink (path ++ r ++ [.normal (Builder.skelName name)]))))
      (fun fs' => fs' = fs ∧ fs.IsDir (d ++ [Builder.skelName name])) := by
  refine (h.leadsTo.replaced_of_linkSkeleton (by simp)).mono ?_ fun _ h => h
  intro _ fs' hrep
  refine ⟨h.of_kept hrep.kept ?_, hrep⟩
  intro l t _ ht
  by_cases hl : l = [Builder.skelName name]
  · exact .inr ⟨hreads, name, r, m, hl, hrep.node_self, hr, hm,
      fun k hk => hrep.kept.dirs _ (hdirs k hk), hrep.kept.files m _ hm hfile⟩
  · exact .inl (by rwa [hrep.node_of_ne hl] at ht)

theorem Tidy.of_grown (h : Tidy path d reads fs) {ks : List (Location α)}
    (hgrown : Grown d fs fs' ks) : Tidy path d reads fs' :=
  h.of_kept (kept_of_grown hgrown h.leadsTo.dir) fun _ _ _ ht =>
    .inl (hgrown.node_of_eq_some ht (by simp))

/-- What treating a source changes: directories are created, the skeleton is written,
and it is linked if it is to be linked. -/
structure Treated (path : Path α) (d : Location α) (fs fs' : FileSystem α C)
    (r : Path α) (m : Location α) (name : Name) (link : Prop) (c : C) : Prop where
  steps : ∃ fs₁ fs₂ w, Grown d fs fs₁ (trail [] r) ∧
    Wrote path d fs₁ fs₂ m (Builder.skelName name) c w ∧
    (link → Replaced d fs₂ fs' (Builder.skelName name)
      (some (.symlink (path ++ r ++ [.normal (Builder.skelName name)])))) ∧
    (¬ link → fs' = fs₂)

namespace Treated

variable {r : Path α} {m l : Location α} {name : Name} {link : Prop} {c : C}

theorem isDir_iff (h : Treated path d fs fs' r m name link c) :
    fs'.IsDir (d ++ l) ↔ fs.IsDir (d ++ l) ∨ l ∈ trail [] r := by
  obtain ⟨fs₁, fs₂, w, hgrown, hwrote, hrep, hsame⟩ := h.steps
  rw [← hgrown.isDir_iff, ← hwrote.isDir_iff]
  by_cases hlink : link
  · exact (hrep hlink).isDir_iff (by simp)
  · rw [hsame hlink]

theorem kept (h : Treated path d fs fs' r m name link c) (hd : fs.IsDir d) : Kept d fs fs' := by
  obtain ⟨fs₁, fs₂, w, hgrown, hwrote, hrep, hsame⟩ := h.steps
  have hkept := (kept_of_grown hgrown hd).trans hwrote.kept
  by_cases hlink : link
  · exact hkept.trans (hrep hlink).kept
  · rwa [hsame hlink]

theorem keepsOccupied (h : Treated path d fs fs' r m name link c) : KeepsOccupied fs fs' := by
  obtain ⟨fs₁, fs₂, w, hgrown, hwrote, hrep, hsame⟩ := h.steps
  have hgrown' : KeepsOccupied fs fs₁ := fun _ => hgrown.isOccupied_iff.mpr
  refine (hgrown'.trans hwrote.keepsOccupied).trans ?_
  by_cases hlink : link
  · exact .update (hrep hlink).node (by simp)
  · rw [hsame hlink]
    exact .refl fs₂

/-- Something is in the place of the skeleton, and of the link. -/
theorem isOccupied (h : Treated path d fs fs' r m name link c)
    (hl : l = m ++ [Builder.skelName name] ∨ (link ∧ l = [Builder.skelName name])) :
    fs'.IsOccupied (d ++ l) := by
  obtain ⟨fs₁, fs₂, w, hgrown, hwrote, hrep, hsame⟩ := h.steps
  have hartifact : fs₂.IsOccupied (d ++ (m ++ [Builder.skelName name])) := by
    cases hwrote.reaches with
    | here => exact ⟨_, hwrote.node_self, by simp⟩
    | linked hm hx hlinked =>
        refine hwrote.keepsOccupied _ ?_
        rw [hm, hx, List.nil_append]
        exact ⟨_, hlinked.node, by simp⟩
  by_cases hlink : link
  · have hlinked := (hrep hlink).node_self
    rcases hl with rfl | ⟨_, rfl⟩
    · exact KeepsOccupied.update (hrep hlink).node (by simp) _ hartifact
    · exact ⟨_, hlinked, by simp⟩
  · rw [hsame hlink]
    rcases hl with rfl | ⟨hyes, _⟩
    · exact hartifact
    · exact absurd hyes hlink

/-- Nothing else is new but directories. -/
theorem isOccupied_cases (h : Treated path d fs fs' r m name link c)
    (hl : fs'.IsOccupied (d ++ l)) :
    fs.IsOccupied (d ++ l) ∨
      (l = m ++ [Builder.skelName name] ∨ (link ∧ l = [Builder.skelName name])) := by
  obtain ⟨fs₁, fs₂, w, hgrown, hwrote, hrep, hsame⟩ := h.steps
  have hstep₂ : fs₂.IsOccupied (d ++ l) → fs.IsOccupied (d ++ l) ∨
      l = m ++ [Builder.skelName name] := by
    rintro ⟨n, hn, hne⟩
    by_cases heq : l = w ++ [Builder.skelName name]
    · cases hwrote.reaches with
      | here => exact .inr heq
      | linked _ hx hlinked =>
          obtain ⟨c', hc⟩ := hlinked.file
          refine .inl (hgrown.isOccupied_iff.mp ⟨.file c', ?_, by simp⟩)
          rw [heq, ← List.append_assoc, hx, hc]
    · rw [hwrote.node_of_ne heq] at hn
      exact .inl (hgrown.isOccupied_iff.mp ⟨n, hn, hne⟩)
  by_cases hlink : link
  · by_cases heq : l = [Builder.skelName name]
    · exact .inr (.inr ⟨hlink, heq⟩)
    · obtain ⟨n, hn, hne⟩ := hl
      rw [(hrep hlink).node_of_ne heq] at hn
      exact (hstep₂ ⟨n, hn, hne⟩).imp_right .inl
  · rw [hsame hlink] at hl
    exact (hstep₂ hl).imp_right .inl

end Treated

/-- Treating a source fails if something is in the place of a directory, or a directory
in the place of the skeleton or of the link. -/
def IsBlocked (d : Location α) (fs : FileSystem α C) (r : Path α)
    (m : Location α) (name : Name) (link : Prop) : Prop :=
  (∃ k ∈ trail [] r, fs.IsOccupied (d ++ k)) ∨
    (fs.IsDir (d ++ (m ++ [Builder.skelName name])) ∨ m ++ [Builder.skelName name] ∈ trail [] r) ∨
    (link ∧ (fs.IsDir (d ++ [Builder.skelName name]) ∨ [Builder.skelName name] ∈ trail [] r))

theorem Treated.not_isBlocked {r : Path α} {m : Location α} {name : Name} {link : Prop}
    {c : C} (h : Treated path d fs fs' r m name link c) : ¬ IsBlocked d fs r m name link := by
  have hfree : ∀ l, l = m ++ [Builder.skelName name] ∨ (link ∧ l = [Builder.skelName name]) →
      ¬ (fs.IsDir (d ++ l) ∨ l ∈ trail [] r) := fun l hl hdir =>
    FileSystem.not_isDir_of_isOccupied (h.isOccupied hl) (h.isDir_iff.mpr hdir)
  rintro (⟨k, hk, hoccupied⟩ | hdir | ⟨hlink, hdir⟩)
  · exact FileSystem.not_isDir_of_isOccupied (h.keepsOccupied _ hoccupied)
      (h.isDir_iff.mpr (.inr hk))
  · exact hfree _ (.inl rfl) hdir
  · exact hfree _ (.inr ⟨hlink, rfl⟩) hdir

section Parts

variable {self : Builder α} {env : Environment α C} {file : Path α} {m : Location α}

omit [DecidableEq α] [OsAlphabet α] in
theorem getOutDir_eq (hdir : (self.outDir <|> env.outDir) = some path) :
    (self.getOutDir env : Script α C (Path α)) = pure path := by
  rw [Builder.getOutDir, hdir]

/-- The directory of a source is created, unless something is in the way. -/
theorem Tidy.outSubdir (h : Tidy path d reads fs) (hdir : (self.outDir <|> env.outDir) = some path)
    (hm : descend [] (Builder.relDir file) = some m) :
    Fallible.Ends (self.outSubdir env file) fs
      (fun outSubdir fs' => outSubdir = path ++ Builder.relDir file ∧
        (Tidy path d reads fs' ∧ KeepsOccupied fs fs') ∧
          Grown d fs fs' (trail [] (Builder.relDir file)))
      (fun fs' => (Tidy path d reads fs' ∧ KeepsOccupied fs fs') ∧
        ∃ k ∈ trail [] (Builder.relDir file), fs.IsOccupied (d ++ k)) := by
  rw [Builder.outSubdir, getOutDir_eq hdir, pure_bind, join_of_descend hm]
  refine Fallible.Ends.bind (((sheltered fs).createDirAll _ ⟨h, .refl fs⟩ hm).mono ?_
    fun _ h => h)
  intro _ fs' hgrown
  exact Fallible.Ends.pure ⟨rfl, hgrown⟩

/-- The skeleton of a source is written, unless there is none or a directory is in its
place. -/
theorem Tidy.buildAndGenerate (h : Tidy path d reads fs) {r : Path α}
    (hr : descend [] r = some m) (hdirs : ∀ k ∈ trail [] r, fs.IsDir (d ++ k)) (x : List α) :
    Fallible.Ends (Builder.buildAndGenerate env file (path ++ r ++ [.normal x])) fs
      (fun _ fs' => ∃ c w, env.generate file = some c ∧ Wrote path d fs fs' m x c w)
      (fun fs' => fs' = fs ∧
        (env.generate file = none ∨ fs.IsDir (d ++ (m ++ [x])))) := by
  rw [Builder.buildAndGenerate]
  cases hgen : env.generate file with
  | none => exact Fallible.Ends.throw ⟨rfl, .inl rfl⟩
  | some c =>
      refine Fallible.Ends.attempt ?_ fun hnone =>
        ⟨rfl, .inr (h.isDir_of_write_eq_none hr hdirs hnone)⟩
      intro fs' hwrite
      obtain ⟨w, hwrote⟩ := h.wrote_of_write hr hdirs hwrite
      exact ⟨c, w, rfl, hwrote⟩

theorem Tidy.buildSource (h : Tidy path d reads fs)
    (hdir : (self.outDir <|> env.outDir) = some path) {counts : Name → ℕ} {name : Name}
    (hm : descend [] (Builder.relDir file) = some m)
    (hbelow : counts name = 1 → m = [] → Builder.relDir file = [])
    (hreads : counts name = 1 → Builder.relDir file ≠ [] → reads) :
    Fallible.Ends (self.buildSource env path counts file name) fs
      (fun _ fs' => Tidy path d reads fs' ∧ ∃ c, env.generate file = some c ∧
        Treated path d fs fs' (Builder.relDir file) m name
          (counts name = 1 ∧ Builder.relDir file ≠ []) c)
      (fun fs' => (Tidy path d reads fs' ∧ KeepsOccupied fs fs') ∧ (env.generate file = none ∨
        IsBlocked d fs (Builder.relDir file) m name
          (counts name = 1 ∧ Builder.relDir file ≠ []))) := by
  refine Fallible.Ends.bind ((h.outSubdir hdir hm).mono ?_
    fun fs' ⟨h', hoccupied⟩ => ⟨h', .inr (.inl hoccupied)⟩)
  rintro _ fs₁ ⟨rfl, ⟨h₁, hkeeps₁⟩, hgrown⟩
  refine Fallible.Ends.bind ((h₁.buildAndGenerate hm hgrown.dirs _).mono ?_ ?_)
  · rintro _ fs₂ ⟨c, w, hgen, hwrote⟩
    have h₂ := hwrote.tidy h₁
    have hne : path ++ Builder.relDir file ≠ path ↔ Builder.relDir file ≠ [] := by
      simp
    by_cases hlink : counts name = 1 ∧ Builder.relDir file ≠ []
    · rw [if_pos ⟨hlink.1, hne.mpr hlink.2⟩]
      have hm' : m ≠ [] := fun hnil => hlink.2 (hbelow hlink.1 hnil)
      have hdirs : ∀ k ∈ trail [] (Builder.relDir file), fs₂.IsDir (d ++ k) :=
        fun k hk => hwrote.kept.dirs _ (hgrown.dirs k hk)
      have hfile : ∃ c, fs₂.node (d ++ m ++ [Builder.skelName name]) = some (.file c) := by
        cases hwrote.reaches with
        | here => exact ⟨c, by simpa using hwrote.node_self⟩
        | linked hnil => exact absurd hnil hm'
      refine (h₂.linkSkeleton (hreads hlink.1 hlink.2) hm hm' hdirs hfile).mono ?_ ?_
      · rintro _ fs' ⟨h', hrep⟩
        exact ⟨h', c, hgen, fs₁, fs₂, w, hgrown, hwrote, fun _ => hrep,
          fun hnot => absurd hlink hnot⟩
      · rintro _ ⟨rfl, hplace⟩
        refine ⟨⟨h₂, hkeeps₁.trans hwrote.keepsOccupied⟩, .inr (.inr (.inr ⟨hlink, ?_⟩))⟩
        exact hgrown.isDir_iff.mp (hwrote.isDir_iff.mp hplace)
    · rw [if_neg fun hyes => hlink ⟨hyes.1, hne.mp hyes.2⟩]
      exact Fallible.Ends.pure ⟨h₂, c, hgen, fs₁, fs₂, w, hgrown, hwrote,
        fun hyes => absurd hyes hlink, fun _ => rfl⟩
  · rintro _ ⟨rfl, hreason⟩
    exact ⟨⟨h₁, hkeeps₁⟩, hreason.imp_right fun hplace =>
      .inr (.inl (hgrown.isDir_iff.mp hplace))⟩

end Parts

omit [DecidableEq α] in
theorem vmlinux_ne_skelName (name : Name) : (vmlinux : List α) ≠ Builder.skelName name := by
  intro h
  have hlast := congrArg List.getLast? (ofText_injective h)
  have hskel : ".skel.rs".toList.getLast? = some 's' := by decide
  rw [List.getLast?_append, hskel, Option.some_or] at hlast
  exact absurd hlast (by decide)

omit [DecidableEq α] in
theorem Tidy.reaches_vmlinux (h : Tidy path d reads fs) : Reaches path d fs [] vmlinux [] := by
  obtain ⟨w, hw⟩ := h.exists_reaches [] vmlinux
  cases hw with
  | here hnode => exact .here hnode
  | linked _ hx => exact absurd hx (vmlinux_ne_skelName _)

/-- Dumping the BTF changes nothing but the header, and succeeds if bpftool does. -/
theorem Tidy.dumpKernelBtf (h : Tidy path d reads fs) (env : Environment α C) :
    Fallible.Ends (dumpKernelBtf env path) fs
      (fun _ fs' => (Tidy path d reads fs' ∧ Kept d fs fs') ∧
        (∀ l, l ≠ [vmlinux] → fs'.node (d ++ l) = fs.node (d ++ l)) ∧
        (¬ fs.IsDir (d ++ [vmlinux]) → fs'.IsOccupied (d ++ [vmlinux])))
      (fun fs' => fs' = fs ∧ ∀ btf, env.bpftool ≠ .dumped btf) := by
  have hexists := h.reaches_vmlinux.pathExists h (r := []) rfl (by simp [trail])
  rw [List.append_nil, List.append_nil] at hexists
  have hpath : join path [.normal vmlinux] = path ++ [.normal vmlinux] := rfl
  refine Fallible.Ends.bind (Fallible.Ends.get ?_)
  rw [hpath, hexists]
  cases hnode : fs.node (d ++ [vmlinux]) with
  | some n =>
      refine Fallible.Ends.pure ⟨⟨h, .refl fs⟩, fun _ _ => rfl, fun hdir => ?_⟩
      exact (FileSystem.isDir_or_isOccupied (by simp [hnode])).resolve_left hdir
  | none =>
      unfold writeKernelBtf
      cases hbpftool : env.bpftool with
      | missing => exact Fallible.Ends.throw ⟨rfl, by simp⟩
      | failed => exact Fallible.Ends.throw ⟨rfl, by simp⟩
      | dumped btf =>
          obtain ⟨i, hi, hcwd⟩ := h.leadsTo.lead
          have hcreate := Sheltered.exec_createDirAllFrom
            (Panic.createIncludeDirectory path) (q := []) hcwd hi h.leadsTo.dir
          refine Fallible.Ends.bind (Fallible.Ends.of_exec hcreate ?_)
          refine Fallible.Ends.bind (Fallible.Ends.attempt ?_ ?_)
          · intro fs₂ hwrite
            obtain ⟨w, hwrote⟩ := h.wrote_of_write (r := []) (m := []) rfl (by simp [trail])
              (by rwa [List.append_nil])
            have hw : w = [] := by
              cases hwrote.reaches with
              | here => rfl
              | linked _ hx => exact absurd hx (vmlinux_ne_skelName _)
            subst hw
            exact Fallible.Ends.pure ⟨⟨hwrote.tidy h, hwrote.kept⟩,
              fun l hl => hwrote.node_of_ne hl, fun _ => ⟨.file btf, hwrote.node_self, by simp⟩⟩
          · intro hwrite
            have hdir := h.isDir_of_write_eq_none (r := []) (m := []) rfl (by simp [trail])
              (by rwa [List.append_nil])
            cases hdir.symm.trans hnode

end Build

end Xbpf
