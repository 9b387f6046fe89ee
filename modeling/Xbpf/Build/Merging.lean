import Xbpf.Build.Headers
import Xbpf.Files.Kinds

/-!
# Laying a directory over another one

Copying a directory into another one only fails if something that is not a directory is in
the way of a directory, or the other way around, or if it runs out of fuel. What was copied
once can be copied again, since it is of the same kind as what is found there then.
-/

namespace Xbpf

namespace Build

open Files Runs
open FileSystem (KeepsKinds Compatible)

variable {C : Type} {names : List Name} {fs fs₁ fs' : FileSystem Char C}
  {lf lt : Location Char} {fromDir toDir : Path Char} {done : List Name} {x : Name}

def treeAt (fs : FileSystem Char C) (l : Location Char) : Location Char → Option (Node Char C) :=
  fun p => fs.node (l ++ p)

/-- A directory can be laid over another one. -/
structure CanMerge (names : List Name) (fs : FileSystem Char C) (fromDir toDir : Path Char) :
    Prop extends CanOverlay fs fromDir toDir where
  plain : fs.Plain names
  named : ∀ x, .normal x ∈ toDir → x ∈ names
  found : fs.Reached fromDir
  nonempty : fromDir ≠ []
  free : ∀ k ∈ way fs.cwd toDir, ¬ fs.IsOccupied k
  compatible : Compatible (treeAt fs (destination fs.cwd fromDir))
    (treeAt fs (destination fs.cwd toDir))

def Merging (names : List Name) (fs fs' : FileSystem Char C) (lf lt : Location Char) : Prop :=
  fs'.Plain names ∧ ∃ done, Partly fs fs' lf lt done

/-- What is laid over something is found there, and is a directory if it was one. -/
def Shown (fs fs' : FileSystem Char C) (lf lt : Location Char) : Prop :=
  ∀ p n, fs.node (lf ++ p) = some n → ∃ n', fs'.node (lt ++ p) = some n' ∧ (n' = .dir ↔ n = .dir)

section Entries

/-- What is left to be laid over the directory still can be. -/
theorem Partly.compatible (h : Partly fs fs₁ lf lt done) (hsep : Separate lf lt)
    (hcompatible : Compatible (treeAt fs lf) (treeAt fs lt)) (x : Name) :
    Compatible (treeAt fs₁ (lf ++ [x])) (treeAt fs₁ (lt ++ [x])) := by
  intro p n n' hn hn'
  have hsource : fs₁.node (lf ++ x :: p) = fs.node (lf ++ x :: p) :=
    h.other _ (hsep.symm.not_prefix_append _)
  rw [treeAt, List.append_assoc, List.singleton_append] at hn hn'
  rw [hsource] at hn
  rw [h.overlay, hn] at hn'
  split at hn'
  · cases hn'
    exact Iff.rfl
  · exact hcompatible (x :: p) n n' hn hn'

theorem named_concat (h : ∀ y, .normal y ∈ toDir → y ∈ names) (hx : x ∈ names) :
    ∀ y, .normal y ∈ toDir ++ [.normal x] → y ∈ names := by
  intro y hy
  rcases List.mem_append.mp hy with hy | hy
  · exact h y hy
  · cases List.mem_singleton.mp hy
    exact hx

theorem CanMerge.concat (h : CanMerge names fs fromDir toDir) (hto : fs.Reached toDir)
    (hplain : fs₁.Plain names)
    (hpartly : Partly fs fs₁ (destination fs.cwd fromDir) (destination fs.cwd toDir) done)
    (hdir : fs₁.IsDir (destination fs.cwd fromDir ++ [x])) :
    CanMerge names fs₁ (fromDir ++ [.normal x]) (toDir ++ [.normal x]) := by
  have hx : x ∈ names := hplain.named _ x (by rw [hdir]; simp)
  have hto₁ := hto.of_dirs hpartly.cwd hpartly.dirs
  have hcompatible := hpartly.compatible h.separate h.compatible x
  refine { h.toCanOverlay.concat hpartly.cwd hto₁ x with
    plain := hplain, named := named_concat h.named hx, found := ?_, nonempty := by simp
    free := ?_, compatible := ?_ }
  · exact (h.found.of_dirs hpartly.cwd hpartly.dirs).concat (by rwa [hpartly.cwd])
  · intro k hk hoccupied
    rw [way_concat] at hk
    rcases List.mem_append.mp hk with hk | hk
    · exact FileSystem.not_isDir_of_isOccupied hoccupied (hto₁ k hk)
    · obtain ⟨n, hn, hne⟩ := hoccupied
      rw [List.mem_singleton.mp hk, hpartly.cwd] at hn
      refine hne ((hcompatible [] .dir n ?_ ?_).mp rfl)
      · rwa [treeAt, List.append_nil]
      · rwa [treeAt, List.append_nil]
  · rwa [destination_concat, destination_concat, hpartly.cwd]

theorem CanMerge.grown (h : CanMerge names fs fromDir toDir) (hplain : fs₁.Plain names)
    (hgrown : Grown [] fs fs₁ (way fs.cwd toDir)) : CanMerge names fs₁ fromDir toDir := by
  have hreached := hgrown.reached
  have hfound := h.found.of_dirs hgrown.cwd fun _ hk => hgrown.isDir hk
  refine { plain := hplain, named := h.named, found := hfound, nonempty := h.nonempty,
           separate := by rw [hgrown.cwd]; exact h.separate
           straight := fun k hk => .inr (hreached k hk)
           free := fun k hk hoccupied =>
             FileSystem.not_isDir_of_isOccupied hoccupied (hreached k hk)
           compatible := ?_ }
  rw [hgrown.cwd]
  intro p n n' hn hn'
  rw [treeAt, h.toCanOverlay.node_eq hgrown] at hn
  by_cases hp : p = []
  · subst hp
    have hfrom := h.found.isDir
    have hto := hreached.isDir
    rw [hgrown.cwd] at hto
    rw [treeAt, List.append_nil, hto] at hn'
    rw [List.append_nil, hfrom] at hn
    cases hn
    cases hn'
    exact Iff.rfl
  · rw [treeAt, hgrown.node_of_straight h.straight (not_isPrefix_append _ hp)] at hn'
    exact h.compatible p n n' hn hn'

theorem Overlaid.shown (h : Overlaid fs fs' lf lt) : Shown fs fs' lf lt := by
  intro p n hn
  exact ⟨n, by rw [h.overlay, hn, Option.some_or], Iff.rfl⟩

theorem Overlaid.isDir_of_prefix (h : Overlaid fs fs' lf lt) (hdir : fs.IsDir lf)
    {k : Location Char} (hk : k <+: lt) : fs'.IsDir k := by
  obtain ⟨r, rfl⟩ := hk
  have htop := h.overlay []
  rw [List.append_nil, List.append_nil, hdir, Option.some_or] at htop
  exact fs'.isDir_of_isDir_append htop

theorem Shown.trans (h₁ : Shown fs fs₁ lf lt) (h : KeepsKinds fs₁ fs') : Shown fs fs' lf lt := by
  intro p n hn
  obtain ⟨n₁, hn₁, hiff₁⟩ := h₁ p n hn
  obtain ⟨n', hn', hiff⟩ := h _ n₁ hn₁
  exact ⟨n', hn', hiff.trans hiff₁⟩

theorem Shown.compatible (h : Shown fs fs' lf lt) : Compatible (treeAt fs lf) (treeAt fs' lt) := by
  intro p n n' hn hn'
  obtain ⟨m, hm, hiff⟩ := h p n hn
  cases hm.symm.trans hn'
  exact hiff.symm

end Entries

section Copy

variable [EmptyCollection C] {readDir : ReadDir C} {fuel : ℕ}

theorem copyEntry_keepsKinds {copy : Path Char → Path Char → Export C Unit}
    (hcopy : ∀ s src dst, Fallible.Ends (copy src dst) s (fun _ s' => KeepsKinds s s')
      fun _ => True) (l : Location Char) :
    Fallible.Ends (copyEntry copy l fromDir toDir x) fs (fun _ fs' => KeepsKinds fs fs')
      fun _ => True := by
  refine Fallible.Ends.bind (Fallible.Ends.get ?_)
  split
  · dsimp only
    split
    · exact hcopy fs _ _
    · exact Fallible.Ends.attempt (fun _ hfs' => .copy hfs') fun _ => trivial
  · exact Fallible.Ends.pure (.refl fs)

theorem copyDir_keepsKinds (readDir : ReadDir C) (fuel : ℕ) (fs : FileSystem Char C)
    (fromDir toDir : Path Char) :
    Fallible.Ends (copyDir readDir fuel fromDir toDir) fs (fun _ fs' => KeepsKinds fs fs')
      fun _ => True := by
  induction fuel generalizing fs fromDir toDir with
  | zero => exact Fallible.Ends.throw trivial
  | succ fuel ih =>
      refine Fallible.Ends.bind ((KeepsKinds.createDirAll _ toDir).mono ?_ fun _ h => h)
      rintro _ fs₁ hkinds
      refine Fallible.Ends.bind (Fallible.Ends.get ?_)
      split
      · exact Fallible.Ends.throw trivial
      · refine (Fallible.Ends.forM (I := fun _ s => KeepsKinds fs₁ s) (.refl fs₁) ?_).mono
          (fun _ _ h => hkinds.trans h) fun _ h => h
        intro _ x _ s _ hs
        exact (copyEntry_keepsKinds ih _).mono (fun _ _ h => hs.trans h) fun _ h => h

/-- Nothing stops an entry from being copied. -/
theorem copyEntry_merges {copy : Path Char → Path Char → Export C Unit}
    (h : CanMerge names fs fromDir toDir) (hto : fs.Reached toDir) (hplain : fs₁.Plain names)
    (hpartly : Partly fs fs₁ (destination fs.cwd fromDir) (destination fs.cwd toDir) done)
    (hcopy : fs₁.IsDir (destination fs.cwd fromDir ++ [x]) → Fallible.Yields
      (copy (fromDir ++ [.normal x]) (toDir ++ [.normal x])) fs₁ (fun _ _ => True)
      fun _ => False) :
    Fallible.Yields (copyEntry copy (destination fs.cwd fromDir) fromDir toDir x) fs₁
      (fun _ _ => True) fun _ => False := by
  have hfrom₁ := h.found.of_dirs hpartly.cwd hpartly.dirs
  have hto₁ := hto.of_dirs hpartly.cwd hpartly.dirs
  refine Fallible.Yields.bind (Fallible.Yields.get ?_)
  split
  · rename_i hsome
    obtain ⟨n, hn⟩ := Option.isSome_iff_exists.mp hsome
    have hisDir := hplain.isDir_concat hfrom₁ x
    rw [hpartly.cwd] at hisDir
    dsimp only
    split
    · rename_i hdir
      exact hcopy (of_decide_eq_true (hisDir.symm.trans hdir))
    · rename_i hdir
      have hnot : n ≠ .dir := by
        rintro rfl
        exact hdir (hisDir.trans (decide_eq_true hn))
      cases n with
      | dir => exact absurd rfl hnot
      | symlink target => exact absurd hn (hplain.links _ _)
      | file c =>
          have hnotDir : ¬ fs₁.IsDir (destination fs.cwd toDir ++ [x]) := by
            intro hdir'
            have hiff := hpartly.compatible h.separate h.compatible x [] (.file c) .dir
              (by rwa [treeAt, List.append_nil]) (by rwa [treeAt, List.append_nil])
            exact absurd (hiff.mpr rfl) (by simp)
          rw [← hpartly.cwd] at hn hnotDir
          obtain ⟨fs', hcopied⟩ := hplain.exists_copy hfrom₁ hto₁ hn hnotDir
          rw [Fallible.Yields, Fallible.exec_attempt]
          have hsrc : fs₁.copy (join fromDir [.normal x]) (join toDir [.normal x]) = some fs' :=
            hcopied
          rw [hsrc]
          trivial
  · exact Fallible.Yields.pure trivial

/-- Nothing stops a directory that can be laid over another one, if there is enough fuel. -/
theorem copyDir_merges (hread : readDir.IsComplete names) (h : CanMerge names fs fromDir toDir)
    (hfuel : ∀ p, fs.IsDir (destination fs.cwd fromDir ++ p) → p.length < fuel) :
    Fallible.Yields (copyDir readDir fuel fromDir toDir) fs (fun _ _ => True)
      fun _ => False := by
  induction fuel generalizing fs fromDir toDir with
  | zero =>
      have hzero := hfuel [] (by rw [List.append_nil]; exact h.found.isDir)
      exact absurd hzero (Nat.not_lt_zero _)
  | succ fuel ih =>
      have hcreate := h.plain.createDirAll (ExportPanic.createDirectory toDir) h.named
      refine Fallible.Yields.bind ((Fallible.Yields.of_ends hcreate ?_).mono ?_ fun _ h => h)
      · rintro _ ⟨k, hk, hoccupied⟩
        exact h.free k hk hoccupied
      rintro _ fs₁ ⟨hplain₁, hgrown⟩
      have h₁ := h.grown hplain₁ hgrown
      have hto := hgrown.reached
      have hfind := h₁.found.find_eq h₁.nonempty
      have hopen : openDir fs₁ fromDir = some (destination fs₁.cwd fromDir) := by
        simp [openDir, hfind, h₁.found.isDir]
      refine Fallible.Yields.bind (Fallible.Yields.get ?_)
      rw [hopen]
      have hloop : Fallible.Yields ((readDir fs₁ (destination fs₁.cwd fromDir)).forM
          (copyEntry (copyDir readDir fuel) (destination fs₁.cwd fromDir) fromDir toDir)) fs₁
          (fun _ s => Merging names fs₁ s (destination fs₁.cwd fromDir)
            (destination fs₁.cwd toDir)) fun _ => False := by
        refine Fallible.Yields.forM ⟨hplain₁, [], .nil⟩ ?_
        rintro x _ s ⟨hplain, done, hpartly⟩
        have hstep := copyEntry_partly (x := x) (copyDir_overlays hread fuel) h₁.toCanOverlay
          h₁.named h₁.found hto hplain hpartly
        refine ((copyEntry_merges h₁ hto hplain hpartly fun hdir => ?_).and_ends hstep).mono
          (fun _ s' hs' => ⟨hs'.2.1, _, hs'.2.2⟩) fun _ h => h
        refine ih (h₁.concat hto hplain hpartly hdir) fun p hp => ?_
        rw [destination_concat, hpartly.cwd, hgrown.cwd, List.append_assoc] at hp
        have hsource := hpartly.other (destination fs.cwd fromDir ++ ([x] ++ p)) (by
          rw [hgrown.cwd]
          exact h.separate.symm.not_prefix_append _)
        have hlt := hfuel _ ((h.toCanOverlay.node_eq hgrown _).symm.trans (hsource.symm.trans hp))
        rw [List.singleton_append, List.length_cons] at hlt
        exact Nat.lt_of_succ_lt_succ hlt
      exact hloop.mono (fun _ _ _ => trivial) fun _ h => h

theorem copyEntry_deep {copy : Path Char → Path Char → Export C Unit} {l : Location Char}
    (hplain : fs.Plain names) (hfrom : fs.Reached fromDir) (hl : destination fs.cwd fromDir = l)
    (hcopy : fs.IsDir (l ++ [x]) → Fallible.Ends
      (copy (fromDir ++ [.normal x]) (toDir ++ [.normal x])) fs
      (fun _ _ => ∀ p, fs.IsDir (l ++ x :: p) → p.length < fuel) fun _ => True) :
    Fallible.Ends (copyEntry copy l fromDir toDir x) fs
      (fun _ _ => ∀ p, fs.IsDir (l ++ x :: p) → p.length < fuel) fun _ => True := by
  have hisDir := hplain.isDir_concat hfrom x
  rw [hl] at hisDir
  have hshallow : ¬ fs.IsDir (l ++ [x]) → ∀ p, fs.IsDir (l ++ x :: p) → p.length < fuel := by
    intro hdir p hp
    rw [List.append_cons] at hp
    exact absurd (fs.isDir_of_isDir_append hp) hdir
  refine Fallible.Ends.bind (Fallible.Ends.get ?_)
  split
  · dsimp only
    split
    · rename_i hdir
      exact hcopy (of_decide_eq_true (hisDir.symm.trans hdir))
    · rename_i hdir
      refine Fallible.Ends.attempt (fun fs' _ => hshallow fun hdir' => hdir ?_) fun _ => trivial
      exact hisDir.trans (decide_eq_true hdir')
  · rename_i hnone
    exact Fallible.Ends.pure (hshallow fun hdir => hnone (by rw [hdir]; rfl))

/-- A directory is only copied if it is found, and with fuel for the directories in it. -/
theorem copyDir_opens (hread : readDir.IsComplete names) (fuel : ℕ) (hplain : fs.Plain names)
    (hto : ∀ x, .normal x ∈ toDir → x ∈ names) (hcan : CanOverlay fs fromDir toDir) :
    Fallible.Ends (copyDir readDir fuel fromDir toDir) fs
      (fun _ fs' => fromDir ≠ [] ∧ fs'.Reached fromDir ∧
        ∀ p, fs.IsDir (destination fs.cwd fromDir ++ p) → p.length < fuel)
      fun _ => True := by
  induction fuel generalizing fs fromDir toDir with
  | zero => exact Fallible.Ends.throw trivial
  | succ fuel ih =>
      refine Fallible.Ends.bind ((hplain.createDirAll _ hto).mono ?_ fun _ _ => trivial)
      rintro _ fs₁ ⟨hplain₁, hgrown⟩
      refine Fallible.Ends.bind (Fallible.Ends.get ?_)
      have hreached := hgrown.reached
      have hcan₁ : CanOverlay fs₁ fromDir toDir :=
        ⟨by rw [hgrown.cwd]; exact hcan.separate, fun k hk => .inr (hreached k hk)⟩
      cases hopen : openDir fs₁ fromDir with
      | none => exact Fallible.Ends.throw trivial
      | some l =>
          obtain ⟨hfind, hl⟩ := openDir_eq_some hopen
          obtain rfl := hplain₁.eq_of_find hfind
          have hfrom := hplain₁.reached_of_find hfind hl
          have hnonempty : fromDir ≠ [] := by
            rintro rfl
            cases hfind
          refine (Fallible.Ends.forM
            (I := fun done s => s.Plain names ∧
              Partly fs₁ s (destination fs₁.cwd fromDir) (destination fs₁.cwd toDir) done ∧
              ∀ x ∈ done, ∀ p, fs₁.IsDir (destination fs₁.cwd fromDir ++ x :: p) →
                p.length < fuel)
            ⟨hplain₁, .nil, by simp⟩ ?_).mono ?_ fun _ h => h
          · rintro done x after s _ ⟨hplain', hpartly, hdeep⟩
            have hsource (p : Location Char) :
                s.node (destination fs₁.cwd fromDir ++ x :: p) =
                  fs₁.node (destination fs₁.cwd fromDir ++ x :: p) :=
              hpartly.other _ (hcan₁.separate.symm.not_prefix_append _)
            have hstep := copyEntry_partly (x := x) (copyDir_overlays hread fuel) hcan₁ hto hfrom
              hreached hplain' hpartly
            have hentry : Fallible.Ends
                (copyEntry (copyDir readDir fuel) (destination fs₁.cwd fromDir) fromDir toDir x) s
                (fun _ _ => ∀ p, s.IsDir (destination fs₁.cwd fromDir ++ x :: p) →
                  p.length < fuel) fun _ => True := by
              refine copyEntry_deep hplain' (hfrom.of_dirs hpartly.cwd hpartly.dirs)
                (by rw [hpartly.cwd]) fun hdir => ?_
              have hx : x ∈ names := hplain'.named _ x (by rw [hdir]; simp)
              have hcan' := hcan₁.concat hpartly.cwd
                (hreached.of_dirs hpartly.cwd hpartly.dirs) x
              refine (ih hplain' (named_concat hto hx) hcan').mono ?_ fun _ h => h
              rintro _ s' ⟨_, _, hdeep'⟩ p hp
              refine hdeep' p ?_
              rwa [destination_concat, hpartly.cwd, ← List.append_cons]
            refine (hstep.and hentry).mono (fun _ s' hs' => ⟨hs'.1.1, hs'.1.2, ?_⟩)
              fun _ h => h
            intro y hy p hp
            rcases List.mem_append.mp hy with hy | hy
            · exact hdeep y hy p hp
            · cases List.mem_singleton.mp hy
              exact hs'.2 p ((hsource p).trans hp)
          · rintro _ fs' ⟨_, hpartly, hdeep⟩
            refine ⟨hnonempty, hfrom.of_dirs hpartly.cwd hpartly.dirs, fun p hp => ?_⟩
            have hp₁ := (hcan.node_eq hgrown p).trans hp
            cases p with
            | nil => exact Nat.succ_pos fuel
            | cons x p =>
                rw [← hgrown.cwd] at hp₁
                have hx : fs₁.node (destination fs₁.cwd fromDir ++ [x]) ≠ none := by
                  rw [List.append_cons] at hp₁
                  rw [fs₁.isDir_of_isDir_append hp₁]
                  simp
                exact Nat.succ_lt_succ (hdeep x (hread fs₁ hplain₁ _ x hx) p hp₁)

end Copy

section Include

theorem plain_include :
    (.ofFile ["include".toList] "x.h".toList [2] : FileSystem Char (List ℕ)).Plain
      exportNames := by
  refine ⟨fun k t => FileSystem.node_ofFile_ne_symlink t, fun l x hx => ?_⟩
  have hmem : x ∈ ["include".toList, "x.h".toList] :=
    (FileSystem.prefix_of_node_ofFile hx).subset (List.mem_append_right l List.mem_cons_self)
  exact List.mem_append_left ["out".toList, vmlinux] hmem

theorem out_mem_exportNames :
    ∀ x, .normal x ∈ ([.rootDir, .normal "out".toList] : Path Char) → x ∈ exportNames := by
  intro x hx
  obtain rfl : x = "out".toList := by simpa using hx
  decide

theorem canOverlay_include_out : CanOverlay
    (.ofFile ["include".toList] "x.h".toList [2] : FileSystem Char (List ℕ))
    [.rootDir, .normal "include".toList] [.rootDir, .normal "out".toList] :=
  .of_isPath (by unfold Separate; decide) ⟨"/out".toList, by decide +kernel⟩ (by decide)

end Include

end Build

end Xbpf
