import Mathlib.Data.List.Induction
import Xbpf.Build.Builder
import Xbpf.Files.Plain

/-!
# Exporting headers

The headers of some directories are copied into one directory, next to the BTF of the
kernel. What is copied later overwrites what is already there.

Copying a directory is a recursion over a tree that it can change itself, so it is given
fuel. A directory is read while entries are made. Those that are there when it is opened
are read in some order, and of those that are made later some may be read as well.
-/

namespace Xbpf

namespace Build

open Files Runs

inductive ExportPanic
  | dumpKernelBtf (panic : Panic Char)
  | createDirectory (toDir : Path Char)
  | readDirectory (fromDir : Path Char)
  | copy (src dst : Path Char)
  | unfinished
  deriving DecidableEq, Repr

abbrev Export (C R : Type) :=
  Fallible ExportPanic (FileSystem Char C) R

variable {C : Type}

/-- The names that are read in a directory when it is opened. A name that has no entry by
the time it is read is passed over. -/
abbrev ReadDir (C : Type) :=
  FileSystem Char C → Location Char → List Name

def ReadDir.IsComplete (readDir : ReadDir C) (names : List Name) : Prop :=
  ∀ fs, fs.Plain names → ∀ l x, fs.node (l ++ [x]) ≠ none → x ∈ readDir fs l

def openDir (fs : FileSystem Char C) (path : Path Char) : Option (Location Char) :=
  (fs.find path).filter fun l => decide (fs.IsDir l)

section Copy

variable [EmptyCollection C]

def copyEntry (copyDir : Path Char → Path Char → Export C Unit) (l : Location Char)
    (fromDir toDir : Path Char) (name : Name) : Export C Unit := do
  let fs ← get
  if (fs.node (l ++ [name])).isSome then
    let src := join fromDir [.normal name]
    let dst := join toDir [.normal name]
    if fs.isDir src then copyDir src dst
    else Fallible.attempt (fun fs => fs.copy src dst) (.copy src dst)
  else pure ()

def copyDir (readDir : ReadDir C) : ℕ → Path Char → Path Char → Export C Unit
  | 0, _, _ => throw .unfinished
  | fuel + 1, fromDir, toDir => do
      FileSystem.createDirAll (.createDirectory toDir) toDir
      let fs ← get
      match openDir fs fromDir with
      | none => throw (.readDirectory fromDir)
      | some l => (readDir fs l).forM (copyEntry (copyDir readDir fuel) l fromDir toDir)

def includePathRoot (manifestDir : Path Char) : Path Char :=
  join manifestDir [.normal "include".toList]

def exportHeaders (readDir : ReadDir C) (fuel : ℕ) (env : Environment Char C)
    (manifestDir : Path Char) (hdrs : Option (List (Path Char))) (dst : Path Char) :
    Export C Unit := do
  let _ ← Fallible.mapError .dumpKernelBtf (dumpKernelBtf env dst)
  copyDir readDir fuel (includePathRoot manifestDir) dst
  match hdrs with
  | none => pure ()
  | some srcs => srcs.forM fun src => copyDir readDir fuel src dst

end Copy

theorem openDir_eq_some {fs : FileSystem Char C} {path : Path Char} {l : Location Char}
    (h : openDir fs path = some l) : fs.find path = some l ∧ fs.IsDir l := by
  simpa [openDir, Option.filter_eq_some_iff] using h

/-- The places that two paths lead to do not lie in each other, and the second path leads
straight to its place, but for directories that are there already. -/
structure CanOverlay (fs : FileSystem Char C) (fromDir toDir : Path Char) : Prop where
  separate : Separate (destination fs.cwd fromDir) (destination fs.cwd toDir)
  straight : ∀ k ∈ way fs.cwd toDir, k <+: destination fs.cwd toDir ∨ fs.IsDir k

/-- A directory was changed, and nothing outside of it but for the directories that it
lies in. -/
structure Within (l : Location Char) (fs fs' : FileSystem Char C) : Prop where
  other : ∀ k, ¬ l <+: k → ¬ k <+: l → fs'.node k = fs.node k
  dirs : ∀ k, fs.IsDir k → fs'.IsDir k
  cwd : fs'.cwd = fs.cwd

structure Overlaid (fs fs' : FileSystem Char C) (lf lt : Location Char) : Prop extends
    Within lt fs fs' where
  overlay : ∀ p, fs'.node (lt ++ p) = (fs.node (lf ++ p)).or (fs.node (lt ++ p))

/-- The entries with some names were laid over a directory. -/
structure Partly (fs fs' : FileSystem Char C) (lf lt : Location Char) (done : List Name) :
    Prop where
  overlay : ∀ x p, fs'.node (lt ++ x :: p) =
    if x ∈ done then (fs.node (lf ++ x :: p)).or (fs.node (lt ++ x :: p))
    else fs.node (lt ++ x :: p)
  other : ∀ k, ¬ lt <+: k → fs'.node k = fs.node k
  dirs : ∀ k, fs.IsDir k → fs'.IsDir k
  cwd : fs'.cwd = fs.cwd

section Overlay

variable {names : List Name} {fs fs₁ fs' : FileSystem Char C} {l lf lt : Location Char}
  {fromDir toDir : Path Char} {done : List Name} {x : Name}

theorem Within.refl (fs : FileSystem Char C) : Within l fs fs :=
  ⟨fun _ _ _ => rfl, fun _ hk => hk, rfl⟩

theorem Within.trans (h₁ : Within l fs fs₁) (h : Within l fs₁ fs') : Within l fs fs' where
  other k hk hk' := (h.other k hk hk').trans (h₁.other k hk hk')
  dirs k hk := h.dirs k (h₁.dirs k hk)
  cwd := h.cwd.trans h₁.cwd

theorem Within.of_append {p : Location Char} (h : Within (l ++ p) fs fs') : Within l fs fs' where
  other k hk hk' := by
    refine h.other k (fun hprefix => hk ((List.prefix_append l p).trans hprefix)) fun hprefix => ?_
    rcases List.prefix_or_prefix_of_prefix hprefix (List.prefix_append l p) with hkl | hlk
    · exact hk' hkl
    · exact hk hlk
  dirs := h.dirs
  cwd := h.cwd

theorem Within.put (fs : FileSystem Char C) (l : Location Char) (n : Option (Node Char C)) :
    Within l fs (fs.put l n) where
  other _ hk _ := FileSystem.node_put_of_ne fs fun heq => hk (heq ▸ List.prefix_rfl)
  dirs _ hk := FileSystem.isDir_put hk
  cwd := FileSystem.cwd_put ..

theorem Within.of_grown {ks : List (Location Char)} (h : Grown [] fs fs' ks)
    (hstraight : ∀ k ∈ ks, k <+: l ∨ fs.IsDir k) : Within l fs fs' :=
  ⟨fun _ _ hk' => h.node_of_straight hstraight hk', fun _ hk => h.isDir hk, h.cwd⟩

/-- A path without `..` leads straight to its place. -/
theorem CanOverlay.of_isPath (hsep : Separate (destination fs.cwd fromDir)
    (destination fs.cwd toDir)) (hpath : IsPath toDir) (hparent : .parentDir ∉ toDir) :
    CanOverlay fs fromDir toDir := by
  refine ⟨hsep, fun k hk => .inl ?_⟩
  cases toDir with
  | nil => cases hk
  | cons c toDir =>
      have hrest : ∀ c ∈ toDir, c ≠ .rootDir ∧ c ≠ .parentDir := fun c' hc' =>
        ⟨(hpath.of_mem_tail hc').1, fun heq => hparent (heq ▸ List.mem_cons_of_mem _ hc')⟩
      rcases List.mem_cons.mp hk with rfl | hk
      · exact isPrefix_destination _ hrest
      · exact isPrefix_of_mem_way (l := c.next fs.cwd) hrest hk

theorem Partly.nil : Partly fs fs lf lt [] :=
  ⟨fun x p => by simp, fun _ _ => rfl, fun _ hk => hk, rfl⟩

theorem Overlaid.node_of_prefix (h : Overlaid fs fs' lf lt) {k m : Location Char}
    (hm : fs.IsDir m) (hk : k <+: m) : fs'.node k = fs.node k := by
  obtain ⟨r, rfl⟩ := hk
  have hdir := fs.isDir_of_isDir_append hm
  exact (h.dirs k hdir).trans hdir.symm

/-- One more entry is laid over the directory. -/
theorem Partly.of_overlaid (h : Partly fs fs₁ lf lt done) (hlt : fs.IsDir lt)
    (hsep : Separate lf lt) (hx : Overlaid fs₁ fs' (lf ++ [x]) (lt ++ [x])) :
    Partly fs fs' lf lt (done ++ [x]) where
  overlay y p := by
    by_cases hy : y = x
    · subst hy
      have hsource : fs₁.node (lf ++ y :: p) = fs.node (lf ++ y :: p) :=
        h.other _ (hsep.symm.not_prefix_append _)
      have hover := hx.overlay p
      rw [List.append_assoc, List.append_assoc, List.singleton_append, hsource, h.overlay] at hover
      have hmem : y ∈ done ++ [y] := by simp
      rw [hover, if_pos hmem]
      split
      · rw [← Option.or_assoc, Option.or_self]
      · rfl
    · rw [hx.other, h.overlay]
      · simp [hy]
      · rw [List.prefix_append_right_inj, List.cons_prefix_cons]
        exact fun hprefix => hy hprefix.1.symm
      · rw [List.prefix_append_right_inj, List.cons_prefix_cons]
        exact fun hprefix => hy hprefix.1
  other k hk := by
    rw [← h.other k hk]
    by_cases hprefix : k <+: lt
    · exact hx.node_of_prefix (h.dirs lt hlt) hprefix
    · exact hx.toWithin.of_append.other k hk hprefix
  dirs k hk := hx.dirs k (h.dirs k hk)
  cwd := hx.cwd.trans h.cwd

theorem Partly.of_file (h : Partly fs fs₁ lf lt done) (hlt : fs.IsDir lt)
    (hsep : Separate lf lt) {c : C} (hfile : fs₁.node (lf ++ [x]) = some (.file c))
    (hdir : ¬ fs₁.IsDir (lt ++ [x])) :
    Partly fs (fs₁.put (lt ++ [x]) (some (.file c))) lf lt (done ++ [x]) := by
  have hput := FileSystem.node_put (h.dirs lt hlt) hdir (some (.file c))
  refine h.of_overlaid hlt hsep ⟨.put fs₁ _ _, fun p => ?_⟩
  cases p with
  | nil => simp [hput, hfile]
  | cons y p =>
      have hnone : fs₁.node (lf ++ [x] ++ y :: p) = none :=
        FileSystem.node_append_eq_none (fun hd => by cases hfile.symm.trans hd) (by simp)
      rw [hput, Function.update_of_ne (by simp), hnone, Option.none_or]

theorem Partly.of_none (h : Partly fs fs₁ lf lt done) (hsep : Separate lf lt)
    (hnone : fs₁.node (lf ++ [x]) = none) : Partly fs fs₁ lf lt (done ++ [x]) where
  overlay y p := by
    by_cases hy : y = x
    · subst hy
      have hsource : fs.node (lf ++ y :: p) = none := by
        rw [← h.other _ (hsep.symm.not_prefix_append _), List.append_cons]
        exact FileSystem.node_append_of_none hnone p
      rw [h.overlay, hsource]
      simp
    · rw [h.overlay]
      simp [hy]
  other := h.other
  dirs := h.dirs
  cwd := h.cwd

/-- All entries were laid over the directory. -/
theorem Partly.overlaid (h : Partly fs fs' lf lt done) (hlf : fs.IsDir lf) (hlt : fs.IsDir lt)
    (hdone : ∀ x, fs.node (lf ++ [x]) ≠ none → x ∈ done) : Overlaid fs fs' lf lt where
  overlay p := by
    cases p with
    | nil =>
        rw [List.append_nil, List.append_nil, hlf, h.dirs lt hlt]
        rfl
    | cons x p =>
        rw [h.overlay]
        split
        · rfl
        · rename_i hx
          have hnone : fs.node (lf ++ [x]) = none := by
            by_contra hne
            exact hx (hdone x hne)
          have hsource : fs.node (lf ++ x :: p) = none := by
            rw [List.append_cons]
            exact FileSystem.node_append_of_none hnone p
          rw [hsource, Option.none_or]
  other k hk _ := h.other k hk
  dirs := h.dirs
  cwd := h.cwd

theorem CanOverlay.node_eq (hcan : CanOverlay fs fromDir toDir)
    (hgrown : Grown [] fs fs₁ (way fs.cwd toDir)) (p : Location Char) :
    fs₁.node (destination fs.cwd fromDir ++ p) = fs.node (destination fs.cwd fromDir ++ p) :=
  hgrown.node_of_straight hcan.straight fun hprefix =>
    hcan.separate.1 ((List.prefix_append _ p).trans hprefix)

theorem Overlaid.of_grown (h : Overlaid fs₁ fs' (destination fs.cwd fromDir)
    (destination fs.cwd toDir)) (hcan : CanOverlay fs fromDir toDir)
    (hgrown : Grown [] fs fs₁ (way fs.cwd toDir))
    (hdir : fs₁.IsDir (destination fs.cwd fromDir)) :
    Overlaid fs fs' (destination fs.cwd fromDir) (destination fs.cwd toDir) where
  toWithin := (Within.of_grown hgrown hcan.straight).trans h.toWithin
  overlay p := by
    have hsource := hcan.node_eq hgrown p
    cases p with
    | nil =>
        rw [List.append_nil] at hsource ⊢
        have hover := h.overlay []
        rw [List.append_nil, List.append_nil, hdir] at hover
        rw [List.append_nil, hover, ← hsource, hdir]
        rfl
    | cons x p =>
        rw [h.overlay, hsource]
        exact congrArg _ (hgrown.node_of_straight hcan.straight (not_isPrefix_append _ (by simp)))

theorem CanOverlay.concat (h : CanOverlay fs fromDir toDir) (hcwd : fs₁.cwd = fs.cwd)
    (hto : fs₁.Reached toDir) (x : Name) :
    CanOverlay fs₁ (fromDir ++ [.normal x]) (toDir ++ [.normal x]) := by
  constructor
  · rw [destination_concat, destination_concat, hcwd]
    exact h.separate.append [x] [x]
  · intro k hk
    rw [way_concat] at hk
    rcases List.mem_append.mp hk with hk | hk
    · exact .inr (hto k hk)
    · rw [List.mem_singleton.mp hk, destination_concat]
      exact .inl List.prefix_rfl

section Runs

variable [EmptyCollection C] {readDir : ReadDir C} {fuel : ℕ}

/-- What copying a directory with some fuel leaves behind. -/
def Overlays (names : List Name) (copy : Path Char → Path Char → Export C Unit) : Prop :=
  ∀ fs fromDir toDir, fs.Plain names → (∀ x, .normal x ∈ toDir → x ∈ names) →
    CanOverlay fs fromDir toDir → Fallible.Ends (copy fromDir toDir) fs
      (fun _ fs' => fs'.Plain names ∧ fs.IsDir (destination fs.cwd fromDir) ∧
        Overlaid fs fs' (destination fs.cwd fromDir) (destination fs.cwd toDir))
      fun _ => True

theorem copyEntry_partly {copy : Path Char → Path Char → Export C Unit}
    (hcopy : Overlays names copy) (hcan : CanOverlay fs fromDir toDir)
    (hto : ∀ x, .normal x ∈ toDir → x ∈ names) (hfrom : fs.Reached fromDir)
    (hreached : fs.Reached toDir) (hplain : fs₁.Plain names)
    (h : Partly fs fs₁ (destination fs.cwd fromDir) (destination fs.cwd toDir) done) :
    Fallible.Ends (copyEntry copy (destination fs.cwd fromDir) fromDir toDir x) fs₁
      (fun _ fs' => fs'.Plain names ∧
        Partly fs fs' (destination fs.cwd fromDir) (destination fs.cwd toDir) (done ++ [x]))
      fun _ => True := by
  have hfrom₁ := hfrom.of_dirs h.cwd h.dirs
  have hreached₁ := hreached.of_dirs h.cwd h.dirs
  refine Fallible.Ends.bind (Fallible.Ends.get ?_)
  split
  · rename_i hsome
    have hx : x ∈ names := hplain.named _ x (Option.isSome_iff_ne_none.mp hsome)
    have hto' : ∀ y, .normal y ∈ toDir ++ [.normal x] → y ∈ names := by
      intro y hy
      rcases List.mem_append.mp hy with hy | hy
      · exact hto y hy
      · cases List.mem_singleton.mp hy
        exact hx
    dsimp only
    split
    · refine (hcopy fs₁ _ _ hplain hto' (hcan.concat h.cwd hreached₁ x)).mono ?_ fun _ h => h
      rintro _ fs' ⟨hplain', _, hover⟩
      rw [destination_concat, destination_concat, h.cwd] at hover
      exact ⟨hplain', h.of_overlaid hreached.isDir hcan.separate hover⟩
    · refine Fallible.Ends.attempt (fun fs' hfs' => ?_) fun _ => trivial
      obtain ⟨c, hfile, hdir, rfl⟩ := hplain.of_copy hfrom₁ hreached₁ hfs'
      rw [h.cwd] at hfile hdir ⊢
      have hne : destination fs.cwd fromDir ≠ destination fs.cwd toDir :=
        fun heq => hcan.separate.1 (heq ▸ List.prefix_rfl)
      rw [if_neg hne]
      exact ⟨hplain.put hx (by simp), h.of_file hreached.isDir hcan.separate hfile hdir⟩
  · rename_i hnone
    rw [Bool.not_eq_true, Option.isSome_eq_false_iff, Option.isNone_iff_eq_none] at hnone
    exact Fallible.Ends.pure ⟨hplain, h.of_none hcan.separate hnone⟩

theorem copyDir_overlays (hread : readDir.IsComplete names) (fuel : ℕ) :
    Overlays names (copyDir readDir fuel) := by
  induction fuel with
  | zero => exact fun _ _ _ _ _ _ => Fallible.Ends.throw trivial
  | succ fuel ih =>
      intro fs fromDir toDir hplain hto hcan
      refine Fallible.Ends.bind ((hplain.createDirAll _ hto).mono ?_ fun _ _ => trivial)
      rintro _ fs₁ ⟨hplain₁, hgrown⟩
      refine Fallible.Ends.bind (Fallible.Ends.get ?_)
      have hreached := hgrown.reached
      have hcan₁ : CanOverlay fs₁ fromDir toDir :=
        ⟨by rw [hgrown.cwd]; exact hcan.separate, fun k hk => .inr (hreached k hk)⟩
      cases hopen : openDir fs₁ fromDir with
      | none => exact Fallible.Ends.throw trivial
      | some l =>
          obtain ⟨hfind, hl⟩ := openDir_eq_some hopen
          obtain rfl := hplain₁.eq_of_find hfind
          have hfrom := hplain₁.reached_of_find hfind hl
          refine (Fallible.Ends.forM
            (I := fun done s => s.Plain names ∧
              Partly fs₁ s (destination fs₁.cwd fromDir) (destination fs₁.cwd toDir) done)
            ⟨hplain₁, .nil⟩ fun done x after s _ hs =>
              copyEntry_partly ih hcan₁ hto hfrom hreached hs.1 hs.2).mono ?_ fun _ h => h
          rintro _ fs' ⟨hplain', hpartly⟩
          have hover := hpartly.overlaid hl hreached.isDir (hread fs₁ hplain₁ _)
          rw [hgrown.cwd] at hover hl
          have hsource := hcan.node_eq hgrown []
          rw [List.append_nil] at hsource
          exact ⟨hplain', hsource.symm.trans hl, hover.of_grown hcan hgrown hl⟩

end Runs

end Overlay

section ExportHeaders

def Bpftool.output : Bpftool C → Option C
  | dumped btf => some btf
  | _ => none

def withVmlinux (env : Environment Char C) (tree : Location Char → Option (Node Char C)) :
    Location Char → Option (Node Char C) :=
  fun p => if p = [vmlinux] then (tree p).or (env.bpftool.output.map .file) else tree p

def overlayAll (fs : FileSystem Char C) (srcs : List (Path Char))
    (tree : Location Char → Option (Node Char C)) : Location Char → Option (Node Char C) :=
  srcs.foldl (fun tree src p => (fs.node (destination fs.cwd src ++ p)).or (tree p)) tree

variable {names : List Name} {fs fs₁ fs' : FileSystem Char C} {ld : Location Char}
  {dst : Path Char} {env : Environment Char C} {srcs : List (Path Char)} {src : Path Char}

theorem overlayAll_concat (fs : FileSystem Char C) (srcs : List (Path Char)) (src : Path Char)
    (tree : Location Char → Option (Node Char C)) (p : Location Char) :
    overlayAll fs (srcs ++ [src]) tree p =
      (fs.node (destination fs.cwd src ++ p)).or (overlayAll fs srcs tree p) := by
  rw [overlayAll, List.foldl_append]
  rfl

/-- What is below does not matter where something is on top. -/
theorem overlayAll_congr {tree tree' : Location Char → Option (Node Char C)} {p : Location Char}
    (h : tree p = tree' p ∨ ∃ src ∈ srcs, fs.node (destination fs.cwd src ++ p) ≠ none) :
    overlayAll fs srcs tree p = overlayAll fs srcs tree' p := by
  induction srcs using List.reverseRecOn with
  | nil =>
      rcases h with h | ⟨_, hmem, _⟩
      · exact h
      · cases hmem
  | append_singleton srcs src ih =>
      rw [overlayAll_concat, overlayAll_concat]
      cases hsrc : fs.node (destination fs.cwd src ++ p) with
      | some n => rfl
      | none =>
          refine congrArg _ (ih ?_)
          rcases h with h | ⟨src', hmem, hne⟩
          · exact .inl h
          · rcases List.mem_append.mp hmem with hmem | hmem
            · exact .inr ⟨src', hmem, hne⟩
            · rw [List.mem_singleton.mp hmem] at hne
              exact absurd hsrc hne

theorem Within.node_of_separate {l : Location Char} (h : Within ld fs fs') (hsep : Separate l ld)
    (p : Location Char) : fs'.node (l ++ p) = fs.node (l ++ p) :=
  h.other _ (hsep.symm.not_prefix_append p) fun hprefix =>
    hsep.1 ((List.prefix_append l p).trans hprefix)

theorem Within.canOverlay (h : Within ld fs fs') (hcan : CanOverlay fs src dst) :
    CanOverlay fs' src dst := by
  constructor
  · rw [h.cwd]
    exact hcan.separate
  · rw [h.cwd]
    exact fun k hk => (hcan.straight k hk).imp id (h.dirs k)

/-- A directory has the BTF of the kernel, which was put there if it had none. -/
structure Dumped (env : Environment Char C) (names : List Name) (l : Location Char)
    (fs fs' : FileSystem Char C) : Prop extends Within l fs fs' where
  plain : fs'.Plain names
  node_ne_none : fs'.node (l ++ [vmlinux]) ≠ none
  tree_eq : ∀ p, p ≠ [] → fs'.node (l ++ p) = withVmlinux env (fun p => fs.node (l ++ p)) p

theorem Dumped.of_found (hplain : fs.Plain names) (h : fs.node (ld ++ [vmlinux]) ≠ none) :
    Dumped env names ld fs fs where
  toWithin := .refl fs
  plain := hplain
  node_ne_none := h
  tree_eq p _ := by
    rw [withVmlinux]
    split
    · rename_i heq
      rw [heq, Option.or_of_isSome (Option.isSome_iff_ne_none.mpr h)]
    · rfl

theorem writeKernelBtf_dumped (hplain : fs.Plain names)
    (hdst : ∀ x, .normal x ∈ dst → x ∈ names) (hvmlinux : vmlinux ∈ names)
    (hstraight : ∀ k ∈ way fs.cwd dst, k <+: destination fs.cwd dst ∨ fs.IsDir k)
    (hnone : fs.node (destination fs.cwd dst ++ [vmlinux]) = none) :
    Fallible.Ends (writeKernelBtf env dst) fs
      (fun _ fs' => Dumped env names (destination fs.cwd dst) fs fs') fun _ => True := by
  rw [writeKernelBtf]
  cases hbtf : env.bpftool with
  | missing => exact Fallible.Ends.throw trivial
  | failed => exact Fallible.Ends.throw trivial
  | dumped btf =>
      refine Fallible.Ends.bind ((hplain.createDirAll _ hdst).mono ?_ fun _ _ => trivial)
      rintro _ fs₁ ⟨hplain₁, hgrown⟩
      have hreached := hgrown.reached
      have hnone₁ : fs₁.node (destination fs.cwd dst ++ [vmlinux]) = none :=
        (hgrown.node_of_straight hstraight (not_isPrefix_append _ (by simp))).trans hnone
      refine Fallible.Ends.bind (Fallible.Ends.attempt (fun fs' hfs' => ?_) fun _ => trivial)
      change fs₁.write (dst ++ [.normal vmlinux]) btf = some fs' at hfs'
      rw [FileSystem.write, hplain₁.find_concat hreached, Option.bind_some, hgrown.cwd,
        hnone₁] at hfs'
      cases hfs'
      have hdir : fs₁.IsDir (destination fs.cwd dst) := hgrown.cwd ▸ hreached.isDir
      have hput := FileSystem.node_put hdir
        (fun hd => by cases hd.symm.trans hnone₁) (some (.file btf))
      refine Fallible.Ends.pure
        ⟨(Within.of_grown hgrown hstraight).trans (Within.put fs₁ _ _).of_append,
          hplain₁.put hvmlinux (by simp), by simp [hput], fun p hp => ?_⟩
      rw [hput, withVmlinux]
      split
      · rename_i heq
        subst heq
        simp [hnone, hbtf, Bpftool.output]
      · rename_i hne
        rw [Function.update_of_ne (by simpa using hne)]
        exact hgrown.node_of_straight hstraight (not_isPrefix_append _ hp)

theorem dumpKernelBtf_dumped (hplain : fs.Plain names)
    (hdst : ∀ x, .normal x ∈ dst → x ∈ names) (hvmlinux : vmlinux ∈ names)
    (hstraight : ∀ k ∈ way fs.cwd dst, k <+: destination fs.cwd dst ∨ fs.IsDir k) :
    Fallible.Ends (dumpKernelBtf env dst) fs
      (fun _ fs' => Dumped env names (destination fs.cwd dst) fs fs') fun _ => True := by
  refine Fallible.Ends.bind (Fallible.Ends.get ?_)
  split
  · rename_i hexists
    obtain ⟨k, hfind, hsome⟩ := (Option.any_eq_true ..).mp hexists
    have hk := hplain.eq_of_find hfind
    change k = destination fs.cwd (dst ++ [.normal vmlinux]) at hk
    rw [destination_concat] at hk
    exact Fallible.Ends.pure (.of_found hplain (hk ▸ Option.isSome_iff_ne_none.mp hsome))
  · rename_i hexists
    exact writeKernelBtf_dumped hplain hdst hvmlinux hstraight
      (hplain.node_eq_none_of_not_pathExists hstraight hexists)

structure Exported (fs fs' : FileSystem Char C) (ld : Location Char)
    (tree : Location Char → Option (Node Char C)) (done : List (Path Char)) : Prop extends
    Within ld fs fs' where
  tree_eq : ∀ p, fs'.node (ld ++ p) = overlayAll fs done tree p
  sources : ∀ src ∈ done, fs.IsDir (destination fs.cwd src)

variable [EmptyCollection C] {readDir : ReadDir C} {fuel : ℕ}
  {tree : Location Char → Option (Node Char C)}

theorem Exported.copyDir (h : Exported fs fs₁ (destination fs.cwd dst) tree srcs)
    (hread : readDir.IsComplete names) (hplain : fs₁.Plain names)
    (hdst : ∀ x, .normal x ∈ dst → x ∈ names) (hcan : CanOverlay fs src dst) :
    Fallible.Ends (copyDir readDir fuel src dst) fs₁
      (fun _ fs' => fs'.Plain names ∧
        Exported fs fs' (destination fs.cwd dst) tree (srcs ++ [src]))
      fun _ => True := by
  refine (copyDir_overlays hread fuel fs₁ src dst hplain hdst (h.canOverlay hcan)).mono ?_
    fun _ h => h
  rintro _ fs' ⟨hplain', hdir, hover⟩
  rw [h.cwd] at hdir hover
  have hsource := h.node_of_separate hcan.separate
  refine ⟨hplain', h.toWithin.trans hover.toWithin, fun p => ?_, fun src' hmem => ?_⟩
  · rw [hover.overlay, hsource, h.tree_eq, overlayAll_concat]
  · rcases List.mem_append.mp hmem with hmem | hmem
    · exact h.sources src' hmem
    · have hnil := hsource []
      rw [List.append_nil] at hnil
      rw [List.mem_singleton.mp hmem]
      exact hnil.symm.trans hdir

theorem exported_forM (hread : readDir.IsComplete names) (hplain : fs₁.Plain names)
    (hdst : ∀ x, .normal x ∈ dst → x ∈ names) (hwithin : Within (destination fs.cwd dst) fs fs₁)
    (hcan : ∀ src ∈ srcs, CanOverlay fs src dst) :
    Fallible.Ends (srcs.forM fun src => copyDir readDir fuel src dst) fs₁
      (fun _ fs' => fs'.Plain names ∧ Exported fs fs' (destination fs.cwd dst)
        (fun p => fs₁.node (destination fs.cwd dst ++ p)) srcs)
      fun _ => True := by
  refine Fallible.Ends.forM (I := fun done s => s.Plain names ∧ Exported fs s
    (destination fs.cwd dst) (fun p => fs₁.node (destination fs.cwd dst ++ p)) done)
    ⟨hplain, hwithin, fun _ => rfl, fun _ hmem => by cases hmem⟩ ?_
  intro done src after s hsrcs hs
  have hsrc : src ∈ srcs := by
    rw [hsrcs]
    exact List.mem_append_right _ List.mem_cons_self
  exact hs.2.copyDir hread hs.1 hdst (hcan src hsrc)

/-- The headers of the crate come first and the additional ones after them. -/
theorem exportHeaders_eq (readDir : ReadDir C) (fuel : ℕ) (env : Environment Char C)
    (manifestDir : Path Char) (hdrs : Option (List (Path Char))) (dst : Path Char) :
    exportHeaders readDir fuel env manifestDir hdrs dst =
      (do
        let _ ← Fallible.mapError .dumpKernelBtf (dumpKernelBtf env dst)
        (includePathRoot manifestDir :: hdrs.getD []).forM fun src =>
          copyDir readDir fuel src dst) := by
  cases hdrs <;> rfl

/-- A directory that is copied is laid over the other one and stays as it is. The headers
that are exported are laid over what is already there, and over each other in their order. -/
theorem export_overlays (hread : readDir.IsComplete names) (hplain : fs.Plain names)
    (hdst : ∀ x, .normal x ∈ dst → x ∈ names) :
    (∀ fuel src fs', CanOverlay fs src dst →
      Fallible.exec (copyDir readDir fuel src dst) fs = (.ok (), fs') →
        Overlaid fs fs' (destination fs.cwd src) (destination fs.cwd dst) ∧
          ∀ p, fs'.node (destination fs.cwd src ++ p) = fs.node (destination fs.cwd src ++ p)) ∧
    ∀ fuel env manifestDir hdrs fs', vmlinux ∈ names →
      (∀ src ∈ includePathRoot manifestDir :: hdrs.getD [], CanOverlay fs src dst) →
      Fallible.exec (exportHeaders readDir fuel env manifestDir hdrs dst) fs = (.ok (), fs') →
        Within (destination fs.cwd dst) fs fs' ∧
          ∀ p, fs'.node (destination fs.cwd dst ++ p) =
            overlayAll fs (includePathRoot manifestDir :: hdrs.getD [])
              (withVmlinux env fun p => fs.node (destination fs.cwd dst ++ p)) p := by
  constructor
  · intro fuel src fs' hcan hexec
    obtain ⟨_, _, hover⟩ :=
      (copyDir_overlays hread fuel fs src dst hplain hdst hcan).of_exec_eq_ok hexec
    exact ⟨hover, hover.node_of_separate hcan.separate⟩
  · intro fuel env manifestDir hdrs fs' hvmlinux hcan hexec
    have hroot := hcan _ List.mem_cons_self
    rw [exportHeaders_eq] at hexec
    obtain ⟨path, fs₁, hdump, hcopies⟩ := Fallible.exec_bind_eq_ok hexec
    have hdumped := Fallible.Ends.of_exec_eq_ok (Fallible.Ends.mapError
      (dumpKernelBtf_dumped hplain hdst hvmlinux hroot.straight)) hdump
    obtain ⟨_, hexported⟩ :=
      (exported_forM hread hdumped.plain hdst hdumped.toWithin hcan).of_exec_eq_ok hcopies
    refine ⟨hexported.toWithin, fun p => ?_⟩
    rw [hexported.tree_eq]
    refine overlayAll_congr ?_
    by_cases hp : p = []
    · subst hp
      have hdir := hexported.sources _ List.mem_cons_self
      refine .inr ⟨_, List.mem_cons_self, ?_⟩
      rw [List.append_nil, hdir]
      simp
    · exact .inl (hdumped.tree_eq p hp)

def readAmong (names : List Name) : ReadDir C :=
  fun fs l => names.filter fun x => (fs.node (l ++ [x])).isSome

omit [EmptyCollection C] in
theorem isComplete_readAmong (names : List Name) :
    (readAmong names : ReadDir C).IsComplete names := by
  intro fs hplain l x hx
  exact List.mem_filter.mpr ⟨hplain.named l x hx, Option.isSome_iff_ne_none.mpr hx⟩

/-- The names of a crate at the root with one header, which is exported into `/out`. -/
def exportNames : List Name :=
  ["include".toList, "x.h".toList, "out".toList, vmlinux]

def threeHeaders : FileSystem Char (List ℕ) where
  node
    | [] => some .dir
    | [x] => if x ∈ ["include".toList, "more".toList, "out".toList] then some .dir else none
    | [x, y] =>
        if y ≠ "x.h".toList then none
        else if x = "include".toList then some (.file [2])
        else if x = "more".toList then some (.file [3])
        else if x = "out".toList then some (.file [4])
        else none
    | _ => none
  cwd := []
  root_dir := rfl
  cwd_dir := rfl
  parent_dir := by
    intro l x n h
    rcases l with _ | ⟨y, _ | ⟨z, l⟩⟩
    · rfl
    · simp only [List.singleton_append] at h
      split_ifs at h <;> simp [*]
    · simp at h

theorem plain_threeHeaders : threeHeaders.Plain ("more".toList :: exportNames) := by
  constructor
  · intro k t ht
    simp only [threeHeaders] at ht
    split at ht <;> (try split_ifs at ht) <;> simp at ht
  · intro l x hx
    rcases l with _ | ⟨y, _ | ⟨z, l⟩⟩
    · simp only [threeHeaders, List.nil_append, ne_eq, ite_eq_right_iff, reduceCtorEq] at hx
      obtain ⟨hmem, _⟩ := Classical.not_imp.mp hx
      exact (show ["include".toList, "more".toList, "out".toList] ⊆ _ by decide) hmem
    · have hname : x = "x.h".toList := by
        by_contra hne
        exact hx (if_pos hne)
      rw [hname]
      decide
    · simp [threeHeaders] at hx

/-- The header of a directory takes the place of the one that is there, and in an export
that of the crate's header, which is copied before it. -/
theorem export_overlays_replaced :
    (∃ fs', Fallible.exec (copyDir (readAmong ("more".toList :: exportNames)) 1
        [.rootDir, .normal "more".toList] [.rootDir, .normal "out".toList]) threeHeaders =
        (.ok (), fs') ∧ fs'.node ["out".toList, "x.h".toList] = some (.file [3])) ∧
    ∃ fs', Fallible.exec (exportHeaders (readAmong ("more".toList :: exportNames)) 2
        { outDir := none, manifestDir := none, glob := fun _ => none, bpftool := .dumped [1],
          generate := fun _ => none } [.rootDir] (some [[.rootDir, .normal "more".toList]])
        [.rootDir, .normal "out".toList]) threeHeaders = (.ok (), fs') ∧
      fs'.node ["out".toList, "x.h".toList] = some (.file [3]) ∧
      fs'.node ["out".toList, vmlinux] = some (.file [1]) := by
  have hpath : IsPath [.rootDir, .normal "out".toList] := ⟨"/out".toList, by decide +kernel⟩
  have hcan : ∀ src ∈ [includePathRoot [.rootDir], [.rootDir, .normal "more".toList]],
      CanOverlay threeHeaders src [.rootDir, .normal "out".toList] := by
    intro src hsrc
    refine .of_isPath ?_ hpath (by decide)
    rcases List.mem_pair.mp hsrc with rfl | rfl
    · unfold Separate
      decide
    · unfold Separate
      decide
  have hdst : ∀ x, .normal x ∈ ([.rootDir, .normal "out".toList] : Path Char) →
      x ∈ "more".toList :: exportNames := by
    intro x hx
    obtain rfl : x = "out".toList := by simpa using hx
    decide
  obtain ⟨hcopy, hexport⟩ := export_overlays
    (isComplete_readAmong ("more".toList :: exportNames)) plain_threeHeaders hdst
  constructor
  · have hexec : Fallible.exec (copyDir (readAmong ("more".toList :: exportNames)) 1
        [.rootDir, .normal "more".toList] [.rootDir, .normal "out".toList]) threeHeaders =
        (.ok (), _) := Prod.ext (by decide +kernel) rfl
    exact ⟨_, hexec, (hcopy 1 _ _ (hcan _ (by simp)) hexec).1.overlay ["x.h".toList]⟩
  · have hexec : Fallible.exec (exportHeaders (readAmong ("more".toList :: exportNames)) 2
        { outDir := none, manifestDir := none, glob := fun _ => none, bpftool := .dumped [1],
          generate := fun _ => none } [.rootDir] (some [[.rootDir, .normal "more".toList]])
        [.rootDir, .normal "out".toList]) threeHeaders = (.ok (), _) :=
      Prod.ext (by decide +kernel) rfl
    obtain ⟨_, hover⟩ := hexport 2 _ _ _ _ (by decide) hcan hexec
    exact ⟨_, hexec, hover ["x.h".toList], hover [vmlinux]⟩

/-- The directory `/include` is copied to `/out/tmp/..`, where nothing is found before. -/
theorem not_overlaid_detour : ∃ fs' : FileSystem Char (List ℕ),
    Fallible.exec (copyDir (readAmong ("tmp".toList :: exportNames)) 1
      [.rootDir, .normal "include".toList]
      [.rootDir, .normal "out".toList, .normal "tmp".toList, .parentDir])
      (.ofFile ["include".toList] "x.h".toList [2]) = (.ok (), fs') ∧
    Separate ["include".toList] ["out".toList] ∧
    ¬ Overlaid (.ofFile ["include".toList] "x.h".toList [2]) fs'
      (destination [] [.rootDir, .normal "include".toList])
      (destination [] [.rootDir, .normal "out".toList, .normal "tmp".toList, .parentDir]) := by
  have hexec : Fallible.exec (copyDir (readAmong ("tmp".toList :: exportNames)) 1
      [.rootDir, .normal "include".toList]
      [.rootDir, .normal "out".toList, .normal "tmp".toList, .parentDir])
      (.ofFile ["include".toList] "x.h".toList [2]) = (.ok (), _) :=
    Prod.ext (by decide +kernel) rfl
  refine ⟨_, hexec, by unfold Separate; decide, fun hover => ?_⟩
  -- The directory that the path leaves again is made, though no entry has its name.
  cases hover.overlay ["tmp".toList]

end ExportHeaders

end Build

end Xbpf
