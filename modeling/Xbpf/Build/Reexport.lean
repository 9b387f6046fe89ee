import Xbpf.Build.Merging

/-!
# Exporting headers again

A directory that headers were exported into is settled: exporting them into it again, by
whatever path and in whatever order directories are read, changes nothing. The BTF of the
kernel is there by then, so bpftool is not needed any more.
-/

namespace Xbpf

namespace Build

open Files Runs
open FileSystem (KeepsKinds)

variable {C : Type} {names : List Name} {fs fs₁ fs' : FileSystem Char C}
  {ld : Location Char} {src dst : Path Char} {srcs : List (Path Char)} {fuel fuel' : ℕ}
  {env : Environment Char C}

structure Reexportable (fuel : ℕ) (fs fs' : FileSystem Char C) (dst src : Path Char) : Prop where
  nonempty : src ≠ []
  found : fs'.Reached src
  depth : ∀ p, fs.IsDir (destination fs.cwd src ++ p) → p.length < fuel
  shown : Shown fs fs' (destination fs.cwd src) (destination fs.cwd dst)

theorem Reexportable.trans (h : Reexportable fuel fs fs₁ dst src) (hkinds : KeepsKinds fs₁ fs')
    (hcwd : fs'.cwd = fs₁.cwd) : Reexportable fuel fs fs' dst src where
  nonempty := h.nonempty
  found := h.found.of_dirs hcwd fun _ hk => hkinds.isDir hk
  depth := h.depth
  shown := h.shown.trans hkinds

/-- Exporting some headers into a directory would not change it. -/
structure Settled (names : List Name) (fuel : ℕ) (fs : FileSystem Char C)
    (srcs : List (Path Char)) (ld : Location Char) : Prop where
  plain : fs.Plain names
  dir : fs.IsDir ld
  header : fs.node (ld ++ [vmlinux]) ≠ none
  nonempty : ∀ src ∈ srcs, src ≠ []
  found : ∀ src ∈ srcs, fs.Reached src
  separate : ∀ src ∈ srcs, Separate (destination fs.cwd src) ld
  depth : ∀ src ∈ srcs, ∀ p, fs.IsDir (destination fs.cwd src ++ p) → p.length < fuel
  shown : ∀ src ∈ srcs, Shown fs fs (destination fs.cwd src) ld
  tree_eq : ∀ p, overlayAll fs srcs (fun p => fs.node (ld ++ p)) p = fs.node (ld ++ p)

/-- What changed does not concern some headers and the directory they were exported into. -/
structure Spares (names : List Name) (fs fs' : FileSystem Char C) (srcs : List (Path Char))
    (ld : Location Char) : Prop where
  plain : fs'.Plain names
  dirs : ∀ k, fs.IsDir k → fs'.IsDir k
  cwd : fs'.cwd = fs.cwd
  tree : ∀ p, fs'.node (ld ++ p) = fs.node (ld ++ p)
  sources : ∀ src ∈ srcs, ∀ p,
    fs'.node (destination fs.cwd src ++ p) = fs.node (destination fs.cwd src ++ p)

theorem Spares.refl (hplain : fs.Plain names) : Spares names fs fs srcs ld :=
  ⟨hplain, fun _ hk => hk, rfl, fun _ => rfl, fun _ _ _ => rfl⟩

section Overlays

variable {tree : Location Char → Option (Node Char C)} {p : Location Char}

theorem overlayAll_eq_or (fs : FileSystem Char C) (srcs : List (Path Char))
    (tree : Location Char → Option (Node Char C)) (p : Location Char) :
    overlayAll fs srcs tree p = (overlayAll fs srcs (fun _ => none) p).or (tree p) := by
  induction srcs using List.reverseRecOn with
  | nil => rfl
  | append_singleton srcs src ih => rw [overlayAll_concat, overlayAll_concat, ih, Option.or_assoc]

theorem overlayAll_eq_of_sources (h : ∀ src ∈ srcs, ∀ p,
    fs'.node (destination fs'.cwd src ++ p) = fs.node (destination fs.cwd src ++ p)) :
    overlayAll fs' srcs tree p = overlayAll fs srcs tree p := by
  induction srcs using List.reverseRecOn with
  | nil => rfl
  | append_singleton srcs src ih =>
      rw [overlayAll_concat, overlayAll_concat, h src (by simp),
        ih fun src' hsrc' => h src' (List.mem_append_left _ hsrc')]

theorem overlayAll_overlayAll (fs : FileSystem Char C) (srcs : List (Path Char))
    (tree : Location Char → Option (Node Char C)) (p : Location Char) :
    overlayAll fs srcs (overlayAll fs srcs tree) p = overlayAll fs srcs tree p := by
  rw [overlayAll_eq_or, overlayAll_eq_or fs srcs tree, ← Option.or_assoc, Option.or_self]

end Overlays

theorem exec_dumpKernelBtf_of_found (hplain : fs.Plain names) (hdst : fs.Reached dst)
    (hfound : fs.node (destination fs.cwd dst ++ [vmlinux]) ≠ none) :
    Fallible.exec (dumpKernelBtf env dst) fs = (.ok dst, fs) := by
  have hexists : fs.pathExists (join dst [.normal vmlinux]) = true := by
    change (fs.find (dst ++ [.normal vmlinux])).any _ = true
    rw [hplain.find_concat hdst, Option.any_some]
    exact Option.isSome_iff_ne_none.mpr hfound
  change Fallible.exec (if fs.pathExists (join dst [.normal vmlinux]) then pure dst
    else writeKernelBtf env dst) fs = _
  rw [if_pos hexists]
  rfl

section Copies

variable [EmptyCollection C] {readDir readDir' : ReadDir C}
  {tree : Location Char → Option (Node Char C)}

theorem copyDir_reexportable (h : Exported fs fs₁ (destination fs.cwd dst) tree srcs)
    (hread : readDir.IsComplete names) (fuel : ℕ) (hplain : fs₁.Plain names)
    (hdst : ∀ x, .normal x ∈ dst → x ∈ names) (hcan : CanOverlay fs src dst) :
    Fallible.Ends (copyDir readDir fuel src dst) fs₁
      (fun _ fs' => KeepsKinds fs₁ fs' ∧ Reexportable fuel fs fs' dst src) fun _ => True := by
  have hcan₁ := h.canOverlay hcan
  have hsource := h.node_of_separate hcan.separate
  have hopens := copyDir_opens hread fuel hplain hdst hcan₁
  have hover := copyDir_overlays hread fuel fs₁ src dst hplain hdst hcan₁
  refine ((copyDir_keepsKinds readDir fuel fs₁ src dst).and (hopens.and hover)).mono ?_
    fun _ h => h
  rintro _ fs' ⟨hkinds, ⟨hnonempty, hfound, hdepth⟩, _, _, hover⟩
  refine ⟨hkinds, hnonempty, hfound, fun p hp => hdepth p ?_, fun p n hn => ?_⟩
  · rw [h.cwd]
    exact (hsource p).trans hp
  · rw [h.cwd] at hover
    exact hover.shown p n ((hsource p).trans hn)

/-- All of the headers that were exported can be exported again. -/
theorem forM_reexportable (hread : readDir.IsComplete names) (hplain : fs₁.Plain names)
    (hdst : ∀ x, .normal x ∈ dst → x ∈ names) (hwithin : Within (destination fs.cwd dst) fs fs₁)
    (hcan : ∀ src ∈ srcs, CanOverlay fs src dst) :
    Fallible.Ends (srcs.forM fun src => copyDir readDir fuel src dst) fs₁
      (fun _ fs' => fs'.Plain names ∧ Exported fs fs' (destination fs.cwd dst)
        (fun p => fs₁.node (destination fs.cwd dst ++ p)) srcs ∧ KeepsKinds fs₁ fs' ∧
        ∀ src ∈ srcs, Reexportable fuel fs fs' dst src)
      fun _ => True := by
  refine Fallible.Ends.forM (I := fun done s => s.Plain names ∧ Exported fs s
    (destination fs.cwd dst) (fun p => fs₁.node (destination fs.cwd dst ++ p)) done ∧
    KeepsKinds fs₁ s ∧ ∀ src ∈ done, Reexportable fuel fs s dst src)
    ⟨hplain, ⟨hwithin, fun _ => rfl, by simp⟩, .refl fs₁, by simp⟩ ?_
  rintro done src after s hsrcs ⟨hplain', hexported, hkinds, hagain⟩
  have hsrc : src ∈ srcs := by
    rw [hsrcs]
    exact List.mem_append_right _ List.mem_cons_self
  have hreexportable := copyDir_reexportable hexported hread fuel hplain' hdst (hcan src hsrc)
  refine ((hexported.copyDir hread hplain' hdst (hcan src hsrc)).and hreexportable).mono ?_
    fun _ h => h
  rintro _ s' ⟨⟨hplain'', hexported'⟩, hkinds', hlast⟩
  refine ⟨hplain'', hexported', hkinds.trans hkinds', fun src' hmem => ?_⟩
  rcases List.mem_append.mp hmem with hmem | hmem
  · exact (hagain src' hmem).trans hkinds' (hexported'.cwd.trans hexported.cwd.symm)
  · rwa [List.mem_singleton.mp hmem]

/-- What was exported is settled. -/
theorem settled_of_exec (hread : readDir.IsComplete names) (hplain : fs.Plain names)
    (hdst : ∀ x, .normal x ∈ dst → x ∈ names) (hvmlinux : vmlinux ∈ names)
    {manifestDir : Path Char} {hdrs : Option (List (Path Char))}
    (hcan : ∀ src ∈ includePathRoot manifestDir :: hdrs.getD [], CanOverlay fs src dst)
    (hexec : Fallible.exec (exportHeaders readDir fuel env manifestDir hdrs dst) fs =
      (.ok (), fs')) :
    Settled names fuel fs' (includePathRoot manifestDir :: hdrs.getD [])
      (destination fs.cwd dst) ∧ Within (destination fs.cwd dst) fs fs' := by
  have hroot := hcan _ List.mem_cons_self
  rw [exportHeaders_eq] at hexec
  obtain ⟨path, fs₀, hdump, hcopies⟩ := Fallible.exec_bind_eq_ok hexec
  have hdumped := Fallible.Ends.of_exec_eq_ok (Fallible.Ends.mapError
    (dumpKernelBtf_dumped hplain hdst hvmlinux hroot.straight)) hdump
  obtain ⟨hplain', hexported, hkinds, hagain⟩ :=
    (forM_reexportable hread hdumped.plain hdst hdumped.toWithin hcan).of_exec_eq_ok hcopies
  have hsource : ∀ src ∈ includePathRoot manifestDir :: hdrs.getD [], ∀ p,
      fs'.node (destination fs'.cwd src ++ p) = fs.node (destination fs.cwd src ++ p) := by
    intro src hsrc p
    rw [hexported.cwd]
    exact hexported.node_of_separate (hcan src hsrc).separate p
  refine ⟨{ plain := hplain', dir := ?_, header := ?_
            nonempty := fun src hsrc => (hagain src hsrc).nonempty
            found := fun src hsrc => (hagain src hsrc).found
            separate := fun src hsrc => ?_
            depth := fun src hsrc p hp => ?_
            shown := fun src hsrc p n hn => ?_
            tree_eq := fun p => ?_ }, hexported.toWithin⟩
  · have hdir := hexported.sources _ List.mem_cons_self
    obtain ⟨n, hn, hiff⟩ := (hagain _ List.mem_cons_self).shown [] .dir (by
      rwa [List.append_nil])
    rw [List.append_nil, hiff.mpr rfl] at hn
    exact hn
  · obtain ⟨n, hn⟩ := Option.ne_none_iff_exists'.mp hdumped.node_ne_none
    obtain ⟨n', hn', _⟩ := hkinds _ n hn
    rw [hn']
    simp
  · rw [hexported.cwd]
    exact (hcan src hsrc).separate
  · exact (hagain src hsrc).depth p ((hsource src hsrc p).symm.trans hp)
  · exact (hagain src hsrc).shown p n ((hsource src hsrc p).symm.trans hn)
  · rw [overlayAll_eq_of_sources hsource, funext hexported.tree_eq, overlayAll_overlayAll]
    exact (hexported.tree_eq p).symm

omit [EmptyCollection C] in
/-- What is settled stays settled while other things change. -/
theorem Settled.of_spares (h : Settled names fuel fs srcs ld)
    (hspares : Spares names fs fs' srcs ld) : Settled names fuel fs' srcs ld := by
  have hsource : ∀ src ∈ srcs, ∀ p,
      fs'.node (destination fs'.cwd src ++ p) = fs.node (destination fs.cwd src ++ p) := by
    intro src hsrc p
    rw [hspares.cwd]
    exact hspares.sources src hsrc p
  refine { plain := hspares.plain, dir := hspares.dirs _ h.dir, header := ?_
           nonempty := h.nonempty
           found := fun src hsrc => (h.found src hsrc).of_dirs hspares.cwd hspares.dirs
           separate := fun src hsrc => ?_
           depth := fun src hsrc p hp => ?_
           shown := fun src hsrc p n hn => ?_
           tree_eq := fun p => ?_ }
  · rw [hspares.tree]
    exact h.header
  · rw [hspares.cwd]
    exact h.separate src hsrc
  · exact h.depth src hsrc p ((hsource src hsrc p).symm.trans hp)
  · rw [hspares.tree]
    exact h.shown src hsrc p n ((hsource src hsrc p).symm.trans hn)
  · rw [overlayAll_eq_of_sources hsource, funext hspares.tree, h.tree_eq]
    exact (hspares.tree p).symm

/-- Nothing stops headers from being exported into a directory that is settled. -/
theorem Settled.forM (h : Settled names fuel fs srcs (destination fs.cwd dst))
    (hread : readDir.IsComplete names) (hdst : fs.Reached dst) (hfuel : fuel ≤ fuel') :
    Fallible.Yields (srcs.forM fun src => copyDir readDir fuel' src dst) fs
      (fun _ _ => True) fun _ => False := by
  have hnames : ∀ x, .normal x ∈ dst → x ∈ names := fun x => h.plain.named_of_reached hdst
  have hloop : Fallible.Yields (srcs.forM fun src => copyDir readDir fuel' src dst) fs
      (fun _ s => s.Plain names ∧ Within (destination fs.cwd dst) fs s ∧ KeepsKinds fs s)
      fun _ => False := by
    refine Fallible.Yields.forM ⟨h.plain, .refl fs, .refl fs⟩ ?_
    rintro src hsrc s ⟨hplain, hwithin, hkinds⟩
    have hto := hdst.of_dirs hwithin.cwd fun _ hk => hkinds.isDir hk
    have hsource := hwithin.node_of_separate (h.separate src hsrc)
    have hcan : CanOverlay s src dst :=
      ⟨by rw [hwithin.cwd]; exact h.separate src hsrc, fun k hk => .inr (hto k hk)⟩
    have hmerge : CanMerge names s src dst :=
      { hcan with plain := hplain, named := hnames, nonempty := h.nonempty src hsrc
                  found := (h.found src hsrc).of_dirs hwithin.cwd fun _ hk => hkinds.isDir hk
                  free := fun k hk hoccupied =>
                    FileSystem.not_isDir_of_isOccupied hoccupied (hto k hk)
                  compatible := ?_ }
    · have hdepth : ∀ p, s.IsDir (destination s.cwd src ++ p) → p.length < fuel' := by
        intro p hp
        rw [hwithin.cwd] at hp
        exact Nat.lt_of_lt_of_le (h.depth src hsrc p ((hsource p).symm.trans hp)) hfuel
      have hover := copyDir_overlays hread fuel' s src dst hplain hnames hcan
      have hkinds' := copyDir_keepsKinds readDir fuel' s src dst
      refine ((copyDir_merges hread hmerge hdepth).and_ends (hkinds'.and hover)).mono ?_
        fun _ h => h
      rintro _ s' ⟨_, hkinds', hplain', _, hover⟩
      rw [hwithin.cwd] at hover
      exact ⟨hplain', hwithin.trans hover.toWithin, hkinds.trans hkinds'⟩
    · rw [hwithin.cwd]
      have hshown : Shown s s (destination fs.cwd src) (destination fs.cwd dst) :=
        fun p n hn => ((h.shown src hsrc).trans hkinds) p n ((hsource p).symm.trans hn)
      exact hshown.compatible
  exact hloop.mono (fun _ _ _ => trivial) fun _ h => h

/-- Exporting headers into a directory that is settled changes nothing. -/
theorem Settled.exec_exportHeaders {manifestDir : Path Char} {hdrs : Option (List (Path Char))}
    (h : Settled names fuel fs (includePathRoot manifestDir :: hdrs.getD [])
      (destination fs.cwd dst)) (hread : readDir.IsComplete names)
    (hstraight : ∀ k ∈ way fs.cwd dst, k <+: destination fs.cwd dst ∨ fs.IsDir k)
    (hfuel : fuel ≤ fuel') :
    Fallible.exec (exportHeaders readDir fuel' env manifestDir hdrs dst) fs = (.ok (), fs) := by
  have hdst := FileSystem.reached_of_straight hstraight h.dir
  obtain ⟨⟨⟩, fs', hcopies, _⟩ :=
    (h.forM hread hdst hfuel).exists_exec_eq_ok fun _ hfalse => hfalse
  obtain ⟨_, hexported⟩ := (exported_forM hread h.plain
    (fun x => h.plain.named_of_reached hdst) (.refl fs)
    fun src hsrc => ⟨h.separate src hsrc, hstraight⟩).of_exec_eq_ok hcopies
  have heq : fs' = fs := by
    refine FileSystem.eq_of_node (funext fun k => ?_) hexported.cwd
    by_cases hbegins : destination fs.cwd dst <+: k
    · obtain ⟨p, rfl⟩ := hbegins
      rw [hexported.tree_eq, h.tree_eq]
    · by_cases habove : k <+: destination fs.cwd dst
      · obtain ⟨r, hr⟩ := habove
        have hk : fs.IsDir k := fs.isDir_of_isDir_append (hr ▸ h.dir)
        exact (hexported.dirs k hk).trans hk.symm
      · exact hexported.other k hbegins habove
  rw [exportHeaders_eq, Fallible.exec_bind, Fallible.exec_mapError,
    exec_dumpKernelBtf_of_found h.plain hdst h.header]
  exact hcopies.trans (by rw [heq])

end Copies

end Build

end Xbpf
