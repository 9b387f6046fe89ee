import Xbpf.Build.Objects
import Xbpf.Build.Repetition

/-!
# What is compiled

Builds and builds of object files share an output directory. An object is never
written through a link, since links have the names of skeletons, so that it is
where its path says. Two sources may have one object. It is then that of the last
of them, and nothing else that was found is changed.
-/

namespace Xbpf

namespace Build

open Files Runs

variable {α C : Type} [DecidableEq α] [OsAlphabet α] {path : Path α} {d : Location α}
  {fs₀ fs fs' : FileSystem α C}
  {compile : Path α → Option C} {s t : Source α}

def object (s : Source α) : Option (Location α) :=
  (artifactDir s).map fun m => m ++ [Builder.objName s.2]

omit [DecidableEq α] in
theorem objName_ne_skelName (name name' : Name) :
    (Builder.objName name : List α) ≠ Builder.skelName name' := by
  intro h
  have hlast := congrArg List.getLast? (ofText_injective h)
  have hobj : ".o".toList.getLast? = some 'o' := by decide
  have hskel : ".skel.rs".toList.getLast? = some 's' := by decide
  rw [List.getLast?_append, List.getLast?_append, hobj, hskel, Option.some_or,
    Option.some_or] at hlast
  exact absurd hlast (by decide)

omit [DecidableEq α] in
theorem Tidy.reaches_objName (h : Tidy path d True fs) (m : Location α) (name : Name) :
    Reaches path d fs m (Builder.objName name) m := by
  obtain ⟨w, hw⟩ := h.exists_reaches m (Builder.objName name)
  cases hw with
  | here hnode => exact .here hnode
  | linked _ hx => exact absurd hx (objName_ne_skelName _ _)

/-- What compiling a source changes: directories are created, and the object is written. -/
def Compiled (path : Path α) (d : Location α) (fs fs' : FileSystem α C) (s : Source α)
    (m : Location α) (c : C) : Prop :=
  ∃ fs₁, Grown d fs fs₁ (trail [] (Builder.relDir s.1)) ∧
    Wrote path d fs₁ fs' m (Builder.objName s.2) c m

section Parts

variable {self : Builder α} {env : Environment α C}

/-- A source is compiled, or the output directory stays one. -/
theorem Tidy.buildObject (h : Tidy path d True fs) (hdir : (self.outDir <|> env.outDir) = some path)
    {m : Location α} (hm : artifactDir s = some m) :
    Fallible.Ends (self.buildObject env compile s.1 s.2) fs
      (fun _ fs' => (Tidy path d True fs' ∧ KeepsOccupied fs fs') ∧
        ∃ c, compile s.1 = some c ∧ Compiled path d fs fs' s m c)
      (fun fs' => Tidy path d True fs' ∧ KeepsOccupied fs fs') := by
  refine Fallible.Ends.bind ((h.outSubdir hdir hm).mono ?_ fun _ hstopped => hstopped.1)
  rintro _ fs₁ ⟨rfl, ⟨h₁, hkeeps₁⟩, hgrown⟩
  refine Fallible.Ends.bind ?_
  rw [Builder.compileObject]
  cases hcompile : compile s.1 with
  | none => exact Fallible.Ends.throw ⟨h₁, hkeeps₁⟩
  | some c =>
      refine Fallible.Ends.attempt ?_ fun _ => ⟨h₁, hkeeps₁⟩
      intro fs' hwrite
      obtain ⟨w, hwrote⟩ := h₁.wrote_of_write hm hgrown.dirs hwrite
      cases hwrote.reaches.eq_of_reaches (h₁.reaches_objName m s.2)
      exact Fallible.Ends.pure ⟨⟨hwrote.tidy h₁, hkeeps₁.trans hwrote.keepsOccupied⟩, c,
        rfl, fs₁, hgrown, hwrote⟩

end Parts

/-- How far a build of object files that started from `fs₀` has come: the last source of
each object is compiled, and the rest is as it was. -/
structure Objects (path : Path α) (d : Location α) (compile : Path α → Option C)
    (fs₀ : FileSystem α C) (done : List (Source α)) (fs : FileSystem α C) : Prop where
  tidy : Tidy path d True fs
  keeps : KeepsOccupied fs₀ fs
  dirs : ∀ s ∈ done, ∀ k ∈ trail [] (Builder.relDir s.1), fs.IsDir (d ++ k)
  objs : ∀ before s after, done = before ++ s :: after → (∀ t ∈ after, object t ≠ object s) →
    ∃ c m, compile s.1 = some c ∧ artifactDir s = some m ∧
      fs.node (d ++ (m ++ [Builder.objName s.2])) = some (.file c)
  same : ∀ k n, fs₀.node k = some n → (∀ s ∈ done, some k ≠ (object s).map fun l => d ++ l) →
    fs.node k = some n

namespace Compiled

variable {m : Location α} {c : C}

theorem isDir (h : Compiled path d fs fs' s m c) {k : Location α} (hk : fs.IsDir k) :
    fs'.IsDir k := by
  obtain ⟨fs₁, hgrown, hwrote⟩ := h
  exact hwrote.isDir_iff.mpr (hgrown.isDir hk)

theorem dirs (h : Compiled path d fs fs' s m c) :
    ∀ k ∈ trail [] (Builder.relDir s.1), fs'.IsDir (d ++ k) := by
  obtain ⟨fs₁, hgrown, hwrote⟩ := h
  exact fun k hk => hwrote.isDir_iff.mpr (hgrown.dirs k hk)

theorem node_self (h : Compiled path d fs fs' s m c) :
    fs'.node (d ++ (m ++ [Builder.objName s.2])) = some (.file c) := by
  obtain ⟨fs₁, hgrown, hwrote⟩ := h
  exact hwrote.node_self

theorem node_eq_some (h : Compiled path d fs fs' s m c) {k : Location α} {n : Node α C}
    (hk : fs.node k = some n) (hne : k ≠ d ++ (m ++ [Builder.objName s.2])) :
    fs'.node k = some n := by
  obtain ⟨fs₁, hgrown, hwrote⟩ := h
  rw [hwrote.node, Function.update_of_ne hne]
  by_cases hdir : n = .dir
  · subst hdir
    exact hgrown.isDir hk
  · exact hgrown.node_eq_some hk hdir

end Compiled

theorem object_eq {m : Location α} (hm : artifactDir s = some m) :
    object s = some (m ++ [Builder.objName s.2]) := by
  rw [object, hm, Option.map_some]

namespace Objects

variable {done : List (Source α)}

theorem start (h : Tidy path d True fs) : Objects path d compile fs [] fs where
  tidy := h
  keeps := .refl fs
  dirs := by simp
  objs := by simp
  same := fun _ _ hk _ => hk

/-- One more source is compiled. -/
theorem step (h : Objects path d compile fs₀ done fs) {m : Location α} {c : C}
    (hm : artifactDir t = some m) (hc : compile t.1 = some c)
    (hcompiled : Compiled path d fs fs' t m c) (htidy : Tidy path d True fs')
    (hkeeps : KeepsOccupied fs fs') : Objects path d compile fs₀ (done ++ [t]) fs' where
  tidy := htidy
  keeps := h.keeps.trans hkeeps
  dirs := by
    intro s hs k hk
    rcases List.mem_append.mp hs with hs | hs
    · exact hcompiled.isDir (h.dirs s hs k hk)
    · rw [List.mem_singleton.mp hs] at hk
      exact hcompiled.dirs k hk
  objs := by
    intro before s after hsplit hlast
    rcases List.eq_nil_or_concat after with rfl | ⟨after, u, rfl⟩
    · obtain ⟨rfl, hst⟩ := List.append_inj' hsplit rfl
      cases hst
      exact ⟨c, m, hc, hm, hcompiled.node_self⟩
    · rw [List.concat_eq_append, ← List.cons_append, ← List.append_assoc] at hsplit
      obtain ⟨rfl, htu⟩ := List.append_inj' hsplit rfl
      cases htu
      obtain ⟨c', m', hc', hm', hnode⟩ :=
        h.objs before s after rfl fun t ht => hlast t (by simp [ht])
      refine ⟨c', m', hc', hm', hcompiled.node_eq_some hnode fun heq => ?_⟩
      apply hlast t (by simp)
      rw [object_eq hm, object_eq hm', List.append_cancel_left heq]
  same := by
    intro k n hk hne
    have hold := h.same k n hk fun s hs => hne s (List.mem_append_left _ hs)
    refine hcompiled.node_eq_some hold fun heq => ?_
    apply hne t (by simp)
    rw [object_eq hm, heq, Option.map_some]

theorem read_objectPath (h : Objects path d compile fs₀ done fs) {before after : List (Source α)}
    (hsplit : done = before ++ s :: after) (hlast : ∀ t ∈ after, object t ≠ object s) :
    ∃ c, compile s.1 = some c ∧ fs.read (objectPath path s) = some c := by
  obtain ⟨c, m, hc, hm, hnode⟩ := h.objs before s after hsplit hlast
  have hread := (h.tidy.reaches_objName m s.2).read h.tidy hm (h.dirs s (by simp [hsplit]))
  refine ⟨c, hc, ?_⟩
  rw [objectPath, join_of_descend hm]
  refine hread.trans ?_
  rw [List.append_assoc]
  exact FileSystem.fileAt_eq_some hnode

end Objects

section Works

variable {env : Environment α C} {run : Run α C}

/-- Whatever was found stays while the BTF is dumped. -/
theorem IsLeft.dumpKernelBtf (h : IsLeft path d fs) :
    Fallible.Ends (dumpKernelBtf env path) fs
      (fun _ fs' => Tidy path d True fs' ∧ fs'.IsOccupied (d ++ [vmlinux]) ∧
        ∀ l n, fs.node (d ++ l) = some n → fs'.node (d ++ l) = some n)
      (IsLeft path d) := by
  by_cases hheader : fs.node (d ++ [vmlinux]) = none
  · refine (h.tidy.dumpKernelBtf env).mono ?_ fun _ hstopped => hstopped.1 ▸ h
    rintro _ fs' ⟨⟨htidy, _⟩, hsame, hoccupied⟩
    refine ⟨htidy, hoccupied h.header, ?_⟩
    intro l n hn
    rw [hsame l, hn]
    rintro rfl
    cases hn.symm.trans hheader
  · have hoccupied := (FileSystem.isDir_or_isOccupied hheader).resolve_left h.header
    exact Fallible.Ends.of_exec (exec_dumpKernelBtf_of_tidy h.tidy hheader)
      ⟨h.tidy, hoccupied, fun _ _ hn => hn⟩

/-- A build of object files that returns has compiled all of its sources, and one that
panics leaves an output directory that can be built into. -/
theorem IsLeft.buildObjects (h : IsLeft path d fs) (hdir : run.outDir = some path)
    (hinside : ∀ s ∈ run.sources, artifactDir s ≠ none) :
    Fallible.Ends (run.builder.buildObjects run.env compile) fs
      (fun _ fs' => IsLeft path d fs' ∧ ∃ fs₁, Objects path d compile fs₁ run.sources fs' ∧
        ∀ l n, fs.node (d ++ l) = some n → fs₁.node (d ++ l) = some n)
      (IsLeft path d) := by
  rw [Builder.buildObjects, getOutDir_eq hdir, pure_bind]
  refine Fallible.Ends.bind (h.dumpKernelBtf.mono ?_ fun _ h => h)
  rintro _ fs₁ ⟨h₁, hheader, hfound⟩
  have hleft : ∀ fs₂, Tidy path d True fs₂ → KeepsOccupied fs₁ fs₂ → IsLeft path d fs₂ :=
    fun fs₂ h₂ hkeeps => ⟨h₂, FileSystem.not_isDir_of_isOccupied (hkeeps _ hheader)⟩
  cases hglobbed : run.builder.globbed run.env with
  | none =>
      refine Fallible.Ends.bind ?_
      rw [Builder.namedSources, hglobbed]
      exact Fallible.Ends.throw (hleft fs₁ h₁ (.refl fs₁))
  | some globbed =>
      have hnamed : (run.builder.namedSources run.env : Script α C _) =
          pure (run.sources, Builder.nameCount run.sources) := by
        rw [Builder.namedSources, hglobbed, Run.sources_eq hglobbed]
      rw [hnamed, pure_bind]
      refine (Fallible.Ends.mapM (I := fun done => Objects path d compile fs₁ done)
        (.start h₁) ?_).mono (fun _ fs' hdone => ⟨hleft fs' hdone.tidy hdone.keeps, fs₁,
          hdone, hfound⟩) fun _ h => h
      intro before s after fs₂ hsplit h₂
      obtain ⟨m, hm⟩ := Option.ne_none_iff_exists'.mp (hinside s (by simp [hsplit]))
      refine (h₂.tidy.buildObject hdir hm).mono ?_ ?_
      · rintro _ fs' ⟨⟨htidy, hkeeps⟩, c, hc, hcompiled⟩
        exact h₂.step hm hc hcompiled htidy hkeeps
      · rintro fs' ⟨htidy, hkeeps⟩
        exact hleft fs' htidy (h₂.keeps.trans hkeeps)

def Works (path : Path α) (d : Location α) (fs fs' : FileSystem α C) : Prop :=
  Rebuilds path d fs fs' ∨ ∃ (run : Run α C) (compile : Path α → Option C),
    run.outDir = some path ∧ (∀ s ∈ run.sources, artifactDir s ≠ none) ∧
      (Fallible.exec (run.builder.buildObjects run.env compile) fs).2 = fs'

theorem Works.isLeft (hworks : Works path d fs fs') (h : IsLeft path d fs) :
    IsLeft path d fs' := by
  rcases hworks with hrebuilds | ⟨run, compile, hdir, hinside, rfl⟩
  · exact hrebuilds.isLeft h
  · exact ((h.buildObjects hdir hinside).mono (fun _ _ hdone => hdone.1) fun _ h => h).left

/-- The objects whose paths are returned are read there, each as it was compiled from the
last source that has it, whatever was built before. Whatever else was found in the output
directory is still there. -/
theorem objects_are_read (hempty : IsEmptyOutDir path d fs₀)
    (hworks : Relation.ReflTransGen (Works path d) fs₀ fs) (hdir : run.outDir = some path)
    (hinside : ∀ s ∈ run.sources, artifactDir s ≠ none) {outs : List (Path α)}
    (hexec : Fallible.exec (run.builder.buildObjects run.env compile) fs = (.ok outs, fs')) :
    outs = run.sources.map (objectPath path) ∧
    (∀ before s after, run.sources = before ++ s :: after →
      (∀ t ∈ after, object t ≠ object s) →
        ∃ c, compile s.1 = some c ∧ fs'.read (objectPath path s) = some c) ∧
    ∀ l n, fs.node (d ++ l) = some n → (∀ s ∈ run.sources, object s ≠ some l) →
      fs'.node (d ++ l) = some n := by
  have h : IsLeft path d fs :=
    Runs.invariant (fun _ _ h hstep => hstep.isLeft h) hempty.isLeft hworks
  obtain ⟨_, fs₁, hobjects, hfound⟩ := (h.buildObjects hdir hinside).of_exec_eq_ok hexec
  refine ⟨eq_of_exec_buildObjects hdir hexec, ?_, ?_⟩
  · intro before s after hsplit hlast
    exact hobjects.read_objectPath hsplit hlast
  · intro l n hn hother
    refine hobjects.same _ n (hfound l n hn) fun s hs heq => ?_
    apply hother s hs
    cases hplace : object s with
    | none =>
        rw [hplace] at heq
        cases heq
    | some l' =>
        rw [hplace, Option.map_some, Option.some.injEq] at heq
        rw [List.append_cancel_left heq]

end Works

section Example

/-- The objects of two sources in `/out`, of which the second one has the place of the
first one. -/
theorem objects_are_read_shared : ∃ outs fs',
    Fallible.exec ((buildOf [fooIn ["a"], .normal "x".toList :: fooIn ["a"]]).builder.buildObjects
      (buildOf []).env some) ((buildOf [fooIn ["a"]]).exec emptyOut).2 = (.ok outs, fs') ∧
    outs.map fs'.read = List.replicate 2 (some (.normal "x".toList :: fooIn ["a"])) := by
  have hdir : (buildOf [fooIn ["a"], .normal "x".toList :: fooIn ["a"]]).outDir =
      some [.rootDir, .normal "out".toList] := rfl
  have hbuilt : IsUnobstructed [.rootDir, .normal "out".toList] ["out".toList] emptyOut
      (buildOf [fooIn ["a"]]) :=
    ⟨rfl, ⟨by decide +kernel, by decide +kernel, by decide +kernel⟩,
      ⟨by decide +kernel, by decide +kernel⟩⟩
  obtain ⟨fs', hexec⟩ : ∃ fs', Fallible.exec
      ((buildOf [fooIn ["a"], .normal "x".toList :: fooIn ["a"]]).builder.buildObjects
        (buildOf []).env some) ((buildOf [fooIn ["a"]]).exec emptyOut).2 =
      (.ok (List.replicate 2 (objectPath [.rootDir, .normal "out".toList]
        (fooIn ["a"], "foo".toList))), fs') := ⟨_, Prod.ext (by decide +kernel) rfl⟩
  obtain ⟨_, hread, _⟩ := objects_are_read isEmptyOutDir_emptyOut
    (.single (.inl ⟨_, hbuilt, rfl⟩)) hdir (by decide +kernel) hexec
  obtain ⟨c, hc, hlast⟩ := hread [(fooIn ["a"], "foo".toList)]
    (.normal "x".toList :: fooIn ["a"], "foo".toList) [] (by decide +kernel) (by simp)
  cases hc
  refine ⟨_, fs', hexec, ?_⟩
  rw [List.map_replicate]
  exact congrArg (List.replicate 2) hlast

end Example

end Build

end Xbpf
