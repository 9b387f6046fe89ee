import Xbpf.Build.Reexport

/-!
# The headers of a workspace

By default the headers are exported into the directory `include` next to the profile
directories of the target directory. The `OUT_DIR` of a crate lies four levels below the
target directory, so the crates of a workspace share the headers, whatever their profile:
once one of them exported the headers, the others only build their sources.
-/

namespace Xbpf

namespace Build

open Files Runs

variable {C : Type} {names : List Name} {fs fs' fs'' : FileSystem Char C}
  {target manifestDir : Path Char} {dirs dirs' : List Name} {env env' : Environment Char C}
  {fuel fuel' : ℕ}

inductive ScriptPanic
  | ofBuild (panic : Panic Char)
  | ofExport (panic : ExportPanic)
  deriving DecidableEq, Repr

def envOutDir (env : Environment Char C) : Script Char C (Path Char) :=
  match env.outDir with
  | some dir => pure dir
  | none => throw .outDirNotSet

def includeName : Name :=
  "include".toList

def defaultHeaderDir (env : Environment Char C) : Script Char C (Path Char) := do
  let dir ← envOutDir env
  pure (join (join (join (join (join dir [.parentDir]) [.parentDir]) [.parentDir])
    [.parentDir]) [.normal includeName])

section Scripts

variable [EmptyCollection C]

def Builder.exportHeaders (self : Builder Char) (readDir : ReadDir C) (fuel : ℕ)
    (env : Environment Char C) (manifestDir : Path Char) :
    Fallible ScriptPanic (FileSystem Char C) Unit := do
  let dir ← match self.outDir with
    | some outDir => pure outDir
    | none => Fallible.mapError .ofBuild (defaultHeaderDir env)
  Fallible.mapError .ofExport (Build.exportHeaders readDir fuel env manifestDir none dir)

def build (readDir : ReadDir C) (fuel : ℕ) (env : Environment Char C) (manifestDir : Path Char) :
    Fallible ScriptPanic (FileSystem Char C) Unit := do
  Builder.new.exportHeaders readDir fuel env manifestDir
  Fallible.mapError .ofBuild (Builder.new.build env)

end Scripts

def headerDir (outDir : Path Char) : Path Char :=
  outDir ++ .replicate 4 .parentDir ++ [.normal includeName]

theorem defaultHeaderDir_eq {outDir : Path Char} (h : env.outDir = some outDir) :
    defaultHeaderDir env = pure (headerDir outDir) := by
  rw [defaultHeaderDir, envOutDir, h]
  simp only [join, headerDir, List.append_assoc, pure_bind]
  rfl

/-- Four levels above an `OUT_DIR` lies the target directory. -/
theorem destination_headerDir (l : Location Char) (target : Path Char) (hlen : dirs.length = 4) :
    destination l (headerDir (target ++ dirs.map .normal)) =
      destination l target ++ [includeName] := by
  rw [headerDir, destination_concat, destination_append, destination_append, destination_names,
    ← hlen, destination_parents]

theorem straight_headerDir {outDir : Path Char} (h : fs.Reached outDir) :
    ∀ k ∈ way fs.cwd (headerDir outDir),
      k <+: destination fs.cwd (headerDir outDir) ∨ fs.IsDir k := by
  intro k hk
  rw [headerDir, way_concat, way_append] at hk
  rcases List.mem_append.mp hk with hk | hk
  · rcases List.mem_append.mp hk with hk | hk
    · exact .inr (h k hk)
    · exact .inr (FileSystem.isDir_of_mem_parents h.isDir hk)
  · rw [List.mem_singleton.mp hk, headerDir, destination_concat]
    exact .inl List.prefix_rfl

section Sharing

variable [EmptyCollection C] {readDir readDir' : ReadDir C}

theorem exec_exportHeaders_new {outDir : Path Char} (h : env.outDir = some outDir) :
    Fallible.exec (Builder.new.exportHeaders readDir fuel env manifestDir) fs =
      Fallible.exec (Fallible.mapError .ofExport
        (exportHeaders readDir fuel env manifestDir none (headerDir outDir))) fs := by
  change Fallible.exec (Fallible.mapError ScriptPanic.ofBuild (defaultHeaderDir env) >>= fun dir =>
    Fallible.mapError .ofExport (exportHeaders readDir fuel env manifestDir none dir)) fs = _
  rw [defaultHeaderDir_eq h]
  rfl

/-- The headers of a crate are exported into a directory next to the profile directories. -/
theorem settled_headerDir (hread : readDir.IsComplete names) (hplain : fs.Plain names)
    (hvmlinux : vmlinux ∈ names) (hinclude : includeName ∈ names) (hlen : dirs.length = 4)
    (hout : env.outDir = some (target ++ dirs.map .normal))
    (hreached : fs.Reached (target ++ dirs.map .normal))
    (hseparate : Separate (destination fs.cwd (includePathRoot manifestDir))
      (destination fs.cwd target ++ [includeName]))
    (hexec : Fallible.exec (Builder.new.exportHeaders readDir fuel env manifestDir) fs =
      (.ok (), fs')) :
    Settled names fuel fs' [includePathRoot manifestDir]
      (destination fs.cwd target ++ [includeName]) ∧
      Within (destination fs.cwd target ++ [includeName]) fs fs' := by
  have hdst := destination_headerDir fs.cwd target hlen
  have hnames : ∀ x, .normal x ∈ headerDir (target ++ dirs.map .normal) → x ∈ names := by
    intro x hx
    rw [headerDir, List.append_assoc] at hx
    rcases List.mem_append.mp hx with hx | hx
    · exact hplain.named_of_reached hreached hx
    · obtain rfl : x = includeName := by simpa using hx
      exact hinclude
  have hcan : ∀ src ∈ includePathRoot manifestDir :: (none : Option (List (Path Char))).getD [],
      CanOverlay fs src (headerDir (target ++ dirs.map .normal)) := by
    intro src hsrc
    rw [List.mem_singleton.mp hsrc]
    exact ⟨by rw [hdst]; exact hseparate, straight_headerDir hreached⟩
  rw [exec_exportHeaders_new hout, Fallible.exec_mapError_eq_ok] at hexec
  rw [← hdst]
  exact settled_of_exec hread hplain hnames hvmlinux hcan hexec

end Sharing

def crateDirs (crate : Name) : List Name :=
  ["debug".toList, "build".toList, crate, "out".toList]

def crateScript (crate : Name) (bpftool : Bpftool (List ℕ)) : Environment Char (List ℕ) where
  outDir := some ([.rootDir, .normal "t".toList] ++ (crateDirs crate).map .normal)
  manifestDir := none
  glob _ := none
  bpftool := bpftool
  generate _ := none

def crateNames : List Name :=
  ["t".toList, "debug".toList, "build".toList, "a".toList, "b".toList, "out".toList, includeName,
    "x.h".toList, vmlinux]

/-- The headers come with the crate `a`. -/
def twoCrates : FileSystem Char (List ℕ) :=
  ((FileSystem.ofFile ("t".toList :: crateDirs "a".toList ++ [includeName]) "x.h".toList [2]).put
    ["t".toList, "debug".toList, "build".toList, "b".toList] (some .dir)).put
    ("t".toList :: crateDirs "b".toList) (some .dir)

theorem plain_twoCrates : twoCrates.Plain crateNames := by
  have hfile : (FileSystem.ofFile ("t".toList :: crateDirs "a".toList ++ [includeName])
      "x.h".toList [2]).Plain crateNames := by
    refine ⟨fun k t => FileSystem.node_ofFile_ne_symlink t, fun l x hx => ?_⟩
    have hmem := (FileSystem.prefix_of_node_ofFile hx).subset
      (List.mem_append_right l List.mem_cons_self)
    have hsubset : "t".toList :: crateDirs "a".toList ++ [includeName] ++ ["x.h".toList] ⊆
        crateNames := by decide
    exact hsubset hmem
  have hb : (FileSystem.put (.ofFile ("t".toList :: crateDirs "a".toList ++ [includeName])
      "x.h".toList [2]) (["t".toList, "debug".toList, "build".toList] ++ ["b".toList])
      (some .dir)).Plain crateNames := hfile.put (by decide) (by simp)
  exact FileSystem.Plain.put (l := ["t".toList, "debug".toList, "build".toList, "b".toList]) hb
    (by decide) (by simp)

end Build

end Xbpf
