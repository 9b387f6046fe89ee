import Xbpf.Build.Rebuild

/-!
# Object files

Next to skeletons a builder can produce object files. They are written where the
skeletons would be, and their paths are returned in the order of the sources.
-/

namespace Xbpf

namespace Build

open Files Files.OsAlphabet Runs

variable {α C : Type} [DecidableEq α] [OsAlphabet α]

namespace Builder

def objName (name : Name) : List α :=
  ofText (name ++ ".o".toList)

def compileObject (compile : Path α → Option C) (file out : Path α) : Script α C Unit :=
  match compile file with
  | none => throw (.compile file)
  | some obj => Fallible.attempt (fun fs => fs.write out obj) (.compile file)

/-- The part of a build that compiles one source. -/
def buildObject (self : Builder α) (env : Environment α C) (compile : Path α → Option C)
    (file : Path α) (name : Name) : Script α C (Path α) := do
  let outSubdir ← self.outSubdir env file
  let out := join outSubdir [.normal (objName name)]
  compileObject compile file out
  pure out

def buildObjects (self : Builder α) (env : Environment α C) (compile : Path α → Option C) :
    Script α C (List (Path α)) := do
  let outDir ← self.getOutDir env
  let _ ← dumpKernelBtf env outDir
  let (namedFiles, _) ← self.namedSources env
  namedFiles.mapM fun (file, name) => self.buildObject env compile file name

end Builder

def objectPath (path : Path α) (s : Source α) : Path α :=
  join (join path (Builder.relDir s.1)) [.normal (Builder.objName s.2)]

variable {self : Builder α} {env : Environment α C} {compile : Path α → Option C}
  {path p : Path α} {fs fs' : FileSystem α C}

theorem eq_of_exec_outSubdir (hdir : (self.outDir <|> env.outDir) = some path)
    {file : Path α} (hexec : Fallible.exec (self.outSubdir env file) fs = (.ok p, fs')) :
    p = join path (Builder.relDir file) := by
  rw [Builder.outSubdir, getOutDir_eq hdir, pure_bind] at hexec
  obtain ⟨_, fs₁, _, hpure⟩ := Fallible.exec_bind_eq_ok hexec
  cases hpure
  rfl

theorem eq_of_exec_buildObject (hdir : (self.outDir <|> env.outDir) = some path) {s : Source α}
    (hexec : Fallible.exec (self.buildObject env compile s.1 s.2) fs = (.ok p, fs')) :
    p = objectPath path s := by
  obtain ⟨outSubdir, fs₁, hsub, hrest⟩ := Fallible.exec_bind_eq_ok hexec
  have hout := eq_of_exec_outSubdir hdir hsub
  obtain ⟨_, fs₂, _, hpure⟩ := Fallible.exec_bind_eq_ok hrest
  cases hpure
  rw [hout, objectPath]

/-- The paths of the object files are returned in the order of their sources. -/
theorem eq_of_exec_buildObjects (hdir : (self.outDir <|> env.outDir) = some path)
    {outs : List (Path α)}
    (hexec : Fallible.exec (self.buildObjects env compile) fs = (.ok outs, fs')) :
    outs = (Run.sources ⟨self, env⟩).map (objectPath path) := by
  rw [Builder.buildObjects, getOutDir_eq hdir, pure_bind] at hexec
  obtain ⟨_, fs₁, _, hexec⟩ := Fallible.exec_bind_eq_ok hexec
  obtain ⟨⟨namedFiles, nameCounts⟩, fs₂, hnamed, hexec⟩ := Fallible.exec_bind_eq_ok hexec
  have hsources : namedFiles = Run.sources ⟨self, env⟩ := by
    rw [Builder.namedSources] at hnamed
    cases hglobbed : self.globbed env with
    | none =>
        rw [hglobbed] at hnamed
        cases hnamed
    | some globbed =>
        rw [hglobbed] at hnamed
        cases hnamed
        have heq : Run.sources ⟨self, env⟩ = Builder.named (globbed ++ self.sources) :=
          Run.sources_eq hglobbed
        exact heq.symm
  rw [← hsources]
  exact Fallible.eq_of_exec_mapM (fun _ _ _ _ _ hexec => eq_of_exec_buildObject hdir hexec) hexec

end Build

end Xbpf
