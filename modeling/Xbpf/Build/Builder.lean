import Xbpf.Files.Directories
import Xbpf.Files.OsStr

/-!
# The builder

A build dumps the BTF of the kernel into the output directory, unless it is
there already, and then treats its sources one by one. For each it creates a
directory below the output directory, writes the skeleton that is generated from
the source there, and links the skeleton into the output directory if no other
source has its name.

What a build script finds around it is an `Environment`: the variables that
Cargo sets, the files a pattern matches, what bpftool prints, and the skeleton
that is generated from each source, if it compiles.
-/

namespace Xbpf

namespace Build

open Files Files.OsAlphabet Runs

/-- The text of a name, of a pattern or of a path. -/
abbrev Name :=
  List Char

inductive Bpftool (C : Type)
  | missing
  | failed
  | dumped (btf : C)

structure Environment (α C : Type) where
  /-- `OUT_DIR` -/
  outDir : Option (Path α)
  /-- `CARGO_MANIFEST_DIR` -/
  manifestDir : Option (List α)
  /-- The files a pattern matches, with `none` for one that cannot be read, unless
  the pattern is invalid. -/
  glob : Name → Option (List (Option (Path α)))
  bpftool : Bpftool C
  generate : Path α → Option C

inductive Panic (α : Type)
  | outDirNotSet
  | invalidGlobPattern (pattern : Name)
  | bpftoolNotFound
  | btfDumpFailed
  | createIncludeDirectory (dir : Path α)
  | writeVmlinux (path : Path α)
  | createOutputDirectory (dir : Path α)
  | compile (file : Path α)
  | removeStaleSymlink (link : Path α)
  deriving DecidableEq, Repr

abbrev Script (α C R : Type) :=
  Fallible (Panic α) (FileSystem α C) R

variable {α C : Type} [DecidableEq α] [OsAlphabet α]

def vmlinux : List α :=
  ofText "vmlinux.h".toList

def writeKernelBtf (env : Environment α C) (dir : Path α) : Script α C (Path α) :=
  match env.bpftool with
  | .missing => throw .bpftoolNotFound
  | .failed => throw .btfDumpFailed
  | .dumped btf => do
      let vmlinuxPath := join dir [.normal vmlinux]
      FileSystem.createDirAll (.createIncludeDirectory dir) dir
      Fallible.attempt (fun fs => fs.write vmlinuxPath btf) (.writeVmlinux vmlinuxPath)
      pure dir

def dumpKernelBtf (env : Environment α C) (dir : Path α) : Script α C (Path α) := do
  let fs ← get
  if fs.pathExists (join dir [.normal vmlinux]) then pure dir
  else writeKernelBtf env dir

structure Builder (α : Type) where
  pattern : Name
  sources : List (Path α)
  outDir : Option (Path α)

namespace Builder

def new : Builder α where
  pattern := "src/**/*.bpf.c".toList
  sources := []
  outDir := none

def sourcesWithSuffix (self : Builder α) (suffix : Name) : Builder α :=
  { self with pattern := "src/**/*.".toList ++ suffix }

def source (self : Builder α) (file : Path α) : Builder α :=
  { self with sources := self.sources ++ [file] }

def setOutDir (self : Builder α) (dir : Path α) : Builder α :=
  { self with outDir := some dir }

def getOutDir (self : Builder α) (env : Environment α C) : Script α C (Path α) :=
  match self.outDir <|> env.outDir with
  | some dir => pure dir
  | none => throw .outDirNotSet

/-- The directory of a path relative to the first `src` in it. -/
def pathRelativeToSrc (path : Path α) : Option (Path α) :=
  match path.dropWhile fun c => c.asOsStr ≠ ofText "src".toList with
  | [] => none
  | _ :: rest => parent rest

/-- The files that the pattern matches, which is relative to the crate root and has to
be a text with it. There are none outside of a build script. -/
def globbed (self : Builder α) (env : Environment α C) : Option (List (Path α)) :=
  match env.manifestDir with
  | none => some []
  | some manifestDir =>
      (toStr (push manifestDir (ofText self.pattern))).bind fun pattern =>
        (env.glob pattern).map fun files => files.filterMap id

def named (files : List (Path α)) : List (Path α × Name) :=
  files.filterMap fun file => (filePrefix file).map fun name => (file, toStringLossy name)

def nameCount (namedFiles : List (Path α × Name)) (name : Name) : ℕ :=
  (namedFiles.map Prod.snd).count name

def namedSources (self : Builder α) (env : Environment α C) :
    Script α C (List (Path α × Name) × (Name → ℕ)) :=
  match self.globbed env with
  | none => throw (.invalidGlobPattern self.pattern)
  | some globbed =>
      let namedFiles := named (globbed ++ self.sources)
      pure (namedFiles, nameCount namedFiles)

/-- The directory of the artifacts of a source, relative to the output directory. -/
def relDir (file : Path α) : Path α :=
  (pathRelativeToSrc file).getD []

def outSubdir (self : Builder α) (env : Environment α C) (file : Path α) :
    Script α C (Path α) := do
  let outDir ← self.getOutDir env
  let outSubdir := join outDir (relDir file)
  FileSystem.createDirAll (.createOutputDirectory outSubdir) outSubdir
  pure outSubdir

def skelName (name : Name) : List α :=
  ofText (name ++ ".skel.rs".toList)

def buildAndGenerate (env : Environment α C) (file out : Path α) : Script α C Unit :=
  match env.generate file with
  | none => throw (.compile file)
  | some skel => Fallible.attempt (fun fs => fs.write out skel) (.compile file)

/-- Removes what is in the place of a link. -/
def removeStale (link : Path α) : Script α C Unit := do
  let fs ← get
  if fs.symlinkMetadata link then
    Fallible.attempt (fun fs => fs.removeFile link) (.removeStaleSymlink link)
  else pure ()

/-- Links a skeleton into the output directory. A link that cannot be made only
raises a warning. -/
def linkSkeleton (out link : Path α) : Script α C Unit := do
  removeStale link
  Fallible.attempt? fun fs => fs.symlink out link

/-- The part of a build that treats one source. -/
def buildSource (self : Builder α) (env : Environment α C) (outDir : Path α)
    (nameCounts : Name → ℕ) (file : Path α) (name : Name) : Script α C Unit := do
  let outSubdir ← self.outSubdir env file
  let out := join outSubdir [.normal (skelName name)]
  buildAndGenerate env file out
  if nameCounts name = 1 ∧ outSubdir ≠ outDir then
    linkSkeleton out (join outDir [.normal (skelName name)])
  else pure ()

def build (self : Builder α) (env : Environment α C) : Script α C Unit := do
  let outDir ← self.getOutDir env
  let _ ← dumpKernelBtf env outDir
  let (namedFiles, nameCounts) ← self.namedSources env
  namedFiles.forM fun (file, name) => self.buildSource env outDir nameCounts file name

end Builder

end Build

end Xbpf
