import Mathlib.Data.List.Basic
import Mathlib.Logic.Function.Basic
import Xbpf.Files.Path

/-!
# A file system with symbolic links

The files form a tree. A place in it is given by the names that lead to it from
the root, and holds a directory, a file or a symbolic link, or nothing. Every
entry lies in a directory, which the structure carries as a law.

A path is followed component by component from a place. A link on the way is
replaced by its target, which is followed from the directory of the link. At
most `maxLinks` links are followed.
-/

namespace Files

variable {α C : Type}

/-- A place in the tree, by the names that lead to it from the root. -/
abbrev Location (α : Type) :=
  List (List α)

def Component.next (l : Location α) : Component α → Location α
  | rootDir => []
  | curDir => l
  | parentDir => l.dropLast
  | normal name => l ++ [name]

inductive Node (α C : Type)
  | dir
  | file (content : C)
  | symlink (target : Path α)

/-- A tree of files, and the directory that relative paths start from. -/
structure FileSystem (α C : Type) where
  node : Location α → Option (Node α C)
  cwd : Location α
  root_dir : node [] = some .dir
  cwd_dir : node cwd = some .dir
  parent_dir : ∀ l x n, node (l ++ [x]) = some n → node l = some .dir

namespace FileSystem

def IsDir (fs : FileSystem α C) (l : Location α) : Prop :=
  fs.node l = some .dir

instance (fs : FileSystem α C) (l : Location α) : Decidable (fs.IsDir l) :=
  match h : fs.node l with
  | some .dir => isTrue h
  | some (.file _) => isFalse fun hdir => by cases h.symm.trans hdir
  | some (.symlink _) => isFalse fun hdir => by cases h.symm.trans hdir
  | none => isFalse fun hdir => by cases h.symm.trans hdir

def IsOccupied (fs : FileSystem α C) (l : Location α) : Prop :=
  ∃ n, fs.node l = some n ∧ n ≠ .dir

theorem not_isDir_of_isOccupied {fs : FileSystem α C} {l : Location α}
    (h : fs.IsOccupied l) : ¬ fs.IsDir l := by
  obtain ⟨n, hn, hne⟩ := h
  exact fun hdir => hne (Option.some.inj (hn.symm.trans hdir))

theorem isDir_or_isOccupied {fs : FileSystem α C} {l : Location α} (h : fs.node l ≠ none) :
    fs.IsDir l ∨ fs.IsOccupied l := by
  obtain ⟨n, hn⟩ := Option.ne_none_iff_exists'.mp h
  by_cases hdir : n = .dir
  · subst hdir
    exact .inl hn
  · exact .inr ⟨n, hn, hdir⟩

theorem isDir_of_append (fs : FileSystem α C) {l : Location α} {x : List α}
    (h : fs.IsDir (l ++ [x])) : fs.IsDir l :=
  fs.parent_dir l x _ h

theorem isDir_of_isDir_append (fs : FileSystem α C) {l k : Location α}
    (h : fs.IsDir (l ++ k)) : fs.IsDir l := by
  induction k generalizing l with
  | nil => rwa [List.append_nil] at h
  | cons x k ih =>
      rw [List.append_cons] at h
      exact fs.isDir_of_append (ih h)

theorem isDir_dropLast (fs : FileSystem α C) {l : Location α} (h : fs.IsDir l) :
    fs.IsDir l.dropLast := by
  rcases List.eq_nil_or_concat l with rfl | ⟨l, x, rfl⟩
  · exact h
  · rw [List.concat_eq_append] at h ⊢
    rw [List.dropLast_concat]
    exact fs.isDir_of_append h

section OfFile

variable [DecidableEq α]

def ofFile (l : Location α) (x : List α) (c : C) : FileSystem α C where
  node k := if k = l ++ [x] then some (.file c) else if k <+: l then some .dir else none
  cwd := []
  root_dir := by simp
  cwd_dir := by simp
  parent_dir := by
    intro k y n h
    split at h
    · rename_i heq
      obtain ⟨rfl, -⟩ := List.append_inj' heq rfl
      simp
    · split at h
      · rename_i hprefix
        have hk : k <+: l := (List.prefix_append k [y]).trans hprefix
        have hne : k ≠ l ++ [x] := by
          rintro rfl
          have hlen := hk.length_le
          rw [List.length_append, List.length_singleton] at hlen
          omega
        rw [if_neg hne, if_pos hk]
      · cases h

variable {l k : Location α} {x : List α} {c : C}

theorem node_ofFile : (ofFile l x c).node k =
    if k = l ++ [x] then some (.file c) else if k <+: l then some .dir else none :=
  rfl

theorem node_ofFile_self : (ofFile l x c).node (l ++ [x]) = some (.file c) :=
  if_pos rfl

theorem prefix_of_node_ofFile (h : (ofFile l x c).node k ≠ none) : k <+: l ++ [x] := by
  rw [node_ofFile] at h
  split at h
  · rename_i heq
    exact heq ▸ List.prefix_rfl
  · split at h
    · rename_i hprefix
      exact hprefix.trans (List.prefix_append l [x])
    · exact absurd rfl h

theorem node_ofFile_ne_symlink (t : Path α) : (ofFile l x c).node k ≠ some (.symlink t) := by
  rw [node_ofFile]
  split
  · simp
  · split <;> simp

end OfFile

section Put

variable [DecidableEq α]

/-- Makes, replaces or removes the entry at a place. The place has to lie in a
directory, and directories stay. -/
def put (fs : FileSystem α C) (k : Location α) (n : Option (Node α C)) : FileSystem α C :=
  if h : k ≠ [] ∧ fs.IsDir k.dropLast ∧ ¬ fs.IsDir k then
    { node := Function.update fs.node k n
      cwd := fs.cwd
      root_dir := by rw [Function.update_of_ne h.1.symm, fs.root_dir]
      cwd_dir := by
        have hne : fs.cwd ≠ k := fun heq => h.2.2 (heq ▸ fs.cwd_dir)
        rw [Function.update_of_ne hne, fs.cwd_dir]
      parent_dir := by
        intro l x m hm
        by_cases hl : l = k
        · subst hl
          rw [Function.update_of_ne (by simp)] at hm
          exact absurd (fs.parent_dir l x m hm) h.2.2
        · rw [Function.update_of_ne hl]
          by_cases hx : l ++ [x] = k
          · subst hx
            simpa [IsDir] using h.2.1
          · rw [Function.update_of_ne hx] at hm
            exact fs.parent_dir l x m hm }
  else fs

theorem node_put {fs : FileSystem α C} {l : Location α} {x : List α}
    (hl : fs.IsDir l) (hx : ¬ fs.IsDir (l ++ [x])) (n : Option (Node α C)) :
    (fs.put (l ++ [x]) n).node = Function.update fs.node (l ++ [x]) n := by
  unfold put
  rw [dif_pos ⟨by simp, by simpa using hl, hx⟩]

@[simp] theorem cwd_put (fs : FileSystem α C) (k : Location α) (n : Option (Node α C)) :
    (fs.put k n).cwd = fs.cwd := by
  unfold put
  split <;> rfl

end Put

/-- How far a path leads without following a link. -/
inductive Walked (α : Type)
  | arrived (l : Location α)
  | redirected (l : Location α) (target rest : Path α)
  | stuck

/-- Follows a path up to the first link. -/
def walk (fs : FileSystem α C) (l : Location α) : Path α → Walked α
  | [] => .arrived l
  | c :: p =>
      if fs.IsDir l then
        match fs.node (c.next l) with
        | some (.symlink target) => .redirected l target p
        | _ => fs.walk (c.next l) p
      else .stuck

def resolveWithin (fs : FileSystem α C) : ℕ → Location α → Path α → Option (Location α)
  | n, l, p =>
      match fs.walk l p, n with
      | .arrived m, _ => some m
      | .redirected m target rest, n + 1 => fs.resolveWithin n m (target ++ rest)
      | .redirected _ _ _, 0 => none
      | .stuck, _ => none
  termination_by structural n => n

/-- The number of links that are followed on the way of one path. -/
def maxLinks : ℕ :=
  40

/-- The place a path leads to, which need not hold anything. -/
def resolve (fs : FileSystem α C) (p : Path α) : Option (Location α) :=
  fs.resolveWithin maxLinks fs.cwd p

def find (fs : FileSystem α C) (p : Path α) : Option (Location α) :=
  if p = [] then none else fs.resolve p

/-- The place of a path whose last component is a name, which is not followed if
it is a link. -/
def entry (fs : FileSystem α C) (p : Path α) : Option (Location α) :=
  match p.getLast? with
  | some (.normal x) =>
      (fs.resolve p.dropLast).bind fun l => if fs.IsDir l then some (l ++ [x]) else none
  | _ => none

def pathExists (fs : FileSystem α C) (p : Path α) : Bool :=
  (fs.find p).any fun k => (fs.node k).isSome

def isDir (fs : FileSystem α C) (p : Path α) : Bool :=
  (fs.find p).any fun k => decide (fs.IsDir k)

def fileAt (fs : FileSystem α C) (k : Location α) : Option C :=
  match fs.node k with
  | some (.file c) => some c
  | _ => none

theorem fileAt_eq_some {fs : FileSystem α C} {k : Location α} {c : C}
    (h : fs.node k = some (.file c)) : fs.fileAt k = some c := by
  rw [fileAt, h]

def read (fs : FileSystem α C) (p : Path α) : Option C :=
  (fs.find p).bind fs.fileAt

/-- The path itself, without following a last link, is something. -/
def symlinkMetadata (fs : FileSystem α C) (p : Path α) : Bool :=
  match p.getLast? with
  | some (.normal _) => (fs.entry p).any fun k => (fs.node k).isSome
  | _ => fs.pathExists p

variable [DecidableEq α]

def createDir (fs : FileSystem α C) (p : Path α) : Option (FileSystem α C) :=
  (fs.entry p).bind fun k =>
    match fs.node k with
    | some _ => none
    | none => some (fs.put k (some .dir))

def symlink (fs : FileSystem α C) (target p : Path α) : Option (FileSystem α C) :=
  if target = [] then none
  else
    (fs.entry p).bind fun k =>
      match fs.node k with
      | some _ => none
      | none => some (fs.put k (some (.symlink target)))

def removeFile (fs : FileSystem α C) (p : Path α) : Option (FileSystem α C) :=
  (fs.entry p).bind fun k =>
    match fs.node k with
    | some (.file _) => some (fs.put k none)
    | some (.symlink _) => some (fs.put k none)
    | _ => none

/-- Writes a file, which is created if there is none. A link is followed. -/
def write (fs : FileSystem α C) (p : Path α) (c : C) : Option (FileSystem α C) :=
  (fs.find p).bind fun k =>
    match fs.node k with
    | some .dir => none
    | _ => some (fs.put k (some (.file c)))

end FileSystem

end Files
