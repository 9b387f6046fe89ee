import Xbpf.Files.Plain

/-!
# What files and directories become

Creating directories and copying files keeps everything that is there: directories stay
directories, and nothing else becomes one. So two trees that were laid over each other can
be told to be `Compatible`: where both have something, both or none of it is a directory.
-/

namespace Files

open Runs

namespace FileSystem

variable {α C ε : Type}

/-- What is there stays, and what is a directory is what was one. -/
def KeepsKinds (fs fs' : FileSystem α C) : Prop :=
  ∀ k n, fs.node k = some n → ∃ n', fs'.node k = some n' ∧ (n' = .dir ↔ n = .dir)

/-- Where both trees have something, both or none of it is a directory. -/
def Compatible (tree tree' : Location α → Option (Node α C)) : Prop :=
  ∀ p n n', tree p = some n → tree' p = some n' → (n = .dir ↔ n' = .dir)

theorem eq_of_node {fs fs' : FileSystem α C} (hnode : fs'.node = fs.node)
    (hcwd : fs'.cwd = fs.cwd) : fs' = fs := by
  cases fs
  cases fs'
  cases hnode
  cases hcwd
  rfl

namespace KeepsKinds

variable {fs fs₁ fs' : FileSystem α C} {k : Location α}

theorem refl (fs : FileSystem α C) : KeepsKinds fs fs :=
  fun _ n hn => ⟨n, hn, Iff.rfl⟩

theorem trans (h₁ : KeepsKinds fs fs₁) (h : KeepsKinds fs₁ fs') : KeepsKinds fs fs' := by
  intro k n hn
  obtain ⟨n₁, hn₁, hiff₁⟩ := h₁ k n hn
  obtain ⟨n', hn', hiff⟩ := h k n₁ hn₁
  exact ⟨n', hn', hiff.trans hiff₁⟩

theorem isDir (h : KeepsKinds fs fs') (hk : fs.IsDir k) : fs'.IsDir k := by
  obtain ⟨n', hn', hiff⟩ := h k .dir hk
  rwa [hiff.mpr rfl] at hn'

theorem not_isOccupied (h : KeepsKinds fs fs') (hk : fs'.IsDir k) : ¬ fs.IsOccupied k := by
  rintro ⟨n, hn, hne⟩
  obtain ⟨n', hn', hiff⟩ := h k n hn
  exact hne (hiff.mp (Option.some.inj (hn'.symm.trans hk)))

variable [DecidableEq α]

theorem put {n : Node α C} (hn : fs.node k ≠ none → n ≠ .dir) :
    KeepsKinds fs (fs.put k (some n)) := by
  intro k' m hm
  unfold FileSystem.put
  split
  · rename_i hput
    by_cases hk : k' = k
    · subst hk
      refine ⟨n, Function.update_self .., iff_of_false (hn (by simp [hm])) ?_⟩
      rintro rfl
      exact hput.2.2 hm
    · exact ⟨m, (Function.update_of_ne hk _ _).trans hm, Iff.rfl⟩
  · exact ⟨m, hm, Iff.rfl⟩

theorem createDir {p : Path α} (h : fs.createDir p = some fs') : KeepsKinds fs fs' := by
  obtain ⟨k, _, h⟩ := Option.bind_eq_some_iff.mp h
  split at h
  · cases h
  · rename_i hnone
    cases h
    exact .put fun hne => absurd hnone hne

theorem ensureDir {p : Path α} (h : fs.ensureDir p = some fs') : KeepsKinds fs fs' := by
  rw [FileSystem.ensureDir] at h
  split at h
  · cases h
    exact .refl fs
  · exact .createDir h

theorem write {p : Path α} {c : C} (h : fs.write p c = some fs') : KeepsKinds fs fs' := by
  obtain ⟨k, _, h⟩ := Option.bind_eq_some_iff.mp h
  split at h
  · cases h
  · cases h
    exact .put fun _ => by simp

theorem copy [EmptyCollection C] {p q : Path α} (h : fs.copy p q = some fs') :
    KeepsKinds fs fs' := by
  obtain ⟨c, _, h⟩ := Option.bind_eq_some_iff.mp h
  exact .write h

theorem createDirAllFrom (e : ε) (done p : Path α) :
    Fallible.Ends (FileSystem.createDirAllFrom e done p) fs (fun _ fs' => KeepsKinds fs fs')
      fun _ => True := by
  induction p generalizing done fs with
  | nil => exact Fallible.Ends.pure (.refl fs)
  | cons c p ih =>
      refine Fallible.Ends.bind (Fallible.Ends.attempt (fun fs₁ hfs₁ => ?_) fun _ => trivial)
      exact (ih (done ++ [c])).mono (fun _ _ h => (ensureDir hfs₁).trans h) fun _ h => h

theorem createDirAll (e : ε) (p : Path α) :
    Fallible.Ends (FileSystem.createDirAll e p) fs (fun _ fs' => KeepsKinds fs fs')
      fun _ => True :=
  createDirAllFrom e [] p

end KeepsKinds

section Plain

variable [DecidableEq α] [EmptyCollection C] {names : List (List α)} {fs : FileSystem α C}
  {p q : Path α} {x : List α} {c : C}

theorem Plain.exists_copy (hplain : fs.Plain names) (hp : fs.Reached p) (hq : fs.Reached q)
    (hfile : fs.node (destination fs.cwd p ++ [x]) = some (.file c))
    (hnot : ¬ fs.IsDir (destination fs.cwd q ++ [x])) :
    ∃ fs', fs.copy (p ++ [.normal x]) (q ++ [.normal x]) = some fs' := by
  have hread : fs.read (p ++ [.normal x]) = some c := by
    rw [read, hplain.find_concat hp, Option.bind_some, fileAt_eq_some hfile]
  rw [copy, hread, Option.bind_some, write, hplain.find_concat hq, Option.bind_some]
  split
  · rename_i hdir
    exact absurd hdir hnot
  · exact ⟨_, rfl⟩

end Plain

end FileSystem

end Files
