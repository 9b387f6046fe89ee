import Xbpf.Files.Directories

/-!
# What stays

Creating directories and writing files does not change where a path through directories
and links leads. Directories are never removed, and what is written goes through links and
not in their place. This holds whatever else is found in the file system.

A link that leads back to itself can therefore not be read, and stays that way.
-/

namespace Files

open Runs

variable {α C ε : Type}

/-- Directories stay, and links do where `X` does not hold. -/
structure Stays (X : Location α → Prop) (fs fs' : FileSystem α C) : Prop where
  cwd : fs'.cwd = fs.cwd
  dirs : ∀ k, fs.IsDir k → fs'.IsDir k
  links : ∀ k t, ¬ X k → fs.node k = some (.symlink t) → fs'.node k = some (.symlink t)

namespace Leads

variable {fs fs' : FileSystem α C} {via : Location α → Prop} {l m : Location α} {p : Path α}
  {j : ℕ}

theorem node_ne_symlink (h : Leads fs via l p m j) (hl : ∀ t, fs.node l ≠ some (.symlink t))
    (t : Path α) : fs.node m ≠ some (.symlink t) := by
  induction h with
  | nil l => exact hl t
  | next _ _ _ hnode _ ih => exact ih hnode
  | symlink _ _ _ _ _ ih => exact ih hl

theorem isDir_start (h : Leads fs via l p m j) (hm : fs.IsDir m) : fs.IsDir l := by
  cases h with
  | nil => exact hm
  | next _ hdir => exact hdir
  | symlink _ hdir => exact hdir

theorem exists_resolveWithin_eq (h : Leads fs via l p m j) {q : Path α} {n : ℕ}
    {k : Location α} (hk : fs.resolveWithin n l (p ++ q) = some k) :
    ∃ i, i ≤ n ∧ fs.resolveWithin i m q = some k := by
  obtain ⟨j', hj', hlead⟩ := FileSystem.exists_leads hk
  obtain ⟨m', i, i', hi, hfront, hrest⟩ := hlead.split
  rw [h.eq_of_leads hfront]
  exact ⟨i', by omega, hrest.resolveWithin_eq (Nat.le_refl i')⟩

/-- A path to a directory stays one if no link on it is removed. -/
theorem of_stays {X : Location α → Prop} (h : Leads fs via l p m j) (hstays : Stays X fs fs')
    (hX : ∀ k, via k → ¬ X k) (hm : fs.IsDir m) : Leads fs' via l p m j := by
  induction h with
  | nil l => exact .nil l
  | next h₁ hdir h₂ _ hrest ih =>
      have hnext := hstays.dirs _ (hrest.isDir_start hm)
      exact .next h₁ (hstays.dirs _ hdir) h₂ (fun t ht => by cases hnext.symm.trans ht) (ih hm)
  | symlink h₁ hdir h₂ hnode _ ih =>
      exact .symlink h₁ (hstays.dirs _ hdir) h₂ (hstays.links _ _ (hX _ h₂) hnode) (ih hm)

end Leads

theorem FileSystem.node_of_find_eq {fs : FileSystem α C} {p : Path α} {k : Location α}
    (h : fs.find p = some k) (t : Path α) : fs.node k ≠ some (.symlink t) := by
  rw [find] at h
  split at h
  · cases h
  · obtain ⟨j, _, hlead⟩ := exists_leads h
    exact hlead.node_ne_symlink (fun t ht => by cases fs.cwd_dir.symm.trans ht) t

namespace Stays

variable {X : Location α → Prop} {fs fs₁ fs' : FileSystem α C} {p : Path α} {k : Location α}

theorem refl (fs : FileSystem α C) : Stays X fs fs :=
  ⟨rfl, fun _ hk => hk, fun _ _ _ hk => hk⟩

variable [DecidableEq α]

theorem put {n : Option (Node α C)} (hk : ∀ t, fs.node k = some (.symlink t) → X k) :
    Stays X fs (fs.put k n) := by
  unfold FileSystem.put
  split
  · rename_i hput
    refine ⟨rfl, fun k' hk' => ?_, fun k' t hX hk' => ?_⟩
    · have hne : k' ≠ k := fun heq => hput.2.2 (heq ▸ hk')
      exact (Function.update_of_ne hne _ _).trans hk'
    · have hne : k' ≠ k := fun heq => hX (heq ▸ hk t (heq ▸ hk'))
      exact (Function.update_of_ne hne _ _).trans hk'
  · exact refl fs

theorem createDir (h : fs.createDir p = some fs') : Stays X fs fs' := by
  obtain ⟨k, _, hk⟩ := Option.bind_eq_some_iff.mp h
  cases hnode : fs.node k with
  | some n =>
      rw [hnode] at hk
      cases hk
  | none =>
      rw [hnode] at hk
      cases hk
      exact put fun t ht => by cases hnode.symm.trans ht

theorem write {c : C} (h : fs.write p c = some fs') : Stays X fs fs' := by
  obtain ⟨k, hfind, hk⟩ := Option.bind_eq_some_iff.mp h
  split at hk
  · cases hk
  · cases hk
    exact put fun t ht => absurd ht (FileSystem.node_of_find_eq hfind t)

end Stays

section Changes

variable [DecidableEq α] {fs fs' : FileSystem α C} {p : Path α} {l : Location α}

theorem FileSystem.node_put_cases (fs : FileSystem α C) (k l : Location α)
    (n : Option (Node α C)) :
    (fs.put k n).node l = fs.node l ∨ l = k ∧ (fs.put k n).node l = n := by
  unfold put
  split
  · by_cases heq : l = k
    · exact .inr ⟨heq, by rw [heq]; exact Function.update_self k n fs.node⟩
    · exact .inl (Function.update_of_ne heq n fs.node)
  · exact .inl rfl

theorem FileSystem.node_of_createDir (h : fs.createDir p = some fs') {n : Node α C}
    (hl : fs'.node l = some n) (hn : n ≠ .dir) : fs.node l = some n := by
  obtain ⟨k, _, hk⟩ := Option.bind_eq_some_iff.mp h
  split at hk
  · cases hk
  · cases hk
    rcases fs.node_put_cases k l (some .dir) with hsame | ⟨_, hdir⟩
    · exact hsame.symm.trans hl
    · exact absurd (Option.some.inj (hl.symm.trans hdir)) hn

theorem FileSystem.node_of_write {c : C} (h : fs.write p c = some fs') {n : Node α C}
    (hl : fs'.node l = some n) :
    fs.node l = some n ∨ fs.find p = some l ∧ n = .file c := by
  obtain ⟨k, hfind, hk⟩ := Option.bind_eq_some_iff.mp h
  split at hk
  · cases hk
  · cases hk
    rcases fs.node_put_cases k l (some (.file c)) with hsame | ⟨rfl, hfile⟩
    · exact .inl (hsame.symm.trans hl)
    · exact .inr ⟨hfind, Option.some.inj (hl.symm.trans hfile)⟩

/-- What creating one directory keeps is kept by creating all directories of a path. -/
theorem FileSystem.createDirAllFrom_ends {I : FileSystem α C → Prop}
    (hI : ∀ fs p fs', I fs → fs.createDir p = some fs' → I fs') (e : ε) (done p : Path α)
    {fs : FileSystem α C} (h : I fs) :
    Fallible.Ends (createDirAllFrom e done p) fs (fun _ => I) I := by
  induction p generalizing done fs with
  | nil => exact Fallible.Ends.pure h
  | cons c p ih =>
      refine Fallible.Ends.bind (Fallible.Ends.attempt ?_ fun _ => h)
      intro fs₁ h₁
      refine ih (done ++ [c]) ?_
      rw [ensureDir] at h₁
      split at h₁
      · cases h₁
        exact h
      · exact hI fs _ fs₁ h h₁

end Changes

/-- A link to a path that leads back to it cannot be followed. -/
theorem resolveWithin_loop {fs : FileSystem α C} {via : Location α → Prop} {d : Location α}
    {x : List α} {p : Path α} {j : ℕ}
    (hnode : fs.node (d ++ [x]) = some (.symlink (p ++ [.normal x])))
    (hlead : Leads fs via d p d j) (n : ℕ) : fs.resolveWithin n d [.normal x] = none := by
  induction n using Nat.strongRecOn with
  | ind n ih =>
      refine Option.eq_none_iff_forall_ne_some.mpr fun k hk => ?_
      rcases FileSystem.resolveWithin_cons_cases hk with
        ⟨_, ⟨hnot, _⟩ | ⟨i, t, rfl, ht, hrest⟩⟩
      · exact hnot _ hnode
      · cases hnode.symm.trans ht
        rw [List.append_nil] at hrest
        obtain ⟨i', hi', hk'⟩ := hlead.exists_resolveWithin_eq hrest
        rw [ih i' (Nat.lt_succ_of_le hi')] at hk'
        cases hk'

end Files
