import Xbpf.Files.Stays

/-!
# Entries

What a path leads to is reached through the entry that its last name is in a directory.
In a tree without links a path of names leads to the place of the same names.
-/

namespace Files

variable {α C : Type} {fs : FileSystem α C} {l k : Location α} {p : Path α} {x : List α}

namespace FileSystem

theorem symlinkMetadata_concat (p : Path α) (x : List α) :
    fs.symlinkMetadata (p ++ [.normal x]) =
      (fs.entry (p ++ [.normal x])).any fun k => (fs.node k).isSome := by
  rw [symlinkMetadata, List.getLast?_concat]

/-- An entry lies in the directory that the path before its name leads to. -/
theorem entry_concat_eq_some (p : Path α) (x : List α) (k : Location α) :
    fs.entry (p ++ [.normal x]) = some k ↔
      ∃ l, fs.resolve p = some l ∧ fs.IsDir l ∧ l ++ [x] = k := by
  simp only [entry, List.getLast?_concat, List.dropLast_concat, Option.bind_eq_some_iff,
    Option.ite_none_right_eq_some, Option.some.injEq]

/-- A file that can be read by its name is an entry. -/
theorem symlinkMetadata_of_read (h : (fs.read (p ++ [.normal x])).isSome) :
    fs.symlinkMetadata (p ++ [.normal x]) = true := by
  obtain ⟨c, hc⟩ := Option.isSome_iff_exists.mp h
  obtain ⟨k, hfind, hfile⟩ := Option.bind_eq_some_iff.mp hc
  rw [find, if_neg (by simp)] at hfind
  obtain ⟨j, hj, hlead⟩ := exists_leads hfind
  obtain ⟨m, i, i', hi, hfront, hlast⟩ := hlead.split
  have hdir := hlast.isDir_of_ne_nil (by simp)
  have hentry : fs.entry (p ++ [.normal x]) = some (m ++ [x]) :=
    hfront.entry_eq (by omega) hdir x
  rw [symlinkMetadata_concat, hentry, Option.any_some]
  rw [Option.isSome_iff_ne_none]
  intro hnone
  cases hlast with
  | next _ _ _ _ hend =>
      cases hend
      unfold fileAt at hfile
      rw [Component.next, hnone] at hfile
      cases hfile
  | symlink _ _ _ hnode => cases hnone.symm.trans hnode

section Names

variable {names : List (List α)}

theorem leads_rootDir_names (h : fs.IsDir names) :
    Leads fs (fun _ => True) fs.cwd (.rootDir :: names.map .normal) names 0 := by
  refine .next trivial fs.cwd_dir trivial (fun t ht => ?_) (Leads.names (l := []) h)
  cases fs.root_dir.symm.trans ht

theorem symlinkMetadata_of_node (h : fs.node (names ++ [x]) ≠ none) :
    fs.symlinkMetadata (.rootDir :: names.map .normal ++ [.normal x]) = true := by
  obtain ⟨n, hn⟩ := Option.ne_none_iff_exists'.mp h
  have hdir : fs.IsDir names := fs.parent_dir names x n hn
  rw [symlinkMetadata_concat, (leads_rootDir_names hdir).entry_eq (Nat.zero_le _) hdir x,
    Option.any_some, hn]
  rfl

theorem read_of_node {c : C} (h : fs.node (names ++ [x]) = some (.file c)) :
    fs.read (.rootDir :: names.map .normal ++ [.normal x]) = some c := by
  have hdir : fs.IsDir names := fs.parent_dir names x _ h
  have hlead := (leads_rootDir_names hdir).append (Leads.name hdir (x := x) fun t ht => by
    cases h.symm.trans ht)
  rw [read, hlead.find_eq (Nat.zero_le _) (by simp), Option.bind_some, fileAt_eq_some h]

/-- Without links, nothing else is found by names. -/
theorem node_of_symlinkMetadata (hnode : ∀ k t, fs.node k ≠ some (.symlink t))
    (h : fs.symlinkMetadata (.rootDir :: names.map .normal ++ [.normal x]) = true) :
    fs.node (names ++ [x]) ≠ none := by
  rw [symlinkMetadata_concat, Option.any_eq_true] at h
  obtain ⟨k, hentry, hk⟩ := h
  obtain ⟨l, hresolve, _, rfl⟩ := (entry_concat_eq_some _ x k).mp hentry
  obtain ⟨j, _, hlead⟩ := exists_leads hresolve
  cases hlead with
  | next _ _ _ _ hlead =>
      rw [hlead.eq_of_names hnode] at hk
      exact Option.isSome_iff_ne_none.mp hk
  | symlink _ _ _ hlink => exact absurd hlink (hnode _ _)

end Names

end FileSystem

end Files
