import Xbpf.Files.FileSystem

/-!
# Where paths lead

`Leads` follows a path as `resolve` does, without a bound on the links, and
records how many links it follows and through which places it passes. What a
path leads to depends on these places only. Paths can be put together, and all
that comes before the end of a path is a directory.
-/

namespace Files

variable {α C : Type}

/-- The path leads from one place to another through a number of links, and only
places in `via` are looked at. -/
inductive Leads (fs : FileSystem α C) (via : Location α → Prop) :
    Location α → Path α → Location α → ℕ → Prop
  | nil (l) : Leads fs via l [] l 0
  | next {l c p m j} (hvia : via l) (hdir : fs.IsDir l) (hnext : via (c.next l))
      (hnode : ∀ t, fs.node (c.next l) ≠ some (.symlink t))
      (h : Leads fs via (c.next l) p m j) : Leads fs via l (c :: p) m j
  | symlink {l c p t m j} (hvia : via l) (hdir : fs.IsDir l) (hnext : via (c.next l))
      (hnode : fs.node (c.next l) = some (.symlink t))
      (h : Leads fs via l (t ++ p) m j) : Leads fs via l (c :: p) m (j + 1)

namespace FileSystem

variable {fs : FileSystem α C} {l k : Location α} {c : Component α} {p : Path α}

theorem walk_cons (hdir : fs.IsDir l) (hnode : ∀ t, fs.node (c.next l) ≠ some (.symlink t)) :
    fs.walk l (c :: p) = fs.walk (c.next l) p := by
  rw [walk, if_pos hdir]
  cases hfound : fs.node (c.next l) with
  | none => rfl
  | some found =>
      cases found with
      | dir => rfl
      | file => rfl
      | symlink t => exact absurd hfound (hnode t)

theorem resolveWithin_cons (hdir : fs.IsDir l)
    (hnode : ∀ t, fs.node (c.next l) ≠ some (.symlink t)) (n : ℕ) :
    fs.resolveWithin n l (c :: p) = fs.resolveWithin n (c.next l) p := by
  unfold resolveWithin
  rw [walk_cons hdir hnode]

theorem resolveWithin_symlink {t : Path α} (hdir : fs.IsDir l)
    (hnode : fs.node (c.next l) = some (.symlink t)) (n : ℕ) :
    fs.resolveWithin (n + 1) l (c :: p) = fs.resolveWithin n l (t ++ p) := by
  have hwalk : fs.walk l (c :: p) = .redirected l t p := by
    rw [walk, if_pos hdir, hnode]
  conv_lhs => unfold resolveWithin
  rw [hwalk]

theorem resolveWithin_cons_cases {n : ℕ} (h : fs.resolveWithin n l (c :: p) = some k) :
    fs.IsDir l ∧ (((∀ t, fs.node (c.next l) ≠ some (.symlink t)) ∧
        fs.resolveWithin n (c.next l) p = some k) ∨
      ∃ i t, n = i + 1 ∧ fs.node (c.next l) = some (.symlink t) ∧
        fs.resolveWithin i l (t ++ p) = some k) := by
  by_cases hdir : fs.IsDir l
  · refine ⟨hdir, ?_⟩
    by_cases hnode : ∀ t, fs.node (c.next l) ≠ some (.symlink t)
    · rw [resolveWithin_cons hdir hnode] at h
      exact .inl ⟨hnode, h⟩
    · obtain ⟨t, ht⟩ := not_forall_not.mp hnode
      cases n with
      | zero =>
          unfold resolveWithin at h
          rw [walk, if_pos hdir, ht] at h
          cases h
      | succ i =>
          rw [resolveWithin_symlink hdir ht] at h
          exact .inr ⟨i, t, rfl, ht, h⟩
  · unfold resolveWithin at h
    rw [walk, if_neg hdir] at h
    cases h

/-- Where a path is resolved to it leads through no more links than may be followed. -/
theorem exists_leads {n : ℕ} (h : fs.resolveWithin n l p = some k) :
    ∃ j, j ≤ n ∧ Leads fs (fun _ => True) l p k j := by
  induction n using Nat.strongRecOn generalizing l p with
  | ind n ihn =>
      induction p generalizing l with
      | nil =>
          unfold resolveWithin at h
          cases h
          exact ⟨0, Nat.zero_le n, .nil _⟩
      | cons c p ihp =>
          rcases resolveWithin_cons_cases h with
            ⟨hdir, ⟨hnode, hrest⟩ | ⟨i, t, rfl, hnode, hrest⟩⟩
          · obtain ⟨j, hj, hlead⟩ := ihp hrest
            exact ⟨j, hj, .next trivial hdir trivial hnode hlead⟩
          · obtain ⟨j, hj, hlead⟩ := ihn i (Nat.lt_succ_self i) hrest
            exact ⟨j + 1, Nat.succ_le_succ hj, .symlink trivial hdir trivial hnode hlead⟩

end FileSystem

namespace Leads

variable {fs : FileSystem α C} {via : Location α → Prop} {l m : Location α} {p : Path α}
  {j : ℕ}

theorem resolveWithin_eq (h : Leads fs via l p m j) {n : ℕ} (hj : j ≤ n) :
    fs.resolveWithin n l p = some m := by
  induction h generalizing n with
  | nil l => simp [FileSystem.resolveWithin, FileSystem.walk]
  | next _ hdir _ hnode _ ih => rw [FileSystem.resolveWithin_cons hdir hnode, ih hj]
  | symlink _ hdir _ hnode _ ih =>
      obtain ⟨n, rfl⟩ := Nat.exists_eq_add_of_le' (Nat.one_le_of_lt hj)
      rw [FileSystem.resolveWithin_symlink hdir hnode, ih (Nat.le_of_succ_le_succ hj)]

theorem eq_of_leads {via' : Location α → Prop} {m' : Location α} {j' : ℕ}
    (h : Leads fs via l p m j) (h' : Leads fs via' l p m' j') : m = m' := by
  have hm := h.resolveWithin_eq (Nat.le_max_left j j')
  rw [h'.resolveWithin_eq (Nat.le_max_right j j')] at hm
  exact (Option.some.inj hm).symm

theorem resolve_eq (h : Leads fs via fs.cwd p m j) (hj : j ≤ FileSystem.maxLinks) :
    fs.resolve p = some m :=
  h.resolveWithin_eq hj

theorem find_eq (h : Leads fs via fs.cwd p m j) (hj : j ≤ FileSystem.maxLinks)
    (hp : p ≠ []) : fs.find p = some m := by
  rw [FileSystem.find, if_neg hp, h.resolve_eq hj]

theorem entry_eq (h : Leads fs via fs.cwd p m j) (hj : j ≤ FileSystem.maxLinks)
    (hm : fs.IsDir m) (x : List α) : fs.entry (p ++ [.normal x]) = some (m ++ [x]) := by
  simp [FileSystem.entry, h.resolve_eq hj, hm]

theorem mono (h : Leads fs via l p m j) {via' : Location α → Prop}
    (hvia : ∀ k, via k → via' k) : Leads fs via' l p m j := by
  induction h with
  | nil l => exact .nil l
  | next h₁ hdir h₂ hnode _ ih => exact .next (hvia _ h₁) hdir (hvia _ h₂) hnode ih
  | symlink h₁ hdir h₂ hnode _ ih => exact .symlink (hvia _ h₁) hdir (hvia _ h₂) hnode ih

/-- A path leads to the same place as long as what it passes through stays. -/
theorem of_agree (h : Leads fs via l p m j) {fs' : FileSystem α C}
    (hagree : ∀ k, via k → fs'.node k = fs.node k) : Leads fs' via l p m j := by
  induction h with
  | nil l => exact .nil l
  | next h₁ hdir h₂ hnode _ ih =>
      exact .next h₁ ((hagree _ h₁).trans hdir) h₂ (by rwa [hagree _ h₂]) ih
  | symlink h₁ hdir h₂ hnode _ ih =>
      exact .symlink h₁ ((hagree _ h₁).trans hdir) h₂ ((hagree _ h₂).trans hnode) ih

theorem name {l : Location α} {x : List α} (hdir : fs.IsDir l)
    (hnode : ∀ t, fs.node (l ++ [x]) ≠ some (.symlink t)) :
    Leads fs (fun _ => True) l [.normal x] (l ++ [x]) 0 :=
  .next trivial hdir trivial hnode (.nil _)

theorem append (h : Leads fs via l p m j) {q : Path α} {m' : Location α} {i : ℕ}
    (hq : Leads fs via m q m' i) : Leads fs via l (p ++ q) m' (j + i) := by
  induction h with
  | nil l => simpa using hq
  | next h₁ hdir h₂ hnode _ ih => exact .next h₁ hdir h₂ hnode (ih hq)
  | symlink h₁ hdir h₂ hnode _ ih =>
      have hrest := ih hq
      rw [List.append_assoc] at hrest
      rw [Nat.add_right_comm]
      exact .symlink h₁ hdir h₂ hnode hrest

/-- A path leads somewhere through the end of its beginning. -/
theorem split {p q : Path α} (h : Leads fs via l (p ++ q) m j) :
    ∃ m' i i', i + i' = j ∧ Leads fs via l p m' i ∧ Leads fs via m' q m i' := by
  generalize hr : p ++ q = r at h
  induction h generalizing p with
  | nil l =>
      obtain ⟨rfl, rfl⟩ := List.append_eq_nil_iff.mp hr
      exact ⟨l, 0, 0, rfl, .nil l, .nil l⟩
  | @next l _ _ _ j h₁ hdir h₂ hnode h ih =>
      cases p with
      | nil =>
          subst hr
          exact ⟨l, 0, j, Nat.zero_add j, .nil l, .next h₁ hdir h₂ hnode h⟩
      | cons c p =>
          cases hr
          obtain ⟨m', i, i', hi, hlead, hrest⟩ := ih rfl
          exact ⟨m', i, i', hi, .next h₁ hdir h₂ hnode hlead, hrest⟩
  | @symlink l _ _ t _ j h₁ hdir h₂ hnode h ih =>
      cases p with
      | nil =>
          subst hr
          exact ⟨l, 0, j + 1, Nat.zero_add _, .nil l, .symlink h₁ hdir h₂ hnode h⟩
      | cons c p =>
          cases hr
          obtain ⟨m', i, i', hi, hlead, hrest⟩ := ih (p := t ++ p) (List.append_assoc t p q)
          exact ⟨m', i + 1, i', by omega, .symlink h₁ hdir h₂ hnode hlead, hrest⟩

theorem isDir_of_ne_nil (h : Leads fs via l p m j) (hp : p ≠ []) : fs.IsDir l := by
  cases h with
  | nil => exact absurd rfl hp
  | next _ hdir => exact hdir
  | symlink _ hdir => exact hdir

theorem exists_of_append {q : Path α} (h : Leads fs via l (p ++ q) m j) (hq : q ≠ []) :
    ∃ m' i, i ≤ j ∧ Leads fs via l p m' i ∧ fs.IsDir m' := by
  obtain ⟨m', i, i', hi, hlead, hrest⟩ := h.split
  exact ⟨m', i, by omega, hlead, hrest.isDir_of_ne_nil hq⟩

theorem names {names : List (List α)} (h : fs.IsDir (l ++ names)) :
    Leads fs (fun _ => True) l (names.map .normal) (l ++ names) 0 := by
  induction names generalizing l with
  | nil =>
      rw [List.append_nil]
      exact .nil l
  | cons x names ih =>
      rw [List.append_cons] at h ⊢
      have hx := fs.isDir_of_isDir_append h
      refine .next trivial (fs.isDir_of_append hx) trivial (fun t ht => ?_) (ih h)
      cases hx.symm.trans ht

/-- Without links, names lead nowhere else. -/
theorem eq_of_names {names : List (List α)} (hnode : ∀ k t, fs.node k ≠ some (.symlink t))
    (h : Leads fs via l (names.map .normal) m j) : m = l ++ names := by
  induction names generalizing l with
  | nil =>
      cases h
      rw [List.append_nil]
  | cons x names ih =>
      cases h with
      | next _ _ _ _ h =>
          rw [List.append_cons]
          exact ih h
      | symlink _ _ _ hlink => exact absurd hlink (hnode _ _)

end Leads

end Files
