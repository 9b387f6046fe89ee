import Xbpf.Files.Directories

/-!
# Links that go down

All links below a directory may lie in the directory itself, and have targets that
begin with one path and end with the name of the link. If the path does not leave the
directory where it starts, nothing does that is reached from the directory. What a
path down ends with is then the name it ends with, whichever links are on the way, and
the path itself is either free of links or leads nowhere.
-/

namespace Files

variable {α C : Type}

section Names

variable {l l' k m : Location α} {c : Component α} {p q : Path α}

theorem descend_append (h : descend l p = some m) (q : Path α) :
    descend l (p ++ q) = descend m q := by
  induction p generalizing l with
  | nil =>
      cases h
      rfl
  | cons c p ih =>
      obtain ⟨k, hk, hrest⟩ := within_of_descend_cons h
      rw [List.cons_append, descend_cons hk, ih hrest]

theorem exists_within_of_le (h : c.within l = some l') (hle : l.length ≤ k.length) :
    ∃ k', c.within k = some k' ∧ l'.length ≤ k'.length := by
  cases c with
  | rootDir => cases h
  | curDir => cases h
  | parentDir =>
      cases hl : l with
      | nil => simp [Component.within, hl] at h
      | cons x rest =>
          have hk : k ≠ [] := by
            rintro rfl
            simp [hl] at hle
          subst hl
          simp only [Component.within, reduceCtorEq, if_false, Option.some.injEq] at h
          refine ⟨k.dropLast, if_neg hk, ?_⟩
          rw [← h, List.length_dropLast, List.length_dropLast]
          omega
  | normal x =>
      cases h
      exact ⟨k ++ [x], rfl, by simpa using hle⟩

/-- A path goes down from further below as well. -/
theorem exists_descend_of_le (h : descend l p = some l') (hle : l.length ≤ k.length) :
    ∃ k', descend k p = some k' ∧ l'.length ≤ k'.length := by
  induction p generalizing l k with
  | nil =>
      cases h
      exact ⟨k, rfl, hle⟩
  | cons c p ih =>
      obtain ⟨m, hm, hrest⟩ := within_of_descend_cons h
      obtain ⟨m', hm', hle'⟩ := exists_within_of_le hm hle
      rw [descend_cons hm']
      exact ih hrest hle'

/-- A path that does not leave the directory where it starts, after a leading dot if it
has one, and where it ends. -/
def GoesDown (path : Path α) (m : Location α) : Prop :=
  ∃ p, descend [] p = some m ∧ (path = p ∨ path = .curDir :: p)

end Names

namespace Leads

variable {fs : FileSystem α C} {via via' : Location α → Prop} {d l k m m' : Location α}
  {p q : Path α} {j j' : ℕ}

theorem count_eq (h : Leads fs via l p m j) (h' : Leads fs via' l p m' j') : j = j' := by
  induction h generalizing j' with
  | nil =>
      cases h'
      rfl
  | next _ _ _ hnode _ ih =>
      cases h' with
      | next _ _ _ _ h' => exact ih h'
      | symlink _ _ _ hlink => exact absurd hlink (hnode _)
  | symlink _ _ _ hlink _ ih =>
      cases h' with
      | next _ _ _ hnode _ => exact absurd hlink (hnode _)
      | symlink _ _ _ hlink' h' =>
          cases hlink.symm.trans hlink'
          rw [ih h']

theorem of_curDir (h : Leads fs via l (.curDir :: p) k j) : Leads fs via l p k j := by
  cases h with
  | next _ _ _ _ h => exact h
  | symlink _ hdir _ hlink => cases hdir.symm.trans hlink

/-- A path without links leads where its names say. -/
theorem of_trail (h : Leads fs via (d ++ l) (p ++ q) k j) (hp : descend l p = some m)
    (htrail : ∀ u ∈ trail l p, ∀ t, fs.node (d ++ u) ≠ some (.symlink t)) :
    Leads fs via (d ++ m) q k j := by
  induction p generalizing l with
  | nil =>
      cases hp
      exact h
  | cons c p ih =>
      obtain ⟨u, hu, hrest⟩ := within_of_descend_cons hp
      rw [trail_cons hu] at htrail
      have hnext := next_append_of_within hu d
      cases h with
      | next _ _ _ _ h =>
          rw [hnext] at h
          exact ih h hrest fun u' hu' => htrail u' (List.mem_cons_of_mem _ hu')
      | symlink _ _ _ hlink =>
          rw [hnext] at hlink
          exact absurd hlink (htrail u List.mem_cons_self _)

end Leads

/-- The links below a directory lie in the directory itself. Their targets begin with one
path, go down from there and end with the name of the link. -/
def LinksThrough (path : Path α) (d : Location α) (fs : FileSystem α C) : Prop :=
  ∀ u t, u ≠ [] → fs.node (d ++ u) = some (.symlink t) →
    ∃ x q, u = [x] ∧ t = path ++ q ++ [.normal x] ∧ descend [] q ≠ none

namespace LinksThrough

variable {fs : FileSystem α C} {via : Location α → Prop} {path p q : Path α}
  {d k l u mp : Location α} {x : List α} {j : ℕ}

theorem of_next (hlinks : LinksThrough path d fs) {c : Component α} {u₁ : Location α}
    {t : Path α} (hd : fs.IsDir d) (hdir : fs.IsDir (d ++ u)) (hc : c.within u = some u₁)
    (hlink : fs.node (d ++ u₁) = some (.symlink t)) :
    ∃ x q, u = [] ∧ c = .normal x ∧ u₁ = [x] ∧ t = path ++ q ++ [.normal x] ∧
      descend [] q ≠ none := by
  have hne : u₁ ≠ [] := by
    rintro rfl
    rw [List.append_nil] at hlink
    cases hd.symm.trans hlink
  obtain ⟨x, q, rfl, ht, hq⟩ := hlinks u₁ t hne hlink
  cases c with
  | rootDir => cases hc
  | curDir => cases hc
  | parentDir =>
      have hdrop := fs.isDir_dropLast hdir
      rw [← next_append_of_within hc d] at hlink
      cases hdrop.symm.trans hlink
  | normal y =>
      obtain ⟨rfl, hx⟩ := List.append_eq_singleton_iff.mp (Option.some.inj hc)
        |>.resolve_right (by simp)
      exact ⟨x, q, rfl, by simpa using hx, rfl, ht, hq⟩

/-- What a path down ends with is the name of the place that it leads to. -/
theorem exists_eq_concat (hlinks : LinksThrough path d fs) (hpath : GoesDown path mp)
    (hd : fs.IsDir d) (h : Leads fs via (d ++ u) p k j) (hq : descend l q ≠ none)
    (hle : l.length ≤ u.length) (hp : p = q ++ [.normal x] ∨ p = .curDir :: (q ++ [.normal x])) :
    ∃ u', k = d ++ (u' ++ [x]) := by
  generalize hk₀ : d ++ u = k₀ at h
  induction h generalizing u q l with
  | nil => rcases hp with heq | heq <;> simp at heq
  | @next k₀ c p _ _ _ hdir _ _ h ih =>
      subst hk₀
      rcases hp with hp | hp
      · cases q with
        | nil =>
            cases hp
            cases h
            exact ⟨u, List.append_assoc d u [x]⟩
        | cons c' q =>
            cases hp
            obtain ⟨l', hl'⟩ := Option.ne_none_iff_exists'.mp hq
            obtain ⟨l₁, hl₁, hrest⟩ := within_of_descend_cons hl'
            obtain ⟨u₁, hu₁, hle₁⟩ := exists_within_of_le hl₁ hle
            exact ih (by simp [hrest]) hle₁ (.inl rfl) (next_append_of_within hu₁ d).symm
      · cases hp
        exact ih hq hle (.inl rfl) rfl
  | @symlink k₀ c p t _ _ _ hdir _ hlink h ih =>
      subst hk₀
      rcases hp with hp | hp
      · have hwithin : ∃ u₁, c.within u = some u₁ := by
          cases q with
          | nil =>
              cases hp
              exact ⟨_, rfl⟩
          | cons c' q =>
              cases hp
              obtain ⟨l', hl'⟩ := Option.ne_none_iff_exists'.mp hq
              obtain ⟨l₁, hl₁, _⟩ := within_of_descend_cons hl'
              obtain ⟨u₁, hu₁, _⟩ := exists_within_of_le hl₁ hle
              exact ⟨u₁, hu₁⟩
        obtain ⟨u₁, hu₁⟩ := hwithin
        rw [next_append_of_within hu₁] at hlink
        obtain ⟨y, q₀, rfl, rfl, _, ht, hq₀⟩ := hlinks.of_next hd hdir hu₁ hlink
        obtain ⟨p', hp', hpath'⟩ := hpath
        -- The target goes down as well, and the rest of the path after it.
        have hgoes : descend [] (p' ++ q₀ ++ q) ≠ none := by
          obtain ⟨m₀, hm₀⟩ := Option.ne_none_iff_exists'.mp hq₀
          obtain ⟨l', hl'⟩ := Option.ne_none_iff_exists'.mp hq
          obtain ⟨a, ha, _⟩ := exists_descend_of_le hm₀ (k := mp) (Nat.zero_le _)
          obtain ⟨b, hb, _⟩ := exists_descend_of_le hl' (Nat.le_trans hle (Nat.zero_le a.length))
          rw [List.append_assoc, descend_append hp', descend_append ha, hb]
          simp
        refine ih hgoes (Nat.zero_le _) ?_ rfl
        rw [ht, List.append_assoc, List.singleton_append, hp]
        rcases hpath' with rfl | rfl
        · exact .inl (by simp)
        · exact .inr (by simp)
      · cases hp
        cases hdir.symm.trans hlink

/-- A link on the way begins the way again. -/
theorem exists_leads_of_trail (hlinks : LinksThrough path d fs) (hd : fs.IsDir d)
    (hp : descend u p ≠ none)
    (htrail : ∃ v ∈ trail u p, ∃ t, fs.node (d ++ v) = some (.symlink t))
    (h : Leads fs via (d ++ u) (p ++ q) k j) :
    ∃ q' j', j' < j ∧ Leads fs via d (path ++ q') k j' := by
  induction p generalizing u with
  | nil =>
      obtain ⟨v, hv, _⟩ := htrail
      cases hv
  | cons c p ih =>
      obtain ⟨l', hl'⟩ := Option.ne_none_iff_exists'.mp hp
      obtain ⟨u₁, hu₁, hrest⟩ := within_of_descend_cons hl'
      have hnext := next_append_of_within hu₁ d
      cases h with
      | next _ _ _ hnode h =>
          rw [hnext] at hnode h
          obtain ⟨v, hv, t, ht⟩ := htrail
          rw [trail_cons hu₁] at hv
          rcases List.mem_cons.mp hv with rfl | hv
          · exact absurd ht (hnode t)
          · exact ih (by simp [hrest]) ⟨v, hv, t, ht⟩ h
      | @symlink _ _ _ t _ j' _ hdir _ hlink h =>
          rw [hnext] at hlink
          obtain ⟨x, q₀, rfl, _, _, rfl, _⟩ := hlinks.of_next hd hdir hu₁ hlink
          refine ⟨q₀ ++ [.normal x] ++ (p ++ q), j', Nat.lt_succ_self j', ?_⟩
          simpa using h

theorem not_leads_of_trail (hlinks : LinksThrough path d fs) (hd : fs.IsDir d)
    (hp : descend [] p ≠ none) (hpath : path = p ∨ path = .curDir :: p)
    (htrail : ∃ v ∈ trail [] p, ∃ t, fs.node (d ++ v) = some (.symlink t)) :
    ¬ Leads fs via d (p ++ q) k j := by
  induction j using Nat.strongRecOn generalizing q with
  | ind j ih =>
      intro h
      rw [← List.append_nil d] at h
      obtain ⟨q', j', hj', hrest⟩ := hlinks.exists_leads_of_trail hd hp htrail h
      refine ih j' hj' (q := q') ?_
      rcases hpath with rfl | rfl
      · exact hrest
      · exact hrest.of_curDir

theorem leads_of_goesDown (hlinks : LinksThrough path d fs) (hd : fs.IsDir d)
    (hpath : GoesDown path mp) (h : Leads fs via d (path ++ q) k j) :
    Leads fs via (d ++ mp) q k j := by
  obtain ⟨p, hp, hpath⟩ := hpath
  have h : Leads fs via d (p ++ q) k j := by
    rcases hpath with rfl | rfl
    · exact h
    · exact h.of_curDir
  have hfree : ∀ v ∈ trail [] p, ∀ t, fs.node (d ++ v) ≠ some (.symlink t) := fun v hv t ht =>
    hlinks.not_leads_of_trail hd (by simp [hp]) hpath ⟨v, hv, t, ht⟩ h
  refine Leads.of_trail ?_ hp hfree
  rwa [List.append_nil]

end LinksThrough

end Files
