import Mathlib.Data.List.Induction
import Xbpf.Files.Stays

/-!
# File systems without links

Without links a path leads where its components say, and passes through the same places
whatever is found there. If these are directories, names go on from where it leads.
-/

namespace Files

open Runs

variable {α C ε : Type}

def way : Location α → Path α → List (Location α)
  | _, [] => []
  | l, c :: p => c.next l :: way (c.next l) p

def destination (l : Location α) (p : Path α) : Location α :=
  p.foldl (fun l c => c.next l) l

theorem destination_append (l : Location α) (p q : Path α) :
    destination l (p ++ q) = destination (destination l p) q :=
  List.foldl_append ..

@[simp] theorem destination_concat (l : Location α) (p : Path α) (x : List α) :
    destination l (p ++ [.normal x]) = destination l p ++ [x] := by
  rw [destination_append]
  rfl

theorem destination_names (l : Location α) (names : List (List α)) :
    destination l (names.map .normal) = l ++ names := by
  induction names generalizing l with
  | nil => rw [List.map_nil, List.append_nil]; rfl
  | cons x names ih =>
      change destination (l ++ [x]) (names.map .normal) = l ++ x :: names
      rw [ih, List.append_assoc, List.singleton_append]

/-- As many levels up as there are names. -/
theorem destination_parents (l : Location α) (names : List (List α)) :
    destination (l ++ names) (.replicate names.length .parentDir) = l := by
  induction names using List.reverseRecOn with
  | nil => exact List.append_nil l
  | append_singleton names x ih =>
      rw [List.length_append, List.length_singleton, List.replicate_succ, ← List.append_assoc]
      change destination (l ++ names ++ [x]).dropLast (.replicate names.length .parentDir) = l
      rw [List.dropLast_concat, ih]

theorem way_append (l : Location α) (p q : Path α) :
    way l (p ++ q) = way l p ++ way (destination l p) q := by
  induction p generalizing l with
  | nil => rfl
  | cons c p ih => rw [List.cons_append, way, ih, way, List.cons_append]; rfl

@[simp] theorem way_concat (l : Location α) (p : Path α) (x : List α) :
    way l (p ++ [.normal x]) = way l p ++ [destination l p ++ [x]] :=
  way_append l p _

theorem destination_mem_way (l : Location α) {p : Path α} (hp : p ≠ []) :
    destination l p ∈ way l p := by
  obtain ⟨p, c, rfl⟩ := (List.eq_nil_or_concat p).resolve_left hp
  rw [List.concat_eq_append, destination_append, way_append]
  exact List.mem_append_right _ List.mem_cons_self

theorem isPrefix_destination (l : Location α) {p : Path α}
    (h : ∀ c ∈ p, c ≠ .rootDir ∧ c ≠ .parentDir) : l <+: destination l p := by
  induction p generalizing l with
  | nil => exact List.prefix_rfl
  | cons c p ih =>
      have hc := h c List.mem_cons_self
      have hnext : l <+: c.next l := by
        cases c with
        | rootDir => exact absurd rfl hc.1
        | curDir => exact List.prefix_rfl
        | parentDir => exact absurd rfl hc.2
        | normal x => exact List.prefix_append l [x]
      exact hnext.trans (ih _ fun c' hc' => h c' (List.mem_cons_of_mem _ hc'))

/-- Without going up or back to the root, a path leads straight down. -/
theorem isPrefix_of_mem_way {l k : Location α} {p : Path α}
    (h : ∀ c ∈ p, c ≠ .rootDir ∧ c ≠ .parentDir) (hk : k ∈ way l p) :
    k <+: destination l p := by
  induction p generalizing l with
  | nil => cases hk
  | cons c p ih =>
      have hrest (c' : Component α) (hc' : c' ∈ p) := h c' (List.mem_cons_of_mem _ hc')
      rcases List.mem_cons.mp hk with rfl | hk
      · exact isPrefix_destination _ hrest
      · exact ih hrest hk

def Separate (l m : Location α) : Prop :=
  ¬ l <+: m ∧ ¬ m <+: l

theorem Separate.symm {l m : Location α} (h : Separate l m) : Separate m l :=
  ⟨h.2, h.1⟩

theorem Separate.not_prefix_append {l m : Location α} (h : Separate l m) (k : Location α) :
    ¬ l <+: m ++ k := by
  intro hl
  rcases List.prefix_or_prefix_of_prefix hl (List.prefix_append m k) with hl | hm
  · exact h.1 hl
  · exact h.2 hm

theorem Separate.append {l m : Location α} (h : Separate l m) (j k : Location α) :
    Separate (l ++ j) (m ++ k) :=
  ⟨fun hl => h.not_prefix_append k ((List.prefix_append l j).trans hl),
    fun hm => h.symm.not_prefix_append j ((List.prefix_append m k).trans hm)⟩

theorem not_isPrefix_append (l : Location α) {k : Location α} (hk : k ≠ []) : ¬ l ++ k <+: l := by
  intro hprefix
  have hlen := hprefix.length_le
  rw [List.length_append] at hlen
  exact hk (List.eq_nil_of_length_eq_zero (by omega))

namespace FileSystem

/-- There are no links, and all entries have one of some names. -/
structure Plain (names : List (List α)) (fs : FileSystem α C) : Prop where
  links : ∀ k t, fs.node k ≠ some (.symlink t)
  named : ∀ l x, fs.node (l ++ [x]) ≠ none → x ∈ names

def Reached (fs : FileSystem α C) (p : Path α) : Prop :=
  ∀ k ∈ way fs.cwd p, fs.IsDir k

variable {names : List (List α)} {fs fs' : FileSystem α C} {p : Path α} {k l : Location α}
  {x : List α}

theorem createDirAllFrom_yields [DecidableEq α] (e : ε) (done p : Path α)
    (fs : FileSystem α C) :
    Fallible.Yields (createDirAllFrom e done p) fs (fun _ _ => True) (· = e) := by
  induction p generalizing done fs with
  | nil => exact Fallible.Yields.pure trivial
  | cons c p ih => exact Fallible.Yields.bind (Fallible.Yields.attempt (fun fs₁ _ => ih _ fs₁) rfl)

theorem node_append_eq_none (h : ¬ fs.IsDir l) {k : Location α} (hk : k ≠ []) :
    fs.node (l ++ k) = none := by
  by_contra hne
  obtain ⟨n, hn⟩ := Option.ne_none_iff_exists'.mp hne
  obtain ⟨k', y, rfl⟩ := (List.eq_nil_or_concat k).resolve_left hk
  rw [List.concat_eq_append, ← List.append_assoc] at hn
  exact h (fs.isDir_of_isDir_append (fs.parent_dir _ _ _ hn))

theorem node_append_of_none (h : fs.node l = none) (k : Location α) : fs.node (l ++ k) = none := by
  cases k with
  | nil => rwa [List.append_nil]
  | cons x k => exact node_append_eq_none (fun hdir => by cases hdir.symm.trans h) (by simp)

theorem isDir_of_mem_parents {l k : Location α} (hl : fs.IsDir l) {n : ℕ}
    (hk : k ∈ way l (.replicate n .parentDir)) : fs.IsDir k := by
  induction n generalizing l with
  | zero => cases hk
  | succ n ih =>
      rcases List.mem_cons.mp hk with rfl | hk
      · exact fs.isDir_dropLast hl
      · exact ih (fs.isDir_dropLast hl) hk

theorem leads_of_way (hl : fs.IsDir l) (hway : ∀ k ∈ way l p, fs.IsDir k) :
    Leads fs (fun _ => True) l p (destination l p) 0 := by
  induction p generalizing l with
  | nil => exact .nil l
  | cons c p ih =>
      have hnext : fs.IsDir (c.next l) := hway _ List.mem_cons_self
      exact .next trivial hl trivial (fun t ht => by cases hnext.symm.trans ht)
        (ih hnext fun k hk => hway k (List.mem_cons_of_mem _ hk))

namespace Reached

theorem isDir (h : fs.Reached p) : fs.IsDir (destination fs.cwd p) := by
  by_cases hp : p = []
  · subst hp
    exact fs.cwd_dir
  · exact h _ (destination_mem_way _ hp)

theorem leads (h : fs.Reached p) :
    Leads fs (fun _ => True) fs.cwd p (destination fs.cwd p) 0 :=
  leads_of_way fs.cwd_dir h

theorem concat (h : fs.Reached p) (hx : fs.IsDir (destination fs.cwd p ++ [x])) :
    fs.Reached (p ++ [.normal x]) := by
  intro k hk
  rw [way_concat] at hk
  rcases List.mem_append.mp hk with hk | hk
  · exact h k hk
  · rwa [List.mem_singleton.mp hk]

theorem find_eq (h : fs.Reached p) (hp : p ≠ []) :
    fs.find p = some (destination fs.cwd p) :=
  h.leads.find_eq (Nat.zero_le _) hp

theorem of_dirs (h : fs.Reached p) (hcwd : fs'.cwd = fs.cwd)
    (hdirs : ∀ k, fs.IsDir k → fs'.IsDir k) : fs'.Reached p := by
  rw [Reached, hcwd]
  exact fun k hk => hdirs k (h k hk)

end Reached

section Put

variable [DecidableEq α] {n : Option (Node α C)}

theorem node_put_of_ne (fs : FileSystem α C) (h : k ≠ l) : (fs.put l n).node k = fs.node k := by
  unfold put
  split
  · exact Function.update_of_ne h _ _
  · rfl

theorem isDir_put (h : fs.IsDir k) : (fs.put l n).IsDir k := by
  by_cases hk : k = l
  · subst hk
    unfold put
    rw [dif_neg fun hput => hput.2.2 h]
    exact h
  · exact (node_put_of_ne fs hk).trans h

end Put

theorem reached_of_straight
    (hstraight : ∀ k ∈ way fs.cwd p, k <+: destination fs.cwd p ∨ fs.IsDir k)
    (hdir : fs.IsDir (destination fs.cwd p)) : fs.Reached p := by
  intro k hk
  rcases hstraight k hk with ⟨r, hr⟩ | hk
  · exact fs.isDir_of_isDir_append (hr ▸ hdir)
  · exact hk

namespace Plain

theorem find_concat (hplain : fs.Plain names) (h : fs.Reached p) (x : List α) :
    fs.find (p ++ [.normal x]) = some (destination fs.cwd p ++ [x]) := by
  have hname := Leads.name (x := x) h.isDir fun t => hplain.links _ t
  exact (h.leads.append hname).find_eq (Nat.zero_le _) (by simp)

theorem isDir_concat (hplain : fs.Plain names) (h : fs.Reached p) (x : List α) :
    fs.isDir (p ++ [.normal x]) = decide (fs.IsDir (destination fs.cwd p ++ [x])) := by
  rw [FileSystem.isDir, hplain.find_concat h]
  rfl

theorem destination_eq_of_leads (hplain : fs.Plain names) {via : Location α → Prop} {j : ℕ}
    (h : Leads fs via l p k j) :
    k = destination l p ∧ (fs.IsDir k → ∀ m ∈ way l p, fs.IsDir m) := by
  induction h with
  | nil l => exact ⟨rfl, fun _ m hm => by cases hm⟩
  | next _ _ _ _ h ih =>
      refine ⟨ih.1, fun hk m hm => ?_⟩
      rcases List.mem_cons.mp hm with rfl | hm
      · exact h.isDir_start hk
      · exact ih.2 hk m hm
  | symlink _ _ _ hnode => exact absurd hnode (hplain.links _ _)

theorem eq_of_find (hplain : fs.Plain names) (h : fs.find p = some k) :
    k = destination fs.cwd p := by
  rw [find] at h
  split at h
  · cases h
  · obtain ⟨j, _, hlead⟩ := exists_leads h
    exact (hplain.destination_eq_of_leads hlead).1

theorem named_of_reached (hplain : fs.Plain names) (h : fs.Reached p) (hx : .normal x ∈ p) :
    x ∈ names := by
  obtain ⟨before, after, rfl⟩ := List.append_of_mem hx
  refine hplain.named (destination fs.cwd before) x ?_
  rw [h (destination fs.cwd before ++ [x])]
  · simp
  · rw [way_append]
    exact List.mem_append_right _ List.mem_cons_self

theorem reached_of_find (hplain : fs.Plain names) (h : fs.find p = some k) (hk : fs.IsDir k) :
    fs.Reached p := by
  rw [find] at h
  split at h
  · cases h
  · obtain ⟨j, _, hlead⟩ := exists_leads h
    exact (hplain.destination_eq_of_leads hlead).2 hk

theorem reached_of_isDir (hplain : fs.Plain names) (h : fs.isDir p = true) :
    fs.Reached p ∧ p ≠ [] := by
  obtain ⟨k, hfind, hk⟩ := (Option.any_eq_true ..).mp h
  refine ⟨hplain.reached_of_find hfind (of_decide_eq_true hk), ?_⟩
  rintro rfl
  cases hfind

theorem node_eq_none_of_not_pathExists (hplain : fs.Plain names)
    (hstraight : ∀ k ∈ way fs.cwd p, k <+: destination fs.cwd p ∨ fs.IsDir k)
    (h : ¬ fs.pathExists (p ++ [.normal x])) : fs.node (destination fs.cwd p ++ [x]) = none := by
  by_contra hne
  obtain ⟨n, hn⟩ := Option.ne_none_iff_exists'.mp hne
  have hreached := reached_of_straight hstraight (fs.parent_dir _ _ _ hn)
  refine h ?_
  rw [FileSystem.pathExists, hplain.find_concat hreached]
  simp [hn]

variable [DecidableEq α]

theorem put (hplain : fs.Plain names) (hx : x ∈ names) {n : Node α C}
    (hn : ∀ t, n ≠ .symlink t) : (fs.put (l ++ [x]) (some n)).Plain names := by
  unfold FileSystem.put
  split
  · refine ⟨fun k t hk => ?_, fun m y hy => ?_⟩
    · change Function.update fs.node (l ++ [x]) (some n) k = _ at hk
      by_cases heq : k = l ++ [x]
      · rw [heq, Function.update_self] at hk
        exact hn t (Option.some.inj hk)
      · rw [Function.update_of_ne heq] at hk
        exact hplain.links k t hk
    · by_cases heq : m ++ [y] = l ++ [x]
      · obtain ⟨-, rfl⟩ := List.append_inj' heq rfl |>.imp id List.singleton_inj.mp
        exact hx
      · refine hplain.named m y fun hnone => hy ?_
        exact (Function.update_of_ne heq _ _).trans hnone
  · exact hplain

/-- One more directory, unless something else is in its place. -/
theorem ensureDir (hplain : fs.Plain names) (hp : fs.Reached p) {c : Component α}
    (hc : ∀ x, c = .normal x → x ∈ names) :
    match fs.ensureDir (p ++ [c]) with
    | some fs' => fs'.Plain names ∧ Grown [] fs fs' [c.next (destination fs.cwd p)]
    | none => fs.IsOccupied (c.next (destination fs.cwd p)) := by
  rcases ensureDir_cases hp.leads (Nat.zero_le _) hp.isDir c
    (fun x t _ ht => absurd ht (hplain.links _ t)) with
    ⟨hdir, heq⟩ | ⟨x, rfl, hnone, heq⟩ | ⟨hoccupied, heq⟩
  · rw [heq]
    exact ⟨hplain, by simpa using hdir, by simpa using .inr hdir, fun _ _ => rfl, rfl⟩
  · have hput := node_put hp.isDir (x := x) (fun hdir => by cases hdir.symm.trans hnone)
      (some .dir)
    rw [heq]
    refine ⟨hplain.put (hc x rfl) (by simp), ?_, ?_, fun k hk => ?_, cwd_put _ _ _⟩
    · simp [Component.next, IsDir, hput]
    · simp [Component.next, hnone]
    · rw [hput, Function.update_of_ne]
      simpa [Component.next] using hk
  · rw [heq]
    exact hoccupied

/-- The missing directories on the way of a path are created, unless something is in the
place of one. -/
theorem createDirAllFrom (hplain : fs.Plain names) (e : ε) {q r : Path α} (hq : fs.Reached q)
    (hr : ∀ x, .normal x ∈ r → x ∈ names) :
    Fallible.Ends (FileSystem.createDirAllFrom e q r) fs
      (fun _ fs' => fs'.Plain names ∧ Grown [] fs fs' (way (destination fs.cwd q) r))
      fun _ => ∃ k ∈ way (destination fs.cwd q) r, fs.IsOccupied k := by
  induction r generalizing q fs with
  | nil => exact Fallible.Ends.pure ⟨hplain, Grown.nil⟩
  | cons c r ih =>
      have hensure := hplain.ensureDir hq (c := c) fun x hx => hr x (hx ▸ List.mem_cons_self)
      have hdest : destination fs.cwd (q ++ [c]) = c.next (destination fs.cwd q) :=
        destination_append ..
      refine Fallible.Ends.bind (Fallible.Ends.attempt (fun fs₁ hfs₁ => ?_) fun hnone => ?_)
      · rw [hfs₁] at hensure
        obtain ⟨hplain₁, hgrown⟩ := hensure
        have hreached : fs₁.Reached (q ++ [c]) := by
          intro k hk
          rw [hgrown.cwd, way_append] at hk
          rcases List.mem_append.mp hk with hk | hk
          · exact hgrown.isDir (hq k hk)
          · exact hgrown.dirs k hk
        have hrest := ih hplain₁ hreached fun x hx => hr x (List.mem_cons_of_mem _ hx)
        rw [hgrown.cwd, hdest] at hrest
        refine hrest.mono (fun _ fs' h => ⟨h.1, hgrown.cons h.2⟩) ?_
        rintro _ ⟨k, hk, hoccupied⟩
        exact ⟨k, List.mem_cons_of_mem _ hk, hgrown.isOccupied_iff.mp hoccupied⟩
      · rw [hnone] at hensure
        exact ⟨_, List.mem_cons_self, hensure⟩

theorem createDirAll (hplain : fs.Plain names) (e : ε) (hp : ∀ x, .normal x ∈ p → x ∈ names) :
    Fallible.Ends (FileSystem.createDirAll e p) fs
      (fun _ fs' => fs'.Plain names ∧ Grown [] fs fs' (way fs.cwd p))
      fun _ => ∃ k ∈ way fs.cwd p, fs.IsOccupied k :=
  hplain.createDirAllFrom e (q := []) (fun k hk => by cases hk) hp

end Plain

end FileSystem

namespace Grown

variable {fs fs' : FileSystem α C} {ks : List (Location α)} {p : Path α}

theorem node_eq (h : Grown [] fs fs' ks) {k : Location α} (hk : k ∈ ks → fs.IsDir k) :
    fs'.node k = fs.node k := by
  by_cases hmem : k ∈ ks
  · exact (h.dirs k hmem).trans (hk hmem).symm
  · exact h.other k fun k' hk' heq => hmem (heq ▸ hk')

theorem node_of_straight (h : Grown [] fs fs' ks) {l k : Location α}
    (hstraight : ∀ k ∈ ks, k <+: l ∨ fs.IsDir k) (hk : ¬ k <+: l) : fs'.node k = fs.node k :=
  h.node_eq fun hmem => (hstraight k hmem).resolve_left hk

theorem reached (h : Grown [] fs fs' (way fs.cwd p)) : fs'.Reached p := by
  rw [FileSystem.Reached, h.cwd]
  exact h.dirs

end Grown

namespace FileSystem

variable [DecidableEq α] [EmptyCollection C] {names : List (List α)} {fs fs' : FileSystem α C}
  {p q : Path α} {x : List α}

/-- Copies the content of a file. The copy is emptied before anything is read, which
matters if it is the file itself. -/
def copy (fs : FileSystem α C) (src dst : Path α) : Option (FileSystem α C) :=
  (fs.read src).bind fun c => fs.write dst (if fs.find src = fs.find dst then ∅ else c)

/-- What `copy` does in directories that paths lead to. -/
theorem Plain.of_copy (hplain : fs.Plain names) (hp : fs.Reached p) (hq : fs.Reached q)
    (h : fs.copy (p ++ [.normal x]) (q ++ [.normal x]) = some fs') :
    ∃ c, fs.node (destination fs.cwd p ++ [x]) = some (.file c) ∧
      ¬ fs.IsDir (destination fs.cwd q ++ [x]) ∧
      fs' = fs.put (destination fs.cwd q ++ [x]) (some (.file
        (if destination fs.cwd p = destination fs.cwd q then ∅ else c))) := by
  obtain ⟨c, hread, hwrite⟩ := Option.bind_eq_some_iff.mp h
  rw [read, hplain.find_concat hp, Option.bind_some] at hread
  rw [hplain.find_concat hp, hplain.find_concat hq, write, hplain.find_concat hq,
    Option.bind_some] at hwrite
  simp only [Option.some_inj, List.append_cancel_right_eq] at hwrite
  refine ⟨c, ?_, ?_⟩
  · rw [fileAt] at hread
    split at hread
    · rename_i hnode
      cases hread
      exact hnode
    · cases hread
  · split at hwrite
    · cases hwrite
    · rename_i hdir
      cases hwrite
      exact ⟨hdir, rfl⟩

end FileSystem

end Files
