import Xbpf.Files.Resolution
import Xbpf.Runs.Fallible

/-!
# Directories below a directory

A path without a root can be followed by its names alone, starting from a
directory and never leaving it. This is where it leads in the file system as
long as it passes through directories only. Creating all directories of such a
path turns the places on its trail into directories, or stops at the first place
that holds something else.
-/

namespace Files

open Runs

variable {α C ε : Type}

/-- The place a component leads to from a place below a directory, unless it
leaves the directory or is one that only starts a path. Places are relative to the
directory. -/
def Component.within (l : Location α) : Component α → Option (Location α)
  | rootDir => none
  | curDir => none
  | parentDir => if l = [] then none else some l.dropLast
  | normal name => some (l ++ [name])

/-- The place a path leads to by its names. -/
def descend : Location α → Path α → Option (Location α)
  | l, [] => some l
  | l, c :: p => (c.within l).bind fun m => descend m p

def trail : Location α → Path α → List (Location α)
  | _, [] => []
  | l, c :: p =>
      match c.within l with
      | some m => m :: trail m p
      | none => []

section Names

variable {l m m' : Location α} {c : Component α} {p : Path α}

theorem next_append_of_within (h : c.within l = some m) (d : Location α) :
    c.next (d ++ l) = d ++ m := by
  cases c with
  | rootDir => cases h
  | curDir => cases h
  | parentDir =>
      by_cases hl : l = []
      · simp [Component.within, hl] at h
      · simp only [Component.within, hl, if_false, Option.some.injEq] at h
        rw [← h]
        exact List.dropLast_append_of_ne_nil hl
  | normal name =>
      cases h
      exact List.append_assoc d l [name]

theorem descend_cons (h : c.within l = some m) : descend l (c :: p) = descend m p := by
  simp [descend, h]

theorem join_of_descend (h : descend l p = some m) (path : Path α) :
    join path p = path ++ p := by
  cases p with
  | nil => rfl
  | cons c p =>
      obtain ⟨k, hk, _⟩ := Option.bind_eq_some_iff.mp h
      cases c with
      | rootDir => cases hk
      | curDir => cases hk
      | parentDir => rfl
      | normal name => rfl

theorem trail_cons (h : c.within l = some m) : trail l (c :: p) = m :: trail m p := by
  simp [trail, h]

theorem within_of_descend_cons (h : descend l (c :: p) = some m') :
    ∃ m, c.within l = some m ∧ descend m p = some m' :=
  Option.bind_eq_some_iff.mp h

theorem descend_concat (h : descend l p = some m) (c : Component α) :
    descend l (p ++ [c]) = c.within m := by
  induction p generalizing l with
  | nil =>
      cases h
      rw [List.nil_append, descend]
      exact Option.bind_fun_some (c.within m)
  | cons b p ih =>
      obtain ⟨k, hk, hrest⟩ := within_of_descend_cons h
      rw [List.cons_append, descend_cons hk, ih hrest]

theorem trail_concat (h : descend l p = some m) (hc : c.within m = some m') :
    trail l (p ++ [c]) = trail l p ++ [m'] := by
  induction p generalizing l with
  | nil =>
      cases h
      rw [List.nil_append, trail_cons hc]
      rfl
  | cons b p ih =>
      obtain ⟨k, hk, hrest⟩ := within_of_descend_cons h
      rw [List.cons_append, trail_cons hk, trail_cons hk, ih hrest, List.cons_append]

theorem mem_trail_of_descend (h : descend l p = some m) (hp : p ≠ []) :
    m ∈ trail l p := by
  induction p generalizing l with
  | nil => exact absurd rfl hp
  | cons c p ih =>
      obtain ⟨k, hk, hrest⟩ := within_of_descend_cons h
      rw [trail_cons hk]
      by_cases hlast : p = []
      · subst hlast
        cases hrest
        exact List.mem_cons_self
      · exact List.mem_cons_of_mem _ (ih hrest hlast)

end Names

theorem leads_of_descend {fs : FileSystem α C} {d l m : Location α} {p : Path α}
    (h : descend l p = some m) (hl : fs.IsDir (d ++ l))
    (htrail : ∀ k ∈ trail l p, fs.IsDir (d ++ k)) :
    Leads fs (fun _ => True) (d ++ l) p (d ++ m) 0 := by
  induction p generalizing l with
  | nil =>
      cases h
      exact .nil _
  | cons c p ih =>
      obtain ⟨k, hk, hrest⟩ := within_of_descend_cons h
      rw [trail_cons hk] at htrail
      have hnext := next_append_of_within hk d
      have hdir : fs.IsDir (d ++ k) := htrail k List.mem_cons_self
      refine .next trivial hl trivial ?_ ?_
      · intro t ht
        rw [hnext] at ht
        exact absurd (hdir.symm.trans ht) (by simp)
      · rw [hnext]
        exact ih hrest hdir fun k hk => htrail k (List.mem_cons_of_mem _ hk)

namespace FileSystem

variable [DecidableEq α]

def ensureDir (fs : FileSystem α C) (p : Path α) : Option (FileSystem α C) :=
  if fs.isDir p then some fs else fs.createDir p

/-- Creates the directories of a path that goes on from a path. -/
def createDirAllFrom (e : ε) (done : Path α) : Path α → Fallible ε (FileSystem α C) Unit
  | [] => pure ()
  | c :: p => do
      Fallible.attempt (fun fs => fs.ensureDir (done ++ [c])) e
      createDirAllFrom e (done ++ [c]) p

def createDirAll (e : ε) (p : Path α) : Fallible ε (FileSystem α C) Unit :=
  createDirAllFrom e [] p

omit [DecidableEq α] in
theorem isDir_of_leads {fs : FileSystem α C} {via : Location α → Prop} {p : Path α}
    {m : Location α} {j : ℕ} (h : Leads fs via fs.cwd p m j) (hj : j ≤ maxLinks)
    (hp : p ≠ []) : fs.isDir p = decide (fs.IsDir m) := by
  rw [isDir, h.find_eq hj hp]
  rfl

theorem createDir_of_node_ne_none {fs : FileSystem α C} {p : Path α} {k : Location α}
    (hentry : fs.entry p = some k) (hk : fs.node k ≠ none) : fs.createDir p = none := by
  rw [createDir, hentry, Option.bind_some]
  cases hnode : fs.node k with
  | none => exact absurd hnode hk
  | some n => rfl

/-- What `ensureDir` does in a directory that a path leads to. -/
theorem ensureDir_cases {fs : FileSystem α C} {via : Location α → Prop} {p : Path α}
    {m : Location α} {j : ℕ} (h : Leads fs via fs.cwd p m j) (hj : j ≤ maxLinks)
    (hm : fs.IsDir m) (c : Component α)
    (hlink : ∀ x t, c = .normal x → fs.node (m ++ [x]) = some (.symlink t) →
      fs.isDir (p ++ [c]) = false) :
    (fs.IsDir (c.next m) ∧ fs.ensureDir (p ++ [c]) = some fs) ∨
      (∃ x, c = .normal x ∧ fs.node (m ++ [x]) = none ∧
        fs.ensureDir (p ++ [c]) = some (fs.put (m ++ [x]) (some .dir))) ∨
      (fs.IsOccupied (c.next m) ∧ fs.ensureDir (p ++ [c]) = none) := by
  have hnext : (∀ t, fs.node (c.next m) ≠ some (.symlink t)) →
      fs.isDir (p ++ [c]) = decide (fs.IsDir (c.next m)) := by
    intro hnode
    have hlast : Leads fs (fun _ => True) m [c] (c.next m) 0 :=
      .next trivial hm trivial hnode (.nil _)
    exact isDir_of_leads ((h.mono fun _ _ => trivial).append hlast) hj (by simp)
  by_cases hdir : fs.IsDir (c.next m)
  · have hisDir := hnext fun t ht => by cases hdir.symm.trans ht
    exact .inl ⟨hdir, by simp [ensureDir, hisDir, hdir]⟩
  · right
    cases c with
    | rootDir => exact absurd fs.root_dir hdir
    | curDir => exact absurd hm hdir
    | parentDir => exact absurd (fs.isDir_dropLast hm) hdir
    | normal x =>
        have hentry := h.entry_eq hj hm x
        have hisDir : fs.isDir (p ++ [.normal x]) = false := by
          by_cases hsym : ∃ t, fs.node (m ++ [x]) = some (.symlink t)
          · obtain ⟨t, ht⟩ := hsym
            exact hlink x t rfl ht
          · rw [hnext fun t ht => hsym ⟨t, ht⟩, decide_eq_false hdir]
        have hensure : fs.ensureDir (p ++ [.normal x]) = fs.createDir (p ++ [.normal x]) := by
          simp [ensureDir, hisDir]
        rw [hensure]
        cases hnode : fs.node (m ++ [x]) with
        | none =>
            refine .inl ⟨x, rfl, hnode, ?_⟩
            simp [createDir, hentry, hnode]
        | some n =>
            have hoccupied : fs.IsOccupied (m ++ [x]) :=
              ⟨n, hnode, fun heq => hdir (by rw [heq] at hnode; exact hnode)⟩
            exact .inr ⟨hoccupied, createDir_of_node_ne_none hentry (by simp [hnode])⟩

theorem createDirAllFrom_append (e : ε) (done p q : Path α) :
    (createDirAllFrom e done (p ++ q) : Fallible ε (FileSystem α C) Unit) =
      (do
        createDirAllFrom e done p
        createDirAllFrom e (done ++ p) q) := by
  induction p generalizing done with
  | nil => simp [createDirAllFrom]
  | cons c p ih => simp [createDirAllFrom, ih]

end FileSystem

/-- The places that were made directories, all others being as before. -/
structure Grown (d : Location α) (fs fs' : FileSystem α C) (ks : List (Location α)) :
    Prop where
  dirs : ∀ k ∈ ks, fs'.IsDir (d ++ k)
  free : ∀ k ∈ ks, fs.node (d ++ k) = none ∨ fs.IsDir (d ++ k)
  other : ∀ k, (∀ k' ∈ ks, k ≠ d ++ k') → fs'.node k = fs.node k
  cwd : fs'.cwd = fs.cwd

namespace Grown

variable {d : Location α} {fs fs₁ fs' : FileSystem α C} {ks : List (Location α)}

theorem nil : Grown d fs fs [] :=
  ⟨by simp, by simp, fun _ _ => rfl, rfl⟩

theorem isDir (h : Grown d fs fs' ks) {k : Location α} (hk : fs.IsDir k) :
    fs'.IsDir k := by
  by_cases hmem : ∃ k' ∈ ks, k = d ++ k'
  · obtain ⟨k', hk', rfl⟩ := hmem
    exact h.dirs k' hk'
  · exact (h.other k fun k' hk' heq => hmem ⟨k', hk', heq⟩).trans hk

theorem node_eq_some (h : Grown d fs fs' ks) {k : Location α} {n : Node α C}
    (hk : fs.node k = some n) (hn : n ≠ .dir) : fs'.node k = some n := by
  rw [h.other k ?_, hk]
  rintro k' hk' rfl
  rcases h.free k' hk' with hfree | hfree
  · cases hk.symm.trans hfree
  · exact hn (Option.some.inj (hk.symm.trans hfree))

theorem node_of_eq_some (h : Grown d fs fs' ks) {k : Location α} {n : Node α C}
    (hk : fs'.node k = some n) (hn : n ≠ .dir) : fs.node k = some n := by
  rw [← h.other k ?_, hk]
  rintro k' hk' rfl
  exact hn (Option.some.inj (hk.symm.trans (h.dirs k' hk')))

theorem isDir_iff (h : Grown d fs fs' ks) {l : Location α} :
    fs'.IsDir (d ++ l) ↔ fs.IsDir (d ++ l) ∨ l ∈ ks := by
  constructor
  · intro hdir
    by_cases hl : l ∈ ks
    · exact .inr hl
    · left
      rw [FileSystem.IsDir, ← h.other]
      · exact hdir
      · intro k hk heq
        exact hl (List.append_cancel_left heq ▸ hk)
  · rintro (hdir | hl)
    · exact h.isDir hdir
    · exact h.dirs l hl

theorem isOccupied_iff (h : Grown d fs fs' ks) {k : Location α} :
    fs'.IsOccupied k ↔ fs.IsOccupied k := by
  constructor
  · rintro ⟨n, hn, hne⟩
    refine ⟨n, ?_, hne⟩
    rw [← h.other k ?_, hn]
    rintro k' hk' rfl
    exact hne (Option.some.inj (hn.symm.trans (h.dirs k' hk')))
  · rintro ⟨n, hn, hne⟩
    exact ⟨n, h.node_eq_some hn hne, hne⟩

theorem cons {k : Location α} (h₁ : Grown d fs fs₁ [k]) (h : Grown d fs₁ fs' ks) :
    Grown d fs fs' (k :: ks) := by
  constructor
  · intro k' hk'
    rcases List.mem_cons.mp hk' with rfl | hk'
    · exact h.isDir (h₁.dirs k' List.mem_cons_self)
    · exact h.dirs k' hk'
  · intro k' hk'
    rcases List.mem_cons.mp hk' with rfl | hk'
    · exact h₁.free k' List.mem_cons_self
    · by_cases heq : k' = k
      · subst heq
        exact h₁.free k' List.mem_cons_self
      · have hsame : fs₁.node (d ++ k') = fs.node (d ++ k') :=
          h₁.other _ (by simpa using heq)
        have hfree := h.free k' hk'
        rwa [FileSystem.IsDir, hsame] at hfree
  · intro l hl
    rw [h.other l fun k' hk' => hl k' (List.mem_cons_of_mem _ hk')]
    exact h₁.other l fun k' hk' => hl k' (by simp_all)
  · exact h.cwd.trans h₁.cwd

end Grown

/-- What has to stay true below a directory so that directories can be created
there: a path leads to the directory, no link in it leads to a directory, and
creating directories does no harm. -/
structure Sheltered (inv : FileSystem α C → Prop) (path : Path α) (d : Location α)
    [DecidableEq α] : Prop where
  lead : ∀ fs, inv fs → fs.IsDir d ∧
    ∃ via j, j ≤ FileSystem.maxLinks ∧ Leads fs via fs.cwd path d j
  link : ∀ fs, inv fs → ∀ q l x t, descend [] q = some l →
    (∀ k ∈ trail [] q, fs.IsDir (d ++ k)) → fs.node (d ++ l ++ [x]) = some (.symlink t) →
      fs.isDir (path ++ q ++ [.normal x]) = false
  put : ∀ fs, inv fs → ∀ l x, fs.IsDir (d ++ l) → fs.node (d ++ l ++ [x]) = none →
    inv (fs.put (d ++ l ++ [x]) (some .dir))

namespace Sheltered

variable [DecidableEq α] {inv : FileSystem α C → Prop} {path : Path α} {d : Location α}

theorem leads (hinv : Sheltered inv path d) {fs : FileSystem α C} (h : inv fs)
    {q : Path α} {l : Location α} (hq : descend [] q = some l)
    (hdirs : ∀ k ∈ trail [] q, fs.IsDir (d ++ k)) :
    fs.IsDir (d ++ l) ∧ ∃ j, j ≤ FileSystem.maxLinks ∧
      Leads fs (fun _ => True) fs.cwd (path ++ q) (d ++ l) j := by
  obtain ⟨hd, via, j, hj, hlead⟩ := hinv.lead fs h
  constructor
  · by_cases hempty : q = []
    · subst hempty
      cases hq
      rwa [List.append_nil]
    · exact hdirs l (mem_trail_of_descend hq hempty)
  · have hrest := leads_of_descend (d := d) hq (by rwa [List.append_nil]) hdirs
    rw [List.append_nil] at hrest
    exact ⟨j, hj, (hlead.mono fun _ _ => trivial).append hrest⟩

/-- One more directory, unless something else is in its place. -/
theorem ensureDir (hinv : Sheltered inv path d) {fs : FileSystem α C} (h : inv fs)
    {q : Path α} {l k : Location α} {c : Component α} (hq : descend [] q = some l)
    (hdirs : ∀ k ∈ trail [] q, fs.IsDir (d ++ k)) (hk : c.within l = some k) :
    match fs.ensureDir (path ++ q ++ [c]) with
    | some fs' => inv fs' ∧ Grown d fs fs' [k]
    | none => fs.IsOccupied (d ++ k) := by
  obtain ⟨hl, j, hj, hlead⟩ := hinv.leads h hq hdirs
  have hnext := next_append_of_within hk d
  rcases FileSystem.ensureDir_cases hlead hj hl c (by
    rintro x t rfl ht
    exact hinv.link fs h q l x t hq hdirs ht) with
      ⟨hdir, heq⟩ | ⟨x, rfl, hnone, heq⟩ | ⟨hoccupied, heq⟩
  · rw [hnext] at hdir
    rw [heq]
    exact ⟨h, by simpa using hdir, by simpa using .inr hdir, fun _ _ => rfl, rfl⟩
  · cases hk
    have hput := FileSystem.node_put hl (x := x)
      (fun hdir => by cases hdir.symm.trans hnone) (some .dir)
    rw [heq]
    refine ⟨hinv.put fs h l x hl hnone, ?_, ?_, ?_, FileSystem.cwd_put _ _ _⟩
    · simp [FileSystem.IsDir, ← List.append_assoc, hput]
    · simp [← List.append_assoc, hnone]
    · intro k' hk'
      rw [hput, Function.update_of_ne]
      simpa using hk'
  · rw [heq]
    rwa [hnext] at hoccupied

theorem createDirAllFrom {ε : Type} (hinv : Sheltered inv path d) (e : ε)
    {fs : FileSystem α C} (h : inv fs) {q r : Path α} {l m : Location α}
    (hq : descend [] q = some l) (hdirs : ∀ k ∈ trail [] q, fs.IsDir (d ++ k))
    (hr : descend l r = some m) :
    Fallible.Ends (FileSystem.createDirAllFrom e (path ++ q) r) fs
      (fun _ fs' => inv fs' ∧ Grown d fs fs' (trail l r))
      (fun fs' => inv fs' ∧ ∃ k ∈ trail l r, fs.IsOccupied (d ++ k)) := by
  induction r generalizing fs q l with
  | nil => exact Fallible.Ends.pure ⟨h, Grown.nil⟩
  | cons c r ih =>
      obtain ⟨k, hk, hrest⟩ := within_of_descend_cons hr
      have hensure := hinv.ensureDir h hq hdirs hk
      rw [trail_cons hk]
      refine Fallible.Ends.bind (Fallible.Ends.attempt ?_ ?_)
      · intro fs₁ hfs₁
        rw [hfs₁] at hensure
        obtain ⟨hinv₁, hgrown⟩ := hensure
        have hdirs₁ : ∀ k' ∈ trail [] (q ++ [c]), fs₁.IsDir (d ++ k') := by
          intro k' hk'
          rw [trail_concat hq hk] at hk'
          rcases List.mem_append.mp hk' with hk' | hk'
          · exact hgrown.isDir (hdirs k' hk')
          · exact hgrown.dirs k' hk'
        rw [List.append_assoc]
        refine (ih hinv₁ ((descend_concat hq c).trans hk) hdirs₁ hrest).mono ?_ ?_
        · rintro _ fs' ⟨hinv', hgrown'⟩
          exact ⟨hinv', hgrown.cons hgrown'⟩
        · rintro fs' ⟨hinv', k', hk', hoccupied⟩
          exact ⟨hinv', k', List.mem_cons_of_mem _ hk', hgrown.isOccupied_iff.mp hoccupied⟩
      · intro hnone
        rw [hnone] at hensure
        exact ⟨h, k, List.mem_cons_self, hensure⟩

theorem exec_createDirAllFrom {ε : Type} (e : ε) {fs : FileSystem α C}
    {via : Location α → Prop} {q r : Path α} {m : Location α} {j : ℕ}
    (hlead : Leads fs via fs.cwd (q ++ r) m j) (hj : j ≤ FileSystem.maxLinks)
    (hm : fs.IsDir m) :
    Fallible.exec (FileSystem.createDirAllFrom e q r) fs = (.ok (), fs) := by
  induction r generalizing q with
  | nil => rfl
  | cons c r ih =>
      rw [List.append_cons] at hlead
      have hdir : fs.isDir (q ++ [c]) = true := by
        by_cases hlast : r = []
        · subst hlast
          rw [List.append_nil] at hlead
          rw [FileSystem.isDir_of_leads hlead hj (by simp), decide_eq_true hm]
        · obtain ⟨m', i, hi, hlead', hm'⟩ := hlead.exists_of_append hlast
          rw [FileSystem.isDir_of_leads hlead' (Nat.le_trans hi hj) (by simp), decide_eq_true hm']
      rw [FileSystem.createDirAllFrom, Fallible.exec_bind, Fallible.exec_attempt,
        FileSystem.ensureDir, if_pos hdir]
      exact ih hlead

/-- The directories below the directory are created, and nothing else is changed, unless
something is in the place of one of them. -/
theorem createDirAll {ε : Type} (hinv : Sheltered inv path d) (e : ε)
    {fs : FileSystem α C} (h : inv fs) {r : Path α} {m : Location α}
    (hr : descend [] r = some m) :
    Fallible.Ends (FileSystem.createDirAll e (path ++ r)) fs
      (fun _ fs' => inv fs' ∧ Grown d fs fs' (trail [] r))
      (fun fs' => inv fs' ∧ ∃ k ∈ trail [] r, fs.IsOccupied (d ++ k)) := by
  obtain ⟨hd, via, j, hj, hlead⟩ := hinv.lead fs h
  have hpath := exec_createDirAllFrom e (q := []) hlead hj hd
  rw [FileSystem.createDirAll, FileSystem.createDirAllFrom_append]
  refine Fallible.Ends.bind (Fallible.Ends.of_exec hpath ?_)
  have hrest := hinv.createDirAllFrom e h (q := []) (l := []) rfl (by simp [trail]) hr
  rwa [List.append_nil] at hrest

end Sheltered

end Files
