import Xbpf.Build.Headers
import Xbpf.Files.Laps

/-!
# Copying a directory into itself

Copying a directory makes directories before it reads the source. If they lie in the
source, it finds them there, copies them, and in doing so makes further ones. The
recursion follows the way down to the directory that is copied to over and over, and only
a file in that way ends it.
-/

namespace Xbpf

namespace Build

open Files Runs

variable {C : Type}

/-- No file becomes anything else, directories stay, and what is found below one place has
a shape that what is copied to the other place has as well. -/
structure Shaped (names : List Name) (shape : Location Char → Prop) (lf : Location Char)
    (fs fs' : FileSystem Char C) : Prop where
  plain : fs'.Plain names
  cwd : fs'.cwd = fs.cwd
  dirs : ∀ k, fs.IsDir k → fs'.IsDir k
  files : ∀ k c, fs.node k = some (.file c) → ∃ c', fs'.node k = some (.file c')
  shape : ∀ p, fs'.node (lf ++ p) ≠ none → shape p

section Shape

variable {names : List Name} {shape : Location Char → Prop} {lf lt : Location Char}
  {fs fs₁ fs₂ fs' : FileSystem Char C} {p : Location Char} {x : Name}

theorem Shaped.grown (h : Shaped names shape lf fs fs₁) (hplain : fs₂.Plain names)
    {ks : List (Location Char)} (hgrown : Grown [] fs₁ fs₂ ks)
    (hks : ∀ k ∈ ks, fs₁.IsDir k ∨ k = lt ++ p)
    (hshape : ∀ r, lt ++ p = lf ++ r → shape r) : Shaped names shape lf fs fs₂ where
  plain := hplain
  cwd := hgrown.cwd.trans h.cwd
  dirs k hk := hgrown.isDir (h.dirs k hk)
  files k c hk := by
    obtain ⟨c', hc'⟩ := h.files k c hk
    exact ⟨c', hgrown.node_eq_some hc' (by simp)⟩
  shape r hr := by
    by_cases hmem : lf ++ r ∈ ks
    · rcases hks _ hmem with hdir | heq
      · exact h.shape r (by rw [hdir]; simp)
      · exact hshape r heq.symm
    · rw [hgrown.node_eq fun hk => absurd hk hmem] at hr
      exact h.shape r hr

theorem Shaped.put (h : Shaped names shape lf fs fs₁) (hx : x ∈ names)
    (hdir : fs₁.IsDir (lt ++ p)) (hnot : ¬ fs₁.IsDir (lt ++ p ++ [x])) (c : C)
    (hshape : ∀ r, lt ++ p ++ [x] = lf ++ r → shape r) :
    Shaped names shape lf fs (fs₁.put (lt ++ p ++ [x]) (some (.file c))) := by
  have hput := FileSystem.node_put hdir hnot (some (.file c))
  refine ⟨h.plain.put hx (by simp), by simp [h.cwd], fun k hk => ?_, fun k c' hk => ?_,
    fun r hr => ?_⟩
  · exact FileSystem.isDir_put (h.dirs k hk)
  · by_cases heq : k = lt ++ p ++ [x]
    · subst heq
      rw [hput]
      exact ⟨c, Function.update_self ..⟩
    · rw [FileSystem.node_put_of_ne fs₁ heq]
      exact h.files k c' hk
  · by_cases heq : lf ++ r = lt ++ p ++ [x]
    · exact hshape r heq.symm
    · rw [FileSystem.node_put_of_ne fs₁ heq] at hr
      exact h.shape r hr

theorem Shaped.trans (h₁ : Shaped names shape lf fs fs₁) (h : Shaped names shape lf fs₁ fs') :
    Shaped names shape lf fs fs' where
  plain := h.plain
  cwd := h.cwd.trans h₁.cwd
  dirs k hk := h.dirs k (h₁.dirs k hk)
  files k c hk := by
    obtain ⟨c', hc'⟩ := h₁.files k c hk
    exact h.files k c' hc'
  shape := h.shape

theorem Shaped.refl (h : Shaped names shape lf fs fs₁) : Shaped names shape lf fs₁ fs₁ :=
  ⟨h.plain, rfl, fun _ hk => hk, fun _ c hk => ⟨c, hk⟩, h.shape⟩

end Shape

/-- The call for a place below both directories, when the places above it are there. -/
structure Level (names : List Name) (lf lt p : Location Char) (fs : FileSystem Char C)
    (fromDir toDir : Path Char) : Prop where
  fromDir_eq : destination fs.cwd fromDir = lf ++ p
  toDir_eq : destination fs.cwd toDir = lt ++ p
  reached : fs.Reached fromDir
  above : ∀ k ∈ way fs.cwd toDir, fs.IsDir k ∨ k = lt ++ p
  named : ∀ x, .normal x ∈ toDir → x ∈ names

section Ends

variable [EmptyCollection C] {readDir : ReadDir C} {names : List Name}
  {shape : Location Char → Prop} {lf lt p : Location Char} {fs fs₁ : FileSystem Char C}
  {fromDir toDir : Path Char} {x : Name} {depth fuel : ℕ}

omit [EmptyCollection C] in
theorem Level.start (hplain : fs.Plain names) (hfrom : fs.Reached fromDir)
    (hto : fs.Reached toDir) :
    Level names (destination fs.cwd fromDir) (destination fs.cwd toDir) [] fs fromDir toDir :=
  ⟨(List.append_nil _).symm, (List.append_nil _).symm, hfrom, fun k hk => .inl (hto k hk),
    fun _ hx => hplain.named_of_reached hto hx⟩

omit [EmptyCollection C] in
theorem Level.grown (h : Level names lf lt p fs fromDir toDir)
    (hgrown : Grown [] fs fs₁ (way fs.cwd toDir)) : Level names lf lt p fs₁ fromDir toDir where
  fromDir_eq := by rw [hgrown.cwd, h.fromDir_eq]
  toDir_eq := by rw [hgrown.cwd, h.toDir_eq]
  reached := h.reached.of_dirs hgrown.cwd fun _ hk => hgrown.isDir hk
  above k hk := .inl (hgrown.reached k hk)
  named := h.named

omit [EmptyCollection C] in
theorem Level.concat (h : Level names lf lt p fs fromDir toDir) (hcwd : fs₁.cwd = fs.cwd)
    (hto : fs₁.Reached toDir) (hfrom : fs₁.Reached fromDir) (hx : fs₁.IsDir (lf ++ p ++ [x]))
    (hname : x ∈ names) :
    Level names lf lt (p ++ [x]) fs₁ (fromDir ++ [.normal x]) (toDir ++ [.normal x]) where
  fromDir_eq := by rw [destination_concat, hcwd, h.fromDir_eq, List.append_assoc]
  toDir_eq := by rw [destination_concat, hcwd, h.toDir_eq, List.append_assoc]
  reached := hfrom.concat (by rwa [hcwd, h.fromDir_eq])
  above k hk := by
    rw [way_concat] at hk
    rcases List.mem_append.mp hk with hk | hk
    · exact .inl (hto k hk)
    · rw [List.mem_singleton.mp hk, hcwd, h.toDir_eq, List.append_assoc]
      exact .inr rfl
  named y hy := by
    rcases List.mem_append.mp hy with hy | hy
    · exact h.named y hy
    · cases List.mem_singleton.mp hy
      exact hname

theorem copyEntry_yields {copy : Path Char → Path Char → Export C Unit}
    (hcopy : ∀ s, Shaped names shape lf fs s →
      Level names lf lt (p ++ [x]) s (fromDir ++ [.normal x]) (toDir ++ [.normal x]) →
      Fallible.Yields (copy (fromDir ++ [.normal x]) (toDir ++ [.normal x])) s
        (fun _ => Shaped names shape lf s) (· ≠ .unfinished))
    (hshape : ∀ p, shape p → ∀ r, lt ++ p = lf ++ r → shape r)
    (hlevel : Level names lf lt p fs fromDir toDir) (hto : fs.Reached toDir)
    (hs : Shaped names shape lf fs fs₁) :
    Fallible.Yields (copyEntry copy (lf ++ p) fromDir toDir x) fs₁
      (fun _ => Shaped names shape lf fs) (· ≠ .unfinished) := by
  have hfrom₁ := hlevel.reached.of_dirs hs.cwd hs.dirs
  have hto₁ := hto.of_dirs hs.cwd hs.dirs
  have hdest : destination fs₁.cwd fromDir = lf ++ p := by rw [hs.cwd, hlevel.fromDir_eq]
  have hdest' : destination fs₁.cwd toDir = lt ++ p := by rw [hs.cwd, hlevel.toDir_eq]
  refine Fallible.Yields.bind (Fallible.Yields.get ?_)
  split
  · rename_i hsome
    rw [Option.isSome_iff_ne_none] at hsome
    have hx : x ∈ names := hs.plain.named _ x hsome
    dsimp only
    split
    · rename_i hdir
      have hdir' : fs₁.isDir (fromDir ++ [.normal x]) = true := hdir
      rw [hs.plain.isDir_concat hfrom₁, hdest, decide_eq_true_eq] at hdir'
      exact (hcopy fs₁ hs (hlevel.concat hs.cwd hto₁ hfrom₁ hdir' hx)).mono
        (fun _ _ h => hs.trans h) fun _ h => h
    · refine Fallible.Yields.attempt (fun fs' hfs' => ?_) (by simp)
      obtain ⟨c, _, hnot, rfl⟩ := hs.plain.of_copy hfrom₁ hto₁ hfs'
      have hlt := hto₁.isDir
      rw [hdest'] at hnot hlt ⊢
      refine hs.put hx hlt hnot _ fun r hr => hshape (p ++ [x]) (hs.shape _ ?_) r ?_
      · rwa [← List.append_assoc]
      · rwa [← List.append_assoc]
  · exact Fallible.Yields.pure hs

/-- The recursion ends if what is found below the source cannot get deeper than some
depth, whatever is copied. -/
theorem copyDir_yields
    (hdepth : ∀ fs', Shaped names shape lf fs fs' → ∀ p, fs'.node (lf ++ p) ≠ none →
      p.length ≤ depth)
    (hshape : ∀ p, shape p → ∀ r, lt ++ p = lf ++ r → shape r)
    (hfs : Shaped names shape lf fs fs₁) (hlevel : Level names lf lt p fs₁ fromDir toDir)
    (hfuel : depth < p.length + fuel) :
    Fallible.Yields (copyDir readDir fuel fromDir toDir) fs₁
      (fun _ => Shaped names shape lf fs₁) (· ≠ .unfinished) := by
  have hdir := hlevel.reached.isDir
  rw [hlevel.fromDir_eq] at hdir
  induction fuel generalizing p fs₁ fromDir toDir with
  | zero =>
      have hle := hdepth fs₁ hfs p (by rw [hdir]; simp)
      omega
  | succ fuel ih =>
      have hp : shape p := hfs.shape p (by rw [hdir]; simp)
      have hcreate := (FileSystem.createDirAllFrom_yields
        (ExportPanic.createDirectory toDir) [] toDir fs₁).and_ends
        (hfs.plain.createDirAll _ hlevel.named)
      refine Fallible.Yields.bind (hcreate.mono ?_ ?_)
      · rintro _ fs₂ ⟨_, hplain₂, hgrown⟩
        have hfs₂ : Shaped names shape lf fs₁ fs₂ :=
          hfs.refl.grown hplain₂ hgrown hlevel.above (hshape p hp)
        have hto := hgrown.reached
        have hlevel₂ := hlevel.grown hgrown
        refine Fallible.Yields.bind (Fallible.Yields.get ?_)
        cases hopen : openDir fs₂ fromDir with
        | none => exact Fallible.Yields.throw (by simp)
        | some l =>
            obtain ⟨hfind, _⟩ := openDir_eq_some hopen
            obtain rfl := hplain₂.eq_of_find hfind
            rw [hlevel₂.fromDir_eq]
            refine (Fallible.Yields.forM hfs₂.refl fun x _ s hs => ?_).mono
              (fun _ _ h => hfs₂.trans h) fun _ h => h
            refine copyEntry_yields (fun s' hs' hlevel' => ?_) hshape hlevel₂ hto hs
            have hfuel' : depth < (p ++ [x]).length + fuel := by
              rw [List.length_append, List.length_singleton]
              omega
            have hdir' := hlevel'.reached.isDir
            rw [hlevel'.fromDir_eq] at hdir'
            exact ih ((hfs.trans hfs₂).trans hs') hlevel' hfuel' hdir'
      · rintro _ rfl
        simp

theorem yields_copyEntry_of_isDir {copy : Path Char → Path Char → Export C Unit}
    {l : Location Char} {done : Unit → FileSystem Char C → Prop} {thrown : ExportPanic → Prop}
    (hnode : fs.node (l ++ [x]) ≠ none) (hdir : fs.isDir (fromDir ++ [.normal x]) = true)
    (h : Fallible.Yields (copy (fromDir ++ [.normal x]) (toDir ++ [.normal x])) fs done thrown) :
    Fallible.Yields (copyEntry copy l fromDir toDir x) fs done thrown := by
  refine Fallible.Yields.bind (Fallible.Yields.get ?_)
  rw [if_pos (Option.isSome_iff_ne_none.mpr hnode)]
  dsimp only
  rw [if_pos (c := fs.isDir (join fromDir [.normal x]) = true) hdir]
  exact h

/-- A listing that has the next name on a way first, which is repeated forever. -/
def readToward (names : List Name) (lf t : Location Char) : ReadDir C :=
  fun _ l => (names.filter fun x => l ++ [x] = lf ++ repeated t (l.length - lf.length + 1)) ++
    names

omit [EmptyCollection C] in
theorem isComplete_readToward (names : List Name) (lf t : Location Char) :
    (readToward names lf t : ReadDir C).IsComplete names :=
  fun _ hplain l x hx => List.mem_append_right _ (hplain.named l x hx)

omit [EmptyCollection C] in
theorem readToward_eq_cons {t : Location Char} {n : ℕ} (ht : t ≠ [])
    (hx : repeated t (n + 1) = repeated t n ++ [x]) (hname : x ∈ names) (fs : FileSystem Char C) :
    ∃ rest, readToward names lf t fs (lf ++ repeated t n) = x :: rest := by
  have hlen : (lf ++ repeated t n).length - lf.length + 1 = n + 1 := by
    rw [List.length_append, length_repeated ht]
    omega
  rw [readToward, hlen, hx]
  cases hfilter : names.filter fun y => lf ++ repeated t n ++ [y] = lf ++ (repeated t n ++ [x]) with
  | nil =>
      have hmem : x ∈ names.filter fun y => lf ++ repeated t n ++ [y] =
          lf ++ (repeated t n ++ [x]) := List.mem_filter.mpr ⟨hname, by simp⟩
      rw [hfilter] at hmem
      cases hmem
  | cons y rest =>
      have hmem : y ∈ names.filter fun y => lf ++ repeated t n ++ [y] =
          lf ++ (repeated t n ++ [x]) := hfilter ▸ List.mem_cons_self
      obtain rfl : y = x := by simpa using (List.mem_filter.mp hmem).2
      exact ⟨rest ++ names, rfl⟩

/-- Without a file in the way, the recursion follows the way down forever. -/
theorem copyDir_unfinished {t : Location Char} {n : ℕ} (ht : t ≠ []) (hplain : fs.Plain names)
    (hfree : ∀ n, ¬ fs.IsOccupied (lf ++ repeated t n))
    (hlevel : Level names lf (lf ++ t) (repeated t n) fs fromDir toDir) (hne : fromDir ≠ [])
    (fuel : ℕ) :
    Fallible.Yields (copyDir (readToward names lf t) fuel fromDir toDir) fs
      (fun _ _ => False) (· = .unfinished) := by
  induction fuel generalizing n fs fromDir toDir with
  | zero => exact Fallible.Yields.throw rfl
  | succ fuel ih =>
      have hlap : lf ++ t ++ repeated t n = lf ++ repeated t (t.length + n) := by
        rw [List.append_assoc, append_repeated ht]
      have hcreate := (hplain.createDirAll (ExportPanic.createDirectory toDir) hlevel.named)
      refine Fallible.Yields.bind ((Fallible.Yields.of_ends hcreate ?_).mono ?_ fun _ h => h)
      · rintro _ ⟨k, hk, hoccupied⟩
        rcases hlevel.above k hk with hdir | rfl
        · exact FileSystem.not_isDir_of_isOccupied hoccupied hdir
        · exact hfree _ (hlap ▸ hoccupied)
      · rintro _ fs₂ ⟨hplain₂, hgrown⟩
        have hto := hgrown.reached
        have hlevel₂ := hlevel.grown hgrown
        have hfrom := hlevel₂.reached
        have hopen : openDir fs₂ fromDir = some (lf ++ repeated t n) := by
          have hdir := hfrom.isDir
          rw [openDir, hfrom.find_eq hne]
          rw [hlevel₂.fromDir_eq] at hdir ⊢
          simp [hdir]
        obtain ⟨x, hx⟩ := exists_repeated_succ ht n
        have hdir : fs₂.IsDir (lf ++ repeated t n ++ [x]) := by
          have hlast := hto.isDir
          have hpos := List.length_pos_iff.mpr ht
          obtain ⟨r, hr⟩ := repeated_isPrefix ht (show n + 1 ≤ t.length + n by omega)
          rw [hlevel₂.toDir_eq, hlap, ← hr, hx, ← List.append_assoc, ← List.append_assoc] at hlast
          exact fs₂.isDir_of_isDir_append hlast
        have hname : x ∈ names := hplain₂.named _ x (by rw [hdir]; simp)
        obtain ⟨rest, hrest⟩ : ∃ rest, readToward names lf t fs₂ (lf ++ repeated t n) = x :: rest :=
          readToward_eq_cons ht hx hname fs₂
        refine Fallible.Yields.bind (Fallible.Yields.get ?_)
        rw [hopen]
        dsimp only
        rw [hrest]
        have hisDir : fs₂.isDir (fromDir ++ [.normal x]) = true := by
          rw [hplain₂.isDir_concat hfrom, hlevel₂.fromDir_eq, decide_eq_true hdir]
        refine Fallible.Yields.bind_of_stops
          (yields_copyEntry_of_isDir (by rw [hdir]; simp) hisDir ?_)
        refine ih (n := n + 1) hplain₂ (fun m hm => hfree m (hgrown.isOccupied_iff.mp hm)) ?_
          (by simp)
        rw [hx]
        exact hlevel₂.concat rfl hto hfrom hdir hname

/-- The recursion ends after finitely many calls. -/
def Finishes (readDir : ReadDir C) (fs : FileSystem Char C) (fromDir toDir : Path Char) : Prop :=
  ∃ fuel, (Fallible.exec (copyDir readDir fuel fromDir toDir) fs).1 ≠ .error .unfinished

/-- If the second place lies below the first one, a file is found further down the way from
the first place to the second, when this way is repeated. -/
def EndsInFile (fs : FileSystem Char C) (lf lt : Location Char) : Prop :=
  ∀ t, t ≠ [] → lt = lf ++ t →
    ∃ n, t.length < n ∧ ∃ c, fs.node (lf ++ repeated t n) = some (.file c)

theorem Finishes.of_shape (hplain : fs.Plain names) (hfrom : fs.Reached fromDir)
    (hto : fs.Reached toDir)
    (hinit : ∀ p, fs.node (destination fs.cwd fromDir ++ p) ≠ none → shape p)
    (hdepth : ∀ fs', Shaped names shape (destination fs.cwd fromDir) fs fs' → ∀ p,
      fs'.node (destination fs.cwd fromDir ++ p) ≠ none → p.length ≤ depth)
    (hshape : ∀ p, shape p → ∀ r,
      destination fs.cwd toDir ++ p = destination fs.cwd fromDir ++ r → shape r) :
    Finishes readDir fs fromDir toDir := by
  have hfs : Shaped names shape (destination fs.cwd fromDir) fs fs :=
    ⟨hplain, rfl, fun _ hk => hk, fun _ c hk => ⟨c, hk⟩, hinit⟩
  have hyields : Fallible.Yields (copyDir readDir (depth + 1) fromDir toDir) fs _ _ :=
    copyDir_yields hdepth hshape hfs (.start hplain hfrom hto) (by simp)
  exact ⟨depth + 1, hyields.ne_error (by simp)⟩

/-- What is copied to a place that does not lie below the source does not get deeper. -/
theorem Finishes.of_not_below {bound : ℕ} (hplain : fs.Plain names) (hfrom : fs.Reached fromDir)
    (hto : fs.Reached toDir) (hbound : ∀ k, fs.node k ≠ none → k.length ≤ bound)
    (hnot : ∀ t, t ≠ [] → destination fs.cwd toDir ≠ destination fs.cwd fromDir ++ t) :
    Finishes readDir fs fromDir toDir := by
  have hT : ∀ p, (destination fs.cwd fromDir ++ p).length ≤ bound → p.length ≤ bound := by
    intro p hp
    rw [List.length_append] at hp
    omega
  refine .of_shape hplain hfrom hto (fun p hp => hbound _ hp)
    (fun fs' h p hp => hT p (h.shape p hp)) fun p hp r hr => ?_
  have hle : (destination fs.cwd toDir).length ≤ (destination fs.cwd fromDir).length := by
    rcases List.prefix_or_prefix_of_prefix (List.prefix_append _ p)
      (hr ▸ List.prefix_append _ r) with hbelow | ⟨t, ht⟩
    · exact hbelow.length_le
    · by_cases hnil : t = []
      · exact Nat.le_of_eq (by rw [← ht, hnil, List.append_nil])
      · exact absurd ht.symm (hnot t hnil)
  rw [← hr, List.length_append]
  rw [List.length_append] at hp
  omega

/-- A file further down the way keeps everything that is made above it. -/
theorem Finishes.of_file {bound n : ℕ} {t : Location Char} {c : C} (hplain : fs.Plain names)
    (hfrom : fs.Reached fromDir) (hto : fs.Reached toDir)
    (hbound : ∀ k, fs.node k ≠ none → k.length ≤ bound) (ht : t ≠ [])
    (hbelow : destination fs.cwd toDir = destination fs.cwd fromDir ++ t)
    (hfile : fs.node (destination fs.cwd fromDir ++ repeated t n) = some (.file c)) :
    Finishes readDir fs fromDir toDir := by
  have hinit : ∀ p, fs.node (destination fs.cwd fromDir ++ p) ≠ none →
      ∃ i q, p = laps t i ++ q ∧ q.length ≤ bound := by
    intro p hp
    have hle := hbound _ hp
    rw [List.length_append] at hle
    exact ⟨0, p, rfl, by omega⟩
  have hdepth : ∀ fs', Shaped names (fun p => ∃ i q, p = laps t i ++ q ∧ q.length ≤ bound)
      (destination fs.cwd fromDir) fs fs' → ∀ p,
        fs'.node (destination fs.cwd fromDir ++ p) ≠ none → p.length ≤ n * t.length + bound := by
    intro fs' h p hp
    obtain ⟨i, q, rfl, hq⟩ := h.shape p hp
    rw [List.length_append, length_laps]
    by_cases hi : i ≤ n
    · have hle := Nat.mul_le_mul_right t.length hi
      omega
    · -- Nothing is found below the file.
      obtain ⟨c', hc'⟩ := h.files _ c hfile
      obtain ⟨i, rfl⟩ := Nat.exists_eq_add_of_lt (Nat.lt_of_not_le hi)
      obtain ⟨r, hr⟩ := repeated_isPrefix_laps ht (Nat.le_refl n)
      have hsplit : destination fs.cwd fromDir ++ (laps t (n + i + 1) ++ q) =
          destination fs.cwd fromDir ++ repeated t n ++ (r ++ (t ++ laps t i) ++ q) := by
        rw [Nat.add_assoc, laps_add, ← hr, ← append_laps]
        simp only [List.append_assoc]
      rw [hsplit] at hp
      refine absurd (FileSystem.node_append_eq_none (fun hd => by cases hc'.symm.trans hd) ?_) hp
      simp [ht]
  refine .of_shape hplain hfrom hto hinit hdepth ?_
  rintro p ⟨i, q, rfl, hq⟩ r hr
  rw [hbelow, List.append_assoc, List.append_cancel_left_eq] at hr
  refine ⟨i + 1, q, ?_, hq⟩
  rw [← hr, ← append_laps, List.append_assoc]

omit [EmptyCollection C] in
theorem not_isOccupied_repeated {t : Location Char} (hplain : fs.Plain names) (ht : t ≠ [])
    (hdir : fs.IsDir (lf ++ t))
    (hfile : ∀ n, t.length < n → ∀ c, fs.node (lf ++ repeated t n) ≠ some (.file c)) (n : ℕ) :
    ¬ fs.IsOccupied (lf ++ repeated t n) := by
  by_cases hn : n ≤ t.length
  · obtain ⟨r, hr⟩ := repeated_isPrefix ht hn
    rw [repeated_length ht] at hr
    rw [← hr, ← List.append_assoc] at hdir
    exact fun hoccupied =>
      FileSystem.not_isDir_of_isOccupied hoccupied (fs.isDir_of_isDir_append hdir)
  · rintro ⟨node, hnode, hne⟩
    cases node with
    | dir => exact hne rfl
    | file c => exact hfile n (Nat.lt_of_not_le hn) c hnode
    | symlink target => exact hplain.links _ _ hnode

/-- Without a file further down the way, there is an order for which the recursion does not
end. -/
theorem not_finishes {t : Location Char} (hplain : fs.Plain names) (hfrom : fs.Reached fromDir)
    (hne : fromDir ≠ []) (hto : fs.Reached toDir) (ht : t ≠ [])
    (hbelow : destination fs.cwd toDir = destination fs.cwd fromDir ++ t)
    (hfile : ∀ n, t.length < n → ∀ c,
      fs.node (destination fs.cwd fromDir ++ repeated t n) ≠ some (.file c)) :
    ¬ Finishes (readToward names (destination fs.cwd fromDir) t) fs fromDir toDir := by
  have hfree := not_isOccupied_repeated hplain ht (hbelow ▸ hto.isDir) hfile
  have hlevel := Level.start hplain hfrom hto
  rw [hbelow, ← repeated_zero t] at hlevel
  rintro ⟨fuel, hfuel⟩
  obtain ⟨_, rfl, herror⟩ := (copyDir_unfinished ht hplain hfree hlevel hne fuel).eq_error
  exact hfuel herror

/-- Copying a directory to another one ends, in whatever order directories are read,
exactly if the other one does not lie below it, or a file ends the way down. -/
theorem copyDir_finishes_iff {bound : ℕ} (hplain : fs.Plain names)
    (hbound : ∀ k, fs.node k ≠ none → k.length ≤ bound) (hfrom : fs.isDir fromDir = true)
    (hto : fs.isDir toDir = true) :
    (∀ readDir : ReadDir C, readDir.IsComplete names → Finishes readDir fs fromDir toDir) ↔
      EndsInFile fs (destination fs.cwd fromDir) (destination fs.cwd toDir) := by
  obtain ⟨hfrom, hne⟩ := hplain.reached_of_isDir hfrom
  obtain ⟨hto, -⟩ := hplain.reached_of_isDir hto
  constructor
  · intro h t ht hbelow
    by_contra hnone
    have hfile : ∀ n, t.length < n → ∀ c,
        fs.node (destination fs.cwd fromDir ++ repeated t n) ≠ some (.file c) :=
      fun n hn c hc => hnone ⟨n, hn, c, hc⟩
    exact not_finishes hplain hfrom hne hto ht hbelow hfile
      (h _ (isComplete_readToward names (destination fs.cwd fromDir) t))
  · intro h readDir _
    by_cases hbelow : ∃ t, t ≠ [] ∧ destination fs.cwd toDir = destination fs.cwd fromDir ++ t
    · obtain ⟨t, ht, hbelow⟩ := hbelow
      obtain ⟨n, _, c, hfile⟩ := h t ht hbelow
      exact .of_file hplain hfrom hto hbound ht hbelow hfile
    · exact .of_not_below hplain hfrom hto hbound fun t ht heq => hbelow ⟨t, ht, heq⟩

end Ends

section Below

def nested (x : Name) : FileSystem Char (List ℕ) :=
  .ofFile ["a".toList, "b".toList] x [7]

theorem plain_nested (x : Name) : (nested x).Plain ["a".toList, "b".toList, x] := by
  refine ⟨fun k t => FileSystem.node_ofFile_ne_symlink t, fun l y hy => ?_⟩
  exact (FileSystem.prefix_of_node_ofFile hy).subset (List.mem_append_right l List.mem_cons_self)

theorem length_le_of_node_nested {x : Name} {k : Location Char} (hk : (nested x).node k ≠ none) :
    k.length ≤ 3 :=
  (FileSystem.prefix_of_node_ofFile hk).length_le

/-- The file `/a/b/b` stops copying `/a` to `/a/b`. -/
theorem copyDir_finishes_file :
    Finishes (readAmong ["a".toList, "b".toList, "b".toList]) (nested "b".toList)
      [.rootDir, .normal "a".toList] [.rootDir, .normal "a".toList, .normal "b".toList] := by
  refine (copyDir_finishes_iff (plain_nested "b".toList) (fun k => length_le_of_node_nested)
    (by decide +kernel) (by decide +kernel)).mpr ?_ _ (isComplete_readAmong _)
  rintro t _ ht
  obtain rfl : ["b".toList] = t := (List.cons_inj_right "a".toList).mp ht
  exact ⟨2, by decide, [7], rfl⟩

/-- Copying `/a` to `/a/b` goes on forever. -/
theorem not_finishes_nested : ∃ readDir : ReadDir (List ℕ),
    readDir.IsComplete ["a".toList, "b".toList, "f".toList] ∧
      ¬ Finishes readDir (nested "f".toList) [.rootDir, .normal "a".toList]
        [.rootDir, .normal "a".toList, .normal "b".toList] := by
  have hplain := plain_nested "f".toList
  obtain ⟨hfrom, hne⟩ := hplain.reached_of_isDir (p := [.rootDir, .normal "a".toList])
    (by decide +kernel)
  obtain ⟨hto, -⟩ := hplain.reached_of_isDir
    (p := [.rootDir, .normal "a".toList, .normal "b".toList]) (by decide +kernel)
  refine ⟨readToward _ ["a".toList] ["b".toList], isComplete_readToward _ _ _, ?_⟩
  refine not_finishes hplain hfrom hne hto (by simp) rfl fun n _ c hc => ?_
  rw [nested, FileSystem.node_ofFile] at hc
  split at hc
  · rename_i heq
    have hrest : repeated ["b".toList] n = ["b".toList, "f".toList] :=
      (List.cons_inj_right "a".toList).mp heq
    have hmem : "f".toList ∈ repeated ["b".toList] n := by
      rw [hrest]
      exact List.mem_cons_of_mem _ List.mem_cons_self
    exact absurd (mem_of_mem_repeated hmem) (by decide)
  · split at hc <;> cases hc

end Below

end Build

end Xbpf
