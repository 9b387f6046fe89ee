import Xbpf.Build.Progress

/-!
# Building into less

What stops a build is something in the place of a directory, or a directory in the
place of a skeleton or of a link. A build that returns therefore also returns in an
output directory where less is found, and leaves less there as well. The one thing
it may miss is the header, which is dumped again.
-/

namespace Xbpf

namespace Build

open Files Runs

variable {α C : Type} [DecidableEq α] [OsAlphabet α] {path : Path α} {d : Location α}
  {fs₁ fs₁' fs fs' : FileSystem α C} {sources : List (Source α)} {s : Source α}

structure Covers (d : Location α) (fs₁ fs : FileSystem α C) : Prop where
  dirs : ∀ l, fs₁.IsDir (d ++ l) → fs.IsDir (d ++ l)
  occupied : ∀ l, fs₁.IsOccupied (d ++ l) → fs.IsOccupied (d ++ l)

namespace Covers

variable {r : Path α} {m : Location α} {name : Name} {link : Prop}

omit [DecidableEq α] in
theorem isBlocked (h : Covers d fs₁ fs) (hblocked : IsBlocked d fs₁ r m name link) :
    IsBlocked d fs r m name link := by
  rcases hblocked with ⟨k, hk, hoccupied⟩ | hdir | ⟨hlink, hdir⟩
  · exact .inl ⟨k, hk, h.occupied k hoccupied⟩
  · exact .inr (.inl (hdir.imp_left (h.dirs _)))
  · exact .inr (.inr ⟨hlink, hdir.imp_left (h.dirs _)⟩)

theorem treated {c₁ c : C} (h : Covers d fs₁ fs)
    (htreated₁ : Treated path d fs₁ fs₁' r m name link c₁)
    (htreated : Treated path d fs fs' r m name link c) : Covers d fs₁' fs' := by
  constructor
  · intro l hdir
    exact htreated.isDir_iff.mpr ((htreated₁.isDir_iff.mp hdir).imp_left (h.dirs l))
  · intro l hoccupied
    rcases htreated₁.isOccupied_cases hoccupied with hold | hnew
    · exact htreated.keepsOccupied _ (h.occupied l hold)
    · exact htreated.isOccupied hnew

end Covers

section Parts

variable {self : Builder α} {env : Environment α C}

theorem exec_buildSource_of_covers (hdir : (self.outDir <|> env.outDir) = some path)
    (hlayout : Layout sources) (hs : s ∈ sources) (htidy₁ : Tidy path d True fs₁)
    (htidy : Tidy path d True fs) (h : Covers d fs₁ fs)
    (hexec : Fallible.exec
      (self.buildSource env path (Builder.nameCount sources) s.1 s.2) fs = (.ok (), fs')) :
    ∃ fs₁', Fallible.exec
      (self.buildSource env path (Builder.nameCount sources) s.1 s.2) fs₁ = (.ok (), fs₁') ∧
        Tidy path d True fs₁' ∧ Tidy path d True fs' ∧ Covers d fs₁' fs' := by
  obtain ⟨m, hm, hends⟩ := htidy.buildSource_of_mem hdir hlayout hs
  obtain ⟨m₁, hm₁, hends₁⟩ := htidy₁.buildSource_of_mem hdir hlayout hs
  cases hm.symm.trans hm₁
  obtain ⟨htidy', c, hgen, htreated⟩ := hends.of_exec_eq_ok hexec
  obtain ⟨⟨⟩, fs₁', hexec₁, htidy₁', c₁, _, htreated₁⟩ := hends₁.exists_exec_eq_ok (by
    rintro fs₁' ⟨_, hnone | hblocked⟩
    · cases hgen.symm.trans hnone
    · exact htreated.not_isBlocked (h.isBlocked hblocked))
  exact ⟨fs₁', hexec₁, htidy₁', htidy', h.treated htreated₁ htreated⟩

/-- A build that returns would return in an empty output directory, if it can dump the
BTF. -/
theorem exists_exec_build_of_empty (hdir : (self.outDir <|> env.outDir) = some path)
    {globbed : List (Path α)} (hglobbed : self.globbed env = some globbed)
    (hsources : sources = Builder.named (globbed ++ self.sources)) (hlayout : Layout sources)
    (h : IsLeft path d fs) (hexec : Fallible.exec (self.build env) fs = (.ok (), fs'))
    (htidy₁ : Tidy path d True fs₁) (hempty : ∀ l, l ≠ [] → fs₁.node (d ++ l) = none) {btf : C}
    (hbpftool : env.bpftool = .dumped btf) :
    ∃ fs₁', Fallible.exec (self.build env) fs₁ = (.ok (), fs₁') := by
  rw [build_eq hdir hglobbed hsources] at hexec ⊢
  obtain ⟨_, fs₂, hdump, hloop⟩ := Fallible.exec_bind_eq_ok hexec
  obtain ⟨⟨h₂, _⟩, _, hheader⟩ := (h.tidy.dumpKernelBtf env).of_exec_eq_ok hdump
  obtain ⟨_, fs₃, hdump₁, ⟨h₃, _⟩, hsame, hheader₁⟩ :=
    (htidy₁.dumpKernelBtf env).exists_exec_eq_ok fun _ hstopped => hstopped.2 btf hbpftool
  have hvacant : ∀ l, l ≠ [] → l ≠ [vmlinux] → fs₃.node (d ++ l) = none :=
    fun l hl hne => (hsame l hne).trans (hempty l hl)
  have hoccupied₁ := hheader₁ fun hdir => by cases hdir.symm.trans (hempty _ (by simp))
  have hcovers : Covers d fs₃ fs₂ := by
    constructor
    · intro l hl
      by_cases hnil : l = []
      · simpa [hnil] using h₂.leadsTo.dir
      · by_cases heq : l = [vmlinux]
        · rw [heq] at hl
          exact absurd hl (FileSystem.not_isDir_of_isOccupied hoccupied₁)
        · cases hl.symm.trans (hvacant l hnil heq)
    · rintro l ⟨n, hn, hne⟩
      by_cases heq : l = [vmlinux]
      · rw [heq]
        exact hheader h.header
      · by_cases hnil : l = []
        · rw [hnil, List.append_nil] at hn
          exact absurd (Option.some.inj (hn.symm.trans h₃.leadsTo.dir)) hne
        · cases hn.symm.trans (hvacant l hnil heq)
  obtain ⟨fs₁', hloop₁, _⟩ := Fallible.exec_forM_of_related
    (R := fun fs₁ fs => Tidy path d True fs₁ ∧ Tidy path d True fs ∧ Covers d fs₁ fs)
    (fun s hs _ _ _ hrel hexec =>
      exec_buildSource_of_covers hdir hlayout hs hrel.1 hrel.2.1 hrel.2.2 hexec)
    ⟨h₃, h₂, hcovers⟩ hloop
  refine ⟨fs₁', ?_⟩
  rw [Fallible.exec_bind, hdump₁]
  exact hloop₁

end Parts

end Build

end Xbpf
