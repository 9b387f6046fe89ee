import Mathlib.Data.List.Basic

/-!
# Paths

A path is a sequence over an alphabet that has a separator and a dot. Its
components are the segments between separators. Empty segments and dots are not
components, except for the root of an absolute path and for a leading dot of a
relative one.
-/

namespace Files

/-- The alphabet of file names. -/
class PathAlphabet (α : Type*) where
  sep : α
  dot : α
  sep_ne_dot : sep ≠ dot

instance : PathAlphabet Char where
  sep := '/'
  dot := '.'
  sep_ne_dot := by decide

inductive Component (α : Type*)
  | rootDir
  | curDir
  | parentDir
  | normal (name : List α)
  deriving DecidableEq, Repr

abbrev Path (α : Type*) :=
  List (Component α)

def parent {α : Type*} (path : Path α) : Option (Path α) :=
  match path.getLast? with
  | none | some .rootDir => none
  | some _ => some path.dropLast

def fileName {α : Type*} (path : Path α) : Option (List α) :=
  match path.getLast? with
  | some (.normal name) => some name
  | _ => none

/-- Extends a path by another one, which replaces it if it is absolute. -/
def join {α : Type*} (path other : Path α) : Path α :=
  match other with
  | .rootDir :: _ => other
  | .curDir :: rest => if path = [] then other else path ++ rest
  | _ => path ++ other

theorem join_eq_append {α : Type*} {path other : Path α}
    (h : ∀ c ∈ other.head?, c ≠ .rootDir ∧ c ≠ .curDir) : join path other = path ++ other := by
  cases other with
  | nil => rfl
  | cons c rest =>
      obtain ⟨hroot, hcur⟩ := h c rfl
      cases c with
      | rootDir => exact absurd rfl hroot
      | curDir => exact absurd rfl hcur
      | parentDir => rfl
      | normal name => rfl

section Text

open PathAlphabet

variable {α : Type*} [DecidableEq α] [PathAlphabet α]

/-- The component a segment stands for, unless it is the first one. -/
def Component.ofSegment (segment : List α) : Option (Component α) :=
  if segment = [] ∨ segment = [dot] then none
  else if segment = [dot, dot] then some .parentDir
  else some (.normal segment)

def components (path : List α) : List (Component α) :=
  match path.splitOn sep with
  | [] => []
  | first :: rest =>
      (if path.head? = some sep then [.rootDir]
        else if first = [dot] then [.curDir]
        else (Component.ofSegment first).toList) ++
      rest.filterMap Component.ofSegment

def IsPath (path : Path α) : Prop :=
  ∃ text, components text = path

theorem Component.ofSegment_eq_some {segment : List α} {c : Component α}
    (h : ofSegment segment = some c) : c ≠ rootDir ∧ c ≠ curDir := by
  rw [ofSegment] at h
  split at h
  · cases h
  · split at h <;> cases h <;> exact ⟨by simp, by simp⟩

/-- The root and a leading dot are only found at the beginning of a path. -/
theorem IsPath.of_mem_tail {path : Path α} (h : IsPath path) {c : Component α}
    (hc : c ∈ path.tail) : c ≠ .rootDir ∧ c ≠ .curDir := by
  have hrest (segments : List (List α)) {c : Component α}
      (hc : c ∈ segments.filterMap Component.ofSegment) : c ≠ .rootDir ∧ c ≠ .curDir := by
    obtain ⟨segment, _, hsegment⟩ := List.mem_filterMap.mp hc
    exact Component.ofSegment_eq_some hsegment
  obtain ⟨text, rfl⟩ := h
  rw [components] at hc
  split at hc
  · cases hc
  · split at hc
    · exact hrest _ hc
    · split at hc
      · exact hrest _ hc
      · cases hfirst : Component.ofSegment (_ : List α) with
        | none =>
            rw [hfirst] at hc
            exact hrest _ (List.mem_of_mem_tail hc)
        | some c' =>
            rw [hfirst] at hc
            exact hrest _ hc

def Component.asOsStr : Component α → List α
  | rootDir => [sep]
  | curDir => [dot]
  | parentDir => [dot, dot]
  | normal name => name

/-- A file name up to its first dot, which does not count if it comes first. -/
def splitFileAtDot (file : List α) : List α :=
  match file with
  | [] => []
  | first :: rest => if file = [dot, dot] then file else first :: rest.takeWhile (· ≠ dot)

def filePrefix (path : Path α) : Option (List α) :=
  (fileName path).map splitFileAtDot

/-- Extends a path by another one, which replaces it if it is absolute. -/
def push (path other : List α) : List α :=
  if other.head? = some sep then other
  else if path ≠ [] ∧ path.getLast? ≠ some sep then path ++ sep :: other
  else path ++ other

/-- What comes after a separator is not the beginning of a path. -/
theorem components_append_sep (path other : List α) :
    components (path ++ sep :: other) =
      components (path ++ [sep]) ++ (other.splitOn sep).filterMap Component.ofSegment := by
  have hhead : (path ++ sep :: other).head? = (path ++ [sep]).head? := by
    cases path <;> rfl
  rw [components, components, List.splitOn_append_cons_self, List.splitOn_append_cons_self, hhead]
  cases hsplit : path.splitOn sep with
  | nil => exact absurd hsplit (List.splitOn_ne_nil sep path)
  | cons first rest => simp [Component.ofSegment]

theorem components_append_sep_nil {path : List α} (h : path ≠ []) :
    components (path ++ [sep]) = components path := by
  have hhead : (path ++ [sep]).head? = path.head? := by
    rw [List.head?_append, Option.or_of_isSome (List.isSome_head?.mpr h)]
  rw [components, components, List.splitOn_append_cons_self, hhead]
  cases hsplit : path.splitOn sep with
  | nil => exact absurd hsplit (List.splitOn_ne_nil sep path)
  | cons first rest => simp [Component.ofSegment]

theorem components_push {path other : List α} (h : path ≠ []) (hother : other.head? ≠ some sep) :
    components (push path other) =
      components path ++ (other.splitOn sep).filterMap Component.ofSegment := by
  rw [push, if_neg hother]
  by_cases hlast : path.getLast? = some sep
  · obtain ⟨front, rfl⟩ := List.getLast?_eq_some_iff.mp hlast
    rw [if_neg (fun hne => hne.2 hlast), List.append_assoc]
    exact components_append_sep front other
  · rw [if_pos ⟨h, hlast⟩, components_append_sep, components_append_sep_nil h]

section Rebuild

/-- A component as the text of a path has it: the text of a name is one segment, and
stands for nothing else. -/
def Component.IsProper : Component α → Prop
  | normal name => sep ∉ name ∧ ofSegment name = some (normal name)
  | _ => True

theorem sep_not_mem_of_mem_splitOn {text segment : List α} (h : segment ∈ text.splitOn sep) :
    sep ∉ segment := by
  induction text generalizing segment with
  | nil =>
      rw [List.splitOn_nil, List.mem_singleton] at h
      simp [h]
  | cons a text ih =>
      rw [List.splitOn_cons_eq_if_modifyHead] at h
      split at h
      · rcases List.mem_cons.mp h with rfl | h
        · simp
        · exact ih h
      · rename_i ha
        cases hsplit : text.splitOn sep with
        | nil => exact absurd hsplit (List.splitOn_ne_nil sep text)
        | cons first rest =>
            rw [hsplit, List.modifyHead_cons] at h
            rcases List.mem_cons.mp h with rfl | h
            · have hfirst : sep ∉ first := ih (by rw [hsplit]; exact List.mem_cons_self)
              intro hmem
              rcases List.mem_cons.mp hmem with rfl | hmem
              · exact ha (beq_self_eq_true _)
              · exact hfirst hmem
            · exact ih (by rw [hsplit]; exact List.mem_cons_of_mem _ h)

theorem Component.IsProper.of_segment {segment : List α} {c : Component α}
    (hsep : sep ∉ segment) (h : ofSegment segment = some c) : c.IsProper := by
  have hc := h
  rw [ofSegment] at hc
  split at hc
  · cases hc
  · split at hc
    · cases hc
      exact trivial
    · cases hc
      exact ⟨hsep, h⟩

theorem Component.IsProper.of_mem {text : List α} {c : Component α}
    (h : c ∈ components text) : c.IsProper := by
  have hsegment {segment : List α} (hmem : segment ∈ text.splitOn sep)
      (hc : ofSegment segment = some c) : c.IsProper :=
    of_segment (sep_not_mem_of_mem_splitOn hmem) hc
  rw [components] at h
  cases hsplit : text.splitOn sep with
  | nil => exact absurd hsplit (List.splitOn_ne_nil sep text)
  | cons first rest =>
      rw [hsplit] at h hsegment
      rcases List.mem_append.mp h with h | h
      · split at h
        · rw [List.mem_singleton.mp h]
          exact trivial
        · split at h
          · rw [List.mem_singleton.mp h]
            exact trivial
          · exact hsegment List.mem_cons_self (Option.mem_toList.mp h)
      · obtain ⟨segment, hmem, hc⟩ := List.mem_filterMap.mp h
        exact hsegment (List.mem_cons_of_mem _ hmem) hc

theorem Component.asOsStr_ne_nil {c : Component α} (h : c.IsProper) : c.asOsStr ≠ [] := by
  cases c with
  | normal name =>
      rintro (rfl : name = [])
      exact absurd h.2 (by simp [ofSegment])
  | _ => simp [asOsStr]

theorem Component.filterMap_splitOn_asOsStr {c : Component α} (h : c.IsProper)
    (hc : c ≠ rootDir ∧ c ≠ curDir) :
    c.asOsStr.head? ≠ some sep ∧ (c.asOsStr.splitOn sep).filterMap ofSegment = [c] := by
  cases c with
  | rootDir => exact absurd rfl hc.1
  | curDir => exact absurd rfl hc.2
  | parentDir =>
      have hsep : (sep : α) ∉ [dot, dot] := by simp [sep_ne_dot]
      refine ⟨by simp [asOsStr, sep_ne_dot.symm], ?_⟩
      rw [asOsStr, List.splitOn_eq_singleton hsep]
      simp [ofSegment]
  | normal name =>
      refine ⟨fun hhead => h.1 (List.mem_of_mem_head? hhead), ?_⟩
      rw [asOsStr, List.splitOn_eq_singleton h.1]
      simp [h.2]

theorem components_asOsStr {c : Component α} (h : c.IsProper) : components c.asOsStr = [c] := by
  cases c with
  | rootDir => simp [Component.asOsStr, components, List.splitOn_cons_eq_if_modifyHead,
      Component.ofSegment]
  | curDir =>
      have hsep : (sep : α) ∉ [dot] := by simp [sep_ne_dot]
      rw [Component.asOsStr, components, List.splitOn_eq_singleton hsep]
      simp [sep_ne_dot.symm]
  | parentDir =>
      have hsep : (sep : α) ∉ [dot, dot] := by simp [sep_ne_dot]
      rw [Component.asOsStr, components, List.splitOn_eq_singleton hsep]
      simp [sep_ne_dot.symm, Component.ofSegment]
  | normal name =>
      have hname : name ≠ [dot] := by
        rintro rfl
        exact absurd h.2 (by simp [Component.ofSegment])
      have hhead : name.head? ≠ some sep := fun hhead => h.1 (List.mem_of_mem_head? hhead)
      rw [Component.asOsStr, components, List.splitOn_eq_singleton h.1]
      simp [hname, hhead, h.2]

def pushAll (path : List α) (cs : Path α) : List α :=
  cs.foldl (fun out c => push out c.asOsStr) path

@[simp] theorem push_nil (other : List α) : push [] other = other := by
  simp [push]

@[simp] theorem components_nil : components ([] : List α) = [] := by
  simp [components, Component.ofSegment]

theorem eq_nil_of_components {path : List α} (h : components path = []) : path = [] := by
  cases path with
  | nil => rfl
  | cons a path =>
      by_cases ha : a = sep
      · subst ha
        simp [components, List.splitOn_cons_eq_if_modifyHead] at h
      · cases hsplit : path.splitOn sep with
        | nil => exact absurd hsplit (List.splitOn_ne_nil sep path)
        | cons first rest =>
            have hnone : Component.ofSegment (a :: first) = none → a :: first = [dot] := by
              intro h
              rw [Component.ofSegment] at h
              split at h
              · rename_i hor
                exact hor.resolve_left (by simp)
              · split at h <;> cases h
            have hcons : (a :: path).splitOn sep = (a :: first) :: rest := by
              simp [List.splitOn_cons_eq_if_modifyHead, ha, hsplit]
            rw [components, hcons] at h
            obtain ⟨hfirst, _⟩ := List.append_eq_nil_iff.mp h
            split at hfirst
            · cases hfirst
            · split at hfirst
              · cases hfirst
              · rename_i hdot
                exact absurd (hnone (Option.toList_eq_nil_iff.mp hfirst)) hdot

theorem prefix_push {path other : List α} (h : other.head? ≠ some sep) :
    path <+: push path other := by
  rw [push, if_neg h]
  split
  · exact List.prefix_append path _
  · exact List.prefix_append path _

/-- Components that only go on are appended, and nothing is discarded. -/
theorem components_pushAll {path : List α} (hpath : path ≠ []) {cs : Path α}
    (hproper : ∀ c ∈ cs, c.IsProper) (hcs : ∀ c ∈ cs, c ≠ .rootDir ∧ c ≠ .curDir) :
    path <+: pushAll path cs ∧ components (pushAll path cs) = components path ++ cs := by
  induction cs generalizing path with
  | nil => exact ⟨List.prefix_rfl, (List.append_nil _).symm⟩
  | cons c cs ih =>
      obtain ⟨hhead, hsplit⟩ := Component.filterMap_splitOn_asOsStr
        (hproper c List.mem_cons_self) (hcs c List.mem_cons_self)
      have hkept : path <+: push path c.asOsStr := prefix_push hhead
      have hnext : push path c.asOsStr ≠ [] := by
        rintro heq
        rw [heq, List.prefix_nil] at hkept
        exact hpath hkept
      obtain ⟨hrest, hcomponents⟩ := ih hnext
        (fun c hc => hproper c (List.mem_cons_of_mem _ hc))
        (fun c hc => hcs c (List.mem_cons_of_mem _ hc))
      refine ⟨hkept.trans hrest, ?_⟩
      rw [pushAll, List.foldl_cons, ← pushAll, hcomponents, components_push hpath hhead, hsplit,
        List.append_assoc, List.singleton_append]

/-- A path is rebuilt from its components, whichever it begins with. -/
theorem components_pushAll_nil {cs : Path α} (hproper : ∀ c ∈ cs, c.IsProper)
    (hcs : ∀ c ∈ cs.tail, c ≠ .rootDir ∧ c ≠ .curDir) : components (pushAll [] cs) = cs := by
  cases cs with
  | nil => exact components_nil
  | cons c cs =>
      have hc := hproper c List.mem_cons_self
      rw [pushAll, List.foldl_cons, ← pushAll, push_nil,
        (components_pushAll (Component.asOsStr_ne_nil hc)
          (fun c hc => hproper c (List.mem_cons_of_mem _ hc)) hcs).2, components_asOsStr hc,
        List.singleton_append]

theorem components_push_of_relative {path other : List α} (h : path ≠ [])
    (hother : ∀ c ∈ components other, c ≠ .rootDir ∧ c ≠ .curDir) :
    components (push path other) = components path ++ components other := by
  have hhead : other.head? ≠ some sep := by
    intro hhead
    refine (hother .rootDir ?_).1 rfl
    cases hsplit : other.splitOn sep with
    | nil => exact absurd hsplit (List.splitOn_ne_nil sep other)
    | cons first rest => simp [components, hsplit, hhead]
  rw [components_push h hhead]
  refine congrArg _ ?_
  cases hsplit : other.splitOn sep with
  | nil => exact absurd hsplit (List.splitOn_ne_nil sep other)
  | cons first rest =>
      have hfirst : first ≠ [dot] := by
        rintro rfl
        exact (hother .curDir (by simp [components, hsplit, hhead])).2 rfl
      rw [components, hsplit]
      simp only [if_neg hhead, if_neg hfirst, List.filterMap_cons]
      cases Component.ofSegment first <;> rfl

end Rebuild

end Text

end Files
