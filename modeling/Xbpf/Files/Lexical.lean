import Mathlib.Data.List.DropRight
import Xbpf.Files.Path

/-!
# Resolving paths lexically

Lexically a `..` takes back the name before it, whatever is found there. What is left
of a path is where it starts, at the root or some levels above the directory that
relative paths start from, and the names it goes down from there.
-/

namespace Files

variable {α : Type*}

inductive Origin
  | root
  | above (levels : ℕ)
  deriving DecidableEq, Repr

/-- The root is not left upwards. -/
def Origin.up (n : ℕ) : Origin → Origin
  | root => root
  | above levels => above (levels + n)

theorem Origin.up_zero (o : Origin) : o.up 0 = o := by
  cases o <;> rfl

theorem Origin.up_up (o : Origin) (m n : ℕ) : (o.up m).up n = o.up (m + n) := by
  cases o with
  | root => rfl
  | above levels => exact congrArg above (Nat.add_assoc levels m n)

theorem Origin.up_eq_self_iff (o : Origin) (n : ℕ) : o.up n = o ↔ n = 0 ∨ o = root := by
  cases o <;> simp [up]

/-- A path without `..`, but for those it starts with. -/
structure Lexical (α : Type*) where
  origin : Origin
  names : List (List α)
  deriving DecidableEq

namespace Lexical

def climb (n : ℕ) (s : Lexical α) : Lexical α where
  origin := s.origin.up (n - s.names.length)
  names := s.names.rdrop n

def follow (s : Lexical α) : Component α → Lexical α
  | .rootDir => ⟨.root, []⟩
  | .curDir => s
  | .parentDir => s.climb 1
  | .normal name => { s with names := s.names ++ [name] }

def go (s : Lexical α) (r : Lexical α) : Lexical α :=
  match r.origin with
  | .root => r
  | .above levels => { s.climb levels with names := (s.climb levels).names ++ r.names }

theorem climb_climb (s : Lexical α) (m n : ℕ) : (s.climb m).climb n = s.climb (m + n) := by
  simp only [climb, List.rdrop, Origin.up_up, List.length_take, List.take_take]
  congr 2 <;> omega

@[simp] theorem go_above (s : Lexical α) (n : ℕ) : s.go ⟨.above n, []⟩ = s.climb n := by
  simp [go]

theorem climb_one_concat (o : Origin) (names : List (List α)) (x : List α) :
    (⟨o, names ++ [x]⟩ : Lexical α).climb 1 = ⟨o, names⟩ := by
  simp [climb, List.rdrop, Origin.up_zero]

theorem go_follow (s r : Lexical α) (c : Component α) : s.go (r.follow c) = (s.go r).follow c := by
  obtain ⟨o, names⟩ := r
  cases c with
  | rootDir => rfl
  | curDir => rfl
  | normal name => cases o <;> simp [follow, go]
  | parentDir =>
      cases o with
      | root => rfl
      | above levels =>
          rcases List.eq_nil_or_concat names with rfl | ⟨names, x, rfl⟩
          · have hclimb : (⟨.above levels, []⟩ : Lexical α).climb 1 = ⟨.above (levels + 1), []⟩ :=
              rfl
            rw [follow, hclimb, go_above, go_above, follow, climb_climb]
          · rw [List.concat_eq_append, follow, climb_one_concat, follow]
            simp only [go, ← List.append_assoc]
            rw [climb_one_concat]

def LiesIn (s d : Lexical α) : Prop :=
  s.origin = d.origin ∧ ∃ below, below ≠ [] ∧ s.names = d.names ++ below

end Lexical

open Lexical

/-- What is left of a path once its `..` are resolved. -/
def lexical (path : Path α) : Lexical α :=
  path.foldl follow ⟨.above 0, []⟩

theorem foldl_follow (s r : Lexical α) (path : Path α) :
    path.foldl follow (s.go r) = s.go (path.foldl follow r) := by
  induction path generalizing r with
  | nil => rfl
  | cons c path ih => rw [List.foldl_cons, List.foldl_cons, ← ih, go_follow]

theorem lexical_append (path other : Path α) :
    lexical (path ++ other) = (lexical path).go (lexical other) := by
  have hstart : (lexical path).go ⟨.above 0, []⟩ = lexical path := by
    simp [climb, List.rdrop, Origin.up_zero]
  calc lexical (path ++ other)
      = other.foldl follow (lexical path) := List.foldl_append ..
    _ = other.foldl follow ((lexical path).go ⟨.above 0, []⟩) := by rw [hstart]
    _ = (lexical path).go (lexical other) := foldl_follow ..

theorem lexical_concat (path : Path α) (name : List α) :
    lexical (path ++ [.normal name]) =
      { lexical path with names := (lexical path).names ++ [name] } := by
  rw [lexical, List.foldl_append, ← lexical]
  rfl

/-- Only a root leads to a path that starts there. -/
theorem exists_origin_lexical {path : Path α} (h : .rootDir ∉ path) :
    ∃ levels, (lexical path).origin = .above levels := by
  induction path using List.reverseRecOn with
  | nil => exact ⟨0, rfl⟩
  | append_singleton path c ih =>
      obtain ⟨levels, hlevels⟩ := ih fun hmem => h (List.mem_append_left _ hmem)
      rw [lexical, List.foldl_append, ← lexical]
      cases c with
      | rootDir => exact absurd (List.mem_append_right _ List.mem_cons_self) h
      | curDir => exact ⟨levels, hlevels⟩
      | normal name => exact ⟨levels, hlevels⟩
      | parentDir => exact ⟨_, congrArg (Origin.up _) hlevels⟩

/-- The directory that a relative path leads to from another one lies there or below, if
the path climbs and then goes down again by the names it climbed over. -/
def Reenters (path other : Path α) : Prop :=
  ∃ levels, (lexical other).origin = .above levels ∧
    (levels ≤ (lexical path).names.length ∨ (lexical path).origin = .root) ∧
    (lexical path).names.rtake levels <+: (lexical other).names

theorem liesIn_iff_reenters {other : Path α} (hother : .rootDir ∉ other) (path : Path α)
    (name : List α) :
    (lexical (path ++ (other ++ [.normal name]))).LiesIn (lexical path) ↔
      Reenters path other := by
  obtain ⟨levels, hlevels⟩ := exists_origin_lexical hother
  have hplace : lexical (path ++ (other ++ [.normal name])) =
      ⟨(lexical path).origin.up (levels - (lexical path).names.length),
        (lexical path).names.rdrop levels ++ (lexical other).names ++ [name]⟩ := by
    rw [← List.append_assoc, lexical_concat, lexical_append, go, hlevels]
    rfl
  have hup : (lexical path).origin.up (levels - (lexical path).names.length) =
      (lexical path).origin ↔
      levels ≤ (lexical path).names.length ∨ (lexical path).origin = .root := by
    rw [Origin.up_eq_self_iff, Nat.sub_eq_zero_iff_le]
  have hsplit : (lexical path).names =
      (lexical path).names.rdrop levels ++ (lexical path).names.rtake levels :=
    (List.take_append_drop _ _).symm
  rw [LiesIn, hplace, hup]
  constructor
  · rintro ⟨horigin, below, hbelow, hnames⟩
    refine ⟨levels, hlevels, horigin, ?_⟩
    obtain ⟨below, x, rfl⟩ := (List.eq_nil_or_concat below).resolve_left hbelow
    conv_rhs at hnames => rw [hsplit]
    rw [List.concat_eq_append, ← List.append_assoc] at hnames
    have hrest := (List.append_inj' hnames rfl).1
    rw [List.append_assoc] at hrest
    exact ⟨below, (List.append_cancel_left hrest).symm⟩
  · rintro ⟨levels', hlevels', horigin, below, hbelow⟩
    obtain rfl : levels = levels' := by simpa [hlevels] using hlevels'
    refine ⟨horigin, below ++ [name], by simp, ?_⟩
    change _ ++ _ ++ [name] = _
    rw [← hbelow, ← List.append_assoc, ← List.append_assoc, ← hsplit, List.append_assoc]

end Files
