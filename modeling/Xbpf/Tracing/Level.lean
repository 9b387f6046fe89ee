import Mathlib.Order.Basic
import Mathlib.Data.Nat.Notation

/-!
# Verbosity levels

`Level` is the level of a message or a span and `LevelFilter` the most verbose
level that is let through, which may be none at all. Both are ordered by their
verbosity, a more verbose level being the greater one, and the verbosity of a
level is the number that the `BPF_TRACING_LEVEL_*` constants give it.
-/

namespace Xbpf

namespace Tracing

inductive Level
  | error
  | warn
  | info
  | debug
  | trace
  deriving DecidableEq, Repr

/-- The most verbose level that is let through. -/
inductive LevelFilter
  | off
  | upTo (lvl : Level)
  deriving DecidableEq, Repr

namespace Level

/-- The value of the matching `BPF_TRACING_LEVEL_*` constant. -/
def verbosity : Level → ℕ
  | error => 1
  | warn => 2
  | info => 3
  | debug => 4
  | trace => 5

theorem verbosity_pos (lvl : Level) : 0 < lvl.verbosity := by
  cases lvl <;> decide

theorem exists_verbosity_eq_iff (n : ℕ) :
    (∃ lvl : Level, n = lvl.verbosity) ↔ 1 ≤ n ∧ n ≤ 5 := by
  constructor
  · rintro ⟨lvl, rfl⟩
    cases lvl <;> decide
  · rintro ⟨h1, h5⟩
    match n, h1, h5 with
    | 1, _, _ => exact ⟨error, rfl⟩
    | 2, _, _ => exact ⟨warn, rfl⟩
    | 3, _, _ => exact ⟨info, rfl⟩
    | 4, _, _ => exact ⟨debug, rfl⟩
    | 5, _, _ => exact ⟨trace, rfl⟩

end Level

namespace LevelFilter

def verbosity : LevelFilter → ℕ
  | off => 0
  | upTo lvl => lvl.verbosity

end LevelFilter

/-- The comparison `lvl <= filter` of a level with a level filter. -/
def Level.passes (lvl : Level) (filter : LevelFilter) : Prop :=
  lvl.verbosity ≤ filter.verbosity

instance (lvl : Level) (filter : LevelFilter) : Decidable (lvl.passes filter) :=
  inferInstanceAs (Decidable (lvl.verbosity ≤ filter.verbosity))

end Tracing

end Xbpf
