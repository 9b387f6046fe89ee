import Mathlib.Data.List.TakeWhile
import Mathlib.Data.Nat.Notation

/-!
# Places that are reserved in a queue

Producers reserve places in a queue, fill them at their own pace and submit them in any
order. A place leaves the queue once it and all places before it are submitted, so what
leaves the queue are whole contents in the order of the reservations, however the steps of
the producers are interleaved.

The content of a place is not cleared when it is reserved. A place knows the writes that
are left to be made to it, and carries a proof that these lead to what it is meant to hold.
-/

namespace Channels

variable {μ τ : Type*} {apply : μ → τ → μ}

/-- A reserved place, which is filled by writes. -/
structure Place (apply : μ → τ → μ) where
  meant : μ
  content : μ
  todo : List τ
  submitted : Bool
  leads : todo.foldl apply content = meant
  done : submitted = true → todo = []

namespace Place

def reserve (apply : μ → τ → μ) (content : μ) (todo : List τ) : Place apply :=
  ⟨todo.foldl apply content, content, todo, false, rfl, nofun⟩

def write (p : Place apply) : Option (Place apply) :=
  match h : p.todo with
  | [] => none
  | w :: ws => some
      { meant := p.meant, content := apply p.content w, todo := ws, submitted := p.submitted
        leads := by rw [← p.leads, h, List.foldl_cons]
        done := fun hs => by rw [p.done hs] at h; cases h }

def submit (p : Place apply) : Option (Place apply) :=
  if h : p.todo = [] then some { p with submitted := true, done := fun _ => h } else none

theorem meant_of_write {p p' : Place apply} (h : p.write = some p') :
    p'.meant = p.meant ∧ p'.submitted = p.submitted := by
  rw [write] at h
  split at h
  · cases h
  · cases h
    exact ⟨rfl, rfl⟩

theorem meant_of_submit {p p' : Place apply} (h : p.submit = some p') : p'.meant = p.meant := by
  rw [submit] at h
  split at h
  · cases h
    rfl
  · cases h

theorem content_of_submitted {p : Place apply} (h : p.submitted = true) :
    p.content = p.meant := by
  have hleads := p.leads
  rwa [p.done h] at hleads

end Place

def released (ps : List (Place apply)) : List μ :=
  (ps.takeWhile Place.submitted).map Place.content

def waiting (ps : List (Place apply)) : List (Place apply) :=
  ps.dropWhile Place.submitted

/-- What leaves the queue and what stays is what was meant, in order. -/
theorem released_append_waiting (ps : List (Place apply)) :
    released ps ++ (waiting ps).map Place.meant = ps.map Place.meant := by
  have hreleased : released ps = (ps.takeWhile Place.submitted).map Place.meant :=
    List.map_congr_left fun p hp => Place.content_of_submitted (List.mem_takeWhile_imp hp)
  rw [hreleased, ← List.map_append, waiting, List.takeWhile_append_dropWhile]

theorem map_meant_set {ps : List (Place apply)} {p p' : Place apply} {k : ℕ}
    (hk : ps[k]? = some p) (h : p'.meant = p.meant) :
    (ps.set k p').map Place.meant = ps.map Place.meant := by
  obtain ⟨hlt, rfl⟩ := List.getElem?_eq_some_iff.mp hk
  have hlt' : k < (ps.map Place.meant).length := by simpa using hlt
  have hget : ps[k].meant = (ps.map Place.meant)[k] := by simp
  rw [List.map_set, h, hget, List.set_getElem_self]

end Channels
