import Mathlib.Data.List.Nodup
import Mathlib.Logic.Function.Basic

/-!
# A registry of scopes

A scope is created within another one that is entered, or within none. It is entered once
and exited once, and closed once it is exited and no scope within it is left. A `Registry`
holds the scopes that are not closed yet, and refuses a call that breaks these rules.

Whoever keeps stacks of scopes, where the innermost scope is the parent of the next one and
the first one to go, is never refused. The registry `Tracks` the stacks: it holds the scopes
on them and no others, so scopes on different stacks have nothing to do with each other.
-/

namespace Scopes

inductive Phase
  | created
  | entered
  | exited
  deriving DecidableEq, Repr

structure Scope (ι : Type*) where
  parent : Option ι
  phase : Phase
  children : ℕ
  deriving DecidableEq, Repr

abbrev Registry (ι : Type*) :=
  ι → Option (Scope ι)

inductive Call (ι : Type*)
  | use (parent : Option ι)
  | new (parent : Option ι) (id : ι)
  | enter (id : ι)
  | exit (id : ι)
  | close (id : ι)

namespace Registry

variable {ι : Type*} [DecidableEq ι]

def empty : Registry ι :=
  fun _ => none

/-- The scope can have others within it. -/
def isEntered (r : Registry ι) (id : ι) : Bool :=
  (r id).any fun scope => scope.phase = .entered

/-- Counts the scopes within a scope anew. -/
def adjust (r : Registry ι) (f : ℕ → ℕ) : Option ι → Registry ι
  | none => r
  | some id =>
      Function.update r id ((r id).map fun scope => { scope with children := f scope.children })

/-- Makes a call, unless it breaks the rules. -/
def call (r : Registry ι) : Call ι → Option (Registry ι)
  | .use parent => if parent.all r.isEntered then some r else none
  | .new parent id =>
      if (r id).isNone && parent.all r.isEntered then
        some (Function.update (r.adjust (· + 1) parent) id (some ⟨parent, .created, 0⟩))
      else none
  | .enter id =>
      match r id with
      | some ⟨parent, .created, n⟩ => some (Function.update r id (some ⟨parent, .entered, n⟩))
      | _ => none
  | .exit id =>
      match r id with
      | some ⟨parent, .entered, 0⟩ => some (Function.update r id (some ⟨parent, .exited, 0⟩))
      | _ => none
  | .close id =>
      match r id with
      | some ⟨parent, .exited, 0⟩ =>
          some (Registry.adjust (Function.update r id none) (· - 1) parent)
      | _ => none

def calls : Registry ι → List (Call ι) → Option (Registry ι)
  | r, [] => some r
  | r, c :: cs => (r.call c).bind fun r' => calls r' cs

theorem calls_append (r : Registry ι) (cs cs' : List (Call ι)) :
    r.calls (cs ++ cs') = (r.calls cs).bind fun r' => r'.calls cs' := by
  induction cs generalizing r with
  | nil => rfl
  | cons c cs ih =>
      rw [List.cons_append, calls, calls]
      cases r.call c with
      | none => rfl
      | some r' => exact ih r'

end Registry

section Stacks

variable {ι κ : Type*}

/-- The scopes on a stack, innermost first, where `n` scopes are within the first one. -/
def scopesFrom (n : ℕ) : List ι → List (ι × Scope ι)
  | [] => []
  | id :: below => (id, ⟨below.head?, .entered, n⟩) :: scopesFrom 1 below

def scopes (stack : List ι) : List (ι × Scope ι) :=
  scopesFrom 0 stack

theorem mem_of_mem_scopesFrom {n : ℕ} {stack : List ι} {id : ι} {scope : Scope ι}
    (h : (id, scope) ∈ scopesFrom n stack) : id ∈ stack := by
  induction stack generalizing n with
  | nil => cases h
  | cons top below ih =>
      rcases List.mem_cons.mp h with heq | h
      · cases heq
        exact List.mem_cons_self
      · exact List.mem_cons_of_mem _ (ih h)

theorem exists_scope_of_mem {n : ℕ} {stack : List ι} {id : ι} (h : id ∈ stack) :
    ∃ scope, (id, scope) ∈ scopesFrom n stack := by
  induction stack generalizing n with
  | nil => cases h
  | cons top below ih =>
      rcases List.mem_cons.mp h with rfl | h
      · exact ⟨_, List.mem_cons_self⟩
      · obtain ⟨scope, hscope⟩ := ih h
        exact ⟨scope, List.mem_cons_of_mem _ hscope⟩

theorem mem_scopesFrom_top {n : ℕ} {top : ι} {below : List ι} {scope : Scope ι}
    (h : top ∉ below) : (top, scope) ∈ scopesFrom n (top :: below) ↔
      scope = ⟨below.head?, .entered, n⟩ := by
  constructor
  · intro hmem
    rcases List.mem_cons.mp hmem with heq | hmem
    · exact (Prod.mk.inj heq).2
    · exact absurd (mem_of_mem_scopesFrom hmem) h
  · rintro rfl
    exact List.mem_cons_self

theorem mem_scopesFrom_below {n : ℕ} {top id : ι} {below : List ι} {scope : Scope ι}
    (h : id ≠ top) : (id, scope) ∈ scopesFrom n (top :: below) ↔
      (id, scope) ∈ scopesFrom 1 below := by
  rw [scopesFrom, List.mem_cons]
  refine or_iff_right ?_
  rintro heq
  exact h (Prod.mk.inj heq).1

/-- The registry holds the scopes on the stacks and no others. -/
structure Tracks (r : Registry ι) (stackAt : κ → List ι) : Prop where
  holds : ∀ id scope, r id = some scope ↔ ∃ k, (id, scope) ∈ scopes (stackAt k)
  nodup : ∀ k, (stackAt k).Nodup
  apart : ∀ id k k', id ∈ stackAt k → id ∈ stackAt k' → k = k'

namespace Tracks

variable {r r' : Registry ι} {stackAt : κ → List ι} {k : κ} {id : ι}

theorem empty : Tracks (Registry.empty : Registry ι) fun _ : κ => [] where
  holds id scope := by
    constructor
    · intro h
      cases h
    · rintro ⟨_, h⟩
      cases h
  nodup _ := List.nodup_nil
  apart _ _ _ h _ := nomatch h

theorem ne_none (h : Tracks r stackAt) (hid : id ∈ stackAt k) : r id ≠ none := by
  obtain ⟨scope, hscope⟩ := exists_scope_of_mem hid
  rw [(h.holds id scope).mpr ⟨k, hscope⟩]
  simp

theorem holds_of_mem (h : Tracks r stackAt) (hid : id ∈ stackAt k) (scope : Scope ι) :
    r id = some scope ↔ (id, scope) ∈ scopes (stackAt k) := by
  rw [h.holds]
  constructor
  · rintro ⟨k', hmem⟩
    rwa [h.apart id k k' hid (mem_of_mem_scopesFrom hmem)]
  · exact fun hmem => ⟨k, hmem⟩

theorem top_eq (h : Tracks r stackAt) {below : List ι} (hk : stackAt k = id :: below) :
    r id = some ⟨below.head?, .entered, 0⟩ := by
  have hnotin : id ∉ below := (List.nodup_cons.mp (hk ▸ h.nodup k)).1
  rw [h.holds_of_mem (k := k) (by rw [hk]; exact List.mem_cons_self), hk, scopes,
    mem_scopesFrom_top hnotin]

theorem holds_below (h : Tracks r stackAt) {top : ι} {below : List ι}
    (hk : stackAt k = top :: below) (hid : id ∈ below) (scope : Scope ι) :
    r id = some scope ↔ (id, scope) ∈ scopesFrom 1 below := by
  have hne : id ≠ top := by
    rintro rfl
    exact (List.nodup_cons.mp (hk ▸ h.nodup k)).1 hid
  have hmem : id ∈ stackAt k := by
    rw [hk]
    exact List.mem_cons_of_mem _ hid
  rw [h.holds_of_mem hmem, hk, scopes, mem_scopesFrom_below hne]

theorem all_isEntered (h : Tracks r stackAt) (k : κ) :
    (stackAt k).head?.all r.isEntered = true := by
  cases hk : stackAt k with
  | nil => rfl
  | cons id below => simp [Registry.isEntered, h.top_eq hk]

theorem call_use [DecidableEq ι] (h : Tracks r stackAt) (k : κ) :
    r.call (.use (stackAt k).head?) = some r :=
  if_pos (h.all_isEntered k)

variable [DecidableEq κ]

/-- One of the stacks is replaced, and the registry follows on its scopes alone. -/
theorem replace (h : Tracks r stackAt) {stack : List ι} (hnodup : stack.Nodup)
    (hnew : ∀ id ∈ stack, id ∉ stackAt k → r id = none)
    (hframe : ∀ id, id ∉ stackAt k → id ∉ stack → r' id = r id)
    (hown : ∀ id scope, id ∈ stackAt k ∨ id ∈ stack →
      (r' id = some scope ↔ (id, scope) ∈ scopes stack)) :
    Tracks r' (Function.update stackAt k stack) := by
  have happart : ∀ id k', id ∈ stack → k' ≠ k → id ∉ stackAt k' := by
    intro id k' hid hk' hmem
    by_cases hold : id ∈ stackAt k
    · exact hk' (h.apart id k' k hmem hold)
    · exact h.ne_none hmem (hnew id hid hold)
  constructor
  case holds =>
    intro id scope
    by_cases hid : id ∈ stackAt k ∨ id ∈ stack
    · rw [hown id scope hid]
      constructor
      · intro hmem
        exact ⟨k, by rwa [Function.update_self]⟩
      · rintro ⟨k', hmem⟩
        by_cases hk' : k' = k
        · subst hk'
          rwa [Function.update_self] at hmem
        · rw [Function.update_of_ne hk'] at hmem
          have hmem' := mem_of_mem_scopesFrom hmem
          rcases hid with hold | hnew'
          · exact absurd (h.apart id k' k hmem' hold) hk'
          · exact absurd hmem' (happart id k' hnew' hk')
    · obtain ⟨hold, hnew'⟩ := not_or.mp hid
      rw [hframe id hold hnew', h.holds]
      refine exists_congr fun k' => ?_
      by_cases hk' : k' = k
      · subst hk'
        rw [Function.update_self]
        exact iff_of_false (fun hmem => hold (mem_of_mem_scopesFrom hmem))
          fun hmem => hnew' (mem_of_mem_scopesFrom hmem)
      · rw [Function.update_of_ne hk']
  case nodup =>
    intro k'
    by_cases hk' : k' = k
    · subst hk'
      rwa [Function.update_self]
    · rw [Function.update_of_ne hk']
      exact h.nodup k'
  case apart =>
    intro id k₁ k₂ h₁ h₂
    by_cases hk₁ : k₁ = k <;> by_cases hk₂ : k₂ = k
    · exact hk₁.trans hk₂.symm
    · rw [hk₁, Function.update_self] at h₁
      rw [Function.update_of_ne hk₂] at h₂
      exact absurd h₂ (happart id k₂ h₁ hk₂)
    · rw [hk₂, Function.update_self] at h₂
      rw [Function.update_of_ne hk₁] at h₁
      exact absurd h₁ (happart id k₁ h₂ hk₁)
    · rw [Function.update_of_ne hk₁] at h₁
      rw [Function.update_of_ne hk₂] at h₂
      exact h.apart id k₁ k₂ h₁ h₂

variable [DecidableEq ι]

/-- A new scope is entered within the innermost one of a stack. -/
theorem calls_push (h : Tracks r stackAt) (k : κ) (hid : r id = none) :
    ∃ r', r.calls [.new (stackAt k).head? id, .enter id] = some r' ∧
      Tracks r' (Function.update stackAt k (id :: stackAt k)) := by
  have hnotin : id ∉ stackAt k := fun hmem => h.ne_none hmem hid
  have hnew : r.call (.new (stackAt k).head? id) =
      some (Function.update (r.adjust (· + 1) (stackAt k).head?) id
        (some ⟨(stackAt k).head?, .created, 0⟩)) :=
    if_pos (by rw [hid, h.all_isEntered k]; rfl)
  refine ⟨Function.update (r.adjust (· + 1) (stackAt k).head?) id
    (some ⟨(stackAt k).head?, .entered, 0⟩), ?_, ?_⟩
  · rw [Registry.calls, hnew, Option.bind_some, Registry.calls, Registry.call,
      Function.update_self]
    simp [Registry.calls]
  have hadjust : ∀ id', id' ∉ (stackAt k).head? →
      r.adjust (· + 1) (stackAt k).head? id' = r id' := by
    intro id' hne
    cases hk : stackAt k with
    | nil => rfl
    | cons top below =>
        rw [hk] at hne
        exact Function.update_of_ne (fun heq => hne (by simp [heq])) _ _
  refine h.replace (List.nodup_cons.mpr ⟨hnotin, h.nodup k⟩) ?_ ?_ ?_
  · intro id' hid' hold
    rcases List.mem_cons.mp hid' with rfl | hid'
    · exact hid
    · exact absurd hid' hold
  · intro id' hold hnew'
    rw [Function.update_of_ne (List.ne_of_not_mem_cons hnew'), hadjust]
    exact fun hhead => hold (List.mem_of_mem_head? hhead)
  · intro id' scope hid'
    have hmem : id' = id ∨ id' ∈ stackAt k := by
      rcases hid' with hold | hnew'
      · exact .inr hold
      · exact List.mem_cons.mp hnew'
    by_cases heq : id' = id
    · subst heq
      rw [Function.update_self, scopes, mem_scopesFrom_top hnotin, Option.some_inj]
      exact eq_comm
    · have hmem' := hmem.resolve_left heq
      rw [Function.update_of_ne heq, scopes, mem_scopesFrom_below heq]
      cases hk : stackAt k with
      | nil =>
          rw [hk] at hmem'
          cases hmem'
      | cons top below =>
          rw [hk] at hmem'
          by_cases htop : id' = top
          · subst htop
            have hnotin' : id' ∉ below := (List.nodup_cons.mp (hk ▸ h.nodup k)).1
            rw [mem_scopesFrom_top hnotin', List.head?_cons, Registry.adjust,
              Function.update_self, h.top_eq hk]
            exact ⟨fun hsome => (Option.some_inj.mp hsome).symm, fun hscope => by rw [hscope]; rfl⟩
          · have hbelow := (List.mem_cons.mp hmem').resolve_left htop
            rw [mem_scopesFrom_below htop, List.head?_cons, Registry.adjust,
              Function.update_of_ne htop, h.holds_below hk hbelow]

/-- The innermost scope of a stack is exited and closed. -/
theorem calls_pop (h : Tracks r stackAt) {below : List ι} (hk : stackAt k = id :: below) :
    ∃ r', r.calls [.exit id, .close id] = some r' ∧
      Tracks r' (Function.update stackAt k below) := by
  have hnodup := List.nodup_cons.mp (hk ▸ h.nodup k)
  have hid := h.top_eq hk
  refine ⟨Registry.adjust (Function.update r id none) (· - 1) below.head?, ?_, ?_⟩
  · simp [Registry.calls, Registry.call, hid]
  refine h.replace hnodup.2 ?_ ?_ ?_
  · intro id' hid' hold
    rw [hk] at hold
    exact absurd (List.mem_cons_of_mem _ hid') hold
  · intro id' hold hnew'
    rw [hk] at hold
    have hne := List.ne_of_not_mem_cons hold
    cases below with
    | nil => exact Function.update_of_ne hne _ _
    | cons top rest =>
        rw [List.head?_cons, Registry.adjust,
          Function.update_of_ne (List.ne_of_not_mem_cons hnew'), Function.update_of_ne hne]
  · intro id' scope hid'
    rw [hk] at hid'
    have hmem : id' = id ∨ id' ∈ below := by
      rcases hid' with hold | hnew'
      · exact List.mem_cons.mp hold
      · exact .inr hnew'
    rcases hmem with rfl | hmem
    · refine iff_of_false ?_ fun hscope => hnodup.1 (mem_of_mem_scopesFrom hscope)
      cases below with
      | nil => simp [Registry.adjust]
      | cons top rest =>
          rw [List.head?_cons, Registry.adjust,
            Function.update_of_ne (List.ne_of_not_mem_cons hnodup.1), Function.update_self]
          simp
    · have hne : id' ≠ id := by
        rintro rfl
        exact hnodup.1 hmem
      have hold := h.holds_below hk hmem
      cases below with
      | nil => cases hmem
      | cons top rest =>
          have htop := List.nodup_cons.mp hnodup.2
          have hlast : r top = some ⟨rest.head?, .entered, 1⟩ := by
            rw [h.holds_below hk List.mem_cons_self, mem_scopesFrom_top htop.1]
          by_cases heq : id' = top
          · subst heq
            rw [List.head?_cons, Registry.adjust, Function.update_self,
              Function.update_of_ne hne, hlast, scopes, mem_scopesFrom_top htop.1]
            exact ⟨fun hsome => (Option.some_inj.mp hsome).symm, fun hscope => by rw [hscope]; rfl⟩
          · rw [List.head?_cons, Registry.adjust, Function.update_of_ne heq,
              Function.update_of_ne hne, hold, scopes, mem_scopesFrom_below heq,
              mem_scopesFrom_below heq]

theorem calls_popAll {popped below : List ι} (h : Tracks r stackAt)
    (hk : stackAt k = popped ++ below) :
    ∃ r', r.calls (popped.flatMap fun id => [.exit id, .close id]) = some r' ∧
      Tracks r' (Function.update stackAt k below) := by
  induction popped generalizing r stackAt with
  | nil =>
      refine ⟨r, rfl, ?_⟩
      have hsame : Function.update stackAt k below = stackAt := by
        rw [← show stackAt k = below from hk, Function.update_eq_self]
      rwa [hsame]
  | cons id popped ih =>
      obtain ⟨r₁, hcalls, htracks⟩ := h.calls_pop hk
      obtain ⟨r₂, hrest, htracks'⟩ := ih htracks (Function.update_self ..)
      refine ⟨r₂, ?_, ?_⟩
      · rw [List.flatMap_cons, Registry.calls_append, hcalls]
        exact hrest
      · rwa [Function.update_idem] at htracks'

end Tracks

end Stacks

end Scopes
