import Xbpf.Tracing.Trace

/-!
# Level filtering and nesting

The end of a span is emitted even if its start was filtered out, and the record of a
start or a message that does not decode is dropped. An end whose start did not open a
span `Strays`: if a span is open, such an end pops it. A trace whose spans are all ended
`Nests` exactly if every message that is kept arrives, none of them stands in a kept span
that did not open or behind a stray end in the innermost kept span around it, and no end
strays unless the stack is empty at first.
-/

namespace Xbpf

namespace Tracing

open Bytes

namespace Trace

variable (keep : Level → Prop)

/-- The start of a span is emitted, and arrives. -/
def Opens (lvl : Level) (name : String) (start : Loc) : Prop :=
  keep lvl ∧ arriving name start ≠ none

instance [DecidablePred keep] (lvl : Level) (name : String) (start : Loc) :
    Decidable (Opens keep lvl name start) :=
  inferInstanceAs (Decidable (_ ∧ _))

/-- The end of a span arrives, but its start did not. -/
def StrayEnd (lvl : Level) (name : String) (start stop : Loc) : Prop :=
  arriving name stop ≠ none ∧ ¬ Opens keep lvl name start

instance [DecidablePred keep] (lvl : Level) (name : String) (start stop : Loc) :
    Decidable (StrayEnd keep lvl name start stop) :=
  inferInstanceAs (Decidable (_ ∧ _))

def Strays : Trace → Prop
  | nil => False
  | message _ _ _ rest => rest.Strays
  | span lvl name start stop _ body rest =>
      (StrayEnd keep lvl name start stop ∨ body.Strays) ∨ rest.Strays

def EndsArrive : Trace → Prop
  | nil => True
  | message _ _ _ rest => rest.EndsArrive
  | span lvl name start stop _ body rest =>
      (Opens keep lvl name start → arriving name stop ≠ none) ∧ body.EndsArrive ∧
        rest.EndsArrive

/-- Where a part of a trace stands: in no span that is kept, in one that is open, or in
one that did not open or that a stray end has closed. -/
inductive Place
  | outside
  | intact
  | broken
  deriving DecidableEq

def Place.afterEnd : Place → Place
  | outside => outside
  | intact => broken
  | broken => broken

def Place.ofStack (stack : Stack) : Place :=
  if stack = [] then outside else intact

/-- Every message that is kept arrives, and the innermost kept span around it is open. -/
def Clean : Trace → Place → Prop
  | nil, _ => True
  | message lvl msg loc rest, place =>
      (keep lvl → arriving msg loc ≠ none ∧ place ≠ .broken) ∧ rest.Clean place
  | span lvl name start stop _ body rest, place =>
      ((Opens keep lvl name start → body.Clean .intact) ∧
        (keep lvl → arriving name start = none → body.Clean .broken) ∧
        (¬ keep lvl → body.Clean place)) ∧
      (StrayEnd keep lvl name start stop ∨ body.Strays keep → rest.Clean place.afterEnd) ∧
      (¬ (StrayEnd keep lvl name start stop ∨ body.Strays keep) → rest.Clean place)

section Decidable

variable [DecidablePred keep]

instance decidableStrays : (t : Trace) → Decidable (t.Strays keep)
  | nil => inferInstanceAs (Decidable False)
  | message _ _ _ rest => decidableStrays rest
  | span lvl name start stop _ body rest =>
      have := decidableStrays body
      have := decidableStrays rest
      inferInstanceAs (Decidable
        ((StrayEnd keep lvl name start stop ∨ body.Strays keep) ∨ rest.Strays keep))

instance decidableEndsArrive : (t : Trace) → Decidable (t.EndsArrive keep)
  | nil => inferInstanceAs (Decidable True)
  | message _ _ _ rest => decidableEndsArrive rest
  | span lvl name start stop _ body rest =>
      have := decidableEndsArrive body
      have := decidableEndsArrive rest
      inferInstanceAs (Decidable ((Opens keep lvl name start → arriving name stop ≠ none) ∧
        body.EndsArrive keep ∧ rest.EndsArrive keep))

instance decidableClean : (t : Trace) → (place : Place) → Decidable (t.Clean keep place)
  | nil, _ => inferInstanceAs (Decidable True)
  | message lvl msg loc rest, place =>
      have := decidableClean rest place
      inferInstanceAs (Decidable
        ((keep lvl → arriving msg loc ≠ none ∧ place ≠ .broken) ∧ rest.Clean keep place))
  | span lvl name start stop _ body rest, place =>
      have := decidableClean body
      have := decidableClean rest
      inferInstanceAs (Decidable (((Opens keep lvl name start → body.Clean keep .intact) ∧
          (keep lvl → arriving name start = none → body.Clean keep .broken) ∧
          (¬ keep lvl → body.Clean keep place)) ∧
        (StrayEnd keep lvl name start stop ∨ body.Strays keep →
          rest.Clean keep place.afterEnd) ∧
        (¬ (StrayEnd keep lvl name start stop ∨ body.Strays keep) → rest.Clean keep place)))

end Decidable

/-- The messages a subscriber is told of are these, as far as their texts fit in records. -/
def Tells (told want : List (String × Option SpanId)) : Prop :=
  told.map (fun m => (some m.1, m.2)) = want.map fun m => (Arguments.cut? m.1, m.2)

theorem tells_append {told told' want want' : List (String × Option SpanId)}
    (h : told.length ≤ want.length) (h' : told'.length ≤ want'.length) :
    Tells (told ++ told') (want ++ want') ↔ Tells told want ∧ Tells told' want' := by
  simp only [Tells, List.map_append]
  constructor
  · intro hall
    have hlength := congrArg List.length hall
    simp only [List.length_append, List.length_map] at hlength
    exact List.append_inj hall (by simp only [List.length_map]; omega)
  · rintro ⟨htells, htells'⟩
    rw [htells, htells']

section Emission

variable {keep} [DecidablePred keep] {lvl : Level} {name : String} {start stop : Loc}

theorem push_of_opens {text : String} (hlvl : keep lvl) (h : arriving name start = some text)
    (id : SpanId) (stack : Stack) :
    push keep lvl name start id stack = (text, id) :: stack := by
  rw [push, if_pos hlvl, h]
  rfl

theorem push_of_not_opens (h : ¬ Opens keep lvl name start) (id : SpanId) (stack : Stack) :
    push keep lvl name start id stack = stack := by
  rw [push]
  split
  · rename_i hlvl
    rw [not_not.mp fun harrives => h ⟨hlvl, harrives⟩]
    rfl
  · rfl

theorem pop_suffix (name : String) (stop : Loc) (stack : Stack) :
    pop name stop stack <:+ stack := by
  rw [pop]
  cases arriving name stop with
  | none => exact List.suffix_rfl
  | some text => exact popUntil_suffix text stack

/-- An end that arrives pops a span even where it only gets to see a part of the stack. -/
theorem length_pop_lt (harrives : arriving name stop ≠ none) {stack stack' : Stack}
    (hsuffix : stack' <:+ stack) (h : stack ≠ []) :
    (pop name stop stack').length < stack.length := by
  obtain ⟨text, htext⟩ := Option.ne_none_iff_exists'.mp harrives
  rw [pop, htext]
  by_cases hempty : stack' = []
  · rw [hempty]
    exact List.length_pos_of_ne_nil h
  · exact Nat.lt_of_lt_of_le (length_popUntil_lt text hempty) hsuffix.length_le

theorem pop_push (hopens : Opens keep lvl name start) (harrives : arriving name stop ≠ none)
    (id : SpanId) (stack : Stack) :
    pop name stop (push keep lvl name start id stack) = stack := by
  obtain ⟨text, htext⟩ := Option.ne_none_iff_exists'.mp hopens.2
  rw [push_of_opens hopens.1 htext, pop, arriving_eq htext harrives]
  exact popUntil_top text id stack

theorem pop_suffix_of_suffix_push (hends : Opens keep lvl name start → arriving name stop ≠ none)
    {id : SpanId} {stack stack' : Stack} (h : stack' <:+ push keep lvl name start id stack) :
    pop name stop stack' <:+ stack := by
  by_cases hopens : Opens keep lvl name start
  · obtain ⟨text, htext⟩ := Option.ne_none_iff_exists'.mp hopens.2
    have hpush := push_of_opens hopens.1 htext id stack
    rcases List.suffix_cons_iff.mp (hpush ▸ h) with heq | hsuffix
    · have hpop : pop name stop stack' = stack := by
        rw [heq, ← hpush, pop_push hopens (hends hopens)]
      exact ⟨[], hpop⟩
    · exact (pop_suffix name stop stack').trans hsuffix
  · rw [push_of_not_opens hopens] at h
    exact (pop_suffix name stop stack').trans h

theorem after_suffix {t : Trace} (h : t.EndsArrive keep) (stack : Stack) :
    t.after keep stack <:+ stack := by
  induction t generalizing stack with
  | nil => exact List.suffix_rfl
  | message lvl msg loc rest ih => exact ih h stack
  | span lvl name start stop id body rest ihbody ihrest =>
      exact (ihrest h.2.2 _).trans (pop_suffix_of_suffix_push h.1 (ihbody h.2.1 _))

/-- What a span leaves of the stack, if its end does not stray. -/
theorem pop_push_of_not_stray (hstray : ¬ StrayEnd keep lvl name start stop)
    (hends : Opens keep lvl name start → arriving name stop ≠ none) (id : SpanId)
    (stack : Stack) : pop name stop (push keep lvl name start id stack) = stack := by
  by_cases hopens : Opens keep lvl name start
  · exact pop_push hopens (hends hopens) id stack
  · have hnone : arriving name stop = none := not_not.mp fun h => hstray ⟨h, hopens⟩
    rw [push_of_not_opens hopens, pop, hnone]
    rfl

/-- A trace without stray ends leaves the stack as it was. -/
theorem after_eq_of_not_strays {t : Trace} (h : ¬ t.Strays keep) (hends : t.EndsArrive keep)
    (stack : Stack) : t.after keep stack = stack := by
  induction t generalizing stack with
  | nil => rfl
  | message lvl msg loc rest ih => exact ih h hends stack
  | span lvl name start stop id body rest ihbody ihrest =>
      obtain ⟨hspan, hrest⟩ := not_or.mp h
      obtain ⟨hstray, hbody⟩ := not_or.mp hspan
      rw [after, ihbody hbody hends.2.1, pop_push_of_not_stray hstray hends.1,
        ihrest hrest hends.2.2]

theorem length_pop_lt_of_strays {body : Trace} {id : SpanId} {stack : Stack}
    (hends : Opens keep lvl name start → arriving name stop ≠ none)
    (hbodyEnds : body.EndsArrive keep)
    (hbody : body.Strays keep → ∀ {stack : Stack}, stack ≠ [] →
      (body.after keep stack).length < stack.length)
    (h : StrayEnd keep lvl name start stop ∨ body.Strays keep) (hopen : stack ≠ []) :
    (pop name stop (body.after keep (push keep lvl name start id stack))).length <
      stack.length := by
  have hsuffix := after_suffix hbodyEnds (push keep lvl name start id stack)
  by_cases hopens : Opens keep lvl name start
  · -- its end arrives, but a stray end in the body has popped the span already
    have hstrays := h.resolve_left fun hstray => hstray.2 hopens
    obtain ⟨text, htext⟩ := Option.ne_none_iff_exists'.mp hopens.2
    rw [push_of_opens hopens.1 htext] at hsuffix ⊢
    have hlt := hbody hstrays (List.cons_ne_nil (text, id) stack)
    rcases List.suffix_cons_iff.mp hsuffix with heq | hsuffix
    · rw [heq] at hlt
      exact absurd hlt (Nat.lt_irrefl _)
    · exact length_pop_lt (hends hopens) hsuffix hopen
  · rw [push_of_not_opens hopens] at hsuffix ⊢
    rcases h with hstray | hstrays
    · exact length_pop_lt hstray.1 hsuffix hopen
    · exact (pop_suffix name stop _).length_le.trans_lt (hbody hstrays hopen)

/-- A trace that strays takes away a span that was open before. -/
theorem length_after_lt {t : Trace} (h : t.Strays keep) (hends : t.EndsArrive keep)
    {stack : Stack} (hopen : stack ≠ []) : (t.after keep stack).length < stack.length := by
  induction t generalizing stack with
  | nil => exact h.elim
  | message lvl msg loc rest ih => exact ih h hends hopen
  | span lvl name start stop id body rest ihbody ihrest =>
      rw [after]
      by_cases hspan : StrayEnd keep lvl name start stop ∨ body.Strays keep
      · refine (after_suffix hends.2.2 _).length_le.trans_lt ?_
        exact length_pop_lt_of_strays hends.1 hends.2.1
          (fun hstrays _ hne => ihbody hstrays hends.2.1 hne) hspan hopen
      · obtain ⟨hstray, hbody⟩ := not_or.mp hspan
        rw [after_eq_of_not_strays hbody hends.2.1, pop_push_of_not_stray hstray hends.1]
        exact ihrest (h.resolve_left hspan) hends.2.2 hopen

theorem length_parents_le (t : Trace) (stack : Stack) (parent : Option SpanId) :
    (t.parents keep stack).length ≤ (t.expected keep parent).length := by
  induction t generalizing stack parent with
  | nil => exact Nat.le_refl 0
  | message lvl msg loc rest ih =>
      rw [parents, expected, List.length_append, List.length_append]
      refine Nat.add_le_add ?_ (ih stack parent)
      split
      · cases arriving msg loc <;> simp
      · exact Nat.le_refl 0
  | span lvl name start stop id body rest ihbody ihrest =>
      rw [parents, expected, List.length_append, List.length_append]
      exact Nat.add_le_add (ihbody _ _) (ihrest _ _)

/-- What holds of a stack and of the innermost kept span around a part of a trace,
where that part stands. -/
def Place.Fits : Place → Stack → Option SpanId → Prop
  | outside, stack, parent => stack = [] ∧ parent = none
  | intact, stack, parent => stack ≠ [] ∧ stack.top = parent
  | broken, stack, parent => ∃ id, parent = some id ∧ id ∉ stack.map Prod.snd

theorem Place.fits_ofStack (stack : Stack) : (Place.ofStack stack).Fits stack stack.top := by
  rw [Place.ofStack]
  split
  · rename_i hempty
    rw [hempty]
    exact ⟨rfl, rfl⟩
  · rename_i hne
    exact ⟨hne, rfl⟩

theorem Place.Fits.top_eq_iff {place : Place} {stack : Stack} {parent : Option SpanId}
    (h : place.Fits stack parent) : stack.top = parent ↔ place ≠ .broken := by
  cases place with
  | outside =>
      obtain ⟨rfl, rfl⟩ := h
      exact ⟨fun _ => by decide, fun _ => rfl⟩
  | intact => exact ⟨fun _ => by decide, fun _ => h.2⟩
  | broken =>
      obtain ⟨id, rfl, hid⟩ := h
      refine ⟨fun htop => ?_, fun hne => absurd rfl hne⟩
      cases stack with
      | nil => cases htop
      | cons span rest =>
          have hspan : span.2 = id := Option.some_inj.mp htop
          exact absurd (by simp [hspan]) hid

theorem Place.Fits.afterEnd {place : Place} {stack stack' : Stack}
    {parent : Option SpanId} (h : place.Fits stack parent)
    (hnodup : (stack.map Prod.snd).Nodup) (hsuffix : stack' <:+ stack)
    (hlt : stack ≠ [] → stack'.length < stack.length) :
    place.afterEnd.Fits stack' parent := by
  cases place with
  | outside =>
      obtain ⟨rfl, rfl⟩ := h
      exact ⟨List.suffix_nil.mp hsuffix, rfl⟩
  | intact =>
      obtain ⟨hne, rfl⟩ := h
      cases stack with
      | nil => exact absurd rfl hne
      | cons span rest =>
          rcases List.suffix_cons_iff.mp hsuffix with rfl | hrest
          · exact absurd (hlt hne) (Nat.lt_irrefl _)
          · refine ⟨span.2, rfl, fun hmem => ?_⟩
            exact (List.nodup_cons.mp hnodup).1 ((hrest.map Prod.snd).subset hmem)
  | broken =>
      obtain ⟨id, rfl, hid⟩ := h
      exact ⟨id, rfl, fun hmem => hid ((hsuffix.map Prod.snd).subset hmem)⟩

/-- A message is told of as it should be exactly if it arrives and the innermost kept span
around it is open. -/
theorem tells_message_iff {place : Place} {stack : Stack} {parent : Option SpanId}
    (hfits : place.Fits stack parent) (lvl : Level) (msg : String) (loc : Loc) :
    Tells (if keep lvl then ((arriving msg loc).map fun text => (text, stack.top)).toList else [])
        (if keep lvl then [(msg, parent)] else []) ↔
      (keep lvl → arriving msg loc ≠ none ∧ place ≠ .broken) := by
  by_cases hlvl : keep lvl
  · rw [if_pos hlvl, if_pos hlvl, forall_prop_of_true hlvl, ← hfits.top_eq_iff]
    cases harriving : arriving msg loc with
    | none => simp [Tells]
    | some text => simp [Tells, cut?_of_arriving harriving]
  · rw [if_neg hlvl, if_neg hlvl]
    exact iff_of_true rfl fun h => absurd h hlvl

/-- Every message of a trace is told of as it should be exactly if the trace is clean. -/
theorem tells_parents_iff (t : Trace) {place : Place} {stack : Stack} {parent : Option SpanId}
    (hfits : place.Fits stack parent) (hends : t.EndsArrive keep)
    (hnodup : (t.ids ++ stack.map Prod.snd).Nodup) :
    Tells (t.parents keep stack) (t.expected keep parent) ↔ t.Clean keep place := by
  induction t generalizing place stack parent with
  | nil => exact iff_of_true rfl trivial
  | message lvl msg loc rest ih =>
      have hle : (if keep lvl then ((arriving msg loc).map fun text =>
          (text, stack.top)).toList else []).length ≤
            (if keep lvl then [(msg, parent)] else []).length := by
        split
        · cases arriving msg loc <;> simp
        · exact Nat.le_refl 0
      rw [parents, expected, Clean, tells_append hle (length_parents_le rest stack parent),
        tells_message_iff hfits, ih hfits hends hnodup]
  | span lvl name start stop id body rest ihbody ihrest =>
      obtain ⟨hstop, hbodyEnds, hrestEnds⟩ := hends
      have hids : (id :: (body.ids ++ stack.map Prod.snd)).Nodup :=
        hnodup.sublist (((List.sublist_append_left _ _).append_right _).cons_cons id)
      have hrestIds : ∀ {stack' : Stack}, stack' <:+ stack →
          (rest.ids ++ stack'.map Prod.snd).Nodup := by
        intro stack' hsuffix
        refine hnodup.sublist (List.Sublist.append ?_ (hsuffix.map Prod.snd).sublist)
        exact (List.sublist_append_right _ _).cons id
      have hstack : (stack.map Prod.snd).Nodup :=
        hnodup.sublist (List.sublist_append_right _ _)
      rw [parents, expected, Clean,
        tells_append (length_parents_le _ _ _) (length_parents_le _ _ _)]
      refine and_congr ?_ ?_
      · by_cases hlvl : keep lvl
        · rw [if_pos hlvl]
          cases hstart : arriving name start with
          | none =>
              have hnot : ¬ Opens keep lvl name start := fun h => h.2 hstart
              have hbroken : Place.broken.Fits stack (some id) :=
                ⟨id, rfl, fun hmem => (List.nodup_cons.mp hids).1
                  (List.mem_append_right _ hmem)⟩
              rw [push_of_not_opens hnot, ihbody hbroken hbodyEnds hids.of_cons]
              simp [hlvl, hnot]
          | some text =>
              have hopens : Opens keep lvl name start := ⟨hlvl, by simp [hstart]⟩
              have hintact : Place.intact.Fits ((text, id) :: stack) (some id) :=
                ⟨List.cons_ne_nil _ _, rfl⟩
              rw [push_of_opens hlvl hstart,
                ihbody hintact hbodyEnds (List.perm_middle.nodup_iff.mpr hids)]
              simp [hlvl, hopens]
        · have hnot : ¬ Opens keep lvl name start := fun h => hlvl h.1
          rw [if_neg hlvl, push_of_not_opens hnot, ihbody hfits hbodyEnds hids.of_cons]
          simp [hlvl, hnot]
      · have hsuffix := pop_suffix_of_suffix_push hstop
          (after_suffix hbodyEnds (push keep lvl name start id stack))
        by_cases hspan : StrayEnd keep lvl name start stop ∨ body.Strays keep
        · have hlt : stack ≠ [] → (pop name stop
              (body.after keep (push keep lvl name start id stack))).length < stack.length :=
            length_pop_lt_of_strays hstop hbodyEnds
              (fun hstrays _ hne => length_after_lt hstrays hbodyEnds hne) hspan
          rw [ihrest (hfits.afterEnd hstack hsuffix hlt) hrestEnds (hrestIds hsuffix)]
          simp [hspan]
        · obtain ⟨hstray, hbody⟩ := not_or.mp hspan
          rw [after_eq_of_not_strays hbody hbodyEnds, pop_push_of_not_stray hstray hstop,
            ihrest hfits hrestEnds (hrestIds List.suffix_rfl)]
          simp [hspan]

/-- A trace leaves the stack as it was exactly if the stack is empty or no end strays. -/
theorem after_eq_iff {t : Trace} (hends : t.EndsArrive keep) (stack : Stack) :
    t.after keep stack = stack ↔ stack = [] ∨ ¬ t.Strays keep := by
  constructor
  · intro hafter
    by_contra hnot
    obtain ⟨hopen, hstrays⟩ := not_or.mp hnot
    have hlt := length_after_lt (not_not.mp hstrays) hends hopen
    rw [hafter] at hlt
    exact Nat.lt_irrefl _ hlt
  · rintro (rfl | hstrays)
    · exact List.suffix_nil.mp (after_suffix hends [])
    · exact after_eq_of_not_strays hstrays hends stack

/-- A trace does to the stack what it should exactly if no span is open at first or no end
strays, and it is clean. -/
theorem after_tells_iff (t : Trace) (stack : Stack) (hends : t.EndsArrive keep)
    (hnodup : (t.ids ++ stack.map Prod.snd).Nodup) :
    (t.after keep stack = stack ∧
        Tells (t.parents keep stack) (t.expected keep stack.top)) ↔
      (stack = [] ∨ ¬ t.Strays keep) ∧ t.Clean keep (.ofStack stack) := by
  rw [after_eq_iff hends, tells_parents_iff t (Place.fits_ofStack stack) hends hnodup]

end Emission

section Nests

variable (crateRoot : List Char) (current : LevelFilter) (sourceLoc : Bool) (e : Endian)
  (bpfTracingLevel cpu : ℕ) (mem : ℕ → List UInt8)

/-- Emitting the events of a trace leaves the stack of its CPU as it was, and
emits every message that is kept in the innermost kept span around it, or in the
span that was on top of the stack before. -/
def Nests (t : Trace) (tl : Locals) : Prop :=
  ∃ tl' ds, emitAll crateRoot current tl (t.events sourceLoc e bpfTracingLevel cpu mem) =
      some (tl', ds) ∧
    tl'.stackOf cpu = tl.stackOf cpu ∧
    Tells (messages ds) (t.expected (Kept bpfTracingLevel current) (tl.stackOf cpu).top)

theorem nests_iff_after_parents (hon : bpfTracingLevel ≠ Header.bpfTracingLevelOff)
    {t : Trace} (h : t.Submits sourceLoc cpu mem) (tl : Locals) :
    Nests crateRoot current sourceLoc e bpfTracingLevel cpu mem t tl ↔
      t.after (Kept bpfTracingLevel current) (tl.stackOf cpu) = tl.stackOf cpu ∧
        Tells (t.parents (Kept bpfTracingLevel current) (tl.stackOf cpu))
          (t.expected (Kept bpfTracingLevel current) (tl.stackOf cpu).top) := by
  obtain ⟨tl', ds, hrun, hstack, hmessages⟩ :=
    emitAll_events (e := e) current cpu crateRoot hon h tl
  constructor
  · rintro ⟨_, _, hrun', hstack', hmessages'⟩
    rw [hrun] at hrun'
    cases hrun'
    exact ⟨hstack.symm.trans hstack', hmessages ▸ hmessages'⟩
  · rintro ⟨hafter, hparents⟩
    exact ⟨tl', ds, hrun, hstack.trans hafter, hmessages ▸ hparents⟩

/-- Level filtering leaves the nesting of a trace whose spans are all ended alone exactly
if no span is open at first or no end strays, and every message that is kept arrives and
has an open span around it. -/
theorem nests_iff (hon : bpfTracingLevel ≠ Header.bpfTracingLevelOff) (t : Trace)
    (h : t.Submits sourceLoc cpu mem) (tl : Locals)
    (hids : (t.ids ++ (tl.stackOf cpu).map Prod.snd).Nodup)
    (hends : t.EndsArrive (Kept bpfTracingLevel current)) :
    Nests crateRoot current sourceLoc e bpfTracingLevel cpu mem t tl ↔
      (tl.stackOf cpu = [] ∨ ¬ t.Strays (Kept bpfTracingLevel current)) ∧
        t.Clean (Kept bpfTracingLevel current) (.ofStack (tl.stackOf cpu)) := by
  rw [nests_iff_after_parents crateRoot current sourceLoc e bpfTracingLevel cpu mem hon h,
    after_tells_iff t _ hends hids]

end Nests

/-- A span with a message and, behind it, a filtered span. -/
def kept : Trace :=
  .span .info "a" none none 1
    (.message .info "m" none (.span .debug "b" none none 2 .nil .nil)) .nil

/-- A span in which a filtered span precedes a message. -/
def filtered : Trace :=
  .span .info "a" none none 1
    (.span .debug "b" none none 2 .nil (.message .info "m" none .nil)) .nil

def reservedMemory (_ : ℕ) : List UInt8 :=
  List.replicate 132 0xff

theorem submits_reservedMemory {t : Trace} {cpu : ℕ}
    (hloc : ∀ x ∈ t.calls cpu, x.1.loc = none)
    (hvalid : ∀ x ∈ t.calls cpu, x.1.cpu < 2 ^ 16 ∧ 0 ∉ ofText x.1.msg) :
    t.Submits false cpu reservedMemory := by
  intro i x hx
  have hmem := List.mem_of_getElem? hx
  refine ⟨⟨(hvalid x hmem).1, (hvalid x hmem).2, by simp [hloc x hmem]⟩, by simp, ?_⟩
  rw [Arguments.size_of_none (hloc x hmem)]
  exact List.length_replicate

theorem nests_kept :
    Nests [] (.upTo .trace) false .little 3 1 reservedMemory kept (Locals.init 2) :=
  (nests_iff [] (.upTo .trace) false .little 3 1 reservedMemory (by decide) kept
    (submits_reservedMemory (by decide) (by decide +kernel)) (Locals.init 2) (by decide)
    (by decide +kernel)).mpr (by decide +kernel)

/-- The end of the filtered span closes the one around it. -/
theorem not_nests_filtered :
    ¬ Nests [] (.upTo .trace) false .little 3 0 reservedMemory filtered (Locals.init 1) := by
  rw [nests_iff_after_parents [] (.upTo .trace) false .little 3 0 reservedMemory (by decide)
    (submits_reservedMemory (by decide) (by decide +kernel))]
  rintro ⟨_, htells⟩
  revert htells
  unfold Tells
  decide +kernel

end Trace

end Tracing

end Xbpf
