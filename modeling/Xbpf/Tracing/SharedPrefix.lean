import Xbpf.Tracing.Callsite

/-!
# The location of an event in the source tree

The file of an event is shown without the components that its path shares with the
crate root. What is left is put together again component by component, and a root can
only come first, so no component is lost on the way.
-/

namespace Xbpf

namespace Tracing

open Files

/-- The longest sequence that two sequences begin with. -/
structure IsLongestCommonPrefix {β : Type*} (shared full base : List β) : Prop where
  prefix_full : shared <+: full
  prefix_base : shared <+: base
  longest : ∀ p, p <+: full → p <+: base → p <+: shared

namespace IsLongestCommonPrefix

variable {β : Type*} {shared full base : List β} {a b : β}

theorem nil_left (base : List β) : IsLongestCommonPrefix [] [] base :=
  ⟨List.nil_prefix, List.nil_prefix, fun _ hp _ => hp⟩

theorem nil_right (full : List β) : IsLongestCommonPrefix [] full [] :=
  ⟨List.nil_prefix, List.nil_prefix, fun _ _ hp => hp⟩

theorem cons (h : IsLongestCommonPrefix shared full base) (a : β) :
    IsLongestCommonPrefix (a :: shared) (a :: full) (a :: base) := by
  refine ⟨(List.prefix_cons_inj a).mpr h.prefix_full, (List.prefix_cons_inj a).mpr h.prefix_base,
    fun p hfull hbase => ?_⟩
  cases p with
  | nil => exact List.nil_prefix
  | cons b p =>
      obtain ⟨rfl, hfull'⟩ := List.cons_prefix_cons.mp hfull
      obtain ⟨_, hbase'⟩ := List.cons_prefix_cons.mp hbase
      exact (List.prefix_cons_inj b).mpr (h.longest p hfull' hbase')

theorem of_ne (hne : a ≠ b) : IsLongestCommonPrefix [] (a :: full) (b :: base) := by
  refine ⟨List.nil_prefix, List.nil_prefix, fun p hfull hbase => ?_⟩
  cases p with
  | nil => exact List.nil_prefix
  | cons c p =>
      obtain ⟨rfl, _⟩ := List.cons_prefix_cons.mp hfull
      exact absurd (List.cons_prefix_cons.mp hbase).1 hne

end IsLongestCommonPrefix

/-- What is dropped is the longest common prefix. -/
theorem exists_eq_append_dropShared {β : Type*} [DecidableEq β] (full base : List β) :
    ∃ shared, IsLongestCommonPrefix shared full base ∧ full = shared ++ dropShared full base := by
  induction full generalizing base with
  | nil => exact ⟨[], .nil_left base, by rw [dropShared, List.append_nil]; simp⟩
  | cons f full ih =>
      cases base with
      | nil => exact ⟨[], .nil_right _, rfl⟩
      | cons b base =>
          rw [dropShared]
          split
          · rename_i heq
            obtain ⟨shared, hshared, hfull⟩ := ih base
            refine ⟨f :: shared, heq ▸ hshared.cons f, ?_⟩
            rw [List.cons_append, ← hfull]
          · rename_i hne
            exact ⟨[], .of_ne hne, rfl⟩

section Strip

variable {α : Type*} [DecidableEq α] [PathAlphabet α]

theorem stripMatchingPrefixComponents_eq (full base : List α) :
    stripMatchingPrefixComponents full base =
      pushAll [] (dropShared (components full) (components base)) :=
  rfl

theorem components_pushAll_of_suffix {full : List α} {front cs back : Path α}
    (h : components full = front ++ (cs ++ back)) : components (pushAll [] cs) = cs := by
  have hmem : ∀ c ∈ cs, c ∈ components full := by
    intro c hc
    rw [h]
    exact List.mem_append_right _ (List.mem_append_left _ hc)
  refine components_pushAll_nil (fun c hc => .of_mem (hmem c hc)) fun c hc => ?_
  have hfull : IsPath (components full) := ⟨full, rfl⟩
  refine hfull.of_mem_tail ?_
  rw [h]
  cases front with
  | nil =>
      cases cs with
      | nil => cases hc
      | cons c' cs => exact List.mem_append_left _ hc
  | cons c' front =>
      exact List.mem_append_right _ (List.mem_append_left _ (List.mem_of_mem_tail hc))

/-- Each component that is pushed adds itself to the path and keeps what is there. -/
theorem prefix_push_of_suffix {full : List α} {front before after : Path α} {c : Component α}
    (h : components full = front ++ (before ++ c :: after)) :
    pushAll [] before <+: push (pushAll [] before) c.asOsStr ∧
      components (push (pushAll [] before) c.asOsStr) = before ++ [c] := by
  have hpush : push (pushAll [] before) c.asOsStr = pushAll [] (before ++ [c]) := by
    rw [pushAll, pushAll, List.foldl_append]
    rfl
  have happend : components full = front ++ (before ++ [c] ++ after) := by
    rw [h, List.append_assoc, List.singleton_append]
  have hcomponents : components (pushAll [] (before ++ [c])) = before ++ [c] :=
    components_pushAll_of_suffix happend
  refine ⟨?_, hpush ▸ hcomponents⟩
  cases before with
  | nil => exact List.nil_prefix
  | cons b before =>
      refine prefix_push fun hhead => ?_
      have hc : c ∈ components full := by
        rw [h]
        simp
      have htail : c ∈ (components full).tail := by
        rw [h]
        cases front <;> simp
      exact (Component.filterMap_splitOn_asOsStr (.of_mem hc)
        (IsPath.of_mem_tail ⟨full, rfl⟩ htail)).1 hhead

/-- The path without its leading components is exactly what it does not share with the
other path, rebuilt without loss, and can be joined to what was dropped. -/
theorem stripMatchingPrefixComponents_spec (full base : List α) :
    ∃ shared rest,
      IsLongestCommonPrefix shared (components full) (components base) ∧
      components full = shared ++ rest ∧
      components (stripMatchingPrefixComponents full base) = rest ∧
      stripMatchingPrefixComponents full base = pushAll [] rest ∧
      (∀ before c after, rest = before ++ c :: after →
        pushAll [] before <+: push (pushAll [] before) c.asOsStr ∧
          components (push (pushAll [] before) c.asOsStr) = before ++ [c]) ∧
      components (pushAll [] shared) = shared ∧
      ∀ dropped, components dropped = shared →
        components (push dropped (stripMatchingPrefixComponents full base)) =
          components full := by
  obtain ⟨shared, hshared, hfull⟩ :=
    exists_eq_append_dropShared (components full) (components base)
  set rest := dropShared (components full) (components base) with hrest
  have hstrip : stripMatchingPrefixComponents full base = pushAll [] rest :=
    stripMatchingPrefixComponents_eq full base
  have happend : components full = shared ++ (rest ++ []) := by rw [List.append_nil, ← hfull]
  have hcomponents : components (pushAll [] rest) = rest := components_pushAll_of_suffix happend
  have hdropped : components (pushAll [] shared) = shared :=
    components_pushAll_of_suffix (hfull.trans (List.nil_append _).symm)
  refine ⟨shared, rest, hshared, hfull, hstrip ▸ hcomponents, hstrip, ?_, hdropped, ?_⟩
  · intro before c after heq
    exact prefix_push_of_suffix (hfull.trans (congrArg _ heq))
  · intro dropped hdropped
    rw [hstrip]
    by_cases hnil : dropped = []
    · subst hnil
      have hempty : shared = [] := by
        rw [← hdropped]
        simp [components, Component.ofSegment]
      rw [push_nil, hcomponents, hfull, hempty, List.nil_append]
    · rw [components_push_of_relative hnil, hdropped, hcomponents, ← hfull]
      intro c hc
      rw [hcomponents] at hc
      refine IsPath.of_mem_tail ⟨full, rfl⟩ ?_
      rw [hfull]
      cases hs : shared with
      | nil => exact absurd (eq_nil_of_components (hdropped.trans hs)) hnil
      | cons b shared => exact List.mem_append_right _ hc

end Strip

end Tracing

end Xbpf
