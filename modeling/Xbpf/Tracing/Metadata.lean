import Xbpf.Maps.Interning
import Xbpf.Tracing.Callsite

/-!
# One callsite for each key

The callsites are a table of the keys in use: each key has one piece of metadata,
which is built from the key and leaked once, and keeps it. The static callsite that
stands behind a piece of metadata is one of two, however, which the metadata of all
spans and those of all events share, and each of the two is of the kind of the other.
-/

namespace Xbpf

namespace Tracing

open Maps

abbrev LocatedEvent :=
  { event : Event // event.kind ≠ .endSpan }

def Kind.isSpan : Kind → Bool
  | .startSpan _ => true
  | _ => false

namespace LocatedEvent

def level (e : LocatedEvent) : Level :=
  match h : e.1.kind with
  | .message level => level
  | .startSpan level => level
  | .endSpan => absurd h e.2

def key (e : LocatedEvent) : CallsiteKey :=
  (e.1.file, e.1.line, e.1.kind.isSpan, e.level)

theorem callsiteKey_eq (e : LocatedEvent) : e.1.callsiteKey = .ok e.key := by
  obtain ⟨⟨kind, content, cpu, file, line⟩, h⟩ := e
  cases kind with
  | message level => rfl
  | startSpan level => rfl
  | endSpan => exact absurd rfl h

theorem key_eq_iff (e e' : LocatedEvent) :
    e.key = e'.key ↔ e.1.file = e'.1.file ∧ e.1.line = e'.1.line ∧
      e.1.kind.isSpan = e'.1.kind.isSpan ∧ e.level = e'.level := by
  simp only [key, Prod.mk.injEq]

end LocatedEvent

def callsitesOf (crateRoot : List Char) (ks : List CallsiteKey) : Callsites where
  table := (ks.zipIdx).reverse
  leaked := ks.map (.ofKey crateRoot)

theorem lookup_reverse_zipIdx {ks : List CallsiteKey} (h : ks.Nodup) (k : CallsiteKey) :
    (ks.zipIdx).reverse.lookup k = if k ∈ ks then some (ks.idxOf k) else none := by
  induction ks using List.reverseRecOn with
  | nil => rfl
  | append_singleton ks a ih =>
      obtain ⟨hks, _, hdisjoint⟩ := List.nodup_append.mp h
      have ha : a ∉ ks := fun hmem => hdisjoint a hmem a List.mem_cons_self rfl
      rw [List.zipIdx_append, List.reverse_append, List.zipIdx_singleton, List.reverse_singleton,
        List.singleton_append, List.lookup_cons, ih hks]
      by_cases hka : k = a
      · subst hka
        simp [List.idxOf_append_of_notMem ha]
      · have hbeq : (k == a) = false := beq_eq_false_iff_ne.mpr hka
        rw [hbeq]
        by_cases hk : k ∈ ks
        · simp [hk, List.idxOf_append_of_mem hk]
        · simp [hk, hka]

/-- The table of callsites interns the keys. -/
theorem interns_getCallsite (crateRoot : List Char) :
    Interns (callsitesOf crateRoot) (getCallsite crateRoot) := by
  intro ks k hks
  have hlookup := lookup_reverse_zipIdx hks k
  by_cases hk : k ∈ ks
  · rw [if_pos hk] at hlookup
    simp only [getCallsite, callsitesOf, hlookup, intern_of_mem hk]
  · rw [if_neg hk] at hlookup
    simp [getCallsite, callsitesOf, hlookup, intern_of_not_mem hk, List.zipIdx_append]

/-- The callsites after a sequence of events, and a reference to the metadata of each. -/
def callsitesAfter (crateRoot : List Char) (events : List LocatedEvent) :
    Callsites × List ℕ :=
  Runs.run (getCallsite crateRoot) ⟨[], []⟩ (events.map LocatedEvent.key)

/-- The keys of the events are in use, and every event refers to the metadata of its
key. -/
theorem exists_callsitesAfter (crateRoot : List Char) (events : List LocatedEvent) :
    ∃ ks : List CallsiteKey, ks.Nodup ∧ (∀ k, k ∈ ks ↔ k ∈ events.map LocatedEvent.key) ∧
      callsitesAfter crateRoot events =
        (callsitesOf crateRoot ks, events.map fun e => ks.idxOf e.key) := by
  obtain ⟨ks, _, hnodup, hmem, hrun⟩ :=
    (interns_getCallsite crateRoot).run List.nodup_nil
      (events.map LocatedEvent.key)
  refine ⟨ks, hnodup, fun k => by simpa using hmem k, ?_⟩
  rw [List.map_map] at hrun
  exact hrun

/-- The metadata that an event refers to. -/
structure Describes (crateRoot : List Char) (e : LocatedEvent) (m : Metadata) : Prop where
  level : m.level = e.level
  line : m.line = e.1.line
  kind : m.kind = if e.1.kind.isSpan then .span else .event
  target : m.target = "bpf"
  file : m.file = e.1.file.map fun file =>
    String.ofList (stripMatchingPrefixComponents file.toList crateRoot)

theorem describes_ofKey (crateRoot : List Char) (e : LocatedEvent) :
    Describes crateRoot e (.ofKey crateRoot e.key) :=
  ⟨rfl, rfl, rfl, rfl, rfl⟩

/-- Every key has metadata of its own, which describe the events with that key and stay
as they are. -/
structure OneMetadataPerKey (crateRoot : List Char) (events : List LocatedEvent) : Prop where
  keys : ∀ e ∈ events, e.1.callsiteKey = .ok e.key
  same : ∀ (i j : ℕ) (e e' : LocatedEvent) (r r' : ℕ),
    events[i]? = some e → events[j]? = some e' →
    (callsitesAfter crateRoot events).2[i]? = some r →
    (callsitesAfter crateRoot events).2[j]? = some r' →
    (r = r' ↔ e.1.file = e'.1.file ∧ e.1.line = e'.1.line ∧
      e.1.kind.isSpan = e'.1.kind.isSpan ∧ e.level = e'.level)
  leaked : (callsitesAfter crateRoot events).1.leaked.length =
    (events.map LocatedEvent.key).toFinset.card
  metadata : ∀ (i : ℕ) (e : LocatedEvent), events[i]? = some e → ∃ (r : ℕ) (m : Metadata),
    (callsitesAfter crateRoot events).2[i]? = some r ∧
      (callsitesAfter crateRoot events).1.leaked[r]? = some m ∧ Describes crateRoot e m
  kept : ∀ before after : List LocatedEvent, events = before ++ after →
    (callsitesAfter crateRoot before).1.leaked <+: (callsitesAfter crateRoot events).1.leaked ∧
      (callsitesAfter crateRoot before).2 <+: (callsitesAfter crateRoot events).2

theorem callsitesAfter_append (crateRoot : List Char) (before after : List LocatedEvent) :
    (callsitesAfter crateRoot before).1.leaked <+:
        (callsitesAfter crateRoot (before ++ after)).1.leaked ∧
      (callsitesAfter crateRoot before).2 <+:
        (callsitesAfter crateRoot (before ++ after)).2 := by
  obtain ⟨ks, hnodup, _, hbefore⟩ := exists_callsitesAfter crateRoot before
  obtain ⟨ks', hkept, _, _, hrun⟩ :=
    (interns_getCallsite crateRoot).run hnodup (after.map LocatedEvent.key)
  rw [callsitesAfter, callsitesAfter, List.map_append, Runs.run_append]
  rw [callsitesAfter] at hbefore
  rw [hbefore, hrun]
  exact ⟨hkept.map _, List.prefix_append _ _⟩

/-- Two events share their metadata only if they share all that it is made of, and no
more metadata are leaked than there are keys, however many events there are. -/
theorem oneMetadataPerKey (crateRoot : List Char) (events : List LocatedEvent) :
    OneMetadataPerKey crateRoot events := by
  obtain ⟨ks, hnodup, hmem, hrun⟩ := exists_callsitesAfter crateRoot events
  have hkey {i : ℕ} {e : LocatedEvent} (he : events[i]? = some e) : e.key ∈ ks :=
    (hmem e.key).mpr (List.mem_map_of_mem (List.mem_of_getElem? he))
  constructor
  case keys => exact fun e _ => e.callsiteKey_eq
  case same =>
    intro i j e e' r r' he he' hr hr'
    rw [hrun, List.getElem?_map, he, Option.map_some, Option.some_inj] at hr
    rw [hrun, List.getElem?_map, he', Option.map_some, Option.some_inj] at hr'
    rw [← hr, ← hr', List.idxOf_inj (hkey he), LocatedEvent.key_eq_iff]
  case leaked =>
    rw [hrun, callsitesOf, List.length_map]
    exact length_eq_card hnodup hmem
  case metadata =>
    intro i e he
    refine ⟨ks.idxOf e.key, .ofKey crateRoot e.key, ?_, ?_, describes_ofKey crateRoot e⟩
    · rw [hrun, List.getElem?_map, he, Option.map_some]
    · rw [hrun, callsitesOf, List.getElem?_map, List.getElem?_idxOf (hkey he), Option.map_some]
  case kept =>
    rintro before after rfl
    exact callsitesAfter_append crateRoot before after

def metadataAfter (crateRoot : List Char) (events : List LocatedEvent) (key : CallsiteKey) :
    Option Metadata :=
  let (cs, r) := getCallsite crateRoot (callsitesAfter crateRoot events).1 key
  cs.leaked[r]?

theorem metadataAfter_eq (crateRoot : List Char) (events : List LocatedEvent)
    (key : CallsiteKey) :
    metadataAfter crateRoot events key = some (.ofKey crateRoot key) := by
  obtain ⟨ks, hnodup, _, hrun⟩ := exists_callsitesAfter crateRoot events
  have hmem : key ∈ (intern ks key).1 := mem_intern.mpr (.inr rfl)
  rw [metadataAfter, hrun, interns_getCallsite crateRoot ks key hnodup]
  change (callsitesOf crateRoot (intern ks key).1).leaked[(intern ks key).2]? = _
  rw [callsitesOf, snd_intern, List.getElem?_map, List.getElem?_idxOf hmem, Option.map_some]

/-- The static callsite behind the metadata of two keys tells the keys apart, and is a
span or an event as the metadata say. -/
def Identifies (crateRoot : List Char) (before before' : List LocatedEvent)
    (key key' : CallsiteKey) : Prop :=
  ∃ m m', metadataAfter crateRoot before key = some m ∧
    metadataAfter crateRoot before' key' = some m' ∧
    (m.callsite = m'.callsite → key = key') ∧
    m.callsite.kind = m.kind ∧ m'.callsite.kind = m'.kind

/-- All spans share one static callsite and all events another one. -/
theorem callsite_eq_iff (crateRoot : List Char) (key key' : CallsiteKey) :
    (Metadata.ofKey crateRoot key).callsite = (Metadata.ofKey crateRoot key').callsite ↔
      key.2.2.1 = key'.2.2.1 := by
  obtain ⟨file, line, isSpan, level⟩ := key
  obtain ⟨file', line', isSpan', level'⟩ := key'
  cases isSpan <;> cases isSpan' <;> simp [Metadata.ofKey]

theorem kind_callsite_ne (crateRoot : List Char) (key : CallsiteKey) :
    (Metadata.ofKey crateRoot key).callsite.kind ≠ (Metadata.ofKey crateRoot key).kind := by
  obtain ⟨file, line, isSpan, level⟩ := key
  cases isSpan <;> simp [Metadata.ofKey, FakeCallsite.kind]

/-- No keys are identified: the metadata of two keys have the same callsite whenever
both are spans or both are events, and it is always of the other kind. -/
theorem not_identifies (crateRoot : List Char) (before before' : List LocatedEvent)
    (key key' : CallsiteKey) :
    ((metadataAfter crateRoot before key).map Metadata.callsite =
        (metadataAfter crateRoot before' key').map Metadata.callsite ↔
      key.2.2.1 = key'.2.2.1) ∧
    ¬ Identifies crateRoot before before' key key' := by
  constructor
  · rw [metadataAfter_eq, metadataAfter_eq, Option.map_some, Option.map_some, Option.some_inj,
      callsite_eq_iff]
  · rintro ⟨m, _, hm, _, _, hkind, _⟩
    rw [metadataAfter_eq, Option.some_inj] at hm
    subst hm
    exact kind_callsite_ne crateRoot key hkind

/-- Two messages on different lines have metadata with one and the same callsite, which
is that of a span. -/
theorem not_identifies_lines :
    metadataAfter [] [] (some "a.c", some 1, false, .info) ≠
        metadataAfter [] [] (some "a.c", some 2, false, .info) ∧
      (metadataAfter [] [] (some "a.c", some 1, false, .info)).map Metadata.callsite =
        (metadataAfter [] [] (some "a.c", some 2, false, .info)).map Metadata.callsite ∧
      ¬ Identifies [] [] [] (some "a.c", some 1, false, .info)
        (some "a.c", some 2, false, .info) := by
  refine ⟨?_, ?_, ?_⟩
  · simp [metadataAfter_eq, Metadata.ofKey]
  · simp [metadataAfter_eq, Metadata.ofKey]
  · rintro ⟨m, _, hm, _, _, hkind, _⟩
    rw [metadataAfter_eq, Option.some_inj] at hm
    subst hm
    cases hkind

end Tracing

end Xbpf
