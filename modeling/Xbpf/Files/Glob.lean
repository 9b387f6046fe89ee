import Xbpf.Files.FileSystem

/-!
# Patterns of paths

In the pattern of a name `?` stands for a character, `*` for any number of characters,
and `[...]` and `[!...]` for a character that is, or is not, among those in the brackets.
A component `**` stands for any number of directories. Everything else stands for itself.

A text is a pattern if every component of it is one. A pattern finds the entries of a
file system whose paths it matches.
-/

namespace Files

namespace Glob

inductive CharSpecifier
  | singleChar (c : Char)
  | charRange (first last : Char)
  deriving DecidableEq, Repr

inductive PatternToken
  | char (c : Char)
  | anyChar
  | anySequence
  | anyWithin (specifiers : List CharSpecifier)
  | anyExcept (specifiers : List CharSpecifier)
  deriving DecidableEq, Repr

inductive PatternComponent
  | exactly (c : Component Char)
  | name (tokens : List PatternToken)
  | anyRecursiveSequence
  deriving DecidableEq, Repr

section Parse

def parseCharSpecifiers : List Char → List CharSpecifier
  | first :: '-' :: last :: chars => .charRange first last :: parseCharSpecifiers chars
  | c :: chars => .singleChar c :: parseCharSpecifiers chars
  | [] => []

inductive Bracket
  | opened
  | negated
  | filled (negated : Bool) (chars : List Char)

/-- Reads the pattern of a name, possibly from within a bracket. The first character in
a bracket does not close it. -/
def parseTokens : Option Bracket → List Char → Option (List PatternToken)
  | none, [] => some []
  | some _, [] => none
  | none, c :: text =>
      if c = '?' then (parseTokens none text).map (.anyChar :: ·)
      else if c = '*' then
        if text.head? = some '*' then none else (parseTokens none text).map (.anySequence :: ·)
      else if c = '[' then parseTokens (some .opened) text
      else (parseTokens none text).map (.char c :: ·)
  | some .opened, c :: text =>
      if c = '!' then parseTokens (some .negated) text
      else parseTokens (some (.filled false [c])) text
  | some .negated, c :: text => parseTokens (some (.filled true [c])) text
  | some (.filled negated chars), c :: text =>
      if c = ']' then
        let specifiers := parseCharSpecifiers chars
        (parseTokens none text).map
          ((if negated then .anyExcept specifiers else .anyWithin specifiers) :: ·)
      else parseTokens (some (.filled negated (chars ++ [c]))) text

def parseComponent : Component Char → Option PatternComponent
  | .normal name =>
      if name = "**".toList then some .anyRecursiveSequence
      else (parseTokens none name).map .name
  | c => some (.exactly c)

def parse (text : List Char) : Option (List PatternComponent) :=
  (components text).mapM parseComponent

end Parse

section Match

def CharSpecifier.Admits (c : Char) : CharSpecifier → Prop
  | singleChar c' => c = c'
  | charRange first last => first ≤ c ∧ c ≤ last

/-- The texts that a token stands for. -/
def PatternToken.StandsFor (text : List Char) : PatternToken → Prop
  | char c => text = [c]
  | anyChar => ∃ c, text = [c]
  | anySequence => True
  | anyWithin specifiers => ∃ c, text = [c] ∧ ∃ s ∈ specifiers, s.Admits c
  | anyExcept specifiers => ∃ c, text = [c] ∧ ∀ s ∈ specifiers, ¬ s.Admits c

def MatchesName : List PatternToken → List Char → Prop
  | [], name => name = []
  | token :: tokens, name =>
      ∃ text rest, name = text ++ rest ∧ token.StandsFor text ∧ MatchesName tokens rest

/-- The paths that a pattern matches. -/
inductive Matches : List PatternComponent → Path Char → Prop
  | nil : Matches [] []
  | exactly (c) {pattern path} (h : Matches pattern path) :
      Matches (.exactly c :: pattern) (c :: path)
  | name {tokens x pattern path} (hname : MatchesName tokens x) (h : Matches pattern path) :
      Matches (.name tokens :: pattern) (.normal x :: path)
  | skip {pattern path} (h : Matches pattern path) :
      Matches (.anyRecursiveSequence :: pattern) path
  | descend (x) {pattern path} (h : Matches (.anyRecursiveSequence :: pattern) path) :
      Matches (.anyRecursiveSequence :: pattern) (.normal x :: path)

/-- What a text finds whose last component is the pattern of a name: every entry that it
matches, once, and `none` for each directory that cannot be read. -/
def Finds {C : Type} (fs : FileSystem Char C) (text : List Char)
    (result : Option (List (Option (Path Char)))) : Prop :=
  match parse text with
  | none => result = none
  | some pattern => ∃ found, result = some found ∧ (found.filterMap id).Nodup ∧
      ∀ path, some path ∈ found ↔ Matches pattern path ∧ fs.symlinkMetadata path = true

end Match

def IsMetachar (c : Char) : Prop :=
  c = '?' ∨ c = '*' ∨ c = '['

instance (c : Char) : Decidable (IsMetachar c) :=
  inferInstanceAs (Decidable (_ ∨ _))

def IsPlain (text : List Char) : Prop :=
  ∀ c ∈ text, ¬ IsMetachar c

instance (text : List Char) : Decidable (IsPlain text) :=
  List.decidableBAll (fun c => ¬ IsMetachar c) text

section Plain

variable {c : Char} {text name : List Char} {tokens : List PatternToken}

theorem isPlain_cons : IsPlain (c :: text) ↔ ¬ IsMetachar c ∧ IsPlain text :=
  List.forall_mem_cons

theorem parseTokens_cons (hc : ¬ IsMetachar c) (text : List Char) :
    parseTokens none (c :: text) = (parseTokens none text).map (.char c :: ·) := by
  simp only [IsMetachar, not_or] at hc
  rw [parseTokens, if_neg hc.1, if_neg hc.2.1, if_neg hc.2.2]

theorem parseTokens_of_isPlain (h : IsPlain text) :
    parseTokens none text = some (text.map .char) := by
  induction text with
  | nil => rfl
  | cons c text ih =>
      obtain ⟨hc, htext⟩ := isPlain_cons.mp h
      rw [parseTokens_cons hc, ih htext]
      rfl

theorem matchesName_char_cons :
    MatchesName (.char c :: tokens) name ↔ ∃ rest, name = c :: rest ∧ MatchesName tokens rest := by
  constructor
  · rintro ⟨_, rest, rfl, rfl, h⟩
    exact ⟨rest, rfl, h⟩
  · rintro ⟨rest, rfl, h⟩
    exact ⟨[c], rest, rfl, rfl, h⟩

theorem matchesName_map_char : MatchesName (text.map .char) name ↔ name = text := by
  induction text generalizing name with
  | nil => rfl
  | cons c text ih =>
      rw [List.map_cons, matchesName_char_cons]
      simp only [ih, exists_eq_right]

theorem matchesName_anySequence_map_char :
    MatchesName (.anySequence :: text.map .char) name ↔ text <:+ name := by
  constructor
  · rintro ⟨skipped, rest, rfl, _, h⟩
    rw [matchesName_map_char.mp h]
    exact List.suffix_append skipped text
  · rintro ⟨skipped, rfl⟩
    exact ⟨skipped, text, rfl, trivial, matchesName_map_char.mpr rfl⟩

theorem parseComponent_of_isPlain (h : IsPlain name) :
    parseComponent (.normal name) = some (.name (name.map .char)) := by
  have hne : name ≠ "**".toList := by
    rintro rfl
    exact absurd h (by decide)
  rw [parseComponent, if_neg hne, parseTokens_of_isPlain h]
  rfl

end Plain

section Components

variable {pattern pattern' : List PatternComponent} {path : Path Char} {names : List (List Char)}

theorem matches_nil : Matches [] path ↔ path = [] := by
  constructor
  · rintro ⟨⟩
    rfl
  · rintro rfl
    exact .nil

theorem matches_exactly_cons {c : Component Char} :
    Matches (.exactly c :: pattern) path ↔ ∃ rest, path = c :: rest ∧ Matches pattern rest := by
  constructor
  · rintro ⟨⟩
    exact ⟨_, rfl, ‹_›⟩
  · rintro ⟨rest, rfl, h⟩
    exact .exactly c h

theorem matches_name_cons {tokens : List PatternToken} :
    Matches (.name tokens :: pattern) path ↔
      ∃ x rest, path = .normal x :: rest ∧ MatchesName tokens x ∧ Matches pattern rest := by
  constructor
  · rintro ⟨⟩
    exact ⟨_, _, rfl, ‹_›, ‹_›⟩
  · rintro ⟨x, rest, rfl, hname, h⟩
    exact .name hname h

/-- A component `**` stands for any number of directories. -/
theorem matches_anyRecursiveSequence_cons :
    Matches (.anyRecursiveSequence :: pattern) path ↔
      ∃ (dirs : List (List Char)) (rest : Path Char),
        path = dirs.map .normal ++ rest ∧ Matches pattern rest := by
  constructor
  · generalize hp : PatternComponent.anyRecursiveSequence :: pattern = p
    intro h
    induction h with
    | nil => cases hp
    | exactly => cases hp
    | name => cases hp
    | @skip _ path h _ =>
        cases hp
        exact ⟨[], path, rfl, h⟩
    | descend x _ ih =>
        cases hp
        obtain ⟨dirs, rest, rfl, h⟩ := ih rfl
        exact ⟨x :: dirs, rest, rfl, h⟩
  · rintro ⟨dirs, rest, rfl, h⟩
    induction dirs with
    | nil => exact .skip h
    | cons x dirs ih => exact .descend x ih

theorem matches_append :
    Matches (pattern ++ pattern') path ↔
      ∃ p q, path = p ++ q ∧ Matches pattern p ∧ Matches pattern' q := by
  constructor
  · intro h
    induction pattern generalizing path with
    | nil => exact ⟨[], path, rfl, .nil, h⟩
    | cons component pattern ih =>
        cases component with
        | exactly c =>
            obtain ⟨rest, rfl, hrest⟩ := matches_exactly_cons.mp h
            obtain ⟨p, q, rfl, hp, hq⟩ := ih hrest
            exact ⟨c :: p, q, rfl, .exactly c hp, hq⟩
        | name tokens =>
            obtain ⟨x, rest, rfl, hname, hrest⟩ := matches_name_cons.mp h
            obtain ⟨p, q, rfl, hp, hq⟩ := ih hrest
            exact ⟨.normal x :: p, q, rfl, .name hname hp, hq⟩
        | anyRecursiveSequence =>
            obtain ⟨dirs, rest, rfl, hrest⟩ := matches_anyRecursiveSequence_cons.mp h
            obtain ⟨p, q, rfl, hp, hq⟩ := ih hrest
            refine ⟨dirs.map .normal ++ p, q, by rw [List.append_assoc], ?_, hq⟩
            exact matches_anyRecursiveSequence_cons.mpr ⟨dirs, p, rfl, hp⟩
  · rintro ⟨p, q, rfl, hp, hq⟩
    induction hp with
    | nil => exact hq
    | exactly c _ ih => exact .exactly c ih
    | name hname _ ih => exact .name hname ih
    | skip _ ih => exact .skip ih
    | descend x _ ih => exact .descend x ih

theorem mapM_parseComponent_of_isPlain (h : ∀ x ∈ names, IsPlain x) :
    (names.map Component.normal).mapM parseComponent =
      some (names.map fun x => .name (x.map .char)) := by
  induction names with
  | nil => rfl
  | cons x names ih =>
      obtain ⟨hx, hnames⟩ := List.forall_mem_cons.mp h
      rw [List.map_cons, List.mapM_cons, parseComponent_of_isPlain hx, ih hnames]
      rfl

theorem matches_map_name :
    Matches (names.map fun x => .name (x.map .char)) path ↔ path = names.map .normal := by
  induction names generalizing path with
  | nil => exact matches_nil
  | cons x names ih =>
      rw [List.map_cons, matches_name_cons]
      simp only [matchesName_map_char, ih, List.map_cons]
      simp

end Components

section Apart

variable {name text : List Char} {tokens : List PatternToken} {pattern : List PatternComponent}
  {path : Path Char} {names : List (List Char)}

theorem length_le_of_parseTokens {bracket : Option Bracket}
    (h : parseTokens bracket text = some tokens) : tokens.length ≤ text.length := by
  induction text generalizing bracket tokens with
  | nil =>
      cases bracket with
      | none =>
          cases h
          exact Nat.le_refl 0
      | some bracket => cases h
  | cons c text ih =>
      have hmap {f : List PatternToken → List PatternToken}
          (hf : ∀ tokens, (f tokens).length = tokens.length + 1)
          (h : (parseTokens none text).map f = some tokens) :
          tokens.length ≤ (c :: text).length := by
        obtain ⟨rest, hrest, rfl⟩ := Option.map_eq_some_iff.mp h
        rw [hf]
        exact Nat.succ_le_succ (ih hrest)
      rcases bracket with _ | _ | _ | ⟨negated, chars⟩
      · rw [parseTokens] at h
        split at h
        · exact hmap (fun _ => rfl) h
        · split at h
          · split at h
            · cases h
            · exact hmap (fun _ => rfl) h
          · split at h
            · exact Nat.le_succ_of_le (ih h)
            · exact hmap (fun _ => rfl) h
      · rw [parseTokens] at h
        split at h
        · exact Nat.le_succ_of_le (ih h)
        · exact Nat.le_succ_of_le (ih h)
      · exact Nat.le_succ_of_le (ih h)
      · rw [parseTokens] at h
        split at h
        · exact hmap (fun _ => rfl) h
        · exact Nat.le_succ_of_le (ih h)

theorem MatchesName.length_eq (h : MatchesName tokens name)
    (htokens : .anySequence ∉ tokens) : name.length = tokens.length := by
  induction tokens generalizing name with
  | nil =>
      cases h
      rfl
  | cons token tokens ih =>
      obtain ⟨text, rest, rfl, htext, hrest⟩ := h
      have hne : PatternToken.anySequence ≠ token := fun heq => htokens (heq ▸ List.mem_cons_self)
      have htail : .anySequence ∉ tokens := fun hmem => htokens (List.mem_cons_of_mem _ hmem)
      have hone : text.length = 1 := by
        cases token with
        | char c => rw [htext, List.length_singleton]
        | anyChar => obtain ⟨c, rfl⟩ := htext; rfl
        | anySequence => exact absurd rfl hne
        | anyWithin => obtain ⟨c, rfl, _⟩ := htext; rfl
        | anyExcept => obtain ⟨c, rfl, _⟩ := htext; rfl
      rw [List.length_append, hone, ih hrest htail, List.length_cons, Nat.add_comm]

theorem MatchesName.exists_longer (h : MatchesName tokens name)
    (htokens : .anySequence ∈ tokens) :
    ∃ name', name'.length = name.length + 1 ∧ MatchesName tokens name' := by
  induction tokens generalizing name with
  | nil => cases htokens
  | cons token tokens ih =>
      obtain ⟨text, rest, rfl, htext, hrest⟩ := h
      rcases List.mem_cons.mp htokens with rfl | htail
      · exact ⟨'a' :: text ++ rest, by simp, 'a' :: text, rest, rfl, trivial, hrest⟩
      · obtain ⟨rest', hlen, hrest'⟩ := ih hrest htail
        refine ⟨text ++ rest', ?_, text, rest', rfl, htext, hrest'⟩
        rw [List.length_append, List.length_append, hlen, Nat.add_assoc]

/-- A pattern that is not plain does not match itself only. -/
theorem exists_matchesName_ne (hparse : parseTokens none text = some tokens)
    (hplain : ¬ IsPlain text) (h : MatchesName tokens name) :
    ∃ name', name' ≠ text ∧ MatchesName tokens name' := by
  induction text generalizing tokens name with
  | nil => exact absurd (fun c hc => by cases hc) hplain
  | cons c text ih =>
      by_cases hc : IsMetachar c
      · rcases hc with rfl | rfl | rfl
        · obtain ⟨tokens, _, rfl⟩ := Option.map_eq_some_iff.mp hparse
          obtain ⟨_, rest, rfl, _, hrest⟩ := h
          exact ⟨'a' :: rest, by simp, ['a'], rest, rfl, ⟨'a', rfl⟩, hrest⟩
        · rw [parseTokens, if_neg (by decide), if_pos rfl] at hparse
          split at hparse
          · cases hparse
          · obtain ⟨tokens, _, rfl⟩ := Option.map_eq_some_iff.mp hparse
            obtain ⟨_, rest, rfl, _, hrest⟩ := h
            exact ⟨'a' :: rest, by simp, ['a'], rest, rfl, trivial, hrest⟩
        · -- A bracket has more characters than it stands for.
          by_cases hne : name = '[' :: text
          · have hshort : tokens.length ≤ text.length := length_le_of_parseTokens hparse
            have hlen : name.length = text.length + 1 := by rw [hne, List.length_cons]
            by_cases htokens : .anySequence ∈ tokens
            · obtain ⟨name', hlonger, hname'⟩ := h.exists_longer htokens
              refine ⟨name', ?_, hname'⟩
              rintro rfl
              rw [hlen, List.length_cons] at hlonger
              omega
            · have heq := h.length_eq htokens
              omega
          · exact ⟨name, hne, h⟩
      · rw [parseTokens_cons hc] at hparse
        obtain ⟨tokens, htext, rfl⟩ := Option.map_eq_some_iff.mp hparse
        obtain ⟨rest, rfl, hrest⟩ := matchesName_char_cons.mp h
        obtain ⟨name', hne, hname'⟩ :=
          ih htext (fun htext => hplain (isPlain_cons.mpr ⟨hc, htext⟩)) hrest
        refine ⟨c :: name', fun heq => hne (List.cons.inj heq).2, ?_⟩
        exact matchesName_char_cons.mpr ⟨name', rfl, hname'⟩

theorem exists_of_matches_parseComponent {component : PatternComponent} {x : List Char}
    (hparse : parseComponent (.normal x) = some component)
    (h : Matches (component :: pattern) path) :
    ∃ (dirs : List (List Char)) (rest : Path Char), path = dirs.map .normal ++ rest ∧
      Matches pattern rest := by
  rw [parseComponent] at hparse
  split at hparse
  · cases hparse
    exact matches_anyRecursiveSequence_cons.mp h
  · obtain ⟨tokens, _, rfl⟩ := Option.map_eq_some_iff.mp hparse
    obtain ⟨y, rest, rfl, _, hrest⟩ := matches_name_cons.mp h
    exact ⟨[y], rest, rfl, hrest⟩

/-- The component of a name that is not plain does not match this name only. -/
theorem exists_matches_ne {component : PatternComponent} {x : List Char}
    (hparse : parseComponent (.normal x) = some component) (hplain : ¬ IsPlain x)
    (h : Matches (component :: pattern) path) :
    ∃ y, y ≠ x ∧ ∃ rest, Matches pattern rest ∧
      ∀ rest, Matches pattern rest → Matches (component :: pattern) (.normal y :: rest) := by
  rw [parseComponent] at hparse
  split at hparse
  · rename_i hx
    cases hparse
    obtain ⟨_, rest, _, hrest⟩ := matches_anyRecursiveSequence_cons.mp h
    exact ⟨['a'], by rw [hx]; decide, rest, hrest, fun rest hrest => .descend _ (.skip hrest)⟩
  · obtain ⟨tokens, htokens, rfl⟩ := Option.map_eq_some_iff.mp hparse
    obtain ⟨y, rest, rfl, hy, hrest⟩ := matches_name_cons.mp h
    obtain ⟨y', hne, hy'⟩ := exists_matchesName_ne htokens hplain hy
    exact ⟨y', hne, rest, hrest, fun rest hrest => .name hy' hrest⟩

theorem mapM_parseComponent_cons {x : List Char}
    (h : ((x :: names).map Component.normal).mapM parseComponent = some pattern) :
    ∃ component rest, parseComponent (.normal x) = some component ∧
      (names.map Component.normal).mapM parseComponent = some rest ∧
      pattern = component :: rest := by
  rw [List.map_cons, List.mapM_cons] at h
  obtain ⟨component, hx, h⟩ := Option.bind_eq_some_iff.mp h
  obtain ⟨rest, hnames, hcons⟩ := Option.bind_eq_some_iff.mp h
  exact ⟨component, rest, hx, hnames, (Option.some.inj hcons).symm⟩

/-- A path of names is only matched by such paths. -/
theorem exists_names (hparse : (names.map Component.normal).mapM parseComponent = some pattern)
    (h : Matches pattern path) : ∃ names' : List (List Char), path = names'.map .normal := by
  induction names generalizing pattern path with
  | nil =>
      cases hparse
      exact ⟨[], matches_nil.mp h⟩
  | cons x names ih =>
      obtain ⟨component, pattern, hx, hnames, rfl⟩ := mapM_parseComponent_cons hparse
      obtain ⟨dirs, rest, rfl, hrest⟩ := exists_of_matches_parseComponent hx h
      obtain ⟨names', rfl⟩ := ih hnames hrest
      exact ⟨dirs ++ names', by rw [List.map_append]⟩

/-- A path of names that are not all plain, if it matches anything, matches a path that
does not begin like itself. -/
theorem exists_apart (hparse : (names.map Component.normal).mapM parseComponent = some pattern)
    (hplain : ¬ ∀ x ∈ names, IsPlain x) (h : Matches pattern path) :
    ∃ names' : List (List Char), Matches pattern (names'.map .normal) ∧
      ∀ rest, ¬ names <+: names' ++ rest := by
  induction names generalizing pattern path with
  | nil => exact absurd (fun x hx => by cases hx) hplain
  | cons x names ih =>
      obtain ⟨component, pattern, hx, hnames, rfl⟩ := mapM_parseComponent_cons hparse
      by_cases hplainx : IsPlain x
      · rw [parseComponent_of_isPlain hplainx] at hx
        cases hx
        obtain ⟨_, rest, rfl, hname, hrest⟩ := matches_name_cons.mp h
        have htail : ¬ ∀ x ∈ names, IsPlain x :=
          fun htail => hplain (List.forall_mem_cons.mpr ⟨hplainx, htail⟩)
        obtain ⟨names', hnames', happart⟩ := ih hnames htail hrest
        refine ⟨x :: names', .name (matchesName_map_char.mpr rfl) hnames', fun rest hprefix => ?_⟩
        exact happart rest (List.cons_prefix_cons.mp hprefix).2
      · obtain ⟨y, hne, rest, hrest, hcons⟩ := exists_matches_ne hx hplainx h
        obtain ⟨names', rfl⟩ := exists_names hnames hrest
        refine ⟨y :: names', hcons _ hrest, fun rest hprefix => ?_⟩
        exact hne (List.cons_prefix_cons.mp hprefix).1.symm

end Apart

end Glob

end Files
