import Mathlib.Data.List.Basic
import Mathlib.Data.Nat.Notation
import Mathlib.Logic.Function.Basic

/-!
# Options of a preprocessor

A compiler reads its options from left to right. Some of them define or undefine a macro or
name a directory of headers, either in one argument or in two. Options may come from
several parties, one after the other, and the last one that is about a macro decides what
it is: `macros_append` says what the options of two parties come to in terms of those of
each of them.
-/

namespace Preprocessor

abbrev Text :=
  List Char

inductive Opt
  | define (name value : Text)
  | undefine (name : Text)
  | includeDir (dir : Text)
  | other (args : List Text)
  deriving DecidableEq, Repr

/-- The definition of a macro, which is 1 if no value is given. A macro with parameters is
left as it is. -/
def Opt.ofDefine (text : Text) : Opt :=
  let name := text.takeWhile fun c => c ≠ '=' && c ≠ '('
  match text.drop name.length with
  | [] => .define name ['1']
  | '=' :: value => .define name value
  | value => .define name value

theorem Opt.ofDefine_eq {name : Text} (h : ∀ c ∈ name, c ≠ '=' ∧ c ≠ '(') (value : Text) :
    ofDefine (name ++ '=' :: value) = define name value := by
  have htake : (name ++ '=' :: value).takeWhile (fun c => c ≠ '=' && c ≠ '(') = name := by
    rw [List.takeWhile_append_of_pos fun c hc => by simpa using h c hc]
    simp
  rw [ofDefine]
  simp only [htake, List.drop_left]

/-- How an argument is read: as an option, or as one that takes the next argument. -/
inductive Shape
  | whole (opt : Opt)
  | withNext (opt : Text → Opt)

/-- The shape of an argument. The other options that take an argument are given. -/
def shape (separate : Text → Bool) : Text → Shape
  | ['-', 'D'] => .withNext .ofDefine
  | '-' :: 'D' :: text => .whole (.ofDefine text)
  | ['-', 'U'] => .withNext .undefine
  | '-' :: 'U' :: name => .whole (.undefine name)
  | ['-', 'I'] => .withNext .includeDir
  | '-' :: 'I' :: dir => .whole (.includeDir dir)
  | arg =>
      if separate arg then .withNext fun next => .other [arg, next]
      else .whole (.other [arg])

/-- The options that some arguments are read as, unless the last one lacks its argument. -/
def parse (separate : Text → Bool) : List Text → Option (List Opt)
  | [] => some []
  | arg :: rest =>
      match shape separate arg with
      | .whole opt => (parse separate rest).map fun opts => opt :: opts
      | .withNext opt =>
          match rest with
          | [] => none
          | next :: rest => (parse separate rest).map fun opts => opt next :: opts

section Parse

variable {separate : Text → Bool}

theorem parse_whole {arg : Text} {opt : Opt} (h : shape separate arg = .whole opt)
    (rest : List Text) :
    parse separate (arg :: rest) = (parse separate rest).map fun opts => opt :: opts := by
  rw [parse, h]

theorem parse_withNext {arg : Text} {opt : Text → Opt}
    (h : shape separate arg = .withNext opt) (next : Text) (rest : List Text) :
    parse separate (arg :: next :: rest) =
      (parse separate rest).map fun opts => opt next :: opts := by
  rw [parse, h]

/-- Arguments that are read as some options are so whatever follows. -/
theorem parse_append {args : List Text} {opts : List Opt} (h : parse separate args = some opts)
    (rest : List Text) :
    parse separate (args ++ rest) = (parse separate rest).map fun more => opts ++ more := by
  induction args using parse.induct separate generalizing opts with
  | case1 =>
      cases h
      simp
  | case2 arg args opt hshape ih =>
      rw [parse_whole hshape] at h
      obtain ⟨opts, hargs, rfl⟩ := Option.map_eq_some_iff.mp h
      rw [List.cons_append, parse_whole hshape, ih hargs, Option.map_map]
      rfl
  | case3 arg opt hshape =>
      rw [parse, hshape] at h
      cases h
  | case4 arg opt hshape next args ih =>
      rw [parse_withNext hshape] at h
      obtain ⟨opts, hargs, rfl⟩ := Option.map_eq_some_iff.mp h
      rw [List.cons_append, List.cons_append, parse_withNext hshape, ih hargs, Option.map_map]
      rfl

end Parse

def Opt.apply (macros : Text → Option Text) : Opt → Text → Option Text
  | define name value => Function.update macros name (some value)
  | undefine name => Function.update macros name none
  | _ => macros

def macros (opts : List Opt) : Text → Option Text :=
  opts.foldl Opt.apply fun _ => none

def Opt.effect (name : Text) : Opt → Option (Option Text)
  | define n value => if n = name then some (some value) else none
  | undefine n => if n = name then some none else none
  | _ => none

def effect (opts : List Opt) (name : Text) : Option (Option Text) :=
  (opts.filterMap (Opt.effect name)).getLast?

def includeDirs (opts : List Opt) : List Text :=
  opts.filterMap fun opt =>
    match opt with
    | .includeDir dir => some dir
    | _ => none

section Macros

variable {name : Text}

theorem Opt.apply_eq (macros : Text → Option Text) (opt : Opt) :
    opt.apply macros name = (opt.effect name).getD (macros name) := by
  cases opt with
  | define n value =>
      by_cases h : n = name
      · simp [apply, effect, h]
      · simp [apply, effect, h, Function.update_of_ne (Ne.symm h)]
  | undefine n =>
      by_cases h : n = name
      · simp [apply, effect, h]
      · simp [apply, effect, h, Function.update_of_ne (Ne.symm h)]
  | includeDir dir => rfl
  | other args => rfl

@[simp] theorem effect_nil : effect [] name = none :=
  rfl

@[simp] theorem effect_define (n value : Text) :
    effect [.define n value] name = if n = name then some (some value) else none := by
  by_cases h : n = name <;> simp [effect, Opt.effect, h]

@[simp] theorem effect_includeDir (dir : Text) : effect [.includeDir dir] name = none :=
  rfl

@[simp] theorem effect_append (opts opts' : List Opt) :
    effect (opts ++ opts') name = (effect opts' name).or (effect opts name) := by
  rw [effect, effect, effect, List.filterMap_append, List.getLast?_append]

theorem foldl_apply_eq (opts : List Opt) (macros : Text → Option Text) :
    opts.foldl Opt.apply macros name = (effect opts name).getD (macros name) := by
  induction opts generalizing macros with
  | nil => rfl
  | cons opt opts ih =>
      rw [List.foldl_cons, ih, Opt.apply_eq, effect, effect, List.filterMap_cons]
      cases opt.effect name with
      | none => rfl
      | some value =>
          rw [List.getLast?_cons]
          rfl

/-- A macro is what the last option about it makes of it. -/
theorem macros_eq (opts : List Opt) : macros opts name = (effect opts name).getD none :=
  foldl_apply_eq opts _

theorem macros_append (opts opts' : List Opt) :
    macros (opts ++ opts') name = (effect opts' name).getD (macros opts name) := by
  rw [macros, List.foldl_append, foldl_apply_eq]
  rfl

theorem includeDirs_append (opts opts' : List Opt) :
    includeDirs (opts ++ opts') = includeDirs opts ++ includeDirs opts' :=
  List.filterMap_append

end Macros

def decimal (n : ℕ) : Text :=
  Nat.toDigits 10 n

/-- The number of a decimal numeral. Numerals with other bases are not read. -/
def number? (text : Text) : Option ℕ :=
  if text ≠ [] ∧ text.all Char.isDigit ∧ (text.head? = some '0' → text = ['0']) then
    some (Nat.ofDigitChars 10 text 0)
  else none

theorem head?_decimal_ne {n : ℕ} (h : 0 < n) : (decimal n).head? ≠ some '0' := by
  induction n using Nat.strongRecOn with
  | ind n ih =>
      by_cases hlt : n < 10
      · rw [decimal, Nat.toDigits_of_lt_base hlt, List.head?_cons]
        simpa using Nat.pos_iff_ne_zero.mp h
      · have hdiv : 0 < n / 10 := Nat.div_pos (by omega) (by decide)
        have hhead := ih (n / 10) (by omega) hdiv
        rw [decimal, Nat.toDigits_of_base_le (by decide) (by omega),
          List.head?_append_of_ne_nil _ Nat.toDigits_ne_nil]
        exact hhead

theorem number?_decimal (n : ℕ) : number? (decimal n) = some n := by
  have hdigits : (decimal n).all Char.isDigit = true :=
    List.all_eq_true.mpr fun c hc => Nat.isDigit_of_mem_toDigits (by decide) (by decide) hc
  have hzero : (decimal n).head? = some '0' → decimal n = ['0'] := by
    intro hhead
    cases n with
    | zero => rfl
    | succ n => exact absurd hhead (head?_decimal_ne (Nat.succ_pos n))
  rw [number?, if_pos ⟨Nat.toDigits_ne_nil, hdigits, hzero⟩, decimal,
    Nat.ofDigitChars_ten_toDigits]

end Preprocessor
