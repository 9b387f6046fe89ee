import Mathlib.Data.List.Basic

/-!
# Programs that make calls

A program makes calls one after the other and goes on with what they return.
`exec` runs it on a state without anything else in between. A `Made` call is one
along with its reply and the states before and after it, and `Leaves` says what is
left of a program after it made some calls, whatever they were answered.

`Ensures` is the logic of such programs: whenever a program returns, what it
returns and the calls it made are related. It has a rule for each way to put a
program together.
-/

namespace Runs

/-- A program that makes calls in `A` and returns an `R`. -/
inductive Prog (A : Type) (Reply : A → Type) (R : Type)
  | ret (r : R)
  | call (a : A) (next : Reply a → Prog A Reply R)

structure Made (σ A : Type) (Reply : A → Type) where
  pre : σ
  action : A
  reply : Reply action
  post : σ

namespace Prog

variable {A : Type} {Reply : A → Type} {σ R S : Type}

def bind : Prog A Reply R → (R → Prog A Reply S) → Prog A Reply S
  | ret r, f => f r
  | call a next, f => call a fun reply => (next reply).bind f

instance : Monad (Prog A Reply) where
  pure := ret
  bind := bind

def perform (a : A) : Prog A Reply (Reply a) :=
  call a ret

def exec (act : (a : A) → σ → Reply a × σ) : Prog A Reply R → σ → R × σ
  | ret r, s => (r, s)
  | call a next, s => exec act (next (act a s).1) (act a s).2

theorem exec_bind (act : (a : A) → σ → Reply a × σ) (p : Prog A Reply R)
    (f : R → Prog A Reply S) (s : σ) :
    exec act (p >>= f) s = exec act (f (exec act p s).1) (exec act p s).2 := by
  show exec act (p.bind f) s = _
  induction p generalizing s with
  | ret r => rfl
  | call a next ih => exact ih _ _

inductive Leaves (σ : Type) : Prog A Reply R → List (Made σ A Reply) → Prog A Reply R → Prop
  | refl (p) : Leaves σ p [] p
  | call {a next made q} (pre : σ) (reply : Reply a) (post : σ)
      (h : Leaves σ (next reply) made q) :
      Leaves σ (.call a next) (⟨pre, a, reply, post⟩ :: made) q

namespace Leaves

variable {p : Prog A Reply R} {made : List (Made σ A Reply)} {a : A}
  {next : Reply a → Prog A Reply R}

theorem snoc (h : Leaves σ p made (.call a next)) (pre : σ) (reply : Reply a) (post : σ) :
    Leaves σ p (made ++ [⟨pre, a, reply, post⟩]) (next reply) := by
  generalize hq : Prog.call a next = q at h
  induction h with
  | refl p =>
      subst hq
      exact .call pre reply post (.refl _)
  | call pre' reply' post' _ ih => exact .call pre' reply' post' (ih hq)

theorem of_bind {f : R → Prog A Reply S} {s : S} (h : Leaves σ (p.bind f) made (.ret s)) :
    ∃ made₁ made₂ r, made = made₁ ++ made₂ ∧ Leaves σ p made₁ (.ret r) ∧
      Leaves σ (f r) made₂ (.ret s) := by
  induction p generalizing made with
  | ret r => exact ⟨[], made, r, rfl, .refl _, h⟩
  | call a next ih =>
      cases h with
      | call pre reply post h =>
          obtain ⟨made₁, made₂, r, rfl, h₁, h₂⟩ := ih reply h
          exact ⟨_, made₂, r, rfl, .call pre reply post h₁, h₂⟩

end Leaves

/-- Whenever the program returns, the calls it made and what it returns are related. -/
def Ensures (σ : Type) (p : Prog A Reply R) (Q : List (Made σ A Reply) → R → Prop) : Prop :=
  ∀ made r, Leaves σ p made (.ret r) → Q made r

namespace Ensures

variable {p : Prog A Reply R} {Q : List (Made σ A Reply) → R → Prop}

theorem ret {r : R} (h : Q [] r) : Ensures σ (.ret r : Prog A Reply R) Q := by
  intro made r' hleaves
  cases hleaves
  exact h

theorem call {a : A} {next : Reply a → Prog A Reply R}
    (h : ∀ pre reply post, Ensures σ (next reply) fun made => Q (⟨pre, a, reply, post⟩ :: made)) :
    Ensures σ (.call a next) Q := by
  intro made r hleaves
  cases hleaves with
  | call pre reply post hleaves => exact h pre reply post _ r hleaves

theorem mono (h : Ensures σ p Q) {Q' : List (Made σ A Reply) → R → Prop}
    (hQ : ∀ made r, Q made r → Q' made r) : Ensures σ p Q' :=
  fun made r hleaves => hQ made r (h made r hleaves)

theorem bind {f : R → Prog A Reply S} {Q : List (Made σ A Reply) → S → Prop}
    (h : Ensures σ p fun made r => Ensures σ (f r) fun made' => Q (made ++ made')) :
    Ensures σ (p.bind f) Q := by
  intro made s hleaves
  obtain ⟨made₁, made₂, r, rfl, h₁, h₂⟩ := hleaves.of_bind
  exact h made₁ r h₁ made₂ s h₂

end Ensures

def Only (P : A → Prop) : Prog A Reply R → Prop
  | ret _ => True
  | call a next => P a ∧ ∀ reply, (next reply).Only P

namespace Only

variable {p : Prog A Reply R} {P : A → Prop}

theorem bind {f : R → Prog A Reply S} (hp : p.Only P) (hf : ∀ r, (f r).Only P) :
    (p.bind f).Only P := by
  induction p with
  | ret r => exact hf r
  | call a next ih => exact ⟨hp.1, fun reply => ih reply (hp.2 reply)⟩

theorem of_leaves {made : List (Made σ A Reply)} {q : Prog A Reply R} (hp : p.Only P)
    (h : Leaves σ p made q) : ∀ m ∈ made, P m.action := by
  induction h with
  | refl p => exact fun m hm => nomatch hm
  | call pre reply post _ ih =>
      intro m hm
      rcases List.mem_cons.mp hm with rfl | hm
      · exact hp.1
      · exact ih (hp.2 reply) m hm

end Only

end Prog

end Runs
