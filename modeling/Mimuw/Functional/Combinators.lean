import Mathlib.Tactic
import Mimuw.Lib.Applicative
import Mimuw.Lib.Runs

/-!
# The combinator reducer

`rstep` contracts the leftmost outermost redex of `S`, `K`, `I` or `B`, so
`rpath` ends in the normal form whenever there is one.
-/

namespace Mimuw.Functional.Combinators

open Mimuw.Lib Relation

inductive Comb where
  | S
  | K
  | I
  | B
  | X
  | Z
  | V (n : Int)
  deriving DecidableEq

/-- Application is `:$`. -/
abbrev Expr := ApTerm Comb

def rstep : Expr → Option Expr
  | .app (.app (.app (.atom .S) e₁) e₂) e₃ => some (.app (.app e₁ e₃) (.app e₂ e₃))
  | .app (.app (.atom .K) e₁) _ => some e₁
  | .app (.atom .I) e => some e
  | .app (.app (.app (.atom .B) e₁) e₂) e₃ => some (.app e₁ (.app e₂ e₃))
  | .app e₁ e₂ =>
      match rstep e₁ with
      | some e₁' => some (.app e₁' e₂)
      | none =>
          match rstep e₂ with
          | some e₂' => some (.app e₁ e₂')
          | none => none
  | _ => none

/-- The list of the source, which may be infinite, as far as the fuel goes. -/
def rpath (fuel : Nat) (expr : Expr) : Option (List Expr) := trace rstep fuel expr

/-! ## Contractions anywhere -/

inductive Contracts : Expr → Expr → Prop where
  | S (e₁ e₂ e₃ : Expr) :
      Contracts (.app (.app (.app (.atom .S) e₁) e₂) e₃) (.app (.app e₁ e₃) (.app e₂ e₃))
  | K (e₁ e₂ : Expr) : Contracts (.app (.app (.atom .K) e₁) e₂) e₁
  | I (e : Expr) : Contracts (.app (.atom .I) e) e
  | B (e₁ e₂ e₃ : Expr) :
      Contracts (.app (.app (.app (.atom .B) e₁) e₂) e₃) (.app e₁ (.app e₂ e₃))
  | left {e₁ e₁' : Expr} (e₂ : Expr) (h : Contracts e₁ e₁') :
      Contracts (.app e₁ e₂) (.app e₁' e₂)
  | right (e₁ : Expr) {e₂ e₂' : Expr} (h : Contracts e₂ e₂') :
      Contracts (.app e₁ e₂) (.app e₁ e₂')

/-! ## The rules -/

def arity : Comb → Option Nat
  | .S => some 3
  | .K => some 2
  | .I => some 1
  | .B => some 3
  | .X | .Z | .V _ => none

def contract : Comb → List Expr → Expr
  | .S, [e₁, e₂, e₃] => .app (.app e₁ e₃) (.app e₂ e₃)
  | .K, [e₁, _] => e₁
  | .I, [e] => e
  | .B, [e₁, e₂, e₃] => .app e₁ (.app e₂ e₃)
  | c, _ => .atom c

private theorem contract_parametric (R : Expr → Expr → Prop) (hR : Congruence R) (c : Comb)
    (args args' : List Expr) (harity : arity c = some args.length)
    (hargs : List.Forall₂ R args args') : R (contract c args) (contract c args') := by
  cases c with
  | S =>
      match args, args', hargs with
      | [e₁, e₂, e₃], _, .cons h₁ (.cons h₂ (.cons h₃ .nil)) =>
          exact hR.app _ _ _ _ (hR.app _ _ _ _ h₁ h₃) (hR.app _ _ _ _ h₂ h₃)
      | [], _, _ | [_], _, _ | [_, _], _, _ | _ :: _ :: _ :: _ :: _, _, _ => simp [arity] at harity
  | K =>
      match args, args', hargs with
      | [e₁, e₂], _, .cons h₁ (.cons h₂ .nil) => exact h₁
      | [], _, _ | [_], _, _ | _ :: _ :: _ :: _, _, _ => simp [arity] at harity
  | I =>
      match args, args', hargs with
      | [e], _, .cons h .nil => exact h
      | [], _, _ | _ :: _ :: _, _, _ => simp [arity] at harity
  | B =>
      match args, args', hargs with
      | [e₁, e₂, e₃], _, .cons h₁ (.cons h₂ (.cons h₃ .nil)) =>
          exact hR.app _ _ _ _ h₁ (hR.app _ _ _ _ h₂ h₃)
      | [], _, _ | [_], _, _ | [_, _], _, _ | _ :: _ :: _ :: _ :: _, _, _ => simp [arity] at harity
  | X => cases harity
  | Z => cases harity
  | V n => cases harity

def rules : Rules Comb where
  arity := arity
  contract := contract
  parametric := contract_parametric

private theorem isRedex_cases {e : Expr} (h : rules.IsRedex e) :
    (∃ e₁ e₂ e₃, e = .app (.app (.app (.atom .S) e₁) e₂) e₃) ∨
      (∃ e₁ e₂, e = .app (.app (.atom .K) e₁) e₂) ∨ (∃ e₁, e = .app (.atom .I) e₁) ∨
        ∃ e₁ e₂ e₃, e = .app (.app (.app (.atom .B) e₁) e₂) e₃ := by
  have harity : arity e.head = some e.args.length := h
  match e with
  | .atom c => cases c <;> cases harity
  | .app (.atom c) e₁ =>
      cases c with
      | I => exact .inr (.inr (.inl ⟨e₁, rfl⟩))
      | _ => cases harity
  | .app (.app (.atom c) e₁) e₂ =>
      cases c with
      | K => exact .inr (.inl ⟨e₁, e₂, rfl⟩)
      | _ => cases harity
  | .app (.app (.app (.atom c) e₁) e₂) e₃ =>
      cases c with
      | S => exact .inl ⟨e₁, e₂, e₃, rfl⟩
      | B => exact .inr (.inr (.inr ⟨e₁, e₂, e₃, rfl⟩))
      | _ => cases harity
  | .app (.app (.app (.app f e₀) e₁) e₂) e₃ =>
      have hle : ∀ c k, arity c = some k → k ≤ 3 := by
        intro c k hk
        cases c <;> simp [arity] at hk <;> omega
      have := hle _ _ harity
      simp at this

/-- The redexes of the rules are those of the source. -/
theorem rstep_eq_leftmost (e : Expr) : rstep e = rules.leftmost e := by
  induction e with
  | atom c => cases c <;> rfl
  | app f x ihf ihx =>
      by_cases hredex : rules.IsRedex (.app f x)
      · rw [Rules.leftmost_of_redex hredex]
        rcases isRedex_cases hredex with ⟨e₁, e₂, e₃, h⟩ | ⟨e₁, e₂, h⟩ | ⟨e₁, h⟩ | ⟨e₁, e₂, e₃, h⟩
        all_goals rw [h]; rfl
      · rw [Rules.leftmost, if_neg hredex, ← ihf, ← ihx, rstep]
        · cases rstep f with
          | some g => rfl
          | none => cases rstep x <;> rfl
        all_goals
          intros
          subst_vars
          exact hredex rfl

private theorem contracts_iff_step {e e' : Expr} : Contracts e e' ↔ rules.Step e e' := by
  constructor
  · intro h
    induction h with
    | S e₁ e₂ e₃ =>
        have hredex : rules.IsRedex (.app (.app (.app (.atom .S) e₁) e₂) e₃) := rfl
        exact .root hredex
    | K e₁ e₂ =>
        have hredex : rules.IsRedex (.app (.app (.atom .K) e₁) e₂) := rfl
        exact .root hredex
    | I e =>
        have hredex : rules.IsRedex (.app (.atom .I) e) := rfl
        exact .root hredex
    | B e₁ e₂ e₃ =>
        have hredex : rules.IsRedex (.app (.app (.app (.atom .B) e₁) e₂) e₃) := rfl
        exact .root hredex
    | left e₂ _ ih => exact .left e₂ ih
    | right e₁ _ ih => exact .right e₁ ih
  · intro h
    induction h with
    | root hredex =>
        rcases isRedex_cases hredex with ⟨e₁, e₂, e₃, h⟩ | ⟨e₁, e₂, h⟩ | ⟨e₁, h⟩ | ⟨e₁, e₂, e₃, h⟩
        · rw [h]
          exact .S e₁ e₂ e₃
        · rw [h]
          exact .K e₁ e₂
        · rw [h]
          exact .I e₁
        · rw [h]
          exact .B e₁ e₂ e₃
    | left x _ ih => exact .left x ih
    | right f _ ih => exact .right f ih

/-- Whenever some contractions lead to an expression without redexes, the path
of the reducer is finite and ends in it. -/
theorem combinators_normalizes (e n : Expr) (h : ReflTransGen Contracts e n)
    (hn : ∀ e', ¬ Contracts n e') :
    ∃ fuel path, rpath fuel e = some path ∧ path.getLast? = some n := by
  have hnormal : rules.Normal n := fun u hu => hn u (contracts_iff_step.mpr hu)
  have hsteps : ReflTransGen rules.Step e n := h.lift id fun _ _ => contracts_iff_step.mp
  have hleftmost : ReflTransGen (fun a b => rstep a = some b) e n :=
    (Rules.leftmost_normalizes hsteps hnormal).lift id fun a b hab =>
      (rstep_eq_leftmost a).trans hab
  exact trace_of_steps hleftmost (by rw [rstep_eq_leftmost, hnormal.leftmost_eq])

def omega : Expr :=
  .app (.app (.app (.atom .S) (.atom .I)) (.atom .I))
    (.app (.app (.atom .S) (.atom .I)) (.atom .I))

def kio : Expr := .app (.app (.atom .K) (.atom .I)) omega

theorem combinators_normalizes_kio :
    ∃ fuel path, rpath fuel kio = some path ∧ path.getLast? = some (.atom .I) :=
  combinators_normalizes kio (.atom .I) (.single (.K _ _)) fun _ h => by cases h

end Mimuw.Functional.Combinators
