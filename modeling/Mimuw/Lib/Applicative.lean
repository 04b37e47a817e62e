import Mathlib.Data.List.Forall2
import Mathlib.Data.List.Induction
import Mathlib.Logic.Relation
import Mathlib.Tactic.Common

/-!
# Applicative rewriting

Terms are atoms and applications.  A rule belongs to an atom and contracts it
with a fixed number of arguments; what it makes of them may copy, drop and apply
them, but not look into them.  Such systems are orthogonal, and the strategy
that contracts the leftmost outermost redex finds every normal form.

The proof follows the standardization of reductions: a reduction is standard
when it first takes head steps only and then goes on, standard again, in the
function and in the argument.
-/

namespace Mimuw.Lib

open Relation

inductive ApTerm (α : Type*) where
  | atom (a : α)
  | app (f x : ApTerm α)
  deriving DecidableEq

namespace ApTerm

variable {α : Type*}

/-- The atom at the end of the left spine. -/
def head : ApTerm α → α
  | atom a => a
  | app f _ => f.head

/-- What it is applied to. -/
def args : ApTerm α → List (ApTerm α)
  | atom _ => []
  | app f x => f.args ++ [x]

@[simp] theorem head_atom (a : α) : (atom a).head = a := rfl
@[simp] theorem head_app (f x : ApTerm α) : (app f x).head = f.head := rfl
@[simp] theorem args_atom (a : α) : (atom a).args = [] := rfl
@[simp] theorem args_app (f x : ApTerm α) : (app f x).args = f.args ++ [x] := rfl

def apply (a : α) (args : List (ApTerm α)) : ApTerm α := args.foldl app (atom a)

private theorem apply_append (a : α) (args : List (ApTerm α)) (x : ApTerm α) :
    apply a (args ++ [x]) = app (apply a args) x := by
  simp [apply]

@[simp] theorem head_apply (a : α) (args : List (ApTerm α)) : (apply a args).head = a := by
  induction args using List.reverseRecOn with
  | nil => rfl
  | append_singleton args x ih => rw [apply_append, head_app, ih]

@[simp] theorem args_apply (a : α) (args : List (ApTerm α)) : (apply a args).args = args := by
  induction args using List.reverseRecOn with
  | nil => rfl
  | append_singleton args x ih => rw [apply_append, args_app, ih]

theorem apply_head_args (t : ApTerm α) : apply t.head t.args = t := by
  induction t with
  | atom a => rfl
  | app f x ih => rw [head_app, args_app, apply_append, ih]

end ApTerm

open ApTerm

/-- A relation between terms that respects their construction. -/
structure Congruence {α : Type*} (R : ApTerm α → ApTerm α → Prop) : Prop where
  atom : ∀ a, R (atom a) (atom a)
  app : ∀ f g x y, R f g → R x y → R (app f x) (app g y)

structure Rules (α : Type*) where
  /-- the number of arguments of the rule, if the atom has one -/
  arity : α → Option Nat
  contract : α → List (ApTerm α) → ApTerm α
  /-- related arguments give related results, whatever the congruence -/
  parametric : ∀ R : ApTerm α → ApTerm α → Prop, Congruence R →
    ∀ a args args', arity a = some args.length → List.Forall₂ R args args' →
      R (contract a args) (contract a args')

namespace Rules

variable {α : Type*} (rules : Rules α)

def IsRedex (t : ApTerm α) : Prop := rules.arity t.head = some t.args.length

instance (t : ApTerm α) : Decidable (rules.IsRedex t) :=
  inferInstanceAs (Decidable (_ = _))

def reduct (t : ApTerm α) : ApTerm α := rules.contract t.head t.args

/-- The contraction of a redex anywhere in a term. -/
inductive Step : ApTerm α → ApTerm α → Prop where
  | root {t : ApTerm α} (h : rules.IsRedex t) : Step t (rules.reduct t)
  | left {f g : ApTerm α} (x : ApTerm α) (h : Step f g) : Step (app f x) (app g x)
  | right (f : ApTerm α) {x y : ApTerm α} (h : Step x y) : Step (app f x) (app f y)

/-- The contraction of a redex on the left spine. -/
inductive Head : ApTerm α → ApTerm α → Prop where
  | root {t : ApTerm α} (h : rules.IsRedex t) : Head t (rules.reduct t)
  | left {f g : ApTerm α} (x : ApTerm α) (h : Head f g) : Head (app f x) (app g x)

/-- The step of the leftmost outermost strategy. -/
def leftmost : ApTerm α → Option (ApTerm α)
  | atom a => if rules.IsRedex (atom a) then some (rules.reduct (atom a)) else none
  | app f x =>
      if rules.IsRedex (app f x) then some (rules.reduct (app f x))
      else
        match leftmost f with
        | some g => some (app g x)
        | none => (leftmost x).map (app f)

def Leftmost (t u : ApTerm α) : Prop := rules.leftmost t = some u

def Normal (t : ApTerm α) : Prop := ∀ u, ¬ rules.Step t u

/-- Head steps to a term whose parts are reduced in the same way. -/
inductive Standard : ApTerm α → ApTerm α → Prop where
  | atom {t : ApTerm α} {a : α} (h : ReflTransGen rules.Head t (atom a)) :
      Standard t (atom a)
  | app {t f g x y : ApTerm α} (h : ReflTransGen rules.Head t (app f x))
      (hf : Standard f g) (hx : Standard x y) : Standard t (app g y)

variable {rules}
variable {t u v f g x y : ApTerm α}

/-! ## Standardization -/

private theorem Standard.of_head (h : ReflTransGen rules.Head t u) (hu : rules.Standard u v) :
    rules.Standard t v := by
  cases hu with
  | atom ha => exact .atom (h.trans ha)
  | app happ hf hx => exact .app (h.trans happ) hf hx

private theorem standard_congruence : Congruence rules.Standard where
  atom _ := .atom .refl
  app _ _ _ _ hf hx := .app .refl hf hx

private theorem standard_refl (t : ApTerm α) : rules.Standard t t := by
  induction t with
  | atom a => exact standard_congruence.atom a
  | app f x ihf ihx => exact standard_congruence.app f f x x ihf ihx

private theorem head_left (x : ApTerm α) (h : ReflTransGen rules.Head f g) :
    ReflTransGen rules.Head (app f x) (app g x) := by
  induction h with
  | refl => exact .refl
  | tail _ hstep ih => exact ih.tail (.left x hstep)

/-- The head steps of a standard reduction bring forth the spine of its end. -/
theorem Standard.spine (h : rules.Standard t u) :
    ∃ t', ReflTransGen rules.Head t t' ∧ t'.head = u.head ∧
      List.Forall₂ rules.Standard t'.args u.args := by
  induction h with
  | atom h => exact ⟨_, h, rfl, .nil⟩
  | @app t f g x y h hf hx ihf ihx =>
      obtain ⟨f', hhead, heq, hargs⟩ := ihf
      refine ⟨.app f' x, h.trans (head_left x hhead), heq, ?_⟩
      exact List.rel_append hargs (.cons hx .nil)

theorem Standard.root (h : rules.Standard t u) (hu : rules.IsRedex u) :
    rules.Standard t (rules.reduct u) := by
  obtain ⟨t', hhead, heq, hargs⟩ := h.spine
  have ht' : rules.IsRedex t' := by
    rw [IsRedex, heq, hargs.length_eq]
    exact hu
  have hreduct : rules.Standard (rules.reduct t') (rules.reduct u) := by
    rw [reduct, reduct, ← heq]
    exact rules.parametric _ standard_congruence _ _ _ ht' hargs
  exact .of_head (hhead.tail (.root ht')) hreduct

/-- A standard reduction followed by a step can be made standard. -/
theorem Standard.step (h : rules.Standard t u) (hstep : rules.Step u v) :
    rules.Standard t v := by
  induction hstep generalizing t with
  | root hredex => exact h.root hredex
  | left x hf ih =>
      cases h with
      | app happ hstd hx => exact .app happ (ih hstd) hx
  | right f hx ih =>
      cases h with
      | app happ hstd hy => exact .app happ hstd (ih hy)

private theorem standard_of_steps (h : ReflTransGen rules.Step t u) : rules.Standard t u := by
  induction h with
  | refl => exact standard_refl t
  | tail _ hstep ih => exact ih.step hstep

/-! ## The leftmost outermost strategy -/

theorem leftmost_of_redex (h : rules.IsRedex t) : rules.leftmost t = some (rules.reduct t) := by
  cases t <;> rw [leftmost, if_pos h]

private theorem leftmost_left (h : ¬ rules.IsRedex (app f x)) (hf : rules.Leftmost f g) :
    rules.Leftmost (app f x) (app g x) := by
  rw [Leftmost] at hf
  rw [Leftmost, leftmost, if_neg h, hf]

private theorem leftmost_right (h : ¬ rules.IsRedex (app f x)) (hf : rules.leftmost f = none)
    (hx : rules.Leftmost x y) : rules.Leftmost (app f x) (app f y) := by
  rw [Leftmost] at hx
  rw [Leftmost, leftmost, if_neg h, hf, hx]
  rfl

private theorem step_of_leftmost (h : rules.Leftmost t u) : rules.Step t u := by
  induction t generalizing u with
  | atom a =>
      simp only [Leftmost, leftmost] at h
      split_ifs at h with hredex
      obtain rfl := Option.some.inj h
      exact .root hredex
  | app f x ihf ihx =>
      simp only [Leftmost, leftmost] at h
      split_ifs at h with hredex
      · obtain rfl := Option.some.inj h
        exact .root hredex
      · cases hf : rules.leftmost f with
        | some g =>
            simp only [hf, Option.some.injEq] at h
            subst h
            exact .left x (ihf hf)
        | none =>
            simp only [hf, Option.map_eq_some_iff] at h
            obtain ⟨y, hy, rfl⟩ := h
            exact .right f (ihx hy)

theorem Normal.leftmost_eq (h : rules.Normal t) : rules.leftmost t = none := by
  cases hleft : rules.leftmost t with
  | none => rfl
  | some u => exact absurd (step_of_leftmost hleft) (h u)

/-- A head step is possible only with as many arguments as the rule takes. -/
private theorem Head.arity_le (h : rules.Head t u) :
    ∃ k, rules.arity t.head = some k ∧ k ≤ t.args.length := by
  induction h with
  | root hredex => exact ⟨_, hredex, Nat.le_refl _⟩
  | left x _ ih =>
      obtain ⟨k, hk, hle⟩ := ih
      refine ⟨k, hk, ?_⟩
      rw [args_app, List.length_append]
      omega

private theorem leftmost_of_head (h : rules.Head t u) : rules.Leftmost t u := by
  induction h with
  | root hredex => exact leftmost_of_redex hredex
  | left x hf ih =>
      refine leftmost_left ?_ ih
      obtain ⟨k, hk, hle⟩ := hf.arity_le
      intro hredex
      rw [IsRedex, head_app, hk, args_app, List.length_append] at hredex
      have := Option.some.inj hredex
      simp only [List.length_singleton] at this
      omega

private theorem leftmost_of_heads (h : ReflTransGen rules.Head t u) :
    ReflTransGen rules.Leftmost t u :=
  h.lift id fun _ _ => leftmost_of_head

/-- Steps in a term with too few arguments keep its spine. -/
private theorem Step.keeps_spine (h : rules.Step t u) {k : Nat} (hk : rules.arity t.head = some k)
    (hlt : t.args.length < k) : u.head = t.head ∧ u.args.length = t.args.length := by
  induction h with
  | root hredex =>
      rw [IsRedex, hk] at hredex
      have := Option.some.inj hredex
      omega
  | left x _ ih =>
      rw [args_app, List.length_append, List.length_singleton] at hlt
      obtain ⟨hhead, hlength⟩ := ih hk (by omega)
      exact ⟨hhead, by simp [hlength]⟩
  | right f _ ih => exact ⟨rfl, by simp⟩

private theorem isRedex_app_step (h : rules.Step f g) (hredex : rules.IsRedex (app f x)) :
    rules.IsRedex (app g x) := by
  rw [IsRedex, head_app, args_app, List.length_append, List.length_singleton] at *
  obtain ⟨hhead, hlength⟩ := h.keeps_spine hredex (Nat.lt_succ_self _)
  rw [hhead, hlength]
  exact hredex

private theorem isRedex_app_right : rules.IsRedex (app f x) ↔ rules.IsRedex (app f y) := by
  simp [IsRedex]

private theorem leftmost_steps_left (h : ReflTransGen rules.Leftmost f g)
    (hg : ¬ rules.IsRedex (app g x)) :
    ReflTransGen rules.Leftmost (app f x) (app g x) ∧ ¬ rules.IsRedex (app f x) := by
  induction h using ReflTransGen.head_induction_on with
  | refl => exact ⟨.refl, hg⟩
  | head hstep _ ih =>
      have hredex := fun hr => ih.2 (isRedex_app_step (step_of_leftmost hstep) hr)
      exact ⟨.head (leftmost_left hredex hstep) ih.1, hredex⟩

private theorem leftmost_steps_right (h : ReflTransGen rules.Leftmost x y)
    (hf : rules.leftmost f = none) (hredex : ¬ rules.IsRedex (app f y)) :
    ReflTransGen rules.Leftmost (app f x) (app f y) := by
  induction h using ReflTransGen.head_induction_on with
  | refl => exact .refl
  | head hstep _ ih =>
      exact .head (leftmost_right (fun hr => hredex (isRedex_app_right.mp hr)) hf hstep) ih

/-- A standard reduction to a normal form is one of the strategy. -/
theorem Standard.leftmost (h : rules.Standard t u) (hu : rules.Normal u) :
    ReflTransGen rules.Leftmost t u := by
  induction h with
  | atom h => exact leftmost_of_heads h
  | @app t f g x y h hf hx ihf ihx =>
      have hg : rules.Normal g := fun v hv => hu _ (.left y hv)
      have hy : rules.Normal y := fun v hv => hu _ (.right g hv)
      have hredex : ¬ rules.IsRedex (.app g y) := fun hr => hu _ (.root hr)
      have hhead : ReflTransGen rules.Leftmost t (.app f x) :=
        leftmost_of_heads h
      have hleft : ReflTransGen rules.Leftmost (.app f x) (.app g x) :=
        (leftmost_steps_left (ihf hg) fun hr => hredex (isRedex_app_right.mp hr)).1
      exact hhead.trans (hleft.trans (leftmost_steps_right (ihx hy) hg.leftmost_eq hredex))

/-- The strategy reaches every normal form that any reduction reaches. -/
theorem leftmost_normalizes (h : ReflTransGen rules.Step t u) (hu : rules.Normal u) :
    ReflTransGen rules.Leftmost t u :=
  (standard_of_steps h).leftmost hu

end Rules

end Mimuw.Lib
