import Mathlib.Tactic
import Mimuw.Lib.Applicative
import Mimuw.Lib.Runs

/-!
# The definition unfolding reducer

A definition unfolds where its name has exactly as many arguments as parameters.
The reducer looks for the leftmost outermost such place by counting arguments
along the left spine, so `rpath` ends in the normal form whenever there is one.
-/

namespace Mimuw.Functional.Unfolding

open Mimuw.Lib Relation

abbrev Name := String

/-- Variables are the atoms, and application is `:$`. -/
abbrev Expr := ApTerm Name

structure Def where
  name : Name
  params : List Name
  body : Expr

/-- `Map.lookup` -/
abbrev DefMap := Name → Option Def

def decomposeExprHelper : Expr → List Expr → Name × List Expr
  | .app e₁ e₂, acc => decomposeExprHelper e₁ (e₂ :: acc)
  | .atom name, acc => (name, acc)

def decomposeExpr (expr : Expr) : Name × List Expr := decomposeExprHelper expr []

def countParams (defMap : DefMap) (name : Name) : Option Nat :=
  match defMap name with
  | some d => some d.params.length
  | none => none

/-- `Map.fromList`: a later pair replaces an earlier one with its key. -/
def fromList (pairs : List (Name × Expr)) : Name → Option Expr :=
  pairs.foldl (fun m pair => fun name => if name = pair.1 then some pair.2 else m name)
    fun _ => none

def substAllHelper (paramsMap : Name → Option Expr) : Expr → Expr
  | .atom name =>
      match paramsMap name with
      | some newExpr => newExpr
      | none => .atom name
  | .app e₁ e₂ => .app (substAllHelper paramsMap e₁) (substAllHelper paramsMap e₂)

def substAll (paramsMapList : List (Name × Expr)) (expr : Expr) : Expr :=
  substAllHelper (fromList paramsMapList) expr

def rstep (defMap : DefMap) (expr : Expr) : Option Expr :=
  if countParams defMap (decomposeExpr expr).1 = some (decomposeExpr expr).2.length then
    match defMap (decomposeExpr expr).1 with
    | some d => some (substAll (d.params.zip (decomposeExpr expr).2) d.body)
    | none => none
  else
    match expr with
    | .app e₁ e₂ =>
        match rstep defMap e₁ with
        | some e₁' => some (.app e₁' e₂)
        | none =>
            match rstep defMap e₂ with
            | some e₂' => some (.app e₁ e₂')
            | none => none
    | .atom name =>
        match defMap name with
        | some ⟨_, [], body⟩ => some body
        | _ => none

/-- The list of the source, which may be infinite, as far as the fuel goes. -/
def rpath (defMap : DefMap) (fuel : Nat) (expr : Expr) : Option (List Expr) :=
  trace (rstep defMap) fuel expr

/-! ## Unfolding anywhere -/

/-- The argument of the parameter with that name. -/
def argumentOf (params : List Name) (args : List Expr) (name : Name) : Option Expr :=
  args[params.idxOf name]?

inductive Unfolds (defMap : DefMap) : Expr → Expr → Prop where
  | root (f : Name) (args : List Expr) (d : Def) (hdef : defMap f = some d)
      (hcount : args.length = d.params.length) :
      Unfolds defMap (ApTerm.apply f args) (substAllHelper (argumentOf d.params args) d.body)
  | left {e₁ e₁' : Expr} (e₂ : Expr) (h : Unfolds defMap e₁ e₁') :
      Unfolds defMap (.app e₁ e₂) (.app e₁' e₂)
  | right (e₁ : Expr) {e₂ e₂' : Expr} (h : Unfolds defMap e₂ e₂') :
      Unfolds defMap (.app e₁ e₂) (.app e₁ e₂')

/-! ## The rules -/

theorem decomposeExprHelper_eq (e : Expr) (acc : List Expr) :
    decomposeExprHelper e acc = (e.head, e.args ++ acc) := by
  induction e generalizing acc with
  | atom name => rfl
  | app e₁ e₂ ih _ =>
      rw [decomposeExprHelper, ih]
      simp

theorem decomposeExpr_eq (e : Expr) : decomposeExpr e = (e.head, e.args) := by
  rw [decomposeExpr, decomposeExprHelper_eq, List.append_nil]

section Substitution

variable {R : Expr → Expr → Prop}

private theorem fromList_related (params : List Name) {args args' : List Expr}
    (hargs : List.Forall₂ R args args') (name : Name) :
    Option.Rel R (fromList (params.zip args) name) (fromList (params.zip args') name) := by
  have hfold : ∀ (m m' : Name → Option Expr), (∀ name, Option.Rel R (m name) (m' name)) →
      ∀ name, Option.Rel R
        ((params.zip args).foldl
          (fun m pair => fun name => if name = pair.1 then some pair.2 else m name) m name)
        ((params.zip args').foldl
          (fun m pair => fun name => if name = pair.1 then some pair.2 else m name) m' name) := by
    induction hargs generalizing params with
    | nil =>
        intro m m' hm
        simpa using hm
    | cons harg _ ih =>
        intro m m' hm
        cases params with
        | nil => simpa using hm
        | cons param params =>
            refine ih params _ _ fun name => ?_
            dsimp only
            split_ifs
            · exact .some harg
            · exact hm name
  exact hfold _ _ (fun _ => .none) name

private theorem substAllHelper_related (hR : Congruence R) {m m' : Name → Option Expr}
    (hm : ∀ name, Option.Rel R (m name) (m' name)) (body : Expr) :
    R (substAllHelper m body) (substAllHelper m' body) := by
  induction body with
  | atom name =>
      have harg := hm name
      rw [substAllHelper, substAllHelper]
      generalize m name = arg, m' name = arg' at harg
      cases harg with
      | some h => exact h
      | none => exact hR.atom name
  | app e₁ e₂ ih₁ ih₂ => exact hR.app _ _ _ _ ih₁ ih₂

private theorem fromList_zip {params : List Name} {args : List Expr} (hdistinct : params.Nodup)
    (hlength : args.length = params.length) :
    fromList (params.zip args) = argumentOf params args := by
  have hfold : ∀ (m : Name → Option Expr) (name : Name),
      (params.zip args).foldl
        (fun m pair => fun name => if name = pair.1 then some pair.2 else m name) m name =
          (argumentOf params args name).or (m name) := by
    induction params generalizing args with
    | nil =>
        intro m name
        obtain rfl : args = [] := List.length_eq_zero_iff.mp hlength
        rfl
    | cons param params ih =>
        intro m name
        obtain ⟨arg, args, rfl⟩ := List.exists_cons_of_length_eq_add_one hlength
        obtain ⟨hnew, hrest⟩ := List.nodup_cons.mp hdistinct
        have hlength' : args.length = params.length := by simpa using hlength
        rw [List.zip_cons_cons, List.foldl_cons, ih hrest hlength']
        by_cases hname : name = param
        · subst hname
          simp [argumentOf, List.idxOf_eq_length hnew, ← hlength']
        · simp [argumentOf, List.idxOf_cons_ne _ (Ne.symm hname), hname]
  funext name
  rw [fromList, hfold]
  simp

end Substitution

section Reducer

variable (defMap : DefMap)

def contract (name : Name) (args : List Expr) : Expr :=
  match defMap name with
  | some d => substAll (d.params.zip args) d.body
  | none => .atom name

def rules : Rules Name where
  arity := countParams defMap
  contract := contract defMap
  parametric R hR name args args' harity hargs := by
    simp only [countParams] at harity
    cases hdef : defMap name with
    | none => simp [hdef] at harity
    | some d =>
        simp only [contract, hdef]
        exact substAllHelper_related hR (fromList_related d.params hargs) d.body

variable {defMap}

theorem rstep_eq_leftmost (e : Expr) : rstep defMap e = (rules defMap).leftmost e := by
  have hroot (e : Expr) (hredex : (rules defMap).IsRedex e) :
      rstep defMap e = some ((rules defMap).reduct e) := by
    have hcount : countParams defMap e.head = some e.args.length := hredex
    rw [rstep.eq_def, decomposeExpr_eq, if_pos hcount, Rules.reduct]
    simp only [rules, contract]
    cases hdef : defMap e.head with
    | none => simp [countParams, hdef] at hcount
    | some d => rfl
  induction e with
  | atom name =>
      by_cases hredex : (rules defMap).IsRedex (.atom name)
      · rw [hroot _ hredex, Rules.leftmost_of_redex hredex]
      · have hcount : ¬ countParams defMap name = some 0 := hredex
        rw [Rules.leftmost, if_neg hredex, rstep, decomposeExpr_eq]
        refine (if_neg hcount).trans ?_
        cases hdef : defMap name with
        | none => rfl
        | some d =>
            obtain ⟨_, params, body⟩ := d
            cases params with
            | nil => simp [countParams, hdef] at hcount
            | cons param params => rfl
  | app f x ihf ihx =>
      by_cases hredex : (rules defMap).IsRedex (.app f x)
      · rw [hroot _ hredex, Rules.leftmost_of_redex hredex]
      · have hcount : ¬ countParams defMap (ApTerm.app f x).head =
            some (ApTerm.app f x).args.length := hredex
        rw [Rules.leftmost, if_neg hredex, rstep, decomposeExpr_eq, if_neg hcount, ihf, ihx]
        cases (rules defMap).leftmost f with
        | some g => rfl
        | none => cases (rules defMap).leftmost x <;> rfl

private theorem unfolds_iff_step (hdistinct : ∀ name d, defMap name = some d → d.params.Nodup)
    {e e' : Expr} : Unfolds defMap e e' ↔ (rules defMap).Step e e' := by
  have hreduct (f : Name) (args : List Expr) (d : Def) (hdef : defMap f = some d)
      (hcount : args.length = d.params.length) :
      (rules defMap).reduct (ApTerm.apply f args) =
        substAllHelper (argumentOf d.params args) d.body := by
    simp only [Rules.reduct, rules, contract, ApTerm.head_apply, ApTerm.args_apply, hdef, substAll,
      fromList_zip (hdistinct f d hdef) hcount]
  constructor
  · intro h
    induction h with
    | root f args d hdef hcount =>
        have hredex : (rules defMap).IsRedex (ApTerm.apply f args) := by
          simp [Rules.IsRedex, rules, countParams, hdef, hcount]
        rw [← hreduct f args d hdef hcount]
        exact .root hredex
    | left e₂ _ ih => exact .left e₂ ih
    | right e₁ _ ih => exact .right e₁ ih
  · intro h
    induction h with
    | @root t hredex =>
        have hcount : countParams defMap t.head = some t.args.length := hredex
        simp only [countParams] at hcount
        cases hdef : defMap t.head with
        | none => simp [hdef] at hcount
        | some d =>
            simp only [hdef, Option.some.injEq] at hcount
            rw [← ApTerm.apply_head_args t, hreduct _ _ d hdef hcount.symm]
            exact .root _ _ d hdef hcount.symm
    | left x _ ih => exact .left x ih
    | right f _ ih => exact .right f ih

end Reducer

/-- Whenever some unfoldings lead to an expression with nothing to unfold, the
path of the reducer is finite and ends in it. -/
theorem unfolding_normalizes (defMap : DefMap)
    (hdistinct : ∀ name d, defMap name = some d → d.params.Nodup) (e n : Expr)
    (h : ReflTransGen (Unfolds defMap) e n) (hn : ∀ e', ¬ Unfolds defMap n e') :
    ∃ fuel path, rpath defMap fuel e = some path ∧ path.getLast? = some n := by
  have hnormal : (rules defMap).Normal n :=
    fun u hu => hn u ((unfolds_iff_step hdistinct).mpr hu)
  have hsteps : ReflTransGen (rules defMap).Step e n :=
    h.lift id fun _ _ => (unfolds_iff_step hdistinct).mp
  have hleftmost : ReflTransGen (fun a b => rstep defMap a = some b) e n :=
    (Rules.leftmost_normalizes hsteps hnormal).lift id fun a b hab =>
      (rstep_eq_leftmost a).trans hab
  exact trace_of_steps hleftmost (by rw [rstep_eq_leftmost, hnormal.leftmost_eq])

/-- `const x y = x` -/
def constDef : DefMap := fun name =>
  if name = "const" then some ⟨"const", ["x", "y"], .atom "x"⟩ else none

theorem unfolding_normalizes_const :
    ∃ fuel path, rpath constDef fuel
        (.app (.app (.atom "const") (.atom "a")) (.atom "b")) = some path ∧
      path.getLast? = some (.atom "a") := by
  refine unfolding_normalizes constDef ?_ _ (.atom "a") (.single ?_) ?_
  · intro name d hdef
    simp only [constDef] at hdef
    split_ifs at hdef
    cases hdef
    decide
  · exact .root "const" [.atom "a", .atom "b"] ⟨"const", ["x", "y"], .atom "x"⟩ rfl rfl
  · generalize hn : ApTerm.atom "a" = n
    intro e' h
    cases h with
    | root f args d hdef hcount =>
        obtain rfl : "a" = f := by simpa using congrArg ApTerm.head hn
        simp [constDef] at hdef
    | left e₂ h => cases hn
    | right e₁ h => cases hn

end Mimuw.Functional.Unfolding
