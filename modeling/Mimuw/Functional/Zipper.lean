import Mathlib.Logic.Function.Basic
import Mimuw.Lib.Applicative

/-!
# The zipper evaluator

Programs of equations with nested constructor patterns, and the evaluator that moves
a focus through the expression.  A computation reads the definitions and keeps a
state; as it may run for ever or fail, it is given fuel.
-/

namespace Mimuw.Functional.Zipper

open Mimuw.Lib

abbrev Name := String

/-! ## Types -/

inductive Atom where
  | var (name : Name)
  | con (name : Name)
  deriving DecidableEq, Repr

def Atom.name : Atom → Name
  | var name => name
  | con name => name

/-- `Var` and `Con` are the atoms, and application is `:$`. -/
abbrev Expr := ApTerm Atom

inductive Pat where
  | pvar (name : Name)
  | papp (name : Name) (pats : List Pat)

structure Match where
  matchName : Name
  matchPats : List Pat
  matchRhs : Expr

structure Def where
  defMatches : List Match

/-- `Map.lookup` -/
abbrev DefMap := Name → Option Def

abbrev MatchEnv := Name → Option Expr

inductive Context where
  | top
  | appLeft (ctx : Context) (expr : Expr)
  | appRight (expr : Expr) (ctx : Context)
  deriving DecidableEq

structure Focus where
  expr : Expr
  context : Context
  deriving DecidableEq

/-- `getName` fails on a definition without equations. -/
def getName (d : Def) : Option Name := d.defMatches.head?.map Match.matchName

def combineDefs (d₁ d₂ : Def) : Def := ⟨d₂.defMatches ++ d₁.defMatches⟩

/-- `Map.fromListWith`: the value of a later pair comes first in the combination. -/
def buildDefMap (prog : List Def) : Option DefMap :=
  prog.foldlM (fun defMap d =>
    (getName d).map fun name =>
      Function.update defMap name (some ((defMap name).elim d (combineDefs d))))
    fun _ => none

/-! ## Moves of the focus -/

def goUp : Focus → Option Focus
  | ⟨_, .top⟩ => none
  | ⟨expr, .appLeft ctx expr₂⟩ => some ⟨.app expr expr₂, ctx⟩
  | ⟨expr, .appRight expr₁ ctx⟩ => some ⟨.app expr₁ expr, ctx⟩

def goLeft : Focus → Option Focus
  | ⟨.app e₁ e₂, ctx⟩ => some ⟨e₁, .appLeft ctx e₂⟩
  | _ => none

def goRight : Focus → Option Focus
  | ⟨.app e₁ e₂, ctx⟩ => some ⟨e₂, .appRight e₁ ctx⟩
  | _ => none

/-- The context gets smaller with each `goUp`. -/
def goToTheNextArgFrom : Expr → Context → Option Focus
  | expr, .appLeft ctx expr₂ => some ⟨expr₂, .appRight expr ctx⟩
  | expr, .appRight expr₁ ctx => goToTheNextArgFrom (.app expr₁ expr) ctx
  | _, .top => none

def goToTheNextArg (focus : Focus) : Option Focus := goToTheNextArgFrom focus.expr focus.context

def goToUpperArg : Focus → Option Focus
  | ⟨expr, .appLeft ctx expr₂⟩ => some ⟨.app expr expr₂, ctx⟩
  | _ => none

def changeExpr (expr : Expr) (focus : Focus) : Focus := ⟨expr, focus.context⟩

def goUpNSteps : Focus → Nat → Option Focus
  | focus, 0 => some focus
  | focus, n + 1 => (goUp focus).bind (goUpNSteps · n)

def leftMostHelper : Expr → Context → Nat → Focus × Nat
  | .app e₁ e₂, ctx, n => leftMostHelper e₁ (.appLeft ctx e₂) (n + 1)
  | .atom a, ctx, n => (⟨.atom a, ctx⟩, n)

def leftMostFocusSteps (focus : Focus) : Focus × Nat := leftMostHelper focus.expr focus.context 0

/-! ## Matching -/

def decomposeExprHelper : Expr → List Expr → Name × Expr × List Expr
  | .app e₁ e₂, acc => decomposeExprHelper e₁ (e₂ :: acc)
  | .atom a, acc => (a.name, .atom a, acc)

def decomposeExpr (expr : Expr) : Name × Expr × List Expr := decomposeExprHelper expr []

def countParams (defMap : DefMap) (name : Name) : Option Nat :=
  match defMap name with
  | some ⟨m :: _⟩ => some m.matchPats.length
  | _ => none

def substHelper (env : MatchEnv) : Expr → Expr
  | .atom (.var name) =>
      match env name with
      | some newExpr => newExpr
      | none => .atom (.var name)
  | .atom (.con name) => .atom (.con name)
  | .app e₁ e₂ => .app (substHelper env e₁) (substHelper env e₂)

def subst (env : MatchEnv) (expr : Expr) : Expr := substHelper env expr

mutual

def notMatchable : Pat → Expr → Bool
  | .papp name pats, expr =>
      match decomposeExpr expr with
      | (_, .atom (.con leftExprName), args) =>
          leftExprName ≠ name || args.length ≠ pats.length || anyNotMatchable pats args
      | _ => false
  | .pvar _, _ => false

/-- `or (zipWith notMatchable pats args)` -/
def anyNotMatchable : List Pat → List Expr → Bool
  | p :: ps, e :: es => notMatchable p e || anyNotMatchable ps es
  | _, _ => false

end

mutual

/-- `match`; a name in a pattern stands for a variable or a constructor. -/
def matchPat : Pat → Expr → MatchEnv → Bool × MatchEnv
  | .pvar x, expr, env => (true, Function.update env x (some expr))
  | .papp name pats, expr, env =>
      match decomposeExpr expr with
      | (_, .atom a, args) =>
          if a.name = name ∧ args.length = pats.length then matchAll pats args env
          else (false, env)
      | _ => (false, env)

/-- `and <$> zipWithM match pats args` -/
def matchAll : List Pat → List Expr → MatchEnv → Bool × MatchEnv
  | p :: ps, e :: es, env =>
      let (fits, env) := matchPat p e env
      let (rest, env) := matchAll ps es env
      (fits && rest, env)
  | _, _, env => (true, env)

end

/-- `Map.union` -/
def union (env₁ env₂ : MatchEnv) : MatchEnv := fun name => (env₁ name).or (env₂ name)

/-! ## Computations -/

/-- The `matchEnv` of the source's state is never read. -/
structure EvalState where
  /-- the latest first, as in the `SnocList` -/
  history : List Focus
  fuel : Int
  currentFocus : Focus

/-- What a computation did, for reasoning about it only. -/
inductive Event where
  /-- The matcher reduced an argument. -/
  | reduced (arg : Focus) (result : Option Focus)
  /-- The application of that head was contracted with that equation. -/
  | contracted (leftFocus : Focus) (k : Nat)

inductive Outcome (α : Type) where
  | outOfFuel
  /-- `fromJust Nothing` -/
  | error
  | done (a : α) (st : EvalState) (events : List Event)

def Eval (α : Type) : Type := EvalState → Outcome α

namespace Eval

variable {α β : Type}

def outOfFuel : Eval α := fun _ => .outOfFuel

def error : Eval α := fun _ => .error

def note (event : Event) : Eval Unit := fun st => .done () st [event]

def get : Eval EvalState := fun st => .done st st []

def put (st : EvalState) : Eval Unit := fun _ => .done () st []

def pure (a : α) : Eval α := fun st => .done a st []

def bind (m : Eval α) (f : α → Eval β) : Eval β := fun st =>
  match m st with
  | .outOfFuel => .outOfFuel
  | .error => .error
  | .done a st events =>
      match f a st with
      | .outOfFuel => .outOfFuel
      | .error => .error
      | .done b st events' => .done b st (events ++ events')

instance : Monad Eval where
  pure := pure
  bind := bind

end Eval

def addFocus (focus : Focus) : Eval Unit := do
  let st ← Eval.get
  Eval.put { st with currentFocus := focus, history := focus :: st.history }

/-! ## The evaluator -/

mutual

def rstepFocus (defMap : DefMap) : Nat → Focus → Eval (Option Focus)
  | 0, _ => Eval.outOfFuel
  | n + 1, focus =>
      let (leftFocus, steps) := leftMostFocusSteps focus
      let (leftExprName, leftExpr, _) := decomposeExpr leftFocus.expr
      match (countParams defMap leftExprName).filter (· ≤ steps) with
      | some nPats =>
          match defMap leftExprName with
          | some ⟨ms⟩ =>
              if nPats = 0 then reduceWith defMap n ms leftFocus leftFocus nPats
              else
                match goToTheNextArg leftFocus with
                | some nextFocus => reduceWith defMap n ms nextFocus leftFocus nPats
                | none => Eval.error
          | none => reduceArgsFocus defMap n leftFocus
      | none =>
          match defMap leftExprName, leftExpr with
          | some _, .atom (.con _) => reduceArgsFocus defMap n leftFocus
          | some _, _ => reduceUpperFocus defMap n focus leftFocus
          | none, _ => reduceArgsFocus defMap n leftFocus

def reduceWith (defMap : DefMap) :
    Nat → List Match → Focus → Focus → Nat → Eval (Option Focus)
  | 0, _, _, _, _ => Eval.outOfFuel
  | n + 1, ms, f, leftF, nPats => do
      let res ← reduceUntilMatchFocus defMap n ms f
      match res with
      | some (k, e') =>
          match goUpNSteps leftF nPats with
          | some topExpr =>
              let topExpr' := changeExpr e' topExpr
              addFocus topExpr'
              Eval.note (.contracted leftF k)
              return some topExpr'
          | none => Eval.error
      | none => reduceArgsFocus defMap n leftF

def reduceUpperFocus (defMap : DefMap) : Nat → Focus → Focus → Eval (Option Focus)
  | 0, _, _ => Eval.outOfFuel
  | n + 1, focus, leftFocus =>
      match goToUpperArg focus with
      | some upperFocus => do
          addFocus upperFocus
          rstepFocus defMap n upperFocus
      | none => reduceArgsFocus defMap n leftFocus

def reduceArgsFocus (defMap : DefMap) : Nat → Focus → Eval (Option Focus)
  | 0, _ => Eval.outOfFuel
  | n + 1, focus =>
      match goToTheNextArg focus with
      | some nextFocus => do
          addFocus nextFocus
          rstepFocus defMap n nextFocus
      | none => return none

/-- The number of the equation is returned with its instance. -/
def reduceUntilMatchFocus (defMap : DefMap) :
    Nat → List Match → Focus → Eval (Option (Nat × Expr))
  | 0, _, _ => Eval.outOfFuel
  | _ + 1, [], _ => return none
  | n + 1, m :: ms, focus => do
      let oldState ← Eval.get
      let subEnv ← matchWithReductionFocus defMap n m.matchPats focus
      match subEnv with
      | some env => return some (0, subst env m.matchRhs)
      | none => do
          Eval.put oldState
          let res ← reduceUntilMatchFocus defMap n ms focus
          return res.map fun (k, e) => (k + 1, e)

def matchWithReductionFocus (defMap : DefMap) :
    Nat → List Pat → Focus → Eval (Option MatchEnv)
  | 0, _, _ => Eval.outOfFuel
  | _ + 1, [], _ => return some fun _ => none
  | n + 1, p :: ps, focus =>
      if notMatchable p focus.expr then return none
      else
        match matchPat p focus.expr (fun _ => none) with
        | (true, env₁) =>
            match ps with
            | [] => return some env₁
            | ps =>
                match goToTheNextArg focus with
                | some nextFocus => do
                    let envRest ← matchWithReductionFocus defMap n ps nextFocus
                    return envRest.map (union env₁)
                | none => return none
        | (false, _) => do
            let rFocus ← rstepFocus defMap n focus
            Eval.note (.reduced focus rFocus)
            match rFocus with
            | some rFocus' => matchWithReductionFocus defMap n (p :: ps) rFocus'
            | none => return none

end

end Mimuw.Functional.Zipper
