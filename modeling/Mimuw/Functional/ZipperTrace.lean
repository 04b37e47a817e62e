import Mimuw.Functional.ZipperFuel

/-!
# Runs with their histories

The evaluator of `Zipper` once more, as computations that leave the histories behind
that there were on the way.  They are seen also when the run fails or does not end, and
when the matcher goes back to an older state.
-/

namespace Mimuw.Functional.Zipper

/-- The histories after each call of `addFocus`, the first one first. -/
abbrev Log := List (List Focus)

/-- A computation with its log. -/
def Traced (α : Type) : Type := EvalState → Log × Outcome α

namespace Traced

variable {α β : Type}

def lift (m : Eval α) : Traced α := fun st => ([], m st)

def bind (m : Traced α) (f : α → Traced β) : Traced β := fun st =>
  match m st with
  | (log, .outOfFuel) => (log, .outOfFuel)
  | (log, .error) => (log, .error)
  | (log, .done a st events) =>
      match f a st with
      | (log', .outOfFuel) => (log ++ log', .outOfFuel)
      | (log', .error) => (log ++ log', .error)
      | (log', .done b st events') => (log ++ log', .done b st (events ++ events'))

instance : Monad Traced where
  pure a := lift (pure a)
  bind := bind

def addFocus (focus : Focus) : Traced Unit := fun st =>
  ([focus :: st.history], Zipper.addFocus focus st)

/-! ## The evaluator -/

mutual

def rstepFocus (defMap : DefMap) : Nat → Focus → Traced (Option Focus)
  | 0, _ => lift Eval.outOfFuel
  | n + 1, focus =>
      let (leftFocus, steps) := leftMostFocusSteps focus
      let (leftExprName, leftExpr, _) := decomposeExpr leftFocus.expr
      match (countParams defMap leftExprName).filter (· ≤ steps) with
      | some nPats =>
          match defMap leftExprName with
          | some ⟨ms⟩ =>
              if nPats = 0 then reduceWith defMap n ms leftFocus leftFocus nPats
              else
                match goToTheNextArg leftFocus with
                | some nextFocus => reduceWith defMap n ms nextFocus leftFocus nPats
                | none => lift Eval.error
          | none => reduceArgsFocus defMap n leftFocus
      | none =>
          match defMap leftExprName, leftExpr with
          | some _, .atom (.con _) => reduceArgsFocus defMap n leftFocus
          | some _, _ => reduceUpperFocus defMap n focus leftFocus
          | none, _ => reduceArgsFocus defMap n leftFocus

def reduceWith (defMap : DefMap) :
    Nat → List Match → Focus → Focus → Nat → Traced (Option Focus)
  | 0, _, _, _, _ => lift Eval.outOfFuel
  | n + 1, ms, f, leftF, nPats => do
      let res ← reduceUntilMatchFocus defMap n ms f
      match res with
      | some (k, e') =>
          match goUpNSteps leftF nPats with
          | some topExpr =>
              let topExpr' := changeExpr e' topExpr
              addFocus topExpr'
              lift (Eval.note (.contracted leftF k))
              return some topExpr'
          | none => lift Eval.error
      | none => reduceArgsFocus defMap n leftF

def reduceUpperFocus (defMap : DefMap) : Nat → Focus → Focus → Traced (Option Focus)
  | 0, _, _ => lift Eval.outOfFuel
  | n + 1, focus, leftFocus =>
      match goToUpperArg focus with
      | some upperFocus => do
          addFocus upperFocus
          rstepFocus defMap n upperFocus
      | none => reduceArgsFocus defMap n leftFocus

def reduceArgsFocus (defMap : DefMap) : Nat → Focus → Traced (Option Focus)
  | 0, _ => lift Eval.outOfFuel
  | n + 1, focus =>
      match goToTheNextArg focus with
      | some nextFocus => do
          addFocus nextFocus
          rstepFocus defMap n nextFocus
      | none => return none

def reduceUntilMatchFocus (defMap : DefMap) :
    Nat → List Match → Focus → Traced (Option (Nat × Expr))
  | 0, _, _ => lift Eval.outOfFuel
  | _ + 1, [], _ => return none
  | n + 1, m :: ms, focus => do
      let oldState ← lift Eval.get
      let subEnv ← matchWithReductionFocus defMap n m.matchPats focus
      match subEnv with
      | some env => return some (0, subst env m.matchRhs)
      | none => do
          lift (Eval.put oldState)
          let res ← reduceUntilMatchFocus defMap n ms focus
          return res.map fun (k, e) => (k + 1, e)

def matchWithReductionFocus (defMap : DefMap) :
    Nat → List Pat → Focus → Traced (Option MatchEnv)
  | 0, _, _ => lift Eval.outOfFuel
  | _ + 1, [], _ => return some fun _ => none
  | n + 1, p :: ps, focus =>
      if notMatchable p focus.expr then return none
      else
        match matchPat p focus.expr (fun _ => none) with
        | (true, env₁) =>
            match ps with
            | [] => return some env₁
            | ps =>
                match goToTheNextArg focus with
                | some nextFocus => do
                    let envRest ← matchWithReductionFocus defMap n ps nextFocus
                    return envRest.map (union env₁)
                | none => return none
        | (false, _) => do
            let rFocus ← rstepFocus defMap n focus
            lift (Eval.note (.reduced focus rFocus))
            match rFocus with
            | some rFocus' => matchWithReductionFocus defMap n (p :: ps) rFocus'
            | none => return none

end

def rpath (defMap : DefMap) : Nat → Traced Unit
  | 0 => lift Eval.outOfFuel
  | n + 1 => do
      let st ← lift Eval.get
      if st.fuel ≤ 0 then return ()
      else
        let nextFocus ← rstepFocus defMap n st.currentFocus
        match nextFocus with
        | some _ => do
            let s ← lift Eval.get
            lift (Eval.put { s with fuel := s.fuel - 1 })
            rpath defMap n
        | none => return ()

end Traced

def histories (defMap : DefMap) (n : Nat) (st : EvalState) : Log :=
  st.history :: (Traced.rpath defMap n st).1

end Mimuw.Functional.Zipper
