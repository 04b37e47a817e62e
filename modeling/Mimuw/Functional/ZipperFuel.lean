import Mathlib.Tactic.IntervalCases
import Mimuw.Functional.ZipperSteps

/-!
# The fuel of the zipper evaluator

The loop of `rpath` pays for a contraction after each call of `rstepFocus` that ends
with one.  The calls that the matcher makes are not paid for.
-/

namespace Mimuw.Functional.Zipper

open Mimuw.Lib Relation

/-! ## The loop -/

/-- The first argument bounds the depth of the calls; the fuel of the source is in the state. -/
def rpath (defMap : DefMap) : Nat → Eval Unit
  | 0 => Eval.outOfFuel
  | n + 1 => do
      let st ← Eval.get
      if st.fuel ≤ 0 then return ()
      else
        let nextFocus ← rstepFocus defMap n st.currentFocus
        match nextFocus with
        | some _ => do
            let s ← Eval.get
            Eval.put { s with fuel := s.fuel - 1 }
            rpath defMap n
        | none => return ()

/-- `initEvalState` with any fuel -/
def initState (expr : Expr) (maxFuel : Int) : EvalState :=
  let focus : Focus := ⟨expr, .top⟩
  ⟨[focus], maxFuel, focus⟩

/-! ## What is paid for -/

def Event.isContraction : Event → Bool
  | .contracted _ _ => true
  | .reduced _ _ => false

/-- A reduction of an argument that the matcher goes on with. -/
def Event.isReduction : Event → Bool
  | .contracted _ _ => false
  | .reduced _ result => result.isSome

def contractions (events : List Event) : Nat := events.countP Event.isContraction

def argReductions (events : List Event) : Nat := events.countP Event.isReduction

/-- The contractions that are not the end of a reduction of an argument. -/
def unmatched (events : List Event) : Int := contractions events - argReductions events

@[simp]
theorem unmatched_nil : unmatched [] = 0 := rfl

@[simp]
theorem unmatched_append (events events' : List Event) :
    unmatched (events ++ events') = unmatched events + unmatched events' := by
  simp only [unmatched, contractions, argReductions, List.countP_append]
  omega

def payment (result : Option Focus) : Int := if result.isSome then 1 else 0

@[simp]
theorem unmatched_contracted (leftFocus : Focus) (k : Nat) :
    unmatched [.contracted leftFocus k] = 1 := rfl

@[simp]
theorem unmatched_reduced (arg : Focus) (result : Option Focus) :
    unmatched [.reduced arg result] = - payment result := by
  cases result with
  | none => rfl
  | some focus => rfl

/-! ## Rules -/

section Rules

variable {α β : Type} {f : Int}

private theorem bind_outOfFuel {m : Eval α} {g : α → Eval β} {st : EvalState}
    (h : m st = .outOfFuel) : (m >>= g) st = .outOfFuel := by
  change Eval.bind m g st = _
  rw [Eval.bind, h]

private theorem bind_done_outOfFuel {m : Eval α} {g : α → Eval β} {st st₁ : EvalState} {a : α}
    {events : List Event} (h : m st = .done a st₁ events) (h' : g a st₁ = .outOfFuel) :
    (m >>= g) st = .outOfFuel := by
  change Eval.bind m g st = _
  simp only [Eval.bind, h, h']

/-- From a state with that fuel the first computation runs out of the fuel of the model,
or the second one does the same, and it keeps the fuel of the source; its value and the
contractions not made for the matcher are so related. -/
def Pays (f : Int) (m m' : Eval α) (Q : α → Int → Prop) : Prop :=
  ∀ st, st.fuel = f → m st = .outOfFuel ∨ m' st = m st ∧
    ∀ a st' events, m st = .done a st' events → st'.fuel = f ∧ Q a (unmatched events)

theorem Pays.outOfFuel {m' : Eval α} {Q : α → Int → Prop} : Pays f Eval.outOfFuel m' Q :=
  fun _ _ => .inl rfl

theorem Pays.error {Q : α → Int → Prop} : Pays f Eval.error Eval.error Q := by
  refine fun st _ => .inr ⟨rfl, fun a st' events hdone => ?_⟩
  cases hdone

theorem Pays.pure {a : α} {Q : α → Int → Prop} (h : Q a 0) :
    Pays f (Pure.pure a) (Pure.pure a) Q := by
  refine fun st hfuel => .inr ⟨rfl, fun b st' events hdone => ?_⟩
  obtain ⟨rfl, rfl, rfl⟩ := pure_eq_done.mp hdone
  exact ⟨hfuel, h⟩

theorem Pays.bind {m m' : Eval α} {g g' : α → Eval β} {P : α → Int → Prop} {Q : β → Int → Prop}
    (hm : Pays f m m' P) (hg : ∀ a k, P a k → Pays f (g a) (g' a) fun b l => Q b (k + l)) :
    Pays f (m >>= g) (m' >>= g') Q := by
  intro st hfuel
  rcases hm st hfuel with hout | ⟨hsame, hfirst⟩
  · exact .inl (bind_outOfFuel hout)
  · cases hend : m st with
    | outOfFuel => exact .inl (bind_outOfFuel hend)
    | error =>
        right
        change Eval.bind m' g' st = Eval.bind m g st ∧ ∀ a st' events,
          Eval.bind m g st = .done a st' events → _
        simp [Eval.bind, hsame, hend]
    | done a st₁ events₁ =>
        obtain ⟨hfuel₁, ha⟩ := hfirst a st₁ events₁ hend
        rcases hg a _ ha st₁ hfuel₁ with hout | ⟨hsame', hthen⟩
        · exact .inl (bind_done_outOfFuel hend hout)
        · refine .inr ⟨?_, fun b st' events hdone => ?_⟩
          · change Eval.bind m' g' st = Eval.bind m g st
            simp only [Eval.bind, hsame, hend, hsame']
          · obtain ⟨a', st₂, events₂, events₃, hone, htwo, rfl⟩ := bind_eq_done.mp hdone
            obtain ⟨rfl, rfl, rfl⟩ := Outcome.done.inj (hend.symm.trans hone)
            rw [unmatched_append]
            exact hthen b st' events₃ htwo

theorem Pays.get : Pays f Eval.get Eval.get fun st k => st.fuel = f ∧ k = 0 := by
  refine fun st hfuel => .inr ⟨rfl, fun a st' events hdone => ?_⟩
  obtain ⟨rfl, rfl, rfl⟩ := get_eq_done.mp hdone
  exact ⟨hfuel, hfuel, rfl⟩

theorem Pays.put {st : EvalState} (h : st.fuel = f) :
    Pays f (Eval.put st) (Eval.put st) fun _ k => k = 0 := by
  refine fun st₀ _ => .inr ⟨rfl, fun a st' events hdone => ?_⟩
  obtain ⟨rfl, rfl⟩ := put_eq_done.mp hdone
  exact ⟨h, rfl⟩

theorem Pays.note {event : Event} :
    Pays f (Eval.note event) (Eval.note event) fun _ k => k = unmatched [event] := by
  refine fun st hfuel => .inr ⟨rfl, fun a st' events hdone => ?_⟩
  obtain ⟨rfl, rfl⟩ := note_eq_done.mp hdone
  exact ⟨hfuel, rfl⟩

theorem Pays.addFocus {focus : Focus} :
    Pays f (addFocus focus) (Zipper.addFocus focus) fun _ k => k = 0 := by
  refine fun st hfuel => .inr ⟨rfl, fun a st' events hdone => ?_⟩
  obtain ⟨rfl, rfl⟩ := addFocus_eq_done.mp hdone
  exact ⟨hfuel, rfl⟩

theorem Pays.mono {m m' : Eval α} {P Q : α → Int → Prop} (h : Pays f m m' P)
    (hPQ : ∀ a k, P a k → Q a k) : Pays f m m' Q := by
  intro st hfuel
  refine (h st hfuel).imp_right fun hsame => ⟨hsame.1, fun a st' events hdone => ?_⟩
  obtain ⟨hkept, ha⟩ := hsame.2 a st' events hdone
  exact ⟨hkept, hPQ _ _ ha⟩

end Rules

/-! ## The calls -/

/-- The calls with that fuel of the model, and with one unit more. -/
structure CallsPay (defMap : DefMap) (f : Int) (n : Nat) : Prop where
  step : ∀ focus, Pays f (rstepFocus defMap n focus) (rstepFocus defMap (n + 1) focus)
    fun r k => k = payment r
  reduceWith : ∀ ms first leftF nPats, Pays f (reduceWith defMap n ms first leftF nPats)
    (reduceWith defMap (n + 1) ms first leftF nPats) fun r k => k = payment r
  upper : ∀ focus leftFocus, Pays f (reduceUpperFocus defMap n focus leftFocus)
    (reduceUpperFocus defMap (n + 1) focus leftFocus) fun r k => k = payment r
  args : ∀ focus, Pays f (reduceArgsFocus defMap n focus) (reduceArgsFocus defMap (n + 1) focus)
    fun r k => k = payment r
  untilMatch : ∀ ms focus, Pays f (reduceUntilMatchFocus defMap n ms focus)
    (reduceUntilMatchFocus defMap (n + 1) ms focus) fun _ k => k = 0
  matching : ∀ pats focus, Pays f (matchWithReductionFocus defMap n pats focus)
    (matchWithReductionFocus defMap (n + 1) pats focus) fun _ k => k = 0

variable {defMap : DefMap} {f : Int} {n : Nat}

namespace CallsPay

theorem move (h : CallsPay defMap f n) (focus : Focus) :
    Pays f (do addFocus focus; rstepFocus defMap n focus)
      (do addFocus focus; rstepFocus defMap (n + 1) focus) fun r k => k = payment r :=
  Pays.addFocus.bind fun _ k hk =>
    (h.step focus).mono fun r l hl => by rw [hk, hl, Int.zero_add]

theorem args_succ (h : CallsPay defMap f n) (focus : Focus) :
    Pays f (reduceArgsFocus defMap (n + 1) focus) (reduceArgsFocus defMap (n + 2) focus)
      fun r k => k = payment r := by
  rw [reduceArgsFocus, reduceArgsFocus]
  cases goToTheNextArg focus with
  | none => exact Pays.pure rfl
  | some nextFocus => exact h.move nextFocus

theorem upper_succ (h : CallsPay defMap f n) (focus leftFocus : Focus) :
    Pays f (reduceUpperFocus defMap (n + 1) focus leftFocus)
      (reduceUpperFocus defMap (n + 2) focus leftFocus) fun r k => k = payment r := by
  rw [reduceUpperFocus, reduceUpperFocus]
  cases goToUpperArg focus with
  | none => exact h.args leftFocus
  | some upperFocus => exact h.move upperFocus

theorem reduceWith_succ (h : CallsPay defMap f n) (ms : List Match) (first leftF : Focus)
    (nPats : Nat) : Pays f (Zipper.reduceWith defMap (n + 1) ms first leftF nPats)
      (Zipper.reduceWith defMap (n + 2) ms first leftF nPats) fun r k => k = payment r := by
  rw [Zipper.reduceWith, Zipper.reduceWith]
  refine (h.untilMatch ms first).bind fun res k hk => ?_
  cases res with
  | none => exact (h.args leftF).mono fun r l hl => by rw [hk, hl, Int.zero_add]
  | some found =>
      obtain ⟨j, e'⟩ := found
      cases goUpNSteps leftF nPats with
      | none => exact Pays.error
      | some topExpr =>
          refine Pays.addFocus.bind fun _ l hl => Pays.note.bind fun _ m hm => Pays.pure ?_
          rw [hk, hl, hm]
          rfl

theorem step_succ (h : CallsPay defMap f n) (focus : Focus) :
    Pays f (rstepFocus defMap (n + 1) focus) (rstepFocus defMap (n + 2) focus)
      fun r k => k = payment r := by
  rw [rstepFocus, rstepFocus, leftMostFocusSteps_eq]
  simp only [leftOf_expr, decomposeExpr_eq, ApTerm.head_atom]
  cases (countParams defMap focus.expr.head.name).filter (· ≤ focus.expr.args.length) with
  | none =>
      cases defMap focus.expr.head.name with
      | none => exact h.args _
      | some d =>
          cases focus.expr.head with
          | con c => exact h.args _
          | var x => exact h.upper _ _
  | some nPats =>
      cases defMap focus.expr.head.name with
      | none => exact h.args _
      | some d =>
          by_cases hzero : nPats = 0
          · simp only [if_pos hzero]
            exact h.reduceWith _ _ _ _
          · simp only [if_neg hzero]
            cases goToTheNextArg (leftOf focus) with
            | none => exact Pays.error
            | some nextFocus => exact h.reduceWith _ _ _ _

theorem untilMatch_succ (h : CallsPay defMap f n) (ms : List Match) (focus : Focus) :
    Pays f (reduceUntilMatchFocus defMap (n + 1) ms focus)
      (reduceUntilMatchFocus defMap (n + 2) ms focus) fun _ k => k = 0 := by
  cases ms with
  | nil => exact Pays.pure rfl
  | cons m ms =>
      rw [reduceUntilMatchFocus, reduceUntilMatchFocus]
      refine Pays.get.bind fun old k hold => (h.matching _ _).bind fun subEnv l hl => ?_
      cases subEnv with
      | some env => exact Pays.pure (by omega)
      | none =>
          refine (Pays.put hold.1).bind fun _ i hi =>
            (h.untilMatch ms focus).bind fun res j hj => Pays.pure ?_
          omega

/-- What a reduced argument costs is taken off by the note of its reduction. -/
theorem matching_succ (h : CallsPay defMap f n) (pats : List Pat) (focus : Focus) :
    Pays f (matchWithReductionFocus defMap (n + 1) pats focus)
      (matchWithReductionFocus defMap (n + 2) pats focus) fun _ k => k = 0 := by
  cases pats with
  | nil => exact Pays.pure rfl
  | cons p ps =>
      rw [matchWithReductionFocus, matchWithReductionFocus]
      split_ifs with hnot
      · exact Pays.pure rfl
      · cases matchPat p focus.expr (fun _ => none) with
        | mk fits env₁ =>
            cases fits with
            | true =>
                cases ps with
                | nil => exact Pays.pure rfl
                | cons p' ps =>
                    cases goToTheNextArg focus with
                    | none => exact Pays.pure rfl
                    | some nextFocus =>
                        exact (h.matching _ nextFocus).bind fun envRest k hk =>
                          Pays.pure (by omega)
            | false =>
                refine (h.step focus).bind fun rFocus k hk => Pays.note.bind fun _ l hl => ?_
                have hpaid : k + l = 0 := by
                  rw [hk, hl, unmatched_reduced]
                  omega
                cases rFocus with
                | none => exact Pays.pure (by omega)
                | some rFocus' => exact (h.matching _ rFocus').mono fun _ i hi => by omega

end CallsPay

private theorem callsPay (defMap : DefMap) (f : Int) (n : Nat) : CallsPay defMap f n := by
  induction n with
  | zero => constructor <;> intros <;> exact Pays.outOfFuel
  | succ n ih =>
      exact ⟨ih.step_succ, ih.reduceWith_succ, ih.upper_succ, ih.args_succ, ih.untilMatch_succ,
        ih.matching_succ⟩

private theorem rstepFocus_pays {focus : Focus} {st st' : EvalState} {r : Option Focus}
    {events : List Event} (h : rstepFocus defMap n focus st = .done r st' events) :
    st'.fuel = st.fuel ∧ unmatched events = payment r := by
  rcases (callsPay defMap st.fuel n).step focus st rfl with hout | ⟨-, hpays⟩
  · rw [hout] at h
    cases h
  · exact hpays r st' events h

/-- More fuel for the model gives the same result. -/
private theorem rstepFocus_more {m : Nat} {focus : Focus} {st st' : EvalState} {r : Option Focus}
    {events : List Event} (h : n ≤ m)
    (hdone : rstepFocus defMap n focus st = .done r st' events) :
    rstepFocus defMap m focus st = .done r st' events := by
  induction h with
  | refl => exact hdone
  | @step m _ ih =>
      rcases (callsPay defMap st.fuel m).step focus st rfl with hout | ⟨hsame, -⟩
      · rw [hout] at ih
        cases ih
      · rw [hsame, ih]

/-! ## Turns of the loop -/

/-- `fuel s - 1` -/
def EvalState.pay (st : EvalState) : EvalState := { st with fuel := st.fuel - 1 }

def Turn (defMap : DefMap) (st st' : EvalState) : Prop :=
  ∃ n focus st₁ events, 0 < st.fuel ∧
    rstepFocus defMap n st.currentFocus st = .done (some focus) st₁ events ∧ st' = st₁.pay

def StepReturns (defMap : DefMap) (st : EvalState) : Prop :=
  ∃ n r st' events, rstepFocus defMap n st.currentFocus st = .done r st' events

variable {st st' : EvalState} {events : List Event}

theorem Turn.fuel (h : Turn defMap st st') : 0 < st.fuel ∧ st'.fuel = st.fuel - 1 := by
  obtain ⟨n, focus, st₁, events, hfuel, hstep, rfl⟩ := h
  refine ⟨hfuel, ?_⟩
  rw [EvalState.pay, (rstepFocus_pays hstep).1]

/-- The loop stops at once, or after a call without a contraction, or goes on with
less fuel. -/
private theorem rpath_cases (h : rpath defMap n st = .done () st' events) :
    st.fuel ≤ 0 ∧ st' = st ∧ events = [] ∨ ∃ m, n = m + 1 ∧ 0 < st.fuel ∧
      (rstepFocus defMap m st.currentFocus st = .done none st' events ∨
        ∃ focus st₁ events₁ events₂,
          rstepFocus defMap m st.currentFocus st = .done (some focus) st₁ events₁ ∧
          rpath defMap m st₁.pay = .done () st' events₂ ∧ events = events₁ ++ events₂) := by
  cases n with
  | zero => cases h
  | succ m =>
      rw [rpath] at h
      obtain ⟨st₀, st₁, ev₁, ev₂, hget, hthen, rfl⟩ := bind_eq_done.mp h
      obtain ⟨rfl, rfl, rfl⟩ := get_eq_done.mp hget
      split_ifs at hthen with hfuel
      · obtain ⟨-, rfl, rfl⟩ := pure_eq_done.mp hthen
        exact .inl ⟨hfuel, rfl, rfl⟩
      · right
        refine ⟨m, rfl, by omega, ?_⟩
        obtain ⟨nextFocus, st₂, ev₃, ev₄, hstep, hgo, rfl⟩ := bind_eq_done.mp hthen
        cases nextFocus with
        | none =>
            obtain ⟨-, rfl, rfl⟩ := pure_eq_done.mp hgo
            left
            simpa using hstep
        | some focus =>
            obtain ⟨s, st₃, ev₅, ev₆, hget', hput, rfl⟩ := bind_eq_done.mp hgo
            obtain ⟨rfl, rfl, rfl⟩ := get_eq_done.mp hget'
            obtain ⟨_, st₄, ev₇, ev₈, hput', hagain, rfl⟩ := bind_eq_done.mp hput
            obtain ⟨rfl, rfl⟩ := put_eq_done.mp hput'
            exact .inr ⟨focus, st₂, ev₃, ev₈, hstep, hagain, by simp⟩

private theorem rpath_stop (h : st.fuel ≤ 0) : rpath defMap (n + 1) st = .done () st [] := by
  rw [rpath]
  refine bind_eq_done.mpr ⟨st, st, [], [], rfl, ?_, rfl⟩
  rw [if_pos h]
  rfl

private theorem rpath_end (hfuel : 0 < st.fuel)
    (hstep : rstepFocus defMap n st.currentFocus st = .done none st' events) :
    rpath defMap (n + 1) st = .done () st' events := by
  rw [rpath]
  refine bind_eq_done.mpr ⟨st, st, [], events, rfl, ?_, rfl⟩
  rw [if_neg (by omega)]
  exact bind_eq_done.mpr ⟨none, st', events, [], hstep, rfl, (List.append_nil events).symm⟩

private theorem rpath_go {st₁ : EvalState} {focus : Focus} {events₁ : List Event}
    (hfuel : 0 < st.fuel)
    (hstep : rstepFocus defMap n st.currentFocus st = .done (some focus) st₁ events₁)
    (hrest : rpath defMap n st₁.pay = .done () st' events) :
    rpath defMap (n + 1) st = .done () st' (events₁ ++ events) := by
  rw [rpath]
  refine bind_eq_done.mpr ⟨st, st, [], events₁ ++ events, rfl, ?_, rfl⟩
  rw [if_neg (by omega)]
  refine bind_eq_done.mpr ⟨some focus, st₁, events₁, events, hstep, ?_, rfl⟩
  refine bind_eq_done.mpr ⟨st₁, st₁, [], events, rfl, ?_, rfl⟩
  exact bind_eq_done.mpr ⟨(), st₁.pay, [], events, rfl, hrest, rfl⟩

private theorem rpath_more {m : Nat} (h : n ≤ m) (hdone : rpath defMap n st = .done () st' events) :
    rpath defMap m st = .done () st' events := by
  induction n generalizing m st events with
  | zero => cases hdone
  | succ n ih =>
      obtain ⟨k, rfl⟩ : ∃ k, m = k + 1 := ⟨m - 1, by omega⟩
      have hle : n ≤ k := Nat.le_of_succ_le_succ h
      rcases rpath_cases hdone with ⟨hzero, rfl, rfl⟩ | ⟨j, hj, hfuel, hend | hgo⟩
      · exact rpath_stop hzero
      · obtain rfl := Nat.succ.inj hj
        exact rpath_end hfuel (rstepFocus_more hle hend)
      · obtain rfl := Nat.succ.inj hj
        obtain ⟨focus, st₁, events₁, events₂, hstep, hrest, rfl⟩ := hgo
        exact rpath_go hfuel (rstepFocus_more hle hstep) (ih hle hrest)

/-! ## Whole runs -/

/-- The fuel spent is what the contractions have cost that were not made for the
matcher. -/
private theorem rpath_pays (h : rpath defMap n st = .done () st' events) :
    unmatched events = st.fuel - st'.fuel ∧ st'.fuel ≤ st.fuel ∧ min st.fuel 0 ≤ st'.fuel := by
  induction n generalizing st events with
  | zero => cases h
  | succ n ih =>
      rcases rpath_cases h with ⟨-, rfl, rfl⟩ | ⟨m, hm, hfuel, hend | hgo⟩
      · rw [unmatched_nil]
        omega
      · obtain ⟨hkept, hcount⟩ := rstepFocus_pays hend
        have hnone : unmatched events = 0 := hcount
        omega
      · obtain rfl := Nat.succ.inj hm
        obtain ⟨focus, st₁, events₁, events₂, hstep, hrest, rfl⟩ := hgo
        obtain ⟨hkept, hcount⟩ := rstepFocus_pays hstep
        obtain ⟨hrestCount, hle, hmin⟩ := ih hrest
        have hpaid : st₁.pay.fuel = st.fuel - 1 := by rw [EvalState.pay, hkept]
        have hone : unmatched events₁ = 1 := hcount
        rw [unmatched_append, hrestCount, hone]
        omega

private theorem rpath_returns (h : ∀ st₁, ReflTransGen (Turn defMap) st st₁ → 0 < st₁.fuel →
      StepReturns defMap st₁) :
    ∃ n st' events, rpath defMap n st = .done () st' events := by
  induction hk : st.fuel.toNat generalizing st with
  | zero => exact ⟨1, st, [], rpath_stop (by omega)⟩
  | succ k ih =>
      have hfuel : 0 < st.fuel := by omega
      obtain ⟨m, r, st₁, events₁, hstep⟩ := h st .refl hfuel
      cases r with
      | none => exact ⟨m + 1, st₁, events₁, rpath_end hfuel hstep⟩
      | some focus =>
          have hturn : Turn defMap st st₁.pay := ⟨m, focus, st₁, events₁, hfuel, hstep, rfl⟩
          have hless : st₁.pay.fuel.toNat = k := by
            have := hturn.fuel
            omega
          obtain ⟨n, st', events, hrest⟩ := ih (fun st₂ hreach => h st₂ (.head hturn hreach)) hless
          exact ⟨max m n + 1, st', events₁ ++ events, rpath_go hfuel
            (rstepFocus_more (Nat.le_max_left m n) hstep)
            (rpath_more (Nat.le_max_right m n) hrest)⟩

private theorem Turn.rpath_returns (hturn : Turn defMap st st')
    (h : ∃ n st₁ events, rpath defMap n st = .done () st₁ events) :
    ∃ n st₁ events, rpath defMap n st' = .done () st₁ events := by
  obtain ⟨n, st₁, events, h⟩ := h
  obtain ⟨m, focus, st₂, events₂, hfuel, hstep, rfl⟩ := hturn
  rcases rpath_cases h with ⟨hzero, -⟩ | ⟨k, -, -, hcases⟩
  · omega
  · have hlarge := rstepFocus_more (Nat.le_max_left m k) hstep
    rcases hcases with hend | ⟨focus', st₃, events₃, events₄, hstep', hrest, -⟩
    · have hsame := hlarge.symm.trans (rstepFocus_more (Nat.le_max_right m k) hend)
      cases hsame
    · have hsame := hlarge.symm.trans (rstepFocus_more (Nat.le_max_right m k) hstep')
      obtain ⟨-, rfl, -⟩ := Outcome.done.inj hsame
      exact ⟨k, st₁, events₄, hrest⟩

private theorem stepReturns_of_rpath {st₁ : EvalState}
    (h : ∃ n st' events, rpath defMap n st = .done () st' events)
    (hreach : ReflTransGen (Turn defMap) st st₁) (hfuel : 0 < st₁.fuel) :
    StepReturns defMap st₁ := by
  induction hreach using ReflTransGen.head_induction_on with
  | refl =>
      obtain ⟨n, st', events, h⟩ := h
      rcases rpath_cases h with ⟨hzero, -⟩ | ⟨m, -, -, hend | hgo⟩
      · omega
      · exact ⟨m, none, st', events, hend⟩
      · obtain ⟨focus, st₂, events₁, events₂, hstep, -⟩ := hgo
        exact ⟨m, some focus, st₂, events₁, hstep⟩
  | head hturn _ ih => exact ih (hturn.rpath_returns h)

/-- A run that returns has made a contraction for each unit of fuel spent and one for
each reduction of an argument that the matcher went on with; and it returns if and
only if each call of the loop does. -/
theorem rpath_spends (defMap : DefMap) (st : EvalState) :
    (∀ n st' events, rpath defMap n st = .done () st' events →
      (contractions events : Int) = argReductions events + (st.fuel - st'.fuel) ∧
        0 ≤ st.fuel - st'.fuel ∧ st.fuel - st'.fuel ≤ max st.fuel 0) ∧
    ((∃ n st' events, rpath defMap n st = .done () st' events) ↔
      ∀ st₁, ReflTransGen (Turn defMap) st st₁ → 0 < st₁.fuel → StepReturns defMap st₁) := by
  refine ⟨fun n st' events h => ?_, fun h st₁ => stepReturns_of_rpath h, rpath_returns⟩
  obtain ⟨hcount, hle, hmin⟩ := rpath_pays h
  rw [unmatched] at hcount
  omega

/-! ## An argument that is reduced for ever -/

/-- `f Z = Z; loop = loop; main = f loop` -/
def spinning : DefMap
  | "f" => some ⟨[⟨"f", [.papp "Z" []], .atom (.con "Z")⟩]⟩
  | "loop" => some ⟨[⟨"loop", [], .atom (.var "loop")⟩]⟩
  | "main" => some ⟨[⟨"main", [], .app (.atom (.var "f")) (.atom (.var "loop"))⟩]⟩
  | _ => none

def loopFocus : Focus := ⟨.atom (.var "loop"), .appRight (.atom (.var "f")) .top⟩

private theorem rstepFocus_loop (n : Nat) (st : EvalState) :
    rstepFocus spinning n loopFocus st = .outOfFuel ∨
      ∃ st' events, rstepFocus spinning n loopFocus st = .done (some loopFocus) st' events := by
  rcases (Nat.lt_or_ge n 4).imp_right Nat.exists_eq_add_of_le' with hsmall | ⟨k, rfl⟩
  · left
    interval_cases n <;> rfl
  · exact .inr ⟨_, _, rfl⟩

private theorem matching_loop (n : Nat) (st : EvalState) :
    matchWithReductionFocus spinning n [.papp "Z" []] loopFocus st = .outOfFuel := by
  induction n generalizing st with
  | zero => rfl
  | succ n ih =>
      have hnot : notMatchable (.papp "Z" []) loopFocus.expr = false := rfl
      have hmatch : matchPat (.papp "Z" []) loopFocus.expr (fun _ => none) =
          (false, fun _ => none) := rfl
      rw [matchWithReductionFocus, if_neg (by simp [hnot])]
      simp only [hmatch]
      rcases rstepFocus_loop n st with hout | ⟨st₁, events, hstep⟩
      · exact bind_outOfFuel hout
      · exact bind_done_outOfFuel hstep (bind_done_outOfFuel rfl (ih st₁))

private theorem rstepFocus_spinning (n : Nat) (st : EvalState) :
    rstepFocus spinning n ⟨.app (.atom (.var "f")) (.atom (.var "loop")), .top⟩ st =
      .outOfFuel := by
  rcases (Nat.lt_or_ge n 3).imp_right Nat.exists_eq_add_of_le' with hsmall | ⟨k, rfl⟩
  · interval_cases n <;> rfl
  · have hmatching : reduceUntilMatchFocus spinning (k + 1)
        [⟨"f", [.papp "Z" []], .atom (.con "Z")⟩] loopFocus st = .outOfFuel := by
      rw [reduceUntilMatchFocus]
      exact bind_done_outOfFuel rfl (bind_outOfFuel (matching_loop k st))
    exact bind_outOfFuel hmatching

/-- The first step ends at `f loop`, and the second one never does. -/
private theorem rpath_diverges (n : Nat) :
    rpath spinning n (initState (.atom (.var "main")) 30) = .outOfFuel := by
  cases n with
  | zero => rfl
  | succ n =>
      rw [rpath]
      refine bind_done_outOfFuel rfl ?_
      rw [if_neg (by simp [initState])]
      rcases (Nat.lt_or_ge n 4).imp_right Nat.exists_eq_add_of_le' with hsmall | ⟨k, rfl⟩
      · refine bind_outOfFuel ?_
        interval_cases n <;> rfl
      · refine bind_done_outOfFuel rfl (bind_done_outOfFuel rfl (bind_done_outOfFuel rfl ?_))
        rw [rpath]
        refine bind_done_outOfFuel rfl ?_
        rw [if_neg (by simp [initState])]
        exact bind_outOfFuel (rstepFocus_spinning (k + 3) _)

theorem rpath_unbounded : ¬ ∀ (defMap : DefMap) (maxFuel : Int), ∃ n st' events,
    rpath defMap n (initState (.atom (.var "main")) maxFuel) = .done () st' events ∧
      (contractions events : Int) ≤ max maxFuel 0 := by
  intro h
  obtain ⟨n, st', events, hdone, -⟩ := h spinning 30
  rw [rpath_diverges] at hdone
  cases hdone

end Mimuw.Functional.Zipper
