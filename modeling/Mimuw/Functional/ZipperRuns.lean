import Mimuw.Functional.ZipperInPlace

/-!
# Runs and the evaluation in place

When the matcher has reduced an argument it goes on where the reduction ended.  Where
there is an evaluation with the arguments reduced in their places, every run has its
result; and for programs of regular equations, a run that comes back to the argument
each time is such an evaluation.
-/

namespace Mimuw.Functional.Zipper

open Mimuw.Lib Relation

variable {defMap : DefMap} {n : Nat} {st st' : EvalState} {events : List Event}

/-! ## Runs of an evaluation in place -/

/-- Every run of the matcher that ends has that result. -/
def Gives (defMap : DefMap) (pats : List Pat) (focus : Focus) (r : Option MatchEnv) : Prop :=
  ∀ n st r' st' events, matchWithReductionFocus defMap n pats focus st = .done r' st' events →
    r' = r

section Verdicts

variable {p : Pat} {ps : List Pat} {focus : Focus}

theorem Gives.clash (hclash : verdict p focus.expr = .clash) :
    Gives defMap (p :: ps) focus none := by
  intro n st r st' events h
  rcases matchWithReductionFocus_cases h with ⟨-, hnone⟩ | ⟨env, hfit, -⟩ | ⟨hundecided, -⟩
  · exact hnone
  · cases hclash.symm.trans hfit
  · cases hclash.symm.trans hundecided

theorem Gives.last {env : MatchEnv} (hfit : verdict p focus.expr = .fit env) :
    Gives defMap [p] focus (some env) := by
  intro n st r st' events h
  rcases matchWithReductionFocus_cases h with ⟨hclash, -⟩ | ⟨env', hfit', hcase⟩ | ⟨hundecided, -⟩
  · cases hfit.symm.trans hclash
  · obtain rfl := Verdict.fit.inj (hfit.symm.trans hfit')
    rcases hcase with ⟨-, hsome⟩ | ⟨hps, -⟩ | ⟨m, focus', envRest, hm, hps, -⟩
    · exact hsome
    · exact absurd rfl hps
    · exact absurd rfl hps
  · cases hfit.symm.trans hundecided

theorem Gives.missing {env : MatchEnv} (hfit : verdict p focus.expr = .fit env) (hps : ps ≠ [])
    (hnext : goToTheNextArg focus = none) : Gives defMap (p :: ps) focus none := by
  intro n st r st' events h
  rcases matchWithReductionFocus_cases h with ⟨hclash, -⟩ | ⟨env', hfit', hcase⟩ | ⟨hundecided, -⟩
  · cases hfit.symm.trans hclash
  · rcases hcase with ⟨hnil, -⟩ | ⟨-, -, hnone⟩ | ⟨m, focus', envRest, hm, -, hsome, -⟩
    · exact absurd hnil hps
    · exact hnone
    · cases hnext.symm.trans hsome
  · cases hfit.symm.trans hundecided

theorem Gives.next {env : MatchEnv} {focus' : Focus} {envRest : Option MatchEnv}
    (hfit : verdict p focus.expr = .fit env) (hps : ps ≠ [])
    (hnext : goToTheNextArg focus = some focus') (hrest : Gives defMap ps focus' envRest) :
    Gives defMap (p :: ps) focus (envRest.map (union env)) := by
  intro n st r st' events h
  rcases matchWithReductionFocus_cases h with ⟨hclash, -⟩ | ⟨env', hfit', hcase⟩ | ⟨hundecided, -⟩
  · cases hfit.symm.trans hclash
  · obtain rfl := Verdict.fit.inj (hfit.symm.trans hfit')
    rcases hcase with ⟨hnil, -⟩ | ⟨-, hnone, -⟩ | ⟨m, focus'', envRest', hm, -, hsome, hrun, rfl⟩
    · exact absurd hnil hps
    · cases hnext.symm.trans hnone
    · obtain rfl := Option.some.inj (hnext.symm.trans hsome)
      rw [hrest _ _ _ _ _ hrun]
  · cases hfit.symm.trans hundecided

/-- Every run of a call at the focus that ends has that result. -/
def StepGives (defMap : DefMap) (focus : Focus) (r : Option Focus) : Prop :=
  ∀ n st r' st' events, rstepFocus defMap n focus st = .done r' st' events → r' = r

theorem Gives.stuck (hundecided : verdict p focus.expr = .undecided)
    (hstuck : StepGives defMap focus none) : Gives defMap (p :: ps) focus none := by
  intro n st r st' events h
  rcases matchWithReductionFocus_cases h with ⟨hclash, -⟩ | ⟨env, hfit, -⟩ |
    ⟨-, m, rFocus, st₁, events₁, events₂, hm, hstep, -, hcase⟩
  · cases hundecided.symm.trans hclash
  · cases hundecided.symm.trans hfit
  · rcases hcase with ⟨-, hnone⟩ | ⟨rFocus', rfl, -⟩
    · exact hnone
    · cases hstuck _ _ _ _ _ hstep

theorem Gives.reduce {focus' : Focus} {r : Option MatchEnv}
    (hundecided : verdict p focus.expr = .undecided)
    (hstep : StepGives defMap focus (some focus')) (hagain : Gives defMap (p :: ps) focus' r) :
    Gives defMap (p :: ps) focus r := by
  intro n st r' st' events h
  rcases matchWithReductionFocus_cases h with ⟨hclash, -⟩ | ⟨env, hfit, -⟩ |
    ⟨-, m, rFocus, st₁, events₁, events₂, hm, hrun, -, hcase⟩
  · cases hundecided.symm.trans hclash
  · cases hundecided.symm.trans hfit
  · obtain rfl := hstep _ _ _ _ _ hrun
    rcases hcase with ⟨hnone, -⟩ | ⟨rFocus', hsome, hrest⟩
    · cases hnone
    · obtain rfl := Option.some.inj hsome
      exact hagain _ _ _ _ _ hrest

end Verdicts

theorem mem_take_of_getElem? {α : Type} {l : List α} {i k : Nat} {a : α} (h : l[i]? = some a)
    (hlt : i < k) : a ∈ l.take k :=
  List.mem_of_getElem? (by rw [List.getElem?_take, if_pos hlt, h])

/-- The results of the matcher say which equation is taken. -/
theorem rstepFocus_takes {focus first : Focus} {equations : List Match} {nPats k : Nat}
    {eqn : Match} {env : MatchEnv} {r : Option Focus}
    (h : rstepFocus defMap n focus st = .done r st' events)
    (htries : Tries defMap focus equations first nPats) (hequation : equations[k]? = some eqn)
    (hfits : Gives defMap eqn.matchPats first (some env))
    (hbefore : ∀ m ∈ equations.take k, Gives defMap m.matchPats first none) :
    r = some (contractum focus nPats (subst env eqn.matchRhs)) ∧
      ∃ before, events = before ++ [Event.contracted (leftOf focus) k] := by
  rcases rstepFocus_cases h with ⟨equations', first', nPats', k', eqn', env', j, st₁, events₁,
    before, htries', hequation', -, hrun, hall, -, rfl, rfl⟩ | ⟨events₁, events₂, -, hnone, -⟩
  · obtain ⟨rfl, rfl, rfl⟩ := htries.unique htries'
    have hsame : k' = k := by
      rcases Nat.lt_trichotomy k' k with hlt | heq | hgt
      · cases hbefore eqn' (mem_take_of_getElem? hequation' hlt) _ _ _ _ _ hrun
      · exact heq
      · obtain ⟨j', st₂, events₂, -, -, hreject⟩ := hall eqn (mem_take_of_getElem? hequation hgt)
        cases hfits _ _ _ _ _ hreject
    subst hsame
    obtain rfl := Option.some.inj (hequation'.symm.trans hequation)
    obtain rfl := Option.some.inj (hfits _ _ _ _ _ hrun)
    exact ⟨rfl, before, rfl⟩
  · obtain ⟨j, st₁, events₁, -, -, hreject⟩ :=
      hnone equations first nPats htries eqn (List.mem_of_getElem? hequation)
    cases hfits _ _ _ _ _ hreject

theorem rstepFocus_passes {focus : Focus} {r : Option Focus}
    (h : rstepFocus defMap n focus st = .done r st' events)
    (hnone : ∀ equations first nPats, Tries defMap focus equations first nPats →
      ∀ m ∈ equations, Gives defMap m.matchPats first none) :
    ∃ events₁ events₂, events = events₁ ++ events₂ ∧
      Moves defMap n (elsewhere defMap focus) r st' events₂ := by
  rcases rstepFocus_cases h with ⟨equations, first, nPats, k, eqn, env, j, st₁, events₁, before,
    htries, hequation, -, hrun, -⟩ | ⟨events₁, events₂, heq, -, hmoves⟩
  · cases hnone equations first nPats htries eqn (List.mem_of_getElem? hequation) _ _ _ _ _ hrun
  · exact ⟨events₁, events₂, heq, hmoves⟩

theorem StepGives.move {focus focus' : Focus} {r : Option Focus}
    (hnone : ∀ equations first nPats, Tries defMap focus equations first nPats →
      ∀ m ∈ equations, Gives defMap m.matchPats first none)
    (hmove : elsewhere defMap focus = some focus') (hrest : StepGives defMap focus' r) :
    StepGives defMap focus r := by
  intro n st r' st' events h
  obtain ⟨events₁, events₂, -, ⟨hstop, -⟩ | ⟨m, focus'', st₁, -, hsome, hstep⟩⟩ :=
    rstepFocus_passes h hnone
  · cases hmove.symm.trans hstop
  · obtain rfl := Option.some.inj (hmove.symm.trans hsome)
    exact hrest _ _ _ _ _ hstep

theorem StepGives.stop {focus : Focus}
    (hnone : ∀ equations first nPats, Tries defMap focus equations first nPats →
      ∀ m ∈ equations, Gives defMap m.matchPats first none)
    (hstop : elsewhere defMap focus = none) : StepGives defMap focus none := by
  intro n st r' st' events h
  obtain ⟨events₁, events₂, -, ⟨-, hr, -⟩ | ⟨m, focus'', st₁, -, hsome, -⟩⟩ :=
    rstepFocus_passes h hnone
  · exact hr
  · cases hstop.symm.trans hsome

private theorem contractum_whole (focus : Focus) (e' : Expr) :
    contractum focus focus.expr.args.length e' = changeExpr e' focus := by
  rw [contractum, List.drop_length, spine, changeExpr]

mutual

theorem Fits.gives {pats : List Pat} {focus : Focus} {env : MatchEnv} :
    Fits defMap pats focus env → Gives defMap pats focus (some env)
  | .nil => fun _ _ _ _ _ h => matchWithReductionFocus_nil h
  | .last hfit _ => .last hfit
  | .next hfit _ hps hnext hrest _ => Gives.next hfit hps hnext hrest.gives
  | .reduce hundecided hwhole hcontracts hagain =>
      .reduce hundecided (contractum_whole _ _ ▸ hcontracts.stepGives hwhole) hagain.gives

theorem Rejects.gives {pats : List Pat} {focus : Focus} :
    Rejects defMap pats focus → Gives defMap pats focus none
  | .clash hclash => .clash hclash
  | .missing hfit hps hnext => .missing hfit hps hnext
  | .next hfit hps hnext hrest => Gives.next hfit hps hnext hrest.gives
  | .stuck hundecided hstuck => .stuck hundecided hstuck.stepGives
  | .reduce hundecided hwhole hcontracts hagain =>
      .reduce hundecided (contractum_whole _ _ ▸ hcontracts.stepGives hwhole) hagain.gives

theorem Contracts.stepGives {focus : Focus} {k : Nat} {e' : Expr} :
    Contracts defMap focus k e' → ∀ {nPats : Nat},
      countParams defMap focus.expr.head.name = some nPats →
        StepGives defMap focus (some (contractum focus nPats e'))
  | .intro htries hequation _ hfits hbefore, nPats, hparams => fun _ _ _ _ _ h => by
      have htakes := rstepFocus_takes h htries hequation hfits.gives
        fun m hm => (hbefore m hm).gives
      rw [htakes.1, Option.some.inj (htries.params.symm.trans hparams)]

theorem Evaluates.stepGives {focus : Focus} {r : Option Focus} :
    Evaluates defMap focus r → StepGives defMap focus r
  | .contract hparams hcontracts => hcontracts.stepGives hparams
  | .move hnone hmove hrest =>
      .move (fun equations first nPats htries m hm =>
        (hnone equations first nPats htries m hm).gives) hmove hrest.stepGives
  | .stop hnone hstop =>
      .stop (fun equations first nPats htries m hm =>
        (hnone equations first nPats htries m hm).gives) hstop

end

/-! ## The way to the right -/

def leaves : Expr → Nat
  | .atom _ => 1
  | .app f x => leaves f + leaves x

/-- The atoms to the left of the focus. -/
def toTheLeft : Context → Nat
  | .top => 0
  | .appLeft ctx _ => toTheLeft ctx
  | .appRight e ctx => toTheLeft ctx + leaves e

private theorem leaves_pos (e : Expr) : 0 < leaves e := by
  induction e with
  | atom a => exact Nat.one_pos
  | app f x ihf _ => exact Nat.add_pos_left ihf _

private theorem toTheLeft_spine (ctx : Context) (es : List Expr) :
    toTheLeft (spine ctx es) = toTheLeft ctx := by
  induction es with
  | nil => rfl
  | cons e es ih => rw [spine, toTheLeft, ih]

private theorem toTheLeft_goToTheNextArgFrom {e : Expr} {ctx : Context} {focus : Focus}
    (h : goToTheNextArgFrom e ctx = some focus) :
    toTheLeft focus.context = toTheLeft ctx + leaves e := by
  induction ctx generalizing e with
  | top => cases h
  | appLeft ctx e₂ _ =>
      obtain rfl := Option.some.inj h
      rfl
  | appRight e₁ ctx ih =>
      rw [ih h, leaves, toTheLeft, Nat.add_assoc]

private theorem toTheLeft_goToTheNextArg {focus focus' : Focus}
    (h : goToTheNextArg (leftOf focus) = some focus') :
    toTheLeft focus.context < toTheLeft focus'.context := by
  rw [toTheLeft_goToTheNextArgFrom h, leftOf, toTheLeft_spine]
  exact Nat.lt_add_of_pos_right (leaves_pos _)

private theorem toTheLeft_elsewhere {focus focus' : Focus}
    (h : elsewhere defMap focus = some focus') :
    toTheLeft focus.context ≤ toTheLeft focus'.context := by
  have hupper (h : goToUpperArg focus = some focus') :
      toTheLeft focus.context = toTheLeft focus'.context := by
    obtain ⟨e, ctx⟩ := focus
    cases ctx with
    | appLeft ctx e₂ =>
        obtain rfl := Option.some.inj h
        rfl
    | top => cases h
    | appRight e₁ ctx => cases h
  rcases elsewhere_cases defMap focus with heq | heq
  · exact Nat.le_of_lt (toTheLeft_goToTheNextArg (heq.symm.trans h))
  · rcases Option.or_eq_some_iff.mp (heq.symm.trans h) with hup | ⟨-, hnext⟩
    · exact Nat.le_of_eq (hupper hup)
    · exact Nat.le_of_lt (toTheLeft_goToTheNextArg hnext)

private theorem Evaluates.toTheLeft_le {focus : Focus} {r : Option Focus} :
    Evaluates defMap focus r → ∀ {result : Focus}, r = some result →
      toTheLeft focus.context ≤ toTheLeft result.context
  | @Evaluates.contract _ focus nPats k e' _ _, result, hr => by
      obtain rfl := Option.some.inj hr
      exact Nat.le_of_eq (toTheLeft_spine _ _).symm
  | .move _ hmove hrest, result, hr =>
      Nat.le_trans (toTheLeft_elsewhere hmove) (hrest.toTheLeft_le hr)
  | .stop _ _, result, hr => by cases hr

def IsArg (focus : Focus) : Prop := ∃ e ctx, focus.context = .appRight e ctx

private theorem isArg_goToTheNextArg {focus focus' : Focus}
    (h : goToTheNextArg focus = some focus') :
    IsArg focus' := by
  obtain ⟨e, ctx⟩ := focus
  rw [goToTheNextArg] at h
  induction ctx generalizing e with
  | top => cases h
  | appLeft ctx e₂ _ =>
      obtain rfl := Option.some.inj h
      exact ⟨e, ctx, rfl⟩
  | appRight e₁ ctx ih => exact ih _ h

private theorem Tries.isArg {focus first : Focus} {equations : List Match} {nPats : Nat}
    (h : Tries defMap focus equations first nPats) (hpos : 0 < nPats) : IsArg first := by
  obtain ⟨a, as, -, rfl⟩ := h.args hpos
  exact ⟨_, _, rfl⟩

/-- A move away from an argument goes to the right. -/
private theorem IsArg.toTheLeft_elsewhere {focus focus' : Focus} (h : IsArg focus)
    (hmove : elsewhere defMap focus = some focus') :
    toTheLeft focus.context < toTheLeft focus'.context := by
  obtain ⟨e, ctx, hplace⟩ := h
  rcases elsewhere_cases defMap focus with heq | heq
  · exact toTheLeft_goToTheNextArg (heq.symm.trans hmove)
  · rcases Option.or_eq_some_iff.mp (heq.symm.trans hmove) with hup | ⟨-, hnext⟩
    · obtain ⟨a, ctx'⟩ := focus
      obtain rfl : ctx' = .appRight e ctx := hplace
      cases hup
    · exact toTheLeft_goToTheNextArg hnext

def depth : Context → Nat
  | .top => 0
  | .appLeft ctx _ => depth ctx + 1
  | .appRight _ ctx => depth ctx + 1

private theorem depth_spine (ctx : Context) (es : List Expr) :
    depth (spine ctx es) = depth ctx + es.length := by
  induction es with
  | nil => rfl
  | cons e es ih => rw [spine, depth, ih, List.length_cons, Nat.add_assoc]

/-- An evaluation that ends in the place of an argument is a contraction of it as a
whole. -/
private theorem Evaluates.inPlace {focus result : Focus} (h : Evaluates defMap focus (some result))
    (harg : IsArg focus) (hplace : result.context = focus.context) :
    ∃ k e', Contracts defMap focus k e' ∧ result = changeExpr e' focus ∧
      countParams defMap focus.expr.head.name = some focus.expr.args.length := by
  generalize hr : some result = r at h
  cases h with
  | @contract _ nPats k e' hparams hcontracts =>
      obtain rfl := Option.some.inj hr
      have hle : nPats ≤ focus.expr.args.length := by
        cases hcontracts with
        | intro htries _ _ _ _ =>
            obtain rfl := Option.some.inj (htries.params.symm.trans hparams)
            exact htries.enough
      have hdepth := congrArg depth hplace
      rw [contractum, depth_spine, List.length_drop] at hdepth
      obtain rfl : nPats = focus.expr.args.length := by omega
      exact ⟨k, e', hcontracts, contractum_whole focus e', hparams⟩
  | @move _ focus' _ hnone hmove hrest =>
      have hlt := harg.toTheLeft_elsewhere hmove
      have hle := hrest.toTheLeft_le hr.symm
      rw [hplace] at hle
      omega
  | stop hnone hstop => cases hr

/-! ## Runs with the arguments in their places -/

/-- Every equation has as many patterns as the first one of its name and no variable
twice. -/
def Regular (defMap : DefMap) : Prop :=
  ∀ name equations, defMap name = some ⟨equations⟩ → ∀ m ∈ equations,
    countParams defMap name = some m.matchPats.length ∧ (varsAll m.matchPats).Nodup

/-- Whenever an argument is reduced and the matcher goes on, it is in the same place. -/
def InPlace (events : List Event) : Prop :=
  ∀ arg result, Event.reduced arg (some result) ∈ events → result.context = arg.context

theorem InPlace.mono {events' : List Event} (h : InPlace events) (hsub : events' ⊆ events) :
    InPlace events' :=
  fun arg result hmem => h arg result (hsub hmem)

/-- The runs with that fuel are evaluations in place. -/
def StraightCalls (defMap : DefMap) (n : Nat) : Prop :=
  ∀ focus st r st' events, rstepFocus defMap n focus st = .done r st' events →
    InPlace events → Evaluates defMap focus r

/-- What the matcher found. -/
def Matches (defMap : DefMap) (pats : List Pat) (focus : Focus) : Option MatchEnv → Prop
  | some env => Fits defMap pats focus env
  | none => Rejects defMap pats focus

private theorem Fits.domain {pats : List Pat} {focus : Focus} {env : MatchEnv} :
    Fits defMap pats focus env → ∀ x, (env x).isSome → x ∈ varsAll pats
  | .nil, x, hx => by cases hx
  | .last hfit _, x, hx => by
      rw [varsAll, varsAll, List.append_nil]
      exact isSome_verdict hfit hx
  | .next hfit _ _ _ hrest _, x, hx => isSome_union (fun _ => isSome_verdict hfit) hrest.domain hx
  | .reduce _ _ _ hagain, x, hx => hagain.domain x hx

private theorem matches_of_run (hcalls : ∀ m < n, StraightCalls defMap m) {pats : List Pat}
    {focus : Focus} {r : Option MatchEnv}
    (h : matchWithReductionFocus defMap n pats focus st = .done r st' events)
    (hplace : InPlace events) (hnodup : (varsAll pats).Nodup) (harg : pats ≠ [] → IsArg focus) :
    Matches defMap pats focus r := by
  induction n using Nat.strongRecOn generalizing pats focus r st st' events with
  | ind n ih =>
      cases pats with
      | nil =>
          obtain rfl := matchWithReductionFocus_nil h
          exact .nil
      | cons p ps =>
          have harg := harg (List.cons_ne_nil p ps)
          have hvars := hnodup
          rw [varsAll, List.nodup_append] at hvars
          rcases matchWithReductionFocus_cases h with ⟨hclash, rfl⟩ | ⟨env₁, hfit, hcase⟩ |
            ⟨hundecided, m, rFocus, st₁, events₁, events₂, hm, hstep, rfl, hcase⟩
          · exact .clash hclash
          · have hinstance := matchPat_spec (matchPat_of_verdict hfit) hvars.1
            rcases hcase with ⟨rfl, rfl⟩ | ⟨hps, hnext, rfl⟩ |
              ⟨m, focus', envRest, hm, hps, hnext, hrest, rfl⟩
            · exact .last hfit hinstance
            · exact .missing hfit hps hnext
            · have hmatches := ih m hm (fun k hk => hcalls k (by omega)) hrest hplace hvars.2.1
                fun _ => isArg_goToTheNextArg hnext
              cases envRest with
              | none => exact .next hfit hps hnext hmatches
              | some env₂ =>
                  refine .next hfit hinstance hps hnext hmatches ?_
                  exact agree_of_nodup (fun _ => isSome_verdict hfit) (Fits.domain hmatches) hnodup
          · have hevaluates := hcalls m hm _ _ _ _ _ hstep
              (hplace.mono (List.subset_append_left _ _))
            rcases hcase with ⟨rfl, rfl⟩ | ⟨result, rfl, hagain⟩
            · exact .stuck hundecided hevaluates
            · obtain ⟨k, e', hcontracts, rfl, hwhole⟩ :=
                hevaluates.inPlace harg (hplace focus result (by simp))
              have hmatches := ih m hm (fun k hk => hcalls k (by omega)) hagain
                (hplace.mono (by intro event hevent; simp [hevent])) hnodup fun _ => harg
              cases r with
              | none => exact .reduce hundecided hwhole hcontracts hmatches
              | some env => exact .reduce hundecided hwhole hcontracts hmatches

theorem Regular.length {focus first : Focus} {equations : List Match} {nPats : Nat} {m : Match}
    (h : Regular defMap) (htries : Tries defMap focus equations first nPats) (hm : m ∈ equations) :
    m.matchPats.length = nPats :=
  Option.some.inj ((h _ _ htries.defined m hm).1.symm.trans htries.params)

private theorem Regular.isArg {focus first : Focus} {equations : List Match} {nPats : Nat}
    {m : Match}
    (h : Regular defMap) (htries : Tries defMap focus equations first nPats) (hm : m ∈ equations)
    (hpats : m.matchPats ≠ []) : IsArg first := by
  refine htries.isArg ?_
  rw [← h.length htries hm]
  exact List.length_pos_iff.mpr hpats

private theorem matches_of_try (hregular : Regular defMap)
    (hcalls : ∀ m < n, StraightCalls defMap m)
    {focus first : Focus} {equations : List Match} {nPats j : Nat} {m : Match}
    {r : Option MatchEnv} (htries : Tries defMap focus equations first nPats) (hm : m ∈ equations)
    (hj : j < n) (hrun : matchWithReductionFocus defMap j m.matchPats first st = .done r st' events)
    (hplace : InPlace events) : Matches defMap m.matchPats first r :=
  matches_of_run (fun k hk => hcalls k (by omega)) hrun hplace
    (hregular _ _ htries.defined m hm).2 (hregular.isArg htries hm)

theorem RejectsAll.rejects (hregular : Regular defMap) (hcalls : ∀ m < n, StraightCalls defMap m)
    {focus first : Focus} {equations tried : List Match} {nPats : Nat}
    (h : RejectsAll defMap n tried first st events)
    (htries : Tries defMap focus equations first nPats) (hsub : tried ⊆ equations)
    (hplace : InPlace events) : ∀ m ∈ tried, Rejects defMap m.matchPats first := by
  intro m hm
  obtain ⟨j, st₁, events₁, hj, hsub₁, hreject⟩ := h m hm
  exact matches_of_try hregular hcalls htries (hsub hm) hj hreject (hplace.mono hsub₁)

theorem straightCalls (hregular : Regular defMap) (n : Nat) : StraightCalls defMap n := by
  induction n using Nat.strongRecOn with
  | ind n ih =>
      intro focus st r st' events h hplace
      rcases rstepFocus_cases h with ⟨equations, first, nPats, k, m, env, j, st₁, events₁, before,
        htries, hequation, hj, hrun, hall, hsub, rfl, rfl⟩ | ⟨events₁, events₂, rfl, hnone, hmoves⟩
      · have hbefore := hplace.mono (List.subset_append_left before _)
        have hmem := List.mem_of_getElem? hequation
        exact .contract htries.params (.intro htries hequation (hregular.length htries hmem)
          (matches_of_try hregular ih htries hmem hj hrun (hbefore.mono hsub))
          (hall.rejects hregular ih htries (List.take_subset k equations) hbefore))
      · have hrejects (equations first nPats) (htries : Tries defMap focus equations first nPats) :
            ∀ m ∈ equations, Rejects defMap m.matchPats first :=
          (hnone equations first nPats htries).rejects hregular ih htries (List.Subset.refl _)
            (hplace.mono (List.subset_append_left _ _))
        rcases hmoves with ⟨hstop, rfl, -⟩ | ⟨m, focus', st₁, hm, hmove, hstep⟩
        · exact .stop hrejects hstop
        · exact .move hrejects hmove (ih m hm _ _ _ _ _ hstep
            (hplace.mono (List.subset_append_right _ _)))

private theorem clashes_of_run (hregular : Regular defMap) {pats : List Pat} {focus : Focus}
    (h : matchWithReductionFocus defMap n pats focus st = .done none st' events)
    (hplace : InPlace events) (hreducible : ∀ arg, .reduced arg none ∉ events)
    {e a : Expr} {ctx : Context} {as : List Expr}
    (hfocus : focus = ⟨a, .appRight e (spine ctx as)⟩) (hlength : pats.length ≤ as.length + 1) :
    Clashes defMap pats focus := by
  induction n using Nat.strongRecOn generalizing pats focus st st' events e a as with
  | ind n ih =>
      cases pats with
      | nil => cases matchWithReductionFocus_nil h
      | cons p ps =>
          rcases matchWithReductionFocus_cases h with ⟨hclash, -⟩ | ⟨env₁, hfit, hcase⟩ |
            ⟨hundecided, m, rFocus, st₁, events₁, events₂, hm, hstep, rfl, hcase⟩
          · exact .clash hclash
          · subst hfocus
            have hargs (hps : ps ≠ []) : ∃ b bs, as = b :: bs := by
              cases as with
              | nil =>
                  refine absurd (List.eq_nil_of_length_eq_zero ?_) hps
                  simpa using hlength
              | cons b bs => exact ⟨b, bs, rfl⟩
            rcases hcase with ⟨-, hsome⟩ | ⟨hps, hnext, -⟩ |
              ⟨m, focus', envRest, hm, hps, hnext, hrest, henv⟩
            · cases hsome
            · obtain ⟨b, bs, rfl⟩ := hargs hps
              cases hnext
            · obtain ⟨b, bs, rfl⟩ := hargs hps
              obtain rfl := Option.map_eq_none_iff.mp henv.symm
              obtain rfl := Option.some.inj hnext
              exact .next hfit (ih m hm hrest hplace hreducible rfl (by simpa using hlength))
          · rcases hcase with ⟨rfl, -⟩ | ⟨result, rfl, hagain⟩
            · exact absurd (by simp) (hreducible focus)
            · have hevaluates := straightCalls hregular m _ _ _ _ _ hstep
                (hplace.mono (List.subset_append_left _ _))
              obtain ⟨k, e', hcontracts, rfl, hwhole⟩ :=
                hevaluates.inPlace ⟨e, _, by rw [hfocus]⟩ (hplace focus result (by simp))
              refine .reduce hundecided hwhole hcontracts
                (ih m hm hagain (hplace.mono (by intro event hevent; simp [hevent]))
                  (fun arg harg => hreducible arg (by simp [harg])) (e := e) (a := e') ?_ hlength)
              rw [hfocus]
              rfl

/-- An equation of the application that is rejected in place, without giving up an
argument, clashes. -/
private theorem clashes_of_try (hregular : Regular defMap) {focus first : Focus}
    {equations : List Match}
    {nPats : Nat} {m : Match} (htries : Tries defMap focus equations first nPats)
    (hm : m ∈ equations)
    (hrun : matchWithReductionFocus defMap n m.matchPats first st = .done none st' events)
    (hplace : InPlace events) (hreducible : ∀ arg, .reduced arg none ∉ events) :
    Clashes defMap m.matchPats first := by
  have hlength := hregular.length htries hm
  rcases Nat.eq_zero_or_pos nPats with hzero | hpos
  · rw [List.eq_nil_of_length_eq_zero (hlength.trans hzero)] at hrun
    cases matchWithReductionFocus_nil hrun
  · obtain ⟨a, as, hargs, rfl⟩ := htries.args hpos
    have henough := htries.enough
    rw [hargs, List.length_cons, ← hlength] at henough
    exact clashes_of_run hregular hrun hplace hreducible rfl henough

theorem decided_of_run (hregular : Regular defMap) {focus focus' : Focus}
    (h : rstepFocus defMap n focus st = .done (some focus') st' events)
    (hplace : InPlace events) (hreducible : ∀ arg, .reduced arg none ∉ events) :
    Decided defMap focus := by
  have hcalls (m : Nat) (_ : m < n) : StraightCalls defMap m := straightCalls hregular m
  induction n using Nat.strongRecOn generalizing focus st events with
  | ind n ih =>
      rcases rstepFocus_cases h with ⟨equations, first, nPats, k, m, env, j, st₁, events₁, before,
        htries, hequation, hj, hrun, hall, hsub, hr, rfl⟩ | ⟨events₁, events₂, rfl, hnone, hmoves⟩
      · have hbefore := hplace.mono (List.subset_append_left before _)
        have hmem := List.mem_of_getElem? hequation
        have hclashes (m' : Match) (hm' : m' ∈ equations.take k) :
            Clashes defMap m'.matchPats first := by
          obtain ⟨j', st₂, events₂, -, hsub', hreject⟩ := hall m' hm'
          exact clashes_of_try hregular htries (List.mem_of_mem_take hm') hreject
            (hbefore.mono hsub') fun arg harg =>
              hreducible arg (List.mem_append_left _ (hsub' harg))
        refine .contract htries hequation (hregular.length htries hmem)
          (matches_of_try hregular hcalls htries hmem hj hrun (hbefore.mono hsub)) (fun hk => ?_)
          hclashes
        obtain ⟨hlt, -⟩ := List.getElem?_eq_some_iff.mp hequation
        have hfirst : equations[0]? = some (equations[0]) := List.getElem?_eq_getElem (by omega)
        rw [← hregular.length htries (List.mem_of_getElem? hfirst)]
        exact List.length_pos_iff.mpr (hclashes _ (mem_take_of_getElem? hfirst hk)).ne_nil
      · rcases hmoves with ⟨-, hr, -⟩ | ⟨m, focus'', st₁, hm, hmove, hstep⟩
        · cases hr
        · refine .move (fun equations first nPats htries => ?_) hmove
            (ih m hm hstep (hplace.mono (List.subset_append_right _ _))
              (fun arg harg => hreducible arg (List.mem_append_right _ harg))
              fun k hk => hcalls k (by omega))
          exact (hnone equations first nPats htries).rejects hregular hcalls htries
            (List.Subset.refl _) (hplace.mono (List.subset_append_left _ _))

end Mimuw.Functional.Zipper
