import Mimuw.Functional.ZipperSteps

/-!
# Arguments reduced in their places

The evaluation as it is meant, on the program and a focus alone: an argument that the
matcher has to reduce is contracted as a whole, and the matching goes on in its place.
Such an evaluation rewrites with the equations of the program.
-/

namespace Mimuw.Functional.Zipper

open Mimuw.Lib Relation

/-! ## The evaluation -/

mutual

/-- The arguments from the focus on come to fit the patterns, with one value for each
variable. -/
inductive Fits (defMap : DefMap) : List Pat → Focus → MatchEnv → Prop where
  | nil {focus : Focus} : Fits defMap [] focus fun _ => none
  | last {p : Pat} {focus : Focus} {env : MatchEnv} (hfit : verdict p focus.expr = .fit env)
      (hinstance : Instance env p focus.expr) : Fits defMap [p] focus env
  | next {p : Pat} {ps : List Pat} {focus focus' : Focus} {env₁ env₂ : MatchEnv}
      (hfit : verdict p focus.expr = .fit env₁) (hinstance : Instance env₁ p focus.expr)
      (hps : ps ≠ []) (hnext : goToTheNextArg focus = some focus')
      (hrest : Fits defMap ps focus' env₂) (hagree : Agree env₁ env₂) :
      Fits defMap (p :: ps) focus (union env₁ env₂)
  | reduce {p : Pat} {ps : List Pat} {focus : Focus} {k : Nat} {e' : Expr} {env : MatchEnv}
      (hundecided : verdict p focus.expr = .undecided)
      (hwhole : countParams defMap focus.expr.head.name = some focus.expr.args.length)
      (hcontracts : Contracts defMap focus k e')
      (hagain : Fits defMap (p :: ps) (changeExpr e' focus) env) : Fits defMap (p :: ps) focus env

/-- The arguments come to a clash, or one of them cannot be reduced. -/
inductive Rejects (defMap : DefMap) : List Pat → Focus → Prop where
  | clash {p : Pat} {ps : List Pat} {focus : Focus} (hclash : verdict p focus.expr = .clash) :
      Rejects defMap (p :: ps) focus
  | missing {p : Pat} {ps : List Pat} {focus : Focus} {env₁ : MatchEnv}
      (hfit : verdict p focus.expr = .fit env₁) (hps : ps ≠ [])
      (hnext : goToTheNextArg focus = none) : Rejects defMap (p :: ps) focus
  | next {p : Pat} {ps : List Pat} {focus focus' : Focus} {env₁ : MatchEnv}
      (hfit : verdict p focus.expr = .fit env₁) (hps : ps ≠ [])
      (hnext : goToTheNextArg focus = some focus') (hrest : Rejects defMap ps focus') :
      Rejects defMap (p :: ps) focus
  | stuck {p : Pat} {ps : List Pat} {focus : Focus}
      (hundecided : verdict p focus.expr = .undecided) (hstuck : Evaluates defMap focus none) :
      Rejects defMap (p :: ps) focus
  | reduce {p : Pat} {ps : List Pat} {focus : Focus} {k : Nat} {e' : Expr}
      (hundecided : verdict p focus.expr = .undecided)
      (hwhole : countParams defMap focus.expr.head.name = some focus.expr.args.length)
      (hcontracts : Contracts defMap focus k e')
      (hagain : Rejects defMap (p :: ps) (changeExpr e' focus)) : Rejects defMap (p :: ps) focus

/-- Equation `k` is the first one that is not rejected, and it fits. -/
inductive Contracts (defMap : DefMap) : Focus → Nat → Expr → Prop where
  | intro {focus first : Focus} {equations : List Match} {nPats k : Nat} {m : Match}
      {env : MatchEnv} (htries : Tries defMap focus equations first nPats)
      (hequation : equations[k]? = some m) (hlength : m.matchPats.length = nPats)
      (hfits : Fits defMap m.matchPats first env)
      (hbefore : ∀ m' ∈ equations.take k, Rejects defMap m'.matchPats first) :
      Contracts defMap focus k (subst env m.matchRhs)

/-- A contraction here, or no equation fits and it is one at the next place. -/
inductive Evaluates (defMap : DefMap) : Focus → Option Focus → Prop where
  | contract {focus : Focus} {nPats k : Nat} {e' : Expr}
      (hparams : countParams defMap focus.expr.head.name = some nPats)
      (hcontracts : Contracts defMap focus k e') :
      Evaluates defMap focus (some (contractum focus nPats e'))
  | move {focus focus' : Focus} {r : Option Focus}
      (hnone : ∀ equations first nPats, Tries defMap focus equations first nPats →
        ∀ m ∈ equations, Rejects defMap m.matchPats first)
      (hmove : elsewhere defMap focus = some focus') (hrest : Evaluates defMap focus' r) :
      Evaluates defMap focus r
  | stop {focus : Focus}
      (hnone : ∀ equations first nPats, Tries defMap focus equations first nPats →
        ∀ m ∈ equations, Rejects defMap m.matchPats first)
      (hstop : elsewhere defMap focus = none) : Evaluates defMap focus none

end

/-- Every argument on the way is reduced in its place. -/
def Straight (defMap : DefMap) (focus : Focus) : Prop := ∃ r, Evaluates defMap focus r

variable {defMap : DefMap}

/-! ## Soundness -/

/-- The arguments rewrite to an instance of the patterns. -/
def Comes (defMap : DefMap) (pats : List Pat) (args : List Expr) (env : MatchEnv) : Prop :=
  ∃ args', List.Forall₂ (Rewrites defMap) (args.take pats.length) args' ∧
    Instances env pats args' ∧ ∀ x, (env x).isSome → x ∈ varsAll pats

theorem Comes.nil (args : List Expr) : Comes defMap [] args fun _ => none := by
  refine ⟨[], by simp, ?_, fun x hx => by cases hx⟩
  rw [Instances]
  trivial

theorem isSome_verdict {p : Pat} {e : Expr} {env : MatchEnv} (h : verdict p e = .fit env) {x : Name}
    (hx : (env x).isSome) : x ∈ p.vars := by
  by_contra hnot
  rw [matchPat_others (matchPat_of_verdict h) x hnot] at hx
  cases hx

theorem Comes.last {p : Pat} {a : Expr} {args : List Expr} {env : MatchEnv}
    (hfit : verdict p a = .fit env) (hinstance : Instance env p a) :
    Comes defMap [p] (a :: args) env := by
  refine ⟨[a], .cons .refl (by simp), ?_, fun x hx => ?_⟩
  · rw [Instances, Instances]
    exact ⟨hinstance, trivial⟩
  · rw [varsAll, varsAll, List.append_nil]
    exact isSome_verdict hfit hx

theorem Comes.cons {p : Pat} {ps : List Pat} {a : Expr} {args : List Expr} {env₁ env₂ : MatchEnv}
    (h : Comes defMap ps args env₂) (hfit : verdict p a = .fit env₁)
    (hinstance : Instance env₁ p a) (hagree : Agree env₁ env₂) :
    Comes defMap (p :: ps) (a :: args) (union env₁ env₂) := by
  obtain ⟨args', hrewrites, hinstances, hdomain⟩ := h
  exact ⟨a :: args', .cons .refl hrewrites, hinstance.union hinstances hagree,
    fun x hx => isSome_union (fun _ => isSome_verdict hfit) hdomain hx⟩

theorem Comes.head {p : Pat} {ps : List Pat} {a a' : Expr} {args : List Expr} {env : MatchEnv}
    (h : Comes defMap (p :: ps) (a' :: args) env) (hrewrites : Rewrites defMap a a') :
    Comes defMap (p :: ps) (a :: args) env := by
  obtain ⟨args', hall, hinstances, hdomain⟩ := h
  cases hall with
  | cons hhead htail => exact ⟨_, .cons (hrewrites.trans hhead) htail, hinstances, hdomain⟩

theorem Comes.rewrites {d : Def} {m : Match} {a : Atom} {args : List Expr} {env : MatchEnv}
    (h : Comes defMap m.matchPats args env) (hdef : defMap a.name = some d)
    (hm : m ∈ d.defMatches) :
    Rewrites defMap (ApTerm.apply a (args.take m.matchPats.length)) (subst env m.matchRhs) := by
  obtain ⟨args', hrewrites, hinstances, hdomain⟩ := h
  have hroot : Step defMap (ApTerm.apply a args') (subst env m.matchRhs) := by
    refine .root (d := d) ?_ hm ?_ hdomain
    · rwa [ApTerm.head_apply]
    · rwa [ApTerm.args_apply]
  exact (Rewrites.apply a hrewrites).tail hroot

private theorem goToTheNextArg_spine (a e b : Expr) (ctx : Context) (bs : List Expr) :
    goToTheNextArg ⟨a, .appRight e (spine ctx (b :: bs))⟩ =
      some ⟨b, .appRight (.app e a) (spine ctx bs)⟩ :=
  rfl

theorem Tries.args {focus first : Focus} {equations : List Match} {nPats : Nat}
    (h : Tries defMap focus equations first nPats) (hpos : 0 < nPats) :
    ∃ a as, focus.expr.args = a :: as ∧
      first = ⟨a, .appRight (.atom focus.expr.head) (spine focus.context as)⟩ := by
  rcases h.start with ⟨hzero, -⟩ | ⟨-, hfirst⟩
  · omega
  · rw [firstArg] at hfirst
    cases hargs : focus.expr.args with
    | nil => simp [hargs] at hfirst
    | cons a as =>
        simp only [hargs, Option.some.injEq] at hfirst
        exact ⟨a, as, rfl, hfirst.symm⟩

mutual

theorem Fits.comes {pats : List Pat} {focus : Focus} {env : MatchEnv} :
    Fits defMap pats focus env → ∀ {e a : Expr} {ctx : Context} {as : List Expr},
      focus = ⟨a, .appRight e (spine ctx as)⟩ → pats.length ≤ as.length + 1 →
        Comes defMap pats (a :: as) env
  | .nil, e, a, ctx, as, _, _ => Comes.nil _
  | .last hfit hinstance, e, a, ctx, as, hfocus, _ => by
      subst hfocus
      exact Comes.last hfit hinstance
  | @Fits.next _ p ps focus focus' env₁ env₂ hfit hinstance hps hnext hrest hagree, e, a, ctx, as,
      hfocus, hlength => by
      cases as with
      | nil =>
          refine absurd (List.eq_nil_of_length_eq_zero ?_) hps
          simpa using hlength
      | cons b bs =>
          have hfocus' : focus' = ⟨b, .appRight (.app e a) (spine ctx bs)⟩ := by
            rw [hfocus, goToTheNextArg_spine] at hnext
            exact (Option.some.inj hnext).symm
          have hcomes := hrest.comes hfocus' (by simpa using hlength)
          subst hfocus
          exact hcomes.cons hfit hinstance hagree
  | @Fits.reduce _ p ps focus k e' env hundecided hwhole hcontracts hagain, e, a, ctx, as, hfocus,
      hlength => by
      have hreduced := hcontracts.rewrites hwhole
      have hcomes := hagain.comes (a := e') (by rw [hfocus]; rfl) hlength
      subst hfocus
      rw [List.take_length, ApTerm.apply_head_args] at hreduced
      exact hcomes.head hreduced

theorem Contracts.rewrites {focus : Focus} {k : Nat} {e' : Expr} :
    Contracts defMap focus k e' → ∀ {nPats : Nat},
      countParams defMap focus.expr.head.name = some nPats →
        Rewrites defMap (ApTerm.apply focus.expr.head (focus.expr.args.take nPats)) e'
  | @Contracts.intro _ focus first equations nPats k m env htries hequation hlength hfits hbefore,
      nPats', hparams => by
      obtain rfl := Option.some.inj (htries.params.symm.trans hparams)
      have hcomes : Comes defMap m.matchPats focus.expr.args env := by
        rcases Nat.eq_zero_or_pos nPats with hzero | hpos
        · obtain hnil := List.eq_nil_of_length_eq_zero (hlength.trans hzero)
          rw [hnil] at hfits ⊢
          cases hfits
          exact Comes.nil _
        · obtain ⟨a, as, hargs, hfirst⟩ := htries.args hpos
          have henough := htries.enough
          rw [hargs, List.length_cons] at henough
          rw [hargs]
          exact hfits.comes hfirst (by omega)
      rw [← hlength]
      exact hcomes.rewrites htries.defined (List.mem_of_getElem? hequation)

end

/-- The focused place after an evaluation, and what stood there before. -/
def Reached (defMap : DefMap) (focus focus' : Focus) : Prop :=
  ∃ e, plug focus'.context e = rebuild focus ∧ Rewrites defMap e focus'.expr

theorem Reached.rewrites {focus focus' : Focus} (h : Reached defMap focus focus') :
    Rewrites defMap (rebuild focus) (rebuild focus') := by
  obtain ⟨e, he, hrewrites⟩ := h
  rw [← he]
  exact hrewrites.plug focus'.context

private theorem Reached.of_rebuild {focus focus' focus'' : Focus}
    (h : Reached defMap focus' focus'')
    (hwhole : rebuild focus' = rebuild focus) : Reached defMap focus focus'' := by
  obtain ⟨e, he, hrewrites⟩ := h
  exact ⟨e, he.trans hwhole, hrewrites⟩

theorem Evaluates.reached {focus : Focus} {r : Option Focus} :
    Evaluates defMap focus r → ∀ {focus' : Focus}, r = some focus' → Reached defMap focus focus'
  | @Evaluates.contract _ focus nPats k e' hparams hcontracts, focus', hr => by
      obtain rfl := Option.some.inj hr
      exact ⟨_, rebuild_redexOf focus nPats, hcontracts.rewrites hparams⟩
  | .move hnone hmove hrest, focus', hr => (hrest.reached hr).of_rebuild (rebuild_elsewhere hmove)
  | .stop hnone hstop, focus', hr => by cases hr

/-! ## Equations that clash -/

/-- The arguments come to terms that clash with the patterns. -/
def Rejected (defMap : DefMap) (pats : List Pat) (args : List Expr) : Prop :=
  ∃ args', List.Forall₂ (Rewrites defMap) args args' ∧
    ∃ (i : Nat) (p : Pat) (e : Expr), pats[i]? = some p ∧ args'[i]? = some e ∧ Clash p e

/-- The arguments of one application, each reduced in its place, come to a clash. -/
inductive Clashes (defMap : DefMap) : List Pat → Focus → Prop where
  | clash {p : Pat} {ps : List Pat} {focus : Focus} (hclash : verdict p focus.expr = .clash) :
      Clashes defMap (p :: ps) focus
  | next {p : Pat} {ps : List Pat} {e a b : Expr} {ctx : Context} {env₁ : MatchEnv}
      (hfit : verdict p a = .fit env₁)
      (hrest : Clashes defMap ps ⟨b, .appRight (.app e a) ctx⟩) :
      Clashes defMap (p :: ps) ⟨a, .appRight e (.appLeft ctx b)⟩
  | reduce {p : Pat} {ps : List Pat} {focus : Focus} {k : Nat} {e' : Expr}
      (hundecided : verdict p focus.expr = .undecided)
      (hwhole : countParams defMap focus.expr.head.name = some focus.expr.args.length)
      (hcontracts : Contracts defMap focus k e')
      (hagain : Clashes defMap (p :: ps) (changeExpr e' focus)) : Clashes defMap (p :: ps) focus

theorem Clashes.ne_nil {pats : List Pat} {focus : Focus} (h : Clashes defMap pats focus) :
    pats ≠ [] := by
  cases h <;> exact List.cons_ne_nil _ _

theorem Clashes.rejects {pats : List Pat} {focus : Focus} (h : Clashes defMap pats focus) :
    Rejects defMap pats focus := by
  induction h with
  | clash hclash => exact .clash hclash
  | next hfit hrest ih => exact .next hfit hrest.ne_nil rfl ih
  | reduce hundecided hwhole hcontracts _ ih => exact .reduce hundecided hwhole hcontracts ih

/-- The arguments of the head in focus. -/
def spineArgs : Context → List Expr
  | .appLeft ctx e => e :: spineArgs ctx
  | _ => []

theorem spineArgs_spine (ctx : Context) (es : List Expr) :
    spineArgs (spine ctx es) = es ++ spineArgs ctx := by
  induction es with
  | nil => rfl
  | cons e es ih => rw [spine, spineArgs, ih, List.cons_append]

private theorem Rejected.of_clash {p : Pat} {ps : List Pat} {a : Expr} {args : List Expr}
    (h : verdict p a = .clash) : Rejected defMap (p :: ps) (a :: args) :=
  ⟨a :: args, List.forall₂_same.mpr fun _ _ => .refl, 0, p, a, rfl, rfl,
    clash_of_notMatchable (notMatchable_of_verdict h)⟩

theorem Rejected.cons {p : Pat} {ps : List Pat} {a : Expr} {args : List Expr}
    (h : Rejected defMap ps args) : Rejected defMap (p :: ps) (a :: args) := by
  obtain ⟨args', hrewrites, i, p', e', hp', he', hclash⟩ := h
  exact ⟨a :: args', .cons .refl hrewrites, i + 1, p', e', hp', he', hclash⟩

theorem Rejected.head {pats : List Pat} {a a' : Expr} {args : List Expr}
    (h : Rejected defMap pats (a' :: args)) (hrewrites : Rewrites defMap a a') :
    Rejected defMap pats (a :: args) := by
  obtain ⟨args', hall, hclash⟩ := h
  cases hall with
  | cons hhead htail => exact ⟨_, .cons (hrewrites.trans hhead) htail, hclash⟩

theorem Clashes.rejected {pats : List Pat} {focus : Focus} (h : Clashes defMap pats focus)
    {e a : Expr} {ctx : Context} (hfocus : focus = ⟨a, .appRight e ctx⟩) :
    Rejected defMap pats (a :: spineArgs ctx) := by
  induction h generalizing e a ctx with
  | clash hclash =>
      subst hfocus
      exact Rejected.of_clash hclash
  | next hfit hrest ih =>
      obtain ⟨rfl, hctx⟩ := Focus.mk.inj hfocus
      obtain ⟨rfl, rfl⟩ := Context.appRight.inj hctx
      exact (ih rfl).cons
  | reduce hundecided hwhole hcontracts _ ih =>
      subst hfocus
      have hreduced := hcontracts.rewrites hwhole
      rw [List.take_length, ApTerm.apply_head_args] at hreduced
      exact (ih rfl).head hreduced

/-- The evaluation comes to a contraction, and there the equations before the one that
fits clash. -/
inductive Decided (defMap : DefMap) : Focus → Prop where
  | contract {focus first : Focus} {equations : List Match} {nPats k : Nat} {m : Match}
      {env : MatchEnv} (htries : Tries defMap focus equations first nPats)
      (hequation : equations[k]? = some m) (hlength : m.matchPats.length = nPats)
      (hfits : Fits defMap m.matchPats first env) (hargs : 0 < k → 0 < nPats)
      (hbefore : ∀ m' ∈ equations.take k, Clashes defMap m'.matchPats first) :
      Decided defMap focus
  | move {focus focus' : Focus}
      (hnone : ∀ equations first nPats, Tries defMap focus equations first nPats →
        ∀ m ∈ equations, Rejects defMap m.matchPats first)
      (hmove : elsewhere defMap focus = some focus') (hrest : Decided defMap focus') :
      Decided defMap focus

theorem Decided.straight {focus : Focus} (h : Decided defMap focus) : Straight defMap focus := by
  induction h with
  | contract htries hequation hlength hfits hargs hbefore =>
      exact ⟨_, .contract htries.params
        (.intro htries hequation hlength hfits fun m' hm' => (hbefore m' hm').rejects)⟩
  | move hnone hmove _ ih =>
      obtain ⟨r, hr⟩ := ih
      exact ⟨r, .move hnone hmove hr⟩

end Mimuw.Functional.Zipper
