import Mimuw.Functional.ZipperTrace

/-!
# The history of the zipper evaluator

Each focus of a history comes from an earlier one: by moves, which leave the whole
expression as it is, and perhaps a contraction at the place where they lead.  The
head of an application is as deep below its focus as it has arguments, so that the
moves that are taken for possible are.
-/

namespace Mimuw.Functional.Zipper

open Mimuw.Lib Relation

/-! ## Moves and contractions -/

inductive Move : Focus → Focus → Prop where
  | left {focus focus' : Focus} (h : goLeft focus = some focus') : Move focus focus'
  | right {focus focus' : Focus} (h : goRight focus = some focus') : Move focus focus'
  | up {focus focus' : Focus} (h : goUp focus = some focus') : Move focus focus'
  | nextArg {focus focus' : Focus} (h : goToTheNextArg focus = some focus') : Move focus focus'
  | upperArg {focus focus' : Focus} (h : goToUpperArg focus = some focus') : Move focus focus'

/-- All equations of a name have the same number of patterns. -/
def SameArity (defMap : DefMap) : Prop :=
  ∀ name d, defMap name = some d → ∀ m ∈ d.defMatches, ∀ m' ∈ d.defMatches,
    m.matchPats.length = m'.matchPats.length

/-- The focused application has as many arguments as the equations of its head have
patterns, and is replaced by the right-hand side of one that the matcher takes. -/
def Contraction (defMap : DefMap) (focus focus' : Focus) : Prop :=
  ∃ (d : Def) (k : Nat) (m : Match) (first : Focus) (env : MatchEnv) (n : Nat)
    (st st' : EvalState) (events : List Event), defMap focus.expr.head.name = some d ∧
    d.defMatches[k]? = some m ∧ m.matchPats.length = focus.expr.args.length ∧
    (m.matchPats = [] ∨ goToTheNextArg (leftOf focus) = some first) ∧
    matchWithReductionFocus defMap n m.matchPats first st = .done (some env) st' events ∧
    focus' = changeExpr (subst env m.matchRhs) focus

/-- The focus comes from one of the earlier ones. -/
def Obtained (defMap : DefMap) (earlier : List Focus) (focus : Focus) : Prop :=
  ∃ focus₁ ∈ earlier, ∃ focus₂, ReflTransGen Move focus₁ focus₂ ∧
    (focus = focus₂ ∨ Contraction defMap focus₂ focus)

def Linked (defMap : DefMap) (history : List Focus) : Prop :=
  ∀ focus earlier, focus :: earlier <:+ history → earlier ≠ [] → Obtained defMap earlier focus

def AllLinked (defMap : DefMap) (log : Log) : Prop := ∀ history ∈ log, Linked defMap history

section Moves

variable {focus focus' : Focus} {defMap : DefMap} {history : List Focus}

private theorem rebuild_goUp (h : goUp focus = some focus') : rebuild focus' = rebuild focus := by
  obtain ⟨e, ctx⟩ := focus
  cases ctx with
  | top => cases h
  | appLeft ctx e₂ =>
      obtain rfl := Option.some.inj h
      rfl
  | appRight e₁ ctx =>
      obtain rfl := Option.some.inj h
      rfl

theorem Move.rebuild (h : Move focus focus') : rebuild focus' = rebuild focus := by
  cases h with
  | up h => exact rebuild_goUp h
  | nextArg h => exact rebuild_goToTheNextArg h
  | upperArg h => exact rebuild_goToUpperArg h
  | left h =>
      obtain ⟨e, ctx⟩ := focus
      cases e with
      | atom a => cases h
      | app e₁ e₂ =>
          obtain rfl := Option.some.inj h
          rfl
  | right h =>
      obtain ⟨e, ctx⟩ := focus
      cases e with
      | atom a => cases h
      | app e₁ e₂ =>
          obtain rfl := Option.some.inj h
          rfl

private theorem moves_leftOf (focus : Focus) : ReflTransGen Move focus (leftOf focus) := by
  obtain ⟨e, ctx⟩ := focus
  induction e generalizing ctx with
  | atom a => exact .refl
  | app e₁ e₂ ih _ =>
      have hleft : leftOf ⟨.app e₁ e₂, ctx⟩ = leftOf ⟨e₁, .appLeft ctx e₂⟩ := by
        simp only [leftOf, ApTerm.head_app, ApTerm.args_app, spine_append]
      rw [hleft]
      exact .head (.left rfl) (ih (.appLeft ctx e₂))

private theorem moves_goUpNSteps {n : Nat} (h : goUpNSteps focus n = some focus') :
    ReflTransGen Move focus focus' := by
  induction n generalizing focus with
  | zero =>
      obtain rfl := Option.some.inj h
      exact .refl
  | succ n ih =>
      obtain ⟨next, hup, hrest⟩ := Option.bind_eq_some_iff.mp h
      exact .head (.up hup) (ih hrest)

theorem Linked.cons (h : Linked defMap history) (hfocus : Obtained defMap history focus) :
    Linked defMap (focus :: history) := by
  intro focus' earlier hsuffix hne
  rcases List.suffix_cons_iff.mp hsuffix with heq | hsuffix
  · obtain ⟨rfl, rfl⟩ := List.cons.inj heq
    exact hfocus
  · exact h focus' earlier hsuffix hne

private theorem linked_singleton (defMap : DefMap) (focus : Focus) : Linked defMap [focus] := by
  intro focus' earlier hsuffix hne
  rcases List.suffix_cons_iff.mp hsuffix with heq | hsuffix
  · exact absurd (List.cons.inj heq).2 hne
  · cases List.suffix_nil.mp hsuffix

end Moves

/-! ## The application that is contracted -/

section Redex

variable {focus : Focus} {nPats : Nat}

private theorem spine_spine (ctx : Context) (es rest : List Expr) :
    spine (spine ctx rest) es = spine ctx (es ++ rest) := by
  induction es with
  | nil => rfl
  | cons e es ih => rw [spine, ih, List.cons_append, spine]

private theorem head_redexOf (focus : Focus) (nPats : Nat) :
    (redexOf focus nPats).expr.head = focus.expr.head :=
  ApTerm.head_apply _ _

private theorem args_redexOf (focus : Focus) (nPats : Nat) :
    (redexOf focus nPats).expr.args = focus.expr.args.take nPats :=
  ApTerm.args_apply _ _

private theorem leftOf_redexOf (focus : Focus) (nPats : Nat) :
    leftOf (redexOf focus nPats) = leftOf focus := by
  rw [leftOf, head_redexOf, args_redexOf, redexOf, spine_spine, List.take_append_drop, leftOf]

private theorem moves_redexOf (h : nPats ≤ focus.expr.args.length) :
    ReflTransGen Move focus (redexOf focus nPats) :=
  (moves_leftOf focus).trans (moves_goUpNSteps (goUpNSteps_redexOf h))

end Redex

/-! ## Rules -/

/-- From that state the traced computation ends as the other one, it makes linked histories,
and `fromJust` never gets `Nothing`. -/
structure Follows {α : Type} (defMap : DefMap) (st : EvalState) (m : Traced α) (m' : Eval α)
    (Q : α → EvalState → Prop) : Prop where
  same : (m st).2 = m' st
  linked : AllLinked defMap (m st).1
  noError : m' st ≠ .error
  ends : ∀ a st' events, m' st = .done a st' events → Q a st'

namespace Follows

variable {α β : Type} {defMap : DefMap} {st : EvalState} {Q : α → EvalState → Prop}

theorem outOfFuel : Follows defMap st (Traced.lift Eval.outOfFuel) Eval.outOfFuel Q := by
  refine ⟨rfl, fun history h => ?_, fun h => ?_, fun a st' events h => ?_⟩ <;> cases h

theorem pure {a : α} (h : Q a st) : Follows defMap st (Pure.pure a) (Pure.pure a) Q := by
  refine ⟨rfl, fun history hmem => ?_, fun herror => ?_, fun b st' events hdone => ?_⟩
  · cases hmem
  · cases herror
  · obtain ⟨rfl, rfl, -⟩ := pure_eq_done.mp hdone
    exact h

theorem lift {m : Eval α} {a : α} {st' : EvalState} {events : List Event}
    (h : m st = .done a st' events) :
    Follows defMap st (Traced.lift m) m fun b st₁ => a = b ∧ st' = st₁ := by
  refine ⟨rfl, fun history hmem => ?_, fun herror => ?_, fun b st₁ events₁ hdone => ?_⟩
  · cases hmem
  · cases h.symm.trans herror
  · obtain ⟨rfl, rfl, -⟩ := Outcome.done.inj (h.symm.trans hdone)
    exact ⟨rfl, rfl⟩

theorem addFocus {focus : Focus} (h : Linked defMap st.history)
    (hfocus : Obtained defMap st.history focus) :
    Follows defMap st (Traced.addFocus focus) (Zipper.addFocus focus)
      fun _ st' => st.record focus = st' := by
  refine ⟨rfl, fun history hmem => ?_, fun herror => ?_, fun a st' events hdone => ?_⟩
  · rw [List.mem_singleton.mp hmem]
    exact h.cons hfocus
  · cases herror
  · exact (addFocus_eq_done.mp hdone).1

theorem bind {m : Traced α} {m' : Eval α} {g : α → Traced β} {g' : α → Eval β}
    {R : β → EvalState → Prop} (h : Follows defMap st m m' Q)
    (hthen : ∀ a st' events, m' st = .done a st' events → Q a st' →
      Follows defMap st' (g a) (g' a) R) : Follows defMap st (m >>= g) (m' >>= g') R := by
  have hbind : (m >>= g) st = Traced.bind m g st := rfl
  have hbind' : (m' >>= g') st = Eval.bind m' g' st := rfl
  rw [Traced.bind] at hbind
  rw [Eval.bind] at hbind'
  obtain ⟨hsame, hlinked, hno, hends⟩ := h
  rcases hm : m st with ⟨log, outcome⟩
  rw [hm] at hbind hsame hlinked
  cases outcome with
  | outOfFuel =>
      rw [← hsame] at hbind'
      exact ⟨by rw [hbind, hbind'], by simpa [hbind] using hlinked, by simp [hbind'],
        by simp [hbind']⟩
  | error => exact absurd hsame.symm hno
  | done a st₁ events =>
      obtain ⟨hsame', hlinked', hno', hends'⟩ := hthen a st₁ events hsame.symm
        (hends a st₁ events hsame.symm)
      rcases hg : g a st₁ with ⟨log', outcome'⟩
      rw [hg] at hsame' hlinked'
      simp only [hg] at hbind
      simp only [← hsame, ← hsame'] at hbind'
      have hlog : AllLinked defMap (log ++ log') :=
        List.forall_mem_append.mpr ⟨hlinked, hlinked'⟩
      cases outcome' with
      | outOfFuel =>
          exact ⟨by rw [hbind, hbind'], by simpa only [hbind] using hlog, by simp [hbind'],
            by simp [hbind']⟩
      | error => exact absurd hsame'.symm hno'
      | done b st₂ events' =>
          refine ⟨by rw [hbind, hbind'], by simpa only [hbind] using hlog, by simp [hbind'],
            fun b' st' events'' hdone => ?_⟩
          rw [hbind'] at hdone
          obtain ⟨rfl, rfl, -⟩ := Outcome.done.inj hdone
          exact hends' b st₂ events' hsame'.symm

theorem mono {m : Traced α} {m' : Eval α} {R : α → EvalState → Prop}
    (h : Follows defMap st m m' Q) (hQR : ∀ a st', Q a st' → R a st') :
    Follows defMap st m m' R :=
  ⟨h.same, h.linked, h.noError, fun a st' events hdone => hQR a st' (h.ends a st' events hdone)⟩

end Follows

/-! ## The calls -/

structure Sound (defMap : DefMap) (st : EvalState) : Prop where
  linked : Linked defMap st.history
  current : st.currentFocus ∈ st.history

/-- A state with a longer history. -/
structure Later (defMap : DefMap) (st st' : EvalState) : Prop where
  sound : Sound defMap st'
  longer : st.history <:+ st'.history

/-- The focus is reached by moves from one in the history. -/
def Based (st : EvalState) (focus : Focus) : Prop :=
  ∃ focus₁ ∈ st.history, ReflTransGen Move focus₁ focus

def Stepped (defMap : DefMap) (st : EvalState) (r : Option Focus) (st' : EvalState) : Prop :=
  Later defMap st st' ∧ ∀ focus, r = some focus → focus ∈ st'.history

section States

variable {defMap : DefMap} {st st' st'' : EvalState} {focus focus' : Focus} {r : Option Focus}

theorem Later.refl (h : Sound defMap st) : Later defMap st st := ⟨h, List.suffix_rfl⟩

theorem Later.trans (h : Later defMap st st') (h' : Later defMap st' st'') :
    Later defMap st st'' :=
  ⟨h'.sound, h.longer.trans h'.longer⟩

private theorem Later.stepped (h : Later defMap st st') (h' : Stepped defMap st' r st'') :
    Stepped defMap st r st'' :=
  ⟨h.trans h'.1, h'.2⟩

theorem Based.later (h : Based st focus) (hlater : Later defMap st st') : Based st' focus := by
  obtain ⟨focus₁, hmem, hmoves⟩ := h
  exact ⟨focus₁, hlater.longer.subset hmem, hmoves⟩

theorem Based.moves (h : Based st focus) (hmoves : ReflTransGen Move focus focus') :
    Based st focus' := by
  obtain ⟨focus₁, hmem, hmoves₁⟩ := h
  exact ⟨focus₁, hmem, hmoves₁.trans hmoves⟩

theorem Based.move (h : Based st focus) (hmove : Move focus focus') : Based st focus' :=
  h.moves (.single hmove)

private theorem Based.obtained (h : Based st focus) : Obtained defMap st.history focus := by
  obtain ⟨focus₁, hmem, hmoves⟩ := h
  exact ⟨focus₁, hmem, focus, hmoves, .inl rfl⟩

private theorem based_of_mem (h : focus ∈ st.history) : Based st focus := ⟨focus, h, .refl⟩

theorem Sound.record (h : Sound defMap st) (hfocus : Obtained defMap st.history focus) :
    Later defMap st (st.record focus) :=
  ⟨⟨h.linked.cons hfocus, List.mem_cons_self⟩, List.suffix_cons focus st.history⟩

end States

/-- The calls with that fuel of the model, from a focus that is based on the history. -/
structure CallsFollow (defMap : DefMap) (n : Nat) : Prop where
  step : ∀ st focus, Sound defMap st → Based st focus →
    Follows defMap st (Traced.rstepFocus defMap n focus) (rstepFocus defMap n focus)
      (Stepped defMap st)
  reduceWith : ∀ st focus d first nPats, Sound defMap st → Based st focus →
    defMap focus.expr.head.name = some d → countParams defMap focus.expr.head.name = some nPats →
    nPats ≤ focus.expr.args.length →
    (nPats = 0 ∧ first = leftOf focus ∨ goToTheNextArg (leftOf focus) = some first) →
    Follows defMap st (Traced.reduceWith defMap n d.defMatches first (leftOf focus) nPats)
      (reduceWith defMap n d.defMatches first (leftOf focus) nPats) (Stepped defMap st)
  upper : ∀ st focus, Sound defMap st → Based st focus →
    Follows defMap st (Traced.reduceUpperFocus defMap n focus (leftOf focus))
      (reduceUpperFocus defMap n focus (leftOf focus)) (Stepped defMap st)
  args : ∀ st focus, Sound defMap st → Based st focus →
    Follows defMap st (Traced.reduceArgsFocus defMap n focus) (reduceArgsFocus defMap n focus)
      (Stepped defMap st)
  untilMatch : ∀ st ms focus, Sound defMap st → Based st focus →
    Follows defMap st (Traced.reduceUntilMatchFocus defMap n ms focus)
      (reduceUntilMatchFocus defMap n ms focus) fun _ => Later defMap st
  matching : ∀ st pats focus, Sound defMap st → Based st focus →
    Follows defMap st (Traced.matchWithReductionFocus defMap n pats focus)
      (matchWithReductionFocus defMap n pats focus) fun _ => Later defMap st

namespace CallsFollow

variable {defMap : DefMap} {n : Nat} {st : EvalState} {focus : Focus}

theorem move (h : CallsFollow defMap n) (hst : Sound defMap st) (hfocus : Based st focus) :
    Follows defMap st (do Traced.addFocus focus; Traced.rstepFocus defMap n focus)
      (do addFocus focus; rstepFocus defMap n focus) (Stepped defMap st) := by
  have hlater : Later defMap st (st.record focus) := hst.record hfocus.obtained
  refine (Follows.addFocus hst.linked hfocus.obtained).bind fun _ st₁ _ _ hst₁ => ?_
  subst hst₁
  have hstep := h.step (st.record focus) focus hlater.sound (hfocus.later hlater)
  exact hstep.mono fun r st' hstepped => hlater.stepped hstepped

theorem args_succ (h : CallsFollow defMap n) (hst : Sound defMap st) (hfocus : Based st focus) :
    Follows defMap st (Traced.reduceArgsFocus defMap (n + 1) focus)
      (reduceArgsFocus defMap (n + 1) focus) (Stepped defMap st) := by
  rw [Traced.reduceArgsFocus, reduceArgsFocus]
  cases hnext : goToTheNextArg focus with
  | none => exact Follows.pure ⟨Later.refl hst, fun focus hnone => by cases hnone⟩
  | some nextFocus => exact h.move hst (hfocus.move (.nextArg hnext))

theorem upper_succ (h : CallsFollow defMap n) (hst : Sound defMap st) (hfocus : Based st focus) :
    Follows defMap st (Traced.reduceUpperFocus defMap (n + 1) focus (leftOf focus))
      (reduceUpperFocus defMap (n + 1) focus (leftOf focus)) (Stepped defMap st) := by
  rw [Traced.reduceUpperFocus, reduceUpperFocus]
  cases hupper : goToUpperArg focus with
  | none => exact h.args st (leftOf focus) hst (hfocus.moves (moves_leftOf focus))
  | some upperFocus => exact h.move hst (hfocus.move (.upperArg hupper))

/-- The equation found is one of the name, and all of them have that number of patterns. -/
theorem contraction {d : Def} {first : Focus} {nPats k m : Nat} {e' : Expr} {st₁ : EvalState}
    {events : List Event} (harity : SameArity defMap)
    (hdef : defMap focus.expr.head.name = some d)
    (hcount : countParams defMap focus.expr.head.name = some nPats)
    (hle : nPats ≤ focus.expr.args.length)
    (hfirst : nPats = 0 ∧ first = leftOf focus ∨ goToTheNextArg (leftOf focus) = some first)
    (hres : reduceUntilMatchFocus defMap m d.defMatches first st =
      .done (some (k, e')) st₁ events) :
    Contraction defMap (redexOf focus nPats) (changeExpr e' (redexOf focus nPats)) := by
  rcases reduceUntilMatchFocus_cases hres with ⟨hnone, -⟩ |
    ⟨k', eqn, env, j, st₂, events₁, hfound, hk, -, -, hmatch, -⟩
  · cases hnone
  · obtain ⟨rfl, rfl⟩ := Prod.mk.inj (Option.some.inj hfound)
    have hlength : eqn.matchPats.length = nPats := by
      obtain ⟨ms⟩ := d
      cases ms with
      | nil => cases hk
      | cons m₀ ms =>
          rw [countParams, hdef, Option.some.injEq] at hcount
          rw [← hcount]
          exact harity _ _ hdef eqn (List.mem_of_getElem? hk) m₀ List.mem_cons_self
    refine ⟨d, k, eqn, first, env, j, st, st₂, events₁, ?_, hk, ?_, ?_, hmatch, rfl⟩
    · rw [head_redexOf, hdef]
    · rw [args_redexOf, List.length_take, hlength, Nat.min_eq_left hle]
    · rw [leftOf_redexOf]
      refine hfirst.imp_left fun hzero => ?_
      exact List.eq_nil_of_length_eq_zero (hlength.trans hzero.1)

theorem reduceWith_succ (harity : SameArity defMap) (h : CallsFollow defMap n)
    (hst : Sound defMap st) (hfocus : Based st focus) {d : Def} {first : Focus} {nPats : Nat}
    (hdef : defMap focus.expr.head.name = some d)
    (hcount : countParams defMap focus.expr.head.name = some nPats)
    (hle : nPats ≤ focus.expr.args.length)
    (hfirst : nPats = 0 ∧ first = leftOf focus ∨ goToTheNextArg (leftOf focus) = some first) :
    Follows defMap st
      (Traced.reduceWith defMap (n + 1) d.defMatches first (leftOf focus) nPats)
      (Zipper.reduceWith defMap (n + 1) d.defMatches first (leftOf focus) nPats)
      (Stepped defMap st) := by
  have hleft : Based st (leftOf focus) := hfocus.moves (moves_leftOf focus)
  have hbased : Based st first := by
    rcases hfirst with ⟨-, rfl⟩ | hnext
    · exact hleft
    · exact hleft.move (.nextArg hnext)
  rw [Traced.reduceWith, Zipper.reduceWith]
  refine (h.untilMatch st d.defMatches first hst hbased).bind fun res st₁ events hres hlater => ?_
  cases res with
  | none =>
      have hargs := h.args st₁ (leftOf focus) hlater.sound (hleft.later hlater)
      exact hargs.mono fun r st' hstepped => hlater.stepped hstepped
  | some found =>
      obtain ⟨k, e'⟩ := found
      simp only [goUpNSteps_redexOf hle]
      have hobtained : Obtained defMap st₁.history (changeExpr e' (redexOf focus nPats)) := by
        obtain ⟨focus₁, hmem, hmoves⟩ := hfocus.later hlater
        exact ⟨focus₁, hmem, redexOf focus nPats, hmoves.trans (moves_redexOf hle),
          .inr (contraction harity hdef hcount hle hfirst hres)⟩
      refine (Follows.addFocus hlater.sound.linked hobtained).bind fun _ st₂ _ _ hst₂ => ?_
      subst hst₂
      refine (Follows.lift rfl).bind fun _ st₃ _ _ hst₃ => Follows.pure ?_
      obtain ⟨-, rfl⟩ := hst₃
      refine ⟨hlater.trans (hlater.sound.record hobtained), fun focus' hsome => ?_⟩
      obtain rfl := Option.some.inj hsome
      exact List.mem_cons_self

theorem step_succ (h : CallsFollow defMap n) (hst : Sound defMap st) (hfocus : Based st focus) :
    Follows defMap st (Traced.rstepFocus defMap (n + 1) focus) (rstepFocus defMap (n + 1) focus)
      (Stepped defMap st) := by
  have hargs := h.args st (leftOf focus) hst (hfocus.moves (moves_leftOf focus))
  rw [Traced.rstepFocus, rstepFocus, leftMostFocusSteps_eq]
  simp only [leftOf_expr, decomposeExpr_eq, ApTerm.head_atom]
  cases hfilter : (countParams defMap focus.expr.head.name).filter
      (· ≤ focus.expr.args.length) with
  | none =>
      cases defMap focus.expr.head.name with
      | none => exact hargs
      | some d =>
          cases focus.expr.head with
          | con c => exact hargs
          | var x => exact h.upper st focus hst hfocus
  | some nPats =>
      obtain ⟨hcount, hle⟩ := Option.filter_eq_some_iff.mp hfilter
      have hle : nPats ≤ focus.expr.args.length := by simpa using hle
      cases hdef : defMap focus.expr.head.name with
      | none => exact hargs
      | some d =>
          by_cases hzero : nPats = 0
          · simp only [if_pos hzero]
            exact h.reduceWith st focus d (leftOf focus) nPats hst hfocus hdef hcount hle
              (.inl ⟨hzero, rfl⟩)
          · -- there are arguments, so that the head is not the whole expression
            obtain ⟨first, hnext, -⟩ :=
              goToTheNextArg_leftOf (show 0 < focus.expr.args.length by omega)
            simp only [if_neg hzero, hnext]
            exact h.reduceWith st focus d first nPats hst hfocus hdef hcount hle (.inr hnext)

theorem untilMatch_succ (h : CallsFollow defMap n) (hst : Sound defMap st) (ms : List Match)
    (hfocus : Based st focus) :
    Follows defMap st (Traced.reduceUntilMatchFocus defMap (n + 1) ms focus)
      (reduceUntilMatchFocus defMap (n + 1) ms focus) fun _ => Later defMap st := by
  cases ms with
  | nil => exact Follows.pure (Later.refl hst)
  | cons m ms =>
      rw [Traced.reduceUntilMatchFocus, reduceUntilMatchFocus]
      refine (Follows.lift rfl).bind fun old st₁ _ _ hget => ?_
      obtain ⟨rfl, rfl⟩ := hget
      refine (h.matching _ m.matchPats focus hst hfocus).bind fun subEnv st₂ _ _ hlater => ?_
      cases subEnv with
      | some env => exact Follows.pure hlater
      | none =>
          -- the history is the one from before this equation again
          refine (Follows.lift rfl).bind fun _ st₃ _ _ hput => ?_
          obtain ⟨-, rfl⟩ := hput
          refine (h.untilMatch _ ms focus hst hfocus).bind fun res st₄ _ _ hlater => ?_
          exact Follows.pure hlater

theorem matching_succ (h : CallsFollow defMap n) (hst : Sound defMap st) (pats : List Pat)
    (hfocus : Based st focus) :
    Follows defMap st (Traced.matchWithReductionFocus defMap (n + 1) pats focus)
      (matchWithReductionFocus defMap (n + 1) pats focus) fun _ => Later defMap st := by
  cases pats with
  | nil => exact Follows.pure (Later.refl hst)
  | cons p ps =>
      rw [Traced.matchWithReductionFocus, matchWithReductionFocus]
      split_ifs with hnot
      · exact Follows.pure (Later.refl hst)
      · cases matchPat p focus.expr (fun _ => none) with
        | mk fits env₁ =>
            cases fits with
            | true =>
                cases ps with
                | nil => exact Follows.pure (Later.refl hst)
                | cons p' ps =>
                    cases hnext : goToTheNextArg focus with
                    | none => exact Follows.pure (Later.refl hst)
                    | some nextFocus =>
                        have hrest := h.matching st (p' :: ps) nextFocus hst
                          (hfocus.move (.nextArg hnext))
                        exact hrest.bind fun envRest st₁ _ _ hlater => Follows.pure hlater
            | false =>
                refine (h.step st focus hst hfocus).bind fun rFocus st₁ _ _ hstepped => ?_
                refine (Follows.lift rfl).bind fun _ st₂ _ _ hnote => ?_
                obtain ⟨-, rfl⟩ := hnote
                cases rFocus with
                | none => exact Follows.pure hstepped.1
                | some rFocus' =>
                    have hagain := h.matching st₁ (p :: ps) rFocus' hstepped.1.sound
                      (based_of_mem (hstepped.2 rFocus' rfl))
                    exact hagain.mono fun _ st' hlater => hstepped.1.trans hlater

end CallsFollow

private theorem callsFollow {defMap : DefMap} (harity : SameArity defMap) (n : Nat) :
    CallsFollow defMap n := by
  induction n with
  | zero => constructor <;> intros <;> exact Follows.outOfFuel
  | succ n ih =>
      exact ⟨fun _ _ hst hfocus => ih.step_succ hst hfocus,
        fun _ _ _ _ _ hst hfocus hdef hcount hle hfirst =>
          ih.reduceWith_succ harity hst hfocus hdef hcount hle hfirst,
        fun _ _ hst hfocus => ih.upper_succ hst hfocus,
        fun _ _ hst hfocus => ih.args_succ hst hfocus,
        fun _ ms _ hst hfocus => ih.untilMatch_succ hst ms hfocus,
        fun _ pats _ hst hfocus => ih.matching_succ hst pats hfocus⟩

/-! ## Whole runs -/

private theorem rpath_follows {defMap : DefMap} (harity : SameArity defMap) (n : Nat)
    {st : EvalState} (hst : Sound defMap st) :
    Follows defMap st (Traced.rpath defMap n) (rpath defMap n) fun _ => Later defMap st := by
  induction n generalizing st with
  | zero => exact Follows.outOfFuel
  | succ n ih =>
      rw [Traced.rpath, rpath]
      refine (Follows.lift rfl).bind fun old st₁ _ _ hget => ?_
      obtain ⟨rfl, rfl⟩ := hget
      split_ifs with hfuel
      · exact Follows.pure (Later.refl hst)
      · have hstep := (callsFollow harity n).step _ _ hst (based_of_mem hst.current)
        refine hstep.bind fun nextFocus st₂ _ _ hstepped => ?_
        cases nextFocus with
        | none => exact Follows.pure hstepped.1
        | some focus =>
            refine (Follows.lift rfl).bind fun s st₃ _ _ hget => ?_
            obtain ⟨rfl, rfl⟩ := hget
            refine (Follows.lift rfl).bind fun _ st₄ _ _ hput => ?_
            obtain ⟨-, rfl⟩ := hput
            have hpaid : Later defMap st { st₂ with fuel := st₂.fuel - 1 } :=
              ⟨⟨hstepped.1.sound.linked, hstepped.1.sound.current⟩, hstepped.1.longer⟩
            exact (ih hpaid.sound).mono fun _ st' hlater => hpaid.trans hlater

private theorem sound_initState (defMap : DefMap) (expr : Expr) (maxFuel : Int) :
    Sound defMap (initState expr maxFuel) :=
  ⟨linked_singleton defMap _, List.mem_singleton_self _⟩

/-- In every run each focus of each history comes from an earlier one, by moves that keep the
whole expression and perhaps a contraction, and `fromJust` never gets `Nothing`. -/
theorem rpath_linked (defMap : DefMap) (harity : SameArity defMap) (expr : Expr) (maxFuel : Int)
    (n : Nat) :
    (∀ focus focus', Move focus focus' → rebuild focus' = rebuild focus) ∧
    (Traced.rpath defMap n (initState expr maxFuel)).2 =
      rpath defMap n (initState expr maxFuel) ∧
    rpath defMap n (initState expr maxFuel) ≠ .error ∧
    AllLinked defMap (histories defMap n (initState expr maxFuel)) ∧
    ∀ st' events, rpath defMap n (initState expr maxFuel) = .done () st' events →
      Linked defMap st'.history := by
  have hstart := sound_initState defMap expr maxFuel
  obtain ⟨hsame, hlinked, hno, hends⟩ := rpath_follows harity n hstart
  exact ⟨fun _ _ hmove => hmove.rebuild, hsame, hno,
    List.forall_mem_cons.mpr ⟨hstart.linked, hlinked⟩,
    fun st' events hdone => (hends () st' events hdone).sound.linked⟩

/-- `add Z m = m` -/
def addZero : Match := ⟨"add", [.papp "Z" [], .pvar "m"], .atom (.var "m")⟩

/-- `add (S n) m = S (add n m)` -/
def addSucc : Match :=
  ⟨"add", [.papp "S" [.pvar "n"], .pvar "m"], .app (.atom (.con "S"))
    (.app (.app (.atom (.var "add")) (.atom (.var "n"))) (.atom (.var "m")))⟩

def adding : DefMap
  | "add" => some ⟨[addZero, addSucc]⟩
  | _ => none

private theorem sameArity_adding : SameArity adding := by
  intro name d hd m hm m' hm'
  unfold adding at hd
  split at hd
  · obtain rfl := Option.some.inj hd
    have hlength {m : Match} (h : m ∈ [addZero, addSucc]) : m.matchPats.length = 2 := by
      rcases List.mem_pair.mp h with rfl | rfl <;> rfl
    rw [hlength hm, hlength hm']
  · cases hd

/-- `add (add Z Z) Z` -/
theorem rpath_linked_adding :
    AllLinked adding (histories adding 30 (initState (.app (.app (.atom (.var "add"))
      (.app (.app (.atom (.var "add")) (.atom (.con "Z"))) (.atom (.con "Z"))))
        (.atom (.con "Z"))) 30)) :=
  (rpath_linked adding sameArity_adding _ 30 30).2.2.2.1

end Mimuw.Functional.Zipper
