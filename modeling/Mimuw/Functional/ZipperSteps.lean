import Mimuw.Functional.Equations

/-!
# What the evaluator can do

The moves of the focus leave the whole expression as it is.  A call of `rstepFocus`
contracts an application with the first equation that the matcher takes, or goes on
at a focus that depends on the program and the focus alone.
-/

namespace Mimuw.Functional.Zipper

open Mimuw.Lib

/-! ## The whole expression -/

def plug : Context → Expr → Expr
  | .top, e => e
  | .appLeft ctx e₂, e => plug ctx (.app e e₂)
  | .appRight e₁ ctx, e => plug ctx (.app e₁ e)

def rebuild (focus : Focus) : Expr := plug focus.context focus.expr

theorem Rewrites.plug {defMap : DefMap} {e e' : Expr} (h : Rewrites defMap e e') (ctx : Context) :
    Rewrites defMap (plug ctx e) (plug ctx e') := by
  induction ctx generalizing e e' with
  | top => exact h
  | appLeft ctx e₂ ih => exact ih (h.app .refl)
  | appRight e₁ ctx ih => exact ih (Rewrites.app .refl h)

private theorem plug_goToTheNextArgFrom {e : Expr} {ctx : Context} {focus : Focus}
    (h : goToTheNextArgFrom e ctx = some focus) : rebuild focus = plug ctx e := by
  induction ctx generalizing e with
  | top => cases h
  | appLeft ctx e₂ _ =>
      obtain rfl := Option.some.inj h
      rfl
  | appRight e₁ ctx ih => exact ih h

theorem rebuild_goToTheNextArg {focus focus' : Focus} (h : goToTheNextArg focus = some focus') :
    rebuild focus' = rebuild focus :=
  plug_goToTheNextArgFrom h

theorem rebuild_goToUpperArg {focus focus' : Focus} (h : goToUpperArg focus = some focus') :
    rebuild focus' = rebuild focus := by
  obtain ⟨e, ctx⟩ := focus
  cases ctx with
  | appLeft ctx e₂ =>
      obtain rfl := Option.some.inj h
      rfl
  | top => cases h
  | appRight e₁ ctx => cases h

/-! ## Arguments -/

/-- The context of a head with these arguments. -/
def spine (ctx : Context) : List Expr → Context
  | [] => ctx
  | e :: es => .appLeft (spine ctx es) e

theorem spine_append (ctx : Context) (es : List Expr) (e : Expr) :
    spine ctx (es ++ [e]) = spine (.appLeft ctx e) es := by
  induction es with
  | nil => rfl
  | cons e' es ih => rw [List.cons_append, spine, ih, spine]

private theorem leftMostHelper_eq (e : Expr) (ctx : Context) (n : Nat) :
    leftMostHelper e ctx n = (⟨.atom e.head, spine ctx e.args⟩, n + e.args.length) := by
  induction e generalizing ctx n with
  | atom a => rfl
  | app f x ihf _ =>
      rw [leftMostHelper, ihf, ApTerm.args_app, ApTerm.head_app, spine_append, List.length_append,
        List.length_singleton]
      congr 1
      omega

private theorem plug_spine (ctx : Context) (es : List Expr) (e : Expr) :
    plug (spine ctx es) e = plug ctx (es.foldl .app e) := by
  induction es generalizing e with
  | nil => rfl
  | cons e' es ih => exact ih (.app e e')

def leftOf (focus : Focus) : Focus := ⟨.atom focus.expr.head, spine focus.context focus.expr.args⟩

theorem leftOf_expr (focus : Focus) : (leftOf focus).expr = .atom focus.expr.head := rfl

theorem leftMostFocusSteps_eq (focus : Focus) :
    leftMostFocusSteps focus = (leftOf focus, focus.expr.args.length) := by
  rw [leftMostFocusSteps, leftMostHelper_eq, Nat.zero_add]
  rfl

private theorem rebuild_leftOf (focus : Focus) : rebuild (leftOf focus) = rebuild focus := by
  rw [rebuild, leftOf, plug_spine, rebuild]
  exact congrArg _ (ApTerm.apply_head_args focus.expr)

private theorem goUpNSteps_spine (ctx : Context) (e : Expr) (es rest : List Expr) :
    goUpNSteps ⟨e, spine ctx (es ++ rest)⟩ es.length = some ⟨es.foldl .app e, spine ctx rest⟩ := by
  induction es generalizing e with
  | nil => rfl
  | cons e' es ih => exact ih (.app e e')

def redexOf (focus : Focus) (nPats : Nat) : Focus :=
  ⟨ApTerm.apply focus.expr.head (focus.expr.args.take nPats),
    spine focus.context (focus.expr.args.drop nPats)⟩

theorem rebuild_redexOf (focus : Focus) (nPats : Nat) :
    rebuild (redexOf focus nPats) = rebuild focus := by
  rw [rebuild, redexOf, plug_spine, ApTerm.apply, ← List.foldl_append, List.take_append_drop]
  exact congrArg _ (ApTerm.apply_head_args focus.expr)

theorem goUpNSteps_redexOf {focus : Focus} {nPats : Nat}
    (h : nPats ≤ focus.expr.args.length) :
    goUpNSteps (leftOf focus) nPats = some (redexOf focus nPats) := by
  have hsteps := goUpNSteps_spine focus.context (.atom focus.expr.head)
    (focus.expr.args.take nPats) (focus.expr.args.drop nPats)
  rwa [List.take_append_drop, List.length_take, Nat.min_eq_left h] at hsteps

/-! ## Computations that end -/

section Done

variable {α β : Type} {st st' : EvalState} {events : List Event}

theorem bind_eq_done {m : Eval α} {f : α → Eval β} {b : β} :
    (m >>= f) st = .done b st' events ↔ ∃ a st₁ events₁ events₂, m st = .done a st₁ events₁ ∧
      f a st₁ = .done b st' events₂ ∧ events = events₁ ++ events₂ := by
  change Eval.bind m f st = _ ↔ _
  unfold Eval.bind
  cases hm : m st with
  | outOfFuel => simp
  | error => simp
  | done a st₁ events₁ =>
      simp only [Outcome.done.injEq]
      cases hf : f a st₁ with
      | outOfFuel =>
          simp only [reduceCtorEq, false_iff]
          rintro ⟨_, _, _, _, ⟨rfl, rfl, rfl⟩, h, -⟩
          simp [hf] at h
      | error =>
          simp only [reduceCtorEq, false_iff]
          rintro ⟨_, _, _, _, ⟨rfl, rfl, rfl⟩, h, -⟩
          simp [hf] at h
      | done b' st₂ events₂ =>
          simp only [Outcome.done.injEq]
          constructor
          · rintro ⟨rfl, rfl, rfl⟩
            exact ⟨a, st₁, events₁, events₂, ⟨rfl, rfl, rfl⟩, hf, rfl⟩
          · rintro ⟨_, _, _, events₂', ⟨rfl, rfl, rfl⟩, h, rfl⟩
            rw [hf, Outcome.done.injEq] at h
            exact ⟨h.1, h.2.1, by rw [h.2.2]⟩

theorem pure_eq_done {a b : α} : (pure a : Eval α) st = .done b st' events ↔
    a = b ∧ st = st' ∧ [] = events := by
  change Outcome.done a st [] = _ ↔ _
  rw [Outcome.done.injEq]

theorem note_eq_done {event : Event} {u : Unit} :
    Eval.note event st = .done u st' events ↔ st = st' ∧ [event] = events := by
  rw [Eval.note, Outcome.done.injEq]
  simp

theorem get_eq_done {st₁ : EvalState} :
    Eval.get st = .done st₁ st' events ↔ st = st₁ ∧ st = st' ∧ [] = events := by
  rw [Eval.get, Outcome.done.injEq]

theorem put_eq_done {st₁ : EvalState} {u : Unit} :
    Eval.put st₁ st = .done u st' events ↔ st₁ = st' ∧ [] = events := by
  rw [Eval.put, Outcome.done.injEq]
  simp

/-- The state after a move to the focus. -/
def EvalState.record (st : EvalState) (focus : Focus) : EvalState :=
  { st with currentFocus := focus, history := focus :: st.history }

theorem addFocus_eq_done {focus : Focus} {u : Unit} :
    addFocus focus st = .done u st' events ↔ st.record focus = st' ∧ [] = events := by
  change Outcome.done () (st.record focus) [] = _ ↔ _
  rw [Outcome.done.injEq]
  simp

end Done

/-! ## The matcher -/

variable {defMap : DefMap} {n : Nat} {st st' : EvalState} {events : List Event}

theorem matchWithReductionFocus_nil {focus : Focus} {r : Option MatchEnv}
    (h : matchWithReductionFocus defMap n [] focus st = .done r st' events) :
    r = (some fun _ => none) := by
  cases n with
  | zero => cases h
  | succ n =>
      rw [matchWithReductionFocus] at h
      exact (pure_eq_done.mp h).1.symm

/-- What the matcher does with an argument before anything is reduced. -/
inductive Verdict where
  | clash
  | fit (env : MatchEnv)
  | undecided

def verdict (p : Pat) (e : Expr) : Verdict :=
  if notMatchable p e then .clash
  else
    match matchPat p e fun _ => none with
    | (true, env) => .fit env
    | (false, _) => .undecided

theorem notMatchable_of_verdict {p : Pat} {e : Expr} (h : verdict p e = .clash) :
    notMatchable p e = true := by
  rw [verdict] at h
  split_ifs at h with hnot
  · exact hnot
  · split at h <;> cases h

theorem matchPat_of_verdict {p : Pat} {e : Expr} {env : MatchEnv} (h : verdict p e = .fit env) :
    matchPat p e (fun _ => none) = (true, env) := by
  rw [verdict] at h
  split_ifs at h with hnot
  split at h
  · rename_i env' hmatch
    obtain rfl := Verdict.fit.inj h
    exact hmatch
  · cases h

/-- The pattern clashes, or fits and the others are tried, or the argument is reduced
and tried again. -/
theorem matchWithReductionFocus_cases {p : Pat} {ps : List Pat} {focus : Focus}
    {r : Option MatchEnv}
    (h : matchWithReductionFocus defMap n (p :: ps) focus st = .done r st' events) :
    (verdict p focus.expr = .clash ∧ r = none) ∨
      (∃ env₁, verdict p focus.expr = .fit env₁ ∧
        (ps = [] ∧ r = some env₁ ∨ ps ≠ [] ∧ goToTheNextArg focus = none ∧ r = none ∨
          ∃ m focus' envRest, m < n ∧ ps ≠ [] ∧ goToTheNextArg focus = some focus' ∧
            matchWithReductionFocus defMap m ps focus' st = .done envRest st' events ∧
            r = envRest.map (union env₁))) ∨
      verdict p focus.expr = .undecided ∧ ∃ m rFocus st₁ events₁ events₂, m < n ∧
        rstepFocus defMap m focus st = .done rFocus st₁ events₁ ∧
        events = events₁ ++ .reduced focus rFocus :: events₂ ∧
        (rFocus = none ∧ r = none ∨ ∃ rFocus', rFocus = some rFocus' ∧
          matchWithReductionFocus defMap m (p :: ps) rFocus' st₁ = .done r st' events₂) := by
  cases n with
  | zero => cases h
  | succ n =>
      rw [matchWithReductionFocus] at h
      rw [verdict]
      split_ifs at h ⊢ with hnot
      · exact .inl ⟨rfl, (pure_eq_done.mp h).1.symm⟩
      · right
        cases hmatch : matchPat p focus.expr (fun _ => none) with
        | mk fits env₁ =>
            rw [hmatch] at h
            cases fits with
            | true =>
                refine .inl ⟨env₁, rfl, ?_⟩
                cases ps with
                | nil => exact .inl ⟨rfl, (pure_eq_done.mp h).1.symm⟩
                | cons p' ps =>
                    right
                    cases hnext : goToTheNextArg focus with
                    | none =>
                        simp only [hnext] at h
                        exact .inl ⟨List.cons_ne_nil _ _, rfl, (pure_eq_done.mp h).1.symm⟩
                    | some focus' =>
                        simp only [hnext] at h
                        obtain ⟨envRest, st₁, ev₁, ev₂, hrest, hpure, rfl⟩ := bind_eq_done.mp h
                        obtain ⟨rfl, rfl, rfl⟩ := pure_eq_done.mp hpure
                        refine .inr ⟨n, focus', envRest, Nat.lt_succ_self n,
                          List.cons_ne_nil _ _, rfl, ?_, rfl⟩
                        rwa [List.append_nil]
            | false =>
                obtain ⟨rFocus, st₁, ev₁, ev₂, hstep, hnote, rfl⟩ := bind_eq_done.mp h
                obtain ⟨_, st₂, ev₃, ev₄, hnoted, hgo, rfl⟩ := bind_eq_done.mp hnote
                obtain ⟨rfl, rfl⟩ := note_eq_done.mp hnoted
                refine .inr ⟨rfl, n, rFocus, st₁, ev₁, ev₄, Nat.lt_succ_self n, hstep, rfl, ?_⟩
                cases rFocus with
                | none => exact .inl ⟨rfl, (pure_eq_done.mp hgo).1.symm⟩
                | some rFocus' => exact .inr ⟨rFocus', rfl, hgo⟩

/-- Each of the equations is tried from that state, and rejected. -/
def RejectsAll (defMap : DefMap) (n : Nat) (equations : List Match) (focus : Focus)
    (st : EvalState) (events : List Event) : Prop :=
  ∀ m ∈ equations, ∃ j st' events', j < n ∧ events' ⊆ events ∧
    matchWithReductionFocus defMap j m.matchPats focus st = .done none st' events'

theorem RejectsAll.mono {n' : Nat} {equations : List Match} {focus : Focus} {events' : List Event}
    (h : RejectsAll defMap n equations focus st events) (hle : n ≤ n') (hsub : events ⊆ events') :
    RejectsAll defMap n' equations focus st events' := by
  intro m hm
  obtain ⟨j, st₁, events₁, hj, hsub₁, hreject⟩ := h m hm
  exact ⟨j, st₁, events₁, by omega, List.Subset.trans hsub₁ hsub, hreject⟩

/-- The equation taken is the first one that the matcher does not reject; each is
tried from the same state. -/
theorem reduceUntilMatchFocus_cases {ms : List Match} {focus : Focus} {r : Option (Nat × Expr)}
    (h : reduceUntilMatchFocus defMap n ms focus st = .done r st' events) :
    r = none ∧ RejectsAll defMap n ms focus st events ∨
      ∃ k m env j st₁ events₁, r = some (k, subst env m.matchRhs) ∧ ms[k]? = some m ∧ j < n ∧
        events₁ ⊆ events ∧
        matchWithReductionFocus defMap j m.matchPats focus st = .done (some env) st₁ events₁ ∧
        RejectsAll defMap n (ms.take k) focus st events := by
  induction n generalizing ms r st' events with
  | zero => cases h
  | succ n ih =>
      cases ms with
      | nil => exact .inl ⟨(pure_eq_done.mp h).1.symm, by simp [RejectsAll]⟩
      | cons m ms =>
          rw [reduceUntilMatchFocus] at h
          obtain ⟨old, st₁, ev₁, ev₂, hget, htry, rfl⟩ := bind_eq_done.mp h
          obtain ⟨rfl, rfl, rfl⟩ := get_eq_done.mp hget
          obtain ⟨subEnv, st₁, ev₁, ev₃, hmatch, hthen, rfl⟩ := bind_eq_done.mp htry
          cases subEnv with
          | some env =>
              obtain ⟨rfl, rfl, rfl⟩ := pure_eq_done.mp hthen
              exact .inr ⟨0, m, env, n, st₁, ev₁, rfl, rfl, Nat.lt_succ_self n, by simp, hmatch,
                by simp [RejectsAll]⟩
          | none =>
              obtain ⟨_, st₂, ev₄, ev₅, hput, hagain, rfl⟩ := bind_eq_done.mp hthen
              obtain ⟨rfl, rfl⟩ := put_eq_done.mp hput
              obtain ⟨res, st₂, ev₆, ev₇, hrest, hpure, rfl⟩ := bind_eq_done.mp hagain
              obtain ⟨rfl, rfl, rfl⟩ := pure_eq_done.mp hpure
              have hlater : ev₆ ⊆ [] ++ (ev₁ ++ ([] ++ (ev₆ ++ []))) := by
                intro event hevent
                simp [hevent]
              have hfirst {ms' : List Match} (hms' : RejectsAll defMap n ms' focus st ev₆) :
                  RejectsAll defMap (n + 1) (m :: ms') focus st
                    ([] ++ (ev₁ ++ ([] ++ (ev₆ ++ [])))) := by
                intro m' hm'
                rcases List.mem_cons.mp hm' with rfl | hm'
                · exact ⟨n, st₁, ev₁, Nat.lt_succ_self n, by simp, hmatch⟩
                · exact hms'.mono (Nat.le_succ n) hlater m' hm'
              rcases ih hrest with ⟨rfl, hall⟩ |
                ⟨k, m', env, j, st₃, events₁, rfl, hk, hj, hsub, hfits, hall⟩
              · exact .inl ⟨rfl, hfirst hall⟩
              · exact .inr ⟨k + 1, m', env, j, st₃, events₁, rfl, hk, by omega,
                  List.Subset.trans hsub hlater, hfits, hfirst hall⟩

/-! ## The steps -/

def firstArg (focus : Focus) : Option Focus :=
  match focus.expr.args with
  | [] => none
  | e :: es => some ⟨e, .appRight (.atom focus.expr.head) (spine focus.context es)⟩

theorem goToTheNextArg_leftOf {focus : Focus} (h : 0 < focus.expr.args.length) :
    ∃ first, goToTheNextArg (leftOf focus) = some first ∧ firstArg focus = some first := by
  cases hargs : focus.expr.args with
  | nil => simp [hargs] at h
  | cons e es =>
      refine ⟨⟨e, .appRight (.atom focus.expr.head) (spine focus.context es)⟩, ?_, ?_⟩
      · rw [leftOf, hargs]
        rfl
      · rw [firstArg, hargs]

/-- The equations tried at a focus, where the matcher starts, and the number of the
arguments that a contraction takes. -/
structure Tries (defMap : DefMap) (focus : Focus) (equations : List Match) (first : Focus)
    (nPats : Nat) : Prop where
  defined : defMap focus.expr.head.name = some ⟨equations⟩
  params : countParams defMap focus.expr.head.name = some nPats
  enough : nPats ≤ focus.expr.args.length
  start : nPats = 0 ∧ first = leftOf focus ∨ 0 < nPats ∧ firstArg focus = some first

theorem Tries.unique {focus first first' : Focus} {equations equations' : List Match}
    {nPats nPats' : Nat} (h : Tries defMap focus equations first nPats)
    (h' : Tries defMap focus equations' first' nPats') :
    equations = equations' ∧ first = first' ∧ nPats = nPats' := by
  obtain rfl := Option.some.inj (h.params.symm.trans h'.params)
  refine ⟨Def.mk.inj (Option.some.inj (h.defined.symm.trans h'.defined)), ?_, rfl⟩
  rcases h.start with ⟨hzero, hfirst⟩ | ⟨hpos, hfirst⟩
  · rcases h'.start with ⟨-, hfirst'⟩ | ⟨hpos', -⟩
    · exact hfirst.trans hfirst'.symm
    · omega
  · rcases h'.start with ⟨hzero', -⟩ | ⟨-, hfirst'⟩
    · omega
    · exact Option.some.inj (hfirst.symm.trans hfirst')

/-- Where the evaluator goes on when it does not contract: to the enclosing
application when a defined name has too few arguments, else to the next argument. -/
def elsewhere (defMap : DefMap) (focus : Focus) : Option Focus :=
  match (countParams defMap focus.expr.head.name).filter (· ≤ focus.expr.args.length),
    defMap focus.expr.head.name, focus.expr.head with
  | none, some _, .var _ => (goToUpperArg focus).or (goToTheNextArg (leftOf focus))
  | _, _, _ => goToTheNextArg (leftOf focus)

theorem elsewhere_cases (defMap : DefMap) (focus : Focus) :
    elsewhere defMap focus = goToTheNextArg (leftOf focus) ∨
      elsewhere defMap focus = (goToUpperArg focus).or (goToTheNextArg (leftOf focus)) := by
  rw [elsewhere]
  split
  · exact .inr rfl
  · exact .inl rfl

theorem rebuild_elsewhere {focus focus' : Focus} (h : elsewhere defMap focus = some focus') :
    rebuild focus' = rebuild focus := by
  have hargs (h : goToTheNextArg (leftOf focus) = some focus') :
      rebuild focus' = rebuild focus :=
    (rebuild_goToTheNextArg h).trans (rebuild_leftOf focus)
  rcases elsewhere_cases defMap focus with heq | heq
  · exact hargs (heq.symm.trans h)
  · rcases Option.or_eq_some_iff.mp (heq.symm.trans h) with hupper | ⟨-, hnext⟩
    · exact rebuild_goToUpperArg hupper
    · exact hargs hnext

/-- The rest of a call is a call at that focus, or there is none. -/
def Moves (defMap : DefMap) (n : Nat) (next : Option Focus) (r : Option Focus) (st' : EvalState)
    (events : List Event) : Prop :=
  next = none ∧ r = none ∧ events = [] ∨ ∃ m focus' st₁, m < n ∧ next = some focus' ∧
    rstepFocus defMap m focus' st₁ = .done r st' events

theorem Moves.mono {m : Nat} {next r : Option Focus} (h : Moves defMap m next r st' events)
    (hle : m ≤ n) : Moves defMap n next r st' events := by
  rcases h with h | ⟨k, focus', st₁, hk, hnext, hstep⟩
  · exact .inl h
  · exact .inr ⟨k, focus', st₁, by omega, hnext, hstep⟩

private theorem reduceArgsFocus_moves {focus : Focus} {r : Option Focus}
    (h : reduceArgsFocus defMap n focus st = .done r st' events) :
    Moves defMap n (goToTheNextArg focus) r st' events := by
  cases n with
  | zero => cases h
  | succ n =>
      rw [reduceArgsFocus] at h
      cases hnext : goToTheNextArg focus with
      | none =>
          simp only [hnext] at h
          obtain ⟨rfl, -, rfl⟩ := pure_eq_done.mp h
          exact .inl ⟨rfl, rfl, rfl⟩
      | some focus' =>
          simp only [hnext] at h
          obtain ⟨_, st₁, ev₁, ev₂, hadd, hstep, rfl⟩ := bind_eq_done.mp h
          obtain ⟨rfl, rfl⟩ := addFocus_eq_done.mp hadd
          exact .inr ⟨n, focus', _, Nat.lt_succ_self n, rfl, hstep⟩

private theorem reduceUpperFocus_moves {focus leftFocus : Focus} {r : Option Focus}
    (h : reduceUpperFocus defMap n focus leftFocus st = .done r st' events) :
    Moves defMap n ((goToUpperArg focus).or (goToTheNextArg leftFocus)) r st' events := by
  cases n with
  | zero => cases h
  | succ n =>
      rw [reduceUpperFocus] at h
      cases hnext : goToUpperArg focus with
      | none =>
          simp only [hnext] at h
          exact (reduceArgsFocus_moves h).mono (Nat.le_succ n)
      | some focus' =>
          simp only [hnext] at h
          obtain ⟨_, st₁, ev₁, ev₂, hadd, hstep, rfl⟩ := bind_eq_done.mp h
          obtain ⟨rfl, rfl⟩ := addFocus_eq_done.mp hadd
          exact .inr ⟨n, focus', _, Nat.lt_succ_self n, rfl, hstep⟩

/-- The instance of the right side with the arguments that the contraction leaves. -/
def contractum (focus : Focus) (nPats : Nat) (e' : Expr) : Focus :=
  ⟨e', spine focus.context (focus.expr.args.drop nPats)⟩

def Takes (defMap : DefMap) (n : Nat) (focus : Focus) (st : EvalState) (r : Option Focus)
    (events : List Event) : Prop :=
  ∃ equations first nPats k m env j st₁ events₁ before,
    Tries defMap focus equations first nPats ∧ equations[k]? = some m ∧ j < n ∧
    matchWithReductionFocus defMap j m.matchPats first st = .done (some env) st₁ events₁ ∧
    RejectsAll defMap n (equations.take k) first st before ∧ events₁ ⊆ before ∧
    r = some (contractum focus nPats (subst env m.matchRhs)) ∧
    events = before ++ [Event.contracted (leftOf focus) k]

/-- No equation fits, and the call goes on elsewhere. -/
def Passes (defMap : DefMap) (n : Nat) (focus : Focus) (st : EvalState) (r : Option Focus)
    (st' : EvalState) (events : List Event) : Prop :=
  ∃ events₁ events₂, events = events₁ ++ events₂ ∧
    (∀ equations first nPats, Tries defMap focus equations first nPats →
      RejectsAll defMap n equations first st events₁) ∧
    Moves defMap n (elsewhere defMap focus) r st' events₂

private theorem reduceWith_cases {focus first : Focus} {equations : List Match} {nPats : Nat}
    {r : Option Focus}
    (h : reduceWith defMap n equations first (leftOf focus) nPats st = .done r st' events)
    (htries : Tries defMap focus equations first nPats) :
    Takes defMap n focus st r events ∨ Passes defMap n focus st r st' events := by
  cases n with
  | zero => cases h
  | succ n =>
      rw [reduceWith] at h
      obtain ⟨res, st₁, ev₁, ev₂, hres, hthen, rfl⟩ := bind_eq_done.mp h
      rcases reduceUntilMatchFocus_cases hres with ⟨rfl, hall⟩ |
        ⟨k, m, env, j, st₂, events₁, rfl, hk, hj, hsub, hfits, hall⟩
      · right
        refine ⟨ev₁, ev₂, rfl, fun equations' first' nPats' htries' => ?_, ?_⟩
        · obtain ⟨rfl, rfl, -⟩ := htries.unique htries'
          exact hall.mono (Nat.le_succ n) (List.Subset.refl _)
        · have hfilter : (countParams defMap focus.expr.head.name).filter
              (· ≤ focus.expr.args.length) = some nPats := by
            rw [htries.params, Option.filter_some, if_pos (by simpa using htries.enough)]
          have helsewhere : elsewhere defMap focus = goToTheNextArg (leftOf focus) := by
            rw [elsewhere, hfilter]
          rw [helsewhere]
          exact (reduceArgsFocus_moves hthen).mono (Nat.le_succ n)
      · left
        simp only [goUpNSteps_redexOf htries.enough] at hthen
        obtain ⟨_, st₃, ev₃, ev₄, hadd, hnote, rfl⟩ := bind_eq_done.mp hthen
        obtain ⟨rfl, rfl⟩ := addFocus_eq_done.mp hadd
        obtain ⟨_, st₄, ev₅, ev₆, hnoted, hpure, rfl⟩ := bind_eq_done.mp hnote
        obtain ⟨rfl, rfl⟩ := note_eq_done.mp hnoted
        obtain ⟨rfl, rfl, rfl⟩ := pure_eq_done.mp hpure
        exact ⟨equations, first, nPats, k, m, env, j, st₂, events₁, ev₁, htries, hk, by omega,
          hfits, hall.mono (Nat.le_succ n) (List.Subset.refl _), hsub, rfl, rfl⟩

theorem Takes.mono {m : Nat} {focus : Focus} {r : Option Focus}
    (h : Takes defMap m focus st r events) (hle : m ≤ n) : Takes defMap n focus st r events := by
  obtain ⟨equations, first, nPats, k, eqn, env, j, st₁, events₁, before, htries, hk, hj, hfits,
    hall, hrest⟩ := h
  exact ⟨equations, first, nPats, k, eqn, env, j, st₁, events₁, before, htries, hk, by omega,
    hfits, hall.mono hle (List.Subset.refl _), hrest⟩

theorem Passes.mono {m : Nat} {focus : Focus} {r : Option Focus}
    (h : Passes defMap m focus st r st' events) (hle : m ≤ n) :
    Passes defMap n focus st r st' events := by
  obtain ⟨events₁, events₂, heq, hnone, hmoves⟩ := h
  exact ⟨events₁, events₂, heq, fun equations first nPats htries =>
    (hnone equations first nPats htries).mono hle (List.Subset.refl _), hmoves.mono hle⟩

/-- A call contracts where it is, or it goes on elsewhere after trying equations that
do not fit. -/
theorem rstepFocus_cases {focus : Focus} {r : Option Focus}
    (h : rstepFocus defMap n focus st = .done r st' events) :
    Takes defMap n focus st r events ∨ Passes defMap n focus st r st' events := by
  cases n with
  | zero => cases h
  | succ n =>
      rw [rstepFocus, leftMostFocusSteps_eq] at h
      simp only [leftOf_expr, decomposeExpr_eq, ApTerm.head_atom] at h
      cases hfilter : (countParams defMap focus.expr.head.name).filter
          (· ≤ focus.expr.args.length) with
      | none =>
          right
          have hpasses {r : Option Focus}
              (hmoves : Moves defMap n (elsewhere defMap focus) r st' events) :
              Passes defMap (n + 1) focus st r st' events := by
            refine ⟨[], events, rfl, fun equations first nPats htries => ?_,
              hmoves.mono (Nat.le_succ n)⟩
            rw [htries.params, Option.filter_some, if_pos (by simpa using htries.enough)] at hfilter
            cases hfilter
          simp only [hfilter] at h
          cases hdef : defMap focus.expr.head.name with
          | none =>
              simp only [hdef] at h
              refine hpasses ?_
              rw [elsewhere, hfilter, hdef]
              exact reduceArgsFocus_moves h
          | some d =>
              cases hhead : focus.expr.head with
              | con c =>
                  have helsewhere : elsewhere defMap focus = goToTheNextArg (leftOf focus) := by
                    rw [elsewhere, hfilter, hdef, hhead]
                  rw [hhead] at hdef h
                  simp only [hdef] at h
                  refine hpasses ?_
                  rw [helsewhere]
                  exact reduceArgsFocus_moves h
              | var x =>
                  have helsewhere : elsewhere defMap focus =
                      (goToUpperArg focus).or (goToTheNextArg (leftOf focus)) := by
                    rw [elsewhere, hfilter, hdef, hhead]
                  rw [hhead] at hdef h
                  simp only [hdef] at h
                  refine hpasses ?_
                  rw [helsewhere]
                  exact reduceUpperFocus_moves h
      | some nPats =>
          simp only [hfilter] at h
          obtain ⟨hcount, hle⟩ := Option.filter_eq_some_iff.mp hfilter
          have hle : nPats ≤ focus.expr.args.length := by simpa using hle
          cases hdef : defMap focus.expr.head.name with
          | none => simp [countParams, hdef] at hcount
          | some d =>
              obtain ⟨ms⟩ := d
              simp only [hdef] at h
              have hlater {first : Focus}
                  (h : reduceWith defMap n ms first (leftOf focus) nPats st = .done r st' events)
                  (hstart : nPats = 0 ∧ first = leftOf focus ∨
                    0 < nPats ∧ firstArg focus = some first) :
                  Takes defMap (n + 1) focus st r events ∨
                    Passes defMap (n + 1) focus st r st' events :=
                (reduceWith_cases h ⟨hdef, hcount, hle, hstart⟩).imp
                  (fun htakes => htakes.mono (Nat.le_succ n))
                  fun hpasses => hpasses.mono (Nat.le_succ n)
              by_cases hzero : nPats = 0
              · rw [if_pos hzero] at h
                exact hlater h (.inl ⟨hzero, rfl⟩)
              · rw [if_neg hzero] at h
                obtain ⟨first, hnext, hfirst⟩ :=
                  goToTheNextArg_leftOf (show 0 < focus.expr.args.length by omega)
                simp only [hnext] at h
                exact hlater h (.inr ⟨Nat.pos_of_ne_zero hzero, hfirst⟩)

end Mimuw.Functional.Zipper
