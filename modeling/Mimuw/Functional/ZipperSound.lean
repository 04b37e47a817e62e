import Mimuw.Functional.ZipperRuns

/-!
# Soundness of the zipper evaluator

A call with the arguments reduced in their places rewrites with the equations taken,
and the equations before them are rejected for a clash.  Else the matcher goes astray.
-/

namespace Mimuw.Functional.Zipper

open Mimuw.Lib Relation

variable {defMap : DefMap} {n : Nat} {st st' : EvalState} {events : List Event}

/-! ## The first equation -/

def equation (defMap : DefMap) (leftFocus : Focus) (k : Nat) : Option Match :=
  (defMap leftFocus.expr.head.name).bind fun d => d.defMatches[k]?

theorem Tries.equation {focus first : Focus} {equations : List Match} {nPats : Nat}
    (h : Tries defMap focus equations first nPats) (k : Nat) :
    equation defMap (leftOf focus) k = equations[k]? := by
  rw [Zipper.equation, leftOf_expr, ApTerm.head_atom, h.defined]
  rfl

theorem Tries.rejected {focus first : Focus} {equations : List Match} {nPats : Nat} {m : Match}
    (h : Tries defMap focus equations first nPats) (hpos : 0 < nPats)
    (hclashes : Clashes defMap m.matchPats first) :
    Rejected defMap m.matchPats (spineArgs (leftOf focus).context) := by
  obtain ⟨a, as, hargs, hfirst⟩ := h.args hpos
  have hrejected := hclashes.rejected hfirst
  rwa [spineArgs_spine, ← List.cons_append, ← hargs, ← spineArgs_spine] at hrejected

private theorem Decided.first_match {focus : Focus} {r : Option Focus} (h : Decided defMap focus)
    (hrun : rstepFocus defMap n focus st = .done r st' events) :
    ∃ before leftFocus k, events = before ++ [Event.contracted leftFocus k] ∧
      ∀ j < k, ∀ m, equation defMap leftFocus j = some m →
        Rejected defMap m.matchPats (spineArgs leftFocus.context) := by
  induction h generalizing n st r st' events with
  | contract htries hequation hlength hfits hargs hbefore =>
      obtain ⟨-, before, heq⟩ := rstepFocus_takes hrun htries hequation hfits.gives
        fun m' hm' => (hbefore m' hm').rejects.gives
      refine ⟨before, leftOf _, _, heq, fun j hj m' hm' => ?_⟩
      rw [htries.equation] at hm'
      exact htries.rejected (hargs (by omega)) (hbefore m' (mem_take_of_getElem? hm' hj))
  | move hnone hmove _ ih =>
      obtain ⟨events₁, events₂, rfl, ⟨hstop, -⟩ | ⟨m, focus'', st₁, -, hsome, hstep⟩⟩ :=
        rstepFocus_passes hrun fun equations first nPats htries m hm =>
          (hnone equations first nPats htries m hm).gives
      · cases hmove.symm.trans hstop
      · obtain rfl := Option.some.inj (hmove.symm.trans hsome)
        obtain ⟨before, leftFocus, k, rfl, hall⟩ := ih hstep
        exact ⟨events₁ ++ before, leftFocus, k, (List.append_assoc _ _ _).symm, hall⟩

/-! ## The two theorems -/

/-- A straight call rewrites the whole expression with the equations of the program.
When a program of regular equations has a call that is not straight, the run goes on
with an argument in another place. -/
theorem rstepFocus_sound {focus focus' : Focus}
    (h : rstepFocus defMap n focus st = .done (some focus') st' events) :
    (Straight defMap focus → Rewrites defMap (rebuild focus) (rebuild focus')) ∧
      (Regular defMap → ¬ Straight defMap focus → ∃ arg result,
        Event.reduced arg (some result) ∈ events ∧ result.context ≠ arg.context) := by
  refine ⟨fun ⟨r, hr⟩ => ?_, fun hregular hnot => ?_⟩
  · obtain rfl := hr.stepGives _ _ _ _ _ h
    exact (hr.reached rfl).rewrites
  · by_contra hnone
    refine hnot ⟨_, straightCalls hregular n _ _ _ _ _ h fun arg result hmem => ?_⟩
    by_contra hne
    exact hnone ⟨arg, result, hmem, hne⟩

/-- The last thing that a successful call does is to contract an application.  In a
decided call the arguments come to a clash with each equation before the one taken. When
a program of regular equations has a call that is not decided, the run goes on with an
argument in another place or gives one up. -/
theorem rstepFocus_first_match {focus focus' : Focus}
    (h : rstepFocus defMap n focus st = .done (some focus') st' events) :
    (Decided defMap focus → ∃ before leftFocus k,
      events = before ++ [Event.contracted leftFocus k] ∧
        ∀ j < k, ∀ m, equation defMap leftFocus j = some m →
          Rejected defMap m.matchPats (spineArgs leftFocus.context)) ∧
      (Regular defMap → ¬ Decided defMap focus → (∃ arg result,
        Event.reduced arg (some result) ∈ events ∧ result.context ≠ arg.context) ∨
          ∃ arg, Event.reduced arg none ∈ events) := by
  refine ⟨fun hdecided => hdecided.first_match h, fun hregular hnot => ?_⟩
  by_contra hnone
  rw [not_or] at hnone
  refine hnot (decided_of_run hregular h (fun arg result hmem => ?_) fun arg hmem => ?_)
  · by_contra hne
    exact hnone.1 ⟨arg, result, hmem, hne⟩
  · exact hnone.2 ⟨arg, hmem⟩

/-! ## A program that goes astray

`f (S (S n)) = n` and `f m = m`, with `g = S (S (S Z))` and `h = S Z`. -/

section Astray

def zero : Expr := .atom (.con "Z")

def succ (e : Expr) : Expr := .app (.atom (.con "S")) e

def numeral : Nat → Expr
  | 0 => zero
  | k + 1 => succ (numeral k)

def call (e : Expr) : Expr := .app (.atom (.var "f")) e

def astray : DefMap
  | "f" => some ⟨[⟨"f", [.papp "S" [.papp "S" [.pvar "n"]]], .atom (.var "n")⟩,
      ⟨"f", [.pvar "m"], .atom (.var "m")⟩]⟩
  | "g" => some ⟨[⟨"g", [], succ (succ (succ zero))⟩]⟩
  | "h" => some ⟨[⟨"h", [], succ zero⟩]⟩
  | _ => none

def initEvalState (focus : Focus) : EvalState := ⟨[focus], 30, focus⟩

def astrayFocus (name : Name) : Focus := ⟨call (succ (.atom (.var name))), .top⟩

private theorem step_zero {e : Expr} : ¬ Step astray zero e := by
  intro h
  generalize hz : zero = z at h
  cases h with
  | root hdef hm hleft hvars =>
      subst hz
      cases hdef
  | left x h => cases hz
  | right f h => cases hz

theorem step_succ {e e' : Expr} (h : Step astray (succ e) e') :
    ∃ e₁, e' = succ e₁ ∧ Step astray e e₁ := by
  generalize hs : succ e = s at h
  cases h with
  | root hdef hm hleft hvars =>
      subst hs
      cases hdef
  | left x h =>
      obtain ⟨rfl, rfl⟩ := ApTerm.app.inj hs
      cases h with
      | root hdef hm hleft hvars => cases hdef
  | right f h =>
      obtain ⟨rfl, rfl⟩ := ApTerm.app.inj hs
      exact ⟨_, rfl, h⟩

private theorem rewrites_succ {e e' : Expr} (h : Rewrites astray (succ e) e') :
    ∃ e₁, e' = succ e₁ ∧ Rewrites astray e e₁ := by
  induction h with
  | refl => exact ⟨e, rfl, .refl⟩
  | tail _ hstep ih =>
      obtain ⟨e₁, rfl, hrewrites⟩ := ih
      obtain ⟨e₂, rfl, hstep'⟩ := step_succ hstep
      exact ⟨e₂, rfl, hrewrites.tail hstep'⟩

private theorem rewrites_zero {e : Expr} (h : Rewrites astray zero e) : e = zero := by
  induction h with
  | refl => rfl
  | tail _ hstep ih => exact absurd (ih ▸ hstep) step_zero

private theorem rewrites_name {name : Name} {v e : Expr}
    (hdef : astray name = some ⟨[⟨name, [], v⟩]⟩) (hclosed : ∀ env, subst env v = v)
    (hend : ∀ e, Rewrites astray v e → e = v)
    (h : Rewrites astray (.atom (.var name)) e) : e = .atom (.var name) ∨ e = v := by
  induction h with
  | refl => exact .inl rfl
  | tail _ hstep ih =>
      rcases ih with rfl | rfl
      · generalize ha : (.atom (.var name) : Expr) = a at hstep
        cases hstep with
        | root hdef' hm hleft hvars =>
            subst ha
            obtain rfl := Option.some.inj (hdef'.symm.trans hdef)
            obtain rfl := List.mem_singleton.mp hm
            exact .inr (hclosed _)
        | left x h => cases ha
        | right f h => cases ha
      · exact .inr (hend _ (.single hstep))

private theorem rewrites_numeral {k : Nat} {e : Expr} (h : Rewrites astray (numeral k) e) :
    e = numeral k := by
  induction k generalizing e with
  | zero => exact rewrites_zero h
  | succ k ih =>
      obtain ⟨e₁, rfl, hrewrites⟩ := rewrites_succ h
      rw [ih hrewrites]
      rfl

private theorem step_call {e e' : Expr} (h : Step astray (call (succ e)) e') :
    (∃ e₁, e' = call (succ e₁) ∧ Step astray e e₁) ∨ e' = succ e ∨
      ∃ a, a.name = "S" ∧ e = .app (.atom a) e' := by
  generalize hc : call (succ e) = c at h
  cases h with
  | @root c d m env hdef hm hleft hvars =>
      subst hc
      obtain rfl := Option.some.inj hdef
      rcases List.mem_cons.mp hm with rfl | hm
      · have hargs : Instances env [.papp "S" [.pvar "n"]] [e] := by
          simpa [call, succ, Instances, Instance, Atom.name] using hleft
        rw [Instances, Instance] at hargs
        obtain ⟨⟨hname, hinner⟩, -⟩ := hargs
        right
        right
        refine ⟨e.head, hname, ?_⟩
        have happly := ApTerm.apply_head_args e
        cases hlist : e.args with
        | nil => simp [hlist, Instances] at hinner
        | cons x xs =>
            cases xs with
            | cons y ys => simp [hlist, Instances] at hinner
            | nil =>
                have henv : env "n" = some x := by simpa [hlist, Instances, Instance] using hinner
                have hvalue : subst env (.atom (.var "n")) = x := by
                  simp [subst, substHelper, henv]
                rw [hvalue, ← happly, hlist]
                simp [ApTerm.apply]
      · obtain rfl := List.mem_singleton.mp hm
        have henv : env "m" = some (succ e) := by
          simpa [call, Instances, Instance] using hleft
        exact .inr (.inl (by simp [subst, substHelper, henv]))
  | left x h =>
      obtain ⟨rfl, rfl⟩ := ApTerm.app.inj hc
      cases h with
      | root hdef hm hleft hvars =>
          obtain rfl := Option.some.inj hdef
          rcases List.mem_cons.mp hm with rfl | hm
          · simp [Instances] at hleft
          · obtain rfl := List.mem_singleton.mp hm
            simp [Instances] at hleft
  | right f h =>
      obtain ⟨rfl, rfl⟩ := ApTerm.app.inj hc
      obtain ⟨e₁, rfl, hstep⟩ := step_succ h
      exact .inl ⟨e₁, rfl, hstep⟩

private theorem rewrites_call_g {e : Expr}
    (h : Rewrites astray (call (succ (.atom (.var "g")))) e) :
    (∃ x ∈ [.atom (.var "g"), numeral 3], e = call (succ x) ∨ e = succ x) ∨ e = numeral 2 := by
  have hg {x y : Expr} (hx : x ∈ [.atom (.var "g"), numeral 3]) (h : Step astray x y) :
      y ∈ [.atom (.var "g"), numeral 3] := by
    rcases List.mem_cons.mp hx with rfl | hx
    · have := rewrites_name (v := numeral 3) rfl (fun _ => rfl)
        (fun _ => rewrites_numeral) (.single h)
      simpa using this
    · obtain rfl := List.mem_singleton.mp hx
      simp [rewrites_numeral (.single h)]
  induction h with
  | refl => exact .inl ⟨_, List.mem_cons_self, .inl rfl⟩
  | tail _ hstep ih =>
      rcases ih with ⟨x, hx, rfl | rfl⟩ | rfl
      · rcases step_call hstep with ⟨y, rfl, hy⟩ | rfl | ⟨a, -, ha⟩
        · exact .inl ⟨y, hg hx hy, .inl rfl⟩
        · exact .inl ⟨x, hx, .inr rfl⟩
        · rcases List.mem_cons.mp hx with rfl | hx
          · cases ha
          · obtain rfl := List.mem_singleton.mp hx
            obtain ⟨-, rfl⟩ := ApTerm.app.inj ha
            exact .inr rfl
      · obtain ⟨y, rfl, hy⟩ := step_succ hstep
        exact .inl ⟨y, hg hx hy, .inr rfl⟩
      · exact .inr (rewrites_numeral (.single hstep))

/-- The matcher reduces `g` and goes on at that place, inside of the argument: it binds
`n` there and `f (S g)` becomes `S Z`. -/
theorem rstepFocus_unsound : ¬ ∀ (defMap : DefMap) n focus st focus' st' events,
    rstepFocus defMap n focus st = .done (some focus') st' events →
      Rewrites defMap (rebuild focus) (rebuild focus') := by
  intro h
  have hrewrites := h astray 12 (astrayFocus "g") (initEvalState (astrayFocus "g"))
    ⟨numeral 1, .top⟩ _ _ rfl
  rcases rewrites_call_g hrewrites with ⟨x, hx, hcall | hsucc⟩ | htwo
  · cases hcall
  · obtain ⟨-, rfl⟩ := ApTerm.app.inj hsucc
    simp [numeral, zero, succ] at hx
  · cases htwo

private theorem not_clash_name {p : Pat} {x : Name} : ¬ Clash p (.atom (.var x)) := by
  intro hclash
  cases hclash with
  | constructor hhead _ => cases hhead
  | arguments hhead _ => cases hhead
  | inside _ hhead _ _ _ _ => cases hhead

private theorem not_clash_succ {p : Pat} {e : Expr} (h : ¬ Clash p e) :
    ¬ Clash (.papp "S" [p]) (succ e) := by
  intro hclash
  cases hclash with
  | constructor hhead hne =>
      obtain rfl := Atom.con.inj hhead
      exact hne rfl
  | arguments hhead hne => exact hne rfl
  | inside i hhead hlength hpat harg hinner =>
      cases i with
      | zero =>
          obtain rfl := Option.some.inj hpat
          obtain rfl := Option.some.inj harg
          exact h hinner
      | succ i => cases hpat

/-- With `h` the matcher finds a clash at that place, and the first equation is
rejected though it would fit. -/
theorem rstepFocus_skips : ¬ ∀ (defMap : DefMap) n focus st focus' st' events,
    rstepFocus defMap n focus st = .done (some focus') st' events →
      ∃ before leftFocus k, events = before ++ [Event.contracted leftFocus k] ∧
        ∀ j < k, ∀ m, equation defMap leftFocus j = some m →
          Rejected defMap m.matchPats (spineArgs leftFocus.context) := by
  intro h
  obtain ⟨before, leftFocus, k, hevents, hall⟩ := h astray 12 (astrayFocus "h")
    (initEvalState (astrayFocus "h")) ⟨succ (.atom (.var "h")), .top⟩ _ _ rfl
  have hlast : some (.contracted ⟨.atom (.var "f"), .appLeft .top (succ (.atom (.var "h")))⟩ 1) =
      some (Event.contracted leftFocus k) :=
    (congrArg List.getLast? hevents).trans List.getLast?_concat
  obtain ⟨rfl, rfl⟩ := Event.contracted.inj (Option.some.inj hlast)
  obtain ⟨args, hargs, i, p, e, hp, he, hclash⟩ := hall 0 Nat.zero_lt_one _ rfl
  cases hargs with
  | @cons _ e' _ es hrewrites hrest =>
      cases hrest
      cases i with
      | succ i => cases he
      | zero =>
          obtain rfl := Option.some.inj hp
          obtain rfl := Option.some.inj he
          obtain ⟨x, rfl, hx⟩ := rewrites_succ hrewrites
          have hvalue := rewrites_name (v := numeral 1) rfl (fun _ => rfl)
            (fun _ => rewrites_numeral) hx
          refine not_clash_succ (fun hinner => ?_) hclash
          rcases hvalue with rfl | rfl
          · exact not_clash_name hinner
          · have hvar : ¬ Clash (.pvar "n") zero := nofun
            exact not_clash_succ hvar hinner

/-! ### Calls that go well -/

def callFocus (name : Name) : Focus := ⟨call (.atom (.var name)), .top⟩

def argFocus (e : Expr) : Focus := ⟨e, .appRight (.atom (.var "f")) .top⟩

def callEvents (name : Name) (value : Expr) (k : Nat) : List Event :=
  [.contracted (argFocus (.atom (.var name))) 0,
    .reduced (argFocus (.atom (.var name))) (some (argFocus value)),
    .contracted ⟨.atom (.var "f"), .appLeft .top (.atom (.var name))⟩ k]

private theorem tries_call (e : Expr) : Tries astray ⟨call e, .top⟩
    [⟨"f", [.papp "S" [.papp "S" [.pvar "n"]]], .atom (.var "n")⟩,
      ⟨"f", [.pvar "m"], .atom (.var "m")⟩] (argFocus e) 1 :=
  ⟨rfl, rfl, Nat.le_refl 1, .inr ⟨Nat.one_pos, rfl⟩⟩

private theorem contracts_name {x : Name} {v : Expr} (hdef : astray x = some ⟨[⟨x, [], v⟩]⟩)
    (hclosed : ∀ env, subst env v = v) :
    countParams astray x = some 0 ∧ Contracts astray (argFocus (.atom (.var x))) 0 v := by
  have hparams : countParams astray x = some 0 := by rw [countParams, hdef]; rfl
  have htries : Tries astray (argFocus (.atom (.var x))) [⟨x, [], v⟩]
      (argFocus (.atom (.var x))) 0 := ⟨hdef, hparams, Nat.le_refl 0, .inl ⟨rfl, rfl⟩⟩
  have hcontracts := Contracts.intro (k := 0) htries rfl rfl .nil (by simp)
  rw [hclosed] at hcontracts
  exact ⟨hparams, hcontracts⟩

private theorem straight_call_g : Straight astray (callFocus "g") := by
  obtain ⟨hparams, hcontracts⟩ := contracts_name (x := "g") rfl fun _ => rfl
  have hfits : Fits astray [.papp "S" [.papp "S" [.pvar "n"]]] (argFocus (.atom (.var "g")))
      (Function.update (fun _ => none) "n" (some (numeral 1))) := by
    refine .reduce rfl hparams hcontracts (.last rfl ?_)
    simp [Instance, Instances, changeExpr, argFocus, succ, Atom.name, numeral]
  exact ⟨_, .contract rfl (.intro (k := 0) (tries_call _) rfl rfl hfits (by simp))⟩

/-- A variable may occur twice when its values are the same. -/
def same : DefMap
  | "k" => some ⟨[⟨"k", [.pvar "x", .pvar "x"], .atom (.var "x")⟩]⟩
  | _ => none

def sameFocus : Focus := ⟨.app (.app (.atom (.var "k")) zero) zero, .top⟩

private theorem straight_same : Straight same sameFocus := by
  have htries : Tries same sameFocus [⟨"k", [.pvar "x", .pvar "x"], .atom (.var "x")⟩]
      ⟨zero, .appRight (.atom (.var "k")) (.appLeft .top zero)⟩ 2 :=
    ⟨rfl, rfl, Nat.le_refl 2, .inr ⟨Nat.two_pos, rfl⟩⟩
  have hzero : Instance (Function.update (fun _ => none) "x" (some zero)) (.pvar "x") zero := by
    rw [Instance, Function.update_self]
  have hagree (env : MatchEnv) : Agree env env := fun x e₁ e₂ h₁ h₂ =>
    Option.some.inj (h₁.symm.trans h₂)
  exact ⟨_, .contract rfl (.intro (k := 0) htries rfl rfl
    (.next rfl hzero (List.cons_ne_nil _ _) rfl (.last rfl hzero) (hagree _)) (by simp))⟩

theorem rstepFocus_sound_call : Rewrites astray (rebuild (callFocus "g")) (numeral 1) ∧
    Rewrites same (rebuild sameFocus) zero := by
  have hcall : ∃ st', rstepFocus astray 12 (callFocus "g") (initEvalState (callFocus "g")) =
      .done (some ⟨numeral 1, .top⟩) st' (callEvents "g" (numeral 3) 0) := ⟨_, rfl⟩
  have hsame : ∃ st' events, rstepFocus same 12 sameFocus (initEvalState sameFocus) =
      .done (some ⟨zero, .top⟩) st' events := ⟨_, _, rfl⟩
  obtain ⟨st', hcall⟩ := hcall
  obtain ⟨st'', events, hsame⟩ := hsame
  exact ⟨(rstepFocus_sound hcall).1 straight_call_g, (rstepFocus_sound hsame).1 straight_same⟩

private theorem decided_call_h : Decided astray (callFocus "h") := by
  obtain ⟨hparams, hcontracts⟩ := contracts_name (x := "h") rfl fun _ => rfl
  refine .contract (k := 1) (tries_call _) rfl rfl (.last rfl ?_) (fun _ => Nat.one_pos) ?_
  · rw [Instance, Function.update_self]
  · intro m hm
    obtain rfl := List.mem_singleton.mp hm
    exact .reduce rfl hparams hcontracts (.clash rfl)

theorem rstepFocus_first_match_call : ∃ before leftFocus k,
    callEvents "h" (numeral 1) 1 = before ++ [Event.contracted leftFocus k] ∧
      ∀ j < k, ∀ m, equation astray leftFocus j = some m →
        Rejected astray m.matchPats (spineArgs leftFocus.context) := by
  have hrun : ∃ st', rstepFocus astray 12 (callFocus "h") (initEvalState (callFocus "h")) =
      .done (some ⟨.atom (.var "h"), .top⟩) st' (callEvents "h" (numeral 1) 1) := ⟨_, rfl⟩
  obtain ⟨st', hrun⟩ := hrun
  exact (rstepFocus_first_match hrun).1 decided_call_h

end Astray

end Mimuw.Functional.Zipper
