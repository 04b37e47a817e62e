import Mimuw.Functional.Zipper

/-!
# Rewriting with the equations

What a program of equations means: an instance of the left side of an equation,
anywhere in an expression, may be replaced by the same instance of the right side.
The matcher finds such instances when no variable occurs twice.
-/

namespace Mimuw.Functional.Zipper

open Mimuw.Lib Relation

/-! ## Equations -/

theorem buildDefMap_spec {prog : List Def} {defMap : DefMap} (h : buildDefMap prog = some defMap)
    (name : Name) : (defMap name).elim [] Def.defMatches =
      prog.flatMap fun d => if getName d = some name then d.defMatches else [] := by
  have hfold (start : DefMap) {defMap : DefMap}
      (h : prog.foldlM (fun defMap d => (getName d).map fun name =>
        Function.update defMap name (some ((defMap name).elim d (combineDefs d)))) start =
          some defMap) :
      (defMap name).elim [] Def.defMatches = (start name).elim [] Def.defMatches ++
        prog.flatMap fun d => if getName d = some name then d.defMatches else [] := by
    clear * - h
    induction prog generalizing start with
    | nil =>
        cases h
        simp
    | cons d prog ih =>
        rw [List.foldlM_cons] at h
        obtain ⟨next, hnext, hrest⟩ := Option.bind_eq_some_iff.mp h
        obtain ⟨name', hname', rfl⟩ := Option.map_eq_some_iff.mp hnext
        rw [ih _ hrest, List.flatMap_cons, ← List.append_assoc, hname']
        by_cases hsame : name' = name
        · subst hsame
          rw [Function.update_self, if_pos rfl, Option.elim_some]
          cases start name' with
          | none => rfl
          | some d' => rfl
        · rw [Function.update_of_ne (Ne.symm hsame), if_neg (by simpa using hsame),
            List.append_nil]
  exact hfold _ h

/-! ## Instances -/

mutual

def Pat.vars : Pat → List Name
  | .pvar x => [x]
  | .papp _ pats => varsAll pats

def varsAll : List Pat → List Name
  | [] => []
  | p :: ps => p.vars ++ varsAll ps

end

mutual

/-- The expression is the pattern with the variables replaced. -/
def Instance (env : MatchEnv) : Pat → Expr → Prop
  | .pvar x, e => env x = some e
  | .papp name pats, e => e.head.name = name ∧ Instances env pats e.args

def Instances (env : MatchEnv) : List Pat → List Expr → Prop
  | [], [] => True
  | p :: ps, e :: es => Instance env p e ∧ Instances env ps es
  | _, _ => False

end

/-- One step with an equation of the program.  The instance replaces the variables
of the left side and no others. -/
inductive Step (defMap : DefMap) : Expr → Expr → Prop where
  | root {e : Expr} {d : Def} {m : Match} {env : MatchEnv} (hdef : defMap e.head.name = some d)
      (hm : m ∈ d.defMatches) (hleft : Instances env m.matchPats e.args)
      (hvars : ∀ x, (env x).isSome → x ∈ varsAll m.matchPats) : Step defMap e (subst env m.matchRhs)
  | left {f g : Expr} (x : Expr) (h : Step defMap f g) : Step defMap (.app f x) (.app g x)
  | right (f : Expr) {x y : Expr} (h : Step defMap x y) : Step defMap (.app f x) (.app f y)

abbrev Rewrites (defMap : DefMap) : Expr → Expr → Prop := ReflTransGen (Step defMap)

section Congruence

variable {defMap : DefMap}

theorem Rewrites.app {f g x y : Expr} (hf : Rewrites defMap f g) (hx : Rewrites defMap x y) :
    Rewrites defMap (.app f x) (.app g y) := by
  have hleft : Rewrites defMap (.app f x) (.app g x) :=
    hf.lift (fun f => ApTerm.app f x) fun _ _ h => .left x h
  have hright : Rewrites defMap (.app g x) (.app g y) :=
    hx.lift (ApTerm.app g) fun _ _ h => .right g h
  exact hleft.trans hright

theorem Rewrites.foldl {args args' : List Expr} (h : List.Forall₂ (Rewrites defMap) args args')
    {f g : Expr} (hf : Rewrites defMap f g) :
    Rewrites defMap (args.foldl .app f) (args'.foldl .app g) := by
  induction h generalizing f g with
  | nil => exact hf
  | cons hx _ ih => exact ih (hf.app hx)

theorem Rewrites.apply (a : Atom) {args args' : List Expr}
    (h : List.Forall₂ (Rewrites defMap) args args') :
    Rewrites defMap (ApTerm.apply a args) (ApTerm.apply a args') :=
  Rewrites.foldl h .refl

end Congruence

/-! ## What the matcher finds -/

theorem decomposeExprHelper_eq (e : Expr) (acc : List Expr) :
    decomposeExprHelper e acc = (e.head.name, .atom e.head, e.args ++ acc) := by
  induction e generalizing acc with
  | atom a => rfl
  | app f x ihf _ => rw [decomposeExprHelper, ihf, ApTerm.args_app, List.append_assoc]; rfl

theorem decomposeExpr_eq (e : Expr) : decomposeExpr e = (e.head.name, .atom e.head, e.args) := by
  rw [decomposeExpr, decomposeExprHelper_eq, List.append_nil]

private theorem matchPat_papp (name : Name) (pats : List Pat) (e : Expr) (env : MatchEnv) :
    matchPat (.papp name pats) e env =
      if e.head.name = name ∧ e.args.length = pats.length then matchAll pats e.args env
      else (false, env) := by
  rw [matchPat, decomposeExpr_eq]

mutual

theorem Instance.congr {env env' : MatchEnv} : ∀ {p : Pat} {e : Expr}, Instance env p e →
    (∀ x ∈ p.vars, env' x = env x) → Instance env' p e
  | .pvar x, _, h, hsame => by
      rw [Instance, hsame x (by simp [Pat.vars])]
      exact h
  | .papp _ pats, _, h, hsame => by
      rw [Instance] at h ⊢
      exact ⟨h.1, Instances.congr h.2 fun x hx => hsame x (by rwa [Pat.vars])⟩

theorem Instances.congr {env env' : MatchEnv} : ∀ {ps : List Pat} {es : List Expr},
    Instances env ps es → (∀ x ∈ varsAll ps, env' x = env x) → Instances env' ps es
  | [], [], _, _ => by rw [Instances]; trivial
  | p :: ps, e :: es, h, hsame => by
      rw [Instances] at h ⊢
      rw [varsAll] at hsame
      exact ⟨h.1.congr fun x hx => hsame x (List.mem_append_left _ hx),
        Instances.congr h.2 fun x hx => hsame x (List.mem_append_right _ hx)⟩
  | [], _ :: _, h, _ => by
      rw [Instances] at h
      · exact h.elim
      all_goals simp
  | _ :: _, [], h, _ => by
      rw [Instances] at h
      · exact h.elim
      all_goals simp

end

mutual

theorem matchPat_others : ∀ {p : Pat} {e : Expr} {env env' : MatchEnv} {fits : Bool},
    matchPat p e env = (fits, env') → ∀ x, x ∉ p.vars → env' x = env x
  | .pvar y, e, env, env', _, h, x, hx => by
      rw [matchPat, Prod.mk.injEq] at h
      obtain ⟨-, rfl⟩ := h
      exact Function.update_of_ne (by simpa [Pat.vars] using hx) _ _
  | .papp name pats, e, env, env', _, h, x, hx => by
      rw [matchPat_papp] at h
      rw [Pat.vars] at hx
      split_ifs at h with hhead
      · exact matchAll_others h x hx
      · rw [(Prod.mk.inj h).2]

private theorem matchAll_others :
    ∀ {ps : List Pat} {es : List Expr} {env env' : MatchEnv} {fits : Bool},
    matchAll ps es env = (fits, env') → ∀ x, x ∉ varsAll ps → env' x = env x
  | [], es, env, env', _, h, x, _ => by
      rw [matchAll, Prod.mk.injEq] at h
      · rw [h.2]
      · simp
  | p :: ps, [], _, _, _, h, x, _ => by
      rw [matchAll, Prod.mk.injEq] at h
      · rw [h.2]
      · simp
  | p :: ps, e :: es, env, env', _, h, x, hx => by
      rw [matchAll] at h
      obtain ⟨fits, env₁, hfits⟩ : ∃ fits env₁, matchPat p e env = (fits, env₁) := ⟨_, _, rfl⟩
      obtain ⟨rest, env₂, hrest⟩ : ∃ rest env₂, matchAll ps es env₁ = (rest, env₂) := ⟨_, _, rfl⟩
      rw [hfits] at h
      simp only [hrest, Prod.mk.injEq] at h
      obtain ⟨-, rfl⟩ := h
      rw [varsAll, List.mem_append, not_or] at hx
      rw [matchAll_others hrest x hx.2, matchPat_others hfits x hx.1]

end

mutual

/-- With no variable twice a match gives an instance. -/
theorem matchPat_spec : ∀ {p : Pat} {e : Expr} {env env' : MatchEnv},
    matchPat p e env = (true, env') → p.vars.Nodup → Instance env' p e
  | .pvar y, e, env, env', h, _ => by
      rw [matchPat, Prod.mk.injEq] at h
      obtain ⟨-, rfl⟩ := h
      rw [Instance, Function.update_self]
  | .papp name pats, e, env, env', h, hnodup => by
      rw [matchPat_papp] at h
      split_ifs at h with hhead
      · rw [Pat.vars] at hnodup
        rw [Instance]
        exact ⟨hhead.1, matchAll_spec h hhead.2 hnodup⟩
      · simp at h

private theorem matchAll_spec : ∀ {ps : List Pat} {es : List Expr} {env env' : MatchEnv},
    matchAll ps es env = (true, env') → es.length = ps.length → (varsAll ps).Nodup →
      Instances env' ps es
  | [], es, env, env', h, hlength, _ => by
      obtain rfl := List.length_eq_zero_iff.mp hlength
      rw [Instances]
      trivial
  | p :: ps, [], _, _, _, hlength, _ => by simp at hlength
  | p :: ps, e :: es, env, env', h, hlength, hnodup => by
      rw [matchAll] at h
      obtain ⟨fits, env₁, hfits⟩ : ∃ fits env₁, matchPat p e env = (fits, env₁) := ⟨_, _, rfl⟩
      obtain ⟨rest, env₂, hrest⟩ : ∃ rest env₂, matchAll ps es env₁ = (rest, env₂) := ⟨_, _, rfl⟩
      rw [hfits] at h
      simp only [hrest, Prod.mk.injEq, Bool.and_eq_true] at h
      obtain ⟨⟨rfl, rfl⟩, rfl⟩ := h
      rw [varsAll, List.nodup_append] at hnodup
      obtain ⟨hp, hps, hdisjoint⟩ := hnodup
      rw [Instances]
      refine ⟨(matchPat_spec hfits hp).congr fun x hx => ?_,
        matchAll_spec hrest (by simpa using hlength) hps⟩
      exact matchAll_others hrest x fun hx' => hdisjoint x hx x hx' rfl

end

/-- Two sets of bindings that give a common name the same value. -/
def Agree (env₁ env₂ : MatchEnv) : Prop :=
  ∀ x e₁ e₂, env₁ x = some e₁ → env₂ x = some e₂ → e₁ = e₂

private theorem Agree.union_right {env₁ env₂ : MatchEnv} (h : Agree env₁ env₂) {x : Name} {e : Expr}
    (hx : env₂ x = some e) : union env₁ env₂ x = some e := by
  rw [Zipper.union]
  cases hx₁ : env₁ x with
  | none => rw [Option.none_or, hx]
  | some e₁ => rw [Option.some_or, h x e₁ e hx₁ hx]

private theorem union_left {env₁ env₂ : MatchEnv} {x : Name} {e : Expr} (hx : env₁ x = some e) :
    union env₁ env₂ x = some e := by
  rw [Zipper.union, hx, Option.some_or]

mutual

theorem Instance.mono {env env' : MatchEnv} (hsub : ∀ x e, env x = some e → env' x = some e) :
    ∀ {p : Pat} {e : Expr}, Instance env p e → Instance env' p e
  | .pvar x, e, h => by
      rw [Instance] at h ⊢
      exact hsub x e h
  | .papp _ pats, _, h => by
      rw [Instance] at h ⊢
      exact ⟨h.1, Instances.mono hsub h.2⟩

theorem Instances.mono {env env' : MatchEnv} (hsub : ∀ x e, env x = some e → env' x = some e) :
    ∀ {ps : List Pat} {es : List Expr}, Instances env ps es → Instances env' ps es
  | [], [], _ => by rw [Instances]; trivial
  | p :: ps, e :: es, h => by
      rw [Instances] at h ⊢
      exact ⟨Instance.mono hsub h.1, Instances.mono hsub h.2⟩
  | [], _ :: _, h => by
      rw [Instances] at h
      · exact h.elim
      all_goals simp
  | _ :: _, [], h => by
      rw [Instances] at h
      · exact h.elim
      all_goals simp

end

theorem Instance.union {env₁ env₂ : MatchEnv} {p : Pat} {e : Expr} {ps : List Pat}
    {es : List Expr} (h₁ : Instance env₁ p e) (h₂ : Instances env₂ ps es)
    (hagree : Agree env₁ env₂) : Instances (union env₁ env₂) (p :: ps) (e :: es) := by
  rw [Instances]
  exact ⟨h₁.mono fun _ _ => union_left, h₂.mono fun _ _ => hagree.union_right⟩

theorem isSome_union {env₁ env₂ : MatchEnv} {p : Pat} {ps : List Pat}
    (h₁ : ∀ x, (env₁ x).isSome → x ∈ p.vars) (h₂ : ∀ x, (env₂ x).isSome → x ∈ varsAll ps)
    {x : Name} (hx : (union env₁ env₂ x).isSome) : x ∈ varsAll (p :: ps) := by
  rw [varsAll, List.mem_append]
  rw [Zipper.union, Option.isSome_or, Bool.or_eq_true] at hx
  exact hx.imp (h₁ x) (h₂ x)

/-- With different variables the bindings agree. -/
theorem agree_of_nodup {env₁ env₂ : MatchEnv} {p : Pat} {ps : List Pat}
    (h₁ : ∀ x, (env₁ x).isSome → x ∈ p.vars) (h₂ : ∀ x, (env₂ x).isSome → x ∈ varsAll ps)
    (hnodup : (varsAll (p :: ps)).Nodup) : Agree env₁ env₂ := by
  intro x e₁ e₂ hx₁ hx₂
  rw [varsAll, List.nodup_append] at hnodup
  have hp : x ∈ p.vars := h₁ x (by rw [hx₁]; rfl)
  have hps : x ∈ varsAll ps := h₂ x (by rw [hx₂]; rfl)
  exact absurd rfl (hnodup.2.2 x hp x hps)

/-! ## Clashes -/

/-- Somewhere the pattern asks for another constructor than there is, or for another
number of arguments. -/
inductive Clash : Pat → Expr → Prop where
  | constructor {name c : Name} {pats : List Pat} {e : Expr} (hhead : e.head = .con c)
      (hne : c ≠ name) : Clash (.papp name pats) e
  | arguments {name : Name} {pats : List Pat} {e : Expr} (hhead : e.head = .con name)
      (hne : e.args.length ≠ pats.length) : Clash (.papp name pats) e
  | inside {name : Name} {pats : List Pat} {p : Pat} {e e' : Expr} (i : Nat)
      (hhead : e.head = .con name) (hlength : e.args.length = pats.length)
      (hpat : pats[i]? = some p) (harg : e.args[i]? = some e') (h : Clash p e') :
      Clash (.papp name pats) e

mutual

theorem clash_of_notMatchable : ∀ {p : Pat} {e : Expr}, notMatchable p e → Clash p e
  | .pvar _, _, h => by simp [notMatchable] at h
  | .papp name pats, e, h => by
      rw [notMatchable, decomposeExpr_eq] at h
      cases hhead : e.head with
      | var x => simp [hhead] at h
      | con c =>
          rw [hhead] at h
          simp only [ne_eq, decide_not, Bool.or_eq_true, Bool.not_eq_eq_eq_not, Bool.not_true,
            decide_eq_false_iff_not] at h
          by_cases hname : c = name
          · subst hname
            by_cases hlength : e.args.length = pats.length
            · simp only [not_true_eq_false, hlength, or_self, false_or] at h
              obtain ⟨i, p, e', hpat, harg, hclash⟩ := clash_of_anyNotMatchable h
              exact .inside i hhead hlength hpat harg hclash
            · exact .arguments hhead hlength
          · exact .constructor hhead hname

private theorem clash_of_anyNotMatchable :
    ∀ {ps : List Pat} {es : List Expr}, anyNotMatchable ps es →
    ∃ (i : Nat) (p : Pat) (e : Expr), ps[i]? = some p ∧ es[i]? = some e ∧ Clash p e
  | [], _, h => by simp [anyNotMatchable] at h
  | _ :: _, [], h => by simp [anyNotMatchable] at h
  | p :: ps, e :: es, h => by
      rw [anyNotMatchable, Bool.or_eq_true] at h
      rcases h with h | h
      · exact ⟨0, p, e, rfl, rfl, clash_of_notMatchable h⟩
      · obtain ⟨i, p', e', hpat, harg, hclash⟩ := clash_of_anyNotMatchable h
        exact ⟨i + 1, p', e', hpat, harg, hclash⟩

end

end Mimuw.Functional.Zipper
