import Mimuw.Regexp.Accept
import Mimuw.Regexp.Parser

/-!
# Printed expressions are read back

The parser reads the tokens of an expression from any state in which an expression
can begin.  The factors of a concatenation stay on the stack until a token of lower
precedence comes, and are then joined from the right; unions are joined from the
left.  So the expression read may be another one, of the same language.
-/

namespace Mimuw.Regexp

open Mimuw.Lib

def literals {α : Type*} : Reg α → List α
  | .lit c => [c]
  | .concat r₁ r₂ => literals r₁ ++ literals r₂
  | .or r₁ r₂ => literals r₁ ++ literals r₂
  | .star r => literals r
  | .eps => []
  | .empty => []

/-! ## The tokens of a printed expression -/

def parenTokens (need : Bool) (ts : List Token) : List Token :=
  if need then .lpar :: ts ++ [Token.rpar] else ts

def reprTokens : Reg UInt8 → List Token
  | .lit c => [.char c]
  | .concat r₁ r₂ =>
      parenTokens (needParens (.concat r₁ r₂) r₁) (reprTokens r₁) ++
        parenTokens (needParens (.concat r₁ r₂) r₂) (reprTokens r₂)
  | .or r₁ r₂ =>
      parenTokens (needParens (.or r₁ r₂) r₁) (reprTokens r₁) ++
        .union :: parenTokens (needParens (.or r₁ r₂) r₂) (reprTokens r₂)
  | .star r => parenTokens (needParens (.star r) r) (reprTokens r) ++ [Token.star]
  | .eps => [.epsilon]
  | .empty => [.empty]

private theorem tokens_char {c : UInt8} (h : isChar c) (s : Bytes) :
    tokens (c :: s) = .char c :: tokens s := by
  have hrange : 48 ≤ c.toNat ∧ c.toNat ≤ 122 ∧ (c.toNat ≤ 57 ∨ 65 ≤ c.toNat) := by
    simp only [isChar, Bool.decide_or, Bool.or_eq_true, Bool.decide_and, Bool.and_eq_true,
      decide_eq_true_eq, UInt8.le_iff_toNat_le] at h
    simp only [UInt8.reduceToNat] at h
    omega
  have hne {b : UInt8} (hb : b.toNat < 48 ∨ 122 < b.toNat) : c ≠ b := by
    rintro rfl
    omega
  have htoken : byteToken c = .char c := by
    simp [byteToken, h, hne (b := 124) (by decide), hne (b := 42) (by decide),
      hne (b := 40) (by decide), hne (b := 41) (by decide)]
  rw [tokens]
  · simp [isWhite, htoken, hne (b := 32) (by decide), hne (b := 9) (by decide),
      hne (b := 10) (by decide)]
  · exact fun _ hc _ => hne (by decide) hc
  · exact fun _ hc _ => hne (by decide) hc

private theorem tokens_parens {s : Bytes} {ts : List Token}
    (h : ∀ rest, tokens (s ++ rest) = ts ++ tokens rest)
    (need : Bool) (rest : Bytes) :
    tokens (parens need s ++ rest) = parenTokens need ts ++ tokens rest := by
  cases need with
  | false => exact h rest
  | true =>
      have hlpar (rest : Bytes) : tokens (40 :: rest) = .lpar :: tokens rest := rfl
      have hrpar (rest : Bytes) : tokens (41 :: rest) = .rpar :: tokens rest := rfl
      simp [parens, parenTokens, hlpar, hrpar, h]

private theorem tokens_repr {r : Reg UInt8} (h : ∀ c ∈ literals r, isChar c) (rest : Bytes) :
    tokens (toString r ++ rest) = reprTokens r ++ tokens rest := by
  unfold toString
  induction r generalizing rest with
  | lit c => exact tokens_char (h c (List.mem_singleton_self c)) rest
  | concat r₁ r₂ ih₁ ih₂ =>
      have h₁ := ih₁ fun c hc => h c (List.mem_append_left _ hc)
      have h₂ := ih₂ fun c hc => h c (List.mem_append_right _ hc)
      rw [repr, List.append_assoc, tokens_parens h₁, tokens_parens h₂, reprTokens,
        List.append_assoc]
  | or r₁ r₂ ih₁ ih₂ =>
      have h₁ := ih₁ fun c hc => h c (List.mem_append_left _ hc)
      have h₂ := ih₂ fun c hc => h c (List.mem_append_right _ hc)
      have hunion (rest : Bytes) : tokens (124 :: rest) = .union :: tokens rest := rfl
      rw [repr, List.append_assoc, tokens_parens h₁, List.cons_append, hunion, tokens_parens h₂,
        reprTokens, List.append_assoc, List.cons_append]
  | star r ih =>
      have hstar (rest : Bytes) : tokens (42 :: rest) = .star :: tokens rest := rfl
      rw [repr, List.append_assoc, tokens_parens (ih h), List.singleton_append, hstar, reprTokens,
        List.append_assoc, List.singleton_append]
  | eps => rfl
  | empty => rfl

/-! ## The states -/

abbrev State := List (Item Rule)

abbrev Stack := List (State × Value)

/-- The states after `(`, after `|`, and between two expressions side by side. -/
def afterLpar : State := grammar.goto grammar.start .LPAR

def afterUnion : State := grammar.goto (grammar.goto grammar.start .re) .UNION

def sideBySide : State := grammar.goto (grammar.goto grammar.start .re) .re

/-- The states in which an expression can begin, without or with one to the left. -/
def opens : List State :=
  [grammar.start, afterLpar, afterUnion, grammar.goto grammar.start .re, grammar.goto afterLpar .re,
    grammar.goto afterUnion .re, sideBySide]

/-- After these an expression is at its end, or another term of a union begins. -/
def enders : List Token := [.union, .rpar, .eof]

/-- The states in which a whole expression is read. -/
def outers : List State := [grammar.start, afterLpar]

/-- What the tables say about these states. -/
structure Tables : Prop where
  sole_opens : ∀ K ∈ opens, grammar.sole K = none
  goto_opens : ∀ K ∈ opens, grammar.goto K .re ∈ opens
  goto_goto_opens : ∀ K ∈ opens, grammar.goto (grammar.goto K .re) .re = sideBySide
  outers_opens : ∀ K ∈ outers, K ∈ opens
  afterUnion_opens : afterUnion ∈ opens
  sideBySide_opens : sideBySide ∈ opens
  action_atom : ∀ K ∈ opens, ∀ rule ∈ [Rule.char, .epsilon, .empty],
    ∀ s ∈ rule.rhs, grammar.actionOn K s = .shift [⟨rule, 1⟩]
  action_lpar : ∀ K ∈ opens, grammar.actionOn K .LPAR = .shift afterLpar
  action_star : ∀ K ∈ opens, grammar.actionOn (grammar.goto K .re) .STAR = .shift [⟨.star, 2⟩]
  action_rpar : grammar.actionOn (grammar.goto afterLpar .re) .RPAR = .shift [⟨.paren, 3⟩]
  action_eof : grammar.actionOn (grammar.goto grammar.start .re) .EOF = .shift [⟨.regex, 2⟩]
  action_outer : ∀ K ∈ outers,
    grammar.actionOn (grammar.goto K .re) .UNION = .shift afterUnion
  action_sideBySide : ∀ t ∈ enders,
    grammar.actionOn sideBySide t.symbol = .reduce .juxtaposition
  action_union : ∀ t ∈ enders,
    grammar.actionOn (grammar.goto afterUnion .re) t.symbol = .reduce .union
  sole_atom : ∀ rule ∈ [Rule.char, .epsilon, .empty], grammar.sole [⟨rule, 1⟩] = some rule ∧
    rule ≠ .entry ∧ 1 = rule.rhs.length ∧ rule.lhs = .re
  sole_star : grammar.sole [⟨.star, 2⟩] = some .star
  sole_paren : grammar.sole [⟨.paren, 3⟩] = some .paren
  sole_regex : grammar.sole [⟨.regex, 2⟩] = some .regex
  sole_entry : grammar.sole (grammar.goto grammar.start .regex) = some .entry
  complete_entry : grammar.complete (grammar.goto grammar.start .regex) = some .entry

theorem tables : Tables := by
  constructor <;> decide +kernel

/-! ## Factors -/

/-- A value of `re` goes on the stack. -/
abbrev pushReg (stack : Stack) (r : Reg UInt8) : Stack := grammar.push .re stack (.reg r)

def pushRegs (rs : List (Reg UInt8)) (stack : Stack) : Stack := rs.foldl pushReg stack

section Kinds

variable {stack : Stack} {rest : List Token}

private theorem steps_shift {t : Token} {target : State}
    (hsole : grammar.sole (grammar.top stack) = none)
    (haction : grammar.actionOn (grammar.top stack) t.symbol = .shift target) :
    grammar.Steps ⟨stack, t :: rest⟩ ⟨(target, .token t) :: stack, rest⟩ :=
  Grammar.Steps.shift hsole haction

private theorem steps_sole {rule : Rule} {v : Value} (popped : Stack)
    (hsole : grammar.sole (grammar.top (popped ++ stack)) = some rule) (hentry : rule ≠ .entry)
    (hlength : popped.length = rule.rhs.length)
    (haction : rule.action (popped.reverse.map Prod.snd) = some v) :
    grammar.Steps ⟨popped ++ stack, rest⟩ ⟨grammar.push rule.lhs stack v, rest⟩ :=
  Grammar.Steps.sole hsole hentry (Grammar.reduce_append popped stack hlength haction)

private theorem steps_reduce {t : Token} (rule : Rule) (v : Value) (popped : Stack)
    (hsole : grammar.sole (grammar.top (popped ++ stack)) = none)
    (hlookahead : grammar.actionOn (grammar.top (popped ++ stack)) t.symbol = .reduce rule)
    (hlength : popped.length = rule.rhs.length)
    (haction : rule.action (popped.reverse.map Prod.snd) = some v) :
    grammar.Steps ⟨popped ++ stack, t :: rest⟩ ⟨grammar.push rule.lhs stack v, t :: rest⟩ :=
  Grammar.Steps.reduce hsole hlookahead (Grammar.reduce_append popped stack hlength haction)

end Kinds

section Factors

variable (stack : Stack) (rest : List Token)

/-- One token for a whole expression. -/
structure Atom (t : Token) (rule : Rule) (r : Reg UInt8) : Prop where
  mem : rule ∈ [Rule.char, .epsilon, .empty]
  symbol : t.symbol ∈ rule.rhs
  action : rule.action [.token t] = some (.reg r)

private theorem steps_atom {t : Token} {rule : Rule} {r : Reg UInt8} (hatom : Atom t rule r)
    (h : grammar.top stack ∈ opens) :
    grammar.Steps ⟨stack, t :: rest⟩ ⟨pushReg stack r, rest⟩ := by
  have hshift := tables.action_atom _ h rule hatom.mem _ hatom.symbol
  obtain ⟨hsole, hentry, hlength, hlhs⟩ := tables.sole_atom rule hatom.mem
  have hreduce : grammar.Steps ⟨([⟨rule, 1⟩], .token t) :: stack, rest⟩
      ⟨grammar.push rule.lhs stack (.reg r), rest⟩ :=
    steps_sole [([⟨rule, 1⟩], .token t)] hsole hentry hlength hatom.action
  rw [hlhs] at hreduce
  exact (steps_shift (tables.sole_opens _ h) hshift).trans hreduce

private theorem steps_star {r : Reg UInt8} (h : grammar.top stack ∈ opens) :
    grammar.Steps ⟨pushReg stack r, .star :: rest⟩ ⟨pushReg stack (.star r), rest⟩ := by
  have hshift : grammar.Steps ⟨pushReg stack r, .star :: rest⟩
      ⟨([⟨.star, 2⟩], .token .star) :: pushReg stack r, rest⟩ :=
    steps_shift (tables.sole_opens _ (tables.goto_opens _ h)) (tables.action_star _ h)
  exact hshift.trans
    (steps_sole [([⟨.star, 2⟩], .token .star), (_, .reg r)] tables.sole_star (by decide) rfl rfl)

private theorem steps_paren {r : Reg UInt8} {ts : List Token} (h : grammar.top stack ∈ opens)
    (hinner : grammar.Steps ⟨(afterLpar, .token .lpar) :: stack, ts ++ .rpar :: rest⟩
      ⟨pushReg ((afterLpar, .token .lpar) :: stack) r, .rpar :: rest⟩) :
    grammar.Steps ⟨stack, .lpar :: ts ++ .rpar :: rest⟩ ⟨pushReg stack r, rest⟩ := by
  have hlpar : afterLpar ∈ opens :=
    tables.outers_opens _ (List.mem_cons_of_mem _ List.mem_cons_self)
  have hopen : grammar.Steps ⟨stack, .lpar :: ts ++ .rpar :: rest⟩
      ⟨(afterLpar, .token .lpar) :: stack, ts ++ .rpar :: rest⟩ :=
    steps_shift (tables.sole_opens _ h) (tables.action_lpar _ h)
  have hclose : grammar.Steps ⟨pushReg ((afterLpar, .token .lpar) :: stack) r, .rpar :: rest⟩
      ⟨([⟨.paren, 3⟩], .token .rpar) :: pushReg ((afterLpar, .token .lpar) :: stack) r, rest⟩ :=
    steps_shift (tables.sole_opens _ (tables.goto_opens afterLpar hlpar)) tables.action_rpar
  exact hopen.trans (hinner.trans (hclose.trans (steps_sole
    [([⟨.paren, 3⟩], .token .rpar), (_, .reg r), (afterLpar, .token .lpar)]
    tables.sole_paren (by decide) rfl rfl)))

/-! ## Joining -/

private theorem steps_juxtaposition {r₁ r₂ : Reg UInt8} {t : Token} (ht : t ∈ enders)
    (h : grammar.top stack ∈ opens) :
    grammar.Steps ⟨pushReg (pushReg stack r₁) r₂, t :: rest⟩
      ⟨pushReg stack (.concat r₁ r₂), t :: rest⟩ := by
  have htop : grammar.top (pushReg (pushReg stack r₁) r₂) = sideBySide := tables.goto_goto_opens _ h
  refine steps_reduce .juxtaposition (.reg (.concat r₁ r₂))
    [(_, .reg r₂), (_, .reg r₁)] ?_ ?_ rfl rfl
  · exact htop ▸ tables.sole_opens _ tables.sideBySide_opens
  · exact htop ▸ tables.action_sideBySide t ht

/-- The expressions side by side are joined from the right. -/
private theorem steps_joined {t : Token} (ht : t ∈ enders) (rs : List (Reg UInt8)) (r : Reg UInt8)
    (h : grammar.top stack ∈ opens) :
    ∃ r', grammar.Steps ⟨pushRegs (r :: rs) stack, t :: rest⟩ ⟨pushReg stack r', t :: rest⟩ ∧
      language r' = language r * (rs.map language).prod := by
  induction rs generalizing stack r with
  | nil => exact ⟨r, .refl, by simp⟩
  | cons r₁ rs ih =>
      obtain ⟨r', hsteps, hlanguage⟩ := ih (pushReg stack r) r₁ (tables.goto_opens _ h)
      refine ⟨.concat r r', hsteps.trans (steps_juxtaposition stack rest ht h), ?_⟩
      rw [language, hlanguage, List.map_cons, List.prod_cons]

/-- A union of which the left side is already read. -/
def pending (left : Option (Reg UInt8)) (stack : Stack) : Stack :=
  match left with
  | none => stack
  | some r => (afterUnion, .token .union) :: pushReg stack r

private theorem pending_opens (left : Option (Reg UInt8)) (h : grammar.top stack ∈ outers) :
    grammar.top (pending left stack) ∈ opens := by
  cases left with
  | none => exact tables.outers_opens _ h
  | some r => exact tables.afterUnion_opens

private theorem steps_pending {t : Token} (ht : t ∈ enders) (left : Option (Reg UInt8))
    (r : Reg UInt8) :
    ∃ r', grammar.Steps ⟨pushReg (pending left stack) r, t :: rest⟩ ⟨pushReg stack r', t :: rest⟩ ∧
      language r' = left.elim 0 language + language r := by
  cases left with
  | none => exact ⟨r, .refl, by simp⟩
  | some r₁ =>
      refine ⟨.or r₁ r, steps_reduce .union (.reg (.or r₁ r))
        [(_, .reg r), (afterUnion, .token .union), (_, .reg r₁)] ?_ ?_ rfl rfl, rfl⟩
      · exact tables.sole_opens _ (tables.goto_opens _ tables.afterUnion_opens)
      · exact tables.action_union t ht

end Factors

/-! ## Reading a printed expression -/

/-- Its factors go on the stack, one by one. -/
def ReadsFactors (r : Reg UInt8) (ts : List Token) : Prop :=
  ∀ (stack : Stack) rest, grammar.top stack ∈ opens →
    ∃ r₁ rs, grammar.Steps ⟨stack, ts ++ rest⟩ ⟨pushRegs (r₁ :: rs) stack, rest⟩ ∧
      language r₁ * (rs.map language).prod = language r

/-- It goes on the stack as one, joined with what is to the left of a union. -/
def ReadsTerms (r : Reg UInt8) (ts : List Token) : Prop :=
  ∀ (stack : Stack) rest left, ∀ t ∈ enders, grammar.top stack ∈ outers →
    ∃ r', grammar.Steps ⟨pending left stack, ts ++ t :: rest⟩ ⟨pushReg stack r', t :: rest⟩ ∧
      language r' = left.elim 0 language + language r

section Reads

variable {r r₁ r₂ : Reg UInt8} {ts ts₁ ts₂ : List Token}

private theorem ReadsFactors.terms (h : ReadsFactors r ts) : ReadsTerms r ts := by
  intro stack rest left t ht houter
  have hopens := pending_opens stack left houter
  obtain ⟨r₁, rs, hfactors, hlanguage⟩ := h (pending left stack) (t :: rest) hopens
  obtain ⟨r₂, hjoined, hlanguage₂⟩ := steps_joined _ rest ht rs r₁ hopens
  obtain ⟨r₃, hpending, hlanguage₃⟩ := steps_pending stack rest ht left r₂
  refine ⟨r₃, hfactors.trans (hjoined.trans hpending), ?_⟩
  rw [hlanguage₃, hlanguage₂, hlanguage]

theorem ReadsTerms.paren (h : ReadsTerms r ts) (stack : Stack) (rest : List Token)
    (hopens : grammar.top stack ∈ opens) :
    ∃ r', grammar.Steps ⟨stack, parenTokens true ts ++ rest⟩ ⟨pushReg stack r', rest⟩ ∧
      language r' = language r := by
  obtain ⟨r', hsteps, hlanguage⟩ := h ((afterLpar, .token .lpar) :: stack) rest none .rpar
    (by decide) (List.mem_cons_of_mem _ (List.mem_singleton_self _))
  refine ⟨r', ?_, by simpa using hlanguage⟩
  have := steps_paren stack rest hopens hsteps
  simpa [parenTokens] using this

private theorem ReadsTerms.parenFactors (h : ReadsTerms r ts) :
    ReadsFactors r (parenTokens true ts) := by
  intro stack rest hopens
  obtain ⟨r', hsteps, hlanguage⟩ := h.paren stack rest hopens
  exact ⟨r', [], hsteps, by simpa using hlanguage⟩

private theorem readsFactors_atom {t : Token} {rule : Rule} (h : Atom t rule r) :
    ReadsFactors r [t] :=
  fun _ _ hopens => ⟨r, [], steps_atom _ _ h hopens, by simp⟩

private theorem pushRegs_opens (rs : List (Reg UInt8)) {stack : Stack}
    (h : grammar.top stack ∈ opens) :
    grammar.top (pushRegs rs stack) ∈ opens := by
  induction rs generalizing stack with
  | nil => exact h
  | cons r rs ih => exact ih (tables.goto_opens _ h)

theorem ReadsFactors.concat (h₁ : ReadsFactors r₁ ts₁) (h₂ : ReadsFactors r₂ ts₂) :
    ReadsFactors (.concat r₁ r₂) (ts₁ ++ ts₂) := by
  intro stack rest hopens
  obtain ⟨s₁, rs₁, hsteps₁, hlanguage₁⟩ := h₁ stack (ts₂ ++ rest) hopens
  obtain ⟨s₂, rs₂, hsteps₂, hlanguage₂⟩ :=
    h₂ (pushRegs (s₁ :: rs₁) stack) rest (pushRegs_opens _ hopens)
  refine ⟨s₁, rs₁ ++ s₂ :: rs₂, ?_, ?_⟩
  · rw [List.append_assoc]
    have happend : pushRegs (s₁ :: rs₁ ++ s₂ :: rs₂) stack =
        pushRegs (s₂ :: rs₂) (pushRegs (s₁ :: rs₁) stack) := List.foldl_append
    rw [List.cons_append] at happend
    rw [happend]
    exact hsteps₁.trans hsteps₂
  · rw [language, ← hlanguage₁, ← hlanguage₂]
    simp [mul_assoc]

theorem ReadsTerms.or (h₁ : ReadsTerms r₁ ts₁) (h₂ : ReadsTerms r₂ ts₂) :
    ReadsTerms (.or r₁ r₂) (ts₁ ++ .union :: ts₂) := by
  intro stack rest left t ht houter
  obtain ⟨s₁, hsteps₁, hlanguage₁⟩ := h₁ stack (ts₂ ++ t :: rest) left .union (by decide) houter
  obtain ⟨s₂, hsteps₂, hlanguage₂⟩ := h₂ stack rest (some s₁) t ht houter
  have hshift : grammar.Steps ⟨pushReg stack s₁, .union :: (ts₂ ++ t :: rest)⟩
      ⟨pending (some s₁) stack, ts₂ ++ t :: rest⟩ :=
    steps_shift (tables.sole_opens _ (tables.goto_opens _ (tables.outers_opens _ houter)))
      (tables.action_outer _ houter)
  refine ⟨s₂, ?_, ?_⟩
  · rw [List.append_assoc]
    exact hsteps₁.trans (hshift.trans hsteps₂)
  · rw [hlanguage₂, Option.elim_some, hlanguage₁, language, add_assoc]

theorem ReadsTerms.star (h : ReadsTerms r ts)
    (hatom : needParens (.star r) r = false → ∃ t rule, ts = [t] ∧ Atom t rule r) :
    ReadsFactors (.star r) (parenTokens (needParens (.star r) r) ts ++ [Token.star]) := by
  intro stack rest hopens
  have hone : ∃ r', grammar.Steps
      ⟨stack, parenTokens (needParens (.star r) r) ts ++ .star :: rest⟩
        ⟨pushReg stack r', .star :: rest⟩ ∧ language r' = language r := by
    cases hneed : needParens (.star r) r with
    | true => exact h.paren stack _ hopens
    | false =>
        obtain ⟨t, rule, rfl, hone⟩ := hatom hneed
        exact ⟨r, steps_atom _ _ hone hopens, rfl⟩
  obtain ⟨r', hsteps, hlanguage⟩ := hone
  refine ⟨.star r', [], ?_, by simp [language, hlanguage]⟩
  rw [List.append_assoc]
  exact hsteps.trans (steps_star _ _ hopens)

end Reads

private theorem atom_lit (c : UInt8) : Atom (.char c) .char (.lit c) :=
  ⟨by simp, by simp [Token.symbol, Rule.rhs], rfl⟩

private theorem atom_eps : Atom .epsilon .epsilon .eps :=
  ⟨by simp, by simp [Token.symbol, Rule.rhs], rfl⟩

private theorem atom_empty : Atom .empty .empty .empty :=
  ⟨by simp, by simp [Token.symbol, Rule.rhs], rfl⟩

/-- Without a union outside of parentheses the expression is a row of factors. -/
theorem reads (r : Reg UInt8) :
    ReadsTerms r (reprTokens r) ∧ ((∀ r₁ r₂, r ≠ .or r₁ r₂) → ReadsFactors r (reprTokens r)) := by
  induction r with
  | lit c =>
      have := readsFactors_atom (atom_lit c)
      exact ⟨this.terms, fun _ => this⟩
  | eps =>
      have := readsFactors_atom atom_eps
      exact ⟨this.terms, fun _ => this⟩
  | empty =>
      have := readsFactors_atom atom_empty
      exact ⟨this.terms, fun _ => this⟩
  | concat r₁ r₂ ih₁ ih₂ =>
      have hchild {r : Reg UInt8}
          (ih : ReadsTerms r (reprTokens r) ∧
            ((∀ r₁ r₂, r ≠ .or r₁ r₂) → ReadsFactors r (reprTokens r))) :
          ReadsFactors r (parenTokens (needParens (.concat r₁ r₂) r) (reprTokens r)) := by
        cases r with
        | or => exact ih.1.parenFactors
        | _ => exact ih.2 nofun
      have := (hchild ih₁).concat (hchild ih₂)
      exact ⟨this.terms, fun _ => this⟩
  | or r₁ r₂ ih₁ ih₂ =>
      have hchild {r : Reg UInt8} (h : ReadsTerms r (reprTokens r)) :
          ReadsTerms r (parenTokens (needParens (.or r₁ r₂) r) (reprTokens r)) := by
        cases r <;> exact h
      exact ⟨(hchild ih₁.1).or (hchild ih₂.1), fun hne => absurd rfl (hne r₁ r₂)⟩
  | star r ih =>
      have hatom : needParens (.star r) r = false →
          ∃ t rule, reprTokens r = [t] ∧ Atom t rule r := by
        intro hneed
        cases r with
        | lit c => exact ⟨_, _, rfl, atom_lit c⟩
        | eps => exact ⟨_, _, rfl, atom_eps⟩
        | empty => exact ⟨_, _, rfl, atom_empty⟩
        | _ => cases hneed
      have := ih.1.star hatom
      exact ⟨this.terms, fun _ => this⟩

theorem Parses.unique {s : Bytes} {r r' : Reg UInt8} (h : Parses s r)
    (h' : Parses s r') : r = r' := by
  have hparse {fuel : Nat} {r : Reg UInt8} (h : parse fuel s = some r) :
      grammar.parse fuel (tokens s) = some (.reg r) := by
    unfold parse at h
    split at h
    · rename_i r' hr'
      rw [hr', Option.some.inj h]
    · cases h
  obtain ⟨fuel, hfuel⟩ := h
  obtain ⟨more, hmore⟩ := h'
  exact Value.reg.inj (Grammar.parse_unique (hparse hfuel) (hparse hmore))

private theorem parses_toString {r : Reg UInt8} (h : ∀ c ∈ literals r, isChar c) :
    ∃ r', Parses (toString r) r' ∧ language r' = language r := by
  have houter : grammar.top ([] : Stack) ∈ outers := List.mem_cons_self
  obtain ⟨r', hsteps, hlanguage⟩ := (reads r).1 [] [] none .eof (by decide) houter
  have hshift : grammar.Steps ⟨pushReg [] r', [.eof]⟩
      ⟨([⟨.regex, 2⟩], .token .eof) :: pushReg [] r', []⟩ :=
    steps_shift (tables.sole_opens _
      (tables.goto_opens _ (tables.outers_opens _ houter))) tables.action_eof
  have hreduce : grammar.Steps ⟨([⟨.regex, 2⟩], .token .eof) :: pushReg [] r', []⟩
      ⟨grammar.push .regex [] (.reg r'), []⟩ :=
    steps_sole [([⟨.regex, 2⟩], .token .eof), (_, .reg r')] tables.sole_regex (by decide) rfl rfl
  obtain ⟨fuel, hfuel⟩ := Grammar.parse_of_steps (hsteps.trans (hshift.trans hreduce))
    (Grammar.parserStep_entry tables.sole_entry) (Grammar.result_eq tables.complete_entry)
  refine ⟨r', ⟨fuel, ?_⟩, by simpa using hlanguage⟩
  have htokens : tokens (toString r) = reprTokens r ++ [Token.eof] := by
    have := tokens_repr h []
    rwa [List.append_nil] at this
  rw [parse, htokens, hfuel]

/-- A printed expression is read back as one that accepts the same words. -/
theorem parse_toString (r : Reg UInt8) (h : ∀ c ∈ literals r, isChar c) :
    ∃ r', Parses (toString r) r' ∧ ∀ w, accept r' w = accept r w := by
  obtain ⟨r', hparses, hlanguage⟩ := parses_toString h
  refine ⟨r', hparses, fun w => ?_⟩
  rw [Bool.eq_iff_iff, accept, accept, nullable_ders, nullable_ders, hlanguage]

/-- `a(bc)|(d|e)` without its parentheses. -/
theorem parse_toString_abc : ∃ r', Parses (toString (.or (.concat (.lit 97)
    (.concat (.lit 98) (.lit 99))) (.or (.lit 100) (.lit 101)))) r' ∧
      ∀ w, accept r' w = accept (.or (.concat (.lit 97) (.concat (.lit 98) (.lit 99)))
        (.or (.lit 100) (.lit 101))) w :=
  parse_toString _ (by simp [literals, isChar])

end Mimuw.Regexp
