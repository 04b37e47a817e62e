import Mathlib.Logic.Function.Iterate
import Mimuw.Lib.Runs

/-!
# Parsers of ambiguous grammars

The shift-reduce parsers that yacc makes.  A state is the list of its kernel items.
Where a token could be shifted and could also end a rule, the precedence of the
token is compared with that of the rule.
-/

namespace Mimuw.Lib

inductive Assoc where
  | left
  | right
  | nonassoc
  deriving DecidableEq, Repr

/-- A rule with so many of its symbols read. -/
structure Item (ρ : Type*) where
  rule : ρ
  dot : Nat
  deriving DecidableEq, Repr

/-- Rules `ρ` over symbols `σ`, with tokens `τ` and semantic values `ν`. -/
structure Grammar (σ ρ τ ν : Type*) where
  /-- in the order of the file -/
  rules : List ρ
  /-- the rule that is added for the start symbol -/
  entry : ρ
  lhs : ρ → σ
  rhs : ρ → List σ
  prec : σ → Option (Nat × Assoc)
  /-- the symbol given by %prec -/
  precSymbol : ρ → Option σ
  /-- the terminals that can follow a nonterminal -/
  follow : σ → σ → Bool
  terminal : τ → σ
  value : τ → ν
  action : ρ → List ν → Option ν

structure ParserConfig (ρ τ ν : Type*) where
  stack : List (List (Item ρ) × ν)
  input : List τ

inductive ParserAction (ρ : Type*) where
  | shift (target : List (Item ρ))
  | reduce (rule : ρ)
  | error
  deriving DecidableEq, Repr

namespace Grammar

variable {σ ρ τ ν : Type*} [DecidableEq σ] [DecidableEq ρ] (G : Grammar σ ρ τ ν)

/-! ## States -/

def next (item : Item ρ) : Option σ := (G.rhs item.rule)[item.dot]?

/-- The rules that can begin where an item of the list stands. -/
def expand (items : List (Item ρ)) : List (Item ρ) :=
  items ++ (G.rules.filter fun rule =>
    decide (some (G.lhs rule) ∈ items.map G.next ∧ ⟨rule, 0⟩ ∉ items)).map (⟨·, 0⟩)

def closure (kernel : List (Item ρ)) : List (Item ρ) := G.expand^[G.rules.length] kernel

def start : List (Item ρ) := [⟨G.entry, 0⟩]

/-- No item: there is no such transition. -/
@[irreducible] def goto (kernel : List (Item ρ)) (symbol : σ) : List (Item ρ) :=
  ((G.closure kernel).filter fun item => G.next item = some symbol).map
    fun item => ⟨item.rule, item.dot + 1⟩

/-- The first rule that is read to its end. -/
@[irreducible] def complete (kernel : List (Item ρ)) : Option ρ :=
  (kernel.find? fun item => G.next item = none).map Item.rule

/-- A state in which nothing but the end of a rule is possible. -/
@[irreducible] def sole (kernel : List (Item ρ)) : Option ρ :=
  if (G.closure kernel).all fun item => G.next item = none then G.complete kernel else none

/-! ## Precedences -/

/-- The precedence of a rule is that of its last terminal, unless %prec gives it. -/
def rulePrec (rule : ρ) : Option Nat :=
  let symbol := (G.precSymbol rule).or
    ((G.rhs rule).reverse.find? fun symbol => G.rules.all fun rule => G.lhs rule ≠ symbol)
  (symbol.bind G.prec).map Prod.fst

@[irreducible] def actionOn (kernel : List (Item ρ)) (terminal : σ) : ParserAction ρ :=
  let target := G.goto kernel terminal
  let shift := if target = [] then .error else .shift target
  match G.complete kernel with
  | none => shift
  | some rule =>
      if !G.follow (G.lhs rule) terminal then shift
      else if target = [] then .reduce rule
      else
        match G.rulePrec rule, G.prec terminal with
        | some level, some (level', assoc) =>
            if level < level' then .shift target
            else if level' < level then .reduce rule
            else
              match assoc with
              | .left => .reduce rule
              | .right => .shift target
              | .nonassoc => .error
        -- Without precedences yacc reports the conflict and shifts.
        | _, _ => .shift target

/-! ## Steps -/

def top (stack : List (List (Item ρ) × ν)) : List (Item ρ) :=
  (stack.head?.map Prod.fst).getD G.start

/-- A value for the symbol goes on the stack. -/
def push (symbol : σ) (stack : List (List (Item ρ) × ν)) (v : ν) : List (List (Item ρ) × ν) :=
  (G.goto (G.top stack) symbol, v) :: stack

def reduce (rule : ρ) (stack : List (List (Item ρ) × ν)) : Option (List (List (Item ρ) × ν)) :=
  let length := (G.rhs rule).length
  if stack.length < length then none
  else
    (G.action rule ((stack.take length).reverse.map Prod.snd)).map
      (G.push (G.lhs rule) (stack.drop length))

/-- `none` at the end of the parse and on an error. -/
def parserStep (c : ParserConfig ρ τ ν) : Option (ParserConfig ρ τ ν) :=
  match G.sole (G.top c.stack) with
  | some rule =>
      if rule = G.entry then none else (G.reduce rule c.stack).map fun stack => ⟨stack, c.input⟩
  | none =>
      match c.input with
      | [] => none
      | token :: input =>
          match G.actionOn (G.top c.stack) (G.terminal token) with
          | .shift target => some ⟨(target, G.value token) :: c.stack, input⟩
          | .reduce rule => (G.reduce rule c.stack).map fun stack => ⟨stack, token :: input⟩
          | .error => none

def result (c : ParserConfig ρ τ ν) : Option ν :=
  if G.complete (G.top c.stack) = some G.entry then c.stack.head?.map Prod.snd else none

def parse (fuel : Nat) (input : List τ) : Option ν :=
  ((trace G.parserStep fuel ⟨[], input⟩).bind List.getLast?).bind G.result

def Steps : ParserConfig ρ τ ν → ParserConfig ρ τ ν → Prop :=
  Relation.ReflTransGen fun a b => G.parserStep a = some b

variable {G}

theorem parse_of_steps {input : List τ} {c : ParserConfig ρ τ ν} {v : ν}
    (hsteps : G.Steps ⟨[], input⟩ c) (hend : G.parserStep c = none)
    (hresult : G.result c = some v) :
    ∃ fuel, G.parse fuel input = some v := by
  obtain ⟨fuel, path, hpath, hlast⟩ := trace_of_steps hsteps hend
  exact ⟨fuel, by simp [parse, hpath, hlast, hresult]⟩

/-- Whatever the fuel, the parse has one value. -/
theorem parse_unique {input : List τ} {fuel more : Nat} {v v' : ν}
    (h : G.parse fuel input = some v) (h' : G.parse more input = some v') : v = v' := by
  obtain ⟨c, hc, hv⟩ := Option.bind_eq_some_iff.mp h
  obtain ⟨c', hc', hv'⟩ := Option.bind_eq_some_iff.mp h'
  obtain ⟨path, hpath, hlast⟩ := Option.bind_eq_some_iff.mp hc
  obtain ⟨path', hpath', hlast'⟩ := Option.bind_eq_some_iff.mp hc'
  have heq : path = path' := by
    rcases Nat.le_total fuel more with hle | hle
    · exact Option.some.inj ((trace_mono hpath hle).symm.trans hpath')
    · exact Option.some.inj (hpath.symm.trans (trace_mono hpath' hle))
  subst heq
  obtain rfl := Option.some.inj (hlast.symm.trans hlast')
  exact Option.some.inj (hv.symm.trans hv')

theorem parserStep_entry {c : ParserConfig ρ τ ν} (h : G.sole (G.top c.stack) = some G.entry) :
    G.parserStep c = none := by
  simp [parserStep, h]

omit [DecidableEq σ] in
theorem result_eq {kernel : List (Item ρ)} {v : ν} {stack : List (List (Item ρ) × ν)}
    {input : List τ} (h : G.complete kernel = some G.entry) :
    G.result ⟨(kernel, v) :: stack, input⟩ = some v :=
  if_pos h

/-- What a rule takes from the top of the stack. -/
theorem reduce_append {rule : ρ} {v : ν} (popped stack : List (List (Item ρ) × ν))
    (hlength : popped.length = (G.rhs rule).length)
    (haction : G.action rule (popped.reverse.map Prod.snd) = some v) :
    G.reduce rule (popped ++ stack) = some (G.push (G.lhs rule) stack v) := by
  have hnot : ¬ (popped ++ stack).length < popped.length := by simp
  simp only [reduce, ← hlength, if_neg hnot, List.take_left, List.drop_left, haction,
    Option.map_some]

/-! ### The three kinds of step -/

section Kinds

variable {stack : List (List (Item ρ) × ν)} {token : τ} {input : List τ}

theorem Steps.shift {target : List (Item ρ)} (hsole : G.sole (G.top stack) = none)
    (haction : G.actionOn (G.top stack) (G.terminal token) = .shift target) :
    G.Steps ⟨stack, token :: input⟩ ⟨(target, G.value token) :: stack, input⟩ :=
  .single (by simp [parserStep, hsole, haction])

theorem Steps.reduce {rule : ρ} {stack' : List (List (Item ρ) × ν)}
    (hsole : G.sole (G.top stack) = none)
    (haction : G.actionOn (G.top stack) (G.terminal token) = .reduce rule)
    (hreduce : G.reduce rule stack = some stack') :
    G.Steps ⟨stack, token :: input⟩ ⟨stack', token :: input⟩ :=
  .single (by simp [parserStep, hsole, haction, hreduce])

theorem Steps.sole {rule : ρ} {stack' : List (List (Item ρ) × ν)}
    (hsole : G.sole (G.top stack) = some rule) (hentry : rule ≠ G.entry)
    (hreduce : G.reduce rule stack = some stack') :
    G.Steps ⟨stack, input⟩ ⟨stack', input⟩ :=
  .single (by simp [parserStep, hsole, hentry, hreduce])

end Kinds

omit [DecidableEq σ] [DecidableEq ρ] in
@[simp] theorem top_cons (kernel : List (Item ρ)) (v : ν) (stack : List (List (Item ρ) × ν)) :
    G.top ((kernel, v) :: stack) = kernel := rfl

@[simp] theorem top_push (symbol : σ) (stack : List (List (Item ρ) × ν)) (v : ν) :
    G.top (G.push symbol stack v) = G.goto (G.top stack) symbol := rfl

end Grammar

end Mimuw.Lib
