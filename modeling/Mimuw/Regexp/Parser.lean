import Mimuw.Lib.ShiftReduce
import Mimuw.Regexp.Model

/-!
# Texts of regular expressions

`to_string`, and the parser made from `lexer.mll` and `parser.mly`.  Strings are
lists of bytes, as in OCaml; the source files are in UTF-8.
-/

namespace Mimuw.Regexp

open Mimuw.Lib

abbrev Bytes := List UInt8

/-! ## Printing -/

def needParens {α : Type*} (parent child : Reg α) : Bool :=
  match parent, child with
  | .or _ _, .or _ _ => false
  | .concat _ _, .concat _ _ => false
  | .or _ _, .concat _ _ => false
  | .or _ _, .star _ => false
  | .concat _ _, .star _ => false
  | _, .lit _ => false
  | _, .eps => false
  | _, .empty => false
  | _, _ => true

/-- `"(" ^ s ^ ")"` where they are needed. -/
def parens (need : Bool) (s : Bytes) : Bytes := if need then 40 :: s ++ [41] else s

def repr {α : Type*} (f : α → Bytes) : Reg α → Bytes
  | .lit c => f c
  | .concat r₁ r₂ =>
      parens (needParens (.concat r₁ r₂) r₁) (repr f r₁) ++
        parens (needParens (.concat r₁ r₂) r₂) (repr f r₂)
  | .or r₁ r₂ =>
      parens (needParens (.or r₁ r₂) r₁) (repr f r₁) ++
        124 :: parens (needParens (.or r₁ r₂) r₂) (repr f r₂)
  | .star r => parens (needParens (.star r) r) (repr f r) ++ [42]
  | .eps => [0xCE, 0xB5]
  | .empty => [0xE2, 0x88, 0x85]

def toString (r : Reg UInt8) : Bytes := repr (fun c => [c]) r

/-! ## The lexer -/

inductive Token where
  | char (c : UInt8)
  | union
  | concat
  | star
  | empty
  | epsilon
  | lpar
  | rpar
  | eof
  | badtok
  deriving DecidableEq, Repr

def isWhite (c : UInt8) : Bool := c = 32 ∨ c = 9 ∨ c = 10

/-- `['a'-'z' 'A'-'Z' '0'-'9']` -/
def isChar (c : UInt8) : Bool := 97 ≤ c ∧ c ≤ 122 ∨ 65 ≤ c ∧ c ≤ 90 ∨ 48 ≤ c ∧ c ≤ 57

def byteToken (c : UInt8) : Token :=
  if c = 124 then .union
  else if c = 42 then .star
  else if c = 40 then .lpar
  else if c = 41 then .rpar
  else if isChar c then .char c
  else .badtok

/-- What the calls of `token` return, up to the end of the string. -/
def tokens : Bytes → List Token
  | [] => [.eof]
  | 0xE2 :: 0x88 :: 0x85 :: s => .empty :: tokens s
  | 0xCE :: 0xB5 :: s => .epsilon :: tokens s
  | c :: s => if isWhite c then tokens s else byteToken c :: tokens s

/-! ## The grammar -/

inductive Symbol where
  | CHAR
  | UNION
  | CONCAT
  | STAR
  | EMPTY
  | EPSILON
  | LPAR
  | RPAR
  | EOF
  | BADTOK
  | regex
  | re
  /-- the left side of the rule that is added for `regex` -/
  | entry
  deriving DecidableEq, Repr

inductive Rule where
  | entry
  | regex
  | char
  | epsilon
  | empty
  | paren
  | union
  | concat
  /-- `re re %prec CONCAT` -/
  | juxtaposition
  | star
  deriving DecidableEq, Repr

def Rule.lhs : Rule → Symbol
  | .entry => .entry
  | .regex => .regex
  | _ => .re

def Rule.rhs : Rule → List Symbol
  | .entry => [.regex]
  | .regex => [.re, .EOF]
  | .char => [.CHAR]
  | .epsilon => [.EPSILON]
  | .empty => [.EMPTY]
  | .paren => [.LPAR, .re, .RPAR]
  | .union => [.re, .UNION, .re]
  | .concat => [.re, .CONCAT, .re]
  | .juxtaposition => [.re, .re]
  | .star => [.re, .STAR]

def Token.symbol : Token → Symbol
  | .char _ => .CHAR
  | .union => .UNION
  | .concat => .CONCAT
  | .star => .STAR
  | .empty => .EMPTY
  | .epsilon => .EPSILON
  | .lpar => .LPAR
  | .rpar => .RPAR
  | .eof => .EOF
  | .badtok => .BADTOK

/-- The lines of %left and %nonassoc, from the lowest. -/
def Symbol.prec : Symbol → Option (Nat × Assoc)
  | .UNION => some (1, .left)
  | .CONCAT => some (2, .left)
  | .STAR => some (3, .left)
  | .LPAR | .RPAR => some (4, .nonassoc)
  | .CHAR | .EPSILON | .EMPTY => some (5, .nonassoc)
  | _ => none

def Rule.precSymbol : Rule → Option Symbol
  | .juxtaposition => some .CONCAT
  | _ => none

/-- What a symbol stands for on the stack. -/
inductive Value where
  | token (t : Token)
  | reg (r : Reg UInt8)

def Rule.action : Rule → List Value → Option Value
  | .entry, [v] => some v
  | .regex, [.reg r, _] => some (.reg r)
  | .char, [.token (.char c)] => some (.reg (.lit c))
  | .epsilon, [_] => some (.reg .eps)
  | .empty, [_] => some (.reg .empty)
  | .paren, [_, .reg r, _] => some (.reg r)
  | .union, [.reg r₁, _, .reg r₂] => some (.reg (.or r₁ r₂))
  | .concat, [.reg r₁, _, .reg r₂] => some (.reg (.concat r₁ r₂))
  | .juxtaposition, [.reg r₁, .reg r₂] => some (.reg (.concat r₁ r₂))
  | .star, [.reg r, _] => some (.reg (.star r))
  | _, _ => none

def grammar : Grammar Symbol Rule Token Value where
  rules := [.entry, .regex, .char, .epsilon, .empty, .paren, .union, .concat, .juxtaposition, .star]
  entry := .entry
  lhs := Rule.lhs
  rhs := Rule.rhs
  prec := Symbol.prec
  precSymbol := Rule.precSymbol
  -- In every state that can end a rule with a left `re`, each token but BADTOK can
  -- follow; these are also the LALR lookaheads there.
  follow lhs terminal := lhs = .re ∧ terminal ≠ .BADTOK
  terminal := Token.symbol
  value := .token
  action := Rule.action

/-- `parse` with so many steps of the parser; `none` also when it fails. -/
def parse (fuel : Nat) (s : Bytes) : Option (Reg UInt8) :=
  match grammar.parse fuel (tokens s) with
  | some (.reg r) => some r
  | _ => none

/-- `parse` returns. -/
def Parses (s : Bytes) (r : Reg UInt8) : Prop := ∃ fuel, parse fuel s = some r

end Mimuw.Regexp
