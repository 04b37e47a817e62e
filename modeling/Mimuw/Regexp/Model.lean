import Mathlib.Tactic

/-!
# Regular expressions

The derivative matcher of `SimpleRegexp`, generic in the alphabet.
-/

namespace Mimuw.Regexp

inductive Reg (α : Type*) where
  | lit (c : α)
  | concat (r₁ r₂ : Reg α)
  | or (r₁ r₂ : Reg α)
  | star (r : Reg α)
  | eps
  | empty
  deriving DecidableEq

variable {α : Type*}

/-- The first case that fits is taken, as in the source. -/
def simpl : Reg α → Reg α
  | .or r₁ .empty => simpl r₁
  | .or .empty r₂ => simpl r₂
  | .concat _ .empty => .empty
  | .concat .empty _ => .empty
  | .concat r₁ .eps => simpl r₁
  | .concat .eps r₂ => simpl r₂
  | .lit a => .lit a
  | .concat r₁ r₂ => .concat (simpl r₁) (simpl r₂)
  | .or r₁ r₂ => .or (simpl r₁) (simpl r₂)
  | .star r => .star (simpl r)
  | .eps => .eps
  | .empty => .empty

def nullable : Reg α → Bool
  | .lit _ => false
  | .concat r₁ r₂ => nullable r₁ && nullable r₂
  | .or r₁ r₂ => nullable r₁ || nullable r₂
  | .star _ => true
  | .eps => true
  | .empty => false

def empty : Reg α → Bool
  | .lit _ => false
  | .concat r₁ r₂ => empty r₁ || empty r₂
  | .or r₁ r₂ => empty r₁ && empty r₂
  | .star _ => false
  | .eps => false
  | .empty => true

variable [DecidableEq α]

def der (a : α) : Reg α → Reg α
  | .lit c => if c = a then .eps else .empty
  | .concat r₁ r₂ =>
      let left := .concat (der a r₁) r₂
      if nullable r₁ then .or left (der a r₂) else left
  | .or r₁ r₂ => .or (der a r₁) (der a r₂)
  | .star r => .concat (der a r) (.star r)
  | .eps => .empty
  | .empty => .empty

def ders : List α → Reg α → Reg α
  | [], r => r
  | a :: v, r => ders v (simpl (der a r))

def accept (r : Reg α) (w : List α) : Bool := nullable (ders w r)

end Mimuw.Regexp
