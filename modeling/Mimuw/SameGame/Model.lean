import Mathlib.Logic.Function.Basic
import Mathlib.Tactic.Common

/-!
# The game of blocks

A move takes away the group of a block, lets the blocks above it fall and moves the
columns together. `n` is the number of rows and `m` stands for `KOLUMNY`.
-/

namespace Mimuw.SameGame

def puste : Char := '.'

/-- `a[w][k]`, with the rows from the top -/
abbrev Plansza := Nat → Nat → Char

def ustaw (a : Plansza) (w k : Nat) (c : Char) : Plansza :=
  Function.update a w (Function.update (a w) k c)

theorem ustaw_apply (a : Plansza) (w k : Nat) (c : Char) (i j : Nat) :
    ustaw a w k c i j = if i = w ∧ j = k then c else a i j := by
  unfold ustaw
  by_cases hi : i = w
  · subst hi
    by_cases hj : j = k <;> simp [hj]
  · simp [hi]

/-! ## Taking a group away -/

def sprawdzCzyGrupa (n m : Nat) (a : Plansza) (w k : Nat) : Bool :=
  (k + 1 < m && a w k = a w (k + 1)) || (w + 1 < n && a w k = a (w + 1) k) ||
    (1 ≤ k && a w k = a w (k - 1)) || (1 ≤ w && a w k = a (w - 1) k)

/-- Fuel bounds the depth of the recursion. -/
def usunGrupe (n m : Nat) : Nat → Plansza → Nat → Nat → Char → Option Plansza
  | 0, _, _, _, _ => none
  | fuel + 1, a, w, k, klocek => do
      let a := ustaw a w k puste
      let a ← (if w + 1 < n ∧ a (w + 1) k = klocek then usunGrupe n m fuel a (w + 1) k klocek
        else some a)
      let a ← (if 1 ≤ w ∧ a (w - 1) k = klocek then usunGrupe n m fuel a (w - 1) k klocek
        else some a)
      let a ← (if k + 1 < m ∧ a w (k + 1) = klocek then usunGrupe n m fuel a w (k + 1) klocek
        else some a)
      if 1 ≤ k ∧ a w (k - 1) = klocek then usunGrupe n m fuel a w (k - 1) klocek else some a

/-! ## Moving the blocks together -/

/-- `zamien(&a[w][k], &a[w'][k'])` -/
def zamien (a : Plansza) (w k w' k' : Nat) : Plansza :=
  ustaw (ustaw a w k (a w' k')) w' k' (a w k)

/-- The inner loop of `przesun_w_dol`: `nowe_w` goes up while the place above it is empty. -/
def noweW (a : Plansza) (k : Nat) : Nat → Nat
  | 0 => 0
  | w + 1 => if a w k = puste then noweW a k w else w + 1

/-- The rows of one column, from the given one up to the second. -/
def przesunKolumne (k : Nat) : Nat → Plansza → Plansza
  | 0, a => a
  | w + 1, a =>
      let nowe := noweW a k (w + 1)
      przesunKolumne k w
        (if a (w + 1) k = puste ∧ nowe ≠ 0 then zamien a (w + 1) k (nowe - 1) k else a)

def przesunWDol (n m : Nat) (a : Plansza) : Plansza :=
  (List.range m).foldl (fun a k => przesunKolumne k (n - 1) a) a

/-- The inner loop of `przesun_w_lewo`, in the bottom row. -/
def noweK (m : Nat) (a : Plansza) (w k : Nat) : Nat :=
  if k < m - 1 ∧ a w (k + 1) = puste then noweK m a w (k + 1) else k
termination_by m - k

def zamienKolumny (n : Nat) (a : Plansza) (k k' : Nat) : Plansza :=
  (List.range n).foldl (fun a i => zamien a i k i k') a

def przesunWLewo (n m : Nat) (a : Plansza) : Plansza :=
  (List.range (m - 1)).foldl
    (fun a k =>
      let nowe := noweK m a (n - 1) k
      if a (n - 1) k = puste ∧ nowe ≠ m - 1 then zamienKolumny n a k (nowe + 1) else a) a

def porzadkujPlansze (n m : Nat) (a : Plansza) : Plansza := przesunWLewo n m (przesunWDol n m a)

/-- A move, between the reading and the printing of the board. -/
def wykonaj (n m fuel : Nat) (a : Plansza) (w k : Nat) : Option Plansza :=
  if a w k = puste then some a
  else if sprawdzCzyGrupa n m a w k then
    (usunGrupe n m fuel a w k (a w k)).map (porzadkujPlansze n m)
  else some a

end Mimuw.SameGame
