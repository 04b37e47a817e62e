import Mathlib.Data.List.Range
import Mathlib.Data.List.Count

/-!
# Closing the gaps of a sequence

One value of a sequence stands for a gap. The other values are moved to the front, or
to the back, in their order; this can be done by exchanges of a gap with the next
value that is none.
-/

namespace Mimuw.Lib

variable {α : Type*} [DecidableEq α] {hole : α} {xs ys : List α} {f g : Nat → α} {n i j : Nat}

def solid (hole : α) (xs : List α) : List α := xs.filter (· ≠ hole)

def toFront (hole : α) (xs : List α) : List α :=
  solid hole xs ++ List.replicate (xs.count hole) hole

def toBack (hole : α) (xs : List α) : List α :=
  List.replicate (xs.count hole) hole ++ solid hole xs

/-- The first values of a sequence -/
def firsts (f : Nat → α) (n : Nat) : List α := (List.range n).map f

private theorem length_solid (hole : α) (xs : List α) :
    (solid hole xs).length + xs.count hole = xs.length := by
  induction xs with
  | nil => rfl
  | cons x xs ih =>
      by_cases hx : x = hole
      · simp [solid, hx] at ih ⊢
        omega
      · simp [solid, hx] at ih ⊢
        omega

private theorem count_eq_of_solid (hlength : xs.length = ys.length)
    (h : solid hole xs = solid hole ys) :
    xs.count hole = ys.count hole := by
  have hxs := length_solid hole xs
  have hys := length_solid hole ys
  rw [h] at hxs
  omega

/-! ## Sequences without gaps between their values -/

private theorem toFront_eq_self (h : xs.Pairwise fun x y => x = hole → y = hole) :
    toFront hole xs = xs := by
  induction xs with
  | nil => rfl
  | cons x xs ih =>
      rw [List.pairwise_cons] at h
      by_cases hx : x = hole
      · have hall : xs = List.replicate xs.length hole :=
          List.eq_replicate_of_mem fun y hy => h.1 y hy hx
        rw [hx, hall]
        simp [toFront, solid, List.replicate_succ]
      · have htail := ih h.2
        simp only [toFront, solid] at htail ⊢
        rw [List.filter_cons_of_pos (by simpa using hx), List.count_cons_of_ne hx, List.cons_append,
          htail]

private theorem toBack_eq_reverse (hole : α) (xs : List α) :
    toBack hole xs = (toFront hole xs.reverse).reverse := by
  simp [toBack, toFront, solid]

private theorem toBack_eq_self (h : xs.Pairwise fun x y => y = hole → x = hole) :
    toBack hole xs = xs := by
  rw [toBack_eq_reverse, toFront_eq_self (List.pairwise_reverse.mpr h), List.reverse_reverse]

theorem firsts_eq_toFront (hlength : xs.length = n)
    (hsolid : solid hole (firsts f n) = solid hole xs)
    (h : ∀ p q, p < q → q < n → f p = hole → f q = hole) : firsts f n = toFront hole xs := by
  have hcount : (firsts f n).count hole = xs.count hole :=
    count_eq_of_solid (by simp [firsts, hlength]) hsolid
  have hself : toFront hole (firsts f n) = firsts f n := by
    apply toFront_eq_self
    rw [firsts, List.pairwise_map]
    apply List.pairwise_lt_range.imp_of_mem
    intro p q _ hq hpq
    exact h p q hpq (List.mem_range.mp hq)
  rw [← hself, toFront, toFront, hsolid, hcount]

theorem firsts_eq_toBack (hlength : xs.length = n)
    (hsolid : solid hole (firsts f n) = solid hole xs)
    (h : ∀ p q, p < q → q < n → f q = hole → f p = hole) : firsts f n = toBack hole xs := by
  have hcount : (firsts f n).count hole = xs.count hole :=
    count_eq_of_solid (by simp [firsts, hlength]) hsolid
  have hself : toBack hole (firsts f n) = firsts f n := by
    apply toBack_eq_self
    rw [firsts, List.pairwise_map]
    apply List.pairwise_lt_range.imp_of_mem
    intro p q _ hq hpq
    exact h p q hpq (List.mem_range.mp hq)
  rw [← hself, toBack, toBack, hsolid, hcount]

/-! ## An exchange with a gap -/

private theorem range_split (hij : i < j) (hj : j < n) : List.range n =
    List.range' 0 i ++ i :: (List.range' (i + 1) (j - (i + 1)) ++ j ::
      List.range' (j + 1) (n - (j + 1))) := by
  have htail : j :: List.range' (j + 1) (n - (j + 1)) = List.range' j (n - j) := by
    rw [← List.range'_succ]
    congr 1
    omega
  have hbetween : List.range' (i + 1) (j - (i + 1)) ++ List.range' j (n - j) =
      List.range' (i + 1) (n - (i + 1)) := by
    have happend := @List.range'_append_1 (i + 1) (j - (i + 1)) (n - j)
    rwa [show i + 1 + (j - (i + 1)) = j by omega,
      show j - (i + 1) + (n - j) = n - (i + 1) by omega] at happend
  have hhead : i :: List.range' (i + 1) (n - (i + 1)) = List.range' i (n - i) := by
    rw [← List.range'_succ]
    congr 1
    omega
  have happend := @List.range'_append_1 0 i (n - i)
  rw [Nat.zero_add, show i + (n - i) = n by omega] at happend
  rw [htail, hbetween, hhead, happend, List.range_eq_range']

theorem solid_exchange (hij : i < j) (hj : j < n) (hgap : f i = hole ∨ f j = hole)
    (hbetween : ∀ p, i < p → p < j → f p = hole) (hi' : g i = f j) (hj' : g j = f i)
    (hrest : ∀ p, p ≠ i → p ≠ j → g p = f p) :
    solid hole (firsts g n) = solid hole (firsts f n) := by
  have hbefore : (List.range' 0 i).map g = (List.range' 0 i).map f := by
    apply List.map_congr_left
    intro p hp
    rw [List.mem_range'_1] at hp
    exact hrest p (by omega) (by omega)
  have hafter : (List.range' (j + 1) (n - (j + 1))).map g =
      (List.range' (j + 1) (n - (j + 1))).map f := by
    apply List.map_congr_left
    intro p hp
    rw [List.mem_range'_1] at hp
    exact hrest p (by omega) (by omega)
  have hmiddle : (List.range' (i + 1) (j - (i + 1))).map g =
      (List.range' (i + 1) (j - (i + 1))).map f := by
    apply List.map_congr_left
    intro p hp
    rw [List.mem_range'_1] at hp
    exact hrest p (by omega) (by omega)
  have hholes : ((List.range' (i + 1) (j - (i + 1))).map f).filter (· ≠ hole) = [] := by
    rw [List.filter_eq_nil_iff]
    intro x hx
    obtain ⟨p, hp, rfl⟩ := List.mem_map.mp hx
    rw [List.mem_range'_1] at hp
    simp [hbetween p (by omega) (by omega)]
  rw [firsts, firsts, range_split hij hj]
  simp only [solid, List.map_append, List.map_cons, List.filter_append, hbefore, hmiddle, hafter,
    List.filter_cons, hholes, hi', hj']
  rcases hgap with h | h <;> simp [h]

end Mimuw.Lib
