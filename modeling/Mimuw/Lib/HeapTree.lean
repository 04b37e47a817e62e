import Mathlib.Tactic

/-!
# The tree of a binary heap

Node `i` has the children `2 * i + 1` and `2 * i + 2`, so every node above `0`
has the parent `(i - 1) / 2`, which is smaller.  Below any bound the nodes under
`0` are all numbers, each once, so what is folded up the tree to `0` takes every
node in exactly once.
-/

namespace Mimuw.Lib

/-- Every node above the root is a left or a right child of its parent. -/
theorem heap_child {i : Nat} (hi : 0 < i) :
    i = 2 * ((i - 1) / 2) + 1 ∨ i = 2 * ((i - 1) / 2) + 2 := by
  omega

theorem heap_parent_lt {i : Nat} (hi : 0 < i) : (i - 1) / 2 < i := by
  omega

/-- From the root down: what the root has and every parent hands on. -/
theorem heap_down {P : Nat → Prop} {n : Nat} (hroot : 0 < n → P 0)
    (hdown : ∀ i, 0 < i → i < n → P ((i - 1) / 2) → P i) :
    ∀ i, i < n → P i := by
  intro i
  induction i using Nat.strongRecOn with
  | ind i ih =>
      intro hi
      cases i with
      | zero => exact hroot hi
      | succ i =>
          have hlt := heap_parent_lt (Nat.succ_pos i)
          exact hdown (i + 1) (Nat.succ_pos i) hi (ih _ hlt (by omega))

/-- From any node up to the root. -/
theorem heap_up {P : Nat → Prop} {n : Nat}
    (hup : ∀ i, 0 < i → i < n → P i → P ((i - 1) / 2)) :
    ∀ i, i < n → P i → P 0 := by
  intro i
  induction i using Nat.strongRecOn with
  | ind i ih =>
      intro hi hP
      cases i with
      | zero => exact hP
      | succ i =>
          have hlt := heap_parent_lt (Nat.succ_pos i)
          exact ih _ hlt (by omega) (hup (i + 1) (Nat.succ_pos i) hi hP)

/-! ## The nodes of a subtree -/

/-- The nodes below `n` under `i`, a node before its children. -/
def heapNodes (n i : Nat) : List Nat :=
  if i < n then i :: (heapNodes n (2 * i + 1) ++ heapNodes n (2 * i + 2)) else []
  termination_by n - i

private theorem heapNodes_of_lt {n i : Nat} (h : i < n) :
    heapNodes n i = i :: (heapNodes n (2 * i + 1) ++ heapNodes n (2 * i + 2)) := by
  rw [heapNodes, if_pos h]

private theorem heapNodes_of_le {n i : Nat} (h : n ≤ i) : heapNodes n i = [] := by
  rw [heapNodes, if_neg (by omega)]

private theorem mem_heapNodes {n i x : Nat} (h : x ∈ heapNodes n i) : i ≤ x ∧ x < n := by
  induction i using heapNodes.induct n with
  | case1 i hi ihLeft ihRight =>
      rw [heapNodes_of_lt hi, List.mem_cons, List.mem_append] at h
      rcases h with rfl | h | h
      · exact ⟨Nat.le_refl x, hi⟩
      · have := ihLeft h
        omega
      · have := ihRight h
        omega
  | case2 i hi => simp [heapNodes_of_le (Nat.le_of_not_lt hi)] at h

private theorem count_heapNodes_of_lt {n i x : Nat} (h : x < i) : (heapNodes n i).count x = 0 :=
  List.count_eq_zero.mpr fun hx => by
    have := mem_heapNodes hx
    omega

private theorem count_heapNodes_self {n i : Nat} (h : i < n) : (heapNodes n i).count i = 1 := by
  rw [heapNodes_of_lt h, List.count_cons_self, List.count_append,
    count_heapNodes_of_lt (by omega), count_heapNodes_of_lt (by omega)]

private theorem count_heapNodes_parent {n i x : Nat} (hx : x < n) (hpos : 0 < x) (hne : x ≠ i) :
    (heapNodes n i).count x = (heapNodes n i).count ((x - 1) / 2) := by
  induction i using heapNodes.induct n with
  | case1 i hi ihLeft ihRight =>
      rw [heapNodes_of_lt hi]
      simp only [List.count_cons, List.count_append, beq_iff_eq]
      by_cases hleft : x = 2 * i + 1
      · subst hleft
        have hparent : (2 * i + 1 - 1) / 2 = i := by omega
        rw [count_heapNodes_self hx, count_heapNodes_of_lt (by omega), hparent,
          count_heapNodes_of_lt (by omega), count_heapNodes_of_lt (by omega),
          if_neg (by omega), if_pos rfl]
      · by_cases hright : x = 2 * i + 2
        · have hparent : (x - 1) / 2 = i := by omega
          rw [ihLeft hleft, hparent, hright, count_heapNodes_self (by omega),
            count_heapNodes_of_lt (by omega), count_heapNodes_of_lt (by omega),
            if_neg (by omega), if_pos rfl]
        · rw [ihLeft hleft, ihRight hright, if_neg (by omega), if_neg (by omega)]
  | case2 i hi => rw [heapNodes_of_le (Nat.le_of_not_lt hi), List.count_nil, List.count_nil]

theorem heapNodes_perm (n : Nat) : (heapNodes n 0).Perm (List.range n) := by
  refine List.perm_iff_count.mpr fun x => ?_
  by_cases hx : x < n
  · rw [List.count_eq_one_of_mem List.nodup_range (List.mem_range.mpr hx)]
    refine heap_down (P := fun x => (heapNodes n 0).count x = 1) count_heapNodes_self ?_ x hx
    intro i hi hin hparent
    rw [count_heapNodes_parent hin hi (by omega), hparent]
  · rw [List.count_eq_zero.mpr fun h => hx (mem_heapNodes h).2,
      List.count_eq_zero.mpr fun h => hx (List.mem_range.mp h)]

/-! ## Folding up the tree -/

section Fold

variable {α : Type*}

/-- A node's own value, then its left child's, then its right child's, each if
there is such a child. -/
def heapFold (n : Nat) (op : α → α → α) (value : Nat → α) (i : Nat) : α :=
  let withLeft := if 2 * i + 1 < n then op (value i) (heapFold n op value (2 * i + 1)) else value i
  if 2 * i + 2 < n then op withLeft (heapFold n op value (2 * i + 2)) else withLeft
  termination_by n - i

/-- What holds of single values and is kept by the operation holds of the fold
and the nodes of the subtree. -/
theorem heapFold_nodes {n : Nat} {op : α → α → α} {value : Nat → α}
    {R : List Nat → α → Prop} (hvalue : ∀ i, i < n → R [i] (value i))
    (hop : ∀ l l' a b, R l a → R l' b → R (l ++ l') (op a b)) :
    ∀ i, i < n → R (heapNodes n i) (heapFold n op value i) := by
  intro i
  induction i using heapNodes.induct n with
  | case1 i hi ihLeft ihRight =>
      intro _
      rw [heapNodes_of_lt hi, heapFold]
      by_cases hleft : 2 * i + 1 < n
      · have hwith := hop _ _ _ _ (hvalue i hi) (ihLeft hleft)
        by_cases hright : 2 * i + 2 < n
        · simpa [hleft, hright] using hop _ _ _ _ hwith (ihRight hright)
        · simpa [hleft, hright, heapNodes_of_le (Nat.le_of_not_lt hright)] using hwith
      · have hright : ¬ 2 * i + 2 < n := by omega
        simpa [hleft, hright, heapNodes_of_le (Nat.le_of_not_lt hright),
          heapNodes_of_le (Nat.le_of_not_lt hleft)] using hvalue i hi
  | case2 i hi => exact fun h => absurd h hi

end Fold

end Mimuw.Lib
