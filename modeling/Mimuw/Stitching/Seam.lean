import Mathlib.Algebra.Order.Monoid.WithTop
import Mathlib.Algebra.Order.Ring.Nat
import Mathlib.Algebra.BigOperators.WithTop
import Mimuw.Lib.LayeredPaths

/-!
# The optimal seam

`find_optimal_seam` fills a table from the first row to the last and goes back through
it. The numbers are of any type with an addition and an order, and `np.inf` is the top.
-/

namespace Mimuw.Stitching

open Mimuw.Lib

section Model

variable {K : Type*} [Add K] [LinearOrder K]

/-- `np.argmin`: where the least value stands for the first time -/
def argmin {α : Type*} [LinearOrder α] (values : List α) : Nat :=
  values.findIdx fun x => values.all fun y => x ≤ y

/-- The values of a row at `j` and beside it, padded at the borders -/
def window (cols : Nat) (row : Nat → WithTop K) (j : Nat) : List (WithTop K) :=
  [if 0 < j then row (j - 1) else ⊤, row j, if j < cols - 1 then row (j + 1) else ⊤]

def dp (cols : Nat) (costMatrix : Nat → Nat → K) : Nat → Nat → WithTop K
  | 0, j => costMatrix 0 j
  | i + 1, j => costMatrix (i + 1) j +
      min (min (if 0 < j then dp cols costMatrix i (j - 1) else ⊤) (dp cols costMatrix i j))
        (if j < cols - 1 then dp cols costMatrix i (j + 1) else ⊤)

/-- The loop that goes back, above a row that was left at `prevJ`. The seam is kept
from its last row on, as the list is after `seam.reverse()`. -/
def backtrack (cols : Nat) (costMatrix : Nat → Nat → K) :
    Nat → Nat → List (Nat × Nat) → List (Nat × Nat)
  | 0, _, seam => seam
  | i + 1, prevJ, seam =>
      let j := prevJ + argmin (window cols (dp cols costMatrix i) prevJ) - 1
      backtrack cols costMatrix i j ((i, j) :: seam)

def findOptimalSeam (rows cols : Nat) (costMatrix : Nat → Nat → K) : List (Nat × Nat) :=
  let j := argmin ((List.range cols).map (dp cols costMatrix (rows - 1)))
  backtrack cols costMatrix (rows - 1) j [(rows - 1, j)]

end Model

/-- One column for each row, next to the one before -/
structure Seam (rows cols : Nat) (columns : Nat → Nat) : Prop where
  inside : ∀ i < rows, columns i < cols
  adjacent : ∀ i, i + 1 < rows → columns (i + 1) ≤ columns i + 1 ∧ columns i ≤ columns (i + 1) + 1

section Argmin

variable {α : Type*} [LinearOrder α] {values : List α}

private theorem exists_least (h : values ≠ []) : ∃ x ∈ values, ∀ y ∈ values, x ≤ y := by
  induction values with
  | nil => exact absurd rfl h
  | cons x values ih =>
      rcases values.eq_nil_or_concat with rfl | ⟨_, _, hvalues⟩
      · exact ⟨x, by simp, by simp⟩
      · obtain ⟨z, hz, hleast⟩ := ih (by simp [hvalues])
        rcases le_total x z with hxz | hzx
        · refine ⟨x, by simp, fun y hy => ?_⟩
          rcases List.mem_cons.mp hy with rfl | hy
          · exact le_rfl
          · exact hxz.trans (hleast y hy)
        · refine ⟨z, by simp [hz], fun y hy => ?_⟩
          rcases List.mem_cons.mp hy with rfl | hy
          · exact hzx
          · exact hleast y hy

private theorem argmin_lt (h : values ≠ []) : argmin values < values.length := by
  obtain ⟨x, hx, hleast⟩ := exists_least h
  apply List.findIdx_lt_length_of_exists
  exact ⟨x, hx, by simpa using hleast⟩

private theorem argmin_le (h : argmin values < values.length) {y : α} (hy : y ∈ values) :
    values[argmin values] ≤ y := by
  have hall := List.findIdx_getElem (w := h)
  simp only [List.all_eq_true, decide_eq_true_eq] at hall
  exact hall y hy

end Argmin

section Table

variable {K : Type*} [Add K] [LinearOrder K] {cols i j : Nat} {costMatrix : Nat → Nat → K}
  {row : Nat → WithTop K}

omit [Add K] in
private theorem window_eq_min (h : argmin (window cols row j) < (window cols row j).length) :
    (window cols row j)[argmin (window cols row j)] =
      min (min (if 0 < j then row (j - 1) else ⊤) (row j))
        (if j < cols - 1 then row (j + 1) else ⊤) := by
  apply le_antisymm
  · exact le_min (le_min (argmin_le h (by simp [window])) (argmin_le h (by simp [window])))
      (argmin_le h (by simp [window]))
  · have hmem := List.getElem_mem h
    generalize (window cols row j)[argmin (window cols row j)] = x at hmem
    simp only [window, List.mem_cons, List.not_mem_nil, or_false] at hmem
    rcases hmem with rfl | rfl | rfl <;> simp

omit [Add K] in
/-- The padding is never chosen, as the value in the middle is finite. -/
private theorem argmin_window (hj : j < cols) (hrow : row j ≠ ⊤) :
    ∃ k, j + argmin (window cols row j) = k + 1 ∧ k < cols ∧ j ≤ k + 1 ∧ k ≤ j + 1 ∧
      row k = min (min (if 0 < j then row (j - 1) else ⊤) (row j))
        (if j < cols - 1 then row (j + 1) else ⊤) := by
  have hlt : argmin (window cols row j) < (window cols row j).length := argmin_lt (by simp [window])
  have hmin := window_eq_min hlt
  have hfinite : (window cols row j)[argmin (window cols row j)] ≠ ⊤ := by
    intro htop
    exact hrow (top_le_iff.mp (htop ▸ argmin_le hlt (by simp [window])))
  rw [← hmin]
  generalize argmin (window cols row j) = c at hlt hfinite
  match c, hlt, hfinite with
  | 0, hlt, hfinite =>
      have hpos : 0 < j := by
        by_contra hzero
        simp [window, hzero] at hfinite
      exact ⟨j - 1, by omega, by omega, by omega, by omega, by simp [window, hpos]⟩
  | 1, hlt, hfinite => exact ⟨j, rfl, hj, by omega, by omega, by simp [window]⟩
  | 2, hlt, hfinite =>
      have hright : j < cols - 1 := by
        by_contra hlast
        simp [window, hlast] at hfinite
      exact ⟨j + 1, by omega, by omega, by omega, by omega, by simp [window, hright]⟩

private theorem dp_ne_top (cols : Nat) (costMatrix : Nat → Nat → K) (i j : Nat) :
    dp cols costMatrix i j ≠ ⊤ := by
  induction i generalizing j with
  | zero => exact WithTop.coe_ne_top
  | succ i ih =>
      rw [dp]
      apply WithTop.add_ne_top.mpr
      refine ⟨WithTop.coe_ne_top, fun htop => ?_⟩
      have hmiddle := (min_le_left _ _).trans (min_le_right _ _) |> htop.symm.le.trans
      exact ih j (top_le_iff.mp hmiddle)

private theorem backtrack_eq (costMatrix : Nat → Nat → K) (hj : j < cols)
    (seam : List (Nat × Nat)) :
    ∃ columns, Seam (i + 1) cols columns ∧ columns i = j ∧
      backtrack cols costMatrix i j seam =
        (List.range i).map (fun k => (k, columns k)) ++ seam ∧
      ∀ k < i, dp cols costMatrix (k + 1) (columns (k + 1)) =
        costMatrix (k + 1) (columns (k + 1)) + dp cols costMatrix k (columns k) := by
  induction i generalizing j seam with
  | zero =>
      refine ⟨fun _ => j, ⟨fun _ _ => hj, fun i hi => by omega⟩, rfl, rfl, fun k hk => by omega⟩
  | succ i ih =>
      obtain ⟨k, hstep, hk, hkj, hjk, hvalue⟩ := argmin_window hj (dp_ne_top cols costMatrix i j)
      obtain ⟨columns, hseam, hlast, hlist, htable⟩ := ih hk ((i, k) :: seam)
      have hbelow : ∀ m ≤ i, Function.update columns (i + 1) j m = columns m := by
        intro m hm
        rw [Function.update_of_ne (by omega)]
      refine ⟨Function.update columns (i + 1) j, ⟨?_, ?_⟩, by simp, ?_, ?_⟩
      · intro m hm
        by_cases hmi : m = i + 1
        · simpa [hmi] using hj
        · rw [hbelow m (by omega)]
          exact hseam.inside m (by omega)
      · intro m hm
        by_cases hmi : m = i
        · subst hmi
          rw [hbelow m le_rfl, Function.update_self, hlast]
          exact ⟨hkj, hjk⟩
        · rw [hbelow m (by omega), hbelow (m + 1) (by omega)]
          exact hseam.adjacent m (by omega)
      · have hrange : (List.range i).map (fun m => (m, Function.update columns (i + 1) j m)) =
            (List.range i).map fun m => (m, columns m) := by
          apply List.map_congr_left
          intro m hm
          rw [hbelow m (List.mem_range.mp hm).le]
        rw [backtrack, hstep, Nat.add_sub_cancel, hlist, List.range_succ, List.map_append, hrange,
          List.append_assoc, List.map_singleton, hbelow i le_rfl, hlast, List.singleton_append]
      · intro m hm
        by_cases hmi : m = i
        · subst hmi
          rw [hbelow m le_rfl, Function.update_self, hlast, dp, hvalue]
        · rw [hbelow m (by omega), hbelow (m + 1) (by omega)]
          exact htable m (by omega)

private theorem dp_argmin_le (costMatrix : Nat → Nat → K) (i : Nat) {k : Nat} (hk : k < cols) :
    argmin ((List.range cols).map (dp cols costMatrix i)) < cols ∧
      dp cols costMatrix i (argmin ((List.range cols).map (dp cols costMatrix i))) ≤
        dp cols costMatrix i k := by
  have hlt : argmin ((List.range cols).map (dp cols costMatrix i)) <
      ((List.range cols).map (dp cols costMatrix i)).length := by
    apply argmin_lt
    simp
    omega
  have hle := argmin_le hlt (List.mem_map_of_mem (List.mem_range.mpr hk))
  rw [List.getElem_map, List.getElem_range] at hle
  rw [List.length_map, List.length_range] at hlt
  exact ⟨hlt, hle⟩

theorem findOptimalSeam_eq (costMatrix : Nat → Nat → K) (i : Nat) (hcols : 1 ≤ cols) :
    ∃ columns, Seam (i + 1) cols columns ∧
    findOptimalSeam (i + 1) cols costMatrix = (List.range (i + 1)).map (fun k => (k, columns k)) ∧
    (∀ k < i, dp cols costMatrix (k + 1) (columns (k + 1)) =
      costMatrix (k + 1) (columns (k + 1)) + dp cols costMatrix k (columns k)) ∧
    ∀ k < cols, dp cols costMatrix i (columns i) ≤ dp cols costMatrix i k := by
  obtain ⟨hj, -⟩ := dp_argmin_le costMatrix i (show 0 < cols by omega)
  obtain ⟨columns, hseam, hlast, hlist, htable⟩ := backtrack_eq costMatrix hj
    [(i, argmin ((List.range cols).map (dp cols costMatrix i)))]
  refine ⟨columns, hseam, ?_, htable, fun k hk => ?_⟩
  · rw [findOptimalSeam, Nat.add_sub_cancel, hlist, List.range_succ, List.map_append,
      List.map_singleton, hlast]
  · rw [hlast]
    exact (dp_argmin_le costMatrix i hk).2

end Table

section Optimality

variable {K : Type*} [AddCommMonoid K] [LinearOrder K] {cols i j : Nat}
  {costMatrix : Nat → Nat → K} {columns : Nat → Nat}

private theorem dp_succ_le [IsOrderedAddMonoid K] {k : Nat} (hk : k < cols) (hj : j < cols)
    (hnext : j ≤ k + 1 ∧ k ≤ j + 1) :
    dp cols costMatrix (i + 1) j ≤ costMatrix (i + 1) j + dp cols costMatrix i k := by
  rw [dp]
  gcongr
  obtain rfl | rfl | rfl : k + 1 = j ∨ k = j ∨ k = j + 1 := by omega
  · simp
  · simp
  · have hright : j < cols - 1 := by omega
    simp [hright]

omit [LinearOrder K] in
private theorem coe_pathCost (costMatrix : Nat → Nat → K) (columns : Nat → Nat) (n : Nat) :
    pathCost (fun i j => (costMatrix i j : WithTop K)) columns n =
      pathCost costMatrix columns n := by
  simp [pathCost]

/-- The table bounds every seam from below. -/
theorem dp_le_pathCost [IsOrderedAddMonoid K] (h : Seam (i + 1) cols columns) :
    dp cols costMatrix i (columns i) ≤ pathCost costMatrix columns (i + 1) := by
  rw [← coe_pathCost]
  apply table_le_pathCost fun k j => k < cols ∧ j < cols ∧ j ≤ k + 1 ∧ k ≤ j + 1
  · intro j
    exact le_rfl
  · rintro n k j ⟨hk, hj, hnext⟩
    exact dp_succ_le hk hj hnext
  · intro k hk
    exact ⟨h.inside k (by omega), h.inside (k + 1) (by omega), h.adjacent k (by omega)⟩

end Optimality

/-- The seam has one column for each row, next to the one before, and costs least. -/
theorem findOptimalSeam_optimal {K : Type*} [AddCommMonoid K] [LinearOrder K]
    [IsOrderedAddMonoid K] (rows cols : Nat) (costMatrix : Nat → Nat → K) (hrows : 1 ≤ rows)
    (hcols : 1 ≤ cols) : ∃ columns, Seam rows cols columns ∧
      findOptimalSeam rows cols costMatrix = (List.range rows).map (fun i => (i, columns i)) ∧
      ∀ others, Seam rows cols others →
        pathCost costMatrix columns rows ≤ pathCost costMatrix others rows := by
  obtain ⟨i, rfl⟩ : ∃ i, rows = i + 1 := ⟨rows - 1, by omega⟩
  obtain ⟨columns, hseam, hlist, htable, hleast⟩ := findOptimalSeam_eq costMatrix i hcols
  refine ⟨columns, hseam, hlist, fun others hothers => ?_⟩
  have hcost : dp cols costMatrix i (columns i) = pathCost costMatrix columns (i + 1) := by
    rw [← coe_pathCost]
    exact table_eq_pathCost rfl htable
  have hlast := hleast (others i) (hothers.inside i i.lt_succ_self)
  rw [hcost] at hlast
  exact WithTop.coe_le_coe.mp (hlast.trans (dp_le_pathCost hothers))

theorem findOptimalSeam_optimal_corner : ∃ columns, Seam 2 2 columns ∧
    findOptimalSeam 2 2 (fun i j => i + j) = (List.range 2).map (fun i => (i, columns i)) ∧
    ∀ others, Seam 2 2 others →
      pathCost (fun i j => i + j) columns 2 ≤ pathCost (fun i j => i + j) others 2 :=
  findOptimalSeam_optimal 2 2 (fun i j => i + j) (by decide) (by decide)

example : findOptimalSeam 3 2 (fun i j => if i = 1 then j else 5 - j) =
    [(0, 1), (1, 0), (2, 1)] := by
  decide

end Mimuw.Stitching
