import Mimuw.Lib.OrderOn
import Mimuw.Posets.Model
import Mathlib.Tactic

/-!
# Reading the relation matrix after an edit

The loops of the module only ever overwrite single entries, so each is
described by what it does to `entry`.  `Square` is what keeps every index of
such a description in range, and `Labelled` what makes `x == NO_RELATION` the
negation of `related`.
-/

namespace Mimuw.Posets

open Mimuw.Lib

structure Square (n : Nat) (arr : PosetRelationsArray) : Prop where
  rows : arr.length = n
  columns : ∀ row ∈ arr, row.length = n

def IsLabel (label : RelationType) : Prop :=
  label = relation ∨ label = noRelation ∨ label = relTransitivity

def Labelled (n : Nat) (arr : PosetRelationsArray) : Prop :=
  ∀ i < n, ∀ j < n, IsLabel (entry arr i j)

@[simp] theorem isRelated_relation : isRelated relation = true := rfl

@[simp] theorem isRelated_relTransitivity : isRelated relTransitivity = true := rfl

@[simp] theorem isRelated_noRelation : isRelated noRelation = false := rfl

theorem isLabel_relation : IsLabel relation := .inl rfl

theorem isLabel_noRelation : IsLabel noRelation := .inr (.inl rfl)

private theorem isLabel_relTransitivity : IsLabel relTransitivity := .inr (.inr rfl)

private theorem IsLabel.eq_noRelation_iff {label : RelationType} (h : IsLabel label) :
    label = noRelation ↔ isRelated label = false := by
  rcases h with rfl | rfl | rfl <;> decide

/-! ## One entry -/

theorem Square.setEntry {n : Nat} {arr : PosetRelationsArray} (h : Square n arr)
    (i j : Nat) (label : RelationType) : Square n (setEntry arr i j label) where
  rows := by simpa [Posets.setEntry] using h.rows
  columns row hrow := by
    rw [Posets.setEntry, List.mem_iff_getElem] at hrow
    obtain ⟨k, hk, rfl⟩ := hrow
    have hk' : k < arr.length := by simpa using hk
    rw [List.getElem_modify]
    split
    · simpa using h.columns _ (List.getElem_mem hk')
    · exact h.columns _ (List.getElem_mem hk')

private theorem entry_setEntry {n : Nat} {arr : PosetRelationsArray} (h : Square n arr)
    {i j : Nat} (hi : i < n) (hj : j < n) (label : RelationType) (x y : Nat) :
    entry (setEntry arr i j label) x y =
      if x = i ∧ y = j then label else entry arr x y := by
  have hi' : i < arr.length := h.rows.symm ▸ hi
  have hrow : arr[i].length = n := h.columns _ (List.getElem_mem hi')
  unfold entry setEntry
  by_cases hx : x = i
  · subst hx
    by_cases hy : y = j
    · subst hy
      simp [List.getD_eq_getElem?_getD, hi', hrow, hj]
    · simp [List.getD_eq_getElem?_getD, hi', hy, Ne.symm hy]
  · simp [List.getD_eq_getElem?_getD, hx, Ne.symm hx]

theorem related_setEntry {n : Nat} {arr : PosetRelationsArray} (h : Square n arr)
    {i j : Nat} (hi : i < n) (hj : j < n) (label : RelationType) (x y : Nat) :
    related (setEntry arr i j label) x y =
      if x = i ∧ y = j then isRelated label else related arr x y := by
  rw [related, entry_setEntry h hi hj]
  split <;> rfl

theorem Labelled.setEntry {n : Nat} {arr : PosetRelationsArray} (hs : Square n arr)
    (h : Labelled n arr) {i j : Nat} (hi : i < n) (hj : j < n)
    {label : RelationType} (hlabel : IsLabel label) :
    Labelled n (setEntry arr i j label) := by
  intro x hx y hy
  rw [entry_setEntry hs hi hj]
  split
  · exact hlabel
  · exact h x hx y hy

private theorem Labelled.eq_noRelation_iff {n : Nat} {arr : PosetRelationsArray}
    (h : Labelled n arr) {i j : Nat} (hi : i < n) (hj : j < n) :
    (entry arr i j == noRelation) = !related arr i j := by
  rw [Bool.eq_iff_iff]
  simp [related, (h i hi j hj).eq_noRelation_iff]

/-! ## Closing the relation after an addition -/

private theorem addAllAbove_spec {n : Nat} {arr : PosetRelationsArray} (hs : Square n arr)
    (hl : Labelled n arr) {i index2 : Nat} (hi : i < n) (h2 : index2 < n)
    (hne : index2 ≠ i) :
    Square n (addAllAbove arr i index2 n) ∧ Labelled n (addAllAbove arr i index2 n) ∧
      ∀ x < n, ∀ y < n, related (addAllAbove arr i index2 n) x y ↔
        related arr x y ∨ (x = i ∧ related arr index2 y) := by
  -- after `k` iterations the columns below `k` of row `i` are done
  have key : Square n (addAllAbove arr i index2 n) ∧
      Labelled n (addAllAbove arr i index2 n) ∧
      ∀ x < n, ∀ y < n, related (addAllAbove arr i index2 n) x y ↔
        related arr x y ∨ (x = i ∧ y < n ∧ related arr index2 y) := by
    refine forLoop_invariant (I := fun k a => Square n a ∧ Labelled n a ∧
      ∀ x < n, ∀ y < n, related a x y ↔
        related arr x y ∨ (x = i ∧ y < k ∧ related arr index2 y))
      ⟨hs, hl, by simp⟩ ?_
    rintro k a hk ⟨hsa, hla, hrel⟩
    have hrow : related a index2 k ↔ related arr index2 k := by
      simp [hrel index2 h2 k hk, hne]
    simp only [hla.eq_noRelation_iff hi hk]
    split
    · rename_i hcond
      refine ⟨hsa.setEntry _ _ _, hla.setEntry hsa hi hk isLabel_relTransitivity, ?_⟩
      intro x hx y hy
      rw [related_setEntry hsa hi hk, isRelated_relTransitivity]
      have := hrel x hx y hy
      grind
    · rename_i hcond
      refine ⟨hsa, hla, fun x hx y hy => ?_⟩
      have := hrel x hx y hy
      grind
  obtain ⟨h1, h2, h3⟩ := key
  refine ⟨h1, h2, fun x hx y hy => ?_⟩
  rw [h3 x hx y hy]
  simp [hy]

/-- The order of the first `n` elements that the matrix describes. -/
def order (arr : PosetRelationsArray) (x y : Nat) : Prop := related arr x y = true

section Closing

variable {n : Nat} {arr : PosetRelationsArray} {index1 index2 : Nat}

/-- How far `addTransitivityRelations` has got when its counter is `k`: the
rows below `k` are closed, and the row of `index1` is closed in the columns
below `k`. -/
private structure ClosedBelow (n : Nat) (arr : PosetRelationsArray)
    (index1 index2 k : Nat) (a : PosetRelationsArray) : Prop where
  square : Square n a
  labelled : Labelled n a
  row : ∀ x < n, ∀ y < n, x ≠ index1 → (related a x y ↔
    related arr x y ∨ (x < k ∧ related arr x index1 ∧ related arr index2 y))
  row_index1 : ∀ y < n, related a index1 y ↔
    related arr index1 y ∨ y = index2 ∨ (y < k ∧ related arr index2 y)

private theorem closedBelow_succ (hr : PartialOrderOn (Set.Iio n) (order arr))
    (h1 : index1 < n) (h2 : index2 < n) (h21 : ¬related arr index2 index1)
    {k : Nat} {a : PosetRelationsArray} (hk : k < n)
    (h : ClosedBelow n arr index1 index2 k a) :
    ClosedBelow n arr index1 index2 (k + 1)
      (addTransitivityRow index1 index2 n a k) := by
  have hrefl : related arr index2 index2 := hr.refl index2 h2
  have htrans : ∀ x < n, ∀ y < n, ∀ z < n,
      related arr x y → related arr y z → related arr x z :=
    fun x hx y hy z hz => hr.trans x hx y hy z hz
  have hne : index2 ≠ index1 := by
    rintro rfl
    exact h21 hrefl
  obtain ⟨hsa, hla, hrow, hrow1⟩ := h
  -- the row of `index2` never changes
  have hrow2 : ∀ y < n, related a index2 y ↔ related arr index2 y := by
    intro y hy
    rw [hrow index2 h2 y hy hne]
    tauto
  unfold addTransitivityRow
  split
  · rename_i hki
    simp only [bne_iff_ne, Bool.and_eq_true] at hki
    obtain ⟨hk1, hk2⟩ := hki
    have hrowk : ∀ y < n, related a k y ↔ related arr k y := by
      intro y hy
      rw [hrow k hk y hy hk1]
      simp
    have hcol : related a index1 k ↔ related arr index1 k := by
      rw [hrow1 k hk]
      simp [hk2]
    simp only [hla.eq_noRelation_iff hk h2, hla.eq_noRelation_iff h1 hk]
    split
    · -- `k` lies below `index1` and is not yet below `index2`
      rename_i hcond
      simp only [Bool.and_eq_true, Bool.not_eq_true', hrowk index1 h1] at hcond
      have hs' := hsa.setEntry k index2 relTransitivity
      have hl' := hla.setEntry hsa hk h2 isLabel_relTransitivity
      obtain ⟨hs'', hl'', hall⟩ := addAllAbove_spec hs' hl' hk h2 (Ne.symm hk2)
      refine ⟨hs'', hl'', ?_, ?_⟩
      · intro x hx y hy hx1
        rw [hall x hx y hy, related_setEntry hsa hk h2, related_setEntry hsa hk h2,
          isRelated_relTransitivity]
        have := hrow x hx y hy hx1
        have := hrow2 y hy
        have := hrowk y hy
        grind
      · intro y hy
        rw [hall index1 h1 y hy, related_setEntry hsa hk h2]
        have := hrow1 y hy
        have := htrans index2 h2 k hk index1 h1
        grind
    · rename_i hcond
      simp only [Bool.and_eq_true, Bool.not_eq_true', hrowk index1 h1] at hcond
      have hkrow : ∀ y < n, related arr k index1 → related arr index2 y →
          related arr k y := by
        intro y hy hk1' h2y
        have := (hrowk index2 h2).1
        exact htrans k hk index2 h2 y hy (by grind) h2y
      split
      · -- `k` lies above `index2` and is not yet above `index1`
        rename_i hcond2
        simp only [Bool.and_eq_true, Bool.not_eq_true', hrow2 k hk] at hcond2
        refine ⟨hsa.setEntry _ _ _, hla.setEntry hsa h1 hk isLabel_relTransitivity, ?_, ?_⟩
        · intro x hx y hy hx1
          rw [related_setEntry hsa h1 hk]
          have := hrow x hx y hy hx1
          have := hkrow y hy
          grind
        · intro y hy
          rw [related_setEntry hsa h1 hk, isRelated_relTransitivity]
          have := hrow1 y hy
          grind
      · rename_i hcond2
        simp only [Bool.and_eq_true, Bool.not_eq_true', hrow2 k hk] at hcond2
        refine ⟨hsa, hla, ?_, ?_⟩
        · intro x hx y hy hx1
          have := hrow x hx y hy hx1
          have := hkrow y hy
          grind
        · intro y hy
          have := hrow1 y hy
          grind
  · rename_i hki
    simp only [bne_iff_ne, Bool.and_eq_true, not_and, not_not] at hki
    refine ⟨hsa, hla, ?_, ?_⟩
    · intro x hx y hy hx1
      have := hrow x hx y hy hx1
      grind
    · intro y hy
      have := hrow1 y hy
      grind

theorem addTransitivityRelations_spec (hs : Square n arr) (hl : Labelled n arr)
    (hr : PartialOrderOn (Set.Iio n) (order arr))
    (h1 : index1 < n) (h2 : index2 < n) (h21 : ¬related arr index2 index1) :
    Square n (addTransitivityRelations (setEntry arr index1 index2 relation) index1 index2) ∧
    Labelled n
      (addTransitivityRelations (setEntry arr index1 index2 relation) index1 index2) ∧
    ∀ x < n, ∀ y < n,
      order (addTransitivityRelations (setEntry arr index1 index2 relation) index1 index2) x y ↔
        extendRel (order arr) index1 index2 x y := by
  have hs' := hs.setEntry index1 index2 relation
  have hl' := hl.setEntry hs h1 h2 isLabel_relation
  have hclosed : ClosedBelow n arr index1 index2 n
      (addTransitivityRelations (setEntry arr index1 index2 relation) index1 index2) := by
    unfold addTransitivityRelations
    rw [hs'.rows]
    refine forLoop_invariant (I := ClosedBelow n arr index1 index2)
      ⟨hs', hl', ?_, ?_⟩
      fun k a hk h => closedBelow_succ hr h1 h2 h21 hk h
    · intro x hx y hy hx1
      rw [related_setEntry hs h1 h2]
      simp [hx1]
    · intro y hy
      rw [related_setEntry hs h1 h2]
      by_cases hy2 : y = index2 <;> simp [hy2]
  refine ⟨hclosed.square, hclosed.labelled, fun x hx y hy => ?_⟩
  have hrefl1 : related arr index1 index1 := hr.refl index1 h1
  have hrefl2 : related arr index2 index2 := hr.refl index2 h2
  unfold order extendRel
  by_cases hx1 : x = index1
  · subst hx1
    rw [hclosed.row_index1 y hy]
    grind
  · rw [hclosed.row x hx y hy hx1]
    simp [hx]

end Closing

/-! ## A new row and column -/

theorem addRowAndColumn_spec {n : Nat} {arr : PosetRelationsArray} (hs : Square n arr)
    (hl : Labelled n arr) :
    Square (n + 1) (addRowAndColumn arr) ∧ Labelled (n + 1) (addRowAndColumn arr) ∧
      ∀ x ≤ n, ∀ y ≤ n, entry (addRowAndColumn arr) x y =
        if x < n ∧ y < n then entry arr x y
        else if x = n ∧ y = n then relation else noRelation := by
  let grown := (arr ++ [List.replicate arr.length noRelation]).map
    fun row => row ++ [noRelation]
  have hgrown : Square (n + 1) grown := by
    constructor
    · simp [grown, hs.rows]
    · intro row hrow
      simp only [grown, List.map_append, List.map_cons, List.map_nil, List.mem_append,
        List.mem_map, List.mem_singleton] at hrow
      rcases hrow with ⟨old, hold, rfl⟩ | rfl
      · simp [hs.columns old hold]
      · simp [hs.rows]
  have hentry : ∀ x ≤ n, ∀ y ≤ n, entry grown x y =
      if x < n ∧ y < n then entry arr x y else noRelation := by
    intro x hx y hy
    unfold entry
    rcases Nat.lt_or_eq_of_le hx with hx | rfl
    · have hx' : x < arr.length := hs.rows.symm ▸ hx
      have hlen : arr[x].length = n := hs.columns _ (List.getElem_mem hx')
      rcases Nat.lt_or_eq_of_le hy with hy | rfl
      · simp [grown, List.getD_eq_getElem?_getD, List.getElem?_append_left, hx, hx', hy, hlen]
      · simp [grown, List.getD_eq_getElem?_getD, List.getElem?_append_left, hx', hlen]
    · have hrow : List.replicate x noRelation ++ [noRelation] =
          List.replicate (x + 1) noRelation := by
        rw [List.replicate_succ']
      simp [grown, List.getD_eq_getElem?_getD, hs.rows, hrow, Nat.lt_succ_of_le hy]
  have hset : addRowAndColumn arr = setEntry grown n n relation := by
    have : grown.length - 1 = n := by simp [hgrown.rows]
    simp only [addRowAndColumn]
    rw [show (List.map (fun row => row ++ [noRelation])
      (arr ++ [List.replicate arr.length noRelation])) = grown from rfl, this]
  have hlast : n < n + 1 := Nat.lt_succ_self n
  have hread : ∀ x ≤ n, ∀ y ≤ n, entry (addRowAndColumn arr) x y =
      if x < n ∧ y < n then entry arr x y
      else if x = n ∧ y = n then relation else noRelation := by
    intro x hx y hy
    rw [hset, entry_setEntry hgrown hlast hlast, hentry x hx y hy]
    split_ifs <;> first | rfl | omega
  refine ⟨hset ▸ hgrown.setEntry n n relation, ?_, hread⟩
  intro x hx y hy
  rw [hread x (Nat.le_of_lt_succ hx) y (Nat.le_of_lt_succ hy)]
  split_ifs with hold
  · exact hl x hold.1 y hold.2
  · exact isLabel_relation
  · exact isLabel_noRelation

/-! ## Promoting labels and erasing a row and a column -/

private def SameOrder (n : Nat) (arr a : PosetRelationsArray) : Prop :=
  Square n a ∧ Labelled n a ∧ ∀ x y, related a x y = related arr x y

private theorem SameOrder.promote {n : Nat} {arr a : PosetRelationsArray}
    (h : SameOrder n arr a) {i j : Nat} (hi : i < n) (hj : j < n)
    (htrans : entry a i j = relTransitivity) :
    SameOrder n arr (setEntry a i j relation) := by
  obtain ⟨hs, hl, hr⟩ := h
  refine ⟨hs.setEntry _ _ _, hl.setEntry hs hi hj isLabel_relation, fun x y => ?_⟩
  rw [related_setEntry hs hi hj, ← hr x y]
  split
  · rename_i hxy
    obtain ⟨rfl, rfl⟩ := hxy
    simp [related, htrans]
  · rfl

private theorem SameOrder.forLoop {n m : Nat} {arr a : PosetRelationsArray}
    {f : PosetRelationsArray → Nat → PosetRelationsArray}
    (hf : ∀ a i, i < m → SameOrder n arr a → SameOrder n arr (f a i))
    (h : SameOrder n arr a) : SameOrder n arr (forLoop m f a) :=
  forLoop_invariant (I := fun _ a => SameOrder n arr a) h
    fun i a hi ha => hf a i hi ha

private theorem SameOrder.promoteAround {n idx : Nat} {arr a : PosetRelationsArray}
    {i : Nat} (hi : i < n) (h : SameOrder n arr a) :
    SameOrder n arr (promoteAround idx n a i) := by
  unfold Posets.promoteAround
  split
  · split
    · refine SameOrder.forLoop (fun a j hj ha => ?_) h
      split
      · rename_i hcond
        exact ha.promote hi hj (by simpa using (Bool.and_eq_true_iff.mp hcond).2)
      · exact ha
    · split
      · refine SameOrder.forLoop (fun a j hj ha => ?_) h
        split
        · rename_i hcond
          exact ha.promote hj hi (by simpa using (Bool.and_eq_true_iff.mp hcond).2)
        · exact ha
      · exact h
  · exact h

/-- The label changes made before an erasure are invisible to `related`. -/
theorem promoteAround_spec {n : Nat} {arr : PosetRelationsArray} (hs : Square n arr)
    (hl : Labelled n arr) (idx : Nat) :
    Square n (forLoop n (promoteAround idx n) arr) ∧
      Labelled n (forLoop n (promoteAround idx n) arr) ∧
      ∀ x y, related (forLoop n (promoteAround idx n) arr) x y = related arr x y :=
  SameOrder.forLoop (fun _ _ hi ha => ha.promoteAround hi) ⟨hs, hl, fun _ _ => rfl⟩

/-- The old index of the element with index `i` once `idx` is erased. -/
def skip (idx i : Nat) : Nat := if i < idx then i else i + 1

theorem skip_injective (idx : Nat) {x y : Nat} (h : skip idx x = skip idx y) : x = y := by
  unfold skip at h
  split_ifs at h <;> omega

theorem skip_lt {n idx x : Nat} (hx : x < n) : skip idx x < n + 1 := by
  unfold skip
  split <;> omega

theorem entry_eraseRowAndColumn (arr : PosetRelationsArray) (idx x y : Nat) :
    entry (eraseRowAndColumn arr idx) x y = entry arr (skip idx x) (skip idx y) := by
  have hrow : (eraseRowAndColumn arr idx).getD x [] =
      (arr.getD (skip idx x) []).eraseIdx idx := by
    unfold eraseRowAndColumn skip
    simp only [List.getD_eq_getElem?_getD, List.getElem?_eraseIdx, List.getElem?_map]
    split_ifs
    · cases arr[x]? <;> simp
    · cases arr[x + 1]? <;> simp
  unfold entry
  rw [hrow]
  simp only [List.getD_eq_getElem?_getD, List.getElem?_eraseIdx, skip]
  split_ifs <;> rfl

theorem eraseRowAndColumn_spec {n : Nat} {arr : PosetRelationsArray}
    (hs : Square (n + 1) arr) (hl : Labelled (n + 1) arr) {idx : Nat} (hidx : idx < n + 1) :
    Square n (eraseRowAndColumn arr idx) ∧ Labelled n (eraseRowAndColumn arr idx) := by
  constructor
  · constructor
    · simp [eraseRowAndColumn, List.length_eraseIdx, hs.rows, hidx]
    · intro row hrow
      obtain ⟨old, hold, rfl⟩ := List.mem_map.mp (List.mem_of_mem_eraseIdx hrow)
      simp [List.length_eraseIdx, hs.columns old hold, hidx]
  · intro x hx y hy
    rw [entry_eraseRowAndColumn]
    exact hl _ (skip_lt hx) _ (skip_lt hy)

/-! ## Looking between two elements -/

theorem somethingIsBetweenTwoElem_eq_false_iff {n : Nat} {arr : PosetRelationsArray}
    (hs : Square n arr) (idx1 idx2 : Nat) :
    somethingIsBetweenTwoElem arr idx1 idx2 = false ↔
      ∀ c < n, c ≠ idx1 → c ≠ idx2 → ¬(order arr idx1 c ∧ order arr c idx2) := by
  simp only [somethingIsBetweenTwoElem, List.any_eq_false, List.mem_range, hs.rows, order]
  constructor
  · intro h c hc h1 h2 hbetween
    exact h c hc (by simp [h1, h2, hbetween.1, hbetween.2])
  · intro h c hc hbetween
    simp only [Bool.and_eq_true, bne_iff_ne] at hbetween
    exact h c hc hbetween.1.1.1 hbetween.1.1.2 ⟨hbetween.1.2, hbetween.2⟩

end Mimuw.Posets
