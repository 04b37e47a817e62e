import Mimuw.Lib.HeapTree
import Mimuw.Mimpi.Model

/-!
# The tree of a broadcast or a reduction

The ranks are the nodes of a heap, turned so that the root is node `0`: a rank
is the child of another exactly when its node is.
-/

namespace Mimuw.Mimpi

open Mimuw.Lib

/-- The rank at a node of the turned tree. -/
def rankAt (worldSize root node : Nat) : Nat := (node + root) % worldSize

section Turn

variable {n r s d root i : Nat}

theorem relativeRank_lt (hn : 0 < n) : relativeRank n r root < n :=
  Nat.mod_lt _ hn

theorem rankAt_lt (hn : 0 < n) : rankAt n root i < n :=
  Nat.mod_lt _ hn

private theorem relativeRank_eq (hr : r < n) (hroot : root < n) :
    relativeRank n r root = if root ≤ r then r - root else r + n - root := by
  rw [relativeRank]
  split_ifs with h
  · rw [show r + n - root = r - root + n by omega, Nat.add_mod_right, Nat.mod_eq_of_lt (by omega)]
  · exact Nat.mod_eq_of_lt (by omega)

private theorem rankAt_eq (hi : i < n) (hroot : root < n) :
    rankAt n root i = if i + root < n then i + root else i + root - n := by
  rw [rankAt]
  split_ifs with h
  · exact Nat.mod_eq_of_lt h
  · rw [Nat.mod_eq_sub_mod (by omega), Nat.mod_eq_of_lt (by omega)]

theorem rankAt_relativeRank (hr : r < n) (hroot : root < n) :
    rankAt n root (relativeRank n r root) = r := by
  rw [rankAt_eq (relativeRank_lt (by omega)) hroot, relativeRank_eq hr hroot]
  split_ifs <;> omega

theorem relativeRank_rankAt (hi : i < n) (hroot : root < n) :
    relativeRank n (rankAt n root i) root = i := by
  rw [relativeRank_eq (rankAt_lt (by omega)) hroot, rankAt_eq hi hroot]
  split_ifs <;> omega

theorem relativeRank_eq_zero (hr : r < n) (hroot : root < n) :
    relativeRank n r root = 0 ↔ r = root := by
  rw [relativeRank_eq hr hroot]
  split_ifs <;> omega

theorem map_rankAt_perm (hroot : root < n) :
    ((List.range n).map (rankAt n root)).Perm (List.range n) := by
  refine (List.perm_ext_iff_of_nodup ?_ List.nodup_range).mpr fun r => ?_
  · refine List.Nodup.map_on ?_ List.nodup_range
    intro i hi j hj h
    rw [List.mem_range] at hi hj
    rw [← relativeRank_rankAt hi hroot, h, relativeRank_rankAt hj hroot]
  · simp only [List.mem_map, List.mem_range]
    constructor
    · rintro ⟨i, hi, rfl⟩
      exact rankAt_lt (by omega)
    · intro hr
      exact ⟨relativeRank n r root, relativeRank_lt (by omega), rankAt_relativeRank hr hroot⟩

/-- A child of the turned tree is the rank of the child's node. -/
private theorem relativeChild_eq_some (hd : d < n) (hroot : root < n) :
    relativeChild n root i = some d ↔ i = relativeRank n d root := by
  rw [relativeChild]
  split_ifs with h
  · have hlt : relativeRank n d root < n := relativeRank_lt (by omega)
    simp only [false_iff]
    omega
  · rw [Option.some.injEq]
    constructor
    · rintro rfl
      exact (relativeRank_rankAt (Nat.lt_of_not_le h) hroot).symm
    · rintro rfl
      exact rankAt_relativeRank hd hroot

private theorem leftChild_eq_some (hd : d < n) (hroot : root < n) :
    leftChild n s root = some d ↔
      2 * relativeRank n s root + 1 = relativeRank n d root :=
  relativeChild_eq_some hd hroot

private theorem rightChild_eq_some (hd : d < n) (hroot : root < n) :
    rightChild n s root = some d ↔
      2 * relativeRank n s root + 2 = relativeRank n d root :=
  relativeChild_eq_some hd hroot

private theorem parent_eq (hs : s < n) (hd : d < n) (hroot : root < n) :
    parent n d root = s ↔ (relativeRank n d root - 1) / 2 = relativeRank n s root := by
  have hlt : relativeRank n d root < n := relativeRank_lt (by omega)
  have hparent : parent n d root = rankAt n root ((relativeRank n d root - 1) / 2) := rfl
  rw [hparent]
  constructor
  · rintro rfl
    exact (relativeRank_rankAt (by omega) hroot).symm
  · intro h
    rw [h, rankAt_relativeRank hs hroot]

private theorem relativeChild_lt (hn : 0 < n) (h : relativeChild n root i = some d) : d < n := by
  rw [relativeChild] at h
  split_ifs at h
  cases h
  exact Nat.mod_lt _ hn

theorem parent_lt (hn : 0 < n) : parent n d root < n :=
  Nat.mod_lt _ hn

/-- A rank is another's child exactly when that one is its parent. -/
theorem child_iff_parent (hs : s < n) (hd : d < n) (hroot : root < n) :
    leftChild n s root = some d ∨ rightChild n s root = some d ↔
      d ≠ root ∧ parent n d root = s := by
  rw [leftChild_eq_some hd hroot, rightChild_eq_some hd hroot, parent_eq hs hd hroot,
    Ne, ← relativeRank_eq_zero hd hroot]
  omega

theorem leftChild_ne_rightChild (hd : d < n) (hroot : root < n)
    (hleft : leftChild n s root = some d) : rightChild n s root ≠ some d := by
  rw [leftChild_eq_some hd hroot] at hleft
  rw [Ne, rightChild_eq_some hd hroot]
  omega

theorem child_ne (hs : s < n) (hroot : root < n)
    (h : leftChild n s root = some d ∨ rightChild n s root = some d) : d < n ∧ d ≠ s := by
  have hd : d < n := h.elim (relativeChild_lt (by omega)) (relativeChild_lt (by omega))
  refine ⟨hd, ?_⟩
  rintro rfl
  rw [leftChild_eq_some hd hroot, rightChild_eq_some hd hroot] at h
  omega

theorem parent_ne (hd : d < n) (hroot : root < n) (hne : d ≠ root) : parent n d root ≠ d := by
  rw [Ne, parent_eq hd hd hroot]
  rw [Ne, ← relativeRank_eq_zero hd hroot] at hne
  omega

end Turn

end Mimuw.Mimpi
