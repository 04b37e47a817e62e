import Mathlib.Data.List.Forall2
import Mimuw.Posets.Relation

/-!
# Direct and derived pairs

The labels tell the pairs that were added from those that follow.  No call tells the one
kind from the other, so posets whose labels differ in this only behave alike.
-/

namespace Mimuw.Posets

open Mimuw.Lib

/-- Equal, or both `RELATION` or `REL_TRANSITIVITY`. -/
def LabelAlike (label label' : RelationType) : Prop :=
  label = label' ∨ isRelated label = true ∧ isRelated label' = true

def Alike : PosetRelationsArray → PosetRelationsArray → Prop :=
  List.Forall₂ (List.Forall₂ LabelAlike)

structure Poset.Alike (p p' : Poset) : Prop where
  names : p.names = p'.names
  relations : Posets.Alike p.relations p'.relations

/-- The labels of the posets are exchanged in some entries. -/
structure State.Alike (s s' : State) : Prop where
  availableIDs : s.availableIDs = s'.availableIDs
  nextID : s.nextID = s'.nextID
  allPosets : ∀ id, Option.Rel Poset.Alike (s.allPosets id) (s'.allPosets id)

/-! ## Labels and matrices -/

section Lists

variable {α : Type*} {R : α → α → Prop} {l l' : List α} {d : α}

private theorem forall₂_getD (h : List.Forall₂ R l l') (hd : R d d) (i : Nat) :
    R (l.getD i d) (l'.getD i d) := by
  induction h generalizing i with
  | nil => exact hd
  | cons hxy _ ih =>
      cases i with
      | zero => exact hxy
      | succ i => exact ih i

private theorem forall₂_set {x y : α} (h : List.Forall₂ R l l') (hxy : R x y) (i : Nat) :
    List.Forall₂ R (l.set i x) (l'.set i y) := by
  induction h generalizing i with
  | nil => exact .nil
  | cons hab htail ih =>
      cases i with
      | zero => exact .cons hxy htail
      | succ i => exact .cons hab (ih i)

private theorem forall₂_modify {f g : α → α} (h : List.Forall₂ R l l')
    (hfg : ∀ x y, R x y → R (f x) (g y)) (i : Nat) :
    List.Forall₂ R (l.modify i f) (l'.modify i g) := by
  induction h generalizing i with
  | nil => simp
  | cons hab htail ih =>
      cases i with
      | zero => exact .cons (hfg _ _ hab) htail
      | succ i => exact .cons hab (ih i)

private theorem forall₂_eraseIdx (h : List.Forall₂ R l l') (i : Nat) :
    List.Forall₂ R (l.eraseIdx i) (l'.eraseIdx i) := by
  induction h generalizing i with
  | nil => exact .nil
  | cons hab htail ih =>
      cases i with
      | zero => exact htail
      | succ i => exact .cons hab (ih i)

private theorem forall₂_set_self (hrefl : ∀ x, R x x) {x : α} (i : Nat) (hx : R (l.getD i d) x) :
    List.Forall₂ R l (l.set i x) := by
  induction l generalizing i with
  | nil => exact .nil
  | cons a l ih =>
      cases i with
      | zero => exact .cons hx (List.forall₂_same.mpr fun x _ => hrefl x)
      | succ i => exact .cons (hrefl a) (ih i hx)

private theorem forall₂_modify_self (hrefl : ∀ x, R x x) {f : α → α} (i : Nat)
    (hf : R (l.getD i d) (f (l.getD i d))) : List.Forall₂ R l (l.modify i f) := by
  induction l generalizing i with
  | nil => simp
  | cons a l ih =>
      cases i with
      | zero => exact .cons hf (List.forall₂_same.mpr fun x _ => hrefl x)
      | succ i => exact .cons (hrefl a) (ih i hf)

private theorem forall₂_symm (hsymm : ∀ {x y}, R x y → R y x) (h : List.Forall₂ R l l') :
    List.Forall₂ R l' l :=
  .flip (h.imp fun _ _ => hsymm)

private theorem forall₂_trans {l'' : List α} (htrans : ∀ {x y z}, R x y → R y z → R x z)
    (h : List.Forall₂ R l l') (h' : List.Forall₂ R l' l'') : List.Forall₂ R l l'' := by
  induction h generalizing l'' with
  | nil => exact h'
  | cons hxy _ ih =>
      cases h' with
      | cons hyz htail => exact .cons (htrans hxy hyz) (ih htail)

end Lists

section Matrices

variable {label label' : RelationType} {a a' : PosetRelationsArray}

theorem LabelAlike.refl (label : RelationType) : LabelAlike label label := .inl rfl

private theorem LabelAlike.isRelated_eq (h : LabelAlike label label') :
    isRelated label = isRelated label' := by
  rcases h with rfl | ⟨h, h'⟩
  · rfl
  · rw [h, h']

private theorem LabelAlike.noRelation_eq (h : LabelAlike label label') :
    (label == noRelation) = (label' == noRelation) := by
  rcases h with rfl | ⟨h, h'⟩
  · rfl
  · have hne : ∀ {x : RelationType}, isRelated x = true → (x == noRelation) = false := by
      intro x hx
      rw [beq_eq_false_iff_ne]
      rintro rfl
      cases hx
    rw [hne h, hne h']

private theorem alike_refl (a : PosetRelationsArray) : Alike a a :=
  List.forall₂_same.mpr fun _ _ => List.forall₂_same.mpr fun _ _ => .refl _

theorem LabelAlike.symm (h : LabelAlike label label') : LabelAlike label' label :=
  h.imp Eq.symm And.symm

theorem LabelAlike.trans {label'' : RelationType} (h : LabelAlike label label')
    (h' : LabelAlike label' label'') : LabelAlike label label'' := by
  rcases h with rfl | ⟨h, hmiddle⟩
  · exact h'
  · rcases h' with rfl | ⟨-, h'⟩
    · exact .inr ⟨h, hmiddle⟩
    · exact .inr ⟨h, h'⟩

theorem Alike.symm (h : Alike a a') : Alike a' a := forall₂_symm (forall₂_symm LabelAlike.symm) h

theorem Alike.trans {a'' : PosetRelationsArray} (h : Alike a a')
    (h' : Alike a' a'') : Alike a a'' :=
  forall₂_trans (forall₂_trans LabelAlike.trans) h h'

theorem Alike.entry (h : Alike a a') (i j : Nat) : LabelAlike (entry a i j) (entry a' i j) :=
  forall₂_getD (forall₂_getD h List.Forall₂.nil i) (.refl 0) j

theorem Alike.related (h : Alike a a') (i j : Nat) : related a i j = related a' i j :=
  (h.entry i j).isRelated_eq

theorem Alike.setEntry (h : Alike a a') (i j : Nat) (label : RelationType) :
    Alike (setEntry a i j label) (setEntry a' i j label) :=
  forall₂_modify h (fun _ _ hrow => forall₂_set hrow (.refl label) j) i

/-- The label of a related pair is changed to `RELATION`. -/
private theorem alike_promote (a : PosetRelationsArray) {i j : Nat}
    (h : entry a i j = relTransitivity) :
    Alike a (Posets.setEntry a i j relation) := by
  refine forall₂_modify_self (d := []) (fun row => List.forall₂_same.mpr fun _ _ => .refl _) i ?_
  refine forall₂_set_self (d := 0) LabelAlike.refl j (.inr ⟨?_, rfl⟩)
  change isRelated (Posets.entry a i j) = true
  rw [h]
  rfl

theorem Alike.length_eq (h : Alike a a') : a.length = a'.length := List.Forall₂.length_eq h

/-! ## What the operations do to alike matrices -/

theorem Alike.addAllAbove (h : Alike a a') (i index2 n : Nat) :
    Alike (addAllAbove a i index2 n) (addAllAbove a' i index2 n) := by
  refine forLoop_simulation h fun j b b' _ hb => ?_
  rw [hb.related index2 j, (hb.entry i j).noRelation_eq]
  split
  · exact hb.setEntry i j relTransitivity
  · exact hb

theorem Alike.addTransitivityRelations (h : Alike a a') (index1 index2 : Nat) :
    Alike (addTransitivityRelations a index1 index2)
      (addTransitivityRelations a' index1 index2) := by
  unfold Posets.addTransitivityRelations
  rw [h.length_eq]
  refine forLoop_simulation h fun i b b' _ hb => ?_
  unfold addTransitivityRow
  rw [hb.related i index1, (hb.entry i index2).noRelation_eq, (hb.entry index1 i).noRelation_eq,
    hb.related index2 i]
  split
  · split
    · exact (hb.setEntry i index2 relTransitivity).addAllAbove i index2 a'.length
    · split
      · exact hb.setEntry index1 i relTransitivity
      · exact hb
  · exact hb

theorem Alike.addRowAndColumn (h : Alike a a') :
    Alike (addRowAndColumn a) (addRowAndColumn a') := by
  have hrows : Alike (a ++ [List.replicate a.length noRelation])
      (a' ++ [List.replicate a'.length noRelation]) := by
    rw [h.length_eq]
    exact List.rel_append h (alike_refl _)
  have hcolumns : Alike
      ((a ++ [List.replicate a.length noRelation]).map fun row => row ++ [noRelation])
      ((a' ++ [List.replicate a'.length noRelation]).map fun row => row ++ [noRelation]) :=
    List.rel_map (fun _ _ hrow =>
      List.rel_append hrow (List.forall₂_same.mpr fun _ _ => .refl _)) hrows
  unfold Posets.addRowAndColumn
  simp only [hcolumns.length_eq]
  exact hcolumns.setEntry _ _ relation

private theorem alike_changeRelation (b : PosetRelationsArray) (n : Nat) {i j : Nat → Nat}
    {above : PosetRelationsArray → Nat → Bool} :
    Alike b (forLoop n (fun arr k =>
      if above arr k && Posets.entry arr (i k) (j k) == relTransitivity then
        Posets.setEntry arr (i k) (j k) relation
      else arr) b) := by
  refine forLoop_invariant (I := fun _ c => Alike b c) (alike_refl b) fun k c _ hc => ?_
  split
  next hcond =>
    simp only [Bool.and_eq_true, beq_iff_eq] at hcond
    exact hc.trans (alike_promote c hcond.2)
  · exact hc

private theorem alike_promoteAround (a : PosetRelationsArray) (idx n : Nat) :
    Alike a (forLoop n (promoteAround idx n) a) := by
  refine forLoop_invariant (I := fun _ b => Alike a b) (alike_refl a) fun i b _ hb => ?_
  refine hb.trans ?_
  unfold promoteAround
  split
  · split
    · exact alike_changeRelation b n
    · split
      · exact alike_changeRelation b n
      · exact alike_refl b
  · exact alike_refl b

theorem Alike.eraseRowAndColumn (h : Alike a a') (idx : Nat) :
    Alike (eraseRowAndColumn a idx) (eraseRowAndColumn a' idx) :=
  forall₂_eraseIdx (List.rel_map (fun _ _ hrow => forall₂_eraseIdx hrow idx) h) idx

private theorem Alike.somethingIsBetweenTwoElem_eq (h : Alike a a') (idx1 idx2 : Nat) :
    somethingIsBetweenTwoElem a idx1 idx2 = somethingIsBetweenTwoElem a' idx1 idx2 := by
  unfold somethingIsBetweenTwoElem
  rw [h.length_eq]
  simp only [h.related]

end Matrices

/-! ## Posets and calls -/

/-- An operation answers the same, and what it leaves is alike. -/
def AlikeAfter (r r' : Poset × Bool) : Prop := r.1.Alike r'.1 ∧ r.2 = r'.2

section Operations

variable {p p' : Poset}

theorem Poset.Alike.insert (h : p.Alike p') (value : PosetElem) :
    AlikeAfter (p.insert value) (p'.insert value) := by
  unfold Poset.insert
  rw [h.names]
  split
  · exact ⟨h, rfl⟩
  · exact ⟨⟨rfl, h.relations.addRowAndColumn⟩, rfl⟩

theorem Poset.Alike.remove (h : p.Alike p') (value : PosetElem) :
    AlikeAfter (p.remove value) (p'.remove value) := by
  unfold Poset.remove
  rw [h.names]
  split
  next idx _ =>
    have hpromoted := (alike_promoteAround p.relations idx p.relations.length).symm.trans
      (h.relations.trans (alike_promoteAround p'.relations idx p'.relations.length))
    exact ⟨⟨rfl, hpromoted.eraseRowAndColumn idx⟩, rfl⟩
  · exact ⟨h, rfl⟩

theorem Poset.Alike.add (h : p.Alike p') (value1 value2 : PosetElem) :
    AlikeAfter (p.add value1 value2) (p'.add value1 value2) := by
  unfold Poset.add
  rw [h.names]
  split
  next index1 index2 _ _ =>
    rw [h.relations.related index1 index2, h.relations.related index2 index1]
    split
    · exact ⟨h, rfl⟩
    · exact ⟨⟨rfl, (h.relations.setEntry index1 index2 relation).addTransitivityRelations
        index1 index2⟩, rfl⟩
  · exact ⟨h, rfl⟩

theorem Poset.Alike.del (h : p.Alike p') (value1 value2 : PosetElem) :
    AlikeAfter (p.del value1 value2) (p'.del value1 value2) := by
  unfold Poset.del
  rw [h.names]
  split
  next index1 index2 _ _ =>
    rw [h.relations.related index1 index2, h.relations.somethingIsBetweenTwoElem_eq index1 index2]
    split
    · exact ⟨h, rfl⟩
    · split
      · split
        · exact ⟨h, rfl⟩
        · exact ⟨⟨rfl, (h.relations.setEntry index1 index2 noRelation).setEntry
            index2 index1 noRelation⟩, rfl⟩
      · exact ⟨h, rfl⟩
  · exact ⟨h, rfl⟩

private theorem Poset.Alike.test_eq (h : p.Alike p') (value1 value2 : PosetElem) :
    p.test value1 value2 = p'.test value1 value2 := by
  unfold Poset.test
  rw [h.names]
  split
  next index1 index2 _ _ => exact h.relations.related index1 index2
  · rfl

end Operations

section Steps

variable {s t : State}

theorem State.Alike.assign (h : s.Alike t) (id : PosetID) {p p' : Poset} (hp : p.Alike p') :
    (s.assign id p).Alike (t.assign id p') where
  availableIDs := h.availableIDs
  nextID := h.nextID
  allPosets id' := by
    simp only [State.assign, Function.update_apply]
    split
    · exact .some hp
    · exact h.allPosets id'

theorem Poset.Alike.refl (p : Poset) : p.Alike p := ⟨rfl, alike_refl _⟩

theorem State.Alike.insertNew (h : s.Alike t) (id : PosetID) :
    (s.insertNew id .empty).Alike (t.insertNew id .empty) := by
  have hid := h.allPosets id
  unfold State.insertNew
  cases hs : s.allPosets id with
  | none =>
      rw [hs] at hid
      cases ht : t.allPosets id with
      | none => exact h.assign id (.refl _)
      | some p' => rw [ht] at hid; cases hid
  | some p =>
      rw [hs] at hid
      cases ht : t.allPosets id with
      | none => rw [ht] at hid; cases hid
      | some p' => exact h

theorem State.Alike.cases (h : s.Alike t) (id : PosetID) :
    s.allPosets id = none ∧ t.allPosets id = none ∨
      ∃ p p', s.allPosets id = some p ∧ t.allPosets id = some p' ∧ p.Alike p' := by
  have hid := h.allPosets id
  cases hs : s.allPosets id with
  | none =>
      cases ht : t.allPosets id with
      | none => exact .inl ⟨rfl, rfl⟩
      | some p' => rw [hs, ht] at hid; cases hid
  | some p =>
      cases ht : t.allPosets id with
      | none => rw [hs, ht] at hid; cases hid
      | some p' =>
          rw [hs, ht] at hid
          cases hid with
          | some hp => exact .inr ⟨p, p', rfl, rfl, hp⟩

/-- Two calls answer the same and leave alike states. -/
def AlikeStep (r r' : State × Result) : Prop := r.1.Alike r'.1 ∧ r.2 = r'.2

theorem State.Alike.withElem (h : s.Alike t) {op : Poset → PosetElem → Poset × Bool}
    (hop : ∀ {p p' : Poset}, p.Alike p' → ∀ value, AlikeAfter (op p value) (op p' value))
    (id : PosetID) (value : Option PosetElem) :
    AlikeStep (withElem op s id value) (withElem op t id value) := by
  cases value with
  | none => exact ⟨h, rfl⟩
  | some value =>
      rcases h.cases id with ⟨hs, ht⟩ | ⟨p, p', hs, ht, hp⟩
      · simp only [Posets.withElem, hs, ht]
        exact ⟨h, rfl⟩
      · obtain ⟨hpost, hresult⟩ := hop hp value
        simp only [Posets.withElem, hs, ht]
        exact ⟨h.assign id hpost, congrArg Result.bool hresult⟩

theorem State.Alike.withPair (h : s.Alike t) {op : Poset → PosetElem → PosetElem → Poset × Bool}
    (hop : ∀ {p p' : Poset}, p.Alike p' → ∀ value1 value2,
      AlikeAfter (op p value1 value2) (op p' value1 value2))
    (id : PosetID) (value1 value2 : Option PosetElem) :
    AlikeStep (withPair op s id value1 value2) (withPair op t id value1 value2) := by
  cases value1 with
  | none => exact ⟨h, rfl⟩
  | some value1 =>
      cases value2 with
      | none => exact ⟨h, rfl⟩
      | some value2 =>
          rcases h.cases id with ⟨hs, ht⟩ | ⟨p, p', hs, ht, hp⟩
          · simp only [Posets.withPair, hs, ht]
            exact ⟨h, rfl⟩
          · obtain ⟨hpost, hresult⟩ := hop hp value1 value2
            simp only [Posets.withPair, hs, ht]
            exact ⟨h.assign id hpost, congrArg Result.bool hresult⟩

theorem State.Alike.new (h : s.Alike t) : AlikeStep (posetNew s) (posetNew t) := by
  obtain ⟨posets, ids, next⟩ := s
  obtain ⟨posets', ids', next'⟩ := t
  obtain ⟨rfl, rfl, hposets⟩ := h
  cases ids with
  | nil =>
      have hnext : State.Alike ⟨posets, [], next + 1⟩ ⟨posets', [], next + 1⟩ := ⟨rfl, rfl, hposets⟩
      exact ⟨hnext.insertNew next, rfl⟩
  | cons id rest =>
      have hrest : State.Alike ⟨posets, rest, next⟩ ⟨posets', rest, next⟩ := ⟨rfl, rfl, hposets⟩
      exact ⟨hrest.insertNew id, rfl⟩

theorem State.Alike.delete (h : s.Alike t) (id : PosetID) :
    AlikeStep (posetDelete s id) (posetDelete t id) := by
  rcases h.cases id with ⟨hs, ht⟩ | ⟨p, p', hs, ht, -⟩
  · simp only [posetDelete, hs, ht]
    exact ⟨h, rfl⟩
  · simp only [posetDelete, hs, ht]
    refine ⟨⟨congrArg (· ++ [id]) h.availableIDs, h.nextID, fun id' => ?_⟩, rfl⟩
    simp only [Function.update_apply]
    split
    · exact .none
    · exact h.allPosets id'

theorem State.Alike.step (h : s.Alike t) (call : Call) :
    AlikeStep (step s call) (step t call) := by
  cases call with
  | new => exact h.new
  | delete id => exact h.delete id
  | insert id value => exact h.withElem Poset.Alike.insert id value
  | remove id value => exact h.withElem Poset.Alike.remove id value
  | add id value1 value2 => exact h.withPair Poset.Alike.add id value1 value2
  | del id value1 value2 => exact h.withPair Poset.Alike.del id value1 value2
  | size id =>
      rcases h.cases id with ⟨hs, ht⟩ | ⟨p, p', hs, ht, hp⟩
      · simp only [Posets.step, posetSize, hs, ht]
        exact ⟨h, rfl⟩
      · simp only [Posets.step, posetSize, hs, ht, hp.names]
        exact ⟨h, rfl⟩
  | test id value1 value2 =>
      simp only [Posets.step, posetTest]
      rcases h.cases id with ⟨hs, ht⟩ | ⟨p, p', hs, ht, hp⟩
      · rw [hs, ht]
        split <;> exact ⟨h, rfl⟩
      · rw [hs, ht]
        cases value1 with
        | none => exact ⟨h, rfl⟩
        | some value1 =>
            cases value2 with
            | none => exact ⟨h, rfl⟩
            | some value2 => exact ⟨h, congrArg Result.bool (hp.test_eq value1 value2)⟩
  | clear id =>
      rcases h.cases id with ⟨hs, ht⟩ | ⟨p, p', hs, ht, -⟩
      · simp only [Posets.step, posetClear, hs, ht]
        exact ⟨h, rfl⟩
      · simp only [Posets.step, posetClear, hs, ht]
        exact ⟨h.assign id (.refl _), rfl⟩

end Steps

/-! ## Removing an element -/

section Remove

variable {p : Poset} {a : PosetElem}

private theorem LabelAlike.isLabel {label label' : RelationType} (h : LabelAlike label label')
    (hlabel : IsLabel label) : IsLabel label' := by
  rcases h with rfl | ⟨-, h⟩
  · exact hlabel
  · simpa [IsLabel, isRelated, or_comm, or_assoc, or_left_comm] using Or.inr h

private theorem Poset.Alike.wellFormed {p' : Poset} (h : p.Alike p') (hwf : WellFormed p) :
    WellFormed p' where
  names_nodup := h.names ▸ hwf.names_nodup
  square := by
    have hlengths : p.relations.map List.length = p'.relations.map List.length :=
      List.forall₂_eq_eq_eq ▸ List.rel_map (fun _ _ hrow => hrow.length_eq) h.relations
    refine ⟨?_, fun row' hrow' => ?_⟩
    · rw [← h.relations.length_eq, ← h.names, hwf.square.rows]
    · have hmem := List.mem_map_of_mem (f := List.length) hrow'
      rw [← hlengths] at hmem
      obtain ⟨row, hrow, heq⟩ := List.mem_map.mp hmem
      rw [← heq, ← h.names, hwf.square.columns row hrow]
  labelled i hi j hj := (h.relations.entry i j).isLabel
    (hwf.labelled i (h.names ▸ hi) j (h.names ▸ hj))
  partialOrder := by
    refine (h.names ▸ hwf.partialOrder).congr fun i _ j _ => ?_
    rw [order, order, h.relations.related]

private theorem exists_skip {idx i : Nat} (h : i ≠ idx) : ∃ k, skip idx k = i := by
  unfold skip
  by_cases hlt : i < idx
  · exact ⟨i, if_pos hlt⟩
  · exact ⟨i - 1, by rw [if_neg (by omega)]; omega⟩

private theorem getElem?_skip {α : Type*} (l : List α) (idx i : Nat) :
    (l.eraseIdx idx)[i]? = l[skip idx i]? := by
  rw [List.getElem?_eraseIdx, skip]
  split <;> rfl

private theorem skip_ne (idx i : Nat) : skip idx i ≠ idx := by
  unfold skip
  split <;> omega

private theorem remove_of_mem (h : WellFormed p) (ha : a ∈ p.names) :
    (p.remove a).2 = true ∧ (p.remove a).1.names = p.names.erase a ∧
      ∀ x y, (p.remove a).1.precedes x y ↔ p.precedes x y ∧ x ≠ a ∧ y ≠ a := by
  obtain ⟨idx, hidx, rfl⟩ := List.getElem_of_mem ha
  have hremove : p.remove p.names[idx] = (⟨p.names.eraseIdx idx, eraseRowAndColumn
      (forLoop p.relations.length (promoteAround idx p.relations.length) p.relations) idx⟩,
      true) := by
    unfold Poset.remove
    rw [(checkIfElemExist_eq_some h.names_nodup).mpr (List.getElem?_eq_getElem hidx)]
  have horder : ∀ i j, order (eraseRowAndColumn
      (forLoop p.relations.length (promoteAround idx p.relations.length) p.relations) idx) i j ↔
      order p.relations (skip idx i) (skip idx j) := by
    intro i j
    rw [order, order, related, entry_eraseRowAndColumn, ← related,
      (alike_promoteAround p.relations idx p.relations.length).related]
  have hname : ∀ {i : Nat} {x : PosetElem},
    p.names[i]? = some x → (x ≠ p.names[idx] ↔ i ≠ idx) := by
    intro i x hi
    obtain ⟨hlt, rfl⟩ := List.getElem?_eq_some_iff.mp hi
    exact h.names_nodup.getElem_inj_iff.not
  rw [hremove]
  refine ⟨rfl, (h.names_nodup.erase_getElem idx hidx).symm, fun x y => ?_⟩
  constructor
  · rintro ⟨i, j, hi, hj, hij⟩
    rw [getElem?_skip] at hi hj
    rw [horder] at hij
    exact ⟨⟨_, _, hi, hj, hij⟩, (hname hi).mpr (skip_ne idx i), (hname hj).mpr (skip_ne idx j)⟩
  · rintro ⟨⟨i, j, hi, hj, hij⟩, hx, hy⟩
    obtain ⟨i, rfl⟩ := exists_skip ((hname hi).mp hx)
    obtain ⟨j, rfl⟩ := exists_skip ((hname hj).mp hy)
    exact ⟨i, j, by rw [getElem?_skip]; exact hi, by rw [getElem?_skip]; exact hj,
      (horder i j).mpr hij⟩

end Remove

/-- Exchanged labels change no answer, and what `poset_remove` leaves of a reachable
poset is the restriction of the relation to the other names, whatever the labels. -/
theorem labels_unobservable :
    (∀ s t : State, s.Alike t → ∀ cs, (calls step s cs).2 = (calls step t cs).2) ∧
    ∀ (history : List Call) (s : State), (after history).Alike s →
      ∀ id p a, s.allPosets id = some p → a ∈ p.names →
        ∃ p', posetRemove s id (some a) = (s.assign id p', .bool true) ∧
          p'.names = p.names.erase a ∧
          ∀ x y, p'.precedes x y ↔ p.precedes x y ∧ x ≠ a ∧ y ≠ a := by
  constructor
  · intro s t h cs
    exact (calls_simulation (R := State.Alike) (G := fun _ _ => True)
      (fun _ _ call h _ => h.step call)
      h (callsMeet_of_forall (fun _ _ => trivial) s cs)).2
  · intro history s halike id p a hlive ha
    rcases halike.cases id with ⟨-, hnone⟩ | ⟨q, p', hq, hp', halike'⟩
    · rw [hlive] at hnone
      cases hnone
    · rw [hlive] at hp'
      cases hp'
      have hwf := halike'.wellFormed (allWellFormed_after history id q hq)
      obtain ⟨htrue, hnames, hrel⟩ := remove_of_mem hwf ha
      refine ⟨(p.remove a).1, ?_, hnames, hrel⟩
      simp only [posetRemove, withElem, hlive, htrue]

/-- A chain of three, whose ends are related through the middle. -/
def chainOfThree : List Call :=
  [.new, .insert 0 (some "a"), .insert 0 (some "b"), .insert 0 (some "c"),
    .add 0 (some "a") (some "b"), .add 0 (some "b") (some "c")]

/-- The label of the ends is exchanged. -/
theorem labels_unobservable_chainOfThree :
    let p : Poset := ⟨["a", "b", "c"], [[1, 1, 1], [-1, 1, 1], [-1, -1, 1]]⟩
    let s := (after chainOfThree).assign 0 p
    (after chainOfThree).allPosets 0 ≠ s.allPosets 0 ∧
      (∀ cs, (calls step (after chainOfThree) cs).2 = (calls step s cs).2) ∧
      ∃ p', posetRemove s 0 (some "b") = (s.assign 0 p', .bool true) ∧ p'.precedes "a" "c" := by
  intro p s
  have hlive : (after chainOfThree).allPosets 0 =
      some ⟨["a", "b", "c"], [[1, 1, 2], [-1, 1, 1], [-1, -1, 1]]⟩ := by decide
  have hp : Poset.Alike ⟨["a", "b", "c"], [[1, 1, 2], [-1, 1, 1], [-1, -1, 1]]⟩ p :=
    ⟨rfl, alike_promote _ (i := 0) (j := 2) rfl⟩
  have halike : (after chainOfThree).Alike s := by
    have hself : (after chainOfThree).Alike (after chainOfThree) :=
      ⟨rfl, rfl, fun id => by
        cases (after chainOfThree).allPosets id with
        | none => exact .none
        | some q => exact .some (.refl q)⟩
    have hassign := hself.assign 0 hp
    rwa [State.assign_self hlive] at hassign
  refine ⟨by rw [hlive]; decide, labels_unobservable.1 _ s halike, ?_⟩
  obtain ⟨p', hremove, -, hrel⟩ :=
    labels_unobservable.2 chainOfThree s halike 0 p "b" rfl (by decide)
  exact ⟨p', hremove, (hrel "a" "c").mpr ⟨⟨0, 2, rfl, rfl, rfl⟩, by decide, by decide⟩⟩

end Mimuw.Posets
