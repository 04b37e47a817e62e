import Mimuw.Posets.Matrix

/-!
# Every live poset is a partial order

`WellFormed` says what a poset of the module is: distinct names, a matrix of
the same size as the name vector, and a relation that is a partial order on the
indices.  Each of the five operations that edit a poset keeps it, so it holds
of every live poset after any sequence of calls.
-/

namespace Mimuw.Posets

open Mimuw.Lib

structure WellFormed (p : Poset) : Prop where
  names_nodup : p.names.Nodup
  square : Square p.names.length p.relations
  labelled : Labelled p.names.length p.relations
  partialOrder : PartialOrderOn (Set.Iio p.names.length) (order p.relations)

private theorem wellFormed_empty : WellFormed .empty where
  names_nodup := List.nodup_nil
  square := ⟨rfl, by simp [Poset.empty]⟩
  labelled i hi := absurd hi (Nat.not_lt_zero i)
  partialOrder := ⟨fun x hx => absurd hx (Nat.not_lt_zero x),
    fun x hx => absurd hx (Nat.not_lt_zero x), fun x hx => absurd hx (Nat.not_lt_zero x)⟩

private theorem lt_length_of_checkIfElemExist {names : List PosetElem} {value : PosetElem}
    {i : Nat} (h : checkIfElemExistInVecOfStr names value = some i) : i < names.length :=
  (List.findIdx?_eq_some_iff_getElem.mp h).1

/-! ## The five operations -/

private theorem wellFormed_insert {p : Poset} (h : WellFormed p) (value : PosetElem) :
    WellFormed (p.insert value).1 := by
  unfold Poset.insert
  split
  · exact h
  · rename_i hnew
    obtain ⟨hs, hl, hread⟩ := addRowAndColumn_spec h.square h.labelled
    have hrel : ∀ x ≤ p.names.length, ∀ y ≤ p.names.length,
        order (addRowAndColumn p.relations) x y ↔
          if x < p.names.length ∧ y < p.names.length then order p.relations x y
          else x = p.names.length ∧ y = p.names.length := by
      intro x hx y hy
      simp only [order, related, hread x hx y hy]
      split_ifs <;> simp_all
    constructor
    · rw [List.nodup_append]
      refine ⟨h.names_nodup, List.nodup_singleton _, ?_⟩
      rintro a ha b hb rfl
      simp only [List.mem_singleton] at hb
      subst hb
      exact hnew (List.any_eq_true.mpr ⟨a, ha, by simp⟩)
    · simpa using hs
    · simpa using hl
    · have hIio : Set.Iio (p.names ++ [value]).length =
          insert p.names.length (Set.Iio p.names.length) := by
        ext x
        simp
      rw [hIio]
      refine h.partialOrder.insert_isolated ?_ ?_ ?_ ?_
      · exact (hrel _ le_rfl _ le_rfl).2 (by simp)
      · intro x (hx : x < p.names.length) hlt
        have := (hrel _ le_rfl x hx.le).1 hlt
        simp at this
        omega
      · intro x (hx : x < p.names.length) hlt
        have := (hrel x hx.le _ le_rfl).1 hlt
        simp at this
        omega
      · intro x (hx : x < p.names.length) y (hy : y < p.names.length)
        rw [hrel x hx.le y hy.le, if_pos ⟨hx, hy⟩]

private theorem wellFormed_remove {p : Poset} (h : WellFormed p) (value : PosetElem) :
    WellFormed (p.remove value).1 := by
  unfold Poset.remove
  split
  · rename_i idx hidx
    have hlt := lt_length_of_checkIfElemExist hidx
    obtain ⟨n, hn⟩ := Nat.exists_eq_add_one_of_ne_zero (Nat.ne_zero_of_lt hlt)
    obtain ⟨hs, hl, hrel⟩ := promoteAround_spec h.square h.labelled idx
    have hlen : (p.names.eraseIdx idx).length = n := by
      rw [List.length_eraseIdx_of_lt hlt]
      omega
    simp only [h.square.rows]
    rw [hn] at hs hl hlt ⊢
    obtain ⟨hs', hl'⟩ := eraseRowAndColumn_spec hs hl hlt
    rw [hn] at hrel
    constructor
    · exact h.names_nodup.eraseIdx idx
    · exact hlen ▸ hs'
    · exact hlen ▸ hl'
    · rw [hlen]
      have hcomap : PartialOrderOn (Set.Iio n)
          fun x y => order p.relations (skip idx x) (skip idx y) := by
        refine h.partialOrder.comap (fun x hx => ?_) fun x _ y _ => skip_injective idx
        exact Set.mem_Iio.mpr (hn ▸ skip_lt hx)
      refine hcomap.congr fun x _ y _ => ?_
      have herase : related (eraseRowAndColumn
          (forLoop (n + 1) (promoteAround idx (n + 1)) p.relations) idx) x y =
          related p.relations (skip idx x) (skip idx y) := by
        rw [← hrel, related, entry_eraseRowAndColumn, related]
      simp only [order, herase]
  · exact h

theorem wellFormed_add {p : Poset} (h : WellFormed p) (value1 value2 : PosetElem) :
    WellFormed (p.add value1 value2).1 := by
  unfold Poset.add
  split
  · rename_i index1 index2 hidx1 hidx2
    split
    · exact h
    · rename_i hunrelated
      simp only [Bool.or_eq_true, not_or] at hunrelated
      have h1 := lt_length_of_checkIfElemExist hidx1
      have h2 := lt_length_of_checkIfElemExist hidx2
      obtain ⟨hs, hl, hrel⟩ := addTransitivityRelations_spec h.square h.labelled
        h.partialOrder h1 h2 hunrelated.2
      exact ⟨h.names_nodup, hs, hl,
        (h.partialOrder.extend h1 h2 hunrelated.2).congr fun x hx y hy => hrel x hx y hy⟩
  · exact h

private theorem wellFormed_del {p : Poset} (h : WellFormed p) (value1 value2 : PosetElem) :
    WellFormed (p.del value1 value2).1 := by
  unfold Poset.del
  split
  · rename_i index1 index2 hidx1 hidx2
    split
    · exact h
    · rename_i hne
      split
      · rename_i hrel12
        split
        · exact h
        · rename_i hbetween
          have hne' : index1 ≠ index2 := by simpa using hne
          have h1 := lt_length_of_checkIfElemExist hidx1
          have h2 := lt_length_of_checkIfElemExist hidx2
          have hs := h.square.setEntry index1 index2 noRelation
          have hl := h.labelled.setEntry h.square h1 h2 isLabel_noRelation
          have hcover := (somethingIsBetweenTwoElem_eq_false_iff h.square index1 index2).1
            (Bool.eq_false_iff.mpr hbetween)
          -- the second write clears an entry that antisymmetry already keeps clear
          have h21 : ¬order p.relations index2 index1 := fun h21 =>
            hne' (h.partialOrder.antisymm index1 h1 index2 h2 hrel12 h21)
          refine ⟨h.names_nodup, hs.setEntry _ _ _,
            hl.setEntry hs h2 h1 isLabel_noRelation,
            (h.partialOrder.punch hne' hcover).congr fun x hx y hy => ?_⟩
          simp only [order, punchRel] at h21 ⊢
          rw [related_setEntry hs h2 h1, related_setEntry h.square h1 h2]
          split_ifs with h21' h12' <;> simp_all
      · exact h
  · exact h

/-! ## Any sequence of calls -/

def AllWellFormed (s : State) : Prop :=
  ∀ id p, s.allPosets id = some p → WellFormed p

private theorem AllWellFormed.assign {s : State} (h : AllWellFormed s) (id : PosetID)
    {p : Poset} (hp : WellFormed p) : AllWellFormed (s.assign id p) := by
  intro id' p' hp'
  simp only [State.assign, Function.update_apply] at hp'
  split at hp'
  · simpa [← Option.some.inj hp'] using hp
  · exact h id' p' hp'

private theorem AllWellFormed.insertNew {s : State} (h : AllWellFormed s) (id : PosetID) :
    AllWellFormed (s.insertNew id .empty) := by
  unfold State.insertNew
  split
  · exact h
  · exact h.assign id wellFormed_empty

private theorem AllWellFormed.withElem {s : State} (h : AllWellFormed s)
    {op : Poset → PosetElem → Poset × Bool}
    (hop : ∀ p value, WellFormed p → WellFormed (op p value).1)
    (id : PosetID) (value : Option PosetElem) :
    AllWellFormed (withElem op s id value).1 := by
  unfold Posets.withElem
  split
  · rename_i value p hp
    exact h.assign id (hop p value (h id p hp))
  · exact h

private theorem AllWellFormed.withPair {s : State} (h : AllWellFormed s)
    {op : Poset → PosetElem → PosetElem → Poset × Bool}
    (hop : ∀ p value1 value2, WellFormed p → WellFormed (op p value1 value2).1)
    (id : PosetID) (value1 value2 : Option PosetElem) :
    AllWellFormed (withPair op s id value1 value2).1 := by
  unfold Posets.withPair
  split
  · rename_i value1 value2 p hp
    exact h.assign id (hop p value1 value2 (h id p hp))
  · exact h

theorem AllWellFormed.step {s : State} (h : AllWellFormed s) (call : Call) :
    AllWellFormed (step s call).1 := by
  cases call with
  | new =>
      simp only [Posets.step, posetNew]
      split
      · rename_i id rest hids
        exact AllWellFormed.insertNew (s := { s with availableIDs := rest }) h id
      · exact AllWellFormed.insertNew (s := { s with nextID := s.nextID + 1 }) h s.nextID
  | delete id =>
      simp only [Posets.step, posetDelete]
      split
      · intro id' p' hp'
        simp only [Function.update_apply] at hp'
        split at hp'
        · cases hp'
        · exact h id' p' hp'
      · exact h
  | size id =>
      simp only [Posets.step, posetSize]
      split <;> exact h
  | insert id value => exact h.withElem (fun _ value hp => wellFormed_insert hp value) id value
  | remove id value => exact h.withElem (fun _ value hp => wellFormed_remove hp value) id value
  | add id value1 value2 =>
      exact h.withPair (fun _ value1 value2 hp => wellFormed_add hp value1 value2) id value1 value2
  | del id value1 value2 =>
      exact h.withPair (fun _ value1 value2 hp => wellFormed_del hp value1 value2) id value1 value2
  | test id value1 value2 =>
      simp only [Posets.step, posetTest]
      split <;> exact h
  | clear id =>
      simp only [Posets.step, posetClear]
      split
      · exact h.assign id wellFormed_empty
      · exact h

theorem allWellFormed_after (history : List Call) : AllWellFormed (after history) :=
  calls_invariant (I := AllWellFormed) (fun _ call hs => hs.step call)
    (fun _ _ hp => by simp [State.initial] at hp) history

/-- After any sequence of calls with any arguments, every live poset has
distinct names, a square matrix of the same size, and entries that describe a
partial order on the indices. -/
theorem live_poset_is_partial_order (history : List Call) (id : PosetID) (p : Poset)
    (hlive : (after history).allPosets id = some p) :
    p.names.Nodup ∧
      p.relations.length = p.names.length ∧
      (∀ row ∈ p.relations, row.length = p.names.length) ∧
      PartialOrderOn (Set.Iio p.names.length) fun i j =>
        entry p.relations i j = relation ∨ entry p.relations i j = relTransitivity := by
  have h := allWellFormed_after history id p hlive
  refine ⟨h.names_nodup, h.square.rows, h.square.columns, h.partialOrder.congr ?_⟩
  intro i _ j _
  simp [order, related, isRelated]

/-- A chain of three built through the middle element, with a dead identifier
and a `NULL` name on the way. -/
theorem live_poset_is_partial_order_chain :
    let p : Poset := ⟨["a", "b", "c"], [[1, 1, 2], [-1, 1, 1], [-1, -1, 1]]⟩
    let history : List Call :=
      [.new, .insert 0 (some "a"), .insert 0 (some "b"), .insert 7 (some "b"),
        .insert 0 (some "c"), .add 0 (some "b") (some "c"), .add 0 none (some "c"),
        .add 0 (some "a") (some "b")]
    (after history).allPosets 0 = some p ∧
      PartialOrderOn (Set.Iio 3) fun i j =>
        entry p.relations i j = relation ∨ entry p.relations i j = relTransitivity := by
  have hlive : (after [.new, .insert 0 (some "a"), .insert 0 (some "b"),
      .insert 7 (some "b"), .insert 0 (some "c"), .add 0 (some "b") (some "c"),
      .add 0 none (some "c"), .add 0 (some "a") (some "b")]).allPosets 0 =
      some ⟨["a", "b", "c"], [[1, 1, 2], [-1, 1, 1], [-1, -1, 1]]⟩ := by decide
  exact ⟨hlive, (live_poset_is_partial_order _ 0 _ hlive).2.2.2⟩

end Mimuw.Posets
