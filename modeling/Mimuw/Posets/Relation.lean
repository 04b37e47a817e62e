import Mimuw.Posets.Invariant

/-!
# The relation between the elements

What `poset_add` and `poset_del` do to the relation on the names, which the matrix
describes by indices.
-/

namespace Mimuw.Posets

open Mimuw.Lib

def Poset.precedes (p : Poset) (a b : PosetElem) : Prop :=
  ∃ i j, p.names[i]? = some a ∧ p.names[j]? = some b ∧ order p.relations i j

def Poset.Unrelated (p : Poset) (a b : PosetElem) : Prop :=
  a ∈ p.names ∧ b ∈ p.names ∧ ¬ p.precedes a b ∧ ¬ p.precedes b a

section Names

variable {p : Poset} {a b : PosetElem} {i j : Nat}

theorem checkIfElemExist_eq_some {names : List PosetElem} (hnodup : names.Nodup)
    {value : PosetElem} :
    checkIfElemExistInVecOfStr names value = some i ↔ names[i]? = some value := by
  rw [checkIfElemExistInVecOfStr, List.findIdx?_eq_some_iff_getElem]
  constructor
  · rintro ⟨hi, heq, -⟩
    exact List.getElem?_eq_some_iff.mpr ⟨hi, by simpa using heq⟩
  · intro h
    obtain ⟨hi, rfl⟩ := List.getElem?_eq_some_iff.mp h
    refine ⟨hi, by simp, fun k hk heq => ?_⟩
    have hki : k = i := (hnodup.getElem_inj_iff).mp (by simpa using heq)
    omega

/-- The indices of two elements tell whether one precedes the other. -/
private theorem precedes_iff (hnodup : p.names.Nodup) (ha : p.names[i]? = some a)
    (hb : p.names[j]? = some b) :
    p.precedes a b ↔ order p.relations i j := by
  constructor
  · rintro ⟨i', j', ha', hb', horder⟩
    obtain ⟨hi, rfl⟩ := List.getElem?_eq_some_iff.mp ha
    obtain ⟨hj, rfl⟩ := List.getElem?_eq_some_iff.mp hb
    obtain ⟨hi', heq⟩ := List.getElem?_eq_some_iff.mp ha'
    obtain ⟨hj', heq'⟩ := List.getElem?_eq_some_iff.mp hb'
    rwa [hnodup.getElem_inj_iff.mp heq, hnodup.getElem_inj_iff.mp heq'] at horder
  · exact fun horder => ⟨i, j, ha, hb, horder⟩

private theorem mem_of_precedes (h : p.precedes a b) : a ∈ p.names ∧ b ∈ p.names := by
  obtain ⟨i, j, ha, hb, -⟩ := h
  exact ⟨List.mem_of_getElem? ha, List.mem_of_getElem? hb⟩

theorem WellFormed.precedes (h : WellFormed p) : PartialOrderOn {a | a ∈ p.names} p.precedes where
  refl a ha := by
    obtain ⟨i, hi, rfl⟩ := List.getElem_of_mem ha
    exact ⟨i, i, List.getElem?_eq_getElem hi, List.getElem?_eq_getElem hi, h.partialOrder.refl i hi⟩
  antisymm a ha b hb hab hba := by
    obtain ⟨i, hi, rfl⟩ := List.getElem_of_mem ha
    obtain ⟨j, hj, rfl⟩ := List.getElem_of_mem hb
    have hi' := List.getElem?_eq_getElem hi
    have hj' := List.getElem?_eq_getElem hj
    rw [precedes_iff h.names_nodup hi' hj'] at hab
    rw [precedes_iff h.names_nodup hj' hi'] at hba
    obtain rfl := h.partialOrder.antisymm i hi j hj hab hba
    rfl
  trans a ha b hb c hc hab hbc := by
    obtain ⟨i, hi, rfl⟩ := List.getElem_of_mem ha
    obtain ⟨j, hj, rfl⟩ := List.getElem_of_mem hb
    obtain ⟨k, hk, rfl⟩ := List.getElem_of_mem hc
    have hi' := List.getElem?_eq_getElem hi
    have hj' := List.getElem?_eq_getElem hj
    have hk' := List.getElem?_eq_getElem hk
    rw [precedes_iff h.names_nodup hi' hj'] at hab
    rw [precedes_iff h.names_nodup hj' hk'] at hbc
    rw [precedes_iff h.names_nodup hi' hk']
    exact h.partialOrder.trans i hi j hj k hk hab hbc

private theorem precedes_congr {arr : PosetRelationsArray} {r : PosetElem → PosetElem → Prop}
    (hnodup : p.names.Nodup) (hrel : ∀ (i j : Nat) (hi : i < p.names.length)
      (hj : j < p.names.length), order arr i j ↔ r p.names[i] p.names[j]) (x y : PosetElem) :
    (⟨p.names, arr⟩ : Poset).precedes x y ↔ x ∈ p.names ∧ y ∈ p.names ∧ r x y := by
  constructor
  · intro h
    obtain ⟨hx, hy⟩ := mem_of_precedes h
    refine ⟨hx, hy, ?_⟩
    obtain ⟨i, hi, rfl⟩ := List.getElem_of_mem hx
    obtain ⟨j, hj, rfl⟩ := List.getElem_of_mem hy
    rw [precedes_iff (p := ⟨p.names, arr⟩) hnodup (List.getElem?_eq_getElem hi)
      (List.getElem?_eq_getElem hj)] at h
    exact (hrel i j hi hj).mp h
  · rintro ⟨hx, hy, hr⟩
    obtain ⟨i, hi, rfl⟩ := List.getElem_of_mem hx
    obtain ⟨j, hj, rfl⟩ := List.getElem_of_mem hy
    exact ⟨i, j, List.getElem?_eq_getElem hi, List.getElem?_eq_getElem hj, (hrel i j hi hj).mpr hr⟩

end Names

/-! ## Adding a pair -/

section Add

variable {p : Poset} {a b : PosetElem}

private theorem add_of_unrelated (h : WellFormed p) (hun : p.Unrelated a b) :
    (p.add a b).2 = true ∧ (p.add a b).1.names = p.names ∧
      ∀ x y, (p.add a b).1.precedes x y ↔ extendRel p.precedes a b x y := by
  obtain ⟨ha, hb, hab, hba⟩ := hun
  obtain ⟨i, hi, rfl⟩ := List.getElem_of_mem ha
  obtain ⟨j, hj, rfl⟩ := List.getElem_of_mem hb
  have hi' := List.getElem?_eq_getElem hi
  have hj' := List.getElem?_eq_getElem hj
  rw [precedes_iff h.names_nodup hi' hj'] at hab
  rw [precedes_iff h.names_nodup hj' hi'] at hba
  have hadd : p.add p.names[i] p.names[j] =
      ({ p with relations :=
        addTransitivityRelations (setEntry p.relations i j relation) i j }, true) := by
    unfold Poset.add
    rw [(checkIfElemExist_eq_some h.names_nodup).mpr hi',
      (checkIfElemExist_eq_some h.names_nodup).mpr hj']
    have hnone : (related p.relations i j || related p.relations j i) = false :=
      Bool.or_eq_false_iff.mpr ⟨Bool.eq_false_iff.mpr hab, Bool.eq_false_iff.mpr hba⟩
    simp [hnone]
  rw [hadd]
  refine ⟨rfl, rfl, fun x y => ?_⟩
  obtain ⟨-, -, hrel⟩ := addTransitivityRelations_spec h.square h.labelled h.partialOrder hi hj hba
  have hprec : ∀ {k l : Nat} (hk : k < p.names.length) (hl : l < p.names.length),
      p.precedes p.names[k] p.names[l] ↔ order p.relations k l := fun hk hl =>
    precedes_iff h.names_nodup (List.getElem?_eq_getElem hk) (List.getElem?_eq_getElem hl)
  refine (precedes_congr (r := extendRel p.precedes p.names[i] p.names[j]) h.names_nodup
    (fun k l hk hl => ?_) x y).trans ?_
  · rw [hrel k hk l hl, extendRel, extendRel, hprec hk hl, hprec hk hi, hprec hj hl]
  · constructor
    · exact fun hxy => hxy.2.2
    · rintro (hxy | ⟨hxa, hby⟩)
      · exact ⟨(mem_of_precedes hxy).1, (mem_of_precedes hxy).2, .inl hxy⟩
      · exact ⟨(mem_of_precedes hxa).1, (mem_of_precedes hby).2, .inr ⟨hxa, hby⟩⟩

private theorem add_of_related (h : WellFormed p) (hrel : ¬ p.Unrelated a b) :
    p.add a b = (p, false) := by
  unfold Poset.add
  split
  next i j hi hj =>
    rw [checkIfElemExist_eq_some h.names_nodup] at hi hj
    split
    · rfl
    next hnone =>
      refine absurd ⟨List.mem_of_getElem? hi, List.mem_of_getElem? hj, ?_, ?_⟩ hrel
      · rw [precedes_iff h.names_nodup hi hj]
        exact fun horder => hnone (by rw [horder]; rfl)
      · rw [precedes_iff h.names_nodup hj hi]
        exact fun horder => hnone (by rw [horder, Bool.or_true])
  · rfl

end Add

/-! ## Deleting a pair -/

section Del

variable {p : Poset} {a b : PosetElem}

/-- A pair can be deleted when nothing stands between its elements. -/
private theorem punch_iff (h : WellFormed p) (hne : a ≠ b) (ha : a ∈ p.names) (hb : b ∈ p.names) :
    PartialOrderOn {x | x ∈ p.names} (punchRel p.precedes a b) ↔
      ∀ c ∈ p.names, c ≠ a → c ≠ b → ¬ (p.precedes a c ∧ p.precedes c b) := by
  constructor
  · rintro hpunch c hc hca hcb ⟨hac, hcb'⟩
    have hac' : punchRel p.precedes a b a c := ⟨hac, fun heq => hcb heq.2⟩
    have hcb'' : punchRel p.precedes a b c b := ⟨hcb', fun heq => hca heq.1⟩
    exact (hpunch.trans a ha c hc b hb hac' hcb'').2 ⟨rfl, rfl⟩
  · exact h.precedes.punch hne

private theorem del_of_deletable (h : WellFormed p) (hne : a ≠ b) (hab : p.precedes a b)
    (hpunch : PartialOrderOn {x | x ∈ p.names} (punchRel p.precedes a b)) :
    (p.del a b).2 = true ∧ (p.del a b).1.names = p.names ∧
      ∀ x y, (p.del a b).1.precedes x y ↔ punchRel p.precedes a b x y := by
  obtain ⟨ha, hb⟩ := mem_of_precedes hab
  have hcover := (punch_iff h hne ha hb).mp hpunch
  obtain ⟨i, hi, rfl⟩ := List.getElem_of_mem ha
  obtain ⟨j, hj, rfl⟩ := List.getElem_of_mem hb
  have hprec : ∀ {k l : Nat} (hk : k < p.names.length) (hl : l < p.names.length),
      p.precedes p.names[k] p.names[l] ↔ order p.relations k l := fun hk hl =>
    precedes_iff h.names_nodup (List.getElem?_eq_getElem hk) (List.getElem?_eq_getElem hl)
  have hij : i ≠ j := by
    rintro rfl
    exact hne rfl
  have horder : order p.relations i j := (hprec hi hj).mp hab
  have hbetween : somethingIsBetweenTwoElem p.relations i j = false := by
    rw [somethingIsBetweenTwoElem_eq_false_iff h.square]
    intro k hk hki hkj
    rw [← hprec hi hk, ← hprec hk hj]
    refine hcover _ (List.getElem_mem hk) ?_ ?_
    · exact fun heq => hki (h.names_nodup.getElem_inj_iff.mp heq)
    · exact fun heq => hkj (h.names_nodup.getElem_inj_iff.mp heq)
  have hdel : p.del p.names[i] p.names[j] =
      ({ p with relations :=
        setEntry (setEntry p.relations i j noRelation) j i noRelation }, true) := by
    unfold Poset.del
    rw [(checkIfElemExist_eq_some h.names_nodup).mpr (List.getElem?_eq_getElem hi),
      (checkIfElemExist_eq_some h.names_nodup).mpr (List.getElem?_eq_getElem hj)]
    have hrelated : related p.relations i j = true := horder
    simp [hij, hrelated, hbetween]
  rw [hdel]
  refine ⟨rfl, rfl, fun x y => ?_⟩
  refine (precedes_congr (r := punchRel p.precedes p.names[i] p.names[j]) h.names_nodup
    (fun k l hk hl => ?_) x y).trans ?_
  · -- the entry of the reversed pair was clear before
    have hji : ¬ order p.relations j i := fun hji =>
      hij (h.partialOrder.antisymm i hi j hj horder hji)
    have hs := h.square.setEntry i j noRelation
    rw [punchRel, hprec hk hl, h.names_nodup.getElem_inj_iff, h.names_nodup.getElem_inj_iff]
    simp only [order] at hji ⊢
    rw [related_setEntry hs hj hi, related_setEntry h.square hi hj]
    split_ifs with hrev hpair
    · obtain ⟨rfl, rfl⟩ := hrev
      simp [hji]
    · simp [hpair]
    · simp [hpair]
  · constructor
    · exact fun hxy => hxy.2.2
    · exact fun hxy => ⟨(mem_of_precedes hxy.1).1, (mem_of_precedes hxy.1).2, hxy⟩

private theorem del_of_not (h : WellFormed p) (hne : a ≠ b)
    (hnot : ¬ (p.precedes a b ∧ PartialOrderOn {x | x ∈ p.names} (punchRel p.precedes a b))) :
    p.del a b = (p, false) := by
  unfold Poset.del
  split
  next i j hi hj =>
    rw [checkIfElemExist_eq_some h.names_nodup] at hi hj
    split
    · rfl
    next hij =>
      split
      next hrelated =>
        split
        · rfl
        next hbetween =>
          refine absurd ⟨(precedes_iff h.names_nodup hi hj).mpr hrelated, ?_⟩ hnot
          rw [punch_iff h hne (List.mem_of_getElem? hi) (List.mem_of_getElem? hj)]
          intro c hc hca hcb hbetween'
          obtain ⟨k, hk, rfl⟩ := List.getElem_of_mem hc
          have hk' := List.getElem?_eq_getElem hk
          rw [precedes_iff h.names_nodup hi hk', precedes_iff h.names_nodup hk' hj] at hbetween'
          refine (somethingIsBetweenTwoElem_eq_false_iff h.square i j).mp
            (Bool.eq_false_iff.mpr hbetween) k hk ?_ ?_ hbetween'
          · rintro rfl
            exact hca (Option.some.inj (hk'.symm.trans hi))
          · rintro rfl
            exact hcb (Option.some.inj (hk'.symm.trans hj))
      · rfl
  · rfl

end Del

/-! ## The calls -/

section Calls

variable {s : State} {id : PosetID} {p : Poset}

theorem State.assign_self (h : s.allPosets id = some p) : s.assign id p = s := by
  unfold State.assign
  rw [← h, Function.update_eq_self]

private theorem posetAdd_eq (h : s.allPosets id = some p) (a b : PosetElem) :
    posetAdd s id (some a) (some b) = (s.assign id (p.add a b).1, .bool (p.add a b).2) := by
  simp only [posetAdd, withPair, h]

private theorem posetDel_eq (h : s.allPosets id = some p) (a b : PosetElem) :
    posetDel s id (some a) (some b) = (s.assign id (p.del a b).1, .bool (p.del a b).2) := by
  simp only [posetDel, withPair, h]

end Calls

/-- `poset_add` extends the relation of two unrelated elements by what lies below the one
and above the other, which is the least partial order there can be; on all other names it
does nothing. -/
theorem add_least (history : List Call) (id : PosetID) (p : Poset)
    (hlive : (after history).allPosets id = some p) (value1 value2 : Option PosetElem) :
    (∀ a b, value1 = some a → value2 = some b → p.Unrelated a b →
      ∃ p', posetAdd (after history) id value1 value2 = ((after history).assign id p', .bool true) ∧
        p'.names = p.names ∧
        (∀ x y, p'.precedes x y ↔ p.precedes x y ∨ p.precedes x a ∧ p.precedes b y) ∧
        PartialOrderOn {x | x ∈ p.names} p'.precedes ∧
        ∀ r, PartialOrderOn {x | x ∈ p.names} r → (∀ x y, p.precedes x y → r x y) → r a b →
          ∀ x y, p'.precedes x y → r x y) ∧
    ((∀ a b, value1 = some a → value2 = some b → ¬ p.Unrelated a b) →
      posetAdd (after history) id value1 value2 = (after history, .bool false)) := by
  have h := allWellFormed_after history id p hlive
  constructor
  · rintro a b rfl rfl hun
    obtain ⟨htrue, hnames, hrel⟩ := add_of_unrelated h hun
    refine ⟨(p.add a b).1, ?_, hnames, hrel, ?_, fun r hr hold hab x y hxy => ?_⟩
    · rw [posetAdd_eq hlive, htrue]
    · exact hnames ▸ (wellFormed_add h a b).precedes
    · rcases (hrel x y).mp hxy with hxy | ⟨hxa, hby⟩
      · exact hold x y hxy
      · have hx := (mem_of_precedes hxa).1
        have hy := (mem_of_precedes hby).2
        exact hr.trans x hx b hun.2.1 y hy (hr.trans x hx a hun.1 b hun.2.1 (hold x a hxa) hab)
          (hold b y hby)
  · intro hnot
    cases value1 with
    | none => rfl
    | some a =>
        cases value2 with
        | none => rfl
        | some b =>
            rw [posetAdd_eq hlive, add_of_related h (hnot a b rfl rfl), State.assign_self hlive]

def twoPairs : List Call :=
  [.new, .insert 0 (some "a"), .insert 0 (some "b"), .insert 0 (some "c"), .insert 0 (some "d"),
    .add 0 (some "a") (some "b"), .add 0 (some "c") (some "d")]

theorem add_least_twoPairs :
    ∃ p p', (after twoPairs).allPosets 0 = some p ∧ p.Unrelated "b" "c" ∧
      posetAdd (after twoPairs) 0 (some "b") (some "c") =
        ((after twoPairs).assign 0 p', .bool true) ∧ p'.precedes "a" "d" := by
  let p : Poset := ⟨["a", "b", "c", "d"],
    [[1, 1, -1, -1], [-1, 1, -1, -1], [-1, -1, 1, 1], [-1, -1, -1, 1]]⟩
  have hlive : (after twoPairs).allPosets 0 = some p := by decide
  have hnodup : p.names.Nodup := by decide
  have hun : p.Unrelated "b" "c" := by
    refine ⟨by decide, by decide, ?_, ?_⟩
    · rw [precedes_iff hnodup (show p.names[1]? = _ from rfl) (show p.names[2]? = _ from rfl)]
      exact Bool.false_ne_true
    · rw [precedes_iff hnodup (show p.names[2]? = _ from rfl) (show p.names[1]? = _ from rfl)]
      exact Bool.false_ne_true
  obtain ⟨p', hadd, -, hrel, -⟩ :=
    (add_least twoPairs 0 p hlive (some "b") (some "c")).1 "b" "c" rfl rfl hun
  exact ⟨p, p', hlive, hun, hadd,
    (hrel "a" "d").mpr (.inr ⟨⟨0, 1, rfl, rfl, rfl⟩, ⟨2, 3, rfl, rfl, rfl⟩⟩)⟩

/-- `poset_del` drops a pair exactly when the relation stays a partial order without it. -/
theorem del_keeps_order (history : List Call) (id : PosetID) (p : Poset)
    (hlive : (after history).allPosets id = some p) (a b : PosetElem) (hne : a ≠ b) :
    ((posetDel (after history) id (some a) (some b)).2 = .bool true ↔
      p.precedes a b ∧ PartialOrderOn {x | x ∈ p.names} (punchRel p.precedes a b)) ∧
    ((posetDel (after history) id (some a) (some b)).2 = .bool true →
      ∃ p', (posetDel (after history) id (some a) (some b)).1 = (after history).assign id p' ∧
        p'.names = p.names ∧
        ∀ x y, p'.precedes x y ↔ p.precedes x y ∧ ¬ (x = a ∧ y = b)) ∧
    ((posetDel (after history) id (some a) (some b)).2 ≠ .bool true →
      posetDel (after history) id (some a) (some b) = (after history, .bool false)) := by
  have h := allWellFormed_after history id p hlive
  rw [posetDel_eq hlive]
  by_cases hdel : p.precedes a b ∧ PartialOrderOn {x | x ∈ p.names} (punchRel p.precedes a b)
  · obtain ⟨htrue, hnames, hrel⟩ := del_of_deletable h hne hdel.1 hdel.2
    rw [htrue]
    exact ⟨⟨fun _ => hdel, fun _ => rfl⟩, fun _ => ⟨_, rfl, hnames, hrel⟩,
      fun hno => absurd rfl hno⟩
  · rw [del_of_not h hne hdel, State.assign_self hlive]
    exact ⟨⟨nofun, fun hyes => absurd hyes hdel⟩, nofun, fun _ => rfl⟩

theorem del_keeps_order_twoPairs :
    ∃ p, (after twoPairs).allPosets 0 = some p ∧
      ((posetDel (after twoPairs) 0 (some "a") (some "b")).2 = .bool true ↔
        p.precedes "a" "b" ∧ PartialOrderOn {x | x ∈ p.names} (punchRel p.precedes "a" "b")) := by
  have hlive : (after twoPairs).allPosets 0 =
      some ⟨["a", "b", "c", "d"],
        [[1, 1, -1, -1], [-1, 1, -1, -1], [-1, -1, 1, 1], [-1, -1, -1, 1]]⟩ := by
    decide
  exact ⟨_, hlive, (del_keeps_order twoPairs 0 _ hlive "a" "b" (by decide)).1⟩

end Mimuw.Posets
