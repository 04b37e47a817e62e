import Mathlib
import Mimuw.Stacks.Sharing

/-!
# Stacks do not see each other

A stack changes only through its own calls and references as long as no stack is assigned
from another that has a reference outside: the assignment shares the inner stack whose
values the reference writes.
-/

namespace Mimuw.Stacks

open Mimuw.Lib Mimuw.Lib.Sharing

variable {K V : Type*} {m : Memory K V} {s p : Nat}

/-! ## One statement -/

section Calls

private theorem held_congr (value value' : Nat → V) (inner : InnerStack K Nat)
    (h : ∀ c ∈ layout.cells inner, value c = value' c) :
    (inner, inner.mapValue value) = (inner, inner.mapValue value') := by
  rw [mapValue_congr value value' inner h]

private theorem held_grows (h : Separate layout m) {m' : Memory K V} (hg : Grows m m') (t : Nat) :
    held m' t = held m t :=
  Separate.view_grows held_congr h hg t

/-- Statements keep the stacks separate, and change those they are about. -/
def Keeps (m : Memory K V) (touched : Nat → Prop) (m' : Memory K V) : Prop :=
  Separate layout m' ∧ ∀ t, ¬ touched t → held m' t = held m t

private theorem keeps_refl (h : Separate layout m) (touched : Nat → Prop) : Keeps m touched m :=
  ⟨h, fun _ _ => rfl⟩

/-- The stack `s` has an inner stack of its own, and the other stacks are what they were. -/
structure Detached (m : Memory K V) (s : Nat) (m' : Memory K V) (p : Nat) : Prop where
  separate : Separate layout m'
  target : m'.target s = some p
  only : ∀ t, t ≠ s → m'.target t ≠ some p
  others : ∀ t, t ≠ s → held m' t = held m t

/-- A stack with an inner stack of its own takes its references back and modifies it. -/
theorem Detached.modify {m' : Memory K V} (hd : Detached m s m' p) {inner : InnerStack K Nat}
    (hinner : inner.cells ⊆ (m'.node p).cells) :
    Keeps m (· = s) ((m'.revoke s).setNode p inner) := by
  refine ⟨(hd.separate.revoke s).setNode hd.target hd.only (fun c hc => .inl (hinner hc))
    fun r c hr => absurd hr (Separate.noLoan_revoke m' s r c), fun t ht => ?_⟩
  exact (Separate.view_setNode (m := m'.revoke s) hd.only ht).trans (hd.others t ht)

variable [LinearOrder K]

private theorem copyInner_fold (es : List (Element K Nat)) (m : Memory K V)
    (copy : InnerStack K Nat) :
    Grows m (es.foldl (fun (mc : Memory K V × InnerStack K Nat) e =>
      (mc.1.alloc (mc.1.value e.value), mc.2.push e.key mc.1.used)) (m, copy)).1 ∧
    ∀ c ∈ (es.foldl (fun (mc : Memory K V × InnerStack K Nat) e =>
      (mc.1.alloc (mc.1.value e.value), mc.2.push e.key mc.1.used)) (m, copy)).2.cells,
      c ∈ copy.cells ∨ m.used ≤ c ∧ c < (es.foldl (fun (mc : Memory K V × InnerStack K Nat) e =>
        (mc.1.alloc (mc.1.value e.value), mc.2.push e.key mc.1.used)) (m, copy)).1.used := by
  induction es generalizing m copy with
  | nil => exact ⟨.refl m, fun c hc => .inl hc⟩
  | cons e es ih =>
      obtain ⟨hgrows, hcells⟩ := ih (m.alloc (m.value e.value)) (copy.push e.key m.used)
      refine ⟨(Grows.alloc m _).trans hgrows, fun c hc => ?_⟩
      have hused : m.used + 1 ≤ _ := hgrows.used
      rcases hcells c hc with hc | ⟨hle, hlt⟩
      · rcases cells_push hc with hc | rfl
        · exact .inl hc
        · exact .inr ⟨le_rfl, hused⟩
      · exact .inr ⟨(Nat.le_succ _).trans hle, hlt⟩

theorem copyInner_spec (m : Memory K V) (inner : InnerStack K Nat) :
    Grows m (copyInner m inner).1 ∧
      ∀ c ∈ (copyInner m inner).2.cells, m.used ≤ c ∧ c < (copyInner m inner).1.used := by
  obtain ⟨hgrows, hcells⟩ := copyInner_fold inner.elementSet.reverse m .empty
  refine ⟨hgrows, fun c hc => (hcells c hc).resolve_left ?_⟩
  rw [cells_empty]
  exact Set.notMem_empty c

private theorem fresh_copy (h : Separate layout m) (inner : InnerStack K Nat) :
    ∀ c ∈ layout.cells (copyInner m inner).2, c < (copyInner m inner).1.used ∧
      ∀ q < (copyInner m inner).1.made, c ∉ layout.cells ((copyInner m inner).1.node q) := by
  obtain ⟨hgrows, hcells⟩ := copyInner_spec m inner
  intro c hc
  obtain ⟨hle, hlt⟩ := hcells c hc
  refine ⟨hlt, fun q hq hcq => ?_⟩
  rw [hgrows.made] at hq
  rw [hgrows.node] at hcq
  exact Nat.not_lt.mpr hle (h.used q hq c hcq)

private theorem detach_spec (h : Separate layout m) (hs : m.target s = some p)
    (hu : m.unique p = false) : Detached m s (detach m s p).1 (detach m s p).2 := by
  obtain ⟨hgrows, -⟩ := copyInner_spec m (m.node p)
  have hlt := lt_of_target hs
  have hcopied := h.grows hgrows
  have hmade := hcopied.make (fresh_copy h (m.node p))
  have hlength : s < ((copyInner m (m.node p)).1.make (copyInner m (m.node p)).2).handle.length :=
    lt_of_lt_of_eq hlt (congrArg List.length hgrows.handle).symm
  have hloan : NoLoan ((copyInner m (m.node p)).1.make (copyInner m (m.node p)).2) s :=
    fun r c hr => h.noLoan_of_not_unique hs hu r c (hgrows.lent r ▸ hr)
  have hfree (t : Nat) : (copyInner m (m.node p)).1.target t ≠
      some (copyInner m (m.node p)).1.made := fun heq =>
    (hcopied.made t _ heq).ne rfl
  have hnone : ∀ q, some (copyInner m (m.node p)).1.made = some q →
      q < (copyInner m (m.node p)).1.made + 1 ∧ ∀ t, t ≠ s →
        (copyInner m (m.node p)).1.target t = some q →
          NoLoan ((copyInner m (m.node p)).1.make (copyInner m (m.node p)).2) t := by
    rintro q heq
    obtain rfl := Option.some_inj.mp heq
    exact ⟨Nat.lt_succ_self _, fun t _ htq => absurd htq (hfree t)⟩
  refine ⟨hmade.point hloan hnone, target_point_self hlength, fun t ht => ?_, fun t ht => ?_⟩
  · exact (target_point_of_ne ht).trans_ne (hfree t)
  · have hview : held (detach m s p).1 t =
        held ((copyInner m (m.node p)).1.make (copyInner m (m.node p)).2) t :=
      congrArg (Option.map _) (target_point_of_ne ht)
    rw [hview, held, Separate.view_make hcopied]
    exact held_grows h hgrows t

theorem detachShared_spec (h : Separate layout m) (hs : m.target s = some p) :
    Detached m s (detachShared m s p).1 (detachShared m s p).2 := by
  unfold detachShared
  by_cases hu : m.unique p = true
  · rw [if_pos hu]
    exact ⟨h, hs, (unique_iff hs).mp hu, fun _ _ => rfl⟩
  · rw [if_neg hu]
    exact detach_spec h hs (Bool.eq_false_iff.mpr hu)

private theorem popInner_spec (h : Separate layout m) (hs : m.target s = some p)
    {pop : InnerStack K Nat → Option (InnerStack K Nat)}
    (hpop : ∀ inner inner', pop inner = some inner' → inner'.cells ⊆ inner.cells) :
    Keeps m (· = s) (popInner m s p pop).1 := by
  unfold popInner
  dsimp only
  split
  next inner hinner => exact (detachShared_spec h hs).modify (hpop _ inner hinner)
  next => exact keeps_refl h _

private theorem frontInner_spec (h : Separate layout m) (hs : m.target s = some p)
    {front : InnerStack K Nat → Option (Nat × (V → Answer K V))}
    (hfront : ∀ inner found, front inner = some found → found.1 ∈ inner.cells) :
    Keeps m (· = s) (frontInner m s p front).1 := by
  have hd := detachShared_spec h hs
  unfold frontInner
  dsimp only
  split
  next cell answer hcell =>
    have hmem := hfront _ _ hcell
    have hmarked := hd.separate.setNode
      (n := { (detachShared m s p).1.node (detachShared m s p).2 with wasReferenced := true })
      hd.target hd.only (fun c hc => .inl hc) fun r c hr => by
        obtain ⟨q, hq, hc, -⟩ := hd.separate.lent r s c hr
        rw [Option.some_inj.mp (hd.target.symm.trans hq)]
        exact ⟨hc, rfl⟩
    refine ⟨hmarked.lend hd.target hd.only ?_ ?_, fun t ht => ?_⟩
    · rw [node_setNode]
      exact hmem
    · rw [node_setNode]
      rfl
    · exact (Separate.view_setNode hd.only ht).trans (hd.others t ht)
  next => exact keeps_refl h _

theorem call_spec (h : Separate layout m) (hs : m.target s = some p) (op : Operation K V) :
    Keeps m (· = s) (call m s p op).1 := by
  have hd := detachShared_spec h hs
  cases op with
  | push key value =>
      have hrevoked := hd.separate.revoke s
      have hgrows := Grows.alloc ((detachShared m s p).1.revoke s) value
      refine ⟨(hrevoked.grows hgrows).setNode hd.target hd.only (fun c hc => ?_)
        fun r c hr => absurd hr (Separate.noLoan_revoke _ s r c), fun t ht => ?_⟩
      · rcases cells_push hc with hc | rfl
        · exact .inl hc
        · exact .inr ⟨Nat.lt_succ_self _, fun q hq hcq =>
            (hd.separate.used q hq _ hcq).ne rfl⟩
      · have hview : held (((detachShared m s p).1.revoke s).alloc value) t = held m t :=
          (held_grows hrevoked hgrows t).trans (hd.others t ht)
        exact (Separate.view_setNode (m := ((detachShared m s p).1.revoke s).alloc value)
          hd.only ht).trans hview
  | pop =>
      rw [call]
      split_ifs
      · exact keeps_refl h _
      · exact popInner_spec h hs fun inner inner' => cells_pop
  | popKey key =>
      rw [call]
      split_ifs
      · exact keeps_refl h _
      · exact popInner_spec h hs fun inner inner' => cells_popKey
  | front =>
      rw [call]
      split_ifs
      · exact keeps_refl h _
      · refine frontInner_spec h hs fun inner found hfound => ?_
        obtain ⟨pair, hpair, rfl⟩ := Option.map_eq_some_iff.mp hfound
        exact front_mem_cells hpair
  | frontKey key =>
      rw [call]
      split_ifs
      · exact keeps_refl h _
      · refine frontInner_spec h hs fun inner found hfound => ?_
        obtain ⟨cell, hcell, rfl⟩ := Option.map_eq_some_iff.mp hfound
        exact frontKey_mem_cells hcell
  | size => exact keeps_refl h _
  | count key => exact keeps_refl h _
  | clear =>
      refine hd.modify ?_
      rw [cells_empty]
      exact Set.empty_subset _

end Calls

/-! ## Programs -/

/-- The stacks that a statement is about: those that it calls, constructs, assigns or
destroys, and the one that the reference it writes through was obtained from. -/
def Touches (m : Memory K V) : Statement K V → Nat → Prop
  | .create, t => t = m.handle.length
  | .copy _, t => t = m.handle.length
  | .move s, t => t = s ∨ t = m.handle.length
  | .assign s _, t => t = s
  | .destroy s, t => t = s
  | .call s _, t => t = s
  | .write r _, t => ∃ c, m.lent r = some (t, c)

/-- No other stack is assigned from one that has a reference outside. -/
def Allowed (m : Memory K V) : Statement K V → Prop
  | .assign target source => target < m.handle.length → target ≠ source → NoLoan m source
  | _ => True

/-- Whatever is done next changes the stacks that it is about, and no other. -/
def Isolated [LinearOrder K] (m : Memory K V) : Prop :=
  ∀ st t, ¬ Touches m st t → contents (execute m st).1 t = contents m t

section Programs

private theorem held_addHandle {o : Option Nat} {t : Nat} (ht : t ≠ m.handle.length) :
    held (m.addHandle o) t = held m t :=
  congrArg (Option.map _) (target_addHandle_of_ne ht)

theorem separate_start (value : Nat → V) : Separate layout (start value : Memory K V) := by
  have htarget (s : Nat) : (start value : Memory K V).target s = none := rfl
  have hlent (r : Nat) : (start value : Memory K V).lent r = none := rfl
  refine ⟨fun s p hs => ?_, fun p hp => ?_, fun p hp => ?_, fun r s c hr => ?_,
    fun r s c hr => ?_⟩
  · rw [htarget] at hs
    cases hs
  · exact absurd hp (Nat.not_lt_zero p)
  · exact absurd hp (Nat.not_lt_zero p)
  · rw [hlent] at hr
    cases hr
  · rw [hlent] at hr
    cases hr

private theorem keeps_addHandle (h : Separate layout m) {p : Nat} (hp : p < m.made)
    (hfree : ∀ t, m.target t = some p → NoLoan m t) :
    Keeps m (· = m.handle.length) (m.addHandle (some p)) := by
  refine ⟨h.addHandle fun q hq => ?_, fun t ht => held_addHandle ht⟩
  obtain rfl := Option.some_inj.mp hq
  exact ⟨hp, hfree⟩

private theorem keeps_make (h : Separate layout m) {m' : Memory K V} (hg : Grows m m')
    {inner : InnerStack K Nat} (hinner : ∀ c ∈ inner.cells, c < m'.used ∧
      ∀ q < m'.made, c ∉ (m'.node q).cells) :
    Keeps m (· = m.handle.length) ((m'.make inner).addHandle (some m'.made)) := by
  have hm' := h.grows hg
  have hmade := hm'.make (n := inner) hinner
  have hlength : (m'.make inner).handle.length = m.handle.length :=
    congrArg List.length hg.handle
  obtain ⟨hsep, hothers⟩ := keeps_addHandle hmade (p := m'.made) (Nat.lt_succ_self _)
    fun t ht => absurd rfl (hm'.made t _ ht).ne
  refine ⟨hsep, fun t ht => ?_⟩
  rw [hothers t (hlength.symm ▸ ht), held, Separate.view_make hm']
  exact held_grows h hg t

variable [LinearOrder K]

theorem execute_spec (h : Separate layout m) (st : Statement K V) (hst : Allowed m st) :
    Keeps m (Touches m st) (execute m st).1 := by
  cases st with
  | create =>
      refine keeps_make h (.refl m) fun c hc => ?_
      rw [cells_empty] at hc
      exact absurd hc (Set.notMem_empty c)
  | copy source =>
      rw [execute]
      split
      next => exact keeps_refl h _
      next p hp =>
        dsimp only
        split_ifs with hreferenced
        · exact keeps_make h (copyInner_spec m (m.node p)).1 (fresh_copy h (m.node p))
        · refine keeps_addHandle h (h.made source p hp) fun t ht => ?_
          exact h.noLoan_of_not_lends ht hreferenced
  | move source =>
      rw [execute]
      split
      next => exact keeps_refl h _
      next p hp =>
        refine ⟨h.pass hp, fun t ht => ?_⟩
        have hother : t ≠ source ∧ t ≠ m.handle.length := not_or.mp ht
        refine congrArg (Option.map _) ?_
        rw [target_pass_of_ne (lt_of_target hp) hother.2, if_neg hother.1]
  | assign target source =>
      rw [execute]
      split
      next => exact keeps_refl h _
      next p hp =>
        split_ifs with hlt
        · refine ⟨(h.revoke target).point (Separate.noLoan_revoke m target) fun q hq => ?_,
            fun t ht => congrArg (Option.map _) (target_point_of_ne ht)⟩
          obtain rfl := Option.some_inj.mp hq
          refine ⟨h.made source _ hp, fun t ht htp r c hr => ?_⟩
          obtain ⟨hr, -⟩ := lent_revoke_eq_some.mp hr
          have htp : m.target t = some _ := htp
          by_cases hsource : t = source
          · exact hst hlt (hsource ▸ ht.symm) r c (hsource ▸ hr)
          · exact h.alone r t c hr source (Ne.symm hsource) (hp.trans htp.symm)
        · exact keeps_refl h _
  | destroy s =>
      rw [execute]
      split
      next => exact keeps_refl h _
      next p hp =>
        refine ⟨(h.revoke s).point (Separate.noLoan_revoke m s) fun q hq => ?_,
          fun t ht => congrArg (Option.map _) (target_point_of_ne ht)⟩
        cases hq
  | call s op =>
      rw [execute]
      split
      next => exact keeps_refl h _
      next p hp => exact call_spec h hp op
  | write r value =>
      rw [execute]
      split
      next => exact keeps_refl h _
      next s cell hr =>
        refine ⟨h.store cell value, fun t ht => ?_⟩
        refine Separate.view_store held_congr h hr ?_
        rintro rfl
        exact ht ⟨cell, hr⟩

/-- An assignment that is not allowed lets a reference of one stack write to another. -/
private theorem not_isolated [Nontrivial V] (h : Separate layout m) {st : Statement K V}
    (hst : ¬ Allowed m st) : ¬ Isolated (execute m st).1 := by
  intro hisolated
  cases st with
  | assign target source =>
      simp only [Allowed, NoLoan, not_forall, not_not] at hst
      obtain ⟨hlt, hne, r, c, hr⟩ := hst
      obtain ⟨p, hp, hc, -⟩ := h.lent r source c hr
      obtain ⟨v, hv⟩ := exists_ne (m.value c)
      have hassigned : (execute m (.assign target source)).1 =
          (m.revoke target).point target (some p) := by
        rw [execute, hp]
        simp [hlt]
      rw [hassigned] at hisolated
      have hr' : ((m.revoke target).point target (some p)).lent r = some (source, c) :=
        lent_revoke_eq_some.mpr ⟨hr, Ne.symm hne⟩
      have htarget : ((m.revoke target).point target (some p)).target target = some p :=
        target_point_self hlt
      have hwritten := hisolated (.write r v) target (by
        rintro ⟨d, hd⟩
        rw [hr'] at hd
        exact hne (congrArg Prod.fst (Option.some_inj.mp hd)).symm)
      have hstored : (execute ((m.revoke target).point target (some p)) (.write r v)).1 =
          ((m.revoke target).point target (some p)).store c v := by
        rw [execute, hr']
      rw [hstored, contents, contents, held, held, view, view, htarget,
        show (Sharing.store ((m.revoke target).point target (some p)) c v).target target = some p
          from htarget] at hwritten
      have hvalue := value_eq_of_mapValue_eq (Option.some_inj.mp hwritten) hc
      change Function.update m.value c v c = m.value c at hvalue
      rw [Function.update_self] at hvalue
      exact hv hvalue
  | _ => exact hst trivial

private theorem isolated_of_separate (h : Separate layout m) : Isolated m := by
  intro st t ht
  by_cases hst : Allowed m st
  · exact congrArg (Option.map Prod.snd) ((execute_spec h st hst).2 t ht)
  · cases st with
    | assign target source =>
        rw [execute]
        split
        next => rfl
        next p hp =>
          split_ifs
          · have hheld : held ((m.revoke target).point target (some p)) t = held m t :=
              congrArg (Option.map _) (target_point_of_ne ht)
            exact congrArg (Option.map Prod.snd) hheld
          · rfl
    | _ => exact absurd trivial hst

/-- The stacks of a program are isolated all along if and only if it never assigns a stack
from another one that has a reference outside. -/
theorem isolated_iff_allowed [Nontrivial V] (value : Nat → V) (program : List (Statement K V)) :
    CallsMeet execute Allowed (start value) program ↔
      ∀ before, before <+: program → Isolated (calls execute (start value) before).1 := by
  have hstart : Separate layout (start value : Memory K V) := separate_start value
  refine callsMeet_iff_always_of_allowed (I := Separate layout)
    (fun m st h hst => (execute_spec h st hst).1) (fun m st h => ⟨fun hisolated => ?_, fun hst =>
      isolated_of_separate (execute_spec h st hst).1⟩) hstart (isolated_of_separate hstart) program
  by_contra hst
  exact not_isolated h hst hisolated

theorem isolated_iff_allowed_copy :
    CallsMeet execute Allowed (start fun _ => 0 : Memory Nat Nat)
        [.create, .call 0 (.push 1 10), .call 0 .front, .copy 0, .write 0 20] ↔
      ∀ before, before <+: [Statement.create, .call 0 (.push 1 10), .call 0 .front, .copy 0,
        .write 0 20] → Isolated (calls execute (start fun _ => 0 : Memory Nat Nat) before).1 :=
  isolated_iff_allowed _ _

end Programs

end Mimuw.Stacks
