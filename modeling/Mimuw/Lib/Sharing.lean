import Mathlib.Logic.Function.Basic
import Mathlib.Data.Option.Basic
import Mathlib.Data.Set.Basic
import Mathlib.Tactic.Common

/-!
# Nodes shared by handles

Handles point to nodes, several of them to one, and the fields of a node are kept in cells.
A cell that is lent to the user of a handle can be written without the handle.  As long as
each node with a lent cell has one handle, no handle shows what is done to another.
-/

namespace Mimuw.Lib

structure Sharing (ν V : Type*) where
  value : Nat → V
  /-- The cells below this one have been given out. -/
  used : Nat
  node : Nat → ν
  /-- The nodes below this one have been made. -/
  made : Nat
  handle : List (Option Nat)
  /-- The handle and the cell of each loan; a loan that may not be used any more is `none`. -/
  loan : List (Option (Nat × Nat))

namespace Sharing

section Operations

variable {ν V : Type*}

def target (m : Sharing ν V) (s : Nat) : Option Nat := m.handle[s]?.join

def lent (m : Sharing ν V) (r : Nat) : Option (Nat × Nat) := m.loan[r]?.join

def unique (m : Sharing ν V) (p : Nat) : Bool := m.handle.count (some p) = 1

def alloc (m : Sharing ν V) (v : V) : Sharing ν V :=
  { m with value := Function.update m.value m.used v, used := m.used + 1 }

def make (m : Sharing ν V) (n : ν) : Sharing ν V :=
  { m with node := Function.update m.node m.made n, made := m.made + 1 }

def setNode (m : Sharing ν V) (p : Nat) (n : ν) : Sharing ν V :=
  { m with node := Function.update m.node p n }

def store (m : Sharing ν V) (c : Nat) (v : V) : Sharing ν V :=
  { m with value := Function.update m.value c v }

def point (m : Sharing ν V) (s : Nat) (o : Option Nat) : Sharing ν V :=
  { m with handle := m.handle.set s o }

def addHandle (m : Sharing ν V) (o : Option Nat) : Sharing ν V :=
  { m with handle := m.handle ++ [o] }

def lend (m : Sharing ν V) (s c : Nat) : Sharing ν V :=
  { m with loan := m.loan ++ [some (s, c)] }

def revoke (m : Sharing ν V) (s : Nat) : Sharing ν V :=
  { m with loan := m.loan.map fun l => l.filter fun p => p.1 ≠ s }

/-- A new handle gets what the handle `s` has. -/
def pass (m : Sharing ν V) (s : Nat) : Sharing ν V :=
  { m with
    handle := m.handle.set s none ++ [m.target s]
    loan := m.loan.map fun l => l.map fun p => (if p.1 = s then m.handle.length else p.1, p.2) }

end Operations

section Targets

variable {ν V : Type*} {m : Sharing ν V} {s t p c r : Nat} {o : Option Nat}

theorem node_setNode {n : ν} : (m.setNode p n).node p = n := Function.update_self _ _ _

theorem lt_of_target (h : m.target s = some p) : s < m.handle.length := by
  by_contra hs
  simp [target, List.getElem?_eq_none (Nat.le_of_not_lt hs)] at h

theorem target_point_self (h : s < m.handle.length) : (m.point s o).target s = o := by
  simp [target, point, h]

theorem target_point_of_ne (h : t ≠ s) : (m.point s o).target t = m.target t := by
  simp [target, point, List.getElem?_set_ne (Ne.symm h)]

theorem target_addHandle_self : (m.addHandle o).target m.handle.length = o := by
  simp [target, addHandle]

theorem target_addHandle_of_ne (h : t ≠ m.handle.length) :
    (m.addHandle o).target t = m.target t := by
  unfold target addHandle
  rcases Nat.lt_or_gt_of_ne h with hlt | hlt
  · rw [List.getElem?_append_left hlt]
  · rw [List.getElem?_eq_none (by simp; omega), List.getElem?_eq_none hlt.le]

theorem target_pass_new (h : s < m.handle.length) :
    (m.pass s).target m.handle.length = m.target s := by
  simp [target, pass, h]

theorem target_pass_of_ne (hs : s < m.handle.length) (ht : t ≠ m.handle.length) :
    (m.pass s).target t = if t = s then none else m.target t := by
  have hpoint : (m.pass s).target t = ((m.point s none).addHandle (m.target s)).target t := rfl
  rw [hpoint, target_addHandle_of_ne (by simpa [point] using ht)]
  split_ifs with heq
  · rw [heq, target_point_self hs]
  · exact target_point_of_ne heq

theorem lent_lend_of_ne (h : r ≠ m.loan.length) : (m.lend s c).lent r = m.lent r := by
  unfold lent lend
  rcases Nat.lt_or_gt_of_ne h with hlt | hlt
  · rw [List.getElem?_append_left hlt]
  · rw [List.getElem?_eq_none (by simp; omega), List.getElem?_eq_none hlt.le]

theorem lent_lend_self : (m.lend s c).lent m.loan.length = some (s, c) := by
  simp [lent, lend]

theorem lent_revoke : (m.revoke s).lent r = (m.lent r).filter fun p => p.1 ≠ s := by
  unfold lent revoke
  rw [List.getElem?_map]
  cases m.loan[r]? <;> rfl

theorem lent_revoke_eq_some :
    (m.revoke s).lent r = some (t, c) ↔ m.lent r = some (t, c) ∧ t ≠ s := by
  simp [lent_revoke, Option.filter_eq_some_iff]

theorem lent_pass : (m.pass s).lent r =
    (m.lent r).map fun p => (if p.1 = s then m.handle.length else p.1, p.2) := by
  unfold lent pass
  rw [List.getElem?_map]
  cases m.loan[r]? <;> rfl

theorem unique_iff (hs : m.target s = some p) :
    m.unique p = true ↔ ∀ t, t ≠ s → m.target t ≠ some p := by
  obtain ⟨hlt, hget⟩ : ∃ h : s < m.handle.length, m.handle[s] = some p := by
    refine ⟨lt_of_target hs, ?_⟩
    simpa [target, List.getElem?_eq_getElem (lt_of_target hs)] using hs
  have hsplit : m.handle = m.handle.take s ++ some p :: m.handle.drop (s + 1) := by
    rw [← hget, List.getElem_cons_drop, List.take_append_drop]
  have htarget (t : Nat) (o : Option Nat) :
      m.handle[t]? = some o → m.target t = o := fun h => by rw [target, h]; rfl
  have hcount : m.handle.count (some p) =
      (m.handle.take s).count (some p) + ((m.handle.drop (s + 1)).count (some p) + 1) := by
    conv_lhs => rw [hsplit]
    rw [List.count_append, List.count_cons_self]
  have hothers : m.unique p = true ↔
      some p ∉ m.handle.take s ∧ some p ∉ m.handle.drop (s + 1) := by
    rw [unique, decide_eq_true_eq, hcount, ← List.count_eq_zero, ← List.count_eq_zero]
    omega
  rw [hothers]
  constructor
  · rintro ⟨hbefore, hafter⟩ t ht heq
    have hget : m.handle[t]? = some (some p) := by
      rcases h : m.handle[t]? with _ | o
      · simp [target, h] at heq
      · rw [target, h] at heq
        exact congrArg some heq
    rcases Nat.lt_or_gt_of_ne ht with hlt | hlt
    · refine hbefore (List.mem_iff_getElem?.mpr ⟨t, ?_⟩)
      rw [List.getElem?_take_of_lt hlt, hget]
    · refine hafter (List.mem_iff_getElem?.mpr ⟨t - (s + 1), ?_⟩)
      rw [List.getElem?_drop, Nat.add_sub_cancel' hlt, hget]
  · intro h
    constructor
    · intro hmem
      obtain ⟨t, ht⟩ := List.mem_iff_getElem?.mp hmem
      have hlt : t < s := by
        by_contra hle
        rw [List.getElem?_take_eq_none (Nat.le_of_not_lt hle)] at ht
        cases ht
      rw [List.getElem?_take_of_lt hlt] at ht
      exact h t (Nat.ne_of_lt hlt) (htarget t _ ht)
    · intro hmem
      obtain ⟨t, ht⟩ := List.mem_iff_getElem?.mp hmem
      rw [List.getElem?_drop] at ht
      exact h (s + 1 + t) (by omega) (htarget _ _ ht)

end Targets

/-! ## Nodes with separate cells -/

/-- The cells of a node, and whether it knows that a cell of it may be lent. -/
structure Layout (ν : Type*) where
  cells : ν → Set Nat
  lends : ν → Prop

structure Separate {ν V : Type*} (L : Layout ν) (m : Sharing ν V) : Prop where
  made : ∀ s p, m.target s = some p → p < m.made
  used : ∀ p < m.made, ∀ c ∈ L.cells (m.node p), c < m.used
  disjoint : ∀ p < m.made, ∀ q < m.made, ∀ c, c ∈ L.cells (m.node p) →
    c ∈ L.cells (m.node q) → p = q
  lent : ∀ r s c, m.lent r = some (s, c) →
    ∃ p, m.target s = some p ∧ c ∈ L.cells (m.node p) ∧ L.lends (m.node p)
  alone : ∀ r s c, m.lent r = some (s, c) → ∀ t, t ≠ s → m.target t ≠ m.target s

/-- Only new cells have been given out. -/
structure Grows {ν V : Type*} (m m' : Sharing ν V) : Prop where
  node : m'.node = m.node
  made : m'.made = m.made
  handle : m'.handle = m.handle
  loan : m'.loan = m.loan
  used : m.used ≤ m'.used
  value : ∀ c < m.used, m'.value c = m.value c

namespace Grows

variable {ν V : Type*} {m m' m'' : Sharing ν V}

theorem refl (m : Sharing ν V) : Grows m m := ⟨rfl, rfl, rfl, rfl, le_rfl, fun _ _ => rfl⟩

theorem alloc (m : Sharing ν V) (v : V) : Grows m (m.alloc v) :=
  ⟨rfl, rfl, rfl, rfl, Nat.le_succ _, fun _ hc => Function.update_of_ne hc.ne _ _⟩

theorem trans (h : Grows m m') (h' : Grows m' m'') : Grows m m'' :=
  ⟨h'.node.trans h.node, h'.made.trans h.made, h'.handle.trans h.handle, h'.loan.trans h.loan,
    h.used.trans h'.used, fun c hc => (h'.value c (hc.trans_le h.used)).trans (h.value c hc)⟩

theorem target (h : Grows m m') (s : Nat) : m'.target s = m.target s := by
  rw [Sharing.target, h.handle, Sharing.target]

theorem lent (h : Grows m m') (r : Nat) : m'.lent r = m.lent r := by
  rw [Sharing.lent, h.loan, Sharing.lent]

end Grows

/-- Nothing of the handle is lent. -/
def NoLoan {ν V : Type*} (m : Sharing ν V) (s : Nat) : Prop := ∀ r c, m.lent r ≠ some (s, c)

/-- What can be seen through a handle -/
def view {ν V W : Type*} (read : (Nat → V) → ν → W) (m : Sharing ν V) (s : Nat) : Option W :=
  (m.target s).map fun p => read m.value (m.node p)

namespace Separate

variable {ν V W : Type*} {L : Layout ν} {m : Sharing ν V} {s t p c r : Nat} {n : ν} {v : V}
  {read : (Nat → V) → ν → W}

theorem noLoan_of_not_unique (h : Separate L m) (hs : m.target s = some p)
    (hu : m.unique p = false) : NoLoan m s := by
  intro r c hr
  rw [Bool.eq_false_iff, ne_eq, unique_iff hs] at hu
  exact hu fun t ht heq => h.alone r s c hr t ht (heq.trans hs.symm)

theorem noLoan_of_not_lends (h : Separate L m) (hs : m.target s = some p)
    (hp : ¬ L.lends (m.node p)) : NoLoan m s := by
  intro r c hr
  obtain ⟨q, hq, -, hlends⟩ := h.lent r s c hr
  exact hp (Option.some_inj.mp (hs.symm.trans hq) ▸ hlends)

theorem grows (h : Separate L m) {m' : Sharing ν V} (hg : Grows m m') : Separate L m' where
  made s p hs := by
    rw [hg.made]
    exact h.made s p (hg.target s ▸ hs)
  used p hp c hc := by
    rw [hg.made] at hp
    rw [hg.node] at hc
    exact (h.used p hp c hc).trans_le hg.used
  disjoint := by
    rw [hg.made, hg.node]
    exact h.disjoint
  lent r s c hr := by
    rw [hg.target, hg.node]
    exact h.lent r s c (hg.lent r ▸ hr)
  alone r s c hr t ht := by
    rw [hg.target, hg.target]
    exact h.alone r s c (hg.lent r ▸ hr) t ht

private theorem node_make (hp : p < m.made) : (m.make n).node p = m.node p :=
  Function.update_of_ne hp.ne _ _

theorem make (h : Separate L m) (hn : ∀ c ∈ L.cells n, c < m.used ∧
    ∀ p < m.made, c ∉ L.cells (m.node p)) : Separate L (m.make n) := by
  have hnew : (m.make n).node m.made = n := Function.update_self _ _ _
  have hcases {p : Nat} (hp : p < (m.make n).made) : p < m.made ∨ p = m.made :=
    Nat.lt_succ_iff_lt_or_eq.mp hp
  refine ⟨fun s p hs => Nat.lt_succ_of_lt (h.made s p hs), fun p hp c hc => ?_,
    fun p hp q hq c hcp hcq => ?_, fun r s c hr => ?_, h.alone⟩
  · rcases hcases hp with hp | rfl
    · exact h.used p hp c (node_make hp ▸ hc)
    · exact (hn c (hnew ▸ hc)).1
  · rcases hcases hp with hp | rfl <;> rcases hcases hq with hq | rfl
    · exact h.disjoint p hp q hq c (node_make hp ▸ hcp) (node_make hq ▸ hcq)
    · exact absurd (node_make hp ▸ hcp) ((hn c (hnew ▸ hcq)).2 p hp)
    · exact absurd (node_make hq ▸ hcq) ((hn c (hnew ▸ hcp)).2 q hq)
    · rfl
  · obtain ⟨p, hs, hc, hlends⟩ := h.lent r s c hr
    refine ⟨p, hs, ?_⟩
    rw [node_make (h.made s p hs)]
    exact ⟨hc, hlends⟩

theorem revoke (h : Separate L m) (s : Nat) : Separate L (m.revoke s) where
  made := h.made
  used := h.used
  disjoint := h.disjoint
  lent r t c hr := h.lent r t c (lent_revoke_eq_some.mp hr).1
  alone r t c hr := h.alone r t c (lent_revoke_eq_some.mp hr).1

theorem noLoan_revoke (m : Sharing ν V) (s : Nat) : NoLoan (m.revoke s) s := fun _ _ hr =>
  (lent_revoke_eq_some.mp hr).2 rfl

/-- A handle that lends nothing may point to any node of which nothing is lent. -/
theorem point {o : Option Nat} (h : Separate L m) (hs : NoLoan m s)
    (ho : ∀ p, o = some p → p < m.made ∧ ∀ t, t ≠ s → m.target t = some p → NoLoan m t) :
    Separate L (m.point s o) := by
  have hself {p : Nat} (hp : (m.point s o).target s = some p) : o = some p := by
    have hlt := lt_of_target hp
    rwa [target_point_self (by simpa [Sharing.point] using hlt)] at hp
  refine ⟨fun t p ht => ?_, h.used, h.disjoint, fun r t c hr => ?_, fun r t c hr u hu heq => ?_⟩
  · by_cases hts : t = s
    · exact (ho p (hself (hts ▸ ht))).1
    · exact h.made t p (target_point_of_ne hts ▸ ht)
  · have hts : t ≠ s := fun hts => hs r c (hts ▸ hr)
    rw [target_point_of_ne hts]
    exact h.lent r t c hr
  · have hts : t ≠ s := fun hts => hs r c (hts ▸ hr)
    rw [target_point_of_ne hts] at heq
    obtain ⟨p, hp, -⟩ := h.lent r t c hr
    by_cases hus : u = s
    · rw [hus, hp] at heq
      exact (ho p (hself heq)).2 t hts hp r c hr
    · rw [target_point_of_ne hus] at heq
      exact h.alone r t c hr u hu heq

theorem addHandle {o : Option Nat} (h : Separate L m)
    (ho : ∀ p, o = some p → p < m.made ∧ ∀ t, m.target t = some p → NoLoan m t) :
    Separate L (m.addHandle o) := by
  have hold {r t c : Nat} (hr : m.lent r = some (t, c)) : t ≠ m.handle.length := by
    obtain ⟨p, hp, -⟩ := h.lent r t c hr
    exact (lt_of_target hp).ne
  refine ⟨fun t p ht => ?_, h.used, h.disjoint, fun r t c hr => ?_, fun r t c hr u hu heq => ?_⟩
  · by_cases hnew : t = m.handle.length
    · rw [hnew, target_addHandle_self] at ht
      exact (ho p ht).1
    · exact h.made t p (target_addHandle_of_ne hnew ▸ ht)
  · rw [target_addHandle_of_ne (hold hr)]
    exact h.lent r t c hr
  · rw [target_addHandle_of_ne (hold hr)] at heq
    obtain ⟨p, hp, -⟩ := h.lent r t c hr
    by_cases hnew : u = m.handle.length
    · rw [hnew, target_addHandle_self, hp] at heq
      exact (ho p heq).2 t hp r c hr
    · rw [target_addHandle_of_ne hnew] at heq
      exact h.alone r t c hr u hu heq

/-- The only handle of a node may change it, with new cells of its own. -/
theorem setNode (h : Separate L m) (hs : m.target s = some p)
    (honly : ∀ t, t ≠ s → m.target t ≠ some p)
    (hn : ∀ c ∈ L.cells n, c ∈ L.cells (m.node p) ∨
      c < m.used ∧ ∀ q < m.made, c ∉ L.cells (m.node q))
    (hlent : ∀ r c, m.lent r = some (s, c) → c ∈ L.cells n ∧ L.lends n) :
    Separate L (m.setNode p n) := by
  have hnew : (m.setNode p n).node p = n := node_setNode
  have hother {q : Nat} (hq : q ≠ p) : (m.setNode p n).node q = m.node q :=
    Function.update_of_ne hq _ _
  have hdiff {q c : Nat} (hq : q < m.made) (hqp : q ≠ p) (hc : c ∈ L.cells n) :
      c ∉ L.cells (m.node q) := by
    intro hcq
    rcases hn c hc with hold | ⟨-, hfresh⟩
    · exact hqp (h.disjoint q hq p (h.made s p hs) c hcq hold)
    · exact hfresh q hq hcq
  refine ⟨h.made, fun q hq c hc => ?_, fun q hq q' hq' c hc hc' => ?_, fun r t c hr => ?_,
    h.alone⟩
  · by_cases hqp : q = p
    · rw [hqp, hnew] at hc
      exact (hn c hc).elim (h.used p (h.made s p hs) c) And.left
    · exact h.used q hq c (hother hqp ▸ hc)
  · by_cases hqp : q = p <;> by_cases hqp' : q' = p
    · rw [hqp, hqp']
    · rw [hqp, hnew] at hc
      exact absurd (hother hqp' ▸ hc') (hdiff hq' hqp' hc)
    · rw [hqp', hnew] at hc'
      exact absurd (hother hqp ▸ hc) (hdiff hq hqp hc')
    · exact h.disjoint q hq q' hq' c (hother hqp ▸ hc) (hother hqp' ▸ hc')
  · obtain ⟨q, hq, hc, hlends⟩ := h.lent r t c hr
    by_cases hts : t = s
    · refine ⟨p, hts ▸ hs, ?_⟩
      rw [hnew]
      exact hlent r c (hts ▸ hr)
    · refine ⟨q, hq, ?_⟩
      rw [hother fun heq => honly t hts (heq ▸ hq)]
      exact ⟨hc, hlends⟩

/-- A cell of a node with one handle may be lent. -/
theorem lend (h : Separate L m) (hs : m.target s = some p)
    (honly : ∀ t, t ≠ s → m.target t ≠ some p) (hc : c ∈ L.cells (m.node p))
    (hlends : L.lends (m.node p)) : Separate L (m.lend s c) := by
  have hcases {r t d : Nat} (hr : (m.lend s c).lent r = some (t, d)) :
      m.lent r = some (t, d) ∨ t = s ∧ d = c := by
    by_cases hnew : r = m.loan.length
    · rw [hnew, lent_lend_self] at hr
      simp only [Option.some_inj, Prod.mk.injEq] at hr
      exact .inr ⟨hr.1.symm, hr.2.symm⟩
    · exact .inl (lent_lend_of_ne hnew ▸ hr)
  refine ⟨h.made, h.used, h.disjoint, fun r t d hr => ?_, fun r t d hr u hu heq => ?_⟩
  · rcases hcases hr with hr | ⟨rfl, rfl⟩
    · exact h.lent r t d hr
    · exact ⟨p, hs, hc, hlends⟩
  · rcases hcases hr with hr | ⟨rfl, rfl⟩
    · exact h.alone r t d hr u hu heq
    · exact honly u hu (Eq.trans heq hs)

theorem store (h : Separate L m) (c : Nat) (v : V) : Separate L (m.store c v) :=
  ⟨h.made, h.used, h.disjoint, h.lent, h.alone⟩

theorem pass (h : Separate L m) (hs : m.target s = some p) : Separate L (m.pass s) := by
  have hlt := lt_of_target hs
  have hlent {r t c : Nat} (hr : (m.pass s).lent r = some (t, c)) :
      ∃ t', m.lent r = some (t', c) ∧ (t' = s ∧ t = m.handle.length ∨
        t' ≠ s ∧ t = t' ∧ t ≠ m.handle.length) := by
    rw [lent_pass] at hr
    obtain ⟨⟨t', c'⟩, hr', heq⟩ := Option.map_eq_some_iff.mp hr
    obtain ⟨ht, rfl⟩ := Prod.mk.inj heq
    refine ⟨t', hr', ?_⟩
    by_cases hts : t' = s
    · exact .inl ⟨hts, by rw [← ht, if_pos hts]⟩
    · obtain ⟨q, hq, -⟩ := h.lent r t' c' hr'
      have htt : t = t' := by rw [← ht, if_neg hts]
      exact .inr ⟨hts, htt, htt ▸ (lt_of_target hq).ne⟩
  have htarget {t q : Nat} (ht : (m.pass s).target t = some q) : ∃ t', m.target t' = some q ∧
      (t' = s ∧ t = m.handle.length ∨ t' ≠ s ∧ t = t' ∧ t ≠ m.handle.length) := by
    by_cases hnew : t = m.handle.length
    · rw [hnew, target_pass_new hlt] at ht
      exact ⟨s, ht, .inl ⟨rfl, hnew⟩⟩
    · rw [target_pass_of_ne hlt hnew] at ht
      split_ifs at ht with hts
      exact ⟨t, ht, .inr ⟨hts, rfl, hnew⟩⟩
  refine ⟨fun t q ht => ?_, h.used, h.disjoint, fun r t c hr => ?_, fun r t c hr u hu heq => ?_⟩
  · obtain ⟨t', ht', -⟩ := htarget ht
    exact h.made t' q ht'
  · obtain ⟨t', hr', ⟨rfl, rfl⟩ | ⟨hne, rfl, hnew⟩⟩ := hlent hr
    · obtain ⟨q, hq, hc⟩ := h.lent r _ c hr'
      exact ⟨q, by rw [target_pass_new hlt, hq], hc⟩
    · obtain ⟨q, hq, hc⟩ := h.lent r _ c hr'
      exact ⟨q, by rw [target_pass_of_ne hlt hnew, if_neg hne, hq], hc⟩
  · obtain ⟨t', hr', hcase⟩ := hlent hr
    obtain ⟨q, hq, -⟩ := h.lent r t' c hr'
    have ht : (m.pass s).target t = some q := by
      rcases hcase with ⟨rfl, rfl⟩ | ⟨hne, rfl, hnew⟩
      · rw [target_pass_new hlt, hq]
      · rw [target_pass_of_ne hlt hnew, if_neg hne, hq]
    rw [ht] at heq
    obtain ⟨u', hu', hcase'⟩ := htarget heq
    refine h.alone r t' c hr' u' ?_ (hu'.trans hq.symm)
    rintro rfl
    rcases hcase with ⟨rfl, rfl⟩ | ⟨hne, rfl, hnew⟩ <;>
      rcases hcase' with ⟨hs', rfl⟩ | ⟨hs', rfl, -⟩
    · exact hu rfl
    · exact hs' rfl
    · exact hne hs'
    · exact hu rfl

/-! ### What the other handles show -/

section Views

variable (hread : ∀ value value' n, (∀ c ∈ L.cells n, value c = value' c) →
  read value n = read value' n)

include hread

theorem view_grows (h : Separate L m) {m' : Sharing ν V} (hg : Grows m m') (t : Nat) :
    view read m' t = view read m t := by
  unfold view
  rw [hg.target]
  cases ht : m.target t with
  | none => rfl
  | some q =>
      refine congrArg some ?_
      rw [hg.node]
      exact hread _ _ _ fun c hc => hg.value c (h.used q (h.made t q ht) c hc)

omit hread in
theorem view_make (h : Separate L m) (n : ν) (t : Nat) :
    view read (m.make n) t = view read m t := by
  unfold view
  cases ht : m.target t with
  | none => rw [show (m.make n).target t = none from ht]; rfl
  | some q =>
      rw [show (m.make n).target t = some q from ht]
      refine congrArg some ?_
      change read m.value ((m.make n).node q) = _
      rw [node_make (h.made t q ht)]

omit hread in
theorem view_setNode (honly : ∀ t, t ≠ s → m.target t ≠ some p) (ht : t ≠ s) :
    view read (m.setNode p n) t = view read m t := by
  unfold view
  cases htarget : m.target t with
  | none => rw [show (m.setNode p n).target t = none from htarget]; rfl
  | some q =>
      rw [show (m.setNode p n).target t = some q from htarget]
      refine congrArg some ?_
      have hq : q ≠ p := fun heq => honly t ht (heq ▸ htarget)
      change read m.value (Function.update m.node p n q) = _
      rw [Function.update_of_ne hq]

/-- What is written through a loan is not seen through other handles. -/
theorem view_store (h : Separate L m) (hr : m.lent r = some (s, c)) (ht : t ≠ s) :
    view read (m.store c v) t = view read m t := by
  obtain ⟨p, hp, hc, -⟩ := h.lent r s c hr
  unfold view
  cases htarget : m.target t with
  | none => rw [show (m.store c v).target t = none from htarget]; rfl
  | some q =>
      rw [show (m.store c v).target t = some q from htarget]
      refine congrArg some (hread _ _ _ fun d hd => Function.update_of_ne ?_ _ _)
      rintro rfl
      have hqp := h.disjoint q (h.made t q htarget) p (h.made s p hp) d hd hc
      exact h.alone r s d hr t ht (by rw [htarget, hp, hqp])

end Views

end Separate

end Sharing

end Mimuw.Lib
