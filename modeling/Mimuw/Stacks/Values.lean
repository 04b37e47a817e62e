import Mathlib
import Mimuw.Stacks.Isolation

/-!
# Stacks as values

What a program sees of its stacks is what it would see if each of them were a list of
pairs of its own: the inner stacks that several of them point to do not show.
-/

namespace Mimuw.Stacks

open Mimuw.Lib Mimuw.Lib.Sharing

variable {K V : Type*}

/-! ## Programs over lists -/

/-- The stacks as lists of pairs, top first, and the stack and the position, counted from the
bottom, of each reference. -/
structure Values (K V : Type*) where
  lists : List (Option (List (K × V)))
  references : List (Option (Nat × Nat))

namespace Values

def stack (a : Values K V) (s : Nat) : Option (List (K × V)) := a.lists[s]?.join

def reference (a : Values K V) (r : Nat) : Option (Nat × Nat) := a.references[r]?.join

def set (a : Values K V) (s : Nat) (o : Option (List (K × V))) : Values K V :=
  { a with lists := a.lists.set s o }

def add (a : Values K V) (o : Option (List (K × V))) : Values K V :=
  { a with lists := a.lists ++ [o] }

def refer (a : Values K V) (s i : Nat) : Values K V :=
  { a with references := a.references ++ [some (s, i)] }

def revoke (a : Values K V) (s : Nat) : Values K V :=
  { a with references := a.references.map fun l => l.filter fun p => p.1 ≠ s }

/-- The new stack takes over the references. -/
def pass (a : Values K V) (s : Nat) : Values K V where
  lists := a.lists.set s none ++ [a.stack s]
  references :=
    a.references.map fun l => l.map fun p => (if p.1 = s then a.lists.length else p.1, p.2)

/-- The references after a call on the stack `s` with the list `l`. -/
def referAfter [DecidableEq K] (a : Values K V) (s : Nat) (l : List (K × V)) :
    Operation K V → Values K V
  | .push _ _ => a.revoke s
  | .pop => if l = [] then a else a.revoke s
  | .popKey key => if (l.find? (·.1 == key)).isSome then a.revoke s else a
  | .front => if l = [] then a else a.refer s (l.length - 1)
  | .frontKey key =>
      if (l.find? (·.1 == key)).isSome then
        a.refer s (l.length - 1 - l.findIdx (·.1 == key))
      else a
  | .size => a
  | .count _ => a
  | .clear => a.revoke s

def write (l : List (K × V)) (i : Nat) (v : V) : List (K × V) :=
  (l.reverse.modify i fun p => (p.1, v)).reverse

def execute [DecidableEq K] (a : Values K V) : Statement K V → Values K V × Answer K V
  | .create => (a.add (some []), .unit)
  | .copy source =>
      match a.stack source with
      | none => (a, .undefinedBehaviour)
      | some l => (a.add (some l), .unit)
  | .move source =>
      match a.stack source with
      | none => (a, .undefinedBehaviour)
      | some _ => (a.pass source, .unit)
  | .assign target source =>
      match a.stack source with
      | none => (a, .undefinedBehaviour)
      | some l =>
          if target < a.lists.length then ((a.revoke target).set target (some l), .unit)
          else (a, .undefinedBehaviour)
  | .destroy s =>
      match a.stack s with
      | none => (a, .undefinedBehaviour)
      | some _ => ((a.revoke s).set s none, .unit)
  | .call s operation =>
      match a.stack s with
      | none => (a, .undefinedBehaviour)
      | some l =>
          ((a.referAfter s l operation).set s (some (listStep l operation).1),
            (listStep l operation).2)
  | .write r value =>
      match a.reference r with
      | none => (a, .undefinedBehaviour)
      | some (s, i) => (a.set s ((a.stack s).map fun l => write l i value), .unit)

end Values

/-! ## Inner stacks and lists of cells -/

/-- The list of an inner stack, with a cell for each value. -/
structure Cells [LinearOrder K] (inner : InnerStack K Nat) (l : List (K × Nat)) : Prop where
  represents : Represents inner l
  nodup : (l.map Prod.snd).Nodup

def load (value : Nat → V) (l : List (K × Nat)) : List (K × V) :=
  l.map fun p => (p.1, value p.2)

section Lists

variable [LinearOrder K] {inner inner' : InnerStack K Nat} {l : List (K × Nat)} {key : K}
  {c : Nat} {p : K × Nat}

private theorem Represents.elementSet_push
    (habove : ∀ e ∈ inner.elementSet, e.height < inner.height) :
    (inner.push key c).elementSet = ⟨key, c, inner.height⟩ :: inner.elementSet := by
  unfold InnerStack.push
  rw [keyComparator_find]
  apply setInsert_of_forall_lt
  · intro e he
    simpa [elementHeightComparator] using habove e he
  · intro e he
    simpa [elementHeightComparator] using (habove e he).le

theorem Cells.cells (h : Cells inner l) (hp : p ∈ l) : p.2 ∈ inner.cells := by
  rw [← h.represents.pairs] at hp
  obtain ⟨e, he, rfl⟩ := List.mem_map.mp hp
  exact .inl ⟨e, he, rfl⟩

theorem Cells.push (h : Cells inner l)
    (habove : ∀ e ∈ inner.elementSet, e.height < inner.height) (hc : c ∉ inner.cells) :
    Cells (inner.push key c) ((key, c) :: l) := by
  refine ⟨h.represents.push habove, ?_⟩
  rw [List.map_cons, List.nodup_cons]
  refine ⟨fun hmem => ?_, h.nodup⟩
  obtain ⟨p, hp, rfl⟩ := List.mem_map.mp hmem
  exact hc (h.cells hp)

theorem Cells.sublist {l' : List (K × Nat)} (h : Cells inner l) (hl : l'.Sublist l)
    (h' : Represents inner' l') : Cells inner' l' :=
  ⟨h', h.nodup.sublist (hl.map _)⟩

theorem Represents.front (h : Represents inner l) : inner.front = l.head? := by
  rw [InnerStack.front, ← h.pairs, List.head?_map]
  rfl

theorem Represents.frontKey (h : Represents inner l) :
    inner.frontKey key = (l.find? fun p => p.1 == key).map Prod.snd := by
  rw [h.find? key, InnerStack.frontKey, Option.map_map]
  rfl

end Lists

section Copies

variable [LinearOrder K] {m : Memory K V}

/-- The state of the copy constructor, when it has copied the list `l`. -/
structure Copied (m : Memory K V) (mc : Memory K V × InnerStack K Nat) (l : List (K × V)) :
    Prop where
  grows : Grows m mc.1
  cells : ∃ cs, Cells mc.2 cs ∧ load mc.1.value cs = l
  above : ∀ e ∈ mc.2.elementSet, e.height < mc.2.height
  used : ∀ c ∈ mc.2.cells, c < mc.1.used

theorem Copied.push {mc : Memory K V × InnerStack K Nat} {l : List (K × V)}
    (h : Copied m mc l) {e : Element K Nat} (he : e.value < m.used) :
    Copied m (mc.1.alloc (mc.1.value e.value), mc.2.push e.key mc.1.used)
      ((e.key, m.value e.value) :: l) := by
  obtain ⟨cs, hcs, hload⟩ := h.cells
  have hfresh : mc.1.used ∉ mc.2.cells := fun hmem => (h.used _ hmem).ne rfl
  refine ⟨h.grows.trans (.alloc _ _), ⟨_, hcs.push h.above hfresh, ?_⟩, fun e' he' => ?_,
    fun c hc => ?_⟩
  · have hold : load (mc.1.alloc (mc.1.value e.value)).value cs = load mc.1.value cs := by
      refine List.map_congr_left fun p hp => congrArg (Prod.mk p.1) ?_
      exact (Grows.alloc mc.1 _).value _ (h.used _ (hcs.cells hp))
    have hnew : (mc.1.alloc (mc.1.value e.value)).value mc.1.used = m.value e.value :=
      (Function.update_self _ _ _).trans (h.grows.value _ he)
    rw [load, List.map_cons, ← load, hold, hload, hnew]
  · rw [Represents.elementSet_push h.above] at he'
    rcases List.mem_cons.mp he' with rfl | he'
    · exact Nat.lt_succ_self _
    · exact Nat.lt_succ_of_lt (h.above e' he')
  · rcases cells_push hc with hc | rfl
    · exact Nat.lt_succ_of_lt (h.used c hc)
    · exact Nat.lt_succ_self _

private theorem copied_fold (es : List (Element K Nat)) {mc : Memory K V × InnerStack K Nat}
    {l : List (K × V)} (h : Copied m mc l) (hes : ∀ e ∈ es, e.value < m.used) :
    Copied m (es.foldl (fun (mc : Memory K V × InnerStack K Nat) e =>
        (mc.1.alloc (mc.1.value e.value), mc.2.push e.key mc.1.used)) mc)
      ((es.map fun e => (e.key, m.value e.value)).reverse ++ l) := by
  induction es generalizing mc l with
  | nil => exact h
  | cons e es ih =>
      have hrest := ih (h.push (hes e List.mem_cons_self))
        fun e' he' => hes e' (List.mem_cons_of_mem e he')
      simpa using hrest

/-- The copy of an inner stack has the same list, with cells of its own. -/
private theorem copyInner_cells {inner : InnerStack K Nat} {l : List (K × Nat)} (h : Cells inner l)
    (hused : ∀ c ∈ inner.cells, c < m.used) : ∃ cs, Cells (copyInner m inner).2 cs ∧
      load (copyInner m inner).1.value cs = load m.value l ∧
      ∀ e ∈ (copyInner m inner).2.elementSet, e.height < (copyInner m inner).2.height := by
  have hempty : Copied m (m, .empty) [] := by
    refine ⟨.refl m, ⟨[], ⟨represents_empty, List.nodup_nil⟩, rfl⟩, fun e he => ?_, fun c hc => ?_⟩
    · cases he
    · rw [cells_empty] at hc
      exact absurd hc (Set.notMem_empty c)
  have hcopied := copied_fold inner.elementSet.reverse hempty fun e he =>
    hused _ (.inl ⟨e, List.mem_reverse.mp he, rfl⟩)
  obtain ⟨cs, hcs, hload⟩ := hcopied.cells
  refine ⟨cs, ⟨⟨hcs.represents.pairs, hcs.represents.sorted, hcs.represents.map,
    hcs.represents.height⟩, hcs.nodup⟩, hload.trans ?_, hcopied.above⟩
  rw [← h.represents.pairs, load, List.map_map, List.map_reverse, List.reverse_reverse,
    List.append_nil]
  rfl

end Copies

/-! ## The lists of a memory -/

section Meaning

variable [LinearOrder K]

inductive StackMeans : Option (InnerStack K Nat × InnerStack K V) → Option (List (K × V)) → Prop
  | none : StackMeans none none
  | some (inner : InnerStack K Nat) (inner' : InnerStack K V) (cs : List (K × Nat)) :
      Cells inner cs → StackMeans (some (inner, inner')) (some (inner'.elementSet.map Element.pair))

/-- The reference stands at its position in the list of its stack. -/
def ReferenceMeans (m : Memory K V) (a : Values K V) (r : Nat) : Prop :=
  m.lent r = none ∧ a.reference r = none ∨
    ∃ s c i inner cs, m.lent r = some (s, c) ∧ a.reference r = some (s, i) ∧
      held m s = some inner ∧ Cells inner.1 cs ∧ (cs.map Prod.snd).reverse[i]? = some c

structure Means (m : Memory K V) (a : Values K V) : Prop where
  separate : Separate layout m
  lists : a.lists.length = m.handle.length
  loans : a.references.length = m.loan.length
  stack : ∀ s, StackMeans (held m s) (a.stack s)
  reference : ∀ r, ReferenceMeans m a r

variable {m m' : Memory K V} {a a' : Values K V} {s p r : Nat} {cs : List (K × Nat)}
  {o : Option (List (K × V))} {inner : InnerStack K Nat}

omit [LinearOrder K] in
private theorem held_eq (hs : m.target s = some p) :
    held m s = some (m.node p, (m.node p).mapValue m.value) := by
  rw [held, view, hs]
  rfl

private theorem Cells.load_eq (h : Cells inner cs) (value : Nat → V) :
    (inner.mapValue value).elementSet.map Element.pair = load value cs := by
  rw [← h.represents.pairs, load, List.map_map]
  change (inner.elementSet.map _).map _ = _
  rw [List.map_map]
  rfl

private theorem stackMeans_of_cells (hs : m.target s = some p) (h : Cells (m.node p) cs) :
    StackMeans (held m s) (some (load m.value cs)) := by
  rw [held_eq hs, ← h.load_eq m.value]
  exact .some _ _ cs h

theorem Means.cells (h : Means m a) (hs : m.target s = some p) :
    ∃ cs, Cells (m.node p) cs ∧ a.stack s = some (load m.value cs) := by
  have hstack := h.stack s
  rw [held_eq hs] at hstack
  cases hl : a.stack s with
  | none =>
      rw [hl] at hstack
      cases hstack
  | some l =>
      rw [hl] at hstack
      cases hstack with
      | some _ _ cs hcs => exact ⟨cs, hcs, by rw [hcs.load_eq]⟩

private theorem Means.stack_none (h : Means m a) (hs : m.target s = none) : a.stack s = none := by
  have hstack := h.stack s
  rw [show held m s = none by rw [held, view, hs]; rfl] at hstack
  cases hl : a.stack s with
  | none => rfl
  | some l =>
      rw [hl] at hstack
      cases hstack

omit [LinearOrder K] in
private theorem Values.stack_set (hs : s < a.lists.length) (t : Nat) :
    (a.set s o).stack t = if t = s then o else a.stack t := by
  unfold Values.stack Values.set
  split_ifs with hts
  · rw [hts, List.getElem?_set_self hs]
    rfl
  · rw [List.getElem?_set_ne (Ne.symm hts)]

omit [LinearOrder K] in
private theorem Values.set_stack {l : List (K × V)} (h : a.stack s = some l) :
    a.set s (some l) = a := by
  unfold Values.set
  have hget : a.lists[s]? = some (some l) := by
    rcases hs : a.lists[s]? with _ | o
    · simp [Values.stack, hs] at h
    · rw [Values.stack, hs] at h
      exact congrArg some h
  obtain ⟨hlt, hget⟩ := List.getElem?_eq_some_iff.mp hget
  rw [← hget, List.set_getElem_self hlt]

omit [LinearOrder K] in
private theorem Values.stack_add (t : Nat) :
    (a.add o).stack t = if t = a.lists.length then o else a.stack t := by
  unfold Values.stack Values.add
  split_ifs with ht
  · rw [ht]
    simp
  · rcases Nat.lt_or_gt_of_ne ht with hlt | hlt
    · rw [List.getElem?_append_left hlt]
    · rw [List.getElem?_eq_none (by simp; omega), List.getElem?_eq_none hlt.le]

omit [LinearOrder K] in
private theorem Values.reference_revoke :
    (a.revoke s).reference r = (a.reference r).filter fun p => p.1 ≠ s := by
  unfold Values.reference Values.revoke
  rw [List.getElem?_map]
  cases a.references[r]? <;> rfl

private theorem ReferenceMeans.transfer (h : ReferenceMeans m a r) (hlent : m'.lent r = m.lent r)
    (href : a'.reference r = a.reference r)
    (hheld : ∀ s c inner, m.lent r = some (s, c) → held m s = some inner →
      ∃ inner', held m' s = some inner' ∧ ∀ cs, Cells inner.1 cs → Cells inner'.1 cs) :
    ReferenceMeans m' a' r := by
  rcases h with ⟨hm, ha⟩ | ⟨s, c, i, inner, cs, hm, ha, hs, hcs, hi⟩
  · exact .inl ⟨hlent.trans hm, href.trans ha⟩
  · obtain ⟨inner', hs', hcs'⟩ := hheld s c inner hm hs
    exact .inr ⟨s, c, i, inner', cs, hlent.trans hm, href.trans ha, hs', hcs' cs hcs, hi⟩

theorem ReferenceMeans.revoke (h : ReferenceMeans m a r)
    (hothers : ∀ t, t ≠ s → held m' t = held m t) (hloan : m'.loan = (m.revoke s).loan)
    (href : a'.references = (a.revoke s).references) : ReferenceMeans m' a' r := by
  have hlent' : m'.lent r = (m.lent r).filter fun p => p.1 ≠ s := by
    rw [← lent_revoke, lent, hloan, lent]
  have href' : a'.reference r = (a.reference r).filter fun p => p.1 ≠ s := by
    rw [← Values.reference_revoke, Values.reference, href, Values.reference]
  rcases h with ⟨hm, ha⟩ | ⟨t, c, i, inner, cs, hm, ha, ht, hcs, hi⟩
  · exact .inl ⟨by rw [hlent', hm]; rfl, by rw [href', ha]; rfl⟩
  · by_cases hts : t = s
    · refine .inl ⟨?_, ?_⟩
      · rw [hlent', hm, hts]
        simp
      · rw [href', ha, hts]
        simp
    · refine .inr ⟨t, c, i, inner, cs, ?_, ?_, (hothers t hts).trans ht, hcs, hi⟩
      · rw [hlent', hm]
        simp [hts]
      · rw [href', ha]
        simp [hts]

theorem Means.update (h : Means m a) (hkeeps : Keeps m (· = s) m')
    (hlength : m'.handle.length = m.handle.length) (hs : s < m.handle.length)
    (ho : StackMeans (held m' s) o) (hlists : a'.lists = a.lists.set s o)
    (hloans : a'.references.length = m'.loan.length) (href : ∀ r, ReferenceMeans m' a' r) :
    Means m' a' := by
  refine ⟨hkeeps.1, ?_, hloans, fun t => ?_, href⟩
  · rw [hlists, List.length_set, hlength, h.lists]
  · have hstack : a'.stack t = (a.set s o).stack t := by
      rw [Values.stack, hlists, Values.stack, Values.set]
    rw [hstack, Values.stack_set (h.lists ▸ hs)]
    split_ifs with hts
    · exact hts ▸ ho
    · rw [hkeeps.2 t hts]
      exact h.stack t

/-- One stack gets another list and takes its references back. -/
theorem Means.modify (h : Means m a) (hkeeps : Keeps m (· = s) m')
    (hlength : m'.handle.length = m.handle.length) (hs : s < m.handle.length)
    (hloan : m'.loan = (m.revoke s).loan) (ho : StackMeans (held m' s) o) :
    Means m' ((a.revoke s).set s o) := by
  refine h.update hkeeps hlength hs ho rfl ?_ fun r => (h.reference r).revoke hkeeps.2 hloan rfl
  rw [hloan]
  change (a.references.map _).length = (m.loan.map _).length
  rw [List.length_map, List.length_map, h.loans]

theorem Means.add (h : Means m a) (hkeeps : Keeps m (· = m.handle.length) m')
    (hlength : m'.handle.length = m.handle.length + 1) (hloan : m'.loan = m.loan)
    (ho : StackMeans (held m' m.handle.length) o) : Means m' (a.add o) := by
  refine ⟨hkeeps.1, ?_, ?_, fun t => ?_, fun r => ?_⟩
  · change (a.lists ++ [o]).length = _
    rw [List.length_append, List.length_singleton, hlength, h.lists]
  · rw [hloan, ← h.loans]
    rfl
  · rw [Values.stack_add]
    split_ifs with ht
    · rw [ht, h.lists]
      exact ho
    · rw [hkeeps.2 t (h.lists ▸ ht)]
      exact h.stack t
  · have hlent : m'.lent r = m.lent r := by rw [lent, hloan, lent]
    refine (h.reference r).transfer hlent rfl fun s c inner hm hs => ⟨inner, ?_, fun _ => id⟩
    obtain ⟨p, hp, -⟩ := h.separate.lent r s c hm
    exact (hkeeps.2 s (lt_of_target hp).ne).trans hs

end Meaning

/-! ## Calls -/

section Calls

variable [LinearOrder K] {m : Memory K V} {a : Values K V} {s p : Nat} {cs : List (K × Nat)}

/-- What a call works on: an inner stack with the list of the stack.  Unless it is the old one,
nothing of the stack is lent. -/
structure Ready (m : Memory K V) (s p : Nat) (l : List (K × V)) (m' : Memory K V) (p' : Nat) :
    Prop where
  detached : Detached m s m' p'
  cells : ∃ cs, Cells (m'.node p') cs ∧ load m'.value cs = l
  loan : m'.loan = m.loan
  length : m'.handle.length = m.handle.length
  same : m.unique p = true ∧ m' = m ∧ p' = p ∨
    m.unique p = false ∧ NoLoan m s ∧ ∀ e ∈ (m'.node p').elementSet, e.height < (m'.node p').height

private theorem detachShared_ready (h : Separate layout m) (hs : m.target s = some p)
    (hcs : Cells (m.node p) cs) :
    Ready m s p (load m.value cs) (detachShared m s p).1 (detachShared m s p).2 := by
  have hdetached := detachShared_spec h hs
  unfold detachShared at hdetached ⊢
  by_cases hu : m.unique p = true
  · rw [if_pos hu] at hdetached ⊢
    exact ⟨hdetached, ⟨cs, hcs, rfl⟩, rfl, rfl, .inl ⟨hu, rfl, rfl⟩⟩
  · rw [if_neg hu] at hdetached ⊢
    have hu : m.unique p = false := Bool.eq_false_iff.mpr hu
    obtain ⟨hgrows, -⟩ := copyInner_spec m (m.node p)
    obtain ⟨cs', hcs', hload, habove⟩ := copyInner_cells hcs (h.used p (h.made s p hs))
    have hnode : (detach m s p).1.node (detach m s p).2 = (copyInner m (m.node p)).2 :=
      Function.update_self _ _ _
    refine ⟨hdetached, ⟨cs', ?_, hload⟩, hgrows.loan, ?_,
      .inr ⟨hu, h.noLoan_of_not_unique hs hu, ?_⟩⟩
    · rw [hnode]
      exact hcs'
    · change (List.set _ _ _).length = _
      rw [List.length_set, ← hgrows.handle]
      rfl
    · rw [hnode]
      exact habove

omit [LinearOrder K] in
private theorem length_load (value : Nat → V) : (load value cs).length = cs.length :=
  List.length_map _

private theorem find?_load (value : Nat → V) (key : K) : (load value cs).find? (·.1 == key) =
    (cs.find? (·.1 == key)).map fun p => (p.1, value p.2) := by
  rw [load, List.find?_map]
  rfl

theorem Means.modified (h : Means m a) (hs : s < m.handle.length) {m₁ n : Memory K V} {p' : Nat}
    {l : List (K × V)} (hr : Ready m s p l m₁ p') (hkeeps : Keeps m (· = s) n)
    (htarget : n.target s = some p') (hcs : Cells (n.node p') cs)
    (hhandle : n.handle = m₁.handle) (hloan : n.loan = (m₁.revoke s).loan) :
    Means n ((a.revoke s).set s (some (load n.value cs))) := by
  refine h.modify hkeeps (by rw [hhandle, hr.length]) hs ?_ (stackMeans_of_cells htarget hcs)
  rw [hloan]
  exact congrArg (List.map _) hr.loan

private theorem means_popInner (h : Means m a) (hs : m.target s = some p)
    (hcs : Cells (m.node p) cs)
    {pop : InnerStack K Nat → Option (InnerStack K Nat)} {l : List (K × V)}
    (hkeeps : Keeps m (· = s) (popInner m s p pop).1)
    (hpop : ∀ inner cs' value, Cells inner cs' → load value cs' = load m.value cs →
      ∃ inner' rest', pop inner = some inner' ∧ Cells inner' rest' ∧ load value rest' = l) :
    Means (popInner m s p pop).1 ((a.revoke s).set s (some l)) ∧
      (popInner m s p pop).2 = .unit := by
  have hready := detachShared_ready h.separate hs hcs
  obtain ⟨cs', hcs', hload⟩ := hready.cells
  obtain ⟨inner', rest', hinner', hrest', rfl⟩ := hpop _ cs' _ hcs' hload
  have heq : popInner m s p pop = (((detachShared m s p).1.revoke s).setNode
      (detachShared m s p).2 inner', .unit) := by
    unfold popInner
    dsimp only
    rw [hinner']
  rw [heq] at hkeeps ⊢
  refine ⟨h.modified (lt_of_target hs) hready hkeeps hready.detached.target ?_ rfl rfl, rfl⟩
  rw [node_setNode]
  exact hrest'

private theorem means_frontInner (h : Means m a) (hs : m.target s = some p)
    (hcs : Cells (m.node p) cs)
    {front : InnerStack K Nat → Option (Nat × (V → Answer K V))} {i : Nat} {o : Answer K V}
    (hkeeps : Keeps m (· = s) (frontInner m s p front).1)
    (hfront : ∀ inner cs' value, Cells inner cs' → load value cs' = load m.value cs →
      ∃ c answer, front inner = some (c, answer) ∧ (cs'.map Prod.snd).reverse[i]? = some c ∧
        answer (value c) = o) :
    Means (frontInner m s p front).1 ((a.refer s i).set s (some (load m.value cs))) ∧
      (frontInner m s p front).2 = o := by
  have hready := detachShared_ready h.separate hs hcs
  obtain ⟨cs', hcs', hload⟩ := hready.cells
  obtain ⟨c, answer, hc, hi, rfl⟩ := hfront _ cs' _ hcs' hload
  have heq : frontInner m s p front = (((detachShared m s p).1.setNode (detachShared m s p).2
      { (detachShared m s p).1.node (detachShared m s p).2 with wasReferenced := true }).lend s c,
      answer ((detachShared m s p).1.value c)) := by
    unfold frontInner
    dsimp only
    rw [hc]
  rw [heq] at hkeeps ⊢
  refine ⟨?_, rfl⟩
  have hflagged : Cells { (detachShared m s p).1.node (detachShared m s p).2 with
      wasReferenced := true } cs' :=
    ⟨⟨hcs'.represents.pairs, hcs'.represents.sorted, hcs'.represents.map,
      hcs'.represents.height⟩, hcs'.nodup⟩
  have hheld := held_eq (m := ((detachShared m s p).1.setNode (detachShared m s p).2
    { (detachShared m s p).1.node (detachShared m s p).2 with wasReferenced := true }).lend s c)
    hready.detached.target
  have hnode {inner : InnerStack K Nat} : (((detachShared m s p).1.setNode (detachShared m s p).2
      inner).lend s c).node (detachShared m s p).2 = inner := node_setNode
  rw [hnode] at hheld
  have hloan : (detachShared m s p).1.loan.length = m.loan.length := by rw [hready.loan]
  refine h.update hkeeps hready.length (lt_of_target hs) ?_ rfl ?_ fun r => ?_
  · rw [hheld, ← hload, ← hflagged.load_eq]
    exact .some _ _ cs' hflagged
  · change (a.references ++ _).length = ((detachShared m s p).1.loan ++ _).length
    rw [List.length_append, List.length_append, hloan, h.loans]
    rfl
  · by_cases hr : r = m.loan.length
    · refine .inr ⟨s, c, i, _, cs', ?_, ?_, hheld, hflagged, hi⟩
      · rw [hr, ← hloan]
        exact lent_lend_self
      · rw [hr, ← h.loans]
        change (a.references ++ [some (s, i)])[a.references.length]?.join = _
        simp
    · refine (h.reference r).transfer ?_ ?_ fun t d inner hm ht => ?_
      · rw [lent_lend_of_ne (by rw [← hloan] at hr; exact hr), lent]
        change (detachShared m s p).1.loan[r]?.join = _
        rw [hready.loan]
        rfl
      · change (a.references ++ [some (s, i)])[r]?.join = a.references[r]?.join
        rcases Nat.lt_or_gt_of_ne hr with hlt | hlt
        · rw [List.getElem?_append_left (by rwa [h.loans])]
        · rw [List.getElem?_eq_none (by simp [h.loans]; omega),
            List.getElem?_eq_none (by rw [h.loans]; omega)]
      · by_cases hts : t = s
        · rcases hready.same with ⟨-, hsame, hpointer⟩ | ⟨-, hnone, -⟩
          · subst hts
            refine ⟨_, hheld, fun cs₁ hcs₁ => ?_⟩
            rw [held_eq hs] at ht
            rw [hsame, hpointer]
            obtain rfl := Option.some_inj.mp ht
            exact ⟨⟨hcs₁.represents.pairs, hcs₁.represents.sorted, hcs₁.represents.map,
              hcs₁.represents.height⟩, hcs₁.nodup⟩
          · exact absurd (hts ▸ hm) (hnone r d)
        · exact ⟨inner, (hkeeps.2 t hts).trans ht, fun _ => id⟩

/-! ### The operations -/

/-- A push on an inner stack that nobody else has is above all that is stored. -/
def OnTop (m : Memory K V) : Statement K V → Prop
  | .call s (.push _ _) => ∀ p, m.target s = some p → m.unique p = true →
      ∀ e ∈ (m.node p).elementSet, e.height < (m.node p).height
  | _ => True

private theorem size_eq_zero {inner : InnerStack K Nat} (h : Cells inner cs) (value : Nat → V) :
    inner.size = 0 ↔ load value cs = [] := by
  rw [show inner.size = cs.length from h.represents.length, List.length_eq_zero_iff, load,
    List.map_eq_nil_iff]

theorem count_eq_zero {inner : InnerStack K Nat} (h : Cells inner cs) (value : Nat → V) (key : K) :
    inner.count key = 0 ↔ (load value cs).find? (·.1 == key) = none := by
  rw [h.represents.count_eq_zero, find?_load, Option.map_eq_none_iff, h.represents.find? key,
    Option.map_eq_none_iff]

/-- The call leaves the list, and gives the answer, that the list operation gives. -/
def CallMeans (m : Memory K V) (a : Values K V) (s p : Nat) (cs : List (K × Nat))
    (op : Operation K V) : Prop :=
  Means (call m s p op).1 ((a.referAfter s (load m.value cs) op).set s
    (some (listStep (load m.value cs) op).1)) ∧
  (call m s p op).2 = (listStep (load m.value cs) op).2

private theorem Means.set_load (h : Means m a) (hs : m.target s = some p)
    (hcs : Cells (m.node p) cs) : a.set s (some (load m.value cs)) = a := by
  obtain ⟨cs', hcs', hstack⟩ := h.cells hs
  refine Values.set_stack (hstack.trans ?_)
  rw [← hcs'.load_eq, hcs.load_eq]

private theorem means_push (h : Means m a) (hs : m.target s = some p)
    (hcs : Cells (m.node p) cs) (key : K) (value : V)
    (htop : OnTop m (.call s (.push key value))) : CallMeans m a s p cs (.push key value) := by
  have hkeeps := call_spec h.separate hs (.push key value)
  have hready := detachShared_ready h.separate hs hcs
  obtain ⟨cs', hcs', hload⟩ := hready.cells
  have habove : ∀ e ∈ ((detachShared m s p).1.node (detachShared m s p).2).elementSet,
      e.height < ((detachShared m s p).1.node (detachShared m s p).2).height := by
    rcases hready.same with ⟨hu, hsame, hpointer⟩ | ⟨-, -, habove⟩
    · rw [hsame, hpointer]
      exact htop p hs hu
    · exact habove
  have hd := hready.detached
  have hused : ∀ c ∈ ((detachShared m s p).1.node (detachShared m s p).2).cells,
      c < (detachShared m s p).1.used :=
    hd.separate.used _ (hd.separate.made s _ hd.target)
  have hpushed : Cells (InnerStack.push _ key _) ((key, _) :: cs') :=
    hcs'.push habove fun hmem => (hused _ hmem).ne rfl
  have hmeans := h.modified (n := (call m s p (.push key value)).1) (lt_of_target hs) hready hkeeps
    hd.target (by rw [call, node_setNode]; exact hpushed) rfl rfl
  refine ⟨?_, rfl⟩
  have hnew : load (call m s p (.push key value)).1.value
      ((key, (detachShared m s p).1.used) :: cs') =
        (key, value) :: load (detachShared m s p).1.value cs' := by
    have hvalue : (call m s p (.push key value)).1.value =
        Function.update (detachShared m s p).1.value (detachShared m s p).1.used value := rfl
    rw [hvalue, load, List.map_cons, Function.update_self]
    refine congrArg _ (List.map_congr_left fun q hq => congrArg (Prod.mk q.1) ?_)
    exact Function.update_of_ne (hused _ (hcs'.cells hq)).ne _ _
  rw [hnew, hload] at hmeans
  exact hmeans

private theorem means_pop (h : Means m a) (hs : m.target s = some p)
    (hcs : Cells (m.node p) cs) : CallMeans m a s p cs .pop := by
  have hkeeps := call_spec h.separate hs .pop
  have hsame := h.set_load hs hcs
  unfold CallMeans
  rw [call] at hkeeps ⊢
  have hzero := size_eq_zero hcs m.value
  cases hl : load m.value cs with
  | nil =>
      rw [hl] at hsame
      simp only [hzero.mpr hl, beq_self_eq_true, if_true, Values.referAfter, listStep, hsame]
      exact ⟨h, trivial⟩
  | cons q rest =>
      have hne : ¬ ((m.node p).size == 0) = true := by simp [hzero, hl]
      rw [if_neg hne] at hkeeps ⊢
      have hpop := means_popInner h hs hcs hkeeps (l := rest)
        fun inner cs' value hcs' hload => by
          rw [hl] at hload
          obtain ⟨q', rest', rfl, -, hrest⟩ := List.map_eq_cons_iff.mp hload
          obtain ⟨inner', hinner', hrep⟩ := hcs'.represents.pop
          exact ⟨inner', rest', hinner', hcs'.sublist (List.sublist_cons_self q' rest') hrep,
            hrest⟩
      simpa [Values.referAfter, listStep] using hpop

private theorem means_popKey (h : Means m a) (hs : m.target s = some p)
    (hcs : Cells (m.node p) cs) (key : K) : CallMeans m a s p cs (.popKey key) := by
  have hkeeps := call_spec h.separate hs (.popKey key)
  have hsame := h.set_load hs hcs
  unfold CallMeans
  rw [call] at hkeeps ⊢
  have hzero := count_eq_zero hcs m.value key
  cases hl : (load m.value cs).find? (·.1 == key) with
  | none =>
      simp only [hzero.mpr hl, beq_self_eq_true, if_true, Values.referAfter, listStep, hl,
        Option.isSome_none, Bool.false_eq_true, if_false, hsame]
      exact ⟨h, trivial⟩
  | some q =>
      have hne : ¬ ((m.node p).count key == 0) = true := by simp [hzero, hl]
      rw [if_neg hne] at hkeeps ⊢
      have hpop := means_popInner h hs hcs hkeeps
        (l := (load m.value cs).eraseP (·.1 == key)) fun inner cs' value hcs' hload => by
          have hfind := hl
          rw [← hload, find?_load, hcs'.represents.find? key] at hfind
          obtain ⟨e, he, -⟩ := Option.map_eq_some_iff.mp hfind
          obtain ⟨e, htop, -⟩ := Option.map_eq_some_iff.mp he
          obtain ⟨inner', hinner', hrep⟩ := hcs'.represents.popKey htop
          refine ⟨inner', _, hinner', hcs'.sublist List.eraseP_sublist hrep, ?_⟩
          rw [← hload, load, load, List.eraseP_map]
          rfl
      simpa [Values.referAfter, listStep, hl] using hpop

private theorem means_front (h : Means m a) (hs : m.target s = some p)
    (hcs : Cells (m.node p) cs) : CallMeans m a s p cs .front := by
  have hkeeps := call_spec h.separate hs .front
  have hsame := h.set_load hs hcs
  unfold CallMeans
  rw [call] at hkeeps ⊢
  have hzero := size_eq_zero hcs m.value
  cases hl : load m.value cs with
  | nil =>
      rw [hl] at hsame
      simp only [hzero.mpr hl, beq_self_eq_true, if_true, Values.referAfter, listStep, hsame]
      exact ⟨h, trivial⟩
  | cons q rest =>
      have hne : ¬ ((m.node p).size == 0) = true := by simp [hzero, hl]
      rw [if_neg hne] at hkeeps ⊢
      have hfront := means_frontInner h hs hcs hkeeps (i := rest.length) (o := .pair q.1 q.2)
        fun inner cs' value hcs' hload => by
          rw [hl] at hload
          obtain ⟨q', rest', rfl, rfl, rfl⟩ := List.map_eq_cons_iff.mp hload
          refine ⟨q'.2, .pair q'.1, ?_, ?_, rfl⟩
          · rw [hcs'.represents.front]
            rfl
          · simp
      rw [hl] at hfront
      simpa [Values.referAfter, listStep] using hfront

private theorem means_frontKey (h : Means m a) (hs : m.target s = some p)
    (hcs : Cells (m.node p) cs) (key : K) : CallMeans m a s p cs (.frontKey key) := by
  have hkeeps := call_spec h.separate hs (.frontKey key)
  have hsame := h.set_load hs hcs
  unfold CallMeans
  rw [call] at hkeeps ⊢
  have hzero := count_eq_zero hcs m.value key
  cases hl : (load m.value cs).find? (·.1 == key) with
  | none =>
      simp only [hzero.mpr hl, beq_self_eq_true, if_true, Values.referAfter, listStep, hl,
        Option.isSome_none, Bool.false_eq_true, if_false, hsame]
      exact ⟨h, trivial⟩
  | some q =>
      have hne : ¬ ((m.node p).count key == 0) = true := by simp [hzero, hl]
      rw [if_neg hne] at hkeeps ⊢
      have hfront := means_frontInner h hs hcs hkeeps
        (i := (load m.value cs).length - 1 - (load m.value cs).findIdx (·.1 == key))
        (o := .value q.2) fun inner cs' value hcs' hload => by
          rw [← hload] at hl ⊢
          rw [find?_load] at hl
          obtain ⟨q', hq', rfl⟩ := Option.map_eq_some_iff.mp hl
          refine ⟨q'.2, .value, ?_, ?_, rfl⟩
          · rw [hcs'.represents.frontKey, hq']
            rfl
          · have hindex : (load value cs').findIdx (·.1 == key) =
                cs'.findIdx (·.1 == key) := List.findIdx_map _ _ _
            have hget : cs'[cs'.findIdx (·.1 == key)]? = some q' := by
              rw [← List.find?_eq_getElem?_findIdx, hq']
            obtain ⟨hbound, -⟩ := List.getElem?_eq_some_iff.mp hget
            have hmapped : (cs'.map Prod.snd)[cs'.findIdx (·.1 == key)]? = some q'.2 := by
              rw [List.getElem?_map, hget]
              rfl
            rw [hindex, length_load, List.getElem?_reverse' (j := cs'.findIdx (·.1 == key))]
            · exact hmapped
            · rw [List.length_map]
              omega
      simpa [Values.referAfter, listStep, hl] using hfront

private theorem means_clear (h : Means m a) (hs : m.target s = some p)
    (hcs : Cells (m.node p) cs) : CallMeans m a s p cs .clear := by
  have hkeeps := call_spec h.separate hs .clear
  have hready := detachShared_ready h.separate hs hcs
  have hempty : Cells (.empty : InnerStack K Nat) [] := ⟨represents_empty, List.nodup_nil⟩
  have hmeans : Means _ ((a.revoke s).set s (some (load _ []))) :=
    h.modified (n := (call m s p .clear).1) (lt_of_target hs) hready hkeeps hready.detached.target
      (by rw [call, node_setNode]; exact hempty) rfl rfl
  exact ⟨hmeans, rfl⟩

private theorem means_call (h : Means m a) (hs : m.target s = some p) (hcs : Cells (m.node p) cs)
    (op : Operation K V) (htop : OnTop m (.call s op)) : CallMeans m a s p cs op := by
  cases op with
  | push key value => exact means_push h hs hcs key value htop
  | pop => exact means_pop h hs hcs
  | popKey key => exact means_popKey h hs hcs key
  | front => exact means_front h hs hcs
  | frontKey key => exact means_frontKey h hs hcs key
  | size =>
      rw [CallMeans, call, Values.referAfter, listStep, h.set_load hs hcs, length_load]
      exact ⟨h, congrArg Answer.size hcs.represents.length⟩
  | count key =>
      rw [CallMeans, call, Values.referAfter, listStep, h.set_load hs hcs,
        hcs.represents.count, load, List.countP_map]
      exact ⟨h, rfl⟩
  | clear => exact means_clear h hs hcs

end Calls

/-! ## Programs -/

section Programs

variable [LinearOrder K] {m : Memory K V} {a : Values K V} {s r : Nat}

omit [LinearOrder K] in
private theorem load_update {cs : List (K × Nat)} (hn : (cs.map Prod.snd).Nodup) (value : Nat → V)
    {i c : Nat} (hi : (cs.map Prod.snd).reverse[i]? = some c) (v : V) :
    load (Function.update value c v) cs = Values.write (load value cs) i v := by
  have hreverse : (load (Function.update value c v) cs).reverse =
      (load value cs).reverse.modify i fun p => (p.1, v) := by
    apply List.ext_getElem?
    intro j
    rw [List.getElem?_modify, load, load, ← List.map_reverse, ← List.map_reverse,
      List.getElem?_map, List.getElem?_map]
    cases hj : cs.reverse[j]? with
    | none => rfl
    | some q =>
        have hq : (cs.map Prod.snd).reverse[j]? = some q.2 := by
          rw [← List.map_reverse, List.getElem?_map, hj]
          rfl
        by_cases hij : i = j
        · rw [hij, hq] at hi
          simp [hij, Option.some_inj.mp hi]
        · have hne : q.2 ≠ c := by
            rintro rfl
            obtain ⟨hlt, -⟩ := List.getElem?_eq_some_iff.mp hi
            exact hij ((List.getElem?_inj hlt (List.nodup_reverse.mpr hn)).mp (hi.trans hq.symm))
          simp [hij, Function.update_of_ne hne]
  rw [Values.write, ← hreverse, List.reverse_reverse]

private theorem means_move (h : Means m a) {p : Nat} (hs : m.target s = some p)
    (hkeeps : Keeps m (Touches m (.move s)) (m.pass s)) : Means (m.pass s) (a.pass s) := by
  have hlt := lt_of_target hs
  have hnew : held (m.pass s) m.handle.length = held m s :=
    congrArg (Option.map _) (target_pass_new hlt)
  have hold : held (m.pass s) s = none := by
    rw [held, view, target_pass_of_ne hlt hlt.ne, if_pos rfl]
    rfl
  have hstack (t : Nat) : (a.pass s).stack t = ((a.set s none).add (a.stack s)).stack t := rfl
  refine ⟨hkeeps.1, ?_, ?_, fun t => ?_, fun r => ?_⟩
  · change (a.lists.set s none ++ [_]).length = (m.handle.set s none ++ [_]).length
    simp [h.lists]
  · change (a.references.map _).length = (m.loan.map _).length
    rw [List.length_map, List.length_map, h.loans]
  · have hlength : (a.set s none).lists.length = m.handle.length := by
      rw [← h.lists]
      exact List.length_set
    rw [hstack, Values.stack_add, hlength]
    split_ifs with ht
    · rw [ht, hnew]
      exact h.stack s
    · rw [Values.stack_set (h.lists ▸ hlt)]
      split_ifs with hts
      · rw [hts, hold]
        exact .none
      · rw [hkeeps.2 t (not_or.mpr ⟨hts, ht⟩)]
        exact h.stack t
  · have href : (a.pass s).reference r =
        (a.reference r).map fun p => (if p.1 = s then a.lists.length else p.1, p.2) := by
      unfold Values.reference Values.pass
      rw [List.getElem?_map]
      cases a.references[r]? <;> rfl
    rcases h.reference r with ⟨hm, ha⟩ | ⟨t, c, i, inner, cs, hm, ha, ht, hcs, hi⟩
    · exact .inl ⟨by rw [lent_pass, hm]; rfl, by rw [href, ha]; rfl⟩
    · refine .inr ⟨if t = s then m.handle.length else t, c, i, inner, cs, ?_, ?_, ?_, hcs, hi⟩
      · rw [lent_pass, hm]
        rfl
      · rw [href, ha, h.lists]
        rfl
      · split_ifs with hts
        · rw [hnew, ← hts, ht]
        · obtain ⟨q, hq, -⟩ := h.separate.lent r t c hm
          rw [hkeeps.2 t (not_or.mpr ⟨hts, (lt_of_target hq).ne⟩), ht]

private theorem stackMeans_added {n : Memory K V} (hcs : Cells (n.node p) cs)
    (hlength : n.handle.length = m.handle.length) :
    StackMeans (held (n.addHandle (some p)) m.handle.length) (some (load n.value cs)) :=
  stackMeans_of_cells (m := n.addHandle (some p)) (hlength ▸ target_addHandle_self) hcs

/-- A copy has the list of its source, with cells of its own where they could be lent. -/
private theorem means_copy (h : Means m a) {source : Nat} (hp : m.target source = some p)
    (hallowed : Allowed m (.copy source)) :
    Means (execute m (.copy source)).1 (a.execute (.copy source)).1 ∧
      (execute m (.copy source)).2 = (a.execute (.copy source)).2 := by
  have hkeeps := execute_spec h.separate (.copy source) hallowed
  obtain ⟨cs, hcs, hstack⟩ := h.cells hp
  rw [execute, Values.execute] at *
  rw [hp] at hkeeps ⊢
  rw [hstack]
  dsimp only at hkeeps ⊢
  split_ifs at hkeeps ⊢ with hreferenced
  · obtain ⟨hgrows, -⟩ := copyInner_spec m (m.node p)
    obtain ⟨cs', hcs', hload, -⟩ := copyInner_cells hcs
      (h.separate.used p (h.separate.made source p hp))
    have hnode : ((copyInner m (m.node p)).1.make (copyInner m (m.node p)).2).node
        (copyInner m (m.node p)).1.made = (copyInner m (m.node p)).2 :=
      Function.update_self _ _ _
    have hlength : (copyInner m (m.node p)).1.handle.length = m.handle.length := by
      rw [hgrows.handle]
    have hadded := stackMeans_added (n := (copyInner m (m.node p)).1.make
      (copyInner m (m.node p)).2) (by rw [hnode]; exact hcs') hlength
    refine ⟨h.add hkeeps ?_ hgrows.loan ?_, rfl⟩
    · change (_ ++ [_]).length = _
      rw [List.length_append, List.length_singleton, ← hlength]
      rfl
    · rw [← hload]
      exact hadded
  · exact ⟨h.add hkeeps List.length_append rfl (stackMeans_added hcs rfl), rfl⟩

/-- A write through a reference changes the value at its position in the list of its stack. -/
private theorem means_write (h : Means m a) {r : Nat} {value : V}
    (hallowed : Allowed m (.write r value)) :
    Means (execute m (.write r value)).1 (a.execute (.write r value)).1 ∧
      (execute m (.write r value)).2 = (a.execute (.write r value)).2 := by
  have hkeeps := execute_spec h.separate (.write r value) hallowed
  rw [execute, Values.execute] at *
  rcases h.reference r with ⟨hm, ha⟩ | ⟨s, c, i, inner, cs, hm, ha, hs, hcs, hi⟩
  · rw [hm, ha]
    exact ⟨h, rfl⟩
  · obtain ⟨p, hp, -⟩ := h.separate.lent r s c hm
    rw [hm] at hkeeps
    rw [hm, ha]
    rw [held_eq hp] at hs
    obtain rfl := Option.some_inj.mp hs
    have hkeeps' : Keeps m (· = s) (m.store c value) := by
      refine ⟨hkeeps.1, fun t ht => hkeeps.2 t ?_⟩
      rintro ⟨d, hd⟩
      rw [hm] at hd
      exact ht (congrArg Prod.fst (Option.some_inj.mp hd)).symm
    obtain ⟨cs', hcs', hstack⟩ := h.cells hp
    rw [← hcs'.load_eq, hcs.load_eq] at hstack
    have hwritten := stackMeans_of_cells (m := m.store c value) hp hcs
    rw [show (m.store c value).value = Function.update m.value c value from rfl,
      load_update hcs.nodup m.value hi value] at hwritten
    refine ⟨h.update hkeeps' rfl (lt_of_target hp) hwritten ?_ h.loans fun r' => ?_, rfl⟩
    · change a.lists.set s ((a.stack s).map fun l => Values.write l i value) = _
      rw [hstack]
      rfl
    · refine (h.reference r').transfer rfl rfl fun t d inner' ht hheld => ?_
      by_cases hts : t = s
      · subst hts
        rw [held_eq hp] at hheld
        obtain rfl := Option.some_inj.mp hheld
        exact ⟨_, held_eq (m := m.store c value) hp, fun _ => id⟩
      · exact ⟨inner', (hkeeps'.2 t hts).trans hheld, fun _ => id⟩

/-- A statement does to the lists what it does to the stacks. -/
private theorem means_execute (h : Means m a) (st : Statement K V) (hallowed : Allowed m st)
    (htop : OnTop m st) :
    Means (execute m st).1 (a.execute st).1 ∧ (execute m st).2 = (a.execute st).2 := by
  have hkeeps := execute_spec h.separate st hallowed
  cases st with
  | create =>
      have hempty : Cells ((m.make .empty).node m.made) [] := by
        rw [show (m.make .empty).node m.made = .empty from Function.update_self _ _ _]
        exact ⟨represents_empty, List.nodup_nil⟩
      exact ⟨h.add hkeeps List.length_append rfl (stackMeans_added hempty rfl), rfl⟩
  | copy source =>
      cases hp : m.target source with
      | none =>
          rw [execute, Values.execute, hp, h.stack_none hp]
          exact ⟨h, rfl⟩
      | some p => exact means_copy h hp hallowed
  | move source =>
      rw [execute, Values.execute] at *
      cases hp : m.target source with
      | none =>
          rw [h.stack_none hp]
          exact ⟨h, rfl⟩
      | some p =>
          obtain ⟨cs, hcs, hstack⟩ := h.cells hp
          rw [hp] at hkeeps
          rw [hstack]
          exact ⟨means_move h hp hkeeps, rfl⟩
  | assign target source =>
      rw [execute, Values.execute] at *
      cases hp : m.target source with
      | none =>
          rw [h.stack_none hp]
          exact ⟨h, rfl⟩
      | some p =>
          obtain ⟨cs, hcs, hstack⟩ := h.cells hp
          rw [hp] at hkeeps
          rw [hstack]
          dsimp only at hkeeps ⊢
          rw [h.lists]
          split_ifs at hkeeps ⊢ with hlt
          · exact ⟨h.modify hkeeps List.length_set hlt rfl
              (stackMeans_of_cells (m := (m.revoke target).point target (some p))
                (target_point_self hlt) hcs), rfl⟩
          · exact ⟨h, rfl⟩
  | destroy s =>
      rw [execute, Values.execute] at *
      cases hp : m.target s with
      | none =>
          rw [h.stack_none hp]
          exact ⟨h, rfl⟩
      | some p =>
          obtain ⟨cs, hcs, hstack⟩ := h.cells hp
          rw [hp] at hkeeps
          rw [hstack]
          have hgone : held ((m.revoke s).point s none) s = none := by
            have htarget : ((m.revoke s).point s none).target s = none :=
              target_point_self (lt_of_target hp)
            rw [held, view, htarget]
            rfl
          refine ⟨h.modify hkeeps List.length_set (lt_of_target hp) rfl ?_, rfl⟩
          rw [hgone]
          exact .none
  | call s op =>
      rw [execute, Values.execute]
      cases hp : m.target s with
      | none =>
          rw [h.stack_none hp]
          exact ⟨h, rfl⟩
      | some p =>
          obtain ⟨cs, hcs, hstack⟩ := h.cells hp
          rw [hstack]
          exact means_call h hp hcs op htop
  | write r value =>
      exact means_write h hallowed

private theorem means_start (value : Nat → V) : Means (start value : Memory K V) ⟨[], []⟩ :=
  ⟨separate_start value, rfl, rfl, fun _ => .none, fun _ => .inl ⟨rfl, rfl⟩⟩

/-- Programs over stacks that are isolated, and that push on the top, see lists of pairs: each
answer is the one that the lists give, and in the end each stack has its list. -/
theorem stacks_answer_as_values (value : Nat → V) (program : List (Statement K V))
    (h : CallsMeet execute (fun m st => Allowed m st ∧ OnTop m st) (start value) program) :
    (calls execute (start value) program).2 = (calls Values.execute ⟨[], []⟩ program).2 ∧
      ∀ s, (contents (calls execute (start value) program).1 s).map
          (fun inner => inner.elementSet.map Element.pair) =
        (calls Values.execute ⟨[], []⟩ program).1.stack s := by
  obtain ⟨hmeans, hanswers⟩ := calls_simulation (R := Means) (T := Values.execute)
    (fun _ _ st hm hst => means_execute hm st hst.1 hst.2) (means_start value) h
  refine ⟨hanswers, fun s => ?_⟩
  have hstack := hmeans.stack s
  rw [contents]
  cases hheld : held (calls execute (start value) program).1 s with
  | none =>
      rw [hheld] at hstack
      cases hl : (calls Values.execute ⟨[], []⟩ program).1.stack s with
      | none => rfl
      | some l =>
          rw [hl] at hstack
          cases hstack
  | some inner =>
      rw [hheld] at hstack
      cases hl : (calls Values.execute ⟨[], []⟩ program).1.stack s with
      | none =>
          rw [hl] at hstack
          cases hstack
      | some l =>
          rw [hl] at hstack
          cases hstack
          rfl

theorem stacks_answer_as_values_copy :
    (calls execute (start fun _ => 0 : Memory Nat Nat)
        [.create, .call 0 (.push 1 10), .copy 0, .call 0 .front, .write 0 20, .call 1 .front]).2 =
      (calls Values.execute ⟨[], []⟩
        [.create, .call 0 (.push 1 10), .copy 0, .call 0 .front, .write 0 20,
          .call 1 .front]).2 ∧
    ∀ s, (contents (calls execute (start fun _ => 0 : Memory Nat Nat)
        [.create, .call 0 (.push 1 10), .copy 0, .call 0 .front, .write 0 20,
          .call 1 .front]).1 s).map (fun inner => inner.elementSet.map Element.pair) =
      (calls Values.execute ⟨[], []⟩
        [.create, .call 0 (.push 1 10), .copy 0, .call 0 .front, .write 0 20,
          .call 1 .front]).1.stack s := by
  have hempty : OnTop (execute (start fun _ => 0 : Memory Nat Nat) .create).1
      (.call 0 (.push 1 10)) := by
    intro p hp _ e he
    obtain rfl : 0 = p := Option.some_inj.mp hp
    cases he
  exact stacks_answer_as_values _ _ ⟨⟨trivial, trivial⟩, ⟨trivial, hempty⟩, ⟨trivial, trivial⟩,
    ⟨trivial, trivial⟩, ⟨trivial, trivial⟩, ⟨trivial, trivial⟩, trivial⟩

end Programs

end Mimuw.Stacks
