import Mimuw.Lib.Linked
import Mimuw.Lib.Runs
import Mimuw.Queues.Memory

/-!
# The queue of buffers, one call after another

`BLQueue` with its calls made in sequence.  Then a compare-exchange of what was just loaded
succeeds, `HazardPointer_protect` gives back the pointer it reads, and a node that was
retired may be freed at any later time.  The index counters are taken not to overflow.
-/

namespace Mimuw.Queues

open Mimuw.Lib

namespace BLQueue

def bufferSize : Nat := 1024

/-- What a `BLNode` holds besides the pointer to the next one. -/
structure Node where
  buffer : Nat → Value
  pushIdx : Nat
  popIdx : Nat

/-- `BLNode_new` -/
def Node.new : Node := ⟨fun _ => emptyValue, 0, 0⟩

def Node.write (node : Node) (idx : Nat) (item : Value) : Node :=
  { node with buffer := Function.update node.buffer idx item }

end BLQueue

open BLQueue

structure BLQueue where
  heap : Heap (Cell Ptr Node)
  head : Ptr
  tail : Ptr
  /-- passed to `HazardPointer_retire` and not freed -/
  retired : List Ptr

namespace BLQueue

/-- `BLQueue_new` -/
def new (node : Ptr) : BLQueue where
  heap := Function.update (fun _ => none) node (some ⟨.new, none⟩)
  head := node
  tail := node
  retired := []

def store (q : BLQueue) (p : Ptr) (cell : Cell Ptr Node) : BLQueue :=
  { q with heap := Function.update q.heap p (some cell) }

/-- A new node becomes the tail, and then the next of the node that was the tail. -/
def link (q : BLQueue) (tailNode : Cell Ptr Node) (fresh : Ptr) (newNode : Node) : BLQueue :=
  let expectedTail := q.tail
  let q := { q.store fresh ⟨newNode, none⟩ with tail := fresh }
  q.store expectedTail { tailNode with next := some fresh }

/-- The loop of `BLQueue_push`.  `BLNode_new` fails `fails` times before it gives `fresh`. -/
def pushLoop (item : Value) (fresh : Ptr) : Nat → Nat → BLQueue → Option BLQueue
  | 0, _, _ => none
  | fuel + 1, fails, q => do
      let tailNode ← q.heap q.tail
      let pushIdx := tailNode.content.pushIdx
      let q := q.store q.tail
        { tailNode with content := { tailNode.content with pushIdx := pushIdx + 1 } }
      let tailNode ← q.heap q.tail
      if pushIdx < bufferSize then
        if tailNode.content.buffer pushIdx = emptyValue then
          return q.store q.tail { tailNode with content := tailNode.content.write pushIdx item }
        else pushLoop item fresh fuel fails q
      else
        match fails with
        | fails + 1 => pushLoop item fresh fuel fails q
        | 0 => return q.link tailNode fresh { Node.new.write 0 item with pushIdx := 1 }

/-- The loop of `BLQueue_pop`. -/
def popLoop : Nat → BLQueue → Option (Value × BLQueue)
  | 0, _ => none
  | fuel + 1, q => do
      let headNode ← q.heap q.head
      let popIdx := headNode.content.popIdx
      let q := q.store q.head
        { headNode with content := { headNode.content with popIdx := popIdx + 1 } }
      let headNode ← q.heap q.head
      if popIdx < bufferSize then
        let item := headNode.content.buffer popIdx
        let q := q.store q.head
          { headNode with content := headNode.content.write popIdx takenValue }
        if item = emptyValue then popLoop fuel q else return (item, q)
      else
        match headNode.next with
        | none => return (emptyValue, q)
        | some nextNode => popLoop fuel { q with head := nextNode, retired := q.head :: q.retired }

/-- `BLQueue_push`, with fuel for a turn at each slot and each failure. -/
def push (q : BLQueue) (item : Value) (fails : Nat) (fresh : Ptr) : Option BLQueue :=
  pushLoop item fresh (bufferSize + fails + 1) fails q

/-- `BLQueue_pop`, with fuel for a turn at each slot, one to go on and one in the next node. -/
def pop (q : BLQueue) : Option (Value × BLQueue) := popLoop (bufferSize + 2) q

/-- `BLQueue_is_empty` -/
def isEmpty (q : BLQueue) : Option Bool := do
  let head ← q.heap q.head
  return head.content.pushIdx = head.content.popIdx ∧ head.next = none

/-- A call that returns, with what is returned. -/
inductive Call where
  | push (item : Value) (fails : Nat) (fresh : Ptr)
  | pop (answer : Value)
  /-- a scan of the retired nodes finds one that no thread protects -/
  | free (p : Ptr)
  deriving DecidableEq

def step (q : BLQueue) : Call → Option BLQueue
  | .push item fails fresh =>
      if q.heap fresh = none then q.push item fails fresh else none
  | .pop answer => do
      let (item, q) ← q.pop
      if item = answer then return q else none
  | .free p =>
      if p ∈ q.retired then
        some { q with heap := Function.update q.heap p none, retired := q.retired.erase p }
      else none

@[simp] theorem store_heap_self (q : BLQueue) (p : Ptr) (cell : Cell Ptr Node) :
    (q.store p cell).heap p = some cell := Function.update_self ..

@[simp] theorem store_store (q : BLQueue) (p : Ptr) (cell cell' : Cell Ptr Node) :
    (q.store p cell).store p cell' = q.store p cell' := by
  simp [store]

@[simp] theorem store_head (q : BLQueue) (p : Ptr) (cell : Cell Ptr Node) :
    (q.store p cell).head = q.head := rfl

@[simp] theorem store_retired (q : BLQueue) (p : Ptr) (cell : Cell Ptr Node) :
    (q.store p cell).retired = q.retired := rfl

@[simp] theorem store_tail (q : BLQueue) (p : Ptr) (cell : Cell Ptr Node) :
    (q.store p cell).tail = q.tail := rfl

/-! ## What the queue holds -/

/-- The values of a node stand between the slots that were taken and those still empty. -/
structure Node.Holds (node : Node) (values : List Value) : Prop where
  slots : ∀ i < bufferSize, node.buffer i =
    if i < node.popIdx then takenValue else values.getD (i - node.popIdx) emptyValue
  room : values.length ≤ bufferSize - node.popIdx
  legal : ∀ v ∈ values, v ≠ emptyValue

/-- A node on the way from the head to the tail, with its values. -/
structure Held where
  ptr : Ptr
  node : Node
  values : List Value

def Held.cell (c : Held) : Ptr × Node := (c.ptr, c.node)

/-- The nodes from the head to the tail; only the first one has been popped from. -/
structure Chained (q : BLQueue) (chain : List Held) : Prop where
  path : Path q.heap (some q.head) (chain.map Held.cell) none
  nodup : (chain.map Held.ptr ++ q.retired).Nodup
  tail : (chain.map Held.ptr).getLast? = some q.tail
  nodes : ∀ c ∈ chain, c.node.Holds c.values
  untouched : ∀ c ∈ chain.tail, c.node.popIdx = 0 ∧ c.values ≠ []
  allocated : ∀ p ∈ q.retired, q.heap p ≠ none

/-- What the counters of the last node say, unless pops have gone past its last slot. -/
def Held.Settled (c : Held) : Prop :=
  c.node.pushIdx ≤ bufferSize ∧
    (c.node.popIdx ≤ bufferSize → c.node.pushIdx = c.node.popIdx + c.values.length)

structure Holds (q : BLQueue) (chain : List Held) : Prop where
  chained : q.Chained chain
  settled : ∀ c ∈ chain.getLast?, c.Settled

def contents (chain : List Held) : List Value := chain.flatMap Held.values

/-- There is one node, and pops have gone past its last slot. -/
def Overrun (chain : List Held) : Prop := ∃ c, chain = [c] ∧ bufferSize < c.node.popIdx

private theorem map_cell_fst (chain : List Held) :
    (chain.map Held.cell).map Prod.fst = chain.map Held.ptr := by
  rw [List.map_map]
  rfl

private theorem Node.holds_new : Node.new.Holds [] where
  slots i _ := rfl
  room := Nat.zero_le _
  legal v hv := by cases hv

private theorem holds_new (node : Ptr) : (new node).Holds [⟨node, .new, []⟩] where
  chained :=
    { path := ⟨rfl, none, by simp [new], rfl⟩
      nodup := List.nodup_singleton node
      tail := rfl
      nodes := by simpa using Node.holds_new
      untouched := by simp
      allocated := by simp [new] }
  settled := by simp [Held.Settled, Node.new]

section Nodes

variable {node : Node} {values : List Value} {item : Value} {n : Nat}

private theorem Node.Holds.bump (h : node.Holds values) (n : Nat) :
    Node.Holds { node with pushIdx := n } values := ⟨h.slots, h.room, h.legal⟩

theorem Node.Holds.write (h : node.Holds values) (hitem : item ≠ emptyValue)
    (hn : n = node.popIdx + values.length) (hlt : n < bufferSize) :
    (node.write n item).Holds (values ++ [item]) where
  slots i hi := by
    have hslot := h.slots i hi
    change Function.update node.buffer n item i =
      if i < node.popIdx then takenValue else (values ++ [item]).getD (i - node.popIdx) emptyValue
    rw [Function.update_apply]
    by_cases heq : i = n
    · have htaken : ¬ i < node.popIdx := by omega
      have hsub : i - node.popIdx = values.length := by omega
      rw [if_pos heq, if_neg htaken, hsub]
      simp
    · rw [if_neg heq, hslot]
      split
      · rfl
      · rename_i htaken
        by_cases hbefore : i - node.popIdx < values.length
        · rw [List.getD_append _ _ _ _ hbefore]
        · have hlong : (values ++ [item]).length ≤ i - node.popIdx := by
            simp only [List.length_append, List.length_singleton]
            omega
          rw [List.getD_eq_default _ _ hlong, List.getD_eq_default _ _ (by omega)]
  room := by
    simp only [Node.write, List.length_append, List.length_singleton]
    omega
  legal v hv := by
    rcases List.mem_append.mp hv with hv | hv
    · exact h.legal v hv
    · exact List.mem_singleton.mp hv ▸ hitem

private theorem Node.Holds.free_slot (h : node.Holds values) (hn : n = node.popIdx + values.length)
    (hlt : n < bufferSize) : node.buffer n = emptyValue := by
  rw [h.slots _ hlt, if_neg (by omega), List.getD_eq_default _ _ (by omega)]

private theorem Node.Holds.taken_slot (h : node.Holds values) (hn : n < bufferSize)
    (hpast : n < node.popIdx) : node.buffer n ≠ emptyValue := by
  rw [h.slots n hn, if_pos hpast]
  decide

theorem Node.Holds.take (h : node.Holds values) (hlt : node.popIdx < bufferSize) :
    node.buffer node.popIdx = values.headD emptyValue ∧
      Node.Holds
        ({ node with popIdx := node.popIdx + 1 }.write node.popIdx takenValue) values.tail := by
  refine ⟨?_, ?_, ?_, fun v hv => h.legal v (List.mem_of_mem_tail hv)⟩
  · rw [h.slots _ hlt, if_neg (lt_irrefl _), Nat.sub_self]
    cases values <;> rfl
  · intro i hi
    have hslot := h.slots i hi
    change Function.update node.buffer node.popIdx takenValue i =
      if i < node.popIdx + 1 then takenValue
      else values.tail.getD (i - (node.popIdx + 1)) emptyValue
    rw [Function.update_apply]
    by_cases heq : i = node.popIdx
    · rw [if_pos heq, if_pos (by omega)]
    · rw [if_neg heq, hslot]
      by_cases htaken : i < node.popIdx
      · rw [if_pos htaken, if_pos (by omega)]
      · have hsub : i - node.popIdx = i - (node.popIdx + 1) + 1 := by omega
        rw [if_neg htaken, if_neg (by omega), hsub]
        cases values <;> simp
  · have hroom := h.room
    simp only [Node.write, List.length_tail]
    omega

theorem Node.Holds.eq_nil (h : node.Holds values) (hpast : bufferSize ≤ node.popIdx) :
    values = [] := by
  have hroom := h.room
  exact List.length_eq_zero_iff.mp (by omega)

theorem Node.Holds.pass (h : node.Holds values) (hpast : bufferSize ≤ node.popIdx) :
    Node.Holds { node with popIdx := node.popIdx + 1 } values where
  slots i hi := by
    change node.buffer i = if i < node.popIdx + 1 then takenValue
      else values.getD (i - (node.popIdx + 1)) emptyValue
    rw [h.slots i hi, if_pos (by omega), if_pos (by omega)]
  room := by
    rw [h.eq_nil hpast]
    exact Nat.zero_le _
  legal := h.legal

end Nodes

section Chains

variable {q : BLQueue} {c : Held} {before rest : List Held} {node' : Node} {values' : List Value}
  {fresh : Ptr} {item : Value}

private theorem store_allocated {p p' : Ptr} (cell : Cell Ptr Node) (h : q.heap p' ≠ none) :
    (q.store p cell).heap p' ≠ none := by
  simp only [store, Function.update_apply]
  split
  · exact Option.some_ne_none cell
  · exact h

private theorem Chained.head_eq (h : q.Chained (c :: rest)) : q.head = c.ptr :=
  Option.some_inj.mp h.path.1

private theorem Chained.tail_eq (h : q.Chained (before ++ [c])) : q.tail = c.ptr := by
  have htail := h.tail
  simpa using htail.symm

theorem Chained.rewrite_first (h : q.Chained (c :: rest)) (hnode : node'.Holds values') :
    ∃ next, q.heap q.head = some ⟨c.node, next⟩ ∧ next = rest.head?.map Held.ptr ∧
      (q.store q.head ⟨node', next⟩).Chained (⟨c.ptr, node', values'⟩ :: rest) := by
  have hnotMem : c.ptr ∉ (rest.map Held.cell).map Prod.fst := by
    rw [map_cell_fst]
    have hnodup := h.nodup
    simp only [List.map_cons, List.cons_append, List.nodup_cons, List.mem_append, not_or] at hnodup
    exact hnodup.1.1
  obtain ⟨next, hcell, hrest, hpath⟩ := Path.rewrite_first h.path hnotMem node'
  refine ⟨next, h.head_eq ▸ hcell, ?_, ?_⟩
  · rcases rest with _ | ⟨d, rest⟩
    · exact hrest
    · exact hrest.1
  · exact
      { path := by
          rw [h.head_eq]
          exact hpath
        nodup := h.nodup
        tail := h.tail
        nodes := by
          intro d hd
          rcases List.mem_cons.mp hd with rfl | hd
          · exact hnode
          · exact h.nodes d (List.mem_cons_of_mem c hd)
        untouched := h.untouched
        allocated := fun p hp => store_allocated _ (h.allocated p hp) }

private theorem untouched_append {P : Held → Prop} {d : Held}
    (h : ∀ e ∈ (before ++ [c]).tail, P e) (hd : before ≠ [] → P d) :
    ∀ e ∈ (before ++ [d]).tail, P e := by
  cases before with
  | nil => simp
  | cons b before =>
      intro e he
      simp only [List.cons_append, List.tail_cons, List.mem_append, List.mem_singleton] at h he
      rcases he with he | rfl
      · exact h e (.inl he)
      · exact hd (List.cons_ne_nil b before)

private theorem Chained.notMem_last (h : q.Chained (before ++ [c])) :
    c.ptr ∉ (before.map Held.cell).map Prod.fst := by
  have hnodup := (List.nodup_append.mp h.nodup).1
  rw [map_cell_fst]
  simp only [List.map_append, List.map_cons, List.map_nil] at hnodup
  exact fun hmem => (List.nodup_append.mp hnodup).2.2 _ hmem _ (List.mem_singleton_self _) rfl

private theorem Chained.rewrite_last (h : q.Chained (before ++ [c])) (hnode : node'.Holds values')
    (huntouched : before ≠ [] → node'.popIdx = 0 ∧ values' ≠ []) :
    (q.store q.tail ⟨node', none⟩).Chained (before ++ [⟨c.ptr, node', values'⟩]) where
  path := by
    have hpath := h.path
    rw [List.map_append] at hpath
    rw [h.tail_eq, List.map_append]
    exact hpath.relink h.notMem_last
  nodup := by simpa using h.nodup
  tail := by simpa using h.tail
  nodes d hd := by
    rcases List.mem_append.mp hd with hd | hd
    · exact h.nodes d (List.mem_append_left _ hd)
    · exact List.mem_singleton.mp hd ▸ hnode
  untouched := untouched_append h.untouched huntouched
  allocated p hp := store_allocated _ (h.allocated p hp)

private theorem Chained.last_cell (h : q.Chained (before ++ [c])) :
    q.heap q.tail = some ⟨c.node, none⟩ := by
  have hpath := h.path
  rw [List.map_append] at hpath
  obtain ⟨mid, -, hlast⟩ := Path.append_iff.mp hpath
  obtain ⟨-, next, hcell, hend⟩ := hlast
  obtain rfl : next = none := hend
  rw [h.tail_eq]
  exact hcell

theorem Chained.link (h : q.Chained (before ++ [c])) (hfresh : q.heap fresh = none)
    (hnew : node'.Holds [item]) (hzero : node'.popIdx = 0) :
    (q.link ⟨c.node, none⟩ fresh node').Chained
      (before ++ [c] ++ [Held.mk fresh node' [item]]) := by
  have hheap : (q.link ⟨c.node, none⟩ fresh node').heap =
      Function.update (Function.update q.heap fresh (some ⟨node', none⟩)) c.ptr
        (some ⟨c.node, some fresh⟩) := by
    rw [← h.tail_eq]
    rfl
  have hne : ∀ p, q.heap p ≠ none → p ≠ fresh := fun p hp heq => hp (heq ▸ hfresh)
  have hcells : ∀ d ∈ before ++ [c], d.ptr ≠ fresh := by
    intro d hd
    obtain ⟨next, hcell⟩ := h.path.cell (List.mem_map_of_mem (f := Held.cell) hd)
    exact hne _ (by rw [show q.heap d.ptr = _ from hcell]; exact Option.some_ne_none _)
  have hnotMem : fresh ∉ ((before ++ [c]).map Held.cell).map Prod.fst := by
    rw [map_cell_fst]
    rintro hmem
    obtain ⟨d, hd, hptr⟩ := List.mem_map.mp hmem
    exact hcells d hd hptr
  refine
    { path := ?_
      nodup := ?_
      tail := ?_
      nodes := ?_
      untouched := ?_
      allocated := ?_ }
  · rw [hheap, List.map_append]
    have hpath := h.path.update_of_notMem hnotMem (some ⟨node', none⟩)
    rw [List.map_append] at hpath ⊢
    refine Path.append_iff.mpr ⟨some fresh, hpath.relink h.notMem_last, rfl, none, ?_, rfl⟩
    rw [Function.update_of_ne (hcells c (by simp)).symm]
    exact Function.update_self ..
  · have hmem : fresh ∉ (before ++ [c]).map Held.ptr ++ q.retired := by
      rw [List.mem_append, not_or, ← map_cell_fst]
      exact ⟨hnotMem, fun hretired => hne fresh (h.allocated fresh hretired) rfl⟩
    rw [List.map_append, List.map_singleton, List.append_assoc, List.singleton_append,
      List.nodup_middle]
    exact List.nodup_cons.mpr ⟨hmem, h.nodup⟩
  · rw [List.map_append, List.map_singleton, List.getLast?_append]
    rfl
  · intro d hd
    rcases List.mem_append.mp hd with hd | hd
    · exact h.nodes d hd
    · exact List.mem_singleton.mp hd ▸ hnew
  · intro d hd
    rw [List.tail_append_of_ne_nil (by simp), List.mem_append] at hd
    rcases hd with hd | hd
    · exact h.untouched d hd
    · rw [List.mem_singleton.mp hd]
      exact ⟨hzero, List.cons_ne_nil item []⟩
  · intro p hp
    exact store_allocated _ (store_allocated _ (h.allocated p hp))

theorem Chained.advance {d : Held} (h : q.Chained (c :: d :: rest)) :
    Chained { q with head := d.ptr, retired := q.head :: q.retired } (d :: rest) where
  path := by
    obtain ⟨-, next, -, hrest⟩ := h.path
    obtain rfl : next = some d.ptr := hrest.1
    exact hrest
  nodup := by
    have hnodup := h.nodup
    rw [List.map_cons, List.cons_append] at hnodup
    rw [h.head_eq, List.nodup_middle]
    exact hnodup
  tail := by simpa using h.tail
  nodes e he := h.nodes e (List.mem_cons_of_mem c he)
  untouched e he := h.untouched e (List.mem_of_mem_tail he)
  allocated p hp := by
    rcases List.mem_cons.mp hp with rfl | hp
    · obtain ⟨-, next, hcell, -⟩ := h.path
      rw [h.head_eq, show q.heap c.ptr = _ from hcell]
      exact Option.some_ne_none _
    · exact h.allocated p hp

theorem Chained.free {chain : List Held} {p : Ptr} (h : q.Chained chain) (hp : p ∈ q.retired) :
    Chained { q with
      heap := Function.update q.heap p none
      retired := q.retired.erase p } chain where
  path := by
    have hnotMem : p ∉ (chain.map Held.cell).map Prod.fst := by
      rw [map_cell_fst]
      exact fun hmem => (List.nodup_append.mp h.nodup).2.2 p hmem p hp rfl
    exact h.path.update_of_notMem hnotMem none
  nodup := h.nodup.sublist ((List.Sublist.refl _).append List.erase_sublist)
  tail := h.tail
  nodes := h.nodes
  untouched := h.untouched
  allocated r hr := by
    have hnodup := (List.nodup_append.mp h.nodup).2.1
    obtain ⟨hne, hmem⟩ := hnodup.mem_erase_iff.mp hr
    change Function.update q.heap p none r ≠ none
    rw [Function.update_of_ne hne]
    exact h.allocated r hmem

end Chains

/-! ## A push -/

section Push

variable {q : BLQueue} {c : Held} {before : List Held} {item : Value} {fresh : Ptr}
  {fuel fails : Nat}

def Held.bump (c : Held) (n : Nat) : Held := { c with node := { c.node with pushIdx := n } }

def Node.first (item : Value) : Node := { Node.new.write 0 item with pushIdx := 1 }

private theorem Node.holds_first (hitem : item ≠ emptyValue) : (Node.first item).Holds [item] :=
  (Node.holds_new.write hitem rfl (by decide)).bump 1

private theorem Chained.bump (h : q.Chained (before ++ [c])) (n : Nat) :
    (q.store q.tail ⟨(c.bump n).node, none⟩).Chained (before ++ [c.bump n]) := by
  refine h.rewrite_last ((h.nodes c (by simp)).bump n) fun hbefore => ?_
  refine h.untouched c ?_
  rw [List.tail_append_of_ne_nil hbefore]
  exact List.mem_append_right _ (List.mem_singleton_self c)

private theorem Chained.store_fresh (h : q.Chained (before ++ [c])) (hfresh : q.heap fresh = none)
    (cell : Cell Ptr Node) : (q.store q.tail cell).heap fresh = none := by
  have hne : fresh ≠ q.tail := by
    rintro rfl
    rw [h.last_cell] at hfresh
    cases hfresh
  exact (Function.update_of_ne hne _ _).trans hfresh

private theorem pushLoop_slot (h : q.Chained (before ++ [c])) (hlt : c.node.pushIdx < bufferSize)
    (hempty : c.node.buffer c.node.pushIdx = emptyValue) :
    pushLoop item fresh (fuel + 1) fails q = some (q.store q.tail
      ⟨(c.bump (c.node.pushIdx + 1)).node.write c.node.pushIdx item, none⟩) := by
  simp [pushLoop, h.last_cell, hlt, hempty, Held.bump]

private theorem pushLoop_taken (h : q.Chained (before ++ [c])) (hlt : c.node.pushIdx < bufferSize)
    (htaken : c.node.buffer c.node.pushIdx ≠ emptyValue) :
    pushLoop item fresh (fuel + 1) fails q = pushLoop item fresh fuel fails
      (q.store q.tail ⟨(c.bump (c.node.pushIdx + 1)).node, none⟩) := by
  simp [pushLoop, h.last_cell, hlt, htaken, Held.bump]

private theorem pushLoop_fails (h : q.Chained (before ++ [c]))
    (hfull : ¬ c.node.pushIdx < bufferSize) :
    pushLoop item fresh (fuel + 1) (fails + 1) q = pushLoop item fresh fuel fails
      (q.store q.tail ⟨(c.bump (c.node.pushIdx + 1)).node, none⟩) := by
  simp [pushLoop, h.last_cell, hfull, Held.bump]

private theorem pushLoop_link (h : q.Chained (before ++ [c]))
    (hfull : ¬ c.node.pushIdx < bufferSize) :
    pushLoop item fresh (fuel + 1) 0 q = some
      ((q.store q.tail ⟨(c.bump (c.node.pushIdx + 1)).node, none⟩).link
        ⟨(c.bump (c.node.pushIdx + 1)).node, none⟩ fresh (.first item)) := by
  simp [pushLoop, h.last_cell, hfull, Held.bump, Node.first]

private theorem pushLoop_full (h : q.Chained (before ++ [c])) (hitem : item ≠ emptyValue)
    (hfresh : q.heap fresh = none) (hfull : ¬ c.node.pushIdx < bufferSize)
    (hfuel : fails < fuel) :
    ∃ q' n, pushLoop item fresh fuel fails q = some q' ∧
      q'.Chained (before ++ [c.bump n] ++ [⟨fresh, .first item, [item]⟩]) := by
  induction fuel generalizing q c fails with
  | zero => omega
  | succ fuel ih =>
      have hbump := h.bump (c.node.pushIdx + 1)
      have hstill := h.store_fresh hfresh ⟨(c.bump (c.node.pushIdx + 1)).node, none⟩
      cases fails with
      | zero =>
          rw [pushLoop_link h hfull]
          exact ⟨_, _, rfl, hbump.link hstill (Node.holds_first hitem) rfl⟩
      | succ fails =>
          have hmore : ¬ (c.bump (c.node.pushIdx + 1)).node.pushIdx < bufferSize := by
            simp only [Held.bump]
            omega
          rw [pushLoop_fails h hfull]
          have hless : fails < fuel := by omega
          obtain ⟨q', n, hpush, hchained⟩ := ih hbump hstill hmore hless
          exact ⟨q', n, hpush, hchained⟩

/-- Every slot of the last node has been taken, so the push goes through them to a new one. -/
private theorem pushLoop_overrun (h : q.Chained (before ++ [c])) (hitem : item ≠ emptyValue)
    (hfresh : q.heap fresh = none) (hpast : bufferSize < c.node.popIdx)
    (hfuel : (bufferSize - c.node.pushIdx) + fails < fuel) :
    ∃ q' n, pushLoop item fresh fuel fails q = some q' ∧
      q'.Chained (before ++ [c.bump n] ++ [⟨fresh, .first item, [item]⟩]) := by
  induction fuel generalizing q c with
  | zero => omega
  | succ fuel ih =>
      by_cases hlt : c.node.pushIdx < bufferSize
      · have htaken := (h.nodes c (by simp)).taken_slot hlt (by omega)
        have hbump := h.bump (c.node.pushIdx + 1)
        have hstill := h.store_fresh hfresh ⟨(c.bump (c.node.pushIdx + 1)).node, none⟩
        rw [pushLoop_taken h hlt htaken]
        have hless : bufferSize - (c.bump (c.node.pushIdx + 1)).node.pushIdx + fails < fuel := by
          simp only [Held.bump]
          omega
        obtain ⟨q', n, hpush, hchained⟩ := ih hbump hstill hpast hless
        exact ⟨q', n, hpush, hchained⟩
      · exact pushLoop_full h hitem hfresh hlt (by omega)

private theorem Chained.holds_linked
    (h : q.Chained (before ++ [c] ++ [⟨fresh, .first item, [item]⟩])) :
    q.Holds (before ++ [c] ++ [⟨fresh, .first item, [item]⟩]) ∧
      ¬ Overrun (before ++ [c] ++ [⟨fresh, .first item, [item]⟩]) := by
  refine ⟨⟨h, ?_⟩, ?_⟩
  · simp [Held.Settled, Node.first, Node.new, Node.write, bufferSize]
  · rintro ⟨d, hd, -⟩
    simpa using congrArg List.length hd

theorem Holds.push {chain : List Held} (h : q.Holds chain) (hitem : item ≠ emptyValue)
    (fails : Nat) (hfresh : q.heap fresh = none) :
    ∃ q' chain', q.push item fails fresh = some q' ∧ q'.Holds chain' ∧
      contents chain' = contents chain ++ [item] ∧ ¬ Overrun chain' := by
  rcases List.eq_nil_or_concat chain with rfl | ⟨before, c, rfl⟩
  · cases h.chained.tail
  rw [List.concat_eq_append] at h ⊢
  obtain ⟨hle, hcount⟩ := h.settled c (by simp)
  by_cases hslot : c.node.popIdx ≤ bufferSize ∧ c.node.pushIdx < bufferSize
  · obtain ⟨hpop, hlt⟩ := hslot
    have hidx := hcount hpop
    have hnode := h.chained.nodes c (by simp)
    have hwrite : Node.Holds ((c.bump (c.node.pushIdx + 1)).node.write c.node.pushIdx item)
        (c.values ++ [item]) := (hnode.bump (c.node.pushIdx + 1)).write hitem hidx hlt
    refine ⟨_, before ++ [⟨c.ptr, _, c.values ++ [item]⟩],
      pushLoop_slot h.chained hlt (hnode.free_slot hidx hlt),
      ⟨h.chained.rewrite_last hwrite fun hbefore => ?_, ?_⟩, ?_, ?_⟩
    · refine ⟨(h.chained.untouched c ?_).1, by simp⟩
      rw [List.tail_append_of_ne_nil hbefore]
      exact List.mem_append_right _ (List.mem_singleton_self c)
    · have hlength : (c.values ++ [item]).length = c.values.length + 1 := by simp
      intro d hd
      obtain rfl : _ = d := by simpa using hd
      change c.node.pushIdx + 1 ≤ bufferSize ∧ (c.node.popIdx ≤ bufferSize →
        c.node.pushIdx + 1 = c.node.popIdx + (c.values ++ [item]).length)
      omega
    · simp [contents]
    · rintro ⟨d, hd, hpast⟩
      obtain rfl : _ = d := by simpa using congrArg List.getLast? hd
      exact absurd hpast (Nat.not_lt.mpr hpop)
  · obtain ⟨q', n, hpush, hchained⟩ : ∃ q' n, q.push item fails fresh = some q' ∧
        q'.Chained (before ++ [c.bump n] ++ [⟨fresh, .first item, [item]⟩]) := by
      by_cases hpast : bufferSize < c.node.popIdx
      · exact pushLoop_overrun h.chained hitem hfresh hpast (by omega)
      · exact pushLoop_full h.chained hitem hfresh (by omega) (by omega)
    obtain ⟨hholds, hmore⟩ := hchained.holds_linked
    refine ⟨q', _, hpush, hholds, ?_, hmore⟩
    simp [contents, Held.bump]

end Push

/-! ## A pop -/

section Pop

variable {q : BLQueue} {c : Held} {rest : List Held} {fuel : Nat}

def Held.take (c : Held) : Held :=
  { c with
    node := { c.node with popIdx := c.node.popIdx + 1 }.write c.node.popIdx takenValue
    values := c.values.tail }

theorem Chained.take (h : q.Chained (c :: rest)) (hlt : c.node.popIdx < bufferSize) :
    ∃ next, q.heap q.head = some ⟨c.node, next⟩ ∧
      (q.store q.head ⟨c.take.node, next⟩).Chained (c.take :: rest) := by
  have hnode := (h.nodes c List.mem_cons_self).take hlt
  obtain ⟨next, hcell, -, hchained⟩ := h.rewrite_first hnode.2
  exact ⟨next, hcell, hchained⟩

private theorem popLoop_value {v : Value} {vs : List Value} (h : q.Chained (c :: rest))
    (hvalues : c.values = v :: vs) :
    ∃ q', popLoop (fuel + 1) q = some (v, q') ∧ q'.Chained (c.take :: rest) := by
  have hnode := h.nodes c List.mem_cons_self
  have hlt : c.node.popIdx < bufferSize := by
    have hroom := hnode.room
    rw [hvalues, List.length_cons] at hroom
    omega
  have hslot := (hnode.take hlt).1
  rw [hvalues, List.headD_cons] at hslot
  have hlegal : v ≠ emptyValue := hnode.legal v (hvalues ▸ List.mem_cons_self)
  obtain ⟨next, hcell, hchained⟩ := h.take hlt
  refine ⟨_, ?_, hchained⟩
  simp [popLoop, hcell, hlt, hslot, hlegal, Held.take]

/-- Turns at slots without a value, up to the last slot. -/
private theorem popLoop_drain (fuel : Nat) (h : q.Chained (c :: rest)) (hnone : c.values = []) :
    ∃ q' c', popLoop (fuel + (bufferSize - c.node.popIdx)) q = popLoop fuel q' ∧
      q'.Chained (c' :: rest) ∧ c'.ptr = c.ptr ∧ c'.values = [] ∧
      c'.node.pushIdx = c.node.pushIdx ∧ bufferSize ≤ c'.node.popIdx := by
  generalize hleft : bufferSize - c.node.popIdx = left
  induction left generalizing q c with
  | zero => exact ⟨q, c, rfl, h, rfl, hnone, rfl, by omega⟩
  | succ left ih =>
      have hlt : c.node.popIdx < bufferSize := by omega
      have hslot := ((h.nodes c List.mem_cons_self).take hlt).1
      rw [hnone] at hslot
      obtain ⟨next, hcell, hchained⟩ := h.take hlt
      have hturn : popLoop (fuel + left + 1) q =
          popLoop (fuel + left) (q.store q.head ⟨c.take.node, next⟩) := by
        simp [popLoop, hcell, hlt, hslot, Held.take]
      have hnext : c.take.node.popIdx = c.node.popIdx + 1 := rfl
      obtain ⟨q', c', hloop, hlater⟩ := ih hchained (by simp [Held.take, hnone]) (by omega)
      exact ⟨q', c', hturn.trans hloop, hlater⟩

def Held.pass (c : Held) : Held := { c with node := { c.node with popIdx := c.node.popIdx + 1 } }

theorem Chained.pass (h : q.Chained (c :: rest)) (hpast : bufferSize ≤ c.node.popIdx) :
    ∃ next, q.heap q.head = some ⟨c.node, next⟩ ∧ next = rest.head?.map Held.ptr ∧
      (q.store q.head ⟨c.pass.node, next⟩).Chained (c.pass :: rest) :=
  h.rewrite_first ((h.nodes c List.mem_cons_self).pass hpast)

private theorem popLoop_end (h : q.Chained [c]) (hpast : bufferSize ≤ c.node.popIdx) :
    ∃ q', popLoop (fuel + 1) q = some (emptyValue, q') ∧ q'.Chained [c.pass] := by
  obtain ⟨next, hcell, hnext, hchained⟩ := h.pass hpast
  obtain rfl : next = none := hnext
  refine ⟨_, ?_, hchained⟩
  simp [popLoop, hcell, Nat.not_lt.mpr hpast, Held.pass]

private theorem popLoop_next {d : Held} (h : q.Chained (c :: d :: rest))
    (hpast : bufferSize ≤ c.node.popIdx) :
    ∃ q', popLoop (fuel + 1) q = popLoop fuel q' ∧ q'.Chained (d :: rest) := by
  obtain ⟨next, hcell, hnext, hchained⟩ := h.pass hpast
  obtain rfl : next = some d.ptr := hnext
  refine ⟨_, ?_, hchained.advance⟩
  simp [popLoop, hcell, Nat.not_lt.mpr hpast, Held.pass]

theorem Held.Settled.take (h : c.Settled) (hvalues : c.values ≠ [])
    (hroom : c.values.length ≤ bufferSize - c.node.popIdx) : c.take.Settled := by
  have hpos := List.length_pos_iff.mpr hvalues
  obtain ⟨hle, hcount⟩ := h
  refine ⟨hle, fun _ => ?_⟩
  change c.node.pushIdx = c.node.popIdx + 1 + c.values.tail.length
  rw [hcount (by omega), List.length_tail]
  omega

private theorem Chained.holds_take {v : Value} {vs : List Value} (h : q.Chained (c.take :: rest))
    (hvalues : c.values = v :: vs) (hnode : c.node.Holds c.values)
    (hsettled : ∀ e ∈ (c :: rest).getLast?, e.Settled) :
    q.Holds (c.take :: rest) ∧ v :: contents (c.take :: rest) = contents (c :: rest) ∧
      ¬ Overrun (c.take :: rest) := by
  have hroom := hnode.room
  refine ⟨⟨h, ?_⟩, ?_, ?_⟩
  · cases rest with
    | nil =>
        intro e he
        obtain rfl : c.take = e := by simpa using he
        exact (hsettled c (by simp)).take (by simp [hvalues]) hroom
    | cons d rest => simpa [List.getLast?_cons_cons] using hsettled
  · simp [contents, Held.take, hvalues]
  · rintro ⟨e, he, hpast⟩
    obtain rfl : c.take = e := (List.cons_eq_cons.mp he).1
    rw [hvalues, List.length_cons] at hroom
    change bufferSize < c.node.popIdx + 1 at hpast
    omega

/-- The turns of a pop up to the last slot of a first node without values, with two left. -/
private theorem Chained.pop_drain (h : q.Chained (c :: rest)) (hnone : c.values = []) :
    ∃ fuel q' c', q.pop = popLoop (fuel + 2) q' ∧ q'.Chained (c' :: rest) ∧ c'.values = [] ∧
      c'.node.pushIdx = c.node.pushIdx ∧ bufferSize ≤ c'.node.popIdx := by
  obtain ⟨fuel, hfuel⟩ : ∃ fuel, bufferSize + 2 = fuel + 2 + (bufferSize - c.node.popIdx) :=
    ⟨bufferSize - (bufferSize - c.node.popIdx), by omega⟩
  obtain ⟨q', c', hloop, hchained, -, hvalues, hpush, hpast⟩ :=
    popLoop_drain (fuel + 2) h hnone
  refine ⟨fuel, q', c', ?_, hchained, hvalues, hpush, hpast⟩
  rw [pop, hfuel, hloop]

private theorem Holds.pop_value {chain : List Held} {v : Value} {vs : List Value}
    (h : q.Holds chain) (hcontents : contents chain = v :: vs) :
    ∃ q' chain', q.pop = some (v, q') ∧ q'.Holds chain' ∧ contents chain' = vs ∧
      ¬ Overrun chain' := by
  obtain ⟨hchained, hsettled⟩ := h
  cases chain with
  | nil => cases hcontents
  | cons c rest =>
      cases hvalues : c.values with
      | cons w ws =>
          obtain ⟨q', hloop, htaken⟩ := popLoop_value hchained hvalues
          obtain ⟨hholds, hrest, hover⟩ := htaken.holds_take hvalues
            (hchained.nodes c List.mem_cons_self) hsettled
          obtain ⟨rfl, hvs⟩ := List.cons_eq_cons.mp (hrest.trans hcontents)
          exact ⟨q', _, hloop, hholds, hvs, hover⟩
      | nil =>
          obtain ⟨fuel, q₁, c', hpop, hdrained, -, -, hpast⟩ := hchained.pop_drain hvalues
          cases rest with
          | nil => simp [contents, hvalues] at hcontents
          | cons d rest =>
              obtain ⟨q₂, hnext, hmoved⟩ := popLoop_next hdrained hpast
              obtain ⟨w, ws, hd⟩ := List.exists_cons_of_ne_nil
                (hchained.untouched d List.mem_cons_self).2
              obtain ⟨q', hloop, htaken⟩ := popLoop_value hmoved hd
              obtain ⟨hholds, hrest, hover⟩ := htaken.holds_take hd
                (hmoved.nodes d List.mem_cons_self) (by simpa using hsettled)
              have hall : contents (c :: d :: rest) = contents (d :: rest) := by
                simp [contents, hvalues]
              obtain ⟨rfl, hvs⟩ := List.cons_eq_cons.mp
                (hrest.trans (hall.symm.trans hcontents))
              exact ⟨q', _, hpop.trans (hnext.trans hloop), hholds, hvs, hover⟩

private theorem Holds.pop_empty {chain : List Held} (h : q.Holds chain)
    (hcontents : contents chain = []) :
    ∃ q' chain', q.pop = some (emptyValue, q') ∧ q'.Holds chain' ∧ contents chain' = [] ∧
      Overrun chain' := by
  obtain ⟨hchained, hsettled⟩ := h
  cases chain with
  | nil => cases hchained.tail
  | cons c rest =>
      have hvalues : ∀ d ∈ c :: rest, d.values = [] := List.flatMap_eq_nil_iff.mp hcontents
      cases rest with
      | cons d rest =>
          exact absurd (hvalues d (by simp)) (hchained.untouched d List.mem_cons_self).2
      | nil =>
          obtain ⟨fuel, q₁, c', hpop, hdrained, hnone, hpush, hpast⟩ :=
            hchained.pop_drain (hvalues c List.mem_cons_self)
          obtain ⟨q', hloop, hend⟩ := popLoop_end hdrained hpast
          have hover : bufferSize < c'.pass.node.popIdx := Nat.lt_succ_of_le hpast
          refine ⟨q', [c'.pass], hpop.trans hloop, ⟨hend, fun e he => ?_⟩, ?_,
            c'.pass, rfl, hover⟩
          · obtain rfl : c'.pass = e := by simpa using he
            refine ⟨?_, fun hle => absurd hover (Nat.not_lt.mpr hle)⟩
            exact hpush.trans_le (hsettled c (by simp)).1
          · simpa [contents, Held.pass] using hnone

end Pop

/-! ## Histories -/

def Call.isPush : Call → Bool
  | push .. => true
  | _ => false

def Call.isTaken : Call → Bool
  | pop answer => answer ≠ emptyValue
  | _ => false

/-- What waits in a queue after a call. -/
def waiting : List Value → Call → List Value
  | values, .push item _ _ => values ++ [item]
  | values, .pop _ => values.tail
  | values, .free _ => values

/-- A pop was called on the empty queue, and no push after it. -/
def PoppedEmpty (history : List Call) : Prop :=
  ∃ before answer after, history = before ++ Call.pop answer :: after ∧
    before.foldl waiting [] = [] ∧ ∀ call ∈ after, call.isPush = false

/-- No push is of `EMPTY_VALUE`. -/
def Call.Legal : Call → Prop
  | push item _ _ => item ≠ emptyValue
  | _ => True

section Histories

variable {history : List Call} {call : Call} {q q' : BLQueue}

private theorem poppedEmpty_snoc :
    PoppedEmpty (history ++ [call]) ↔
      call.isPush = false ∧ PoppedEmpty history ∨
        (∃ answer, call = .pop answer) ∧ history.foldl waiting [] = [] := by
  constructor
  · rintro ⟨before, answer, after, heq, hempty, hafter⟩
    rcases List.eq_nil_or_concat after with rfl | ⟨after, last, rfl⟩
    · obtain ⟨rfl, hcall⟩ := List.append_inj' heq rfl
      exact .inr ⟨⟨answer, by simpa using hcall⟩, hempty⟩
    · rw [List.concat_eq_append, ← List.cons_append, ← List.append_assoc] at heq
      obtain ⟨hhistory, hcall⟩ := List.append_inj' heq rfl
      obtain rfl : call = last := by simpa using hcall
      exact .inl ⟨hafter call (by simp),
        before, answer, after, hhistory, hempty, fun d hd => hafter d (by simp [hd])⟩
  · rintro (⟨hpush, hpopped⟩ | ⟨⟨answer, rfl⟩, hempty⟩)
    · obtain ⟨before, answer, after, rfl, hempty, hafter⟩ := hpopped
      refine ⟨before, answer, after ++ [call], by simp, hempty, fun d hd => ?_⟩
      rcases List.mem_append.mp hd with hd | hd
      · exact hafter d hd
      · exact List.mem_singleton.mp hd ▸ hpush
    · exact ⟨history, answer, [], rfl, hempty, by simp⟩

/-- The nodes hold what waits, and pops have gone past the last slot when the history says
so. -/
def Follows (history : List Call) (q : BLQueue) : Prop :=
  ∃ chain, q.Holds chain ∧ contents chain = history.foldl waiting [] ∧
    (Overrun chain ↔ PoppedEmpty history) ∧
    (contents chain).length + history.countP Call.isTaken = history.countP Call.isPush

private theorem follows_push {item : Value} {fails : Nat} {fresh : Ptr} (h : Follows history q)
    (hitem : item ≠ emptyValue) (hstep : step q (.push item fails fresh) = some q') :
    Follows (history ++ [Call.push item fails fresh]) q' := by
  obtain ⟨chain, hholds, hcontents, -, hcount⟩ := h
  simp only [step] at hstep
  split at hstep
  · rename_i hfresh
    obtain ⟨q₁, chain', hpush, hholds', hcontents', hover⟩ := hholds.push hitem fails hfresh
    obtain rfl : q₁ = q' := Option.some_inj.mp (hpush.symm.trans hstep)
    refine ⟨chain', hholds', ?_, ?_, ?_⟩
    · simp [hcontents', hcontents, waiting]
    · simp [poppedEmpty_snoc, hover, Call.isPush]
    · simp only [hcontents', List.length_append, List.length_singleton, List.countP_append,
        List.countP_singleton, Call.isTaken, Call.isPush]
      simp
      omega
  · cases hstep

private theorem step_pop {v answer : Value} {q₁ : BLQueue} (hpop : q.pop = some (v, q₁))
    (hstep : step q (.pop answer) = some q') : answer = v ∧ q' = q₁ := by
  simp only [step, hpop, Option.bind_eq_bind, Option.bind_some] at hstep
  split at hstep
  · rename_i hanswer
    exact ⟨hanswer.symm, (Option.some_inj.mp hstep).symm⟩
  · cases hstep

/-- What a pop answers is what has waited longest. -/
private theorem follows_pop {answer : Value} (h : Follows history q)
    (hstep : step q (.pop answer) = some q') :
    answer = (history.foldl waiting []).headD emptyValue ∧
      Follows (history ++ [Call.pop answer]) q' := by
  obtain ⟨chain, hholds, hcontents, hover, hcount⟩ := h
  have hwaiting : (history ++ [Call.pop answer]).foldl waiting [] =
      (history.foldl waiting []).tail := by
    rw [List.foldl_append]
    rfl
  rw [Follows, hwaiting, poppedEmpty_snoc, ← hcontents]
  cases hvalues : contents chain with
  | nil =>
      obtain ⟨q₁, chain', hpop, hholds', hcontents', hover'⟩ := hholds.pop_empty hvalues
      obtain ⟨rfl, rfl⟩ := step_pop hpop hstep
      refine ⟨rfl, chain', hholds', hcontents', by simp [hover'], ?_⟩
      simpa [hcontents', hvalues, Call.isTaken, Call.isPush] using hcount
  | cons v vs =>
      obtain ⟨q₁, chain', hpop, hholds', hcontents', hover'⟩ := hholds.pop_value hvalues
      obtain ⟨rfl, rfl⟩ := step_pop hpop hstep
      have hlegal : answer ≠ emptyValue := by
        obtain ⟨c, hc, hanswer⟩ := List.mem_flatMap.mp
          (show answer ∈ contents chain from hvalues ▸ List.mem_cons_self)
        exact (hholds.chained.nodes c hc).legal answer hanswer
      have hbefore : ¬ Overrun chain := by
        rintro ⟨c, rfl, hpast⟩
        have hnone := (hholds.chained.nodes c List.mem_cons_self).eq_nil hpast.le
        simp [contents, hnone] at hvalues
      refine ⟨rfl, chain', hholds', hcontents', ?_, ?_⟩
      · simp [hover', ← hover, hbefore]
      · rw [hvalues, List.length_cons] at hcount
        simp only [hcontents', List.countP_append, List.countP_singleton, Call.isTaken,
          Call.isPush, hlegal, ne_eq, not_false_eq_true, decide_true, if_true, Bool.false_eq_true,
          if_false]
        omega

private theorem follows_free {p : Ptr} (h : Follows history q)
    (hstep : step q (.free p) = some q') :
    Follows (history ++ [Call.free p]) q' := by
  obtain ⟨chain, ⟨hchained, hsettled⟩, hcontents, hover, hcount⟩ := h
  simp only [step] at hstep
  split at hstep
  · rename_i hp
    obtain rfl := Option.some_inj.mp hstep
    refine ⟨chain, ⟨hchained.free hp, hsettled⟩, ?_, ?_, ?_⟩
    · simpa [waiting] using hcontents
    · simpa [poppedEmpty_snoc, Call.isPush] using hover
    · simpa [Call.isTaken, Call.isPush] using hcount
  · cases hstep

private theorem follows_new (node : Ptr) : Follows [] (new node) := by
  refine ⟨_, holds_new node, rfl, ?_, rfl⟩
  constructor
  · rintro ⟨c, hc, hpast⟩
    obtain rfl : _ = c := (List.cons_eq_cons.mp hc).1
    exact absurd hpast (Nat.not_lt_zero bufferSize)
  · rintro ⟨before, answer, after, heq, -⟩
    simp at heq

private theorem run_follows {node : Ptr} (hlegal : ∀ call ∈ history, call.Legal)
    (hrun : run step (new node) history = some q) : Follows history q := by
  induction history using List.reverseRecOn generalizing q with
  | nil =>
      obtain rfl := Option.some_inj.mp hrun
      exact follows_new node
  | append_singleton history call ih =>
      obtain ⟨q₁, hbefore, hlast⟩ := run_append.mp hrun
      obtain ⟨q₂, hstep, hend⟩ := run_cons.mp hlast
      obtain rfl := Option.some_inj.mp hend
      have hfollows := ih (fun d hd => hlegal d (by simp [hd])) hbefore
      cases call with
      | push item fails fresh =>
          have hitem : Call.Legal (.push item fails fresh) := hlegal _ (by simp)
          exact follows_push hfollows hitem hstep
      | pop answer => exact (follows_pop hfollows hstep).2
      | free p => exact follows_free hfollows hstep

private theorem Holds.isEmpty_eq {chain : List Held} (h : q.Holds chain) :
    ∃ b, q.isEmpty = some b ∧ (b = true ↔ contents chain = [] ∧ ¬ Overrun chain) := by
  obtain ⟨hchained, hsettled⟩ := h
  cases chain with
  | nil => cases hchained.tail
  | cons c rest =>
      have hnode := hchained.nodes c List.mem_cons_self
      obtain ⟨next, hcell, hnext, -⟩ := hchained.rewrite_first hnode
      refine ⟨decide (c.node.pushIdx = c.node.popIdx ∧ next = none), ?_, ?_⟩
      · simp [isEmpty, hcell]
      rw [decide_eq_true_eq]
      cases rest with
      | cons d rest =>
          have hsome : contents (c :: d :: rest) ≠ [] := by
            have hd := (hchained.untouched d List.mem_cons_self).2
            simp [contents, hd]
          simp [hnext, hsome]
      | nil =>
          obtain ⟨hle, hcount⟩ := hsettled c (by simp)
          have hover : Overrun [c] ↔ bufferSize < c.node.popIdx := by
            simp [Overrun]
          have hcontents : contents [c] = [] ↔ c.values.length = 0 := by
            simp [contents]
          have hroom := hnode.room
          obtain rfl : next = none := hnext
          rw [hover, hcontents, and_iff_left rfl]
          omega

/-- After a history `BLQueue_is_empty` is right about the counts exactly when no pop has met
the empty queue since the last push. -/
theorem isEmpty_right_iff {node : Ptr} (hlegal : ∀ call ∈ history, call.Legal)
    (hrun : run step (new node) history = some q) :
    (∃ b, q.isEmpty = some b ∧
      (b = true ↔ history.countP Call.isPush = history.countP Call.isTaken)) ↔
      ¬ PoppedEmpty history := by
  obtain ⟨chain, hholds, -, hover, hcount⟩ := run_follows hlegal hrun
  obtain ⟨b, hempty, hb⟩ := hholds.isEmpty_eq
  have hcounts : history.countP Call.isPush = history.countP Call.isTaken ↔
      contents chain = [] := by
    rw [← List.length_eq_zero_iff]
    omega
  rw [← hover, hcounts]
  constructor
  · rintro ⟨b', hanswer, hb'⟩ hpast
    obtain rfl : b = b' := Option.some_inj.mp (hempty.symm.trans hanswer)
    obtain ⟨c, rfl, hc⟩ := id hpast
    have hnone := (hholds.chained.nodes c List.mem_cons_self).eq_nil hc.le
    have htrue := hb'.mpr (by simp [contents, hnone])
    exact (hb.mp htrue).2 hpast
  · intro hover
    exact ⟨b, hempty, by rw [hb, and_iff_left hover]⟩

/-- One value pushed and taken. -/
theorem isEmpty_right_pushPop :
    ∃ q, run step (new 0) [.push 5 0 1, .pop 5] = some q ∧
      ((∃ b, q.isEmpty = some b ∧
        (b = true ↔ List.countP Call.isPush [.push 5 0 1, .pop 5] =
          List.countP Call.isTaken [.push 5 0 1, .pop 5])) ↔
        ¬ PoppedEmpty [.push 5 0 1, .pop 5]) := by
  have hitem : (5 : Value) ≠ emptyValue := by decide
  have hfresh : (new 0).heap 1 = none := rfl
  obtain ⟨q₁, chain₁, hpush, hholds, hcontents, -⟩ := (holds_new 0).push hitem 0 hfresh
  obtain ⟨q, -, hpop, -⟩ := hholds.pop_value hcontents
  have hfirst : step (new 0) (.push 5 0 1) = some q₁ := by
    rw [step, if_pos hfresh, hpush]
  have hsecond : step q₁ (.pop 5) = some q := by
    simp only [step, hpop, Option.bind_eq_bind, Option.bind_some, if_true, Option.pure_def]
  have hrun : run step (new 0) [.push 5 0 1, .pop 5] = some q :=
    run_cons.mpr ⟨q₁, hfirst, run_cons.mpr ⟨q, hsecond, run_nil q⟩⟩
  refine ⟨q, hrun, isEmpty_right_iff (fun call hcall => ?_) hrun⟩
  rcases List.mem_cons.mp hcall with rfl | hcall
  · exact hitem
  · rw [List.mem_singleton.mp hcall]
    trivial

/-- A pop from a new queue finds nothing, and then the queue is not empty. -/
theorem popped_new_not_empty :
    ∃ q, run step (new 0) [.pop emptyValue] = some q ∧ q.isEmpty = some false ∧
      List.countP Call.isPush [.pop emptyValue] = List.countP Call.isTaken [.pop emptyValue] := by
  obtain ⟨q, chain, hpop, hholds, -, hover⟩ := (holds_new 0).pop_empty rfl
  obtain ⟨b, hempty, hb⟩ := hholds.isEmpty_eq
  obtain rfl : b = false := by
    rw [← Bool.not_eq_true, hb]
    exact fun h => h.2 hover
  refine ⟨q, ?_, hempty, rfl⟩
  simp [run, step, hpop]

end Histories

end BLQueue

end Mimuw.Queues
