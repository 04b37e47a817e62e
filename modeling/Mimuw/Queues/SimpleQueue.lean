import Mimuw.Lib.Runs
import Mimuw.Lib.Segment
import Mimuw.Lib.Threads
import Mimuw.Queues.Memory

/-!
# The queue with two locks

`SimpleQueue`: pushes hold `tail_mtx`, pops hold `head_mtx`, and both may be at
the same node.  An access to a node that is not allocated is a fault.  The values
pushed are others than `EMPTY_VALUE`, which a pop returns when there is none.
-/

namespace Mimuw.Queues

open Mimuw.Lib

namespace SimpleQueue

structure Node where
  next : Option Ptr
  item : Value
  deriving DecidableEq

inductive Pc where
  | idle
  /-- `pthread_mutex_lock(&queue->tail_mtx)` -/
  | pushLock (item : Value)
  | pushNew (item : Value)
  /-- `atomic_store(&queue->tail->next, new_node)` -/
  | pushLink (item : Value) (newNode : Ptr)
  /-- `queue->tail = new_node` -/
  | pushTail (newNode : Ptr)
  | pushUnlock
  /-- `pthread_mutex_lock(&queue->head_mtx)` -/
  | popLock
  /-- `atomic_load(&queue->head->next)` -/
  | popNext
  /-- `pop_node->item` -/
  | popItem (headNode popNode : Ptr)
  /-- `queue->head = pop_node` -/
  | popHead (headNode popNode : Ptr) (item : Value)
  /-- `free(head_node)` -/
  | popFree (headNode : Ptr) (item : Value)
  /-- with the item, unless the queue was empty -/
  | popUnlock (item : Option Value)
  deriving DecidableEq

/-- Between `lock` and `unlock` of `tail_mtx`. -/
def Pc.InPush : Pc → Prop
  | pushNew _ | pushLink _ _ | pushTail _ | pushUnlock => True
  | _ => False

/-- Between `lock` and `unlock` of `head_mtx`. -/
def Pc.InPop : Pc → Prop
  | popNext | popItem _ _ | popHead _ _ _ | popFree _ _ | popUnlock _ => True
  | _ => False

end SimpleQueue

open SimpleQueue

structure SimpleQueue where
  heap : Heap Node
  head : Ptr
  tail : Ptr
  headMtx : Option Tid
  tailMtx : Option Tid
  pc : Tid → Pc
  /-- a node was accessed that is not allocated -/
  fault : Bool
  /-- what pushes linked in, in the order in which they held `tail_mtx` -/
  linked : List Value
  /-- what non-empty pops returned, in the order in which they held `head_mtx` -/
  popped : List Value

namespace SimpleQueue

/-- `SimpleQueue_new`, with its dummy node -/
def new (dummyNode : Ptr) : SimpleQueue where
  heap := Function.update (fun _ => none) dummyNode (some ⟨none, emptyValue⟩)
  head := dummyNode
  tail := dummyNode
  headMtx := none
  tailMtx := none
  pc _ := .idle
  fault := false
  linked := []
  popped := []

def goto (q : SimpleQueue) (t : Tid) (pc : Pc) : SimpleQueue :=
  { q with pc := Function.update q.pc t pc }

def access (q : SimpleQueue) (p : Ptr) (k : Node → SimpleQueue) : SimpleQueue :=
  match q.heap p with
  | some node => k node
  | none => { q with fault := true }

def advance (q : SimpleQueue) (t : Tid) (fresh : Ptr) : Option SimpleQueue :=
  match q.pc t with
  | .idle => none
  | .pushLock item =>
      if q.tailMtx = none then some ({ q with tailMtx := some t }.goto t (.pushNew item)) else none
  | .pushNew item =>
      if q.heap fresh = none then
        some ({ q with heap := Function.update q.heap fresh (some ⟨none, item⟩) }.goto t
          (.pushLink item fresh))
      else none
  | .pushLink item newNode =>
      some (q.access q.tail fun node =>
        { q with
          heap := Function.update q.heap q.tail (some { node with next := some newNode })
          linked := q.linked ++ [item] }.goto t (.pushTail newNode))
  | .pushTail newNode => some ({ q with tail := newNode }.goto t .pushUnlock)
  | .pushUnlock => some ({ q with tailMtx := none }.goto t .idle)
  | .popLock =>
      if q.headMtx = none then some ({ q with headMtx := some t }.goto t .popNext) else none
  | .popNext =>
      some (q.access q.head fun node =>
        match node.next with
        | none => q.goto t (.popUnlock none)
        | some popNode => q.goto t (.popItem q.head popNode))
  | .popItem headNode popNode =>
      some (q.access popNode fun node => q.goto t (.popHead headNode popNode node.item))
  | .popHead headNode popNode item =>
      some ({ q with head := popNode }.goto t (.popFree headNode item))
  | .popFree headNode item =>
      some (q.access headNode fun _ =>
        { q with heap := Function.update q.heap headNode none }.goto t (.popUnlock (some item)))
  | .popUnlock item =>
      some ({ q with headMtx := none, popped := q.popped ++ item.toList }.goto t .idle)

/-- After a fault anything may happen. -/
def step (q : SimpleQueue) (event : Event) : Option SimpleQueue :=
  if q.fault then none
  else
    match event with
    | .push t item => if q.pc t = .idle then some (q.goto t (.pushLock item)) else none
    | .pop t => if q.pc t = .idle then some (q.goto t .popLock) else none
    | .next t fresh => q.advance t fresh

/-! ## What holds between any two steps -/

def nextOf (heap : Heap Node) (p : Ptr) : Option Ptr := (heap p).bind Node.next

def items (heap : Heap Node) (nodes : List Ptr) : List Value :=
  nodes.filterMap fun p => (heap p).map Node.item

/-- A pop has taken the item, and has not returned it yet. -/
def Pc.taken : Pc → List Value
  | popFree _ item => [item]
  | popUnlock item => item.toList
  | _ => []

/-- What a thread may rely on, when the nodes from `head` on are `chain`. -/
def At (heap : Heap Node) (chain : List Ptr) : Pc → Prop
  | .pushLink item newNode => heap newNode = some ⟨none, item⟩ ∧ newNode ∉ chain
  | .pushTail newNode => chain.getLast? = some newNode
  | .popItem headNode popNode => ∃ rest, chain = headNode :: popNode :: rest
  | .popHead headNode popNode item =>
      (∃ rest, chain = headNode :: popNode :: rest) ∧ (heap popNode).map Node.item = some item
  | .popFree headNode _ => (heap headNode).isSome ∧ headNode ∉ chain
  | _ => True

/-- A node that is new is not the one that is freed. -/
def Apart (pc : Tid → Pc) : Prop :=
  ∀ t u item p item', pc t = .pushLink item p → pc u ≠ .popFree p item'

structure Inv (q : SimpleQueue) (chain : List Ptr) : Prop where
  segment : Segment (nextOf q.heap) chain
  nodup : chain.Nodup
  allocated : ∀ p ∈ chain, (q.heap p).isSome
  head : chain.head? = some q.head
  /-- between the link and the store, `tail` names the node before the last -/
  tail : (∀ t p, q.pc t ≠ .pushTail p) → chain.getLast? = some q.tail
  push : Owns Pc.InPush q.pc q.tailMtx
  pop : Owns Pc.InPop q.pc q.headMtx
  threads : ∀ t, At q.heap chain (q.pc t)
  apart : Apart q.pc
  values : q.linked = q.popped ++ inHand Pc.taken q.pc q.headMtx ++ items q.heap chain.tail
  faultless : q.fault = false

section Frame

variable {heap heap' : Heap Node} {chain : List Ptr} {pc : Tid → Pc} {t : Tid} {x : Pc}
  {mtx : Option Tid}

theorem nextOf_of_eq {p : Ptr} {node : Node} (h : heap p = some node) :
    nextOf heap p = node.next := by
  rw [nextOf, h, Option.bind_some]

theorem items_congr (h : ∀ p ∈ chain, (heap' p).map Node.item = (heap p).map Node.item) :
    items heap' chain = items heap chain :=
  List.filterMap_congr h

theorem At.congr (h : At heap chain x) (hchain : ∀ p ∈ chain, heap' p = heap p)
    (hnew : ∀ item p, x = .pushLink item p → heap' p = heap p)
    (hold : ∀ p item, x = .popFree p item → heap' p = heap p) : At heap' chain x := by
  cases x with
  | pushLink item p =>
      change heap' p = _ ∧ _
      rw [hnew item p rfl]
      exact h
  | popHead headNode popNode item =>
      obtain ⟨⟨rest, rfl⟩, hitem⟩ := h
      refine ⟨⟨rest, rfl⟩, ?_⟩
      rw [hchain popNode (by simp)]
      exact hitem
  | popFree p item =>
      change (heap' p).isSome ∧ _
      rw [hold p item rfl]
      exact h
  | _ => exact h

theorem Apart.update (h : Apart pc)
    (hnew : ∀ item p, x = .pushLink item p → ∀ u item', pc u ≠ .popFree p item')
    (hold : ∀ p item', x = .popFree p item' → ∀ u item, pc u ≠ .pushLink item p) :
    Apart (Function.update pc t x) := by
  intro u v item p item' hu hv
  rcases eq_or_ne u t with rfl | hut
  · rw [Function.update_self] at hu
    rcases eq_or_ne v u with rfl | hvu
    · rw [Function.update_self, hu] at hv
      cases hv
    · rw [Function.update_of_ne hvu] at hv
      exact hnew item p hu v item' hv
  · rw [Function.update_of_ne hut] at hu
    rcases eq_or_ne v t with rfl | hvt
    · rw [Function.update_self] at hv
      exact hold p item' hv u item hu
    · rw [Function.update_of_ne hvt] at hv
      exact h u v item p item' hu hv

end Frame

section Steps

variable {q q' : SimpleQueue} {chain : List Ptr} {t : Tid} {fresh : Ptr}

theorem Inv.tail_update (h : q.Inv chain) {x : Pc} (hfrom : ∀ p, q.pc t ≠ .pushTail p)
    (hno : ∀ u p, Function.update q.pc t x u ≠ .pushTail p) : chain.getLast? = some q.tail :=
  h.tail (ne_of_update hfrom hno)

private theorem Inv.tail_inPush (h : q.Inv chain) (ht : (q.pc t).InPush)
    (hfrom : ∀ p, q.pc t ≠ .pushTail p) : chain.getLast? = some q.tail :=
  h.tail (h.push.ne_of_inside (fun _ => trivial) ht hfrom)

theorem Inv.move (h : q.Inv chain) {x : Pc} {headMtx tailMtx : Option Tid} {tail : Ptr}
    (hpush : Owns Pc.InPush (Function.update q.pc t x) tailMtx)
    (hpop : Owns Pc.InPop (Function.update q.pc t x) headMtx) (hat : At q.heap chain x)
    (htaken : inHand Pc.taken (Function.update q.pc t x) headMtx = inHand Pc.taken q.pc q.headMtx)
    (htail : (∀ u p, Function.update q.pc t x u ≠ .pushTail p) → chain.getLast? = some tail)
    (hnew : ∀ item p, x ≠ .pushLink item p) (hold : ∀ p item, x ≠ .popFree p item) :
    ({ q with headMtx := headMtx, tailMtx := tailMtx, tail := tail }.goto t x).Inv chain where
  segment := h.segment
  nodup := h.nodup
  allocated := h.allocated
  head := h.head
  tail := htail
  push := hpush
  pop := hpop
  threads := (Function.forall_update_iff _ fun _ pc => At q.heap chain pc).mpr
    ⟨hat, fun u _ => h.threads u⟩
  apart := h.apart.update (fun item p hx => absurd hx (hnew item p))
    fun p item hx => absurd hx (hold p item)
  values := by
    change q.linked = q.popped ++ inHand Pc.taken (Function.update q.pc t x) headMtx ++ _
    rw [htaken]
    exact h.values
  faultless := h.faultless

theorem Inv.quiet (h : q.Inv chain) {x y : Pc} (hpc : q.pc t = y) (hpush : x.InPush ↔ y.InPush)
    (hpop : x.InPop ↔ y.InPop) (htaken : x.taken = y.taken) (hfrom : ∀ p, y ≠ .pushTail p)
    (hat : At q.heap chain x) (hnew : ∀ item p, x ≠ .pushLink item p)
    (hold : ∀ p item, x ≠ .popFree p item) : (q.goto t x).Inv chain := by
  subst hpc
  exact h.move (h.push.keep hpush) (h.pop.keep hpop) hat (inHand_update htaken)
    (h.tail_update hfrom) hnew hold

theorem Inv.pushNew (h : q.Inv chain) {item : Value} (hpc : q.pc t = .pushNew item)
    (hfresh : q.heap fresh = none) :
    ({ q with heap := Function.update q.heap fresh (some ⟨none, item⟩) }.goto t
      (.pushLink item fresh)).Inv chain := by
  have hchain : ∀ p ∈ chain, Function.update q.heap fresh (some ⟨none, item⟩) p = q.heap p := by
    intro p hp
    refine Function.update_of_ne ?_ _ _
    rintro rfl
    simpa [hfresh] using h.allocated p hp
  have hnotMem : fresh ∉ chain := fun hp => by simpa [hfresh] using h.allocated fresh hp
  have hused : ∀ {p node}, q.heap p = some node → p ≠ fresh := by
    rintro p node hp rfl
    simp [hfresh] at hp
  constructor
  case segment => exact h.segment.congr fun p hp => congrArg (Option.bind · Node.next) (hchain p hp)
  case nodup => exact h.nodup
  case allocated =>
    exact fun p hp => (congrArg Option.isSome (hchain p hp)).trans (h.allocated p hp)
  case head => exact h.head
  case tail => exact h.tail_update (by simp [hpc])
  case push => exact h.push.keep (by rw [hpc]; exact Iff.rfl)
  case pop => exact h.pop.keep (by rw [hpc]; exact Iff.rfl)
  case threads =>
    refine (Function.forall_update_iff _ fun _ pc => At _ chain pc).mpr
      ⟨⟨Function.update_self _ _ _, hnotMem⟩, fun u hu => (h.threads u).congr hchain ?_ ?_⟩
    · intro item' p hpc'
      have hat := h.threads u
      rw [hpc'] at hat
      exact Function.update_of_ne (hused hat.1) _ _
    · intro p item' hpc'
      have hat := h.threads u
      rw [hpc'] at hat
      obtain ⟨node, hnode⟩ := Option.isSome_iff_exists.mp hat.1
      exact Function.update_of_ne (hused hnode) _ _
  case apart =>
    refine h.apart.update ?_ (fun p item' hx => by cases hx)
    rintro item' p hx u item'' hpc'
    cases hx
    have hat := h.threads u
    rw [hpc', At, hfresh] at hat
    cases hat.1
  case values =>
    change q.linked = q.popped ++ inHand Pc.taken (Function.update q.pc t _) q.headMtx ++ _
    rw [inHand_update (by rw [hpc]; rfl), h.values]
    congr 1
    exact (items_congr fun p hp =>
      congrArg (Option.map Node.item) (hchain p (List.mem_of_mem_tail hp))).symm
  case faultless => exact h.faultless

theorem Inv.pushLink (h : q.Inv chain) {item : Value} {newNode : Ptr} {node : Node}
    (hpc : q.pc t = .pushLink item newNode) (hnode : q.heap q.tail = some node) :
    ({ q with
        heap := Function.update q.heap q.tail (some { node with next := some newNode })
        linked := q.linked ++ [item] }.goto t (.pushTail newNode)).Inv (chain ++ [newNode]) := by
  have hlast := h.tail_inPush (t := t) (by rw [hpc]; trivial) (by simp [hpc])
  have hat := h.threads t
  rw [hpc] at hat
  obtain ⟨hnew, hnotMem⟩ := hat
  have htail : q.tail ∈ chain := List.mem_of_getLast? hlast
  have hne : newNode ≠ q.tail := fun heq => hnotMem (heq ▸ htail)
  have hother : ∀ {p}, p ≠ q.tail →
      Function.update q.heap q.tail (some { node with next := some newNode }) p = q.heap p :=
    fun hp => Function.update_of_ne hp _ _
  have hitem : ∀ p, (Function.update q.heap q.tail (some { node with next := some newNode }) p).map
      Node.item = (q.heap p).map Node.item := by
    intro p
    rcases eq_or_ne p q.tail with rfl | hp
    · rw [Function.update_self, hnode]
      rfl
    · rw [hother hp]
  have hsome : ∀ {p}, (q.heap p).isSome →
      (Function.update q.heap q.tail (some { node with next := some newNode }) p).isSome := by
    intro p hp
    rw [← Option.isSome_map, hitem, Option.isSome_map]
    exact hp
  have hchain : chain ≠ [] := List.ne_nil_of_mem htail
  constructor
  case segment =>
    refine h.segment.concat h.nodup hlast ?_ ?_ fun p _ hp => ?_
    · exact nextOf_of_eq (Function.update_self _ _ _)
    · exact nextOf_of_eq ((hother hne).trans hnew)
    · exact congrArg (Option.bind · Node.next) (hother hp)
  case nodup => exact List.concat_eq_append ▸ h.nodup.concat hnotMem
  case allocated =>
    intro p hp
    rcases List.mem_append.mp hp with hp | hp
    · exact hsome (h.allocated p hp)
    · obtain rfl := List.mem_singleton.mp hp
      exact hsome (by rw [hnew]; rfl)
  case head => exact (List.head?_append_of_ne_nil _ hchain).trans h.head
  case tail => exact fun hno => absurd (Function.update_self _ _ _) (hno t newNode)
  case push => exact h.push.keep (by rw [hpc]; exact Iff.rfl)
  case pop => exact h.pop.keep (by rw [hpc]; exact Iff.rfl)
  case threads =>
    refine (Function.forall_update_iff _ fun _ pc => At _ (chain ++ [newNode]) pc).mpr
      ⟨List.getLast?_concat, fun u hu => ?_⟩
    have hatu := h.threads u
    have hinPush : ¬ (q.pc u).InPush := fun hin =>
      hu (h.push.unique hin (by rw [hpc]; trivial))
    cases hpcu : q.pc u with
    | pushLink item' p => exact absurd (by rw [hpcu]; trivial) hinPush
    | pushTail p => exact absurd (by rw [hpcu]; trivial) hinPush
    | popItem headNode popNode =>
        rw [hpcu] at hatu
        obtain ⟨rest, rfl⟩ := hatu
        exact ⟨rest ++ [newNode], rfl⟩
    | popHead headNode popNode item' =>
        rw [hpcu] at hatu
        obtain ⟨⟨rest, rfl⟩, hitem'⟩ := hatu
        exact ⟨⟨rest ++ [newNode], rfl⟩, (hitem popNode).trans hitem'⟩
    | popFree headNode item' =>
        rw [hpcu] at hatu
        refine ⟨hsome hatu.1, fun hmem => ?_⟩
        rcases List.mem_append.mp hmem with hmem | hmem
        · exact hatu.2 hmem
        · obtain rfl := List.mem_singleton.mp hmem
          exact h.apart t u item headNode item' hpc hpcu
    | _ => trivial
  case apart => exact h.apart.update (fun _ _ hx => by cases hx) fun _ _ hx => by cases hx
  case values =>
    change q.linked ++ [item] =
      q.popped ++ inHand Pc.taken (Function.update q.pc t _) q.headMtx ++ _
    rw [inHand_update (by rw [hpc]; rfl), h.values, List.tail_append_of_ne_nil hchain]
    have hlinked : items (Function.update q.heap q.tail (some { node with next := some newNode }))
        (chain.tail ++ [newNode]) = items q.heap chain.tail ++ [item] := by
      rw [items, List.filterMap_append]
      congr 1
      · exact items_congr fun p _ => hitem p
      · simp [hitem, hnew]
    exact (List.append_assoc _ _ _).trans (congrArg _ hlinked.symm)
  case faultless => exact h.faultless

theorem Inv.popHead (h : q.Inv chain) {headNode popNode : Ptr} {item : Value}
    (hpc : q.pc t = .popHead headNode popNode item) :
    ({ q with head := popNode }.goto t (.popFree headNode item)).Inv chain.tail := by
  have hat := h.threads t
  rw [hpc] at hat
  obtain ⟨⟨rest, rfl⟩, hitem⟩ := hat
  obtain ⟨hnotMem, hnodup⟩ := List.nodup_cons.mp h.nodup
  have hmtx : q.headMtx = some t := (h.pop t).mp (by rw [hpc]; trivial)
  have hlast : (headNode :: popNode :: rest).getLast? = (popNode :: rest).getLast? :=
    List.getLast?_cons_cons
  constructor
  case segment => exact h.segment.tail
  case nodup => exact hnodup
  case allocated => exact fun p hp => h.allocated p (List.mem_cons_of_mem _ hp)
  case head => rfl
  case tail => exact fun hno => hlast ▸ h.tail_update (by simp [hpc]) hno
  case push => exact h.push.keep (by rw [hpc]; exact Iff.rfl)
  case pop => exact h.pop.keep (by rw [hpc]; exact Iff.rfl)
  case threads =>
    refine (Function.forall_update_iff _ fun _ pc => At _ (popNode :: rest) pc).mpr
      ⟨⟨h.allocated headNode List.mem_cons_self, hnotMem⟩, fun u hu => ?_⟩
    have hatu := h.threads u
    have hinPop : ¬ (q.pc u).InPop := fun hin => hu (h.pop.unique hin (by rw [hpc]; trivial))
    cases hpcu : q.pc u with
    | pushLink item' p =>
        rw [hpcu] at hatu
        exact ⟨hatu.1, fun hmem => hatu.2 (List.mem_cons_of_mem _ hmem)⟩
    | pushTail p =>
        rw [hpcu] at hatu
        exact hlast.symm.trans hatu
    | popItem _ _ => exact absurd (by rw [hpcu]; trivial) hinPop
    | popHead _ _ _ => exact absurd (by rw [hpcu]; trivial) hinPop
    | popFree _ _ => exact absurd (by rw [hpcu]; trivial) hinPop
    | _ => trivial
  case apart =>
    refine h.apart.update (fun _ _ hx => by cases hx) ?_
    rintro p item' hx u item'' hpcu
    cases hx
    have hatu := h.threads u
    rw [hpcu] at hatu
    exact hatu.2 List.mem_cons_self
  case values =>
    have hbefore : inHand Pc.taken q.pc q.headMtx = [] := by
      rw [hmtx, inHand, hpc]
      rfl
    have hafter : inHand Pc.taken (Function.update q.pc t (.popFree headNode item)) q.headMtx =
        [item] := by
      rw [hmtx, inHand, Function.update_self]
      rfl
    have hitems : items q.heap (popNode :: rest) = item :: items q.heap rest :=
      List.filterMap_cons_some hitem
    have hvalues := h.values
    rw [hbefore, List.tail_cons, hitems] at hvalues
    change q.linked =
      q.popped ++ inHand Pc.taken (Function.update q.pc t _) q.headMtx ++ items q.heap rest
    rw [hafter, hvalues, List.append_nil, List.append_assoc]
    rfl
  case faultless => exact h.faultless

theorem Inv.popFree (h : q.Inv chain) {headNode : Ptr} {item : Value}
    (hpc : q.pc t = .popFree headNode item) :
    ({ q with heap := Function.update q.heap headNode none }.goto t
      (.popUnlock (some item))).Inv chain := by
  have hat := h.threads t
  rw [hpc] at hat
  obtain ⟨-, hnotMem⟩ := hat
  have hchain : ∀ p ∈ chain, Function.update q.heap headNode none p = q.heap p := by
    intro p hp
    refine Function.update_of_ne ?_ _ _
    rintro rfl
    exact hnotMem hp
  constructor
  case segment => exact h.segment.congr fun p hp => congrArg (Option.bind · Node.next) (hchain p hp)
  case nodup => exact h.nodup
  case allocated =>
    exact fun p hp => (congrArg Option.isSome (hchain p hp)).trans (h.allocated p hp)
  case head => exact h.head
  case tail => exact h.tail_update (by simp [hpc])
  case push => exact h.push.keep (by rw [hpc]; exact Iff.rfl)
  case pop => exact h.pop.keep (by rw [hpc]; exact Iff.rfl)
  case threads =>
    refine (Function.forall_update_iff _ fun _ pc => At _ chain pc).mpr
      ⟨trivial, fun u hu => (h.threads u).congr hchain ?_ ?_⟩
    · rintro item' p hpcu
      refine Function.update_of_ne ?_ _ _
      rintro rfl
      exact h.apart u t item' p item hpcu hpc
    · rintro p item' hpcu
      exact absurd (h.pop.unique (by rw [hpcu]; trivial) (by rw [hpc]; trivial)) hu
  case apart => exact h.apart.update (fun _ _ hx => by cases hx) fun _ _ hx => by cases hx
  case values =>
    change q.linked = q.popped ++ inHand Pc.taken (Function.update q.pc t _) q.headMtx ++ _
    rw [inHand_update (by rw [hpc]; rfl), h.values]
    congr 1
    exact (items_congr fun p hp =>
      congrArg (Option.map Node.item) (hchain p (List.mem_of_mem_tail hp))).symm
  case faultless => exact h.faultless

theorem Inv.popUnlock (h : q.Inv chain) {item : Option Value} (hpc : q.pc t = .popUnlock item) :
    ({ q with headMtx := none, popped := q.popped ++ item.toList }.goto t .idle).Inv chain where
  segment := h.segment
  nodup := h.nodup
  allocated := h.allocated
  head := h.head
  tail := h.tail_update (by simp [hpc])
  push := h.push.keep (by rw [hpc]; exact Iff.rfl)
  pop := h.pop.unlock (by rw [hpc]; trivial) (by exact id)
  threads := (Function.forall_update_iff _ fun _ pc => At q.heap chain pc).mpr
    ⟨trivial, fun u _ => h.threads u⟩
  apart := h.apart.update (fun _ _ hx => by cases hx) fun _ _ hx => by cases hx
  values := by
    have hmtx : q.headMtx = some t := (h.pop t).mp (by rw [hpc]; trivial)
    have htaken : inHand Pc.taken q.pc q.headMtx = item.toList := by
      rw [hmtx, inHand, hpc]
      rfl
    rw [goto, h.values, htaken]
    simp [inHand]
  faultless := h.faultless

/-! ## Every step -/

theorem Inv.advance (h : q.Inv chain) (hstep : q.advance t fresh = some q') :
    ∃ chain', q'.Inv chain' := by
  unfold SimpleQueue.advance at hstep
  cases hpc : q.pc t with
  | idle => simp [hpc] at hstep
  | pushLock item =>
      simp only [hpc, Option.ite_none_right_eq_some, Option.some.injEq] at hstep
      obtain ⟨hfree, rfl⟩ := hstep
      have hpush := h.push
      rw [hfree] at hpush
      exact ⟨chain, h.move (hpush.lock trivial) (h.pop.keep (by rw [hpc]; exact Iff.rfl)) trivial
        (inHand_update (by rw [hpc]; rfl)) (h.tail_update (by simp [hpc])) (by simp) (by simp)⟩
  | pushNew item =>
      simp only [hpc, Option.ite_none_right_eq_some, Option.some.injEq] at hstep
      obtain ⟨hfresh, rfl⟩ := hstep
      exact ⟨chain, h.pushNew hpc hfresh⟩
  | pushLink item newNode =>
      have hlast := h.tail_inPush (t := t) (by rw [hpc]; trivial) (by simp [hpc])
      obtain ⟨node, hnode⟩ := Option.isSome_iff_exists.mp
        (h.allocated q.tail (List.mem_of_getLast? hlast))
      simp only [hpc, access, hnode, Option.some.injEq] at hstep
      subst hstep
      exact ⟨chain ++ [newNode], h.pushLink hpc hnode⟩
  | pushTail newNode =>
      simp only [hpc, Option.some.injEq] at hstep
      subst hstep
      have hat := h.threads t
      rw [hpc] at hat
      exact ⟨chain, h.move (h.push.keep (by rw [hpc]; exact Iff.rfl))
        (h.pop.keep (by rw [hpc]; exact Iff.rfl)) trivial (inHand_update (by rw [hpc]; rfl))
        (fun _ => hat) (by simp) (by simp)⟩
  | pushUnlock =>
      simp only [hpc, Option.some.injEq] at hstep
      subst hstep
      exact ⟨chain, h.move (h.push.unlock (by rw [hpc]; trivial) id)
        (h.pop.keep (by rw [hpc]; exact Iff.rfl)) trivial (inHand_update (by rw [hpc]; rfl))
        (h.tail_update (by simp [hpc])) (by simp) (by simp)⟩
  | popLock =>
      simp only [hpc, Option.ite_none_right_eq_some, Option.some.injEq] at hstep
      obtain ⟨hfree, rfl⟩ := hstep
      have hpop := h.pop
      rw [hfree] at hpop
      refine ⟨chain, h.move (h.push.keep (by rw [hpc]; exact Iff.rfl))
        (hpop.lock trivial) trivial ?_
        (h.tail_update (by simp [hpc])) (by simp) (by simp)⟩
      rw [hfree, inHand, Function.update_self]
      rfl
  | popNext =>
      have hhead : ∃ rest, chain = q.head :: rest := by
        obtain ⟨rest, hrest⟩ := List.head?_eq_some_iff.mp h.head
        exact ⟨rest, hrest⟩
      obtain ⟨rest, rfl⟩ := hhead
      obtain ⟨node, hnode⟩ := Option.isSome_iff_exists.mp (h.allocated q.head List.mem_cons_self)
      have hnext : node.next = rest.head? := (nextOf_of_eq hnode).symm.trans h.segment.next_head
      simp only [hpc, access, hnode, Option.some.injEq] at hstep
      cases hnode' : node.next with
      | none =>
          rw [hnode'] at hstep
          subst hstep
          exact ⟨_, h.quiet hpc Iff.rfl Iff.rfl rfl (by simp) trivial (by simp) (by simp)⟩
      | some popNode =>
          rw [hnode'] at hstep hnext
          subst hstep
          obtain ⟨rest', rfl⟩ := List.head?_eq_some_iff.mp hnext.symm
          exact ⟨_, h.quiet hpc Iff.rfl Iff.rfl rfl (by simp) ⟨rest', rfl⟩ (by simp) (by simp)⟩
  | popItem headNode popNode =>
      have hat := h.threads t
      rw [hpc] at hat
      obtain ⟨rest, rfl⟩ := hat
      obtain ⟨node, hnode⟩ := Option.isSome_iff_exists.mp (h.allocated popNode (by simp))
      simp only [hpc, access, hnode, Option.some.injEq] at hstep
      subst hstep
      exact ⟨_, h.quiet hpc Iff.rfl Iff.rfl rfl (by simp) ⟨⟨rest, rfl⟩, by rw [hnode]; rfl⟩
        (by simp) (by simp)⟩
  | popHead headNode popNode item =>
      simp only [hpc, Option.some.injEq] at hstep
      subst hstep
      exact ⟨chain.tail, h.popHead hpc⟩
  | popFree headNode item =>
      have hat := h.threads t
      rw [hpc] at hat
      obtain ⟨node, hnode⟩ := Option.isSome_iff_exists.mp hat.1
      simp only [hpc, access, hnode, Option.some.injEq] at hstep
      subst hstep
      exact ⟨chain, h.popFree hpc⟩
  | popUnlock item =>
      simp only [hpc, Option.some.injEq] at hstep
      subst hstep
      exact ⟨chain, h.popUnlock hpc⟩

theorem inv_step {event : Event} (h : ∃ chain, q.Inv chain) (hstep : q.step event = some q') :
    ∃ chain, q'.Inv chain := by
  obtain ⟨chain, h⟩ := h
  unfold step at hstep
  rw [h.faultless] at hstep
  cases event with
  | push t item =>
      simp only [Bool.false_eq_true, if_false, Option.ite_none_right_eq_some,
        Option.some.injEq] at hstep
      obtain ⟨hpc, rfl⟩ := hstep
      exact ⟨chain, h.quiet hpc Iff.rfl Iff.rfl rfl (by simp) trivial (by simp) (by simp)⟩
  | pop t =>
      simp only [Bool.false_eq_true, if_false, Option.ite_none_right_eq_some,
        Option.some.injEq] at hstep
      obtain ⟨hpc, rfl⟩ := hstep
      exact ⟨chain, h.quiet hpc Iff.rfl Iff.rfl rfl (by simp) trivial (by simp) (by simp)⟩
  | next t fresh => exact h.advance hstep

theorem inv_new (dummyNode : Ptr) : (new dummyNode).Inv [dummyNode] where
  segment := by simp [Segment, nextOf, new]
  nodup := List.nodup_singleton _
  allocated p hp := by
    obtain rfl := List.mem_singleton.mp hp
    simp [new]
  head := rfl
  tail _ := rfl
  push _ := ⟨False.elim, nofun⟩
  pop _ := ⟨False.elim, nofun⟩
  threads _ := trivial
  apart _ _ _ _ _ := nofun
  values := rfl
  faultless := rfl

end Steps

/-- What pops return is what pushes have linked in, from the first on, and no node is
used after it was freed. -/
theorem popped_prefix_linked (dummyNode : Ptr) (events : List Event) (q : SimpleQueue)
    (hrun : run step (new dummyNode) events = some q) :
    q.popped <+: q.linked ∧ q.fault = false := by
  obtain ⟨chain, h⟩ := run_invariant (I := fun q => ∃ chain, q.Inv chain)
    (fun _ _ _ => inv_step) ⟨_, inv_new dummyNode⟩ hrun
  rw [h.values, List.append_assoc]
  exact ⟨List.prefix_append _ _, h.faultless⟩

/-- One thread pushes while another pops. -/
theorem popped_prefix_linked_overlap :
    ∃ q, run step (new 1) ([Event.push 0 5, .pop 1] ++ List.replicate 3 (Event.next 0 2) ++
        List.replicate 6 (Event.next 1 0) ++ List.replicate 2 (Event.next 0 0)) = some q ∧
      q.popped <+: q.linked ∧ q.fault = false := by
  have hsome : (run step (new 1) ([Event.push 0 5, .pop 1] ++ List.replicate 3 (Event.next 0 2) ++
      List.replicate 6 (Event.next 1 0) ++
        List.replicate 2 (Event.next 0 0))).isSome := by decide +kernel
  obtain ⟨q, hq⟩ := Option.isSome_iff_exists.mp hsome
  exact ⟨q, hq, popped_prefix_linked 1 _ q hq⟩

end SimpleQueue

end Mimuw.Queues
