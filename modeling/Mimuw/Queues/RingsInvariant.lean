import Mimuw.Lib.Segment
import Mimuw.Lib.Threads
import Mimuw.Queues.RingsQueue

/-!
# What holds between the steps of the queue of rings

The invariant over the chain of rings from `head` on, with what a thread may rely on
between two of its steps.
-/

namespace Mimuw.Queues

open Mimuw.Lib

namespace RingsQueue

/-! ## What a ring holds -/

/-- The places between the two counters. -/
def Node.contents (node : Node) : List (Option Value) :=
  (List.range' node.popIdx (node.pushIdx - node.popIdx)).map fun i => node.buffer (i % ringSize)

theorem mod_ringSize_ne {i j : Nat} (hij : i < j) (hj : j < i + ringSize) :
    i % ringSize ≠ j % ringSize := by
  intro heq
  have hdvd := (Nat.modEq_iff_dvd' hij.le).mp heq
  have hle := Nat.le_of_dvd (by omega) hdvd
  omega

section Ring

variable {node : Node} {item : Value}

theorem contents_of_eq (h : node.popIdx = node.pushIdx) : node.contents = [] := by
  simp [Node.contents, h]

/-- The place that is written is none of those in use. -/
theorem contents_write (h : node.pushIdx < node.popIdx + ringSize) :
    (node.write (node.pushIdx % ringSize) item).contents = node.contents := by
  refine List.map_congr_left fun i hi => Function.update_of_ne ?_ _ _
  have hrange : node.popIdx ≤ i ∧ i < node.popIdx + (node.pushIdx - node.popIdx) :=
    List.mem_range'_1.mp hi
  exact mod_ringSize_ne (by omega) (by omega)

theorem contents_push (h : node.popIdx ≤ node.pushIdx)
    (hitem : node.buffer (node.pushIdx % ringSize) = some item) :
    { node with pushIdx := node.pushIdx + 1 }.contents = node.contents ++ [some item] := by
  have hlength : node.pushIdx + 1 - node.popIdx = node.pushIdx - node.popIdx + 1 := by omega
  have hlast : node.popIdx + 1 * (node.pushIdx - node.popIdx) = node.pushIdx := by omega
  simp only [Node.contents, hlength, List.range'_concat, List.map_append, hlast, List.map_cons,
    List.map_nil, hitem]

theorem contents_pop (h : node.popIdx < node.pushIdx) :
    node.contents = node.buffer (node.popIdx % ringSize) ::
      { node with popIdx := node.popIdx + 1 }.contents := by
  have hlength : node.pushIdx - node.popIdx = node.pushIdx - (node.popIdx + 1) + 1 := by omega
  simp only [Node.contents, hlength, List.range'_succ, List.map_cons]

end Ring

/-! ## What holds between any two steps -/

def nextOf (heap : Heap Node) (p : Ptr) : Option Ptr := (heap p).bind Node.next

def contentsAt (heap : Heap Node) (p : Ptr) : List (Option Value) :=
  ((heap p).map Node.contents).getD []

def contents (heap : Heap Node) (chain : List Ptr) : List (Option Value) :=
  chain.flatMap (contentsAt heap)

/-- The ring a push has found full or not. -/
def Pc.tailNode : Pc → Option Ptr
  | pushLoadPop _ tailNode _ | pushWrite _ tailNode _ | pushAdd _ tailNode | pushNew _ tailNode
  | pushFirst _ tailNode _ | pushLink _ tailNode _ => some tailNode
  | _ => none

/-- A ring that no other thread can see, and what it is. -/
def Pc.newNode : Pc → Option (Ptr × Node)
  | pushFirst item _ newNode => some (newNode, Node.new.write 0 item)
  | pushLink item _ newNode => some (newNode, { Node.new.write 0 item with pushIdx := 1 })
  | _ => none

/-- The ring a pop looks into. -/
def Pc.headNode : Pc → Option Ptr
  | popLoadPop headNode _ | popLoadPush headNode _ _ | popHead headNode _ | popRead headNode _
  | popAdd headNode _ => some headNode
  | _ => none

def Pc.oldNode : Pc → Option Ptr
  | popFree headNode => some headNode
  | _ => none

/-- A pop has taken the item, and has not returned it yet. -/
def Pc.taken : Pc → List Value
  | popUnlock item => item.toList
  | _ => []

/-- Pops make room, and nothing else happens to the last ring while it is pushed to. -/
def PushKnows : Pc → Node → Prop
  | .pushLoadPop _ _ pushIdx, node => node.pushIdx = pushIdx
  | .pushWrite _ _ pushIdx, node => node.pushIdx = pushIdx ∧ pushIdx < node.popIdx + ringSize
  | .pushAdd item _, node =>
      node.pushIdx < node.popIdx + ringSize ∧ node.buffer (node.pushIdx % ringSize) = some item
  | _, _ => True

/-- The link was read before the counters: where there was one nothing is pushed any
more, and where there was none the ring was empty only if the queue was. -/
def LinkKnown (seen : Prop) (nextNode : Option Ptr) (node : Node) : Prop :=
  match nextNode with
  | some nextNode => node.next = some nextNode
  | none => seen ∨ node.popIdx < node.pushIdx

def PopKnows (seen : Prop) : Pc → Node → Prop
  | .popLoadPop _ nextNode, node => LinkKnown seen nextNode node
  | .popLoadPush _ nextNode popIdx, node => LinkKnown seen nextNode node ∧ node.popIdx = popIdx
  | .popHead _ nextNode, node => node.next = some nextNode ∧ node.popIdx = node.pushIdx
  | .popRead _ popIdx, node => node.popIdx = popIdx ∧ popIdx < node.pushIdx
  | .popAdd _ item, node =>
      node.popIdx < node.pushIdx ∧ node.buffer (node.popIdx % ringSize) = some item
  | _, _ => True

/-- What a thread may rely on, when the rings are `chain`; `seen` says that the queue
was empty since its call. -/
structure At (seen : Prop) (heap : Heap Node) (chain : List Ptr) (x : Pc) : Prop where
  pushing : ∀ p, x.tailNode = some p →
    chain.getLast? = some p ∧ ∃ node, heap p = some node ∧ PushKnows x node
  fresh : ∀ p node, x.newNode = some (p, node) → heap p = some node ∧ p ∉ chain
  linked : ∀ p, x = .pushTail p → chain.getLast? = some p
  popping : ∀ p, x.headNode = some p →
    chain.head? = some p ∧ ∃ node, heap p = some node ∧ PopKnows seen x node
  old : ∀ p, x.oldNode = some p → (heap p).isSome ∧ p ∉ chain
  empty : x = .popUnlock none → seen

structure Inv (seen : Tid → Prop) (q : RingsQueue) (chain : List Ptr) : Prop where
  segment : Segment (nextOf q.heap) chain
  nodup : chain.Nodup
  rings : ∀ p ∈ chain, ∃ node, q.heap p = some node ∧ node.popIdx ≤ node.pushIdx
  head : chain.head? = some q.head
  tail : (∀ t p, q.pc t ≠ .pushTail p) → chain.getLast? = some q.tail
  push : Owns Pc.InPush q.pc q.pushMtx
  pop : Owns Pc.InPop q.pc q.popMtx
  threads : ∀ t, At (seen t) q.heap chain (q.pc t)
  /-- a ring that is new is not the one that is freed -/
  apart : ∀ t u p node, (q.pc t).newNode = some (p, node) → (q.pc u).oldNode ≠ some p
  values : q.pushed.map some =
    (q.popped ++ inHand Pc.taken q.pc q.popMtx).map some ++ contents q.heap chain
  faultless : q.fault = false

section Frame

variable {seen : Prop} {heap heap' : Heap Node} {chain : List Ptr} {pc : Tid → Pc}
    {t : Tid} {x : Pc}
  {mtx : Option Tid} {p : Ptr} {node node' : Node}

theorem nextOf_of_eq (h : heap p = some node) : nextOf heap p = node.next := by
  rw [nextOf, h, Option.bind_some]

theorem contentsAt_of_eq (h : heap p = some node) : contentsAt heap p = node.contents := by
  rw [contentsAt, h]
  rfl

private theorem contents_congr (h : ∀ p ∈ chain, heap' p = heap p) :
    contents heap' chain = contents heap chain :=
  List.flatMap_congr fun p hp => congrArg
    (fun node => (Option.map Node.contents node).getD []) (h p hp)

theorem At.outside (hpush : ¬ x.InPush) (hpop : ¬ x.InPop) : At seen heap chain x := by
  cases x <;> first
    | exact absurd trivial hpush
    | exact absurd trivial hpop
    | exact ⟨nofun, nofun, nofun, nofun, nofun, nofun⟩

theorem At.congr (h : At seen heap chain x) (hchain : ∀ p ∈ chain, heap' p = heap p)
    (hnew : ∀ p node, x.newNode = some (p, node) → heap' p = heap p)
    (hold : ∀ p, x.oldNode = some p → heap' p = heap p) : At seen heap' chain x where
  pushing p hp := by
    obtain ⟨hlast, hnode⟩ := h.pushing p hp
    rw [hchain p (List.mem_of_getLast? hlast)]
    exact ⟨hlast, hnode⟩
  fresh p node hp := by
    rw [hnew p node hp]
    exact h.fresh p node hp
  linked := h.linked
  popping p hp := by
    obtain ⟨hhead, hnode⟩ := h.popping p hp
    rw [hchain p (List.mem_of_head? hhead)]
    exact ⟨hhead, hnode⟩
  old p hp := by
    rw [hold p hp]
    exact h.old p hp
  empty := h.empty

theorem At.store (h : At seen heap chain x) (hp : p ∈ chain) (hnode : heap p = some node)
    (hpush : PushKnows x node → PushKnows x node')
    (hpop : PopKnows seen x node → PopKnows seen x node') :
    At seen (Function.update heap p (some node')) chain x where
  pushing r hr := by
    obtain ⟨hlast, node₀, hnode₀, hknows⟩ := h.pushing r hr
    refine ⟨hlast, ?_⟩
    rcases eq_or_ne r p with rfl | hne
    · obtain rfl := Option.some.inj (hnode.symm.trans hnode₀)
      exact ⟨node', Function.update_self _ _ _, hpush hknows⟩
    · exact ⟨node₀, (Function.update_of_ne hne _ _).trans hnode₀, hknows⟩
  fresh r node₀ hr := by
    obtain ⟨hnode₀, hnotMem⟩ := h.fresh r node₀ hr
    have hne : r ≠ p := fun heq => hnotMem (heq ▸ hp)
    exact ⟨(Function.update_of_ne hne _ _).trans hnode₀, hnotMem⟩
  linked := h.linked
  popping r hr := by
    obtain ⟨hhead, node₀, hnode₀, hknows⟩ := h.popping r hr
    refine ⟨hhead, ?_⟩
    rcases eq_or_ne r p with rfl | hne
    · obtain rfl := Option.some.inj (hnode.symm.trans hnode₀)
      exact ⟨node', Function.update_self _ _ _, hpop hknows⟩
    · exact ⟨node₀, (Function.update_of_ne hne _ _).trans hnode₀, hknows⟩
  old r hr := by
    obtain ⟨hsome, hnotMem⟩ := h.old r hr
    have hne : r ≠ p := fun heq => hnotMem (heq ▸ hp)
    exact ⟨(congrArg Option.isSome (Function.update_of_ne hne _ _)).trans hsome, hnotMem⟩
  empty := h.empty

private theorem tailNode_inPush {x : Pc} {p : Ptr} (hx : x.tailNode = some p) : x.InPush := by
  cases x <;> trivial

theorem newNode_inPush {x : Pc} {p : Ptr} {node : Node} (hx : x.newNode = some (p, node)) :
    x.InPush := by
  cases x <;> trivial

theorem headNode_inPop {x : Pc} {p : Ptr} (hx : x.headNode = some p) : x.InPop := by
  cases x <;> trivial

theorem oldNode_inPop {x : Pc} {p : Ptr} (hx : x.oldNode = some p) : x.InPop := by
  cases x <;> trivial

theorem At.concat (h : At seen heap chain x) (hout : ¬ x.InPush) (hchain : chain ≠ [])
    (hold : x.oldNode ≠ some p) : At seen heap (chain ++ [p]) x where
  pushing r hr := absurd (tailNode_inPush hr) hout
  fresh r node hr := absurd (newNode_inPush hr) hout
  linked r hr := absurd (by rw [hr]; trivial) hout
  popping r hr := by
    obtain ⟨hhead, hnode⟩ := h.popping r hr
    exact ⟨(List.head?_append_of_ne_nil _ hchain).trans hhead, hnode⟩
  old r hr := by
    obtain ⟨hsome, hnotMem⟩ := h.old r hr
    refine ⟨hsome, fun hmem => ?_⟩
    rcases List.mem_append.mp hmem with hmem | hmem
    · exact hnotMem hmem
    · obtain rfl := List.mem_singleton.mp hmem
      exact hold hr
  empty := h.empty

/-- A pop notices nothing of a push to the last ring. -/
theorem PopKnows.push (h : PopKnows seen x node) (hlast : node.next = none)
    (hpop : node'.popIdx = node.popIdx) (hpush : node.pushIdx ≤ node'.pushIdx)
    (hbuffer : node.popIdx < node.pushIdx →
      node'.buffer (node.popIdx % ringSize) = node.buffer (node.popIdx % ringSize)) :
    PopKnows seen x node' := by
  have hlink : ∀ {nextNode}, LinkKnown seen nextNode node → LinkKnown seen nextNode node' := by
    intro nextNode hknown
    cases nextNode with
    | none => exact hknown.imp id fun hlt => by omega
    | some nextNode =>
        rw [LinkKnown, hlast] at hknown
        cases hknown
  cases x with
  | popLoadPop headNode nextNode => exact hlink h
  | popLoadPush headNode nextNode popIdx => exact ⟨hlink h.1, hpop.trans h.2⟩
  | popHead headNode nextNode =>
      have := h.1
      rw [hlast] at this
      cases this
  | popRead headNode popIdx => exact ⟨hpop.trans h.1, h.2.trans_le hpush⟩
  | popAdd headNode item =>
      refine ⟨by have := h.1; omega, ?_⟩
      rw [hpop, hbuffer h.1]
      exact h.2
  | _ => trivial

/-- A push notices nothing of a pop but more room. -/
theorem PushKnows.pop (h : PushKnows x node) :
    PushKnows x { node with popIdx := node.popIdx + 1 } := by
  cases x with
  | pushLoadPop item tailNode pushIdx => exact h
  | pushWrite item tailNode pushIdx => exact ⟨h.1, by have := h.2; simp only; omega⟩
  | pushAdd item tailNode => exact ⟨by have := h.1; simp only; omega, h.2⟩
  | _ => trivial

theorem contents_append (nodes nodes' : List Ptr) :
    contents heap (nodes ++ nodes') = contents heap nodes ++ contents heap nodes' :=
  List.flatMap_append

theorem contents_store_last {more : List (Option Value)} (hnodup : chain.Nodup)
    (hlast : chain.getLast? = some p) (hnode : heap p = some node)
    (hmore : node'.contents = node.contents ++ more) :
    contents (Function.update heap p (some node')) chain = contents heap chain ++ more := by
  obtain ⟨before, rfl⟩ := List.getLast?_eq_some_iff.mp hlast
  have hbefore : contents (Function.update heap p (some node')) before = contents heap before := by
    refine contents_congr fun r hr => Function.update_of_ne ?_ _ _
    rintro rfl
    exact (List.disjoint_of_nodup_append hnodup) hr List.mem_cons_self
  have hafter : contents (Function.update heap p (some node')) [p] = contents heap [p] ++ more := by
    simp only [contents, List.flatMap_cons, List.flatMap_nil, List.append_nil,
      contentsAt_of_eq (Function.update_self p (some node') heap), contentsAt_of_eq hnode, hmore]
  rw [contents_append, contents_append, hbefore, hafter, List.append_assoc]

theorem contents_store_head {rest : List Ptr} (hnodup : (p :: rest).Nodup) :
    contents (Function.update heap p (some node')) (p :: rest) =
      node'.contents ++ contents heap rest := by
  have hrest : contents (Function.update heap p (some node')) rest = contents heap rest := by
    refine contents_congr fun r hr => Function.update_of_ne ?_ _ _
    rintro rfl
    exact (List.nodup_cons.mp hnodup).1 hr
  rw [← hrest, ← contentsAt_of_eq (Function.update_self p (some node') heap)]
  rfl

end Frame

section Steps

variable {seen : Tid → Prop} {q q' : RingsQueue} {chain : List Ptr} {t : Tid} {fresh : Ptr}

theorem Inv.tail_update (h : q.Inv seen chain) {x : Pc} (hfrom : ∀ p, q.pc t ≠ .pushTail p)
    (hno : ∀ u p, Function.update q.pc t x u ≠ .pushTail p) : chain.getLast? = some q.tail :=
  h.tail (ne_of_update hfrom hno)

theorem Inv.apart_update (h : q.Inv seen chain) {x : Pc}
    (hnew : ∀ p node, x.newNode = some (p, node) → ∀ u, (q.pc u).oldNode ≠ some p)
    (hold : ∀ p, x.oldNode = some p → ∀ u node, (q.pc u).newNode ≠ some (p, node))
    (hx : x.newNode = none ∨ x.oldNode = none)
    (u v : Tid) (p : Ptr) (node : Node)
    (hu : (Function.update q.pc t x u).newNode = some (p, node)) :
    (Function.update q.pc t x v).oldNode ≠ some p := by
  intro hv
  rcases eq_or_ne u t with rfl | hut
  · rw [Function.update_self] at hu
    rcases eq_or_ne v u with rfl | hvu
    · rw [Function.update_self] at hv
      rcases hx with hx | hx
      · cases hx.symm.trans hu
      · cases hx.symm.trans hv
    · rw [Function.update_of_ne hvu] at hv
      exact hnew p node hu v hv
  · rw [Function.update_of_ne hut] at hu
    rcases eq_or_ne v t with rfl | hvt
    · rw [Function.update_self] at hv
      exact hold p hv u node hu
    · rw [Function.update_of_ne hvt] at hv
      exact h.apart u v p node hu hv

theorem Inv.move (h : q.Inv seen chain) {x : Pc} {popMtx pushMtx : Option Tid} {tail : Ptr}
    (hpush : Owns Pc.InPush (Function.update q.pc t x) pushMtx)
    (hpop : Owns Pc.InPop (Function.update q.pc t x) popMtx) (hat : At (seen t) q.heap chain x)
    (htaken : inHand Pc.taken (Function.update q.pc t x) popMtx = inHand Pc.taken q.pc q.popMtx)
    (htail : (∀ u p, Function.update q.pc t x u ≠ .pushTail p) → chain.getLast? = some tail)
    (hnew : x.newNode = none) (hold : x.oldNode = none) :
    ({ q with popMtx := popMtx, pushMtx := pushMtx, tail := tail }.goto t x).Inv seen chain where
  segment := h.segment
  nodup := h.nodup
  rings := h.rings
  head := h.head
  tail := htail
  push := hpush
  pop := hpop
  threads := (Function.forall_update_iff _ fun u pc => At (seen u) q.heap chain pc).mpr
    ⟨hat, fun u _ => h.threads u⟩
  apart := h.apart_update (fun p node hx => nomatch hnew.symm.trans hx)
    (fun p hx => nomatch hold.symm.trans hx) (.inl hnew)
  values := by
    change q.pushed.map some =
      (q.popped ++ inHand Pc.taken (Function.update q.pc t x) popMtx).map some ++ _
    rw [htaken]
    exact h.values
  faultless := h.faultless

theorem Inv.store (h : q.Inv seen chain) (pushed : List Value) {x : Pc} {p : Ptr}
    {node node' : Node}
    (hp : p ∈ chain) (hnode : q.heap p = some node)
    (hnext : node'.next = node.next) (hle : node'.popIdx ≤ node'.pushIdx)
    (hpush : x.InPush ↔ (q.pc t).InPush) (hpop : x.InPop ↔ (q.pc t).InPop)
    (hfrom : ∀ p, q.pc t ≠ .pushTail p)
    (hat : At (seen t) (Function.update q.heap p (some node')) chain x)
    (hothers : ∀ u, u ≠ t → (PushKnows (q.pc u) node → PushKnows (q.pc u) node') ∧
      (PopKnows (seen u) (q.pc u) node → PopKnows (seen u) (q.pc u) node'))
    (hnew : x.newNode = none) (hold : x.oldNode = none)
    (hvalues : pushed.map some =
      (q.popped ++ inHand Pc.taken (Function.update q.pc t x) q.popMtx).map some ++
        contents (Function.update q.heap p (some node')) chain) :
    ({ q.store p node' with pushed := pushed }.goto t x).Inv seen chain where
  segment := by
    refine h.segment.congr fun r _ => ?_
    rcases eq_or_ne r p with rfl | hne
    · rw [nextOf_of_eq hnode, ← hnext]
      exact nextOf_of_eq (Function.update_self _ _ _)
    · exact congrArg (Option.bind · Node.next) (Function.update_of_ne hne _ _)
  nodup := h.nodup
  rings r hr := by
    rcases eq_or_ne r p with rfl | hne
    · exact ⟨node', Function.update_self _ _ _, hle⟩
    · obtain ⟨node₀, hnode₀, hle₀⟩ := h.rings r hr
      exact ⟨node₀, (Function.update_of_ne hne _ _).trans hnode₀, hle₀⟩
  head := h.head
  tail := h.tail_update hfrom
  push := h.push.keep hpush
  pop := h.pop.keep hpop
  threads := (Function.forall_update_iff _ fun u pc => At (seen u) _ chain pc).mpr
    ⟨hat, fun u hu => (h.threads u).store hp hnode (hothers u hu).1 (hothers u hu).2⟩
  apart := h.apart_update (fun p node hx => nomatch hnew.symm.trans hx)
    (fun p hx => nomatch hold.symm.trans hx) (.inl hnew)
  values := hvalues
  faultless := h.faultless

theorem Inv.outPop (h : q.Inv seen chain) (ht : (q.pc t).InPop) {u : Tid} (hu : u ≠ t) :
    ¬ (q.pc u).InPop := fun hin => hu (h.pop.unique hin ht)

theorem Inv.outPush (h : q.Inv seen chain) (ht : (q.pc t).InPush) {u : Tid} (hu : u ≠ t) :
    ¬ (q.pc u).InPush := fun hin => hu (h.push.unique hin ht)

theorem pushKnows_of_out {x : Pc} (hx : ¬ x.InPush) (node : Node) : PushKnows x node := by
  cases x <;> first
    | exact absurd trivial hx
    | trivial

theorem popKnows_of_out {seen : Prop} {x : Pc} (hx : ¬ x.InPop) (node : Node) :
    PopKnows seen x node := by
  cases x <;> first
    | exact absurd trivial hx
    | trivial

theorem Inv.aside (h : q.Inv seen chain) {x : Pc} {p : Ptr} {new : Option Node} (hp : p ∉ chain)
    (hat : At (seen t) (Function.update q.heap p new) chain x)
    (hpush : x.InPush ↔ (q.pc t).InPush) (hpop : x.InPop ↔ (q.pc t).InPop)
    (hfrom : ∀ p, q.pc t ≠ .pushTail p) (htaken : x.taken = (q.pc t).taken)
    (hothers : ∀ u, u ≠ t → (∀ node, (q.pc u).newNode ≠ some (p, node)) ∧ (q.pc u).oldNode ≠ some p)
    (hnew : ∀ p node, x.newNode = some (p, node) → ∀ u, (q.pc u).oldNode ≠ some p)
    (hold : x.oldNode = none) :
    ({ q with heap := Function.update q.heap p new }.goto t x).Inv seen chain := by
  have hchain : ∀ r ∈ chain, Function.update q.heap p new r = q.heap r := by
    intro r hr
    refine Function.update_of_ne ?_ _ _
    rintro rfl
    exact hp hr
  constructor
  case segment => exact h.segment.congr fun r hr => congrArg (Option.bind · Node.next) (hchain r hr)
  case nodup => exact h.nodup
  case rings =>
    intro r hr
    obtain ⟨node, hnode, hle⟩ := h.rings r hr
    exact ⟨node, (hchain r hr).trans hnode, hle⟩
  case head => exact h.head
  case tail => exact h.tail_update hfrom
  case push => exact h.push.keep hpush
  case pop => exact h.pop.keep hpop
  case threads =>
    refine (Function.forall_update_iff _ fun u pc => At (seen u) _ chain pc).mpr
      ⟨hat, fun u hu => (h.threads u).congr hchain ?_ ?_⟩
    · intro r node hr
      refine Function.update_of_ne ?_ _ _
      rintro rfl
      exact (hothers u hu).1 node hr
    · intro r hr
      refine Function.update_of_ne ?_ _ _
      rintro rfl
      exact (hothers u hu).2 hr
  case apart => exact h.apart_update hnew (fun p hx => nomatch hold.symm.trans hx) (.inr hold)
  case values =>
    change q.pushed.map some =
      (q.popped ++ inHand Pc.taken (Function.update q.pc t x) q.popMtx).map some ++
        contents (Function.update q.heap p new) chain
    rw [inHand_update htaken, contents_congr hchain]
    exact h.values
  case faultless => exact h.faultless

/-- A step that only takes a thread on within its call. -/
theorem Inv.quiet (h : q.Inv seen chain) {x y : Pc} (hpc : q.pc t = y)
    (hpush : x.InPush ↔ y.InPush) (hpop : x.InPop ↔ y.InPop) (htaken : x.taken = y.taken)
    (hfrom : ∀ p, y ≠ .pushTail p) (hat : At (seen t) q.heap chain x) (hnew : x.newNode = none)
    (hold : x.oldNode = none) : (q.goto t x).Inv seen chain := by
  subst hpc
  exact h.move (h.push.keep hpush) (h.pop.keep hpop) hat (inHand_update htaken)
    (h.tail_update hfrom) hnew hold

end Steps

end RingsQueue

end Mimuw.Queues
