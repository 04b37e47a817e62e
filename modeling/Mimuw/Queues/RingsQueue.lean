import Mimuw.Queues.Memory

/-!
# The queue of rings

`RingsQueue`: a list of rings.  Pushes hold `push_mtx` and fill the last ring, pops
hold `pop_mtx` and empty the first; a full ring is left for a new one.  Of a ring
both read the counters of the other.  The values pushed are others than
`EMPTY_VALUE`, which a pop returns when there is none.
-/

namespace Mimuw.Queues

namespace RingsQueue

def ringSize : Nat := 1024

/-- The counters are of type `int64_t` and stay below `2 ^ 63`. -/
structure Node where
  next : Option Ptr
  /-- `none` where nothing has been written -/
  buffer : Nat → Option Value
  pushIdx : Nat
  popIdx : Nat

inductive Pc where
  | idle
  /-- `pthread_mutex_lock(&queue->push_mtx)` -/
  | pushLock (item : Value)
  /-- `atomic_load(&tail_node->push_idx)` -/
  | pushLoadPush (item : Value)
  /-- `atomic_load(&tail_node->pop_idx)` -/
  | pushLoadPop (item : Value) (tailNode : Ptr) (pushIdx : Nat)
  /-- `tail_node->buffer[idx] = item` -/
  | pushWrite (item : Value) (tailNode : Ptr) (pushIdx : Nat)
  /-- `atomic_fetch_add(&tail_node->push_idx, 1)` -/
  | pushAdd (item : Value) (tailNode : Ptr)
  /-- `RingsQueueNode_new()` and `new_node->buffer[0] = item` -/
  | pushNew (item : Value) (tailNode : Ptr)
  /-- `atomic_fetch_add(&new_node->push_idx, 1)` -/
  | pushFirst (item : Value) (tailNode newNode : Ptr)
  /-- `atomic_store(&tail_node->next, new_node)` -/
  | pushLink (item : Value) (tailNode newNode : Ptr)
  /-- `queue->tail = new_node` -/
  | pushTail (newNode : Ptr)
  | pushUnlock
  /-- `pthread_mutex_lock(&queue->pop_mtx)` -/
  | popLock
  /-- `atomic_load(&head_node->next)` -/
  | popNext
  /-- `atomic_load(&head_node->pop_idx)` -/
  | popLoadPop (headNode : Ptr) (nextNode : Option Ptr)
  /-- `atomic_load(&head_node->push_idx)` -/
  | popLoadPush (headNode : Ptr) (nextNode : Option Ptr) (popIdx : Nat)
  /-- `queue->head = next_node` -/
  | popHead (headNode nextNode : Ptr)
  /-- `free(head_node)` -/
  | popFree (headNode : Ptr)
  /-- `head_node->buffer[idx]` -/
  | popRead (headNode : Ptr) (popIdx : Nat)
  /-- `atomic_fetch_add(&head_node->pop_idx, 1)` -/
  | popAdd (headNode : Ptr) (item : Value)
  /-- with the item, unless the queue was empty -/
  | popUnlock (item : Option Value)
  deriving DecidableEq

/-- Between `lock` and `unlock` of `push_mtx`. -/
def Pc.InPush : Pc → Prop
  | pushLoadPush _ | pushLoadPop _ _ _ | pushWrite _ _ _ | pushAdd _ _ | pushNew _ _
  | pushFirst _ _ _ | pushLink _ _ _ | pushTail _ | pushUnlock => True
  | _ => False

/-- Between `lock` and `unlock` of `pop_mtx`. -/
def Pc.InPop : Pc → Prop
  | popNext | popLoadPop _ _ | popLoadPush _ _ _ | popHead _ _ | popFree _ | popRead _ _
  | popAdd _ _ | popUnlock _ => True
  | _ => False

end RingsQueue

open RingsQueue

structure RingsQueue where
  heap : Heap Node
  head : Ptr
  tail : Ptr
  popMtx : Option Tid
  pushMtx : Option Tid
  pc : Tid → Pc
  /-- memory was accessed that is not allocated, or read that was not written -/
  fault : Bool
  /-- what pushes made visible, in the order in which they held `push_mtx` -/
  pushed : List Value
  /-- what non-empty pops returned, in the order in which they held `pop_mtx` -/
  popped : List Value

namespace RingsQueue

/-- `RingsQueueNode_new` -/
def Node.new : Node := ⟨none, fun _ => none, 0, 0⟩

/-- `RingsQueue_new` -/
def new (newNode : Ptr) : RingsQueue where
  heap := Function.update (fun _ => none) newNode (some .new)
  head := newNode
  tail := newNode
  popMtx := none
  pushMtx := none
  pc _ := .idle
  fault := false
  pushed := []
  popped := []

def goto (q : RingsQueue) (t : Tid) (pc : Pc) : RingsQueue :=
  { q with pc := Function.update q.pc t pc }

def access (q : RingsQueue) (p : Ptr) (k : Node → RingsQueue) : RingsQueue :=
  match q.heap p with
  | some node => k node
  | none => { q with fault := true }

def store (q : RingsQueue) (p : Ptr) (node : Node) : RingsQueue :=
  { q with heap := Function.update q.heap p (some node) }

def Node.write (node : Node) (idx : Nat) (item : Value) : Node :=
  { node with buffer := Function.update node.buffer idx (some item) }

def advance (q : RingsQueue) (t : Tid) (fresh : Ptr) : Option RingsQueue :=
  match q.pc t with
  | .idle => none
  | .pushLock item =>
      if q.pushMtx = none then some ({ q with pushMtx := some t }.goto t (.pushLoadPush item))
      else none
  | .pushLoadPush item =>
      some (q.access q.tail fun node => q.goto t (.pushLoadPop item q.tail node.pushIdx))
  | .pushLoadPop item tailNode pushIdx =>
      some (q.access tailNode fun node =>
        if pushIdx - node.popIdx < ringSize then q.goto t (.pushWrite item tailNode pushIdx)
        else q.goto t (.pushNew item tailNode))
  | .pushWrite item tailNode pushIdx =>
      some (q.access tailNode fun node =>
        (q.store tailNode (node.write (pushIdx % ringSize) item)).goto t (.pushAdd item tailNode))
  | .pushAdd item tailNode =>
      some (q.access tailNode fun node =>
        { q.store tailNode { node with pushIdx := node.pushIdx + 1 } with
          pushed := q.pushed ++ [item] }.goto t .pushUnlock)
  | .pushNew item tailNode =>
      if q.heap fresh = none then
        some ((q.store fresh (Node.new.write 0 item)).goto t (.pushFirst item tailNode fresh))
      else none
  | .pushFirst item tailNode newNode =>
      some (q.access newNode fun node =>
        (q.store newNode { node with pushIdx := node.pushIdx + 1 }).goto t
          (.pushLink item tailNode newNode))
  | .pushLink item tailNode newNode =>
      some (q.access tailNode fun node =>
        { q.store tailNode { node with next := some newNode } with
          pushed := q.pushed ++ [item] }.goto t (.pushTail newNode))
  | .pushTail newNode => some ({ q with tail := newNode }.goto t .pushUnlock)
  | .pushUnlock => some ({ q with pushMtx := none }.goto t .idle)
  | .popLock =>
      if q.popMtx = none then some ({ q with popMtx := some t }.goto t .popNext) else none
  | .popNext =>
      some (q.access q.head fun node => q.goto t (.popLoadPop q.head node.next))
  | .popLoadPop headNode nextNode =>
      some (q.access headNode fun node => q.goto t (.popLoadPush headNode nextNode node.popIdx))
  | .popLoadPush headNode nextNode popIdx =>
      some (q.access headNode fun node =>
        if popIdx = node.pushIdx then
          match nextNode with
          | none => q.goto t (.popUnlock none)
          | some nextNode => q.goto t (.popHead headNode nextNode)
        else q.goto t (.popRead headNode popIdx))
  | .popHead headNode nextNode => some ({ q with head := nextNode }.goto t (.popFree headNode))
  | .popFree headNode =>
      some (q.access headNode fun _ =>
        { q with heap := Function.update q.heap headNode none }.goto t .popNext)
  | .popRead headNode popIdx =>
      some (q.access headNode fun node =>
        match node.buffer (popIdx % ringSize) with
        | some item => q.goto t (.popAdd headNode item)
        | none => { q with fault := true })
  | .popAdd headNode item =>
      some (q.access headNode fun node =>
        (q.store headNode { node with popIdx := node.popIdx + 1 }).goto t (.popUnlock (some item)))
  | .popUnlock item =>
      some ({ q with popMtx := none, popped := q.popped ++ item.toList }.goto t .idle)

/-- After a fault anything may happen. -/
def step (q : RingsQueue) (event : Event) : Option RingsQueue :=
  if q.fault then none
  else
    match event with
    | .push t item => if q.pc t = .idle then some (q.goto t (.pushLock item)) else none
    | .pop t => if q.pc t = .idle then some (q.goto t .popLock) else none
    | .next t fresh => q.advance t fresh

end RingsQueue

end Mimuw.Queues
