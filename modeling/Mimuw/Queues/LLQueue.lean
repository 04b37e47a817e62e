import Mimuw.Queues.HazardPointer

/-!
# The queue without locks

`LLQueue`: a push links its node behind the last one with a compare-exchange and swings
`tail` after it, a pop swings `head`.  A node that was popped is retired, and freed when
a scan finds it in no hazard pointer.
-/

namespace Mimuw.Queues

open Mimuw.Lib

namespace LLQueue

structure Node where
  next : Option Ptr
  item : Value
  deriving DecidableEq

/-- The call of `HazardPointer_protect` for the local variable `next` is one step: only
its store can be seen by other threads. -/
inductive Pc where
  | idle
  | pushNew (item : Value)
  /-- in `HazardPointer_protect`: `ptr = atomic_load(&queue->tail)` -/
  | pushLoad (item : Value) (newNode : Ptr)
  | pushStore (item : Value) (newNode tail : Ptr)
  | pushCheck (item : Value) (newNode tail : Ptr)
  /-- `atomic_load(&tail->next)` -/
  | pushNext (item : Value) (newNode tail : Ptr)
  /-- `tail == atomic_load(&queue->tail)` -/
  | pushAgain (item : Value) (newNode tail : Ptr) (next : Option Ptr)
  /-- the compare-exchange of `tail->next` -/
  | pushLink (item : Value) (newNode tail : Ptr)
  /-- the compare-exchange of `queue->tail`, with the new node -/
  | pushSwing (newNode tail : Ptr)
  /-- the compare-exchange of `queue->tail`, with the node of another push -/
  | pushHelp (item : Value) (newNode tail next : Ptr)
  /-- `HazardPointer_clear`, and the loop again -/
  | pushRetry (item : Value) (newNode : Ptr)
  | pushClear
  /-- in `HazardPointer_protect`: `ptr = atomic_load(&queue->head)` -/
  | popLoad
  | popStore (head : Ptr)
  | popCheck (head : Ptr)
  /-- `atomic_load(&queue->tail)` -/
  | popTail (head : Ptr)
  /-- `atomic_load(&head->next)` -/
  | popNext (head tail : Ptr)
  /-- `head == atomic_load(&queue->head)` -/
  | popAgain (head tail : Ptr) (next : Option Ptr)
  | popHelp (tail next : Ptr)
  | popProtect (head : Ptr) (next : Option Ptr)
  /-- `queue->head`, for its `next` -/
  | popHeadAgain (head next : Ptr)
  /-- `atomic_load(&queue->head->next)`, where `headNode` was loaded -/
  | popNextAgain (head next headNode : Ptr)
  | popRetry
  | popItem (head next : Ptr)
  /-- the compare-exchange of `queue->head` -/
  | popSwing (head next : Ptr) (item : Value)
  | popRetire (head : Ptr) (item : Value)
  /-- in the scan of `HazardPointer_retire`: the node of the list that is compared, and the
  slot it is compared with -/
  | popScan (item : Value) (node slot : Nat)
  /-- `HazardPointer_clear` before the return, with the item unless the queue was empty -/
  | popClear (item : Option Value)
  /-- `queue->head` in `LLQueue_is_empty` -/
  | emptyHead
  | emptyNext (headNode : Ptr)
  /-- before the return of `LLQueue_is_empty` -/
  | emptyDone (isEmpty : Bool)
  deriving DecidableEq

inductive Event where
  | push (t : Tid) (item : Value)
  | pop (t : Tid)
  | isEmpty (t : Tid)
  /-- `malloc` is taken not to fail, and returns `fresh`. -/
  | next (t : Tid) (fresh : Ptr)
  deriving DecidableEq

end LLQueue

open LLQueue

structure LLQueue where
  heap : Heap Node
  head : Ptr
  tail : Ptr
  numThreads : Nat
  /-- the hazard pointers have so many slots and lists -/
  numThreads_le : numThreads ≤ HazardPointer.maxThreads
  pointer : Tid → Option Ptr
  /-- each as long as its `retired_count` says -/
  retired : Tid → List Ptr
  pc : Tid → Pc
  /-- a node was accessed that is not allocated -/
  fault : Bool
  /-- what `head` has passed and is not freed -/
  limbo : List Ptr
  /-- what pushes linked in, in this order -/
  linked : List Value
  /-- what pops took, in the order in which they swung `head` -/
  popped : List Value

namespace LLQueue

/-- `LLQueue_new`, with its first node, for so many registered threads -/
def new (numThreads : Nat) (hthreads : numThreads ≤ HazardPointer.maxThreads)
    (newNode : Ptr) : LLQueue where
  heap := Function.update (fun _ => none) newNode (some ⟨none, emptyValue⟩)
  head := newNode
  tail := newNode
  numThreads := numThreads
  numThreads_le := hthreads
  pointer _ := none
  retired _ := []
  pc _ := .idle
  fault := false
  limbo := []
  linked := []
  popped := []

def goto (q : LLQueue) (t : Tid) (pc : Pc) : LLQueue :=
  { q with pc := Function.update q.pc t pc }

def publish (q : LLQueue) (t : Tid) (ptr : Option Ptr) : LLQueue :=
  { q with pointer := Function.update q.pointer t ptr }

def write (q : LLQueue) (p : Ptr) (node : Option Node) : LLQueue :=
  { q with heap := Function.update q.heap p node }

def access (q : LLQueue) (p : Ptr) (k : Node → LLQueue) : LLQueue :=
  match q.heap p with
  | some node => k node
  | none => { q with fault := true }

/-- `atomic_compare_exchange_strong(&queue->tail, &tail, next)` -/
def swingTail (q : LLQueue) (tail next : Ptr) : LLQueue :=
  if q.tail = tail then { q with tail := next } else q

def link (q : LLQueue) (tail : Ptr) (node : Node) (newNode : Ptr) (item : Value) : LLQueue :=
  { q.write tail (some { node with next := some newNode }) with linked := q.linked ++ [item] }

def swingHead (q : LLQueue) (head next : Ptr) (item : Value) : LLQueue :=
  { q with head := next, limbo := head :: q.limbo, popped := q.popped ++ [item] }

def retire (q : LLQueue) (t : Tid) (p : Ptr) : LLQueue :=
  { q with retired := Function.update q.retired t (p :: q.retired t) }

def release (q : LLQueue) (t : Tid) (node : Nat) (p : Ptr) : LLQueue :=
  { q.write p none with
    retired := Function.update q.retired t ((q.retired t).eraseIdx node)
    limbo := q.limbo.erase p }

/-- A step of the scan of `HazardPointer_retire`. -/
def scan (q : LLQueue) (t : Tid) (item : Value) (node slot : Nat) : LLQueue :=
  match (q.retired t)[node]? with
  | none => q.goto t (.popClear (some item))
  | some p =>
      if slot < q.numThreads then
        if q.pointer slot = some p then q.goto t (.popScan item (node + 1) 0)
        else q.goto t (.popScan item node (slot + 1))
      else
        q.access p fun _ => (q.release t node p).goto t (.popScan item node 0)

def advance (q : LLQueue) (t : Tid) (fresh : Ptr) : Option LLQueue :=
  match q.pc t with
  | .idle => none
  | .pushNew item =>
      if q.heap fresh = none then
        some ((q.write fresh (some ⟨none, item⟩)).goto t (.pushLoad item fresh))
      else none
  | .pushLoad item newNode => some (q.goto t (.pushStore item newNode q.tail))
  | .pushStore item newNode tail =>
      some ((q.publish t (some tail)).goto t (.pushCheck item newNode tail))
  | .pushCheck item newNode tail =>
      some (q.goto t
        (if tail = q.tail then .pushNext item newNode tail else .pushLoad item newNode))
  | .pushNext item newNode tail =>
      some (q.access tail fun node => q.goto t (.pushAgain item newNode tail node.next))
  | .pushAgain item newNode tail next =>
      some (q.goto t
        (if tail = q.tail then
          match next with
          | none => .pushLink item newNode tail
          | some next => .pushHelp item newNode tail next
        else .pushRetry item newNode))
  | .pushLink item newNode tail =>
      some (q.access tail fun node =>
        if node.next = none then
          (q.link tail node newNode item).goto t (.pushSwing newNode tail)
        else q.goto t (.pushRetry item newNode))
  | .pushSwing newNode tail => some ((q.swingTail tail newNode).goto t .pushClear)
  | .pushHelp item newNode tail next =>
      some ((q.swingTail tail next).goto t (.pushRetry item newNode))
  | .pushRetry item newNode => some ((q.publish t none).goto t (.pushLoad item newNode))
  | .pushClear => some ((q.publish t none).goto t .idle)
  | .popLoad => some (q.goto t (.popStore q.head))
  | .popStore head => some ((q.publish t (some head)).goto t (.popCheck head))
  | .popCheck head => some (q.goto t (if head = q.head then .popTail head else .popLoad))
  | .popTail head => some (q.goto t (.popNext head q.tail))
  | .popNext head tail =>
      some (q.access head fun node => q.goto t (.popAgain head tail node.next))
  | .popAgain head tail next =>
      some (q.goto t
        (if head = q.head then
          if head = tail then
            match next with
            | none => .popClear none
            | some next => .popHelp tail next
          else .popProtect head next
        else .popLoad))
  | .popHelp tail next => some ((q.swingTail tail next).goto t .popLoad)
  | .popProtect head next =>
      some ((q.publish t next).goto t
        (match next with
        | none => .popLoad
        | some next => .popHeadAgain head next))
  | .popHeadAgain head next => some (q.goto t (.popNextAgain head next q.head))
  | .popNextAgain head next headNode =>
      some (q.access headNode fun node =>
        q.goto t (if some next = node.next then .popItem head next else .popRetry))
  | .popRetry => some ((q.publish t none).goto t .popLoad)
  | .popItem head next =>
      some (q.access next fun node => q.goto t (.popSwing head next node.item))
  | .popSwing head next item =>
      some
        (if q.head = head then (q.swingHead head next item).goto t (.popRetire head item)
        else q.goto t .popLoad)
  | .popRetire head item =>
      some ((q.retire t head).goto t
        (if (q.retired t).length + 1 > HazardPointer.retiredThreshold then .popScan item 0 0
        else .popClear (some item)))
  | .popScan item node slot => some (q.scan t item node slot)
  | .popClear _ => some ((q.publish t none).goto t .idle)
  | .emptyHead => some (q.goto t (.emptyNext q.head))
  | .emptyNext headNode =>
      some (q.access headNode fun node => q.goto t (.emptyDone node.next.isNone))
  | .emptyDone _ => some (q.goto t .idle)

/-- Threads are registered with numbers below `numThreads`; after a fault anything may
happen. -/
def step (q : LLQueue) (event : Event) : Option LLQueue :=
  if q.fault then none
  else
    match event with
    | .push t item =>
        if t < q.numThreads ∧ q.pc t = .idle then some (q.goto t (.pushNew item)) else none
    | .pop t => if t < q.numThreads ∧ q.pc t = .idle then some (q.goto t .popLoad) else none
    | .isEmpty t =>
        if t < q.numThreads ∧ q.pc t = .idle then some (q.goto t .emptyHead) else none
    | .next t fresh => q.advance t fresh

end LLQueue

end Mimuw.Queues
