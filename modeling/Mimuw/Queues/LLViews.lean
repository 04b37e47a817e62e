import Mimuw.Queues.LLQueue

/-!
# What the threads of the queue without locks see

What a thread relies on is a statement about its view of the queue.  Each change of the
queue leaves the statements of the other threads true.
-/

namespace Mimuw.Queues

open Mimuw.Lib

namespace LLQueue

def nextOf (heap : Heap Node) (p : Ptr) : Option Ptr := (heap p).bind Node.next

def itemOf (heap : Heap Node) (p : Ptr) : Option Value := (heap p).map Node.item

/-- The node of a push that is not linked yet. -/
def Pc.new : Pc → Option Ptr
  | pushLoad _ p | pushStore _ p _ | pushCheck _ p _ | pushNext _ p _ | pushAgain _ p _ _
  | pushLink _ p _ | pushHelp _ p _ _ | pushRetry _ p => some p
  | _ => none

/-- The node that a pop has taken out and not retired yet. -/
def Pc.dropped : Pc → Option Ptr
  | popRetire p _ => some p
  | _ => none

/-- The addresses that are still compared or read, and are in no hazard pointer. -/
def Pc.stale : Pc → List Ptr
  | popHeadAgain head _ | popItem head _ | popSwing head _ _ => [head]
  | popNextAgain head _ headNode => [head, headNode]
  | emptyNext headNode => [headNode]
  | _ => []

/-- The call of `LLQueue_pop` or `LLQueue_is_empty` that the thread is in. -/
def Pc.call (t : Tid) : Pc → Option Event
  | popLoad | popStore _ | popCheck _ | popTail _ | popNext _ _ | popAgain _ _ _ | popHelp _ _
  | popProtect _ _ | popHeadAgain _ _ | popNextAgain _ _ _ | popRetry | popItem _ _
  | popSwing _ _ _ | popRetire _ _ | popScan _ _ _ | popClear _ => some (.pop t)
  | emptyHead | emptyNext _ | emptyDone _ => some (.isEmpty t)
  | _ => none

/-- What one thread sees of the queue, when the nodes from `head` on are `chain`. -/
structure View where
  heap : Heap Node
  head : Ptr
  tail : Ptr
  limbo : List Ptr
  chain : List Ptr
  /-- the slot of the thread -/
  pointer : Option Ptr
  /-- no scan that compares this pointer has passed the slot -/
  ahead : Ptr → Prop
  /-- the queue has been empty since the call of the pop the thread is in -/
  popEmpty : Prop
  /-- the same of `LLQueue_is_empty` -/
  seenEmpty : Prop

namespace View

variable (v : View)

def Linked (p : Ptr) : Prop := p ∈ v.chain ∨ p ∈ v.limbo

def Held (p : Ptr) : Prop := v.pointer = some p ∧ v.Linked p ∧ v.ahead p

/-- It was the head once. -/
def Past (p : Ptr) : Prop := v.head = p ∨ p ∈ v.limbo ∨ v.heap p = none

def Fresh (item : Value) (p : Ptr) : Prop := v.heap p = some ⟨none, item⟩ ∧ p ∉ v.chain

/-- Only the last node is without a link, and `tail` was seen at the node. -/
def LastTail (p : Ptr) : Prop := nextOf v.heap p = none → v.tail = p

/-- While the node is the head, `tail` is behind it. -/
def TailBehind (p : Ptr) : Prop := v.head = p → v.tail ≠ p

/-- What a pop knows when it swings `head` from `p` to `next`. -/
def CanSwing (p next : Ptr) : Prop :=
  v.Past p ∧ v.TailBehind p ∧ (v.head = p → nextOf v.heap p = some next)

/-- If the node is linked to `next`, the hazard pointer came in time. -/
def InTime (headNode next : Ptr) : Prop :=
  nextOf v.heap headNode = some next → v.Linked next ∧ v.ahead next

/-- What a thread may rely on. -/
def At : Pc → Prop
  | .pushLoad item p | .pushStore item p _ | .pushRetry item p => v.Fresh item p
  | .pushCheck item p tail => v.Fresh item p ∧ v.pointer = some tail
  | .pushNext item p tail | .pushLink item p tail =>
      v.Fresh item p ∧ v.Held tail ∧ v.LastTail tail
  | .pushAgain item p tail next =>
      v.Fresh item p ∧ v.Held tail ∧ v.LastTail tail ∧ ∀ n ∈ next, nextOf v.heap tail = some n
  | .pushSwing p tail => v.Held tail ∧ nextOf v.heap tail = some p
  | .pushHelp item p tail next =>
      v.Fresh item p ∧ v.Held tail ∧ nextOf v.heap tail = some next
  | .popCheck head => v.pointer = some head
  | .popTail head => v.Held head ∧ v.Past head
  | .popNext head tail => v.Held head ∧ v.Past head ∧ (head ≠ tail → v.TailBehind head)
  | .popAgain head tail next =>
      v.Held head ∧ v.Past head ∧ (head ≠ tail → v.TailBehind head) ∧
        (∀ n ∈ next, nextOf v.heap head = some n) ∧ (next = none → v.popEmpty)
  | .popHelp tail next => v.Held tail ∧ nextOf v.heap tail = some next
  | .popProtect head next =>
      v.Held head ∧ v.Past head ∧ v.TailBehind head ∧ ∀ n ∈ next, nextOf v.heap head = some n
  | .popHeadAgain head next => v.pointer = some next ∧ v.CanSwing head next
  | .popNextAgain head next headNode =>
      v.pointer = some next ∧ v.CanSwing head next ∧ v.Past headNode ∧ v.InTime headNode next
  | .popItem head next => v.Held next ∧ v.CanSwing head next
  | .popSwing head next item =>
      v.Held next ∧ v.CanSwing head next ∧ itemOf v.heap next = some item
  | .emptyNext headNode => v.Past headNode
  | .popClear none => v.popEmpty
  | .emptyDone true => v.seenEmpty
  | _ => True

/-- What a step of another thread leaves true: `own` is the node that is not linked yet,
and `stale` are the addresses that are not protected. -/
structure Leaves (v v' : View) (own : Option Ptr) (stale : List Ptr) : Prop where
  pointer : v'.pointer = v.pointer
  popEmpty : v.popEmpty → v'.popEmpty
  seenEmpty : v.seenEmpty → v'.seenEmpty
  fresh : ∀ item, ∀ p ∈ own, v.Fresh item p → v'.Fresh item p
  held : ∀ p, v.Held p → v'.Held p
  next : ∀ p n, v.Held p → nextOf v.heap p = some n → nextOf v'.heap p = some n
  item : ∀ p, v.Held p → itemOf v'.heap p = itemOf v.heap p
  lastTail : ∀ p, v.Held p → v.LastTail p → v'.LastTail p
  past : ∀ p, v.Held p ∨ p ∈ stale → v.Past p → v'.Past p
  tailBehind : ∀ p, v.Held p ∨ p ∈ stale → v.Past p → v.TailBehind p → v'.TailBehind p
  headNext : ∀ p n, v.Held p ∨ p ∈ stale → v.Past p → (v.head = p → nextOf v.heap p = some n) →
    v'.head = p → nextOf v'.heap p = some n
  inTime : ∀ p n, p ∈ stale → v.Past p → v.pointer = some n → v.InTime p n → v'.InTime p n

variable {v} {v' : View} {x : Pc}

private theorem Leaves.canSwing (h : v.Leaves v' x.new x.stale) {p next : Ptr}
    (hp : v.Held p ∨ p ∈ x.stale) (hswing : v.CanSwing p next) : v'.CanSwing p next :=
  ⟨h.past p hp hswing.1, h.tailBehind p hp hswing.1 hswing.2.1,
    h.headNext p next hp hswing.1 hswing.2.2⟩

theorem At.leaves (hat : v.At x) (h : v.Leaves v' x.new x.stale) : v'.At x := by
  cases x with
  | pushLoad item p | pushStore item p tail | pushRetry item p => exact h.fresh item p rfl hat
  | pushCheck item p tail => exact ⟨h.fresh item p rfl hat.1, h.pointer.trans hat.2⟩
  | pushNext item p tail | pushLink item p tail =>
      obtain ⟨hfresh, hheld, hlast⟩ := hat
      exact ⟨h.fresh item p rfl hfresh, h.held tail hheld, h.lastTail tail hheld hlast⟩
  | pushAgain item p tail next =>
      obtain ⟨hfresh, hheld, hlast, hnext⟩ := hat
      exact ⟨h.fresh item p rfl hfresh, h.held tail hheld, h.lastTail tail hheld hlast,
        fun n hn => h.next tail n hheld (hnext n hn)⟩
  | pushSwing p tail => exact ⟨h.held tail hat.1, h.next tail p hat.1 hat.2⟩
  | pushHelp item p tail next =>
      obtain ⟨hfresh, hheld, hnext⟩ := hat
      exact ⟨h.fresh item p rfl hfresh, h.held tail hheld, h.next tail next hheld hnext⟩
  | popCheck head => exact h.pointer.trans hat
  | popTail head => exact ⟨h.held head hat.1, h.past head (.inl hat.1) hat.2⟩
  | popNext head tail =>
      obtain ⟨hheld, hpast, hbehind⟩ := hat
      exact ⟨h.held head hheld, h.past head (.inl hheld) hpast,
        fun hne => h.tailBehind head (.inl hheld) hpast (hbehind hne)⟩
  | popAgain head tail next =>
      obtain ⟨hheld, hpast, hbehind, hnext, hempty⟩ := hat
      exact ⟨h.held head hheld, h.past head (.inl hheld) hpast,
        fun hne => h.tailBehind head (.inl hheld) hpast (hbehind hne),
        fun n hn => h.next head n hheld (hnext n hn), fun hnone => h.popEmpty (hempty hnone)⟩
  | popHelp tail next => exact ⟨h.held tail hat.1, h.next tail next hat.1 hat.2⟩
  | popProtect head next =>
      obtain ⟨hheld, hpast, hbehind, hnext⟩ := hat
      exact ⟨h.held head hheld, h.past head (.inl hheld) hpast,
        h.tailBehind head (.inl hheld) hpast hbehind,
        fun n hn => h.next head n hheld (hnext n hn)⟩
  | popHeadAgain head next =>
      exact ⟨h.pointer.trans hat.1, h.canSwing (.inr (by simp [Pc.stale])) hat.2⟩
  | popNextAgain head next headNode =>
      obtain ⟨hpointer, hswing, hpast, hin⟩ := hat
      have hmem : headNode ∈ (Pc.popNextAgain head next headNode).stale := by simp [Pc.stale]
      exact ⟨h.pointer.trans hpointer, h.canSwing (.inr (by simp [Pc.stale])) hswing,
        h.past headNode (.inr hmem) hpast, h.inTime headNode next hmem hpast hpointer hin⟩
  | popItem head next =>
      exact ⟨h.held next hat.1, h.canSwing (.inr (by simp [Pc.stale])) hat.2⟩
  | popSwing head next item =>
      obtain ⟨hheld, hswing, hitem⟩ := hat
      exact ⟨h.held next hheld, h.canSwing (.inr (by simp [Pc.stale])) hswing,
        (h.item next hheld).trans hitem⟩
  | emptyNext headNode => exact h.past headNode (.inr (by simp [Pc.stale])) hat
  | popClear item =>
      cases item with
      | none => exact h.popEmpty hat
      | some item => trivial
  | emptyDone isEmpty =>
      cases isEmpty with
      | false => trivial
      | true => exact h.seenEmpty hat
  | _ => trivial

theorem At.fresh {p : Ptr} (hat : v.At x) (hp : x.new = some p) :
    ∃ item, v.Fresh item p := by
  cases x with
  | pushLoad item newNode | pushStore item newNode tail | pushRetry item newNode =>
      obtain rfl : newNode = p := Option.some.inj hp
      exact ⟨item, hat⟩
  | pushCheck item newNode tail | pushNext item newNode tail | pushLink item newNode tail
  | pushAgain item newNode tail next | pushHelp item newNode tail next =>
      obtain rfl : newNode = p := Option.some.inj hp
      exact ⟨item, hat.1⟩
  | _ => cases hp

/-! ### The changes -/

variable {own : Option Ptr} {stale : List Ptr} {a : Ptr → Prop}

theorem leaves_ahead (ha : ∀ p, v.pointer = some p → v.ahead p → a p) :
    v.Leaves { v with ahead := a } own stale where
  pointer := rfl
  popEmpty := id
  seenEmpty := id
  fresh _ _ _ := id
  held p h := ⟨h.1, h.2.1, ha p h.1 h.2.2⟩
  next _ _ _ := id
  item _ _ := rfl
  lastTail _ _ := id
  past _ _ := id
  tailBehind _ _ _ := id
  headNext _ _ _ _ := id
  inTime _ n _ _ hpointer h hnext := ⟨(h hnext).1, ha n hpointer (h hnext).2⟩

theorem nextOf_update_of_ne {heap : Heap Node} {p r : Ptr} (h : p ≠ r) (node : Option Node) :
    nextOf (Function.update heap r node) p = nextOf heap p := by
  rw [nextOf, Function.update_of_ne h, nextOf]

theorem itemOf_update_of_ne {heap : Heap Node} {p r : Ptr} (h : p ≠ r) (node : Option Node) :
    itemOf (Function.update heap r node) p = itemOf heap p := by
  rw [itemOf, Function.update_of_ne h, itemOf]

theorem ne_of_isSome {heap : Heap Node} {p r : Ptr} (hr : heap r = none)
    (hp : (heap p).isSome) : p ≠ r := by
  rintro rfl
  rw [hr] at hp
  cases hp

theorem leaves_new {newNode : Ptr} {node : Node} (ha : ∀ p, v.ahead p → a p)
    (hfree : v.heap newNode = none) (hlinked : ∀ p, v.Linked p → (v.heap p).isSome)
    (hstale : newNode ∉ stale) :
    v.Leaves { v with heap := Function.update v.heap newNode (some node), ahead := a }
      own stale := by
  have hheld : ∀ {p}, v.Held p → p ≠ newNode := fun h => ne_of_isSome hfree (hlinked _ h.2.1)
  have hwatched : ∀ {p}, v.Held p ∨ p ∈ stale → p ≠ newNode := by
    rintro p (h | h)
    · exact hheld h
    · exact fun heq => hstale (heq ▸ h)
  constructor
  case pointer => rfl
  case popEmpty => exact id
  case seenEmpty => exact id
  case fresh =>
    intro item p _ hp
    refine ⟨?_, hp.2⟩
    change Function.update v.heap newNode _ p = _
    rw [Function.update_of_ne (ne_of_isSome hfree (by rw [hp.1]; rfl))]
    exact hp.1
  case held => exact fun p h => ⟨h.1, h.2.1, ha p h.2.2⟩
  case next => exact fun p n h hnext => (nextOf_update_of_ne (hheld h) _).trans hnext
  case item => exact fun p h => itemOf_update_of_ne (hheld h) _
  case lastTail =>
    exact fun p h hlast hnone => hlast ((nextOf_update_of_ne (hheld h) _).symm.trans hnone)
  case past =>
    rintro p h (hp | hp | hp)
    · exact .inl hp
    · exact .inr (.inl hp)
    · exact .inr (.inr ((Function.update_of_ne (hwatched h) _ _).trans hp))
  case tailBehind => exact fun p _ _ => id
  case headNext =>
    exact fun p n h _ hnext heq => (nextOf_update_of_ne (hwatched h) _).trans (hnext heq)
  case inTime =>
    intro p n h _ _ hin hnext
    obtain ⟨hl, hahead⟩ := hin ((nextOf_update_of_ne (hwatched (.inr h)) _).symm.trans hnext)
    exact ⟨hl, ha n hahead⟩

theorem leaves_link {tail newNode : Ptr} {node : Node} (ha : ∀ p, v.ahead p → a p)
    (hnode : v.heap tail = some node) (hnone : node.next = none) (htail : tail ∈ v.chain)
    (hown : newNode ∉ own) (hahead : a newNode) :
    v.Leaves
      { v with
        heap := Function.update v.heap tail (some { node with next := some newNode })
        chain := v.chain ++ [newNode]
        ahead := a } own stale := by
  have hold : nextOf v.heap tail = none := by rw [nextOf, hnode, Option.bind_some, hnone]
  have hnew : nextOf (Function.update v.heap tail (some { node with next := some newNode })) tail =
      some newNode := by
    rw [nextOf, Function.update_self, Option.bind_some]
  have hother : ∀ {p n}, nextOf v.heap p = some n → p ≠ tail := by
    rintro p n hp rfl
    rw [hold] at hp
    cases hp
  have hlinked : ∀ p, v.Linked p → p ∈ v.chain ++ [newNode] ∨ p ∈ v.limbo := by
    rintro p (hp | hp)
    · exact .inl (List.mem_append_left _ hp)
    · exact .inr hp
  constructor
  case pointer => rfl
  case popEmpty => exact id
  case seenEmpty => exact id
  case fresh =>
    rintro item p hp ⟨hheap, hnotMem⟩
    have hne : p ≠ tail := fun heq => hnotMem (heq ▸ htail)
    refine ⟨(Function.update_of_ne hne _ _).trans hheap, fun hmem => ?_⟩
    rcases List.mem_append.mp hmem with hmem | hmem
    · exact hnotMem hmem
    · exact hown (List.mem_singleton.mp hmem ▸ hp)
  case held => exact fun p h => ⟨h.1, hlinked p h.2.1, ha p h.2.2⟩
  case next => exact fun p n _ hnext => (nextOf_update_of_ne (hother hnext) _).trans hnext
  case item =>
    intro p _
    rcases eq_or_ne p tail with rfl | hne
    · simp [itemOf, hnode]
    · exact itemOf_update_of_ne hne _
  case lastTail =>
    intro p _ hlast hnone'
    rcases eq_or_ne p tail with rfl | hne
    · cases hnew.symm.trans hnone'
    · exact hlast ((nextOf_update_of_ne hne _).symm.trans hnone')
  case past =>
    rintro p _ (hp | hp | hp)
    · exact .inl hp
    · exact .inr (.inl hp)
    · refine .inr (.inr ((Function.update_of_ne ?_ _ _).trans hp))
      rintro rfl
      cases hnode.symm.trans hp
  case tailBehind => exact fun p _ _ => id
  case headNext =>
    exact fun p n _ _ hnext heq => (nextOf_update_of_ne (hother (hnext heq)) _).trans (hnext heq)
  case inTime =>
    intro p n _ _ _ hin hnext
    rcases eq_or_ne p tail with rfl | hne
    · obtain rfl := Option.some.inj (hnew.symm.trans hnext)
      exact ⟨.inl (by simp), hahead⟩
    · obtain ⟨hl, hn⟩ := hin ((nextOf_update_of_ne hne _).symm.trans hnext)
      exact ⟨hlinked n hl, ha n hn⟩

theorem leaves_swingTail {next : Ptr} (ha : ∀ p, v.ahead p → a p)
    (hnext : nextOf v.heap v.tail = some next) (hne : next ≠ v.head) :
    v.Leaves { v with tail := next, ahead := a } own stale where
  pointer := rfl
  popEmpty := id
  seenEmpty := id
  fresh _ _ _ := id
  held p h := ⟨h.1, h.2.1, ha p h.2.2⟩
  next _ _ _ := id
  item _ _ := rfl
  lastTail p _ hlast hnone := by
    obtain rfl := hlast hnone
    cases hnext.symm.trans hnone
  past _ _ := id
  tailBehind _ _ _ _ heq hp := hne (hp.trans heq.symm)
  headNext _ _ _ _ := id
  inTime p n _ _ _ hin hp := ⟨(hin hp).1, ha n (hin hp).2⟩

theorem leaves_swingHead {next : Ptr} {rest : List Ptr} (ha : ∀ p, v.ahead p → a p)
    (hchain : v.chain = v.head :: next :: rest) (hnodup : v.chain.Nodup)
    (hlimbo : ∀ p ∈ v.limbo, p ∉ v.chain) (hsome : (v.heap next).isSome) :
    v.Leaves
      { v with
        head := next
        limbo := v.head :: v.limbo
        chain := next :: rest
        ahead := a } own stale := by
  have hmem : next ∈ v.chain := by rw [hchain]; simp
  -- the new head has not been the head before
  have hnew : ¬ v.Past next := by
    rintro (hp | hp | hp)
    · rw [hchain, hp] at hnodup
      exact (List.nodup_cons.mp hnodup).1 List.mem_cons_self
    · exact hlimbo next hp hmem
    · rw [hp] at hsome
      cases hsome
  have hlinked : ∀ p, v.Linked p → p ∈ next :: rest ∨ p ∈ v.head :: v.limbo := by
    rintro p (hp | hp)
    · rw [hchain] at hp
      rcases List.mem_cons.mp hp with rfl | hp
      · exact .inr List.mem_cons_self
      · exact .inl hp
    · exact .inr (List.mem_cons_of_mem _ hp)
  constructor
  case pointer => rfl
  case popEmpty => exact id
  case seenEmpty => exact id
  case fresh =>
    intro item p _ h
    refine ⟨h.1, fun hp => h.2 ?_⟩
    rw [hchain]
    exact List.mem_cons_of_mem _ hp
  case held => exact fun p h => ⟨h.1, hlinked p h.2.1, ha p h.2.2⟩
  case next => exact fun p n _ => id
  case item => exact fun p _ => rfl
  case lastTail => exact fun p _ => id
  case past =>
    rintro p _ (rfl | hp | hp)
    · exact .inr (.inl List.mem_cons_self)
    · exact .inr (.inl (List.mem_cons_of_mem _ hp))
    · exact .inr (.inr hp)
  case tailBehind =>
    rintro p _ hp _ rfl
    exact absurd hp hnew
  case headNext =>
    rintro p n _ hp _ rfl
    exact absurd hp hnew
  case inTime => exact fun p n _ _ _ hin hp => ⟨hlinked n (hin hp).1, ha n (hin hp).2⟩

theorem leaves_free {p₀ : Ptr} (ha : ∀ p, v.ahead p → a p)
    (hfree : ∀ p, v.pointer = some p → v.ahead p → p ≠ p₀) (hnext : (nextOf v.heap p₀).isSome)
    (hhead : v.head ≠ p₀) :
    v.Leaves
      { v with
        heap := Function.update v.heap p₀ none
        limbo := v.limbo.erase p₀
        ahead := a } own stale := by
  have hheld : ∀ {p}, v.Held p → p ≠ p₀ := fun h => hfree _ h.1 h.2.2
  have hlinked : ∀ p, p ≠ p₀ → v.Linked p → p ∈ v.chain ∨ p ∈ v.limbo.erase p₀ := by
    rintro p hne (hp | hp)
    · exact .inl hp
    · exact .inr ((List.mem_erase_of_ne hne).mpr hp)
  constructor
  case pointer => rfl
  case popEmpty => exact id
  case seenEmpty => exact id
  case fresh =>
    rintro item p _ ⟨hheap, hnotMem⟩
    refine ⟨(Function.update_of_ne ?_ _ _).trans hheap, hnotMem⟩
    rintro rfl
    rw [nextOf, hheap] at hnext
    cases hnext
  case held => exact fun p h => ⟨h.1, hlinked p (hheld h) h.2.1, ha p h.2.2⟩
  case next => exact fun p n h hp => (nextOf_update_of_ne (hheld h) _).trans hp
  case item => exact fun p h => itemOf_update_of_ne (hheld h) _
  case lastTail =>
    exact fun p h hlast hnone => hlast ((nextOf_update_of_ne (hheld h) _).symm.trans hnone)
  case past =>
    intro p _ hp
    rcases eq_or_ne p p₀ with rfl | hne
    · exact .inr (.inr (Function.update_self _ _ _))
    · rcases hp with hp | hp | hp
      · exact .inl hp
      · exact .inr (.inl ((List.mem_erase_of_ne hne).mpr hp))
      · exact .inr (.inr ((Function.update_of_ne hne _ _).trans hp))
  case tailBehind => exact fun p _ _ => id
  case headNext =>
    rintro p n _ _ hp rfl
    exact (nextOf_update_of_ne hhead _).trans (hp rfl)
  case inTime =>
    intro p n _ _ hpointer hin hp
    have hne : p ≠ p₀ := by
      rintro rfl
      have hnone : (Function.update v.heap p none p).bind Node.next = some n := hp
      rw [Function.update_self] at hnone
      cases hnone
    obtain ⟨hl, hn⟩ := hin ((nextOf_update_of_ne hne _).symm.trans hp)
    exact ⟨hlinked n (hfree n hpointer hn) hl, ha n hn⟩

end View

end LLQueue

end Mimuw.Queues
