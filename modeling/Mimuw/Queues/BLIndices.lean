import Mimuw.Lib.Runs
import Mimuw.Queues.Memory

/-!
# The indices of the queue of buffers

`BLQueue` with its operations cut into steps of any number of threads, and with
the counters as wrapping 32-bit integers. A node that may still be looked at is
protected by its hazard pointer, so nodes are numbered here in the order in which
they are made, and no number is given out twice.
-/

namespace Mimuw.Queues

open Mimuw.Lib

namespace BLShared

def bufferSize : Int := 1024

/-- `buffer` is what is found at an index, also past the ends of the array. -/
structure Node where
  next : Option Nat
  buffer : Int → Value
  pushIdx : BitVec 32
  popIdx : BitVec 32

/-- `BLNode_new` -/
def Node.new : Node := ⟨none, fun _ => emptyValue, 0, 0⟩

def Node.write (node : Node) (idx : Int) (item : Value) : Node :=
  { node with buffer := Function.update node.buffer idx item }

inductive Pc where
  | idle
  /-- `HazardPointer_protect(&queue->hp, &queue->tail)` -/
  | pushProtect (item : Value)
  /-- `atomic_fetch_add(&tail_node->push_idx, 1)` -/
  | pushAdd (item : Value) (tailNode : Nat)
  /-- `atomic_compare_exchange_strong(&tail_node->buffer[push_idx], &expected, item)` -/
  | pushSlot (item : Value) (tailNode : Nat) (pushIdx : Int)
  /-- `BLNode_new()`, `atomic_store(&new_node->buffer[0], item)` -/
  | pushNew (item : Value) (tailNode : Nat)
  /-- `atomic_compare_exchange_strong(&queue->tail, &expected_tail, new_node)` -/
  | pushTail (item : Value) (tailNode newNode : Nat)
  /-- `atomic_store(&expected_tail->next, new_node)` -/
  | pushLink (tailNode newNode : Nat)
  /-- `HazardPointer_protect(&queue->hp, &queue->head)` -/
  | popProtect
  /-- `atomic_fetch_add(&head_node->pop_idx, 1)` -/
  | popAdd (headNode : Nat)
  /-- `atomic_exchange(&head_node->buffer[pop_idx], TAKEN_VALUE)` -/
  | popSlot (headNode : Nat) (popIdx : Int)
  /-- `atomic_load(&head_node->next)` -/
  | popNext (headNode : Nat)
  /-- `atomic_compare_exchange_strong(&queue->head, &expected_head, next_node)` -/
  | popHead (headNode nextNode : Nat)
  deriving DecidableEq

structure State where
  node : Nat → Node
  /-- how many nodes have been made -/
  count : Nat
  head : Nat
  tail : Nat
  pc : Tid → Pc
  /-- what the pops returned -/
  answers : List (Tid × Value)

/-- `BLQueue_new` -/
def new : State := ⟨fun _ => .new, 1, 0, 0, fun _ => .idle, []⟩

/-- A thread calls an operation, or goes on with the one it is in; then `memory` tells if
`malloc` succeeds should the step call it. -/
inductive Event where
  | push (t : Tid) (item : Value)
  | pop (t : Tid)
  | next (t : Tid) (memory : Bool)
  deriving DecidableEq

namespace State

def goto (s : State) (t : Tid) (pc : Pc) : State := { s with pc := Function.update s.pc t pc }

def store (s : State) (p : Nat) (node : Node) : State :=
  { s with node := Function.update s.node p node }

def answer (s : State) (t : Tid) (item : Value) : State :=
  { s with answers := (t, item) :: s.answers }.goto t .idle

end State

def advance (s : State) (t : Tid) (memory : Bool) : Option State :=
  match s.pc t with
  | .idle => none
  | .pushProtect item => some (s.goto t (.pushAdd item s.tail))
  | .pushAdd item tailNode =>
      let node := s.node tailNode
      let pushIdx := node.pushIdx
      let s := s.store tailNode { node with pushIdx := pushIdx + 1 }
      some (if pushIdx.toInt < bufferSize then s.goto t (.pushSlot item tailNode pushIdx.toInt)
        else s.goto t (.pushNew item tailNode))
  | .pushSlot item tailNode pushIdx =>
      some (if (s.node tailNode).buffer pushIdx = emptyValue then
          (s.store tailNode ((s.node tailNode).write pushIdx item)).goto t .idle
        else s.goto t (.pushProtect item))
  | .pushNew item tailNode =>
      some (if memory then
          ({ s with count := s.count + 1 }.store s.count
            { Node.new.write 0 item with pushIdx := 1 }).goto t (.pushTail item tailNode s.count)
        else s.goto t (.pushProtect item))
  | .pushTail item tailNode newNode =>
      some (if s.tail = tailNode then { s with tail := newNode }.goto t (.pushLink tailNode newNode)
        else s.goto t (.pushProtect item))
  | .pushLink tailNode newNode =>
      some ((s.store tailNode { s.node tailNode with next := some newNode }).goto t .idle)
  | .popProtect => some (s.goto t (.popAdd s.head))
  | .popAdd headNode =>
      let node := s.node headNode
      let popIdx := node.popIdx
      let s := s.store headNode { node with popIdx := popIdx + 1 }
      some (if popIdx.toInt < bufferSize then s.goto t (.popSlot headNode popIdx.toInt)
        else s.goto t (.popNext headNode))
  | .popSlot headNode popIdx =>
      let item := (s.node headNode).buffer popIdx
      let s := s.store headNode ((s.node headNode).write popIdx takenValue)
      some (if item = emptyValue then s.goto t .popProtect else s.answer t item)
  | .popNext headNode =>
      some (match (s.node headNode).next with
        | none => s.answer t emptyValue
        | some nextNode => s.goto t (.popHead headNode nextNode))
  | .popHead headNode nextNode =>
      some ((if s.head = headNode then { s with head := nextNode } else s).goto t .popProtect)

def step (s : State) : Event → Option State
  | .push t item => if s.pc t = .idle then some (s.goto t (.pushProtect item)) else none
  | .pop t => if s.pc t = .idle then some (s.goto t .popProtect) else none
  | .next t memory => advance s t memory

/-! ## Indices and attempts -/

def Pc.index? : Pc → Option Int
  | pushSlot _ _ pushIdx => some pushIdx
  | popSlot _ popIdx => some popIdx
  | pushNew _ _ => some 0
  | _ => none

def State.InRange (s : State) : Prop :=
  ∀ t, ∀ idx ∈ (s.pc t).index?, 0 ≤ idx ∧ idx < bufferSize

inductive Side where
  | push
  | pop
  deriving DecidableEq

/-- `push_idx` or `pop_idx` of a node. -/
abbrev Counter := Side × Nat

def Pc.advances : Pc → Option Counter
  | pushAdd _ tailNode => some (.push, tailNode)
  | popAdd headNode => some (.pop, headNode)
  | _ => none

def advances (s : State) : Event → Option Counter
  | .next t _ => (s.pc t).advances
  | _ => none

/-- How many times a run advances a counter. -/
def attempts (c : Counter) : State → List Event → Nat
  | _, [] => 0
  | s, e :: events =>
      (if advances s e = some c then 1 else 0) +
        match step s e with
        | some s' => attempts c s' events
        | none => 0

/-- Where a counter starts: a push fills the first slot of the node that it makes. -/
def start : Counter → Nat
  | (.push, p) => if p = 0 then 0 else 1
  | (.pop, _) => 0

def State.counter (s : State) : Counter → BitVec 32
  | (.push, p) => (s.node p).pushIdx
  | (.pop, p) => (s.node p).popIdx

/-! ## One step -/

def Pc.nodes : Pc → List Nat
  | pushAdd _ tailNode | pushSlot _ tailNode _ | pushNew _ tailNode => [tailNode]
  | pushTail _ tailNode newNode | pushLink tailNode newNode => [tailNode, newNode]
  | popAdd headNode | popSlot headNode _ | popNext headNode => [headNode]
  | popHead headNode nextNode => [headNode, nextNode]
  | _ => []

/-- Only nodes that were made are referred to. -/
structure Known (s : State) : Prop where
  head : s.head < s.count
  tail : s.tail < s.count
  next : ∀ p, ∀ n ∈ (s.node p).next, n < s.count
  held : ∀ t, ∀ p ∈ (s.pc t).nodes, p < s.count

section Steps

variable {s s' s₁ : State} {t : Tid} {pc : Pc} {e : Event} {c : Counter} {p : Nat} {node : Node}

@[simp] theorem counter_goto : (s.goto t pc).counter c = s.counter c := by
  cases c with
  | mk side p => cases side <;> rfl

@[simp] theorem counter_answer {item : Value} : (s.answer t item).counter c = s.counter c := by
  cases c with
  | mk side p => cases side <;> rfl

private theorem counter_store (hpush : node.pushIdx = (s.node p).pushIdx)
    (hpop : node.popIdx = (s.node p).popIdx) : (s.store p node).counter c = s.counter c := by
  obtain ⟨side, p'⟩ := c
  cases side <;> simp only [State.counter, State.store, Function.update_apply] <;> split <;>
    simp_all

private theorem inRange_goto (h : s.InRange) (hpc : s₁.pc = s.pc) :
    (s₁.goto t pc).InRange ↔ ∀ idx ∈ pc.index?, 0 ≤ idx ∧ idx < bufferSize := by
  constructor
  · intro hall
    simpa [State.goto] using hall t
  · intro hidx u
    by_cases hu : u = t
    · subst hu
      simpa [State.goto] using hidx
    · simpa [State.goto, hu, hpc] using h u

private theorem known_goto (h : Known s) (hpc : ∀ p ∈ pc.nodes, p < s.count) :
    Known (s.goto t pc) := by
  refine ⟨h.head, h.tail, h.next, fun u => ?_⟩
  by_cases hu : u = t
  · subst hu
    simpa [State.goto] using hpc
  · simpa [State.goto, hu] using h.held u

private theorem known_store (h : Known s) (p : Nat) (node : Node)
    (hnext : ∀ n ∈ node.next, n < s.count) : Known (s.store p node) := by
  refine ⟨h.head, h.tail, fun p' => ?_, h.held⟩
  by_cases hp : p' = p
  · subst hp
    simpa [State.store] using hnext
  · simpa [State.store, hp] using h.next p'

private theorem known_more (h : Known s) : Known { s with count := s.count + 1 } :=
  ⟨Nat.lt_succ_of_lt h.head, Nat.lt_succ_of_lt h.tail,
    fun p n hn => Nat.lt_succ_of_lt (h.next p n hn),
    fun t p hp => Nat.lt_succ_of_lt (h.held t p hp)⟩

private theorem known_step (h : Known s) (hstep : step s e = some s') : Known s' := by
  cases e with
  | push t item =>
      simp only [step] at hstep
      split at hstep
      · obtain rfl := Option.some_inj.mp hstep
        exact known_goto h nofun
      · cases hstep
  | pop t =>
      simp only [step] at hstep
      split at hstep
      · obtain rfl := Option.some_inj.mp hstep
        exact known_goto h nofun
      · cases hstep
  | next t memory =>
      have hheld := h.held t
      rw [step, advance] at hstep
      cases hpc : s.pc t with
      | idle => simp [hpc] at hstep
      | pushProtect item =>
          simp only [hpc, Option.some_inj] at hstep
          subst hstep
          exact known_goto h (by simpa [Pc.nodes] using h.tail)
      | pushAdd item tailNode =>
          simp only [hpc, Option.some_inj] at hstep hheld
          subst hstep
          have hstore := known_store h tailNode
            { s.node tailNode with pushIdx := (s.node tailNode).pushIdx + 1 } (h.next tailNode)
          split <;> exact known_goto hstore hheld
      | pushSlot item tailNode pushIdx =>
          simp only [hpc, Option.some_inj] at hstep
          subst hstep
          split
          · exact known_goto (known_store h _ _ (h.next tailNode)) nofun
          · exact known_goto h nofun
      | pushNew item tailNode =>
          simp only [hpc, Option.some_inj] at hstep hheld
          subst hstep
          split
          · refine known_goto (known_store (known_more h) _ _ nofun) fun p hp => ?_
            have hold := hheld tailNode (by simp [Pc.nodes])
            simp only [Pc.nodes, List.mem_cons, List.not_mem_nil, or_false] at hp
            rcases hp with rfl | rfl
            · exact Nat.lt_succ_of_lt hold
            · exact Nat.lt_succ_self _
          · exact known_goto h nofun
      | pushTail item tailNode newNode =>
          simp only [hpc, Option.some_inj] at hstep hheld
          subst hstep
          split
          · exact known_goto ⟨h.head, hheld newNode (by simp [Pc.nodes]), h.next, h.held⟩ hheld
          · exact known_goto h nofun
      | pushLink tailNode newNode =>
          simp only [hpc, Option.some_inj] at hstep hheld
          subst hstep
          refine known_goto (known_store h _ _ fun n hn => ?_) nofun
          obtain rfl := Option.some_inj.mp hn
          exact hheld newNode (by simp [Pc.nodes])
      | popProtect =>
          simp only [hpc, Option.some_inj] at hstep
          subst hstep
          exact known_goto h (by simpa [Pc.nodes] using h.head)
      | popAdd headNode =>
          simp only [hpc, Option.some_inj] at hstep hheld
          subst hstep
          have hstore := known_store h headNode
            { s.node headNode with popIdx := (s.node headNode).popIdx + 1 } (h.next headNode)
          split <;> exact known_goto hstore hheld
      | popSlot headNode popIdx =>
          simp only [hpc, Option.some_inj] at hstep
          subst hstep
          have hstore := known_store h headNode
            ((s.node headNode).write popIdx takenValue) (h.next headNode)
          split
          · exact known_goto hstore nofun
          · exact known_goto ⟨hstore.head, hstore.tail, hstore.next, hstore.held⟩ nofun
      | popNext headNode =>
          simp only [hpc, Option.some_inj] at hstep hheld
          subst hstep
          split
          · exact known_goto ⟨h.head, h.tail, h.next, h.held⟩ nofun
          next nextNode hnext =>
            refine known_goto h fun p hp => ?_
            simp only [Pc.nodes, List.mem_cons, List.not_mem_nil, or_false] at hp
            rcases hp with rfl | rfl
            · exact hheld p (by simp [Pc.nodes])
            · exact h.next _ _ hnext
      | popHead headNode nextNode =>
          simp only [hpc, Option.some_inj] at hstep hheld
          subst hstep
          refine known_goto ?_ nofun
          split
          · exact ⟨hheld nextNode (by simp [Pc.nodes]), h.tail, h.next, h.held⟩
          · exact h

private theorem counter_advanced (p : Nat) (side : Side) (hcounter : ∀ c, s₁.counter c =
    if c = (side, p) then s.counter c + 1 else s.counter c) :
    (s₁.goto t pc).counter c = s.counter c + if some (side, p) = some c then 1 else 0 := by
  rw [counter_goto, hcounter]
  by_cases hc : c = (side, p)
  · simp [hc]
  · simp [hc, Ne.symm hc]

private theorem counter_step (h : Known s) (hstep : step s e = some s') :
    (∀ c, c.2 < s.count → s'.counter c = s.counter c + if advances s e = some c then 1 else 0) ∧
      (s'.count = s.count ∨ s'.count = s.count + 1 ∧ advances s e = none ∧
        ∀ side, s'.counter (side, s.count) = BitVec.ofNat 32 (start (side, s.count))) := by
  have hsame (s' : State) (hcount : s'.count = s.count) (hadv : advances s e = none)
      (hcounter : ∀ c, s'.counter c = s.counter c) :
      (∀ c, c.2 < s.count → s'.counter c = s.counter c + if advances s e = some c then 1 else 0) ∧
        (s'.count = s.count ∨ s'.count = s.count + 1 ∧ advances s e = none ∧
          ∀ side, s'.counter (side, s.count) = BitVec.ofNat 32 (start (side, s.count))) :=
    ⟨fun c _ => by simp [hadv, hcounter], .inl hcount⟩
  cases e with
  | push t item =>
      simp only [step] at hstep
      split at hstep
      · obtain rfl := Option.some_inj.mp hstep
        exact hsame _ rfl rfl fun _ => counter_goto
      · cases hstep
  | pop t =>
      simp only [step] at hstep
      split at hstep
      · obtain rfl := Option.some_inj.mp hstep
        exact hsame _ rfl rfl fun _ => counter_goto
      · cases hstep
  | next t memory =>
      have hadv : advances s (.next t memory) = (s.pc t).advances := rfl
      rw [step, advance] at hstep
      cases hpc : s.pc t with
      | idle => simp [hpc] at hstep
      | pushProtect item =>
          simp only [hpc, Option.some_inj] at hstep hadv
          subst hstep
          exact hsame _ rfl hadv fun _ => counter_goto
      | pushAdd item tailNode =>
          simp only [hpc, Option.some_inj] at hstep hadv
          subst hstep
          rw [hadv, Pc.advances]
          have hcounter (c : Counter) : (s.store tailNode
              { s.node tailNode with pushIdx := (s.node tailNode).pushIdx + 1 }).counter c =
              if c = (.push, tailNode) then s.counter c + 1 else s.counter c := by
            obtain ⟨side, p⟩ := c
            by_cases hp : p = tailNode <;> cases side <;> simp [State.counter, State.store, hp]
          refine ⟨fun c _ => ?_, .inl (by split <;> rfl)⟩
          split <;> exact counter_advanced tailNode .push hcounter
      | pushSlot item tailNode pushIdx =>
          simp only [hpc, Option.some_inj] at hstep hadv
          subst hstep
          split
          · exact hsame _ rfl hadv fun _ => counter_goto.trans (counter_store rfl rfl)
          · exact hsame _ rfl hadv fun _ => counter_goto
      | pushNew item tailNode =>
          simp only [hpc, Option.some_inj] at hstep hadv
          subst hstep
          split
          · refine ⟨fun c hc => ?_, .inr ⟨rfl, hadv, fun side => ?_⟩⟩
            · obtain ⟨side, p⟩ := c
              have hp : p ≠ s.count := Nat.ne_of_lt hc
              cases side <;> simp [hadv, Pc.advances, State.counter, State.store, hp, State.goto]
            · have hpos : s.count ≠ 0 := Nat.ne_zero_of_lt h.head
              cases side <;> simp [State.counter, State.store, State.goto, start, hpos, Node.new,
                Node.write]
          · exact hsame _ rfl hadv fun _ => counter_goto
      | pushTail item tailNode newNode =>
          simp only [hpc, Option.some_inj] at hstep hadv
          subst hstep
          split
          · exact hsame _ rfl hadv fun _ => counter_goto
          · exact hsame _ rfl hadv fun _ => counter_goto
      | pushLink tailNode newNode =>
          simp only [hpc, Option.some_inj] at hstep hadv
          subst hstep
          exact hsame _ rfl hadv fun _ => counter_goto.trans (counter_store rfl rfl)
      | popProtect =>
          simp only [hpc, Option.some_inj] at hstep hadv
          subst hstep
          exact hsame _ rfl hadv fun _ => counter_goto
      | popAdd headNode =>
          simp only [hpc, Option.some_inj] at hstep hadv
          subst hstep
          rw [hadv, Pc.advances]
          have hcounter (c : Counter) : (s.store headNode
              { s.node headNode with popIdx := (s.node headNode).popIdx + 1 }).counter c =
              if c = (.pop, headNode) then s.counter c + 1 else s.counter c := by
            obtain ⟨side, p⟩ := c
            by_cases hp : p = headNode <;> cases side <;> simp [State.counter, State.store, hp]
          refine ⟨fun c _ => ?_, .inl (by split <;> rfl)⟩
          split <;> exact counter_advanced headNode .pop hcounter
      | popSlot headNode popIdx =>
          simp only [hpc, Option.some_inj] at hstep hadv
          subst hstep
          split
          · exact hsame _ rfl hadv fun _ => counter_goto.trans (counter_store rfl rfl)
          · exact hsame _ rfl hadv fun _ => counter_answer.trans (counter_store rfl rfl)
      | popNext headNode =>
          simp only [hpc, Option.some_inj] at hstep hadv
          subst hstep
          split
          · exact hsame _ rfl hadv fun _ => counter_answer
          · exact hsame _ rfl hadv fun _ => counter_goto
      | popHead headNode nextNode =>
          simp only [hpc, Option.some_inj] at hstep hadv
          subst hstep
          refine hsame _ (by split <;> rfl) hadv fun c => ?_
          rw [counter_goto]
          split <;> rfl

/-- An attempt gives an index of the buffer exactly when the counter has not become negative. -/
private theorem inRange_step (h : s.InRange) (hstep : step s e = some s') :
    s'.InRange ↔ ∀ c, advances s e = some c → 0 ≤ (s.counter c).toInt := by
  have hfree (s₁ : State) (t : Tid) (pc : Pc) (hpc : s₁.pc = s.pc) (hadv : advances s e = none)
      (hindex : ∀ idx ∈ pc.index?, 0 ≤ idx ∧ idx < bufferSize) :
      (s₁.goto t pc).InRange ↔ ∀ c, advances s e = some c → 0 ≤ (s.counter c).toInt :=
    iff_of_true ((inRange_goto h hpc).mpr hindex) (by simp [hadv])
  cases e with
  | push t item =>
      simp only [step] at hstep
      split at hstep
      · obtain rfl := Option.some_inj.mp hstep
        exact hfree s t _ rfl rfl nofun
      · cases hstep
  | pop t =>
      simp only [step] at hstep
      split at hstep
      · obtain rfl := Option.some_inj.mp hstep
        exact hfree s t _ rfl rfl nofun
      · cases hstep
  | next t memory =>
      have hadv : advances s (.next t memory) = (s.pc t).advances := rfl
      rw [step, advance] at hstep
      cases hpc : s.pc t with
      | idle => simp [hpc] at hstep
      | pushAdd item tailNode =>
          simp only [hpc, Option.some_inj] at hstep hadv
          subst hstep
          simp only [hadv, Pc.advances, Option.some_inj, forall_eq', State.counter]
          split
          next hlt =>
            refine (inRange_goto h (by rfl)).trans ?_
            simpa [Pc.index?] using fun _ => hlt
          next hge =>
            refine iff_of_true ((inRange_goto h (by rfl)).mpr ?_) ?_
            · simp [Pc.index?, bufferSize]
            exact (by decide : (0 : Int) ≤ bufferSize).trans (not_lt.mp hge)
      | popAdd headNode =>
          simp only [hpc, Option.some_inj] at hstep hadv
          subst hstep
          simp only [hadv, Pc.advances, Option.some_inj, forall_eq', State.counter]
          split
          next hlt =>
            refine (inRange_goto h (by rfl)).trans ?_
            simpa [Pc.index?] using fun _ => hlt
          next hge =>
            refine iff_of_true ((inRange_goto h (by rfl)).mpr nofun) ?_
            exact (by decide : (0 : Int) ≤ bufferSize).trans (not_lt.mp hge)
      | pushProtect item | popProtect | pushLink tailNode newNode =>
          simp only [hpc, Option.some_inj] at hstep hadv
          subst hstep
          exact hfree _ t _ rfl hadv nofun
      | pushSlot item tailNode pushIdx | pushNew item tailNode | pushTail item tailNode newNode
      | popSlot headNode popIdx | popNext headNode =>
          simp only [hpc, Option.some_inj] at hstep hadv
          subst hstep
          split <;> exact hfree _ t _ rfl hadv nofun
      | popHead headNode nextNode =>
          simp only [hpc, Option.some_inj] at hstep hadv
          subst hstep
          exact hfree _ t _ (by split <;> rfl) hadv nofun

end Steps

/-! ## Runs -/

section Runs

variable {s s' : State} {e : Event} {events : List Event} {c : Counter}

private theorem attempts_concat (c : Counter) (s : State) (events : List Event) (e : Event) :
    attempts c s (events ++ [e]) = attempts c s events +
      match run step s events with
      | some t => if advances t e = some c then 1 else 0
      | none => 0 := by
  induction events generalizing s with
  | nil =>
      simp only [List.nil_append, attempts, run_nil]
      cases step s e <;> simp
  | cons e' events ih =>
      simp only [List.cons_append, attempts, run]
      cases step s e' with
      | none => rfl
      | some s' => simp only [ih, Option.bind_some, Nat.add_assoc]

/-- The counters hold the number of attempts, modulo `2 ^ 32`. -/
structure Counted (events : List Event) (s : State) : Prop where
  known : Known s
  counter : ∀ c, c.2 < s.count → s.counter c = BitVec.ofNat 32 (start c + attempts c new events)
  unmade : ∀ c, s.count ≤ c.2 → attempts c new events = 0

private theorem known_new : Known new := ⟨Nat.one_pos, Nat.one_pos, nofun, fun _ => nofun⟩

private theorem counted_new : Counted [] new := by
  refine ⟨known_new, fun c hc => ?_, fun _ _ => rfl⟩
  obtain ⟨side, p⟩ := c
  obtain rfl : p = 0 := Nat.lt_one_iff.mp hc
  cases side <;> rfl

private theorem Known.advances_lt (h : Known s) (hadv : advances s e = some c) : c.2 < s.count := by
  cases e with
  | push t item => cases hadv
  | pop t => cases hadv
  | next t memory =>
      have hheld := h.held t
      simp only [advances] at hadv
      cases hpc : s.pc t <;> simp only [hpc, Pc.advances, Option.some_inj, reduceCtorEq] at hadv
      all_goals
        subst hadv
        exact hheld _ (by simp [hpc, Pc.nodes])

private theorem counted_concat (h : Counted events s) (hrun : run step new events = some s)
    (hstep : step s e = some s') : Counted (events ++ [e]) s' := by
  obtain ⟨hcounter, hcount⟩ := counter_step h.known hstep
  have hattempts (c : Counter) : attempts c new (events ++ [e]) =
      attempts c new events + if advances s e = some c then 1 else 0 := by
    rw [attempts_concat, hrun]
  have hold (c : Counter) (hc : c.2 < s.count) : s'.counter c =
      BitVec.ofNat 32 (start c + attempts c new (events ++ [e])) := by
    rw [hcounter c hc, h.counter c hc, hattempts]
    split <;> simp [BitVec.ofNat_add, BitVec.add_assoc]
  have hunmade (c : Counter) (hc : s.count ≤ c.2) : attempts c new (events ++ [e]) = 0 := by
    have hadv : advances s e ≠ some c := fun hadv => Nat.not_lt.mpr hc (h.known.advances_lt hadv)
    rw [hattempts, h.unmade c hc, if_neg hadv]
  refine ⟨known_step h.known hstep, fun c hc => ?_, fun c hc => hunmade c (by omega)⟩
  rcases hcount with heq | ⟨heq, -, hnew⟩
  · exact hold c (heq ▸ hc)
  · obtain ⟨side, p⟩ := c
    rcases Nat.lt_succ_iff_lt_or_eq.mp (heq ▸ hc) with hp | hp
    · exact hold (side, p) hp
    · obtain rfl : p = s.count := hp
      rw [hnew, hunmade _ (le_refl _), Nat.add_zero]

private theorem counted_run (hrun : run step new events = some s) : Counted events s := by
  induction events using List.reverseRecOn generalizing s with
  | nil =>
      obtain rfl := Option.some_inj.mp hrun
      exact counted_new
  | append_singleton events e ih =>
      obtain ⟨t, hbefore, hlast⟩ := run_append.mp hrun
      obtain ⟨t', hstep, hend⟩ := run_cons.mp hlast
      obtain rfl := Option.some_inj.mp hend
      exact counted_concat (ih hbefore) hbefore hstep

/-- Up to `2 ^ 31` the counter is negative only there. -/
private theorem nonneg_iff {n : Nat} (h : n ≤ 2 ^ 31) :
    0 ≤ (BitVec.ofNat 32 n).toInt ↔ n < 2 ^ 31 := by
  rw [BitVec.toInt_eq_toNat_cond, BitVec.toNat_ofNat]
  split <;> omega

private theorem advances_of_stuck (h : step s e = none) : advances s e = none := by
  cases e with
  | push t item => rfl
  | pop t => rfl
  | next t memory =>
      simp only [step, advance] at h
      simp only [advances]
      cases hpc : s.pc t <;> simp_all [Pc.advances]

/-- In every state of a run all indices that are about to be used are those of the buffer, exactly
when no counter gets past `2 ^ 31`. -/
theorem indices_in_range_iff (events : List Event) :
    (∀ before t, before <+: events → run step new before = some t → t.InRange) ↔
      ∀ c, start c + attempts c new events ≤ 2 ^ 31 := by
  induction events using List.reverseRecOn with
  | nil =>
      refine iff_of_true (fun before t hbefore hrun => ?_) fun c => ?_
      · rw [List.prefix_nil.mp hbefore] at hrun
        obtain rfl := Option.some_inj.mp hrun
        exact fun _ => nofun
      · obtain ⟨side, p⟩ := c
        cases side <;> simp only [start, attempts]
        · split <;> omega
        · omega
  | append_singleton events e ih =>
      have hall : (∀ before t, before <+: events ++ [e] → run step new before = some t →
          t.InRange) ↔ (∀ before t, before <+: events → run step new before = some t → t.InRange) ∧
            ∀ t, run step new (events ++ [e]) = some t → t.InRange := by
        simp only [List.prefix_concat_iff]
        constructor
        · exact fun h => ⟨fun before t hbefore => h before t (.inr hbefore),
            fun t => h _ t (.inl rfl)⟩
        · rintro ⟨hbefore, hlast⟩ before t (rfl | hprefix)
          · exact hlast t
          · exact hbefore before t hprefix
      have hlast (t : State) : run step new (events ++ [e]) = some t ↔
          ∃ s, run step new events = some s ∧ step s e = some t := by
        simp only [run_append, run_cons, run_nil, Option.some_inj, exists_eq_right]
      rw [hall, ih]
      simp only [attempts_concat, hlast]
      cases hrun : run step new events with
      | none => simp
      | some s =>
          cases hstep : step s e with
          | none => simp [hstep, advances_of_stuck hstep]
          | some s' =>
              have hcounted := counted_run hrun
              have hcounter (c : Counter) (hadv : advances s e = some c) :
                  s.counter c = BitVec.ofNat 32 (start c + attempts c new events) :=
                hcounted.counter c (hcounted.known.advances_lt hadv)
              have hinRange (hbound : ∀ c, start c + attempts c new events ≤ 2 ^ 31) :
                  s'.InRange ↔ ∀ c, advances s e = some c →
                    start c + attempts c new events < 2 ^ 31 := by
                rw [inRange_step (ih.mpr hbound events s List.prefix_rfl hrun) hstep]
                refine forall₂_congr fun c hadv => ?_
                rw [hcounter c hadv, nonneg_iff (hbound c)]
              constructor
              · rintro ⟨hbound, hrange⟩ c
                have hlt := (hinRange hbound).mp (hrange s' ⟨s, rfl, hstep⟩) c
                have hle := hbound c
                simp only
                split
                next hadv => have := hlt hadv; omega
                next => omega
              · intro hbound
                have hbefore (c : Counter) : start c + attempts c new events ≤ 2 ^ 31 :=
                  (Nat.add_le_add_left (Nat.le_add_right _ _) _).trans (hbound c)
                refine ⟨hbefore, ?_⟩
                rintro t ⟨u, hu, ht⟩
                obtain rfl := Option.some_inj.mp hu
                obtain rfl := Option.some_inj.mp (hstep.symm.trans ht)
                refine (hinRange hbefore).mpr fun c hadv => ?_
                have := hbound c
                simp only [hadv, if_true] at this
                omega

/-- The first thread polls a new queue: `k` times it has advanced `pop_idx`. -/
structure Polling (k : Nat) (s : State) : Prop where
  pc : s.pc 0 = .popProtect
  head : s.head = 0
  next : (s.node 0).next = none
  popIdx : (s.node 0).popIdx = BitVec.ofNat 32 k
  unused : ∀ i : Int, k ≤ i → (s.node 0).buffer i = emptyValue

theorem Polling.add {k : Nat} (h : Polling k s) :
    run step s [.next 0 true, .next 0 true] = some
      ((s.store 0 { s.node 0 with popIdx := (s.node 0).popIdx + 1 }).goto 0
        (if (BitVec.ofNat 32 k).toInt < bufferSize then .popSlot 0 (BitVec.ofNat 32 k).toInt
          else .popNext 0)) := by
  have hprotect : step s (.next 0 true) = some (s.goto 0 (.popAdd 0)) := by
    simp [step, advance, h.pc, h.head]
  refine run_cons.mpr ⟨_, hprotect, run_cons.mpr ⟨_, rfl, ?_⟩⟩
  simp only [run_nil, State.goto, State.store, h.popIdx, Function.update_idem, Option.some_inj]
  split <;> rfl

theorem Polling.turn {k : Nat} (h : Polling k s) (hk : k < 2 ^ 31) :
    ∃ events s', run step s events = some s' ∧ Polling (k + 1) s' := by
  have hint : (BitVec.ofNat 32 k).toInt = k := by
    rw [BitVec.toInt_eq_toNat_cond, BitVec.toNat_ofNat]
    split <;> omega
  have hadd := h.add
  have hcounter : (s.node 0).popIdx + 1 = BitVec.ofNat 32 (k + 1) := by
    rw [h.popIdx, BitVec.ofNat_add]
    rfl
  rw [hint] at hadd
  by_cases hslot : (k : Int) < bufferSize
  · -- the slot is empty, and the loop goes on
    rw [if_pos hslot] at hadd
    refine ⟨[.next 0 true, .next 0 true] ++ [.next 0 true], _,
      run_append.mpr ⟨_, hadd, run_cons.mpr ⟨_, rfl, run_nil _⟩⟩, ?_⟩
    have hempty := h.unused k (le_refl _)
    simp only [State.goto, State.store, Function.update_self, hempty, if_true]
    refine ⟨by simp, h.head, by simpa [Node.write] using h.next,
      by simpa [Node.write] using hcounter, fun i hi => ?_⟩
    have hne : i ≠ k := by omega
    simpa [Node.write, hne] using h.unused i (by omega)
  · -- there is no next node, and the pop is called again
    rw [if_neg hslot] at hadd
    let s₁ := (s.store 0 { s.node 0 with popIdx := (s.node 0).popIdx + 1 }).goto 0 (.popNext 0)
    have hnone : step s₁ (.next 0 true) = some (s₁.answer 0 emptyValue) := by
      simp [step, advance, s₁, State.goto, State.store, h.next]
    have hagain : step (s₁.answer 0 emptyValue) (.pop 0) =
        some ((s₁.answer 0 emptyValue).goto 0 .popProtect) := by
      simp [step, State.answer, State.goto]
    refine ⟨[.next 0 true, .next 0 true] ++ [.next 0 true, .pop 0], _,
      run_append.mpr ⟨s₁, hadd, run_cons.mpr ⟨_, hnone, run_cons.mpr ⟨_, hagain, run_nil _⟩⟩⟩, ?_⟩
    exact ⟨by simp [State.goto], h.head,
      by simpa [s₁, State.answer, State.goto, State.store] using h.next,
      by simpa [s₁, State.answer, State.goto, State.store] using hcounter,
      fun i hi => by
        simpa [s₁, State.answer, State.goto, State.store] using h.unused i (by omega)⟩

private theorem polling_reached {k : Nat} (hk : k ≤ 2 ^ 31) :
    ∃ events s, run step new events = some s ∧ Polling k s := by
  induction k with
  | zero => exact ⟨[.pop 0], _, run_cons.mpr ⟨_, rfl, run_nil _⟩, rfl, rfl, rfl,
      rfl, fun _ _ => rfl⟩
  | succ k ih =>
      obtain ⟨events, s, hrun, hpolling⟩ := ih (by omega)
      obtain ⟨more, s', hmore, hpolling'⟩ := hpolling.turn (by omega)
      exact ⟨events ++ more, s', run_append.mpr ⟨s, hrun, hmore⟩, hpolling'⟩

/-- Pops of an empty queue, and nothing else, end with an index below the buffer. -/
theorem polling_underflows :
    ∃ events s, run step new events = some s ∧ s.pc 0 = .popSlot 0 (-2147483648) ∧ ¬ s.InRange := by
  obtain ⟨events, s, hrun, hpolling⟩ := polling_reached (le_refl _)
  have hadd := hpolling.add
  rw [if_pos (by decide)] at hadd
  have hpc : ((s.store 0 { s.node 0 with popIdx := (s.node 0).popIdx + 1 }).goto 0
      (.popSlot 0 (BitVec.ofNat 32 (2 ^ 31)).toInt)).pc 0 = .popSlot 0 (-2147483648) := by
    simp [State.goto]
  refine ⟨_, _, run_append.mpr ⟨s, hrun, hadd⟩, hpc, fun hrange => ?_⟩
  have hindex := (hrange 0 (-2147483648) (by rw [hpc]; rfl)).1
  omega

end Runs

end BLShared

end Mimuw.Queues
