import Mimuw.Lib.Segment
import Mimuw.Lib.Threads
import Mimuw.Queues.LLViews

/-!
# What every step of the queue without locks keeps

The nodes from `head` on are a chain.  What `head` has passed stays linked to it until a
scan frees it.
-/

namespace Mimuw.Queues

open Mimuw.Lib

namespace LLQueue

def items (heap : Heap Node) (nodes : List Ptr) : List Value := nodes.filterMap (itemOf heap)

/-- No scan that compares the pointer has passed the slot of the thread. -/
def Ahead (q : LLQueue) (t : Tid) (p : Ptr) : Prop :=
  ∀ u item node slot, q.pc u = .popScan item node slot → (q.retired u)[node]? = some p → slot ≤ t

/-- What the thread `t` sees; `R e` says that the queue has been empty since the call `e`. -/
def view (q : LLQueue) (R : Event → Prop) (chain : List Ptr) (t : Tid) : View :=
  ⟨q.heap, q.head, q.tail, q.limbo, chain, q.pointer t, q.Ahead t, R (.pop t), R (.isEmpty t)⟩

/-- The nodes from `head` on are `chain`, and `C` holds of the calls the threads are in. -/
structure Inv (q : LLQueue) (R C : Event → Prop) (chain : List Ptr) : Prop where
  segment : Segment (nextOf q.heap) chain
  nodup : chain.Nodup
  allocated : ∀ p ∈ chain, (q.heap p).isSome
  head : chain.head? = some q.head
  tail : q.tail ∈ chain
  limbo_nodup : q.limbo.Nodup
  limbo_chain : ∀ p ∈ q.limbo, p ∉ chain
  limbo_next : ∀ p ∈ q.limbo, (nextOf q.heap p).isSome
  registered : ∀ t, q.pc t ≠ .idle → t < q.numThreads
  new : Sole Pc.new q.pc
  dropped : Sole Pc.dropped q.pc
  dropped_limbo : ∀ t, ∀ p ∈ (q.pc t).dropped, p ∈ q.limbo ∧ ∀ u, p ∉ q.retired u
  listed : ∀ t, ∀ p ∈ q.retired t, p ∈ q.limbo
  retired_nodup : ∀ t, (q.retired t).Nodup
  disjoint : ∀ t u, t ≠ u → List.Disjoint (q.retired t) (q.retired u)
  called : ∀ t, ∀ e ∈ (q.pc t).call t, C e
  threads : ∀ t, (q.view R chain t).At (q.pc t)
  values : q.linked = q.popped ++ items q.heap chain.tail
  faultless : q.fault = false

/-- The event is the call of an operation by the thread, which starts there. -/
inductive Starts : Event → Tid → Pc → Prop
  | push (t : Tid) (item : Value) : Starts (.push t item) t (.pushNew item)
  | pop (t : Tid) : Starts (.pop t) t .popLoad
  | isEmpty (t : Tid) : Starts (.isEmpty t) t .emptyHead

/-- Every value that was linked in has been popped. -/
def Empty (q : LLQueue) : Prop := q.linked = q.popped

def Pc.Allocates : Pc → Prop
  | pushNew _ => True
  | _ => False

instance decidableAllocates : (x : Pc) → Decidable x.Allocates := fun x => by
  cases x <;> first | exact isTrue trivial | exact isFalse id

/-- The head of the queue that is read through without protection. -/
def Pc.unprotected : Pc → Option Ptr
  | popNextAgain _ _ headNode | emptyNext headNode => some headNode
  | _ => none

/-- The step does not read a head that was freed since it was loaded, and does not get
memory that a thread still compares or reads without protection. -/
def Guarded (q : LLQueue) : Event → Prop
  | .next t fresh =>
      ((q.pc t).Allocates → ∀ u < q.numThreads, fresh ∉ (q.pc u).stale) ∧
        ∀ p ∈ (q.pc t).unprotected, (q.heap p).isSome
  | _ => True

instance decidableGuarded (q : LLQueue) (event : Event) : Decidable (q.Guarded event) :=
  match event with
  | .push _ _ | .pop _ | .isEmpty _ => isTrue trivial
  | .next t fresh => inferInstanceAs (Decidable
      (((q.pc t).Allocates → ∀ u < q.numThreads, fresh ∉ (q.pc u).stale) ∧
        ∀ p ∈ (q.pc t).unprotected, (q.heap p).isSome))

section Steps

variable {q q' : LLQueue} {R R' C C' : Event → Prop} {chain : List Ptr} {t : Tid} {fresh : Ptr}
  {event : Event}

theorem step_cases (hfault : q.fault = false) (hstep : step q event = some q') :
    (∃ t x, Starts event t x ∧ t < q.numThreads ∧ q.pc t = .idle ∧ q' = q.goto t x) ∨
      ∃ t fresh, event = .next t fresh ∧ q.advance t fresh = some q' := by
  unfold step at hstep
  rw [hfault] at hstep
  cases event with
  | push t item =>
      simp only [Bool.false_eq_true, if_false, Option.ite_none_right_eq_some,
        Option.some.injEq] at hstep
      exact .inl ⟨t, _, .push t item, hstep.1.1, hstep.1.2, hstep.2.symm⟩
  | pop t =>
      simp only [Bool.false_eq_true, if_false, Option.ite_none_right_eq_some,
        Option.some.injEq] at hstep
      exact .inl ⟨t, _, .pop t, hstep.1.1, hstep.1.2, hstep.2.symm⟩
  | isEmpty t =>
      simp only [Bool.false_eq_true, if_false, Option.ite_none_right_eq_some,
        Option.some.injEq] at hstep
      exact .inl ⟨t, _, .isEmpty t, hstep.1.1, hstep.1.2, hstep.2.symm⟩
  | next t fresh => exact .inr ⟨t, fresh, rfl, hstep⟩

theorem Starts.plain {x : Pc} (h : Starts event t x) :
    (∀ item node slot, x ≠ .popScan item node slot) ∧ x.new = none ∧ x.dropped = none ∧
      x.stale = [] ∧ ∀ e, x.call t = some e → e = event := by
  cases h with
  | push t item => exact ⟨nofun, rfl, rfl, rfl, nofun⟩
  | pop t => exact ⟨nofun, rfl, rfl, rfl, fun e he => (Option.some.inj he).symm⟩
  | isEmpty t => exact ⟨nofun, rfl, rfl, rfl, fun e he => (Option.some.inj he).symm⟩

theorem Starts.at {x : Pc} (h : Starts event t x) (v : View) : v.At x := by
  cases h <;> trivial

theorem Starts.thread {x : Pc} {u : Tid} (h : Starts event t x)
    (he : event = .pop u ∨ event = .isEmpty u) : u = t := by
  cases h with
  | push t item => obtain he | he := he <;> cases he
  | pop t => obtain he | he := he <;> cases he; rfl
  | isEmpty t => obtain he | he := he <;> cases he; rfl

theorem nextOf_of_eq {heap : Heap Node} {p : Ptr} {node : Node} (h : heap p = some node) :
    nextOf heap p = node.next := by
  rw [nextOf, h, Option.bind_some]

private theorem isSome_of_nextOf {heap : Heap Node} {p : Ptr} (h : (nextOf heap p).isSome) :
    (heap p).isSome := by
  cases hp : heap p with
  | none =>
      rw [nextOf, hp] at h
      cases h
  | some node => rfl

theorem isSome_write {p : Ptr} {node : Node} (r : Ptr) (hr : (q.heap r).isSome) :
    ((q.write p (some node)).heap r).isSome := by
  change (Function.update q.heap p (some node) r).isSome
  rcases eq_or_ne r p with rfl | hne
  · rw [Function.update_self]
    rfl
  · rwa [Function.update_of_ne hne]

theorem items_congr {heap heap' : Heap Node} {nodes : List Ptr}
    (h : ∀ p ∈ nodes, itemOf heap' p = itemOf heap p) : items heap' nodes = items heap nodes :=
  List.filterMap_congr h

theorem Inv.linked_isSome (h : q.Inv R C chain) {u : Tid} (p : Ptr)
    (hp : (q.view R chain u).Linked p) : (q.heap p).isSome :=
  hp.elim (h.allocated p) fun hp => isSome_of_nextOf (h.limbo_next p hp)

theorem Inv.head_mem (h : q.Inv R C chain) : q.head ∈ chain := List.mem_of_head? h.head

theorem Inv.known (h : q.Inv R C chain) {x : Pc} (hpc : q.pc t = x) : (q.view R chain t).At x :=
  hpc ▸ h.threads t

private theorem Inv.registered_update (h : q.Inv R C chain) {x y : Pc} (hpc : q.pc t = y)
    (hy : y ≠ .idle) (u : Tid) : Function.update q.pc t x u ≠ .idle → u < q.numThreads :=
  (Function.forall_update_iff _ fun u (pc : Pc) => pc ≠ .idle → u < q.numThreads).mpr
    ⟨fun _ => h.registered t (hpc.symm ▸ hy), fun u _ => h.registered u⟩ u

private theorem Inv.called_update (h : q.Inv R C chain) {x y : Pc} (hpc : q.pc t = y)
    (hx : ∀ e, x.call t = some e → y.call t = some e) (u : Tid) :
    ∀ e ∈ (Function.update q.pc t x u).call u, C e :=
  (Function.forall_update_iff _ fun u (pc : Pc) => ∀ e ∈ pc.call u, C e).mpr
    ⟨fun e he => h.called t e (hpc.symm ▸ hx e he), fun u _ => h.called u⟩ u

private theorem Inv.dropped_update (h : q.Inv R C chain) {x : Pc} (hx : x.dropped = none)
    (u : Tid) :
    ∀ p ∈ (Function.update q.pc t x u).dropped, p ∈ q.limbo ∧ ∀ v, p ∉ q.retired v :=
  (Function.forall_update_iff _ fun _ (pc : Pc) => ∀ p ∈ pc.dropped,
    p ∈ q.limbo ∧ ∀ v, p ∉ q.retired v).mpr
    ⟨fun _ hp => (nomatch hx.symm.trans hp), fun u _ => h.dropped_limbo u⟩ u

/-- No scan compares a node that is still in the chain. -/
private theorem Inv.ahead_of_mem (h : q.Inv R C chain) {u : Tid} {p : Ptr} (hp : p ∈ chain) :
    q.Ahead u p :=
  fun v _ _ _ _ hnode =>
    absurd hp (h.limbo_chain p (h.listed v p (List.mem_of_getElem? hnode)))

theorem Inv.remember (h : q.Inv R C chain) (hC : ∀ e, C e → C' e)
    (hR : ∀ t e, q.pc t ≠ .idle → e = .pop t ∨ e = .isEmpty t → R e → R' e) :
    q.Inv R' C' chain :=
  { h with
    called := fun t e he => hC e (h.called t e he)
    threads := fun t => by
      by_cases hpc : q.pc t = .idle
      · rw [hpc]
        trivial
      · exact (h.threads t).leaves
          { pointer := rfl
            popEmpty := hR t (.pop t) hpc (.inl rfl)
            seenEmpty := hR t (.isEmpty t) hpc (.inr rfl)
            fresh := fun _ _ _ => id
            held := fun _ => id
            next := fun _ _ _ => id
            item := fun _ _ => rfl
            lastTail := fun _ _ => id
            past := fun _ _ => id
            tailBehind := fun _ _ _ => id
            headNext := fun _ _ _ _ => id
            inTime := fun _ _ _ _ _ => id } }

private theorem ahead_retired {q₀ : LLQueue} {x : Pc} {u : Tid} {p : Ptr} (hpcs : q₀.pc = q.pc)
    (hretired : ∀ v, v ≠ t → q₀.retired v = q.retired v)
    (hx : ∀ item node slot, x = .popScan item node slot → slot = 0) (h : q.Ahead u p) :
    (q₀.goto t x).Ahead u p := by
  intro v item node slot hv hnode
  change Function.update q₀.pc t x v = _ at hv
  rcases eq_or_ne v t with rfl | hne
  · rw [hx item node slot ((Function.update_self _ _ _).symm.trans hv)]
    exact Nat.zero_le u
  · rw [Function.update_of_ne hne, hpcs] at hv
    exact h v item node slot hv (hretired v hne ▸ hnode)

private theorem ahead_update {x : Pc} {u : Tid} {p : Ptr}
    (hx : ∀ item node slot, x ≠ .popScan item node slot) (h : q.Ahead u p) :
    (q.goto t x).Ahead u p :=
  ahead_retired rfl (fun _ _ => rfl) (fun _ _ _ heq => absurd heq (hx _ _ _)) h

/-- A step inside an operation, or out of it, to where no scan is. -/
structure Pc.GoesOn (y : Pc) (t : Tid) (x : Pc) : Prop where
  running : y ≠ .idle
  scan : ∀ item node slot, x ≠ .popScan item node slot
  new : ∀ p, x.new = some p → y.new = some p
  dropped : x.dropped = none
  call : ∀ e, x.call t = some e → y.call t = some e

theorem Inv.move (h : q.Inv R C chain) {x y : Pc} {ptr : Option Ptr} (hpc : q.pc t = y)
    (hx : y.GoesOn t x) (hat : ({ q.view R chain t with pointer := ptr } : View).At x) :
    ((q.publish t ptr).goto t x).Inv R C chain := by
  subst hpc
  exact
    { h with
      registered := h.registered_update rfl hx.running
      new := h.new.keep hx.new
      dropped := h.dropped.keep fun p hp => nomatch hx.dropped.symm.trans hp
      dropped_limbo := h.dropped_update hx.dropped
      called := h.called_update rfl hx.call
      threads := by
        refine (Function.forall_update_iff _ fun u (pc : Pc) =>
          (((q.publish t ptr).goto t x).view R chain u).At pc).mpr ⟨?_, fun u hu => ?_⟩
        · have hpointer : Function.update q.pointer t ptr t = ptr := Function.update_self _ _ _
          change (View.mk q.heap q.head q.tail q.limbo chain (Function.update q.pointer t ptr t)
            (((q.publish t ptr).goto t x).Ahead t) (R (.pop t)) (R (.isEmpty t))).At x
          rw [hpointer]
          exact hat.leaves (View.leaves_ahead fun p _ => ahead_update hx.scan)
        · have hpointer : Function.update q.pointer t ptr u = q.pointer u :=
            Function.update_of_ne hu _ _
          change (View.mk q.heap q.head q.tail q.limbo chain (Function.update q.pointer t ptr u)
            (((q.publish t ptr).goto t x).Ahead u) (R (.pop u)) (R (.isEmpty u))).At (q.pc u)
          rw [hpointer]
          exact (h.threads u).leaves (View.leaves_ahead fun p _ => ahead_update hx.scan) }

private theorem Inv.stay (h : q.Inv R C chain) {x y : Pc} (hpc : q.pc t = y) (hx : y.GoesOn t x)
    (hat : (q.view R chain t).At x) : (q.goto t x).Inv R C chain := by
  have hself : q.publish t (q.pointer t) = q := by
    rw [publish, Function.update_eq_self]
  have hmove : ((q.publish t (q.pointer t)).goto t x).Inv R C chain := h.move hpc hx hat
  rwa [hself] at hmove

/-! ### Steps that change the nodes -/

theorem Inv.pushNew (h : q.Inv R C chain) {item : Value} (hpc : q.pc t = .pushNew item)
    (hfree : q.heap fresh = none) (hstale : ∀ u, fresh ∉ (q.pc u).stale) :
    ((q.write fresh (some ⟨none, item⟩)).goto t (.pushLoad item fresh)).Inv R C chain := by
  have hne : ∀ {p}, (q.heap p).isSome → p ≠ fresh := View.ne_of_isSome hfree
  have hnext : ∀ {p}, (q.heap p).isSome →
      nextOf (Function.update q.heap fresh (some ⟨none, item⟩)) p = nextOf q.heap p :=
    fun hp => View.nextOf_update_of_ne (hne hp) _
  have hnotMem : fresh ∉ chain := fun hp => hne (h.allocated fresh hp) rfl
  constructor
  case segment => exact h.segment.congr fun p hp => hnext (h.allocated p hp)
  case nodup => exact h.nodup
  case allocated =>
    intro p hp
    exact (congrArg Option.isSome (Function.update_of_ne (hne (h.allocated p hp)) _ _)).trans
      (h.allocated p hp)
  case head => exact h.head
  case tail => exact h.tail
  case limbo_nodup => exact h.limbo_nodup
  case limbo_chain => exact h.limbo_chain
  case limbo_next =>
    intro p hp
    exact (congrArg Option.isSome (hnext (isSome_of_nextOf (h.limbo_next p hp)))).trans
      (h.limbo_next p hp)
  case registered => exact h.registered_update hpc nofun
  case new =>
    refine h.new.update fun p hp u _ hu => ?_
    obtain rfl : fresh = p := Option.some.inj hp
    obtain ⟨item', hfresh, -⟩ := (h.threads u).fresh hu
    exact hne (Option.isSome_iff_exists.mpr ⟨_, hfresh⟩) rfl
  case dropped => exact h.dropped.keep nofun
  case dropped_limbo => exact h.dropped_update rfl
  case listed => exact h.listed
  case retired_nodup => exact h.retired_nodup
  case disjoint => exact h.disjoint
  case called => exact h.called_update hpc nofun
  case threads =>
    refine (Function.forall_update_iff _ fun u (pc : Pc) =>
      (((q.write fresh (some ⟨none, item⟩)).goto t (.pushLoad item fresh)).view R chain u).At
        pc).mpr ⟨⟨Function.update_self _ _ _, hnotMem⟩, fun u _ => ?_⟩
    exact (h.threads u).leaves (View.leaves_new (fun p hp => ahead_update nofun hp) hfree
      h.linked_isSome (hstale u))
  case values =>
    have hitems : items (Function.update q.heap fresh (some ⟨none, item⟩)) chain.tail =
        items q.heap chain.tail :=
      items_congr fun p hp =>
        View.itemOf_update_of_ne (hne (h.allocated p (List.mem_of_mem_tail hp))) _
    exact h.values.trans (congrArg (q.popped ++ ·) hitems.symm)
  case faultless => exact h.faultless

theorem Inv.pushLink (h : q.Inv R C chain) {item : Value} {newNode tail : Ptr} {node : Node}
    (hpc : q.pc t = .pushLink item newNode tail) (hnode : q.heap tail = some node)
    (hnone : node.next = none) :
    ((q.link tail node newNode item).goto t (.pushSwing newNode tail)).Inv R C
      (chain ++ [newNode]) := by
  obtain ⟨⟨hnew, hnotMem⟩, hheld, -⟩ : (q.heap newNode = some ⟨none, item⟩ ∧ newNode ∉ chain) ∧
    (q.view R chain t).Held tail ∧ _ := h.known hpc
  have hold : nextOf q.heap tail = none := (nextOf_of_eq hnode).trans hnone
  have htail : tail ∈ chain := by
    rcases hheld.2.1 with hmem | hmem
    · exact hmem
    · have hsome := h.limbo_next tail hmem
      rw [hold] at hsome
      cases hsome
  have hlimbo : newNode ∉ q.limbo := by
    intro hmem
    have hsome := h.limbo_next newNode hmem
    rw [nextOf_of_eq hnew] at hsome
    cases hsome
  have hne : newNode ≠ tail := fun heq => hnotMem (heq ▸ htail)
  have hnext : ∀ {p}, p ≠ tail →
      nextOf (Function.update q.heap tail (some { node with next := some newNode })) p =
        nextOf q.heap p := fun hp => View.nextOf_update_of_ne hp _
  have hitem : ∀ p,
      itemOf (Function.update q.heap tail (some { node with next := some newNode })) p =
        itemOf q.heap p := by
    intro p
    rcases eq_or_ne p tail with rfl | hp
    · simp [itemOf, hnode]
    · exact View.itemOf_update_of_ne hp _
  have hlinked :
      nextOf (Function.update q.heap tail (some { node with next := some newNode })) tail =
        some newNode := nextOf_of_eq (Function.update_self _ _ _)
  have hgetLast : chain.getLast? = some tail := h.segment.getLast_of_next_none htail hold
  have hchain : chain ≠ [] := List.ne_nil_of_mem htail
  have hnoScan : ∀ i n s, Pc.pushSwing newNode tail ≠ .popScan i n s := by simp
  -- no scan compares the new node
  have hahead : ∀ u, q.Ahead u newNode := fun u v _ _ _ _ hv =>
    absurd (h.listed v newNode (List.mem_of_getElem? hv)) hlimbo
  constructor
  case segment =>
    exact h.segment.concat h.nodup hgetLast hlinked ((hnext hne).trans (nextOf_of_eq hnew))
      fun p _ hp => hnext hp
  case nodup => exact List.concat_eq_append ▸ h.nodup.concat hnotMem
  case allocated =>
    intro p hp
    rcases List.mem_append.mp hp with hp | hp
    · exact isSome_write p (h.allocated p hp)
    · obtain rfl := List.mem_singleton.mp hp
      exact isSome_write p (by rw [hnew]; rfl)
  case head => exact (List.head?_append_of_ne_nil _ hchain).trans h.head
  case tail => exact List.mem_append_left _ h.tail
  case limbo_nodup => exact h.limbo_nodup
  case limbo_chain =>
    intro p hp hmem
    rcases List.mem_append.mp hmem with hmem | hmem
    · exact h.limbo_chain p hp hmem
    · exact hlimbo (List.mem_singleton.mp hmem ▸ hp)
  case limbo_next =>
    intro p hp
    have hp' : p ≠ tail := fun heq => h.limbo_chain p hp (heq ▸ htail)
    exact (congrArg Option.isSome (hnext hp')).trans (h.limbo_next p hp)
  case registered => exact h.registered_update hpc (by simp)
  case new => exact h.new.keep (by simp [Pc.new])
  case dropped => exact h.dropped.keep (by simp [Pc.dropped])
  case dropped_limbo => exact h.dropped_update rfl
  case listed => exact h.listed
  case retired_nodup => exact h.retired_nodup
  case disjoint => exact h.disjoint
  case called =>
    have hcall : ∀ e, (Pc.pushSwing newNode tail).call t = some e →
        (Pc.pushLink item newNode tail).call t = some e := fun _ => id
    exact h.called_update hpc hcall
  case threads =>
    refine (Function.forall_update_iff _ fun u (pc : Pc) =>
      (((q.link tail node newNode item).goto t (.pushSwing newNode tail)).view R
        (chain ++ [newNode]) u).At pc).mpr ⟨?_, fun u hu => ?_⟩
    · have hahead' := ahead_update (t := t) hnoScan hheld.2.2
      exact ⟨⟨hheld.1, .inl (List.mem_append_left _ htail), hahead'⟩, hlinked⟩
    · refine (h.threads u).leaves (View.leaves_link (fun p hp => ahead_update hnoScan hp) hnode
        hnone htail ?_ (ahead_update hnoScan (hahead u)))
      exact fun hmem => hu (h.new u t newNode hmem (by rw [hpc]; rfl))
  case values =>
    have hnewItems : items
        (Function.update q.heap tail (some { node with next := some newNode }))
        (chain.tail ++ [newNode]) = items q.heap chain.tail ++ [item] := by
      rw [items, List.filterMap_append]
      congr 1
      · exact items_congr fun p _ => hitem p
      · rw [List.filterMap_cons_some ((hitem newNode).trans (by rw [itemOf, hnew]; rfl)),
          List.filterMap_nil]
    rw [← List.tail_append_of_ne_nil hchain] at hnewItems
    change q.linked ++ [item] = _
    rw [h.values, List.append_assoc]
    exact congrArg (q.popped ++ ·) hnewItems.symm
  case faultless => exact h.faultless

theorem Inv.swingTail (h : q.Inv R C chain) {tail next : Ptr}
    (hnext : nextOf q.heap tail = some next) : (q.swingTail tail next).Inv R C chain := by
  unfold LLQueue.swingTail
  split
  next heq =>
    subst heq
    have hmem : next ∈ chain.tail := h.segment.next_mem_tail h.tail hnext
    have hne : next ≠ q.head := by
      rintro rfl
      obtain ⟨rest, rfl⟩ := List.head?_eq_some_iff.mp h.head
      exact (List.nodup_cons.mp h.nodup).1 hmem
    exact
      { h with
        tail := List.mem_of_mem_tail hmem
        threads := fun u => (h.threads u).leaves
          (View.leaves_swingTail (fun _ => id) hnext hne) }
  next => exact h

@[simp] theorem swingTail_pc (tail next : Ptr) : (q.swingTail tail next).pc = q.pc := by
  unfold LLQueue.swingTail
  split <;> rfl

theorem Inv.popSwing (h : q.Inv R C chain) {next : Ptr} {item : Value}
    (hpc : q.pc t = .popSwing q.head next item) :
    ((q.swingHead q.head next item).goto t (.popRetire q.head item)).Inv R C chain.tail := by
  obtain ⟨-, ⟨-, hbehind, hnext⟩, hitem⟩ : (q.view R chain t).Held next ∧
    (q.view R chain t).CanSwing q.head next ∧ itemOf q.heap next = some item := h.known hpc
  have hnextOf : nextOf q.heap q.head = some next := hnext rfl
  obtain ⟨rest, rfl⟩ : ∃ rest, chain = q.head :: next :: rest := by
    obtain ⟨rest, rfl⟩ := List.head?_eq_some_iff.mp h.head
    obtain ⟨rest, rfl⟩ := List.head?_eq_some_iff.mp
      (h.segment.next_head.symm.trans hnextOf)
    exact ⟨rest, rfl⟩
  obtain ⟨hnotMem, hnodup⟩ := List.nodup_cons.mp h.nodup
  have hlimbo : q.head ∉ q.limbo := fun hmem => h.limbo_chain _ hmem List.mem_cons_self
  constructor
  case segment => exact h.segment.tail
  case nodup => exact hnodup
  case allocated => exact fun p hp => h.allocated p (List.mem_cons_of_mem _ hp)
  case head => rfl
  case tail => exact (List.mem_cons.mp h.tail).resolve_left (hbehind rfl)
  case limbo_nodup => exact List.nodup_cons.mpr ⟨hlimbo, h.limbo_nodup⟩
  case limbo_chain =>
    intro p hp hmem
    rcases List.mem_cons.mp hp with rfl | hp
    · exact hnotMem hmem
    · exact h.limbo_chain p hp (List.mem_cons_of_mem _ hmem)
  case limbo_next =>
    intro p hp
    rcases List.mem_cons.mp hp with rfl | hp
    · exact Option.isSome_iff_exists.mpr ⟨next, hnextOf⟩
    · exact h.limbo_next p hp
  case registered => exact h.registered_update hpc nofun
  case new => exact h.new.keep nofun
  case dropped =>
    refine h.dropped.update fun p hp u _ hu => ?_
    obtain rfl : q.head = p := Option.some.inj hp
    exact hlimbo (h.dropped_limbo u q.head hu).1
  case dropped_limbo =>
    refine (Function.forall_update_iff _ fun _ (pc : Pc) => ∀ p ∈ pc.dropped,
      p ∈ q.head :: q.limbo ∧ ∀ u, p ∉ q.retired u).mpr ⟨fun p hp => ?_, fun u _ p hp => ?_⟩
    · obtain rfl : q.head = p := Option.some.inj hp
      exact ⟨List.mem_cons_self, fun u hu => hlimbo (h.listed u q.head hu)⟩
    · obtain ⟨hmem, hlist⟩ := h.dropped_limbo u p hp
      exact ⟨List.mem_cons_of_mem _ hmem, hlist⟩
  case listed => exact fun u p hp => List.mem_cons_of_mem _ (h.listed u p hp)
  case retired_nodup => exact h.retired_nodup
  case disjoint => exact h.disjoint
  case called => exact h.called_update hpc fun _ => id
  case threads =>
    refine (Function.forall_update_iff _ fun u (pc : Pc) =>
      (((q.swingHead q.head next item).goto t (.popRetire q.head item)).view R (next :: rest)
        u).At pc).mpr ⟨trivial, fun u _ => ?_⟩
    exact (h.threads u).leaves (View.leaves_swingHead (fun p hp => ahead_update nofun hp) rfl
      h.nodup h.limbo_chain (h.allocated next (by simp)))
  case values =>
    have hitems : items q.heap (next :: rest) = item :: items q.heap rest :=
      List.filterMap_cons_some hitem
    have hvalues : q.linked = q.popped ++ items q.heap (next :: rest) := h.values
    rw [hitems] at hvalues
    change q.linked = q.popped ++ [item] ++ items q.heap rest
    rw [hvalues, List.append_assoc]
    rfl
  case faultless => exact h.faultless

theorem Inv.retire (h : q.Inv R C chain) {head : Ptr} {item : Value} {x : Pc}
    (hpc : q.pc t = .popRetire head item) (hx : x = .popScan item 0 0 ∨ x = .popClear (some item)) :
    ((q.retire t head).goto t x).Inv R C chain := by
  have hmem : head ∈ (q.pc t).dropped := by rw [hpc]; rfl
  obtain ⟨hlimbo, hlist⟩ := h.dropped_limbo t head hmem
  have hnew : x.new = none := by obtain rfl | rfl := hx <;> rfl
  have hdropped : x.dropped = none := by obtain rfl | rfl := hx <;> rfl
  have hcall : x.call t = some (.pop t) := by obtain rfl | rfl := hx <;> rfl
  have hscan : ∀ item' node slot, x = .popScan item' node slot → slot = 0 := by
    obtain rfl | rfl := hx
    · rintro _ _ _ heq
      cases heq
      rfl
    · nofun
  have hahead : ∀ {u p}, q.Ahead u p → ((q.retire t head).goto t x).Ahead u p :=
    ahead_retired rfl (fun _ hv => Function.update_of_ne hv _ _) hscan
  exact
    { h with
      registered := h.registered_update hpc nofun
      new := h.new.keep fun p hp => nomatch hnew.symm.trans hp
      dropped := h.dropped.keep fun p hp => nomatch hdropped.symm.trans hp
      dropped_limbo := by
        refine (Function.forall_update_iff _ fun _ (pc : Pc) => ∀ p ∈ pc.dropped, p ∈ q.limbo ∧
          ∀ u, p ∉ Function.update q.retired t (head :: q.retired t) u).mpr
          ⟨fun p hp => (nomatch hdropped.symm.trans hp), fun u hu p hp => ?_⟩
        obtain ⟨hp', hlist'⟩ := h.dropped_limbo u p hp
        have hne : p ≠ head := fun heq => hu (h.dropped u t p hp (heq ▸ hmem))
        refine ⟨hp', (Function.forall_update_iff _ fun _ (list : List Ptr) => p ∉ list).mpr
          ⟨fun hcons => ?_, fun v _ => hlist' v⟩⟩
        exact (List.mem_cons.mp hcons).elim hne (hlist' t)
      listed := (Function.forall_update_iff _ fun _ (list : List Ptr) => ∀ p ∈ list,
        p ∈ q.limbo).mpr
        ⟨List.forall_mem_cons.mpr ⟨hlimbo, h.listed t⟩, fun u _ => h.listed u⟩
      retired_nodup := (Function.forall_update_iff _ fun _ (list : List Ptr) => list.Nodup).mpr
        ⟨List.nodup_cons.mpr ⟨hlist t, h.retired_nodup t⟩, fun u _ => h.retired_nodup u⟩
      disjoint := disjoint_update h.disjoint fun u hu =>
        List.disjoint_cons_left.mpr ⟨hlist u, h.disjoint t u hu.symm⟩
      called := h.called_update hpc fun e he => hcall.symm.trans he
      threads := (Function.forall_update_iff _ fun u (pc : Pc) =>
        (((q.retire t head).goto t x).view R chain u).At pc).mpr
        ⟨by obtain rfl | rfl := hx <;> trivial,
          fun u _ => (h.threads u).leaves (View.leaves_ahead fun _ _ => hahead)⟩ }

/-- The scan goes on, to a slot that no hazard pointer has been left behind of. -/
private theorem Inv.scanOn (h : q.Inv R C chain) {item : Value} {node slot node' slot' : Nat}
    (hpc : q.pc t = .popScan item node slot)
    (hslot : ∀ u p, q.pointer u = some p → q.Ahead u p → (q.retired t)[node']? = some p →
      slot' ≤ u) : (q.goto t (.popScan item node' slot')).Inv R C chain :=
  { h with
    registered := h.registered_update hpc nofun
    new := h.new.keep nofun
    dropped := h.dropped.keep nofun
    dropped_limbo := h.dropped_update rfl
    called := h.called_update hpc fun _ => id
    threads := by
      refine (Function.forall_update_iff _ fun u (pc : Pc) =>
        ((q.goto t (.popScan item node' slot')).view R chain u).At pc).mpr
        ⟨trivial, fun u _ => (h.threads u).leaves (View.leaves_ahead fun p hp hahead => ?_)⟩
      intro v item' i j hv hnode
      rcases eq_or_ne v t with rfl | hne
      · cases (Function.update_self _ _ _).symm.trans hv
        exact hslot u p hp hahead hnode
      · exact hahead v item' i j ((Function.update_of_ne hne _ _).symm.trans hv) hnode }

theorem Inv.release (h : q.Inv R C chain) {item : Value} {node slot : Nat} {p : Ptr}
    (hpc : q.pc t = .popScan item node slot) (hnode : (q.retired t)[node]? = some p)
    (hslot : ¬ slot < q.numThreads) :
    ((q.release t node p).goto t (.popScan item node 0)).Inv R C chain := by
  have hmem : p ∈ q.retired t := List.mem_of_getElem? hnode
  have hlimbo : p ∈ q.limbo := h.listed t p hmem
  have hsub : ∀ r ∈ (q.retired t).eraseIdx node, r ∈ q.retired t ∧ r ≠ p := by
    intro r hr
    have herase : (q.retired t).eraseIdx node = (q.retired t).erase p := by
      obtain ⟨hlt, hget⟩ := List.getElem?_eq_some_iff.mp hnode
      rw [← hget, (h.retired_nodup t).erase_getElem]
    rw [herase, (h.retired_nodup t).mem_erase_iff] at hr
    exact ⟨hr.2, hr.1⟩
  have hchain : ∀ r ∈ chain, r ≠ p := fun r hr heq => h.limbo_chain p hlimbo (heq ▸ hr)
  have herase : ∀ {r}, r ∈ q.limbo → r ≠ p → r ∈ q.limbo.erase p := fun hr hne =>
    (List.mem_erase_of_ne hne).mpr hr
  have hscan : ∀ item' i j, Pc.popScan item node 0 = .popScan item' i j → j = 0 := by
    rintro _ _ _ heq
    cases heq
    rfl
  have hahead : ∀ {u r}, q.Ahead u r →
      ((q.release t node p).goto t (.popScan item node 0)).Ahead u r :=
    ahead_retired rfl (fun _ hv => Function.update_of_ne hv _ _) hscan
  constructor
  case segment =>
    exact h.segment.congr fun r hr => View.nextOf_update_of_ne (hchain r hr) _
  case nodup => exact h.nodup
  case allocated =>
    intro r hr
    exact (congrArg Option.isSome (Function.update_of_ne (hchain r hr) _ _)).trans
      (h.allocated r hr)
  case head => exact h.head
  case tail => exact h.tail
  case limbo_nodup => exact h.limbo_nodup.erase p
  case limbo_chain => exact fun r hr => h.limbo_chain r (List.mem_of_mem_erase hr)
  case limbo_next =>
    intro r hr
    obtain ⟨hne, hr⟩ := h.limbo_nodup.mem_erase_iff.mp hr
    exact (congrArg Option.isSome (View.nextOf_update_of_ne hne _)).trans (h.limbo_next r hr)
  case registered => exact h.registered_update hpc nofun
  case new => exact h.new.keep nofun
  case dropped => exact h.dropped.keep nofun
  case dropped_limbo =>
    refine (Function.forall_update_iff _ fun _ (pc : Pc) => ∀ r ∈ pc.dropped,
      r ∈ q.limbo.erase p ∧
        ∀ u, r ∉ Function.update q.retired t ((q.retired t).eraseIdx node) u).mpr
      ⟨nofun, fun u _ r hr => ?_⟩
    obtain ⟨hr', hlist⟩ := h.dropped_limbo u r hr
    refine ⟨herase hr' fun heq => hlist t (heq ▸ hmem), ?_⟩
    exact (Function.forall_update_iff _ fun _ (list : List Ptr) => r ∉ list).mpr
      ⟨fun hr => hlist t (hsub r hr).1, fun v _ => hlist v⟩
  case listed =>
    refine (Function.forall_update_iff _ fun _ (list : List Ptr) => ∀ r ∈ list,
      r ∈ q.limbo.erase p).mpr ⟨fun r hr => ?_, fun u hu r hr => ?_⟩
    · exact herase (h.listed t r (hsub r hr).1) (hsub r hr).2
    · exact herase (h.listed u r hr) fun heq => h.disjoint u t hu hr (heq ▸ hmem)
  case retired_nodup =>
    exact (Function.forall_update_iff _ fun _ (list : List Ptr) => list.Nodup).mpr
      ⟨(h.retired_nodup t).eraseIdx node, fun u _ => h.retired_nodup u⟩
  case disjoint =>
    exact disjoint_update h.disjoint fun u hu r hr hr' =>
      h.disjoint t u hu.symm (hsub r hr).1 hr'
  case called => exact h.called_update hpc fun _ => id
  case threads =>
    refine (Function.forall_update_iff _ fun u (pc : Pc) =>
      (((q.release t node p).goto t (.popScan item node 0)).view R chain u).At pc).mpr
      ⟨trivial, fun u _ => ?_⟩
    by_cases hidle : q.pc u = .idle
    · change View.At _ (q.pc u)
      rw [hidle]
      trivial
    · refine (h.threads u).leaves (View.leaves_free (fun r hr => hahead hr) ?_
        (h.limbo_next p hlimbo) (hchain q.head h.head_mem))
      -- a slot that holds the pointer would not have been passed
      rintro r - hr rfl
      exact hslot (Nat.lt_of_le_of_lt (hr t item node slot hpc hnode) (h.registered u hidle))
  case values =>
    have hitems : items (Function.update q.heap p none) chain.tail = items q.heap chain.tail :=
      items_congr fun r hr => View.itemOf_update_of_ne (hchain r (List.mem_of_mem_tail hr)) _
    exact h.values.trans (congrArg (q.popped ++ ·) hitems.symm)
  case faultless => exact h.faultless

/-! ### Every step -/

/-- A head without a next node is the only node. -/
private theorem Inv.empty_of_next_none (h : q.Inv R C chain) {head : Ptr} {node : Node}
    (hpast : (q.view R chain t).Past head) (hnode : q.heap head = some node)
    (hnone : node.next = none) : q.Empty := by
  have hnext : nextOf q.heap head = none := (nextOf_of_eq hnode).trans hnone
  rcases hpast with hhead | hlimbo | hfreed
  · obtain rfl : q.head = head := hhead
    obtain ⟨rest, rfl⟩ := List.head?_eq_some_iff.mp h.head
    have hrest : rest = [] := List.head?_eq_none_iff.mp (h.segment.next_head.symm.trans hnext)
    have hvalues : q.linked = q.popped ++ items q.heap rest := h.values
    rw [hrest] at hvalues
    exact hvalues.trans (List.append_nil _)
  · have hsome := h.limbo_next head hlimbo
    rw [hnext] at hsome
    cases hsome
  · cases hnode.symm.trans hfreed

private theorem Inv.node_of_held (h : q.Inv R C chain) {p : Ptr} (hp : (q.view R chain t).Held p) :
    ∃ node, q.heap p = some node :=
  Option.isSome_iff_exists.mp (h.linked_isSome p hp.2.1)

private theorem Inv.held_of_mem (h : q.Inv R C chain) {p : Ptr} (hpointer : q.pointer t = some p)
    (hp : p ∈ chain) : (q.view R chain t).Held p :=
  ⟨hpointer, .inl hp, h.ahead_of_mem hp⟩

/-! #### Pushes -/

section Pushes

variable {item : Value} {newNode tail next : Ptr} {link : Option Ptr}

private theorem Inv.advance_pushCheck (h : q.Inv R C chain)
    (hpc : q.pc t = .pushCheck item newNode tail) :
    (q.goto t (if tail = q.tail then .pushNext item newNode tail
      else .pushLoad item newNode)).Inv R C chain := by
  obtain ⟨hnew, hpointer⟩ := h.known hpc
  split
  next heq =>
    subst heq
    exact h.stay hpc ⟨nofun, nofun, fun _ => id, rfl, nofun⟩
      ⟨hnew, h.held_of_mem hpointer h.tail, fun _ => rfl⟩
  next => exact h.stay hpc ⟨nofun, nofun, fun _ => id, rfl, nofun⟩ hnew

private theorem Inv.advance_pushNext (h : q.Inv R C chain)
    (hpc : q.pc t = .pushNext item newNode tail) : (q.access tail fun node =>
      q.goto t (.pushAgain item newNode tail node.next)).Inv R C chain := by
  obtain ⟨hnew, hheld, hlast⟩ := h.known hpc
  obtain ⟨node, hnode⟩ := h.node_of_held hheld
  simp only [access, hnode]
  exact h.stay hpc ⟨nofun, nofun, fun _ => id, rfl, nofun⟩
    ⟨hnew, hheld, hlast, fun n hn => (nextOf_of_eq hnode).trans hn⟩

private theorem Inv.advance_pushAgain (h : q.Inv R C chain) :
    q.pc t = .pushAgain item newNode tail link →
      (q.goto t (if tail = q.tail then
          match link with
          | none => .pushLink item newNode tail
          | some next => .pushHelp item newNode tail next
        else .pushRetry item newNode)).Inv R C chain := by
  intro hpc
  obtain ⟨hnew, hheld, hlast, hnext⟩ := h.known hpc
  split
  next =>
    cases link with
    | none => exact h.stay hpc ⟨nofun, nofun, fun _ => id, rfl, nofun⟩ ⟨hnew, hheld, hlast⟩
    | some next =>
        exact h.stay hpc ⟨nofun, nofun, fun _ => id, rfl, nofun⟩ ⟨hnew, hheld, hnext next rfl⟩
  next => exact h.stay hpc ⟨nofun, nofun, fun _ => id, rfl, nofun⟩ hnew

/-- The compare-exchange of `tail->next`, with both of its outcomes. -/
private theorem Inv.advance_pushLink (h : q.Inv R C chain)
    (hpc : q.pc t = .pushLink item newNode tail) :
    ∃ chain', (q.access tail fun node =>
      if node.next = none then (q.link tail node newNode item).goto t (.pushSwing newNode tail)
      else q.goto t (.pushRetry item newNode)).Inv R C chain' := by
  obtain ⟨hnew, hheld, -⟩ := h.known hpc
  obtain ⟨node, hnode⟩ := h.node_of_held hheld
  simp only [access, hnode]
  split
  next hnone => exact ⟨chain ++ [newNode], h.pushLink hpc hnode hnone⟩
  next => exact ⟨chain, h.stay hpc ⟨nofun, nofun, fun _ => id, rfl, nofun⟩ hnew⟩

private theorem Inv.advance_pushSwing (h : q.Inv R C chain)
    (hpc : q.pc t = .pushSwing newNode tail) :
    ((q.swingTail tail newNode).goto t .pushClear).Inv R C chain := by
  have hpc' := (congrFun (swingTail_pc tail newNode) t).trans hpc
  exact (h.swingTail (h.known hpc).2).stay hpc' ⟨nofun, nofun, nofun, rfl, nofun⟩ trivial

private theorem Inv.advance_pushHelp (h : q.Inv R C chain)
    (hpc : q.pc t = .pushHelp item newNode tail next) :
    ((q.swingTail tail next).goto t (.pushRetry item newNode)).Inv R C chain := by
  have hswing := h.swingTail (h.known hpc).2.2
  have hpc' := (congrFun (swingTail_pc tail next) t).trans hpc
  exact hswing.stay hpc' ⟨nofun, nofun, fun _ => id, rfl, nofun⟩ (hswing.known hpc').1

end Pushes

/-! #### Pops -/

section Pops

variable {item : Value} {head tail next headNode : Ptr} {link : Option Ptr} {node slot : Nat}

private theorem Inv.advance_popCheck (h : q.Inv R C chain) (hpc : q.pc t = .popCheck head) :
    (q.goto t (if head = q.head then .popTail head else .popLoad)).Inv R C chain := by
  have hpointer := h.known hpc
  split
  next heq =>
    subst heq
    exact h.stay hpc ⟨nofun, nofun, nofun, rfl, fun _ => id⟩
      ⟨h.held_of_mem hpointer h.head_mem, .inl rfl⟩
  next => exact h.stay hpc ⟨nofun, nofun, nofun, rfl, fun _ => id⟩ trivial

private theorem Inv.advance_popNext (h : q.Inv R C chain) (hnow : q.Empty → ∀ e, C e → R e)
    (hpc : q.pc t = .popNext head tail) :
    (q.access head fun node => q.goto t (.popAgain head tail node.next)).Inv R C chain := by
  obtain ⟨hheld, hpast, hbehind⟩ := h.known hpc
  obtain ⟨node, hnode⟩ := h.node_of_held hheld
  simp only [access, hnode]
  have hempty : node.next = none → R (.pop t) := fun hnone =>
    hnow (h.empty_of_next_none hpast hnode hnone) _ (h.called t _ (by rw [hpc]; rfl))
  exact h.stay hpc ⟨nofun, nofun, nofun, rfl, fun _ => id⟩
    ⟨hheld, hpast, hbehind, fun n hn => (nextOf_of_eq hnode).trans hn, hempty⟩

private theorem Inv.advance_popAgain (h : q.Inv R C chain) :
    q.pc t = .popAgain head tail link →
      (q.goto t (if head = q.head then
          if head = tail then
            match link with
            | none => .popClear none
            | some next => .popHelp tail next
          else .popProtect head link
        else .popLoad)).Inv R C chain := by
  intro hpc
  obtain ⟨hheld, hpast, hbehind, hnext, hempty⟩ := h.known hpc
  split
  next =>
    split
    next heq =>
      cases link with
      | none => exact h.stay hpc ⟨nofun, nofun, nofun, rfl, fun _ => id⟩ (hempty rfl)
      | some next =>
          exact h.stay hpc ⟨nofun, nofun, nofun, rfl, fun _ => id⟩
            (heq ▸ ⟨hheld, hnext next rfl⟩)
    next hne =>
      exact h.stay hpc ⟨nofun, nofun, nofun, rfl, fun _ => id⟩ ⟨hheld, hpast, hbehind hne, hnext⟩
  next => exact h.stay hpc ⟨nofun, nofun, nofun, rfl, fun _ => id⟩ trivial

private theorem Inv.advance_popHelp (h : q.Inv R C chain) (hpc : q.pc t = .popHelp tail next) :
    ((q.swingTail tail next).goto t .popLoad).Inv R C chain := by
  have hpc' := (congrFun (swingTail_pc tail next) t).trans hpc
  exact (h.swingTail (h.known hpc).2).stay hpc' ⟨nofun, nofun, nofun, rfl, fun _ => id⟩ trivial

private theorem Inv.advance_popProtect (h : q.Inv R C chain) :
    q.pc t = .popProtect head link →
      ((q.publish t link).goto t
        (match link with
        | none => .popLoad
        | some next => .popHeadAgain head next)).Inv R C chain := by
  intro hpc
  obtain ⟨-, hpast, hbehind, hnext⟩ := h.known hpc
  cases link with
  | none => exact h.move hpc ⟨nofun, nofun, nofun, rfl, fun _ => id⟩ trivial
  | some next =>
      exact h.move hpc ⟨nofun, nofun, nofun, rfl, fun _ => id⟩
        ⟨rfl, hpast, hbehind, fun _ => hnext next rfl⟩

/-- As long as the head was not left behind, its next node is in the chain. -/
private theorem Inv.advance_popHeadAgain (h : q.Inv R C chain)
    (hpc : q.pc t = .popHeadAgain head next) :
    (q.goto t (.popNextAgain head next q.head)).Inv R C chain := by
  obtain ⟨hpointer, hswing⟩ := h.known hpc
  have hin : (q.view R chain t).InTime q.head next := fun hnext => by
    have hmem := List.mem_of_mem_tail (h.segment.next_mem_tail h.head_mem hnext)
    exact ⟨.inl hmem, h.ahead_of_mem hmem⟩
  exact h.stay hpc ⟨nofun, nofun, nofun, rfl, fun _ => id⟩ ⟨hpointer, hswing, .inl rfl, hin⟩

private theorem Inv.advance_popNextAgain (h : q.Inv R C chain)
    (hpc : q.pc t = .popNextAgain head next headNode) (hread : (q.heap headNode).isSome) :
    (q.access headNode fun node =>
      q.goto t
        (if some next = node.next then .popItem head next else .popRetry)).Inv R C chain := by
  obtain ⟨hpointer, hswing, -, hin⟩ := h.known hpc
  obtain ⟨node, hnode⟩ := Option.isSome_iff_exists.mp hread
  simp only [access, hnode]
  split
  next heq =>
    obtain ⟨hlinked, hahead⟩ := hin ((nextOf_of_eq hnode).trans heq.symm)
    exact h.stay hpc ⟨nofun, nofun, nofun, rfl, fun _ => id⟩ ⟨⟨hpointer, hlinked, hahead⟩, hswing⟩
  next => exact h.stay hpc ⟨nofun, nofun, nofun, rfl, fun _ => id⟩ trivial

private theorem Inv.advance_popItem (h : q.Inv R C chain) (hpc : q.pc t = .popItem head next) :
    (q.access next fun node => q.goto t (.popSwing head next node.item)).Inv R C chain := by
  obtain ⟨hheld, hswing⟩ := h.known hpc
  obtain ⟨node, hnode⟩ := h.node_of_held hheld
  simp only [access, hnode]
  exact h.stay hpc ⟨nofun, nofun, nofun, rfl, fun _ => id⟩
    ⟨hheld, hswing, congrArg (Option.map Node.item) hnode⟩

private theorem Inv.advance_popSwing (h : q.Inv R C chain)
    (hpc : q.pc t = .popSwing head next item) :
    ∃ chain', (if q.head = head then (q.swingHead head next item).goto t (.popRetire head item)
      else q.goto t .popLoad).Inv R C chain' := by
  split
  next heq =>
    subst heq
    exact ⟨chain.tail, h.popSwing hpc⟩
  next => exact ⟨chain, h.stay hpc ⟨nofun, nofun, nofun, rfl, fun _ => id⟩ trivial⟩

private theorem Inv.advance_popRetire (h : q.Inv R C chain) (hpc : q.pc t = .popRetire head item) :
    ((q.retire t head).goto t
      (if (q.retired t).length + 1 > HazardPointer.retiredThreshold then .popScan item 0 0
      else .popClear (some item))).Inv R C chain := by
  split
  next => exact h.retire hpc (.inl rfl)
  next => exact h.retire hpc (.inr rfl)

private theorem Inv.advance_popScan (h : q.Inv R C chain) (hpc : q.pc t = .popScan item node slot) :
    (q.scan t item node slot).Inv R C chain := by
  unfold LLQueue.scan
  cases hnode : (q.retired t)[node]? with
  | none => exact h.stay hpc ⟨nofun, nofun, nofun, rfl, fun _ => id⟩ trivial
  | some p =>
      by_cases hslot : slot < q.numThreads
      · by_cases hreserved : q.pointer slot = some p
        · simp only [if_pos hslot, if_pos hreserved]
          exact h.scanOn hpc fun u _ _ _ _ => Nat.zero_le u
        · simp only [if_pos hslot, if_neg hreserved]
          refine h.scanOn hpc fun u r hr hahead hnode' => ?_
          have hle : slot ≤ u := hahead t item node slot hpc hnode'
          rcases Nat.lt_or_eq_of_le hle with hlt | rfl
          · exact hlt
          · obtain rfl := Option.some.inj (hnode.symm.trans hnode')
            exact absurd hr hreserved
      · have hlimbo := h.listed t p (List.mem_of_getElem? hnode)
        obtain ⟨cell, hcell⟩ := Option.isSome_iff_exists.mp
          (isSome_of_nextOf (h.limbo_next p hlimbo))
        simp only [if_neg hslot, access, hcell]
        exact h.release hpc hnode hslot

end Pops

private theorem Inv.advance_emptyNext (h : q.Inv R C chain) (hnow : q.Empty → ∀ e, C e → R e)
    {headNode : Ptr} (hpc : q.pc t = .emptyNext headNode) (hread : (q.heap headNode).isSome) :
    (q.access headNode fun node => q.goto t (.emptyDone node.next.isNone)).Inv R C chain := by
  have hpast := h.known hpc
  obtain ⟨node, hnode⟩ := Option.isSome_iff_exists.mp hread
  simp only [access, hnode]
  cases hnext : node.next with
  | none =>
      have hempty : R (.isEmpty t) :=
        hnow (h.empty_of_next_none hpast hnode hnext) _ (h.called t _ (by rw [hpc]; rfl))
      exact h.stay hpc ⟨nofun, nofun, nofun, rfl, fun _ => id⟩ hempty
  | some next => exact h.stay hpc ⟨nofun, nofun, nofun, rfl, fun _ => id⟩ trivial

/-! #### All together -/

theorem Inv.advance (h : q.Inv R C chain) (hnow : q.Empty → ∀ e, C e → R e)
    (hguard : q.Guarded (.next t fresh)) (hstep : q.advance t fresh = some q') :
    ∃ chain', q'.Inv R C chain' := by
  unfold LLQueue.advance at hstep
  obtain ⟨hfresh, hread⟩ := hguard
  cases hpc : q.pc t with
  | idle => simp [hpc] at hstep
  | pushNew item =>
      simp only [hpc, Option.ite_none_right_eq_some, Option.some.injEq] at hstep
      obtain ⟨hfree, rfl⟩ := hstep
      refine ⟨chain, h.pushNew hpc hfree fun u => ?_⟩
      by_cases hidle : q.pc u = .idle
      · rw [hidle]
        exact List.not_mem_nil
      · exact hfresh (by rw [hpc]; trivial) u (h.registered u hidle)
  | pushLoad item newNode =>
      have hat := h.known hpc
      simp only [hpc, Option.some.injEq] at hstep
      exact ⟨chain, hstep ▸ h.stay hpc ⟨nofun, nofun, fun _ => id, rfl, nofun⟩ hat⟩
  | pushStore item newNode tail =>
      have hat := h.known hpc
      simp only [hpc, Option.some.injEq] at hstep
      exact ⟨chain, hstep ▸ h.move hpc ⟨nofun, nofun, fun _ => id, rfl, nofun⟩ ⟨hat, rfl⟩⟩
  | pushCheck item newNode tail =>
      simp only [hpc, Option.some.injEq] at hstep
      exact ⟨chain, hstep ▸ h.advance_pushCheck hpc⟩
  | pushNext item newNode tail =>
      simp only [hpc, Option.some.injEq] at hstep
      exact ⟨chain, hstep ▸ h.advance_pushNext hpc⟩
  | pushAgain item newNode tail next =>
      simp only [hpc, Option.some.injEq] at hstep
      exact ⟨chain, hstep ▸ h.advance_pushAgain hpc⟩
  | pushLink item newNode tail =>
      simp only [hpc, Option.some.injEq] at hstep
      exact hstep ▸ h.advance_pushLink hpc
  | pushSwing newNode tail =>
      simp only [hpc, Option.some.injEq] at hstep
      exact ⟨chain, hstep ▸ h.advance_pushSwing hpc⟩
  | pushHelp item newNode tail next =>
      simp only [hpc, Option.some.injEq] at hstep
      exact ⟨chain, hstep ▸ h.advance_pushHelp hpc⟩
  | pushRetry item newNode =>
      have hat := h.known hpc
      simp only [hpc, Option.some.injEq] at hstep
      exact ⟨chain, hstep ▸ h.move hpc ⟨nofun, nofun, fun _ => id, rfl, nofun⟩ hat⟩
  | pushClear =>
      simp only [hpc, Option.some.injEq] at hstep
      exact ⟨chain, hstep ▸ h.move hpc ⟨nofun, nofun, nofun, rfl, nofun⟩ trivial⟩
  | popLoad =>
      simp only [hpc, Option.some.injEq] at hstep
      exact ⟨chain, hstep ▸ h.stay hpc ⟨nofun, nofun, nofun, rfl, fun _ => id⟩ trivial⟩
  | popStore head =>
      simp only [hpc, Option.some.injEq] at hstep
      exact ⟨chain, hstep ▸ h.move hpc ⟨nofun, nofun, nofun, rfl, fun _ => id⟩ rfl⟩
  | popCheck head =>
      simp only [hpc, Option.some.injEq] at hstep
      exact ⟨chain, hstep ▸ h.advance_popCheck hpc⟩
  | popTail head =>
      have hat := h.known hpc
      simp only [hpc, Option.some.injEq] at hstep
      exact ⟨chain, hstep ▸ h.stay hpc ⟨nofun, nofun, nofun, rfl, fun _ => id⟩
        ⟨hat.1, hat.2, fun hne _ => hne.symm⟩⟩
  | popNext head tail =>
      simp only [hpc, Option.some.injEq] at hstep
      exact ⟨chain, hstep ▸ h.advance_popNext hnow hpc⟩
  | popAgain head tail next =>
      simp only [hpc, Option.some.injEq] at hstep
      exact ⟨chain, hstep ▸ h.advance_popAgain hpc⟩
  | popHelp tail next =>
      simp only [hpc, Option.some.injEq] at hstep
      exact ⟨chain, hstep ▸ h.advance_popHelp hpc⟩
  | popProtect head next =>
      simp only [hpc, Option.some.injEq] at hstep
      exact ⟨chain, hstep ▸ h.advance_popProtect hpc⟩
  | popHeadAgain head next =>
      simp only [hpc, Option.some.injEq] at hstep
      exact ⟨chain, hstep ▸ h.advance_popHeadAgain hpc⟩
  | popNextAgain head next headNode =>
      have hsome := hread headNode (by rw [hpc]; rfl)
      simp only [hpc, Option.some.injEq] at hstep
      exact ⟨chain, hstep ▸ h.advance_popNextAgain hpc hsome⟩
  | popRetry =>
      simp only [hpc, Option.some.injEq] at hstep
      exact ⟨chain, hstep ▸ h.move hpc ⟨nofun, nofun, nofun, rfl, fun _ => id⟩ trivial⟩
  | popItem head next =>
      simp only [hpc, Option.some.injEq] at hstep
      exact ⟨chain, hstep ▸ h.advance_popItem hpc⟩
  | popSwing head next item =>
      simp only [hpc, Option.some.injEq] at hstep
      exact hstep ▸ h.advance_popSwing hpc
  | popRetire head item =>
      simp only [hpc, Option.some.injEq] at hstep
      exact ⟨chain, hstep ▸ h.advance_popRetire hpc⟩
  | popScan item node slot =>
      simp only [hpc, Option.some.injEq] at hstep
      exact ⟨chain, hstep ▸ h.advance_popScan hpc⟩
  | popClear item =>
      simp only [hpc, Option.some.injEq] at hstep
      exact ⟨chain, hstep ▸ h.move hpc ⟨nofun, nofun, nofun, rfl, nofun⟩ trivial⟩
  | emptyHead =>
      simp only [hpc, Option.some.injEq] at hstep
      exact ⟨chain, hstep ▸ h.stay hpc ⟨nofun, nofun, nofun, rfl, fun _ => id⟩ (.inl rfl)⟩
  | emptyNext headNode =>
      have hsome := hread headNode (by rw [hpc]; rfl)
      simp only [hpc, Option.some.injEq] at hstep
      exact ⟨chain, hstep ▸ h.advance_emptyNext hnow hpc hsome⟩
  | emptyDone isEmpty =>
      simp only [hpc, Option.some.injEq] at hstep
      exact ⟨chain, hstep ▸ h.stay hpc ⟨nofun, nofun, nofun, rfl, nofun⟩ trivial⟩

theorem Inv.answers (h : q.Inv R C chain) :
    q.popped <+: q.linked ∧ q.fault = false ∧
      (∀ t, q.pc t = .popClear none → R (.pop t)) ∧
      ∀ t, q.pc t = .emptyDone true → R (.isEmpty t) := by
  refine ⟨?_, h.faultless, fun t hpc => ?_, fun t hpc => ?_⟩
  · rw [h.values]
    exact List.prefix_append _ _
  · exact h.known hpc
  · exact h.known hpc

theorem Inv.start (h : q.Inv R C chain) {x : Pc} (hx : Starts event t x) (ht : t < q.numThreads)
    (hevent : C event) : (q.goto t x).Inv R C chain := by
  obtain ⟨hscan, hnew, hdropped, -, hcall⟩ := hx.plain
  exact
    { h with
      registered := (Function.forall_update_iff _ fun u (pc : Pc) => pc ≠ .idle →
        u < q.numThreads).mpr ⟨fun _ => ht, fun u _ => h.registered u⟩
      new := h.new.keep fun p hp => nomatch hnew.symm.trans hp
      dropped := h.dropped.keep fun p hp => nomatch hdropped.symm.trans hp
      dropped_limbo := h.dropped_update hdropped
      called := (Function.forall_update_iff _ fun u (pc : Pc) => ∀ e ∈ pc.call u, C e).mpr
        ⟨fun e he => hcall e he ▸ hevent, fun u _ => h.called u⟩
      threads := (Function.forall_update_iff _ fun u (pc : Pc) =>
        ((q.goto t x).view R chain u).At pc).mpr
        ⟨hx.at _,
          fun u _ => (h.threads u).leaves (View.leaves_ahead fun p _ => ahead_update hscan)⟩ }

theorem inv_new (numThreads : Nat) (hthreads : numThreads ≤ HazardPointer.maxThreads)
    (newNode : Ptr) : (new numThreads hthreads newNode).Inv R C [newNode] where
  segment := by simp [Segment, nextOf, new]
  nodup := List.nodup_singleton _
  allocated p hp := by
    obtain rfl := List.mem_singleton.mp hp
    simp [new]
  head := rfl
  tail := List.mem_singleton_self newNode
  limbo_nodup := List.nodup_nil
  limbo_chain _ := nofun
  limbo_next _ := nofun
  registered _ hne := absurd rfl hne
  new _ _ _ := nofun
  dropped _ _ _ := nofun
  dropped_limbo _ _ := nofun
  listed _ _ := nofun
  retired_nodup _ := List.nodup_nil
  disjoint _ _ _ := List.disjoint_nil_left _
  called _ _ := nofun
  threads _ := trivial
  values := rfl
  faultless := rfl

end Steps

end LLQueue

end Mimuw.Queues
