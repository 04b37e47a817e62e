import Mimuw.Lib.Since
import Mimuw.Queues.LLInvariant

/-!
# Runs of the queue without locks

Pops take the values in the order they were linked in.  Freed memory can spoil that, as
the `next` of the head is read without protection; while no thread calls many pops,
nothing is freed.
-/

namespace Mimuw.Queues

open Mimuw.Lib

namespace LLQueue

section Runs

variable {numThreads : Nat} {hthreads : numThreads ≤ HazardPointer.maxThreads} {newNode : Ptr}

theorem inv_run {events : List Event} {q : LLQueue}
    (hguarded : Meets step Guarded (new numThreads hthreads newNode) events)
    (hrun : run step (new numThreads hthreads newNode) events = some q) :
    ∃ chain, q.Inv (fun e => Since step (new numThreads hthreads newNode) e Empty events)
      (fun e => e ∈ events) chain := by
  refine guarded_history_invariant
    (I := fun events q => ∃ chain, q.Inv
      (fun e => Since step (new numThreads hthreads newNode) e Empty events)
      (fun e => e ∈ events) chain)
    ?_ ⟨_, inv_new numThreads hthreads newNode⟩ hguarded hrun
  rintro events q event q' hrun ⟨chain, h⟩ hguard hstep
  have hmem : ∀ e, e ∈ events → e ∈ events ++ [event] := fun e he => List.mem_append_left _ he
  obtain ⟨t, x, hx, ht, hpc, rfl⟩ | ⟨t, fresh, rfl, hadvance⟩ :=
    step_cases h.faultless hstep
  · refine ⟨chain, (h.remember hmem fun u e hu he hsince => hsince.append ?_).start hx ht (by simp)⟩
    -- a thread that is in an operation makes no call
    rintro rfl
    obtain rfl : u = t := hx.thread he
    exact hu hpc
  · have hnow : q.Empty → ∀ e, e ∈ events →
        Since step (new numThreads hthreads newNode) e Empty events :=
      fun hempty e he => .now he hrun hempty
    obtain ⟨chain', h'⟩ := h.advance hnow hguard hadvance
    refine ⟨chain', h'.remember hmem fun u e _ he hsince => hsince.append ?_⟩
    obtain rfl | rfl := he <;> nofun

/-- As long as no step reads a head that was freed since it was loaded, and none gets
memory that a thread still compares without protection: pops take the values in the order
they were linked in, a pop without a value and a queue said to be empty have met an empty
queue since they were called, and nothing is used or freed that is not allocated. -/
theorem popped_prefix_linked_of_guarded (events : List Event) (q : LLQueue)
    (hguarded : Meets step Guarded (new numThreads hthreads newNode) events)
    (hrun : run step (new numThreads hthreads newNode) events = some q) :
    q.popped <+: q.linked ∧ q.fault = false ∧
      (∀ t, q.pc t = .popClear none →
        Since step (new numThreads hthreads newNode) (.pop t) Empty events) ∧
      ∀ t, q.pc t = .emptyDone true →
        Since step (new numThreads hthreads newNode) (.isEmpty t) Empty events := by
  obtain ⟨chain, h⟩ := inv_run hguarded hrun
  exact h.answers

def twoThreads : LLQueue := new 2 (by decide) 1

/-- A pop finds the queue empty, and before it returns a push makes it longer. -/
def emptyPop : List Event :=
  Event.pop 1 :: List.replicate 6 (Event.next 1 0) ++
    Event.push 0 5 :: List.replicate 9 (Event.next 0 2)

theorem popped_prefix_linked_of_guarded_emptyPop :
    ∃ q, run step twoThreads emptyPop = some q ∧ q.popped <+: q.linked ∧ q.fault = false ∧
      Since step twoThreads (.pop 1) Empty emptyPop := by
  have hsome : (run step twoThreads emptyPop).isSome := by decide +kernel
  have hpc : ∀ q ∈ run step twoThreads emptyPop, q.pc 1 = .popClear none := by decide +kernel
  obtain ⟨q, hq⟩ := Option.isSome_iff_exists.mp hsome
  obtain ⟨hpre, hfault, hempty, -⟩ :=
    popped_prefix_linked_of_guarded emptyPop q (by decide +kernel) hq
  exact ⟨q, hq, hpre, hfault, hempty 1 (hpc q hq)⟩

/-! ## Runs in which nothing is freed -/

/-- The pop has not retired its node yet. -/
def Pc.pending : Pc → Nat
  | popLoad | popStore _ | popCheck _ | popTail _ | popNext _ _ | popAgain _ _ _ | popHelp _ _
  | popProtect _ _ | popHeadAgain _ _ | popNextAgain _ _ _ | popRetry | popItem _ _
  | popSwing _ _ _ | popRetire _ _ => 1
  | _ => 0

/-- No list gets long enough for a scan, with `calls` pops still to come. -/
structure Few (q : LLQueue) (calls : Tid → Nat) : Prop where
  count : ∀ t, (q.retired t).length + (q.pc t).pending + calls t ≤
    HazardPointer.retiredThreshold
  scan : ∀ t item node slot, q.pc t ≠ .popScan item node slot
  kept : ∀ t, ∀ p ∈ (q.pc t).stale, (q.heap p).isSome

section Few

variable {q q₀ q' : LLQueue} {R C : Event → Prop} {chain : List Ptr} {calls : Tid → Nat} {t : Tid}
  {fresh : Ptr}

theorem Few.update (h : q.Few calls) {x : Pc} {calls' : Tid → Nat} (hpcs : q₀.pc = q.pc)
    (hheap : ∀ p, (q.heap p).isSome → (q₀.heap p).isSome)
    (hscan : ∀ item node slot, x ≠ .popScan item node slot)
    (hkept : ∀ p ∈ x.stale, (q.heap p).isSome)
    (hcount : ∀ u, (q₀.retired u).length + (Function.update q.pc t x u).pending + calls' u ≤
      HazardPointer.retiredThreshold) : (q₀.goto t x).Few calls' where
  count := by
    change ∀ u, (q₀.retired u).length + (Function.update q₀.pc t x u).pending + calls' u ≤ _
    rwa [hpcs]
  scan := by
    change ∀ u item node slot, Function.update q₀.pc t x u ≠ _
    rw [hpcs]
    exact (Function.forall_update_iff _ fun _ (pc : Pc) => ∀ item node slot,
      pc ≠ .popScan item node slot).mpr ⟨hscan, fun u _ => h.scan u⟩
  kept := by
    change ∀ u, ∀ p ∈ (Function.update q₀.pc t x u).stale, (q₀.heap p).isSome
    rw [hpcs]
    exact (Function.forall_update_iff _ fun _ (pc : Pc) => ∀ p ∈ pc.stale,
      (q₀.heap p).isSome).mpr
      ⟨fun p hp => hheap p (hkept p hp), fun u _ p hp => hheap p (h.kept u p hp)⟩

theorem Few.goto (h : q.Few calls) {x y : Pc} (hpc : q.pc t = y) (hpcs : q₀.pc = q.pc)
    (hretired : q₀.retired = q.retired)
    (hheap : ∀ p, (q.heap p).isSome → (q₀.heap p).isSome) (hpending : x.pending ≤ y.pending)
    (hscan : ∀ item node slot, x ≠ .popScan item node slot)
    (hkept : ∀ p ∈ x.stale, (q.heap p).isSome) : (q₀.goto t x).Few calls := by
  refine h.update hpcs hheap hscan hkept fun u => ?_
  have hcount := h.count u
  rw [hretired]
  rcases eq_or_ne u t with rfl | hne
  · rw [hpc] at hcount
    rw [Function.update_self]
    omega
  · rwa [Function.update_of_ne hne]

theorem Few.start {event : Event} {events : List Event} {x : Pc}
    (h : q.Few fun u => (event :: events).count (.pop u)) (hx : Starts event t x) :
    (q.goto t x).Few fun u => events.count (.pop u) := by
  obtain ⟨hscan, -, -, hstale, -⟩ := hx.plain
  refine h.update rfl (fun _ => id) hscan (by rw [hstale]; nofun) fun u => ?_
  have hbefore := h.count u
  have hfewer : events.count (.pop u) ≤ (event :: events).count (.pop u) :=
    List.count_le_count_cons
  rcases eq_or_ne u t with rfl | hne
  · have hown : x.pending + events.count (.pop u) ≤ (event :: events).count (.pop u) := by
      cases hx with
      | push u item => simp [Pc.pending]
      | pop u =>
          rw [List.count_cons_self, Pc.pending]
          omega
      | isEmpty u => simp [Pc.pending]
    rw [Function.update_self]
    omega
  · rw [Function.update_of_ne hne]
    omega

theorem Few.access (h : q.Few calls) {p : Ptr} {k : Node → LLQueue}
    (hk : ∀ node, q.heap p = some node → (k node).Few calls) : (q.access p k).Few calls := by
  unfold LLQueue.access
  cases hp : q.heap p with
  | none => exact ⟨h.count, h.scan, h.kept⟩
  | some node => exact hk node hp

@[simp] theorem swingTail_retired (tail next : Ptr) :
    (q.swingTail tail next).retired = q.retired := by
  unfold LLQueue.swingTail
  split <;> rfl

@[simp] theorem swingTail_heap (tail next : Ptr) : (q.swingTail tail next).heap = q.heap := by
  unfold LLQueue.swingTail
  split <;> rfl

theorem Few.retire (h : q.Few calls) {head : Ptr} {item : Value}
    (hpc : q.pc t = .popRetire head item) :
    ¬ (q.retired t).length + 1 > HazardPointer.retiredThreshold ∧
      ((q.retire t head).goto t (.popClear (some item))).Few calls := by
  have hcount := h.count t
  rw [hpc] at hcount
  simp only [Pc.pending] at hcount
  refine ⟨by omega, h.update rfl (fun _ => id) nofun nofun fun u => ?_⟩
  change (Function.update q.retired t (head :: q.retired t) u).length + _ + calls u ≤ _
  rcases eq_or_ne u t with rfl | hne
  · have hdone : (Pc.popClear (some item)).pending = 0 := rfl
    rw [Function.update_self, Function.update_self, List.length_cons, hdone]
    omega
  · rw [Function.update_of_ne hne, Function.update_of_ne hne]
    exact h.count u

theorem Few.advance (h : q.Few calls) (hinv : q.Inv R C chain)
    (hstep : q.advance t fresh = some q') : q'.Few calls := by
  unfold LLQueue.advance at hstep
  have hkept := h.kept t
  have hsame : ∀ p, (q.heap p).isSome → (q.heap p).isSome := fun _ => id
  have hhead : (q.heap q.head).isSome := hinv.allocated q.head hinv.head_mem
  cases hpc : q.pc t with
  | idle => simp [hpc] at hstep
  | pushNew item =>
      simp only [hpc, Option.ite_none_right_eq_some, Option.some.injEq] at hstep
      obtain ⟨-, rfl⟩ := hstep
      exact h.goto hpc rfl rfl isSome_write le_rfl nofun nofun
  -- steps that change no node and no list
  | pushLoad | pushStore | pushRetry | pushClear | popLoad | popStore | popTail | popRetry
  | popClear | emptyDone =>
      simp only [hpc, Option.some.injEq] at hstep
      exact hstep ▸ h.goto hpc rfl rfl hsame le_rfl nofun nofun
  | pushCheck | popCheck | popSwing =>
      simp only [hpc, Option.some.injEq] at hstep
      subst hstep
      split <;> exact h.goto hpc rfl rfl hsame le_rfl nofun nofun
  | pushNext | popNext | emptyNext =>
      simp only [hpc, Option.some.injEq] at hstep
      exact hstep ▸ h.access fun node _ => h.goto hpc rfl rfl hsame le_rfl nofun nofun
  | pushSwing | pushHelp | popHelp =>
      simp only [hpc, Option.some.injEq] at hstep
      exact hstep ▸ h.goto hpc (swingTail_pc _ _) (swingTail_retired _ _)
        (fun p hp => (swingTail_heap _ _).symm ▸ hp) le_rfl nofun nofun
  | pushAgain item newNode tail next =>
      simp only [hpc, Option.some.injEq] at hstep
      subst hstep
      split
      · cases next <;> exact h.goto hpc rfl rfl hsame le_rfl nofun nofun
      · exact h.goto hpc rfl rfl hsame le_rfl nofun nofun
  | pushLink item newNode tail =>
      simp only [hpc, Option.some.injEq] at hstep
      refine hstep ▸ h.access fun node _ => ?_
      split
      · exact h.goto hpc rfl rfl isSome_write le_rfl nofun nofun
      · exact h.goto hpc rfl rfl hsame le_rfl nofun nofun
  | popAgain head tail next =>
      simp only [hpc, Option.some.injEq] at hstep
      subst hstep
      split
      · split
        · cases next with
          | none => exact h.goto hpc rfl rfl hsame (Nat.zero_le _) nofun nofun
          | some next => exact h.goto hpc rfl rfl hsame le_rfl nofun nofun
        · exact h.goto hpc rfl rfl hsame le_rfl nofun nofun
      · exact h.goto hpc rfl rfl hsame le_rfl nofun nofun
  | popProtect head next =>
      have hat := hinv.known hpc
      simp only [hpc, Option.some.injEq] at hstep
      subst hstep
      cases next with
      | none => exact h.goto hpc rfl rfl hsame le_rfl nofun nofun
      | some next =>
          refine h.goto hpc rfl rfl hsame le_rfl nofun fun p hp => ?_
          obtain rfl := List.mem_singleton.mp hp
          exact hinv.linked_isSome p hat.1.2.1
  | popHeadAgain head next =>
      rw [hpc] at hkept
      simp only [hpc, Option.some.injEq] at hstep
      refine hstep ▸ h.goto hpc rfl rfl hsame le_rfl nofun fun p hp => ?_
      rcases List.mem_cons.mp hp with rfl | hp
      · exact hkept p List.mem_cons_self
      · obtain rfl := List.mem_singleton.mp hp
        exact hhead
  | popNextAgain head next headNode =>
      rw [hpc] at hkept
      simp only [hpc, Option.some.injEq] at hstep
      refine hstep ▸ h.access fun node _ => ?_
      split
      · refine h.goto hpc rfl rfl hsame le_rfl nofun fun p hp => ?_
        obtain rfl := List.mem_singleton.mp hp
        exact hkept p List.mem_cons_self
      · exact h.goto hpc rfl rfl hsame le_rfl nofun nofun
  | popItem head next =>
      rw [hpc] at hkept
      simp only [hpc, Option.some.injEq] at hstep
      exact hstep ▸ h.access fun node _ => h.goto hpc rfl rfl hsame le_rfl nofun hkept
  | popRetire head item =>
      obtain ⟨hshort, hfew⟩ := h.retire hpc
      simp only [hpc, if_neg hshort, Option.some.injEq] at hstep
      exact hstep ▸ hfew
  | popScan item node slot => exact absurd hpc (h.scan t item node slot)
  | emptyHead =>
      simp only [hpc, Option.some.injEq] at hstep
      refine hstep ▸ h.goto hpc rfl rfl hsame le_rfl nofun fun p hp => ?_
      obtain rfl := List.mem_singleton.mp hp
      exact hhead

/-- Where nothing has been freed, every step is guarded. -/
private theorem Few.guarded (h : q.Few calls) (hstep : q.advance t fresh = some q') :
    q.Guarded (.next t fresh) := by
  refine ⟨fun hallocates u _ hmem => ?_, fun p hp => ?_⟩
  · cases hpc : q.pc t with
    | pushNew item =>
        simp only [LLQueue.advance, hpc, Option.ite_none_right_eq_some] at hstep
        have hsome := h.kept u fresh hmem
        rw [hstep.1] at hsome
        cases hsome
    | _ =>
        rw [hpc] at hallocates
        cases hallocates
  · cases hpc : q.pc t with
    | popNextAgain head next headNode =>
        rw [hpc] at hp
        obtain rfl : headNode = p := Option.some.inj hp
        exact h.kept t headNode (by simp [hpc, Pc.stale])
    | emptyNext headNode =>
        rw [hpc] at hp
        obtain rfl : headNode = p := Option.some.inj hp
        exact h.kept t headNode (by simp [hpc, Pc.stale])
    | _ =>
        rw [hpc] at hp
        cases hp

theorem Few.meets {events : List Event} (h : q.Few fun t => events.count (.pop t))
    (hinv : q.Inv (fun _ => True) (fun _ => True) chain) (hrun : run step q events = some q') :
    Meets step Guarded q events := by
  induction events generalizing q chain with
  | nil => trivial
  | cons event events ih =>
      obtain ⟨q₁, hstep, hrest⟩ := run_cons.mp hrun
      have hunique : ∀ s, step q event = some s → s = q₁ := fun s hs =>
        Option.some.inj (hs.symm.trans hstep)
      obtain ⟨t, x, hx, ht, -, rfl⟩ | ⟨t, fresh, rfl, hadvance⟩ :=
        step_cases hinv.faultless hstep
      · have hguard : q.Guarded event := by cases hx <;> trivial
        exact ⟨hguard, fun s hs =>
          hunique s hs ▸ ih (h.start hx) (hinv.start hx ht trivial) hrest⟩
      · have hguard := h.guarded hadvance
        obtain ⟨chain', hinv'⟩ := hinv.advance (fun _ _ _ => trivial) hguard hadvance
        have hcalls : (fun u => (Event.next t fresh :: events).count (.pop u)) =
            fun u => events.count (.pop u) := by
          funext u
          simp
        exact ⟨hguard, fun s hs =>
          hunique s hs ▸ ih ((hcalls ▸ h).advance hinv hadvance) hinv' hrest⟩

end Few

/-- Up to the threshold of `HazardPointer_retire` the queue is right: while no thread calls
more pops than that, pops take the values in the order they were linked in, a pop without a
value and a queue said to be empty have met an empty queue since they were called, and no
node is used that is not allocated. -/
theorem popped_prefix_linked_of_few_pops (events : List Event) (q : LLQueue)
    (hfew : ∀ t, events.count (.pop t) ≤ HazardPointer.retiredThreshold)
    (hrun : run step (new numThreads hthreads newNode) events = some q) :
    q.popped <+: q.linked ∧ q.fault = false ∧
      (∀ t, q.pc t = .popClear none →
        Since step (new numThreads hthreads newNode) (.pop t) Empty events) ∧
      ∀ t, q.pc t = .emptyDone true →
        Since step (new numThreads hthreads newNode) (.isEmpty t) Empty events := by
  have hstart : (new numThreads hthreads newNode).Few fun t => events.count (.pop t) :=
    ⟨fun t => by simpa [new, Pc.pending] using hfew t, fun _ _ _ _ => nofun, fun _ => nofun⟩
  have hguarded := hstart.meets (inv_new numThreads hthreads newNode) hrun
  obtain ⟨chain, h⟩ := inv_run hguarded hrun
  exact h.answers

def pushPop : List Event :=
  Event.push 0 5 :: List.replicate 9 (Event.next 0 2) ++
    Event.pop 1 :: List.replicate 13 (Event.next 1 0) ++
      Event.isEmpty 0 :: List.replicate 2 (Event.next 0 0)

theorem popped_prefix_linked_of_few_pops_pushPop :
    ∃ q, run step twoThreads pushPop = some q ∧ q.popped = [5] ∧ q.popped <+: q.linked ∧
      q.fault = false ∧ Since step twoThreads (.isEmpty 0) Empty pushPop := by
  have hsome : (run step twoThreads pushPop).isSome := by decide +kernel
  have hend : ∀ q ∈ run step twoThreads pushPop, q.popped = [5] ∧ q.pc 0 = .emptyDone true := by
    decide +kernel
  have hfew : ∀ t, pushPop.count (.pop t) ≤ HazardPointer.retiredThreshold := fun t =>
    List.count_le_length.trans (by decide)
  obtain ⟨q, hq⟩ := Option.isSome_iff_exists.mp hsome
  obtain ⟨hpopped, hpc⟩ := hend q hq
  obtain ⟨hpre, hfault, -, hseen⟩ := popped_prefix_linked_of_few_pops pushPop q hfew hq
  exact ⟨q, hq, hpopped, hpre, hfault, hseen 0 hpc⟩

end Runs

end LLQueue

end Mimuw.Queues
