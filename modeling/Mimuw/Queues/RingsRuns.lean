import Mimuw.Lib.Since
import Mimuw.Queues.RingsSteps

/-!
# Runs of the queue of rings

Every step keeps the invariant; what pops return is what was pushed, in the order in
which pushes held `push_mtx`.
-/

namespace Mimuw.Queues

open Mimuw.Lib

namespace RingsQueue

section Steps

variable {seen : Tid → Prop} {q q' : RingsQueue} {chain : List Ptr} {t : Tid} {fresh : Ptr}

theorem At.mono {P Q : Prop} {heap : Heap Node} {x : Pc} (h : At P heap chain x) (hPQ : P → Q) :
    At Q heap chain x where
  pushing := h.pushing
  fresh := h.fresh
  linked := h.linked
  popping p hp := by
    obtain ⟨hhead, node, hnode, hknows⟩ := h.popping p hp
    refine ⟨hhead, node, hnode, ?_⟩
    have hlink : ∀ {nextNode}, LinkKnown P nextNode node → LinkKnown Q nextNode node := by
      intro nextNode hknown
      cases nextNode with
      | none => exact hknown.imp hPQ id
      | some nextNode => exact hknown
    cases x with
    | popLoadPop headNode nextNode => exact hlink hknows
    | popLoadPush headNode nextNode popIdx => exact ⟨hlink hknows.1, hknows.2⟩
    | _ => exact hknows
  old := h.old
  empty hx := hPQ (h.empty hx)

/-- Only what threads inside an operation have seen matters. -/
theorem Inv.remember (h : q.Inv seen chain) {seen' : Tid → Prop}
    (hseen : ∀ u, q.pc u ≠ .idle → seen u → seen' u) : q.Inv seen' chain :=
  { h with
    threads := fun u => by
      by_cases hpc : q.pc u = .idle
      · rw [hpc]
        exact At.outside id id
      · exact (h.threads u).mono (hseen u hpc) }

private theorem heap_new (newNode : Ptr) : (new newNode).heap newNode = some .new := by
  simp [new]

theorem inv_new (newNode : Ptr) : (new newNode).Inv seen [newNode] where
  segment := by simp [Segment, nextOf, new, Node.new]
  nodup := List.nodup_singleton _
  rings p hp := by
    obtain rfl := List.mem_singleton.mp hp
    exact ⟨.new, heap_new p, le_rfl⟩
  head := rfl
  tail _ := rfl
  push _ := ⟨False.elim, nofun⟩
  pop _ := ⟨False.elim, nofun⟩
  threads _ := At.outside id id
  apart _ _ _ _ := nofun
  values := by
    rw [contents, List.flatMap_singleton, contentsAt_of_eq (heap_new newNode)]
    rfl
  faultless := rfl

/-! ## Whole runs -/

/-- Between the call of `RingsQueue_pop` and its return. -/
def Pc.Popping (x : Pc) : Prop := x = .popLock ∨ x.InPop

/-- The item of a push that waits for `push_mtx`. -/
def Pc.entering : Pc → List Value
  | pushLock item => [item]
  | _ => []

/-- The item of a push that has `push_mtx`, until it can be seen in the queue. -/
def Pc.pending : Pc → List Value
  | pushLoadPush item | pushLoadPop item _ _ | pushWrite item _ _ | pushAdd item _ | pushNew item _
  | pushFirst item _ _ | pushLink item _ _ => [item]
  | _ => []

/-- A step of a thread, which is at `x` then, leaves the other threads where they are,
begins no pop, and loses no item. -/
structure Continues (q : RingsQueue) (t : Tid) (q' : RingsQueue) (x : Pc) : Prop where
  pc : q'.pc = Function.update q.pc t x
  popping : x.Popping → (q.pc t).Popping
  grows : q.pushed <+: q'.pushed
  pushed : q'.pushed ++ x.pending = q.pushed ++ (q.pc t).pending ++ (q.pc t).entering
  entering : (q.pc t).entering = [] ∨ x.InPush

theorem Continues.goto {x y : Pc} {q₀ : RingsQueue} (hpc : q.pc t = y) (hq : q₀.pc = q.pc)
    (hx : x.Popping → y.Popping) (hgrows : q.pushed <+: q₀.pushed)
    (hpushed : q₀.pushed ++ x.pending = q.pushed ++ y.pending ++ y.entering)
    (hentering : y.entering = [] ∨ x.InPush) : q.Continues t (q₀.goto t x) x := by
  subst hpc
  exact ⟨by rw [RingsQueue.goto, hq], hx, hgrows, hpushed, hentering⟩

theorem Continues.keep {x y : Pc} {q₀ : RingsQueue} (hpc : q.pc t = y) (hq : q₀.pc = q.pc)
    (hpushed : q₀.pushed = q.pushed) (hx : x.Popping → y.Popping)
    (hpending : x.pending = y.pending ++ y.entering) (hentering : y.entering = [] ∨ x.InPush) :
    q.Continues t (q₀.goto t x) x :=
  .goto hpc hq hx (hpushed ▸ List.prefix_rfl)
    (by rw [hpushed, hpending, List.append_assoc]) hentering

theorem Continues.fault {y : Pc} (hpc : q.pc t = y) (hentering : y.entering = []) :
    q.Continues t { q with fault := true } y := by
  subst hpc
  exact ⟨(Function.update_eq_self t q.pc).symm, id, List.prefix_rfl,
    by rw [hentering, List.append_nil], .inl hentering⟩

theorem Continues.access {y : Pc} {p : Ptr} {k : Node → RingsQueue} (hpc : q.pc t = y)
    (hentering : y.entering = []) (h : ∀ node, ∃ x, q.Continues t (k node) x) :
    ∃ x, q.Continues t (q.access p k) x := by
  unfold RingsQueue.access
  split
  · exact h _
  · exact ⟨_, .fault hpc hentering⟩

private theorem continues_advance (hstep : q.advance t fresh = some q') :
    ∃ x, q.Continues t q' x := by
  have hout : ∀ {x y : Pc}, ¬ x.InPop → x ≠ .popLock → x.Popping → y.Popping :=
    fun hin hne hx => absurd hx (not_or.mpr ⟨hne, hin⟩)
  have hin : ∀ {x y : Pc}, y.InPop → x.Popping → y.Popping := fun hy _ => .inr hy
  unfold RingsQueue.advance at hstep
  cases hpc : q.pc t with
  | idle => simp [hpc] at hstep
  | pushLock item =>
      simp only [hpc, Option.ite_none_right_eq_some, Option.some.injEq] at hstep
      obtain ⟨-, rfl⟩ := hstep
      exact ⟨_, .keep hpc rfl rfl (hout id nofun) rfl (.inr trivial)⟩
  | pushLoadPush item =>
      simp only [hpc, Option.some.injEq] at hstep
      subst hstep
      exact Continues.access hpc rfl fun node =>
        ⟨_, .keep hpc rfl rfl (hout id nofun) rfl (.inl rfl)⟩
  | pushLoadPop item tailNode pushIdx =>
      simp only [hpc, Option.some.injEq] at hstep
      subst hstep
      refine Continues.access hpc rfl fun node => ?_
      split <;> exact ⟨_, .keep hpc rfl rfl (hout id nofun) rfl (.inl rfl)⟩
  | pushWrite item tailNode pushIdx =>
      simp only [hpc, Option.some.injEq] at hstep
      subst hstep
      exact Continues.access hpc rfl fun node =>
        ⟨_, .keep hpc rfl rfl (hout id nofun) rfl (.inl rfl)⟩
  | pushAdd item tailNode =>
      simp only [hpc, Option.some.injEq] at hstep
      subst hstep
      exact Continues.access hpc rfl fun node =>
        ⟨_, .goto hpc rfl (hout id nofun) (List.prefix_append _ _) rfl (.inl rfl)⟩
  | pushNew item tailNode =>
      simp only [hpc, Option.ite_none_right_eq_some, Option.some.injEq] at hstep
      obtain ⟨-, rfl⟩ := hstep
      exact ⟨_, .keep hpc rfl rfl (hout id nofun) rfl (.inl rfl)⟩
  | pushFirst item tailNode newNode =>
      simp only [hpc, Option.some.injEq] at hstep
      subst hstep
      exact Continues.access hpc rfl fun node =>
        ⟨_, .keep hpc rfl rfl (hout id nofun) rfl (.inl rfl)⟩
  | pushLink item tailNode newNode =>
      simp only [hpc, Option.some.injEq] at hstep
      subst hstep
      exact Continues.access hpc rfl fun node =>
        ⟨_, .goto hpc rfl (hout id nofun) (List.prefix_append _ _) rfl (.inl rfl)⟩
  | pushTail newNode =>
      simp only [hpc, Option.some.injEq] at hstep
      subst hstep
      exact ⟨_, .keep hpc rfl rfl (hout id nofun) rfl (.inl rfl)⟩
  | pushUnlock =>
      simp only [hpc, Option.some.injEq] at hstep
      subst hstep
      exact ⟨_, .keep hpc rfl rfl (hout id nofun) rfl (.inl rfl)⟩
  | popLock =>
      simp only [hpc, Option.ite_none_right_eq_some, Option.some.injEq] at hstep
      obtain ⟨-, rfl⟩ := hstep
      exact ⟨_, .keep hpc rfl rfl (fun _ => .inl rfl) rfl (.inl rfl)⟩
  | popNext =>
      simp only [hpc, Option.some.injEq] at hstep
      subst hstep
      exact Continues.access hpc rfl fun node =>
        ⟨_, .keep hpc rfl rfl (hin trivial) rfl (.inl rfl)⟩
  | popLoadPop headNode nextNode =>
      simp only [hpc, Option.some.injEq] at hstep
      subst hstep
      exact Continues.access hpc rfl fun node =>
        ⟨_, .keep hpc rfl rfl (hin trivial) rfl (.inl rfl)⟩
  | popLoadPush headNode nextNode popIdx =>
      simp only [hpc, Option.some.injEq] at hstep
      subst hstep
      refine Continues.access hpc rfl fun node => ?_
      split
      · cases nextNode <;> exact ⟨_, .keep hpc rfl rfl (hin trivial) rfl (.inl rfl)⟩
      · exact ⟨_, .keep hpc rfl rfl (hin trivial) rfl (.inl rfl)⟩
  | popHead headNode nextNode =>
      simp only [hpc, Option.some.injEq] at hstep
      subst hstep
      exact ⟨_, .keep hpc rfl rfl (hin trivial) rfl (.inl rfl)⟩
  | popFree headNode =>
      simp only [hpc, Option.some.injEq] at hstep
      subst hstep
      exact Continues.access hpc rfl fun node =>
        ⟨_, .keep hpc rfl rfl (hin trivial) rfl (.inl rfl)⟩
  | popRead headNode popIdx =>
      simp only [hpc, Option.some.injEq] at hstep
      subst hstep
      refine Continues.access hpc rfl fun node => ?_
      split
      · exact ⟨_, .keep hpc rfl rfl (hin trivial) rfl (.inl rfl)⟩
      · exact ⟨_, .fault hpc rfl⟩
  | popAdd headNode item =>
      simp only [hpc, Option.some.injEq] at hstep
      subst hstep
      exact Continues.access hpc rfl fun node =>
        ⟨_, .keep hpc rfl rfl (hin trivial) rfl (.inl rfl)⟩
  | popUnlock item =>
      simp only [hpc, Option.some.injEq] at hstep
      subst hstep
      exact ⟨_, .keep hpc rfl rfl (hin trivial) rfl (.inl rfl)⟩

theorem Continues.others {x : Pc} (h : q.Continues t q' x) {u : Tid} (hu : u ≠ t) :
    q'.pc u = q.pc u := by
  rw [h.pc, Function.update_of_ne hu]

private theorem Continues.popping_of_popping {x : Pc} (h : q.Continues t q' x) {u : Tid}
    (hu : (q'.pc u).Popping) : (q.pc u).Popping := by
  rcases eq_or_ne u t with rfl | hne
  · rw [h.pc, Function.update_self] at hu
    exact h.popping hu
  · rwa [h.others hne] at hu

end Steps

/-- Every pushed value has been popped. -/
def Empty (q : RingsQueue) : Prop := q.pushed = q.popped

section Runs

variable {newNode : Ptr}

theorem inv_run {events : List Event} {q : RingsQueue}
    (hrun : run step (new newNode) events = some q) :
    (∃ chain, q.Inv (fun t => Since step (new newNode) (.pop t) Empty events) chain) ∧
      ∀ t, (q.pc t).Popping → .pop t ∈ events := by
  refine guarded_history_invariant
    (I := fun events q =>
      (∃ chain, q.Inv (fun t => Since step (new newNode) (.pop t) Empty events) chain) ∧
        ∀ t, (q.pc t).Popping → .pop t ∈ events)
    (G := fun _ _ => True) ?_ ⟨⟨_, inv_new newNode⟩, ?_⟩
    (meets_of_forall (fun _ _ => trivial) _ _) hrun
  · rintro events q event q' hrun ⟨⟨chain, h⟩, hcalled⟩ - hstep
    unfold step at hstep
    rw [h.faultless] at hstep
    have hkeep : ∀ u, event ≠ .pop u → ∀ P, Since step (new newNode) (.pop u) P events →
        Since step (new newNode) (.pop u) P (events ++ [event]) := fun u hne _ hs => hs.append hne
    cases event with
    | push t item =>
        simp only [Bool.false_eq_true, if_false, Option.ite_none_right_eq_some,
          Option.some.injEq] at hstep
        obtain ⟨hpc, rfl⟩ := hstep
        have hcall := h.quiet (x := .pushLock item) hpc Iff.rfl Iff.rfl rfl nofun
          (At.outside id id) rfl rfl
        refine ⟨⟨chain, hcall.remember fun u _ => hkeep u nofun _⟩, ?_⟩
        intro u hu
        rcases eq_or_ne u t with rfl | hne
        · change (Function.update q.pc u _ u).Popping at hu
          rw [Function.update_self] at hu
          rcases hu with hu | hu
          · cases hu
          · exact hu.elim
        · change (Function.update q.pc t _ u).Popping at hu
          rw [Function.update_of_ne hne] at hu
          exact List.mem_append_left _ (hcalled u hu)
    | pop t =>
        simp only [Bool.false_eq_true, if_false, Option.ite_none_right_eq_some,
          Option.some.injEq] at hstep
        obtain ⟨hpc, rfl⟩ := hstep
        refine ⟨⟨chain, (h.remember fun u hu => ?_).quiet (x := .popLock) hpc Iff.rfl Iff.rfl rfl
          nofun (At.outside id id) rfl rfl⟩, ?_⟩
        · refine hkeep u ?_ _
          rintro heq
          cases heq
          exact hu hpc
        · intro u hu
          rcases eq_or_ne u t with rfl | hne
          · simp
          · change (Function.update q.pc t _ u).Popping at hu
            rw [Function.update_of_ne hne] at hu
            exact List.mem_append_left _ (hcalled u hu)
    | next t fresh =>
        have hnow : q.Empty → (q.pc t).InPop → Since step (new newNode) (.pop t) Empty events :=
          fun hempty hin => .now (hcalled t (.inr hin)) hrun hempty
        obtain ⟨chain', h'⟩ := h.advance hnow hstep
        obtain ⟨x, hcontinues⟩ := continues_advance hstep
        exact ⟨⟨chain', h'.remember fun u _ => hkeep u nofun _⟩, fun u hu =>
          List.mem_append_left _ (hcalled u (hcontinues.popping_of_popping hu))⟩
  · rintro t (hpc | hpc)
    · cases hpc
    · exact hpc.elim

/-! ### The order of pushes -/

/-- The item of the push that gets `push_mtx` in this step. -/
def entered (q : RingsQueue) : Event → List Value
  | .next t _ => (q.pc t).entering
  | _ => []

/-- The items of the pushes that have got `push_mtx`, in the order in which they did. -/
def locked (q : RingsQueue) : List Event → List Value
  | [] => []
  | event :: events =>
      q.entered event ++
        match q.step event with
        | some q' => locked q' events
        | none => []

private theorem locked_concat {events : List Event} {event : Event} {q q' : RingsQueue}
    (hrun : run step q events = some q') :
    q.locked (events ++ [event]) = q.locked events ++ q'.entered event := by
  induction events generalizing q with
  | nil =>
      obtain rfl := Option.some.inj hrun
      rw [List.nil_append, locked, locked, List.nil_append]
      cases q.step event with
      | none => exact List.append_nil _
      | some q' => exact List.append_nil _
  | cons first events ih =>
      obtain ⟨q₁, hstep, hrest⟩ := run_cons.mp hrun
      simp only [List.cons_append, locked, hstep, ih hrest, List.append_assoc]

private theorem pending_of_out {x : Pc} (hx : ¬ x.InPush) : x.pending = [] := by
  cases x <;> first
    | rfl
    | exact absurd trivial hx

private theorem pushed_step {q q' : RingsQueue} {event : Event}
    (h : Owns Pc.InPush q.pc q.pushMtx) (h' : Owns Pc.InPush q'.pc q'.pushMtx)
    (hstep : q.step event = some q') :
    q'.pushed ++ inHand Pc.pending q'.pc q'.pushMtx =
      q.pushed ++ inHand Pc.pending q.pc q.pushMtx ++ q.entered event := by
  unfold step at hstep
  split at hstep
  · cases hstep
  · cases event with
    | push t item =>
        obtain ⟨hpc, hq⟩ := Option.ite_none_right_eq_some.mp hstep
        obtain rfl := Option.some.inj hq
        have hsame : inHand Pc.pending (Function.update q.pc t (.pushLock item)) q.pushMtx =
          inHand Pc.pending q.pc q.pushMtx := inHand_update (by rw [hpc]; rfl)
        exact (congrArg (q.pushed ++ ·) hsame).trans (List.append_nil _).symm
    | pop t =>
        obtain ⟨hpc, hq⟩ := Option.ite_none_right_eq_some.mp hstep
        obtain rfl := Option.some.inj hq
        have hsame : inHand Pc.pending (Function.update q.pc t .popLock) q.pushMtx =
          inHand Pc.pending q.pc q.pushMtx := inHand_update (by rw [hpc]; rfl)
        exact (congrArg (q.pushed ++ ·) hsame).trans (List.append_nil _).symm
    | next t fresh =>
        obtain ⟨x, hcontinues⟩ := continues_advance hstep
        rw [hcontinues.pc] at h' ⊢
        rcases h.inHand_step h' (fun _ => pending_of_out) with ⟨hbefore, hafter⟩ | ⟨ht, hx, hsame⟩
        · rw [hbefore, hafter]
          exact hcontinues.pushed
        · have hentering := hcontinues.entering.resolve_right hx
          have hpushed := hcontinues.pushed
          rw [pending_of_out hx, pending_of_out ht, hentering] at hpushed
          simp only [List.append_nil] at hpushed
          rw [hsame, hpushed, entered, hentering, List.append_nil]

/-- The items that can be seen are those of the pushes that have got `push_mtx`, in the
order in which they did, but for the item of a push that has it and has not linked it yet. -/
theorem locked_eq_pushed {events : List Event} {q : RingsQueue}
    (hrun : run step (new newNode) events = some q) :
    (new newNode).locked events = q.pushed ++ inHand Pc.pending q.pc q.pushMtx := by
  refine guarded_history_invariant
    (I := fun events q =>
      (new newNode).locked events = q.pushed ++ inHand Pc.pending q.pc q.pushMtx)
    (G := fun _ _ => True) ?_ rfl (meets_of_forall (fun _ _ => trivial) _ _) hrun
  rintro events q event q' hrun ih - hstep
  obtain ⟨⟨_, h⟩, -⟩ := inv_run hrun
  have hnext : run step (new newNode) (events ++ [event]) = some q' :=
    run_append.mpr ⟨q, hrun, run_cons.mpr ⟨q', hstep, rfl⟩⟩
  obtain ⟨⟨_, h'⟩, -⟩ := inv_run hnext
  rw [locked_concat hrun, ih, pushed_step h.push h'.push hstep]

/-- What the thread `t` has pushed since the state with `before`, or is about to push. -/
def Carries (before : List Value) (t : Tid) (item : Value) (q : RingsQueue) : Prop :=
  ∃ more, q.pushed = before ++ more ∧ item ∈ more ++ (q.pc t).pending ++ (q.pc t).entering

private theorem carries_step {before : List Value} {t : Tid} {item : Value} {q q' : RingsQueue}
    {event : Event} (h : q.Carries before t item) (hstep : q.step event = some q') :
    q'.Carries before t item := by
  obtain ⟨more, hpushed, hmem⟩ := h
  -- a call of another thread, or one of `t`, which then carries nothing
  have hcall : ∀ {u : Tid} {x : Pc}, q.pc u = .idle → (q.goto u x).Carries before t item := by
    intro u x hpc
    refine ⟨more, hpushed, ?_⟩
    change item ∈ more ++ (Function.update q.pc u x t).pending ++
      (Function.update q.pc u x t).entering
    rcases eq_or_ne t u with rfl | hne
    · rw [hpc] at hmem
      have hmore : item ∈ more := by simpa [Pc.pending, Pc.entering] using hmem
      exact List.mem_append_left _ (List.mem_append_left _ hmore)
    · rwa [Function.update_of_ne hne]
  unfold step at hstep
  split at hstep
  · cases hstep
  · cases event with
    | push u item' =>
        obtain ⟨hpc, hq⟩ := Option.ite_none_right_eq_some.mp hstep
        exact Option.some.inj hq ▸ hcall hpc
    | pop u =>
        obtain ⟨hpc, hq⟩ := Option.ite_none_right_eq_some.mp hstep
        exact Option.some.inj hq ▸ hcall hpc
    | next u fresh =>
        obtain ⟨x, hcontinues⟩ := continues_advance hstep
        obtain ⟨new, hnew⟩ := hcontinues.grows
        have hpushed' : q'.pushed = before ++ (more ++ new) := by
          rw [← hnew, hpushed, List.append_assoc]
        refine ⟨more ++ new, hpushed', ?_⟩
        rcases eq_or_ne t u with rfl | hne
        · have hsame := hcontinues.pushed
          rw [hpushed', hpushed] at hsame
          simp only [List.append_assoc, List.append_cancel_left_eq] at hsame
          rw [hcontinues.pc, Function.update_self]
          refine List.mem_append_left _ ?_
          rw [List.append_assoc, hsame, ← List.append_assoc]
          exact hmem
        · rw [hcontinues.others hne]
          simp only [List.mem_append] at hmem ⊢
          tauto

/-- A push that has returned has appended its item. -/
theorem push_returned {events : List Event} {t : Tid} {item : Value} {q₀ q : RingsQueue}
    (hrun : run step q₀ (.push t item :: events) = some q) (hpc : q.pc t = .idle) :
    ∃ more, q.pushed = q₀.pushed ++ more ∧ item ∈ more := by
  obtain ⟨q₁, hcall, hrest⟩ := run_cons.mp hrun
  have hstart : q₁.Carries q₀.pushed t item := by
    unfold step at hcall
    split at hcall
    · cases hcall
    · obtain ⟨-, hq⟩ := Option.ite_none_right_eq_some.mp hcall
      obtain rfl := Option.some.inj hq
      refine ⟨[], (List.append_nil _).symm, ?_⟩
      change item ∈ [] ++ (Function.update q₀.pc t (.pushLock item) t).pending ++
        (Function.update q₀.pc t (.pushLock item) t).entering
      rw [Function.update_self]
      exact List.mem_singleton_self item
  obtain ⟨more, hpushed, hmem⟩ := run_invariant (I := Carries q₀.pushed t item)
    (fun _ _ _ => carries_step) hstart hrest
  rw [hpc] at hmem
  exact ⟨more, hpushed, by simpa [Pc.pending, Pc.entering] using hmem⟩

/-- What pops return is what was pushed, from the first on; a pop that returns nothing
saw a state in which everything had been popped. -/
theorem popped_prefix_pushed (events : List Event) (q : RingsQueue)
    (hrun : run step (new newNode) events = some q) :
    q.popped <+: q.pushed ∧
      ∀ t, q.pc t = .popUnlock none → Since step (new newNode) (.pop t) Empty events := by
  obtain ⟨⟨chain, h⟩, -⟩ := inv_run hrun
  refine ⟨?_, fun t hpc => (h.threads t).empty hpc⟩
  have hpre : q.popped.map some <+: q.pushed.map some := by
    rw [h.values, List.map_append, List.append_assoc]
    exact List.prefix_append _ _
  obtain ⟨rest, hrest⟩ := hpre
  obtain ⟨popped, rest', hpushed, hpopped, -⟩ := List.map_eq_append_iff.mp hrest.symm
  rw [hpushed, List.map_injective_iff.mpr (Option.some_injective _) hpopped]
  exact List.prefix_append _ _

/-- A pop finds the queue empty, and before it returns a push makes it longer. -/
def emptyPop : List Event :=
  Event.pop 1 :: List.replicate 4 (Event.next 1 0) ++
    Event.push 0 5 :: List.replicate 6 (Event.next 0 0)

theorem popped_prefix_pushed_emptyPop :
    ∃ q, run step (new 1) emptyPop = some q ∧ q.popped <+: q.pushed ∧
      Since step (new 1) (.pop 1) Empty emptyPop := by
  have hsome : (run step (new 1) emptyPop).isSome := by decide +kernel
  have hpc : ∀ q ∈ run step (new 1) emptyPop, q.pc 1 = .popUnlock none := by decide +kernel
  obtain ⟨q, hq⟩ := Option.isSome_iff_exists.mp hsome
  obtain ⟨hpre, hempty⟩ := popped_prefix_pushed emptyPop q hq
  exact ⟨q, hq, hpre, hempty 1 (hpc q hq)⟩

/-- Nothing is used after it was freed, and nothing is read that was not written. -/
theorem faultless (events : List Event) (q : RingsQueue)
    (hrun : run step (new newNode) events = some q) : q.fault = false := by
  obtain ⟨⟨chain, h⟩, -⟩ := inv_run hrun
  exact h.faultless

end Runs

end RingsQueue

end Mimuw.Queues
