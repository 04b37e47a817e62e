import Mimuw.Queues.RingsInvariant

/-!
# The steps of the queue of rings

Every step of a push and of a pop keeps the invariant.
-/

namespace Mimuw.Queues

open Mimuw.Lib

namespace RingsQueue

variable {seen : Tid → Prop} {q q' : RingsQueue} {chain : List Ptr} {t : Tid} {fresh : Ptr}

/-! ## The steps of a push -/

theorem Inv.pushLock (h : q.Inv seen chain) {item : Value} (hpc : q.pc t = .pushLock item)
    (hstep : q.advance t fresh = some q') : q'.Inv seen chain := by
  simp only [RingsQueue.advance, hpc, Option.ite_none_right_eq_some, Option.some.injEq] at hstep
  obtain ⟨hfree, rfl⟩ := hstep
  have hpush := h.push
  rw [hfree] at hpush
  exact h.move (hpush.lock trivial) (h.pop.keep (by rw [hpc]; exact Iff.rfl))
    ⟨nofun, nofun, nofun, nofun, nofun, nofun⟩ (inHand_update (by rw [hpc]; rfl))
    (h.tail_update (by simp [hpc])) rfl rfl

theorem Inv.pushLoadPush (h : q.Inv seen chain) {item : Value}
    (hpc : q.pc t = .pushLoadPush item) (hstep : q.advance t fresh = some q') :
    q'.Inv seen chain := by
  -- the thread that pushes and no other can be about to store the new tail
  have hno : ∀ u p, q.pc u ≠ .pushTail p :=
    h.push.ne_of_inside (t := t) (fun _ => trivial) (by rw [hpc]; trivial) (by simp [hpc])
  have hlast := h.tail hno
  obtain ⟨node, hnode, -⟩ := h.rings q.tail (List.mem_of_getLast? hlast)
  simp only [RingsQueue.advance, hpc, access, hnode, Option.some.injEq] at hstep
  subst hstep
  refine h.quiet hpc Iff.rfl Iff.rfl rfl nofun ⟨?_, nofun, nofun, nofun, nofun, nofun⟩ rfl rfl
  rintro p hp
  cases hp
  exact ⟨hlast, node, hnode, rfl⟩

theorem Inv.pushLoadPop (h : q.Inv seen chain) {item : Value} {tailNode : Ptr} {pushIdx : Nat}
    (hpc : q.pc t = .pushLoadPop item tailNode pushIdx) (hstep : q.advance t fresh = some q') :
    q'.Inv seen chain := by
  obtain ⟨hlast, node, hnode, hknows⟩ := (h.threads t).pushing tailNode (by rw [hpc]; rfl)
  rw [hpc] at hknows
  simp only [RingsQueue.advance, hpc, access, hnode, Option.some.injEq] at hstep
  split at hstep
  next hroom =>
    subst hstep
    refine h.quiet hpc Iff.rfl Iff.rfl rfl nofun ⟨?_, nofun, nofun, nofun, nofun, nofun⟩ rfl rfl
    rintro p hp
    cases hp
    exact ⟨hlast, node, hnode, hknows, by omega⟩
  next =>
    subst hstep
    refine h.quiet hpc Iff.rfl Iff.rfl rfl nofun ⟨?_, nofun, nofun, nofun, nofun, nofun⟩ rfl rfl
    rintro p hp
    cases hp
    exact ⟨hlast, node, hnode, trivial⟩

theorem Inv.pushWrite (h : q.Inv seen chain) {item : Value} {tailNode : Ptr} {pushIdx : Nat}
    (hpc : q.pc t = .pushWrite item tailNode pushIdx) (hstep : q.advance t fresh = some q') :
    q'.Inv seen chain := by
  have hin : (q.pc t).InPush := by rw [hpc]; trivial
  obtain ⟨hlast, node, hnode, hknows⟩ := (h.threads t).pushing tailNode (by rw [hpc]; rfl)
  simp only [RingsQueue.advance, hpc, access, hnode, Option.some.injEq] at hstep
  subst hstep
  rw [hpc] at hknows
  obtain ⟨rfl, hroom⟩ := hknows
  have hmem : tailNode ∈ chain := List.mem_of_getLast? hlast
  obtain ⟨node₀, hnode₀, hle⟩ := h.rings tailNode hmem
  obtain rfl := Option.some.inj (hnode.symm.trans hnode₀)
  have hnone : node.next = none := (nextOf_of_eq hnode).symm.trans (h.segment.next_getLast hlast)
  refine h.store q.pushed hmem hnode rfl hle (by rw [hpc]; exact Iff.rfl)
    (by rw [hpc]; exact Iff.rfl) (by simp [hpc]) ?_ ?_ rfl rfl ?_
  · refine ⟨?_, nofun, nofun, nofun, nofun, nofun⟩
    rintro p hp
    cases hp
    exact ⟨hlast, _, Function.update_self _ _ _, hroom, Function.update_self _ _ _⟩
  · intro u hu
    refine ⟨fun _ => pushKnows_of_out (h.outPush hin hu) _, fun hknows => ?_⟩
    refine hknows.push hnone rfl le_rfl fun hlt => Function.update_of_ne ?_ _ _
    exact mod_ringSize_ne hlt hroom
  · have hwrite : (node.write (node.pushIdx % ringSize) item).contents = node.contents ++ [] :=
      (contents_write hroom).trans (List.append_nil _).symm
    rw [contents_store_last h.nodup hlast hnode hwrite, List.append_nil,
      inHand_update (by rw [hpc]; rfl)]
    exact h.values

theorem Inv.pushAdd (h : q.Inv seen chain) {item : Value} {tailNode : Ptr}
    (hpc : q.pc t = .pushAdd item tailNode) (hstep : q.advance t fresh = some q') :
    q'.Inv seen chain := by
  have hin : (q.pc t).InPush := by rw [hpc]; trivial
  obtain ⟨hlast, node, hnode, hknows⟩ := (h.threads t).pushing tailNode (by rw [hpc]; rfl)
  simp only [RingsQueue.advance, hpc, access, hnode, Option.some.injEq] at hstep
  subst hstep
  rw [hpc] at hknows
  obtain ⟨-, hitem⟩ := hknows
  have hmem : tailNode ∈ chain := List.mem_of_getLast? hlast
  obtain ⟨node₀, hnode₀, hle⟩ := h.rings tailNode hmem
  obtain rfl := Option.some.inj (hnode.symm.trans hnode₀)
  have hnone : node.next = none := (nextOf_of_eq hnode).symm.trans (h.segment.next_getLast hlast)
  refine h.store _ hmem hnode rfl (Nat.le_succ_of_le hle) (by rw [hpc]; exact Iff.rfl)
    (by rw [hpc]; exact Iff.rfl) (by simp [hpc]) ?_ ?_ rfl rfl ?_
  · exact ⟨nofun, nofun, nofun, nofun, nofun, nofun⟩
  · intro u hu
    exact ⟨fun _ => pushKnows_of_out (h.outPush hin hu) _,
      fun hknows => hknows.push hnone rfl (Nat.le_succ _) fun _ => rfl⟩
  · rw [contents_store_last h.nodup hlast hnode (contents_push hle hitem),
      inHand_update (by rw [hpc]; rfl), List.map_append, h.values, List.append_assoc]
    rfl

theorem Inv.pushNew (h : q.Inv seen chain) {item : Value} {tailNode : Ptr}
    (hpc : q.pc t = .pushNew item tailNode) (hstep : q.advance t fresh = some q') :
    q'.Inv seen chain := by
  simp only [RingsQueue.advance, hpc, Option.ite_none_right_eq_some, Option.some.injEq] at hstep
  obtain ⟨hfresh, rfl⟩ := hstep
  have hin : (q.pc t).InPush := by rw [hpc]; trivial
  have hnotMem : fresh ∉ chain := by
    intro hmem
    obtain ⟨node, hnode, -⟩ := h.rings fresh hmem
    cases hfresh.symm.trans hnode
  have hnotOld : ∀ u, (q.pc u).oldNode ≠ some fresh := by
    intro u hu
    have hsome := ((h.threads u).old fresh hu).1
    rw [hfresh] at hsome
    cases hsome
  obtain ⟨hlast, node, hnode, -⟩ := (h.threads t).pushing tailNode (by rw [hpc]; rfl)
  refine h.aside hnotMem ?_ (by rw [hpc]; exact Iff.rfl)
    (by rw [hpc]; exact Iff.rfl) (by simp [hpc])
    (by rw [hpc]; rfl) (fun u hu => ⟨fun node hu' => ?_, hnotOld u⟩) ?_ rfl
  · refine ⟨?_, ?_, nofun, nofun, nofun, nofun⟩
    · rintro p hp
      cases hp
      have hne : tailNode ≠ fresh := fun heq => hnotMem (heq ▸ List.mem_of_getLast? hlast)
      exact ⟨hlast, node, (Function.update_of_ne hne _ _).trans hnode, trivial⟩
    · rintro p node' hp
      cases hp
      exact ⟨Function.update_self _ _ _, hnotMem⟩
  · exact h.outPush hin hu (newNode_inPush hu')
  · rintro p node' hx u
    cases hx
    exact hnotOld u

theorem Inv.pushFirst (h : q.Inv seen chain) {item : Value} {tailNode newNode : Ptr}
    (hpc : q.pc t = .pushFirst item tailNode newNode) (hstep : q.advance t fresh = some q') :
    q'.Inv seen chain := by
  have hin : (q.pc t).InPush := by rw [hpc]; trivial
  have hnewNode : (q.pc t).newNode = some (newNode, Node.new.write 0 item) := by rw [hpc]; rfl
  obtain ⟨hnode, hnotMem⟩ := (h.threads t).fresh _ _ hnewNode
  obtain ⟨hlast, node, hnode', -⟩ := (h.threads t).pushing tailNode (by rw [hpc]; rfl)
  simp only [RingsQueue.advance, hpc, access, hnode, Option.some.injEq] at hstep
  subst hstep
  refine h.aside hnotMem ?_ (by rw [hpc]; exact Iff.rfl)
    (by rw [hpc]; exact Iff.rfl) (by simp [hpc])
    (by rw [hpc]; rfl) (fun u hu => ⟨fun node hu' => ?_, h.apart t u _ _ hnewNode⟩) ?_ rfl
  · refine ⟨?_, ?_, nofun, nofun, nofun, nofun⟩
    · rintro p hp
      cases hp
      have hne : tailNode ≠ newNode := fun heq => hnotMem (heq ▸ List.mem_of_getLast? hlast)
      exact ⟨hlast, node, (Function.update_of_ne hne _ _).trans hnode', trivial⟩
    · rintro p node' hp
      cases hp
      exact ⟨Function.update_self _ _ _, hnotMem⟩
  · exact h.outPush hin hu (newNode_inPush hu')
  · rintro p node' hx u
    cases hx
    exact h.apart t u _ _ hnewNode

theorem Inv.pushLink (h : q.Inv seen chain) {item : Value} {tailNode newNode : Ptr}
    (hpc : q.pc t = .pushLink item tailNode newNode) (hstep : q.advance t fresh = some q') :
    q'.Inv seen (chain ++ [newNode]) := by
  have hin : (q.pc t).InPush := by rw [hpc]; trivial
  have hnewNode : (q.pc t).newNode =
      some (newNode, { Node.new.write 0 item with pushIdx := 1 }) := by rw [hpc]; rfl
  obtain ⟨hnew, hnotMem⟩ := (h.threads t).fresh _ _ hnewNode
  obtain ⟨hlast, node, hnode, -⟩ := (h.threads t).pushing tailNode (by rw [hpc]; rfl)
  simp only [RingsQueue.advance, hpc, access, hnode, Option.some.injEq] at hstep
  subst hstep
  have hmem : tailNode ∈ chain := List.mem_of_getLast? hlast
  have hchain : chain ≠ [] := List.ne_nil_of_mem hmem
  have hne : newNode ≠ tailNode := fun heq => hnotMem (heq ▸ hmem)
  have hnone : node.next = none := (nextOf_of_eq hnode).symm.trans (h.segment.next_getLast hlast)
  obtain ⟨node₀, hnode₀, hle⟩ := h.rings tailNode hmem
  obtain rfl := Option.some.inj (hnode.symm.trans hnode₀)
  constructor
  case segment =>
    refine h.segment.concat h.nodup hlast ?_ ?_ fun p _ hp => ?_
    · exact nextOf_of_eq (Function.update_self _ _ _)
    · exact nextOf_of_eq ((Function.update_of_ne hne _ _).trans hnew)
    · exact congrArg (Option.bind · Node.next) (Function.update_of_ne hp _ _)
  case nodup => exact List.concat_eq_append ▸ h.nodup.concat hnotMem
  case rings =>
    intro p hp
    rcases eq_or_ne p tailNode with rfl | hne'
    · exact ⟨_, Function.update_self _ _ _, hle⟩
    · rcases List.mem_append.mp hp with hp | hp
      · obtain ⟨node', hnode', hle'⟩ := h.rings p hp
        exact ⟨node', (Function.update_of_ne hne' _ _).trans hnode', hle'⟩
      · obtain rfl := List.mem_singleton.mp hp
        exact ⟨_, (Function.update_of_ne hne' _ _).trans hnew, Nat.zero_le _⟩
  case head => exact (List.head?_append_of_ne_nil _ hchain).trans h.head
  case tail => exact fun hno => absurd (Function.update_self _ _ _) (hno t newNode)
  case push => exact h.push.keep (by rw [hpc]; exact Iff.rfl)
  case pop => exact h.pop.keep (by rw [hpc]; exact Iff.rfl)
  case threads =>
    refine (Function.forall_update_iff _ fun u pc => At (seen u) _ (chain ++ [newNode]) pc).mpr
      ⟨⟨nofun, nofun, ?_, nofun, nofun, nofun⟩, fun u hu => ?_⟩
    · rintro p hp
      cases hp
      exact List.getLast?_concat
    · have hout := h.outPush hin hu
      have hat := (h.threads u).store hmem hnode
        (fun _ => pushKnows_of_out hout { node with next := some newNode })
        (fun hknows => hknows.push hnone rfl le_rfl fun _ => rfl)
      exact hat.concat hout hchain (h.apart t u _ _ hnewNode)
  case apart => exact h.apart_update (x := .pushTail newNode) nofun nofun (.inl rfl)
  case values =>
    change (q.pushed ++ [item]).map some =
      (q.popped ++ inHand Pc.taken (Function.update q.pc t (.pushTail newNode))
        q.popMtx).map some ++
        contents (Function.update q.heap tailNode (some { node with next := some newNode }))
          (chain ++ [newNode])
    have hnewContents : contents (Function.update q.heap tailNode
        (some { node with next := some newNode })) [newNode] = [some item] := by
      rw [contents, List.flatMap_singleton,
        contentsAt_of_eq ((Function.update_of_ne hne _ _).trans hnew)]
      rfl
    have hsame : { node with next := some newNode }.contents = node.contents ++ [] :=
      (List.append_nil _).symm
    have hcontents := contents_store_last h.nodup hlast hnode hsame
    rw [contents_append, hnewContents, hcontents, List.append_nil, inHand_update (by rw [hpc]; rfl),
      List.map_append, h.values, List.append_assoc]
    rfl
  case faultless => exact h.faultless

theorem Inv.pushTail (h : q.Inv seen chain) {newNode : Ptr} (hpc : q.pc t = .pushTail newNode)
    (hstep : q.advance t fresh = some q') : q'.Inv seen chain := by
  simp only [RingsQueue.advance, hpc, Option.some.injEq] at hstep
  subst hstep
  have hlast := (h.threads t).linked newNode hpc
  exact h.move (h.push.keep (by rw [hpc]; exact Iff.rfl)) (h.pop.keep (by rw [hpc]; exact Iff.rfl))
    ⟨nofun, nofun, nofun, nofun, nofun, nofun⟩ (inHand_update (by rw [hpc]; rfl)) (fun _ => hlast)
    rfl rfl

theorem Inv.pushUnlock (h : q.Inv seen chain) (hpc : q.pc t = .pushUnlock)
    (hstep : q.advance t fresh = some q') : q'.Inv seen chain := by
  simp only [RingsQueue.advance, hpc, Option.some.injEq] at hstep
  subst hstep
  exact h.move (h.push.unlock (by rw [hpc]; trivial) id)
    (h.pop.keep (by rw [hpc]; exact Iff.rfl)) ⟨nofun, nofun, nofun, nofun, nofun, nofun⟩
    (inHand_update (by rw [hpc]; rfl)) (h.tail_update (by simp [hpc])) rfl rfl

/-! ## The steps of a pop -/

theorem Inv.popLock (h : q.Inv seen chain) (hpc : q.pc t = .popLock)
    (hstep : q.advance t fresh = some q') : q'.Inv seen chain := by
  simp only [RingsQueue.advance, hpc, Option.ite_none_right_eq_some, Option.some.injEq] at hstep
  obtain ⟨hfree, rfl⟩ := hstep
  have hpop := h.pop
  rw [hfree] at hpop
  refine h.move (h.push.keep (by rw [hpc]; exact Iff.rfl)) (hpop.lock trivial)
    ⟨nofun, nofun, nofun, nofun, nofun, nofun⟩ ?_ (h.tail_update (by simp [hpc])) rfl rfl
  rw [hfree, inHand, Function.update_self]
  rfl

/-- A pop that finds no link and nothing in the ring has seen the queue empty. -/
private theorem Inv.seen_of_empty (h : q.Inv seen chain) {node : Node}
    (hnode : q.heap q.head = some node)
    (hpc : q.pc t = .popNext) (hnow : q.pushed = q.popped → seen t) :
    LinkKnown (seen t) node.next node := by
  cases hnext : node.next with
  | some nextNode => exact hnext
  | none =>
      obtain ⟨rest, rfl⟩ := List.head?_eq_some_iff.mp h.head
      obtain ⟨node₀, hnode₀, hle⟩ := h.rings q.head List.mem_cons_self
      obtain rfl := Option.some.inj (hnode.symm.trans hnode₀)
      have hrest : rest = [] := by
        rw [← List.head?_eq_none_iff, ← h.segment.next_head, nextOf_of_eq hnode, hnext]
      subst hrest
      rcases hle.eq_or_lt with heq | hlt
      · refine .inl (hnow ?_)
        have hin : (q.pc t).InPop := by rw [hpc]; trivial
        have htaken : inHand Pc.taken q.pc q.popMtx = [] := by
          rw [h.pop.inHand_eq hin, hpc]
          rfl
        have hcontents : contents q.heap [q.head] = [] := by
          rw [contents, List.flatMap_singleton, contentsAt_of_eq hnode, contents_of_eq heq]
        have hvalues := h.values
        rw [htaken, hcontents, List.append_nil, List.append_nil] at hvalues
        exact List.map_injective_iff.mpr (Option.some_injective _) hvalues
      · exact .inr hlt

theorem Inv.popNext (h : q.Inv seen chain) (hpc : q.pc t = .popNext)
    (hnow : q.pushed = q.popped → seen t) (hstep : q.advance t fresh = some q') :
    q'.Inv seen chain := by
  obtain ⟨node, hnode, -⟩ := h.rings q.head (List.mem_of_head? h.head)
  have hknown := h.seen_of_empty hnode hpc hnow
  simp only [RingsQueue.advance, hpc, access, hnode, Option.some.injEq] at hstep
  subst hstep
  refine h.quiet hpc Iff.rfl Iff.rfl rfl nofun ⟨nofun, nofun, nofun, ?_, nofun, nofun⟩ rfl rfl
  rintro p hp
  cases hp
  exact ⟨h.head, node, hnode, hknown⟩

theorem Inv.popLoadPop (h : q.Inv seen chain) {headNode : Ptr} {nextNode : Option Ptr}
    (hpc : q.pc t = .popLoadPop headNode nextNode) (hstep : q.advance t fresh = some q') :
    q'.Inv seen chain := by
  obtain ⟨hhead, node, hnode, hknows⟩ := (h.threads t).popping headNode (by rw [hpc]; rfl)
  rw [hpc] at hknows
  simp only [RingsQueue.advance, hpc, access, hnode, Option.some.injEq] at hstep
  subst hstep
  refine h.quiet hpc Iff.rfl Iff.rfl rfl nofun ⟨nofun, nofun, nofun, ?_, nofun, nofun⟩ rfl rfl
  rintro p hp
  cases hp
  exact ⟨hhead, node, hnode, hknows, rfl⟩

theorem Inv.popLoadPush (h : q.Inv seen chain) {headNode : Ptr} {nextNode : Option Ptr}
    {popIdx : Nat} (hpc : q.pc t = .popLoadPush headNode nextNode popIdx)
    (hstep : q.advance t fresh = some q') : q'.Inv seen chain := by
  obtain ⟨hhead, node, hnode, hknows⟩ := (h.threads t).popping headNode (by rw [hpc]; rfl)
  obtain ⟨node₀, hnode₀, hle⟩ := h.rings headNode (List.mem_of_head? hhead)
  obtain rfl := Option.some.inj (hnode.symm.trans hnode₀)
  rw [hpc] at hknows
  obtain ⟨hknown, hpop⟩ := hknows
  simp only [RingsQueue.advance, hpc, access, hnode, Option.some.injEq] at hstep
  split at hstep
  next heq =>
    cases nextNode with
    | none =>
        subst hstep
        refine h.quiet hpc Iff.rfl Iff.rfl rfl nofun
          ⟨nofun, nofun, nofun, nofun, nofun, fun _ => ?_⟩ rfl rfl
        exact hknown.resolve_right (by omega)
    | some nextNode =>
        subst hstep
        refine h.quiet hpc Iff.rfl Iff.rfl rfl nofun
          ⟨nofun, nofun, nofun, ?_, nofun, nofun⟩ rfl rfl
        rintro p hp
        cases hp
        exact ⟨hhead, node, hnode, hknown, hpop.trans heq⟩
  next hne =>
    subst hstep
    refine h.quiet hpc Iff.rfl Iff.rfl rfl nofun ⟨nofun, nofun, nofun, ?_, nofun, nofun⟩ rfl rfl
    rintro p hp
    cases hp
    exact ⟨hhead, node, hnode, hpop, by omega⟩

private theorem Inv.readable (h : q.Inv seen chain) {p : Ptr} {node : Node}
    (hhead : chain.head? = some p)
    (hnode : q.heap p = some node) (hlt : node.popIdx < node.pushIdx) :
    ∃ item, node.buffer (node.popIdx % ringSize) = some item := by
  obtain ⟨rest, rfl⟩ := List.head?_eq_some_iff.mp hhead
  have hmem : node.buffer (node.popIdx % ringSize) ∈ q.pushed.map some := by
    rw [h.values, contents, List.flatMap_cons, contentsAt_of_eq hnode, contents_pop hlt]
    simp
  obtain ⟨item, -, hitem⟩ := List.mem_map.mp hmem
  exact ⟨item, hitem.symm⟩

theorem Inv.popRead (h : q.Inv seen chain) {headNode : Ptr} {popIdx : Nat}
    (hpc : q.pc t = .popRead headNode popIdx) (hstep : q.advance t fresh = some q') :
    q'.Inv seen chain := by
  obtain ⟨hhead, node, hnode, hknows⟩ := (h.threads t).popping headNode (by rw [hpc]; rfl)
  rw [hpc] at hknows
  obtain ⟨rfl, hlt⟩ := hknows
  obtain ⟨item, hitem⟩ := h.readable hhead hnode hlt
  simp only [RingsQueue.advance, hpc, access, hnode, hitem, Option.some.injEq] at hstep
  subst hstep
  refine h.quiet hpc Iff.rfl Iff.rfl rfl nofun ⟨nofun, nofun, nofun, ?_, nofun, nofun⟩ rfl rfl
  rintro p hp
  cases hp
  exact ⟨hhead, node, hnode, hlt, hitem⟩

theorem Inv.popHead (h : q.Inv seen chain) {headNode nextNode : Ptr}
    (hpc : q.pc t = .popHead headNode nextNode) (hstep : q.advance t fresh = some q') :
    q'.Inv seen chain.tail := by
  simp only [RingsQueue.advance, hpc, Option.some.injEq] at hstep
  subst hstep
  have hin : (q.pc t).InPop := by rw [hpc]; trivial
  obtain ⟨hhead, node, hnode, hknows⟩ := (h.threads t).popping headNode (by rw [hpc]; rfl)
  rw [hpc] at hknows
  obtain ⟨hnext, hempty⟩ := hknows
  obtain ⟨rest, rfl⟩ := List.head?_eq_some_iff.mp hhead
  have hrest : rest.head? = some nextNode :=
    h.segment.next_head.symm.trans ((nextOf_of_eq hnode).trans hnext)
  obtain ⟨rest, rfl⟩ := List.head?_eq_some_iff.mp hrest
  obtain ⟨hnotMem, hnodup⟩ := List.nodup_cons.mp h.nodup
  have hlast : (headNode :: nextNode :: rest).getLast? = (nextNode :: rest).getLast? :=
    List.getLast?_cons_cons
  constructor
  case segment => exact h.segment.tail
  case nodup => exact hnodup
  case rings => exact fun p hp => h.rings p (List.mem_cons_of_mem _ hp)
  case head => rfl
  case tail => exact fun hno => hlast ▸ h.tail_update (by simp [hpc]) hno
  case push => exact h.push.keep (by rw [hpc]; exact Iff.rfl)
  case pop => exact h.pop.keep (by rw [hpc]; exact Iff.rfl)
  case threads =>
    refine (Function.forall_update_iff _ fun u pc => At (seen u) _ (nextNode :: rest) pc).mpr
      ⟨⟨nofun, nofun, nofun, nofun, ?_, nofun⟩, fun u hu => ?_⟩
    · rintro p hp
      cases hp
      exact ⟨by rw [goto, hnode]; rfl, hnotMem⟩
    · have hout := h.outPop hin hu
      have hat := h.threads u
      refine ⟨fun p hp => ⟨hlast.symm.trans (hat.pushing p hp).1, (hat.pushing p hp).2⟩,
        fun p node hp => ⟨(hat.fresh p node hp).1, fun hmem => ?_⟩,
        fun p hp => hlast.symm.trans (hat.linked p hp), fun p hp => ?_, fun p hp => ?_, hat.empty⟩
      · exact (hat.fresh p node hp).2 (List.mem_cons_of_mem _ hmem)
      · exact absurd (headNode_inPop hp) hout
      · exact absurd (oldNode_inPop hp) hout
  case apart =>
    refine h.apart_update (x := .popFree headNode) nofun ?_ (.inl rfl)
    rintro p hp u node' hu
    cases hp
    exact ((h.threads u).fresh _ _ hu).2 List.mem_cons_self
  case values =>
    change q.pushed.map some =
      (q.popped ++ inHand Pc.taken (Function.update q.pc t _) q.popMtx).map some ++
        contents q.heap (nextNode :: rest)
    have hvalues := h.values
    have hcontents : contents q.heap (headNode :: nextNode :: rest) =
        contents q.heap (nextNode :: rest) := by
      rw [contents, List.flatMap_cons, contentsAt_of_eq hnode, contents_of_eq hempty]
      rfl
    rw [hcontents] at hvalues
    rw [inHand_update (by rw [hpc]; rfl)]
    exact hvalues
  case faultless => exact h.faultless

theorem Inv.popFree (h : q.Inv seen chain) {headNode : Ptr} (hpc : q.pc t = .popFree headNode)
    (hstep : q.advance t fresh = some q') : q'.Inv seen chain := by
  have hin : (q.pc t).InPop := by rw [hpc]; trivial
  have hold : (q.pc t).oldNode = some headNode := by rw [hpc]; rfl
  obtain ⟨hsome, hnotMem⟩ := (h.threads t).old headNode hold
  obtain ⟨node, hnode⟩ := Option.isSome_iff_exists.mp hsome
  simp only [RingsQueue.advance, hpc, access, hnode, Option.some.injEq] at hstep
  subst hstep
  refine h.aside hnotMem ⟨nofun, nofun, nofun, nofun, nofun, nofun⟩ (by rw [hpc]; exact Iff.rfl)
    (by rw [hpc]; exact Iff.rfl) (by simp [hpc]) (by rw [hpc]; rfl)
    (fun u hu => ⟨fun node hu' => h.apart u t _ _ hu' hold, fun hu' => ?_⟩) nofun rfl
  exact h.outPop hin hu (oldNode_inPop hu')

theorem Inv.popAdd (h : q.Inv seen chain) {item : Value} {headNode : Ptr}
    (hpc : q.pc t = .popAdd headNode item) (hstep : q.advance t fresh = some q') :
    q'.Inv seen chain := by
  have hin : (q.pc t).InPop := by rw [hpc]; trivial
  obtain ⟨hhead, node, hnode, hknows⟩ := (h.threads t).popping headNode (by rw [hpc]; rfl)
  simp only [RingsQueue.advance, hpc, access, hnode, Option.some.injEq] at hstep
  subst hstep
  rw [hpc] at hknows
  obtain ⟨hlt, hitem⟩ := hknows
  obtain ⟨rest, rfl⟩ := List.head?_eq_some_iff.mp hhead
  have hmtx : q.popMtx = some t := (h.pop t).mp hin
  refine h.store q.pushed List.mem_cons_self hnode rfl hlt (by rw [hpc]; exact Iff.rfl)
    (by rw [hpc]; exact Iff.rfl) (by simp [hpc]) ?_ ?_ rfl rfl ?_
  · exact ⟨nofun, nofun, nofun, nofun, nofun, nofun⟩
  · intro u hu
    exact ⟨PushKnows.pop, fun _ => popKnows_of_out (h.outPop hin hu) _⟩
  · have hbefore : inHand Pc.taken q.pc q.popMtx = [] := by
      rw [h.pop.inHand_eq hin, hpc]
      rfl
    have hafter : inHand Pc.taken (Function.update q.pc t (.popUnlock (some item))) q.popMtx =
        [item] := by
      rw [hmtx, inHand, Function.update_self]
      rfl
    have hcontents : contents q.heap (headNode :: rest) = some item ::
        ({ node with popIdx := node.popIdx + 1 }.contents ++ contents q.heap rest) := by
      rw [contents, List.flatMap_cons, contentsAt_of_eq hnode, contents_pop hlt, hitem]
      rfl
    have hvalues := h.values
    rw [hbefore, List.append_nil, hcontents] at hvalues
    rw [hafter, contents_store_head h.nodup, hvalues, List.map_append, List.append_assoc]
    rfl

theorem Inv.popUnlock (h : q.Inv seen chain) {item : Option Value}
    (hpc : q.pc t = .popUnlock item) (hstep : q.advance t fresh = some q') :
    q'.Inv seen chain := by
  have hin : (q.pc t).InPop := by rw [hpc]; trivial
  simp only [RingsQueue.advance, hpc, Option.some.injEq] at hstep
  subst hstep
  constructor
  case segment => exact h.segment
  case nodup => exact h.nodup
  case rings => exact h.rings
  case head => exact h.head
  case tail => exact h.tail_update (by simp [hpc])
  case push => exact h.push.keep (by rw [hpc]; exact Iff.rfl)
  case pop => exact h.pop.unlock hin id
  case threads =>
    exact (Function.forall_update_iff _ fun u pc => At (seen u) q.heap chain pc).mpr
      ⟨⟨nofun, nofun, nofun, nofun, nofun, nofun⟩, fun u _ => h.threads u⟩
  case apart => exact h.apart_update (x := .idle) nofun nofun (.inl rfl)
  case values =>
    have htaken : inHand Pc.taken q.pc q.popMtx = item.toList := by
      rw [h.pop.inHand_eq hin, hpc]
      rfl
    change q.pushed.map some = (q.popped ++ item.toList ++ inHand Pc.taken _ none).map some ++ _
    rw [h.values, htaken, inHand, List.append_nil]
    rfl
  case faultless => exact h.faultless

/-! ## Every step -/

theorem Inv.advance (h : q.Inv seen chain) (hnow : q.pushed = q.popped → (q.pc t).InPop → seen t)
    (hstep : q.advance t fresh = some q') : ∃ chain', q'.Inv seen chain' := by
  cases hpc : q.pc t with
  | idle => simp [RingsQueue.advance, hpc] at hstep
  | pushLock item => exact ⟨chain, h.pushLock hpc hstep⟩
  | pushLoadPush item => exact ⟨chain, h.pushLoadPush hpc hstep⟩
  | pushLoadPop item tailNode pushIdx => exact ⟨chain, h.pushLoadPop hpc hstep⟩
  | pushWrite item tailNode pushIdx => exact ⟨chain, h.pushWrite hpc hstep⟩
  | pushAdd item tailNode => exact ⟨chain, h.pushAdd hpc hstep⟩
  | pushNew item tailNode => exact ⟨chain, h.pushNew hpc hstep⟩
  | pushFirst item tailNode newNode => exact ⟨chain, h.pushFirst hpc hstep⟩
  | pushLink item tailNode newNode => exact ⟨chain ++ [newNode], h.pushLink hpc hstep⟩
  | pushTail newNode => exact ⟨chain, h.pushTail hpc hstep⟩
  | pushUnlock => exact ⟨chain, h.pushUnlock hpc hstep⟩
  | popLock => exact ⟨chain, h.popLock hpc hstep⟩
  | popNext => exact ⟨chain, h.popNext hpc (fun heq => hnow heq (by rw [hpc]; trivial)) hstep⟩
  | popLoadPop headNode nextNode => exact ⟨chain, h.popLoadPop hpc hstep⟩
  | popLoadPush headNode nextNode popIdx => exact ⟨chain, h.popLoadPush hpc hstep⟩
  | popHead headNode nextNode => exact ⟨chain.tail, h.popHead hpc hstep⟩
  | popFree headNode => exact ⟨chain, h.popFree hpc hstep⟩
  | popRead headNode popIdx => exact ⟨chain, h.popRead hpc hstep⟩
  | popAdd headNode item => exact ⟨chain, h.popAdd hpc hstep⟩
  | popUnlock item => exact ⟨chain, h.popUnlock hpc hstep⟩

end RingsQueue

end Mimuw.Queues
