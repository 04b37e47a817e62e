import Mimuw.Lib.Linked
import Mimuw.Mimpi.Deadlock

/-!
# The list of messages of a source

What a process keeps of one source, with the list of messages as the code builds it: a
head, a tail and cells in the heap.  Deadlock detection is off.  A receiver thread and the
main thread both hold the lock while they change it, so each message received and each
turn of the loop of `MIMPI_Recv` is one step.
-/

namespace Mimuw.Mimpi

open Mimuw.Lib

/-- A pointer is `none` when it is `NULL`. -/
abbrev Ptr := Nat

/-- `buffers_size` is an `int`, here without bounds. -/
structure Source where
  heap : Ptr → Option (Cell Ptr Message)
  head : Option Ptr
  tail : Option Ptr
  buffersSize : Int
  finished : Bool
  sendedBarrier : Bool

/-- How a turn of the loop of `MIMPI_Recv` ends, with the bytes copied, if any were. -/
inductive Turn where
  | success (copied : Option (List UInt8))
  | remoteFinished
  | waits
  deriving DecidableEq

namespace Source

def init : Source := ⟨fun _ => none, none, none, 0, false, false⟩

/-- The end of `receive_message`; `calloc` returns `fresh`, and `none` is a bad access. -/
def append (s : Source) (fresh : Ptr) (m : Message) : Option Source :=
  let heap := Function.update s.heap fresh (some ⟨m, none⟩)
  match s.head with
  | none =>
      some { s with
        heap := heap
        head := some fresh
        tail := some fresh
        buffersSize := s.buffersSize + 1 }
  | some _ => do
      let tail ← s.tail
      let last ← heap tail
      return { s with
        heap := Function.update heap tail (some { last with next := some fresh })
        tail := some fresh
        buffersSize := s.buffersSize + 1 }

def receiveMessage (s : Source) (fresh : Ptr) (m : Message) : Option Source :=
  if m.tag = finishedTag then some { s with finished := true }
  else if m.tag = barrierTag then some { s with sendedBarrier := true }
  else s.append fresh m

/-- The search of `MIMPI_Recv`: `current` and `prev` at the first match, or none. -/
def search (heap : Ptr → Option (Cell Ptr Message)) (count : Nat) (tag : Int) :
    Nat → Option Ptr → Option Ptr → Option (Option (Ptr × Option Ptr))
  | _, _, none => some none
  | 0, _, some _ => none
  | fuel + 1, prev, some current => do
      let node ← heap current
      if node.content.isMatch count tag then some (some (current, prev))
      else search heap count tag fuel (some current) node.next

/-- `current` is taken out of the list and freed. -/
def unlink (s : Source) (current : Ptr) (prev : Option Ptr) : Option (Message × Source) := do
  let node ← s.heap current
  let s ← match prev with
    | none =>
        some { s with
          head := node.next
          tail := if node.next = none then none else s.tail }
    | some prev => do
        let prevNode ← s.heap prev
        some { s with
          heap := Function.update s.heap prev (some { prevNode with next := node.next })
          tail := if node.next = none then some prev else s.tail }
  return (node.content, { s with
    heap := Function.update s.heap current none
    buffersSize := s.buffersSize - 1 })

/-- One turn of the loop of `MIMPI_Recv`. -/
def recv (s : Source) (fuel count : Nat) (tag : Int) : Option (Turn × Source) :=
  if s.sendedBarrier then some (.success none, { s with sendedBarrier := false })
  else do
    match ← search s.heap count tag fuel none s.head with
    | some (current, prev) =>
        let (m, s) ← s.unlink current prev
        return (.success (some m.data), s)
    | none =>
        if s.finished ∧ s.buffersSize = 0 then return (.remoteFinished, s)
        else return (.waits, s)

end Source

inductive SourceEvent where
  | receive (fresh : Ptr) (m : Message)
  | recv (fuel count : Nat) (tag : Int)

def sourceStep (s : Source) : SourceEvent → Option Source
  | .receive fresh m => if s.heap fresh = none then s.receiveMessage fresh m else none
  | .recv fuel count tag => (s.recv fuel count tag).map Prod.snd

/-! ## What the list holds -/

/-- The list with its addresses. -/
structure Source.Holds (s : Source) (l : List (Ptr × Message)) : Prop where
  path : Path s.heap s.head l none
  nodup : (l.map Prod.fst).Nodup
  tail : s.tail = (l.map Prod.fst).getLast?
  size : s.buffersSize = l.length

def Source.messages (s : Source) (ms : List Message) : Prop :=
  ∃ l, s.Holds l ∧ l.map Prod.snd = ms

private theorem Source.holds_init : Source.init.Holds [] := ⟨rfl, List.nodup_nil, rfl, rfl⟩

private theorem Source.Holds.marks {s : Source} {l : List (Ptr × Message)} (h : s.Holds l)
    (finished barrier : Bool) :
    Source.Holds { s with finished := finished, sendedBarrier := barrier } l :=
  ⟨h.path, h.nodup, h.tail, h.size⟩

section Steps

variable {s : Source} {l before after : List (Ptr × Message)} {a fresh : Ptr} {m : Message}
  {count fuel : Nat} {tag : Int} {start prev : Option Ptr}

private theorem append_holds (h : s.Holds l) (hfresh : s.heap fresh = none) (m : Message) :
    ∃ s', s.append fresh m = some s' ∧ s'.Holds (l ++ [(fresh, m)]) ∧
      s'.finished = s.finished ∧ s'.sendedBarrier = s.sendedBarrier := by
  have hnew : ∀ c ∈ l, c.1 ≠ fresh := by
    rintro c hc rfl
    obtain ⟨next, hcell⟩ := h.path.cell hc
    rw [hfresh] at hcell
    cases hcell
  have hkeep : Path (Function.update s.heap fresh (some ⟨m, none⟩)) s.head l none :=
    h.path.congr fun c hc => Function.update_of_ne (hnew c hc) _ _
  have hnodup : ((l ++ [(fresh, m)]).map Prod.fst).Nodup := by
    rw [List.map_append, List.nodup_append]
    refine ⟨h.nodup, List.nodup_singleton _, ?_⟩
    rintro p hp q hq rfl
    obtain ⟨c, hc, hcp⟩ := List.mem_map.mp hp
    exact hnew c hc (hcp.trans (List.mem_singleton.mp hq))
  have hsize : s.buffersSize + 1 = ((l ++ [(fresh, m)]).length : Int) := by
    rw [h.size, List.length_append, List.length_singleton, Nat.cast_add, Nat.cast_one]
  rcases List.eq_nil_or_concat' l with rfl | ⟨l, ⟨z, mz⟩, rfl⟩
  · have hhead : s.head = none := h.path
    refine ⟨{ s with
      heap := Function.update s.heap fresh (some ⟨m, none⟩)
      head := some fresh
      tail := some fresh
      buffersSize := s.buffersSize + 1 }, by rw [Source.append, hhead], ?_, rfl, rfl⟩
    exact ⟨⟨rfl, none, Function.update_self _ _ _, rfl⟩, hnodup, rfl, hsize⟩
  · have hz : z ∉ l.map Prod.fst := by
      have := h.nodup
      rw [List.map_append, List.nodup_append] at this
      exact fun hmem => this.2.2 z hmem z (List.mem_singleton_self z) rfl
    have hzfresh : z ≠ fresh := hnew (z, mz) (by simp)
    obtain ⟨first, hhead⟩ : ∃ first, s.head = some first := by
      obtain ⟨mid, hfirst, hlast⟩ := Path.append_iff.mp h.path
      cases l with
      | nil => exact ⟨z, hfirst.trans hlast.1⟩
      | cons c l => exact ⟨_, hfirst.1⟩
    have htail : s.tail = some z := by rw [h.tail]; simp
    obtain ⟨next, hcell⟩ := hkeep.cell (c := (z, mz)) (by simp)
    refine ⟨{ s with
      heap := Function.update (Function.update s.heap fresh (some ⟨m, none⟩)) z
        (some ⟨mz, some fresh⟩)
      tail := some fresh
      buffersSize := s.buffersSize + 1 }, ?_, ?_, rfl, rfl⟩
    · simp only [Source.append, hhead, htail, Option.bind_eq_bind, Option.bind_some, hcell]
      rfl
    · refine ⟨Path.append_iff.mpr ⟨some fresh, hkeep.relink hz, rfl, none, ?_, rfl⟩, hnodup, ?_,
        hsize⟩
      · exact (Function.update_of_ne hzfresh.symm _ _).trans (Function.update_self _ _ _)
      · simp

/-- The search stops at the first match, with the cell before it. -/
private theorem search_cases (h : Path s.heap start l none) {found : Option (Ptr × Option Ptr)}
    (hsearch : Source.search s.heap count tag fuel prev start = some found) :
    (∃ before a m after, l = before ++ (a, m) :: after ∧
      (∀ c ∈ before, c.2.isMatch count tag = false) ∧ m.isMatch count tag = true ∧
      found = some (a, ((before.map Prod.fst).getLast?).or prev)) ∨
    (∀ c ∈ l, c.2.isMatch count tag = false) ∧ found = none := by
  induction l generalizing fuel prev start with
  | nil =>
      obtain rfl : start = none := h
      right
      cases fuel <;> exact ⟨fun c hc => absurd hc List.not_mem_nil, (Option.some.inj hsearch).symm⟩
  | cons c l ih =>
      obtain ⟨rfl, next, hcell, hrest⟩ := h
      cases fuel with
      | zero => cases hsearch
      | succ fuel =>
          simp only [Source.search, hcell, Option.bind_eq_bind, Option.bind_some] at hsearch
          split at hsearch
          · rename_i hmatch
            exact .inl ⟨[], c.1, c.2, l, rfl, by simp, hmatch, (Option.some.inj hsearch).symm⟩
          · rename_i hmatch
            have hfirst : c.2.isMatch count tag = false := by simpa using hmatch
            rcases ih hrest hsearch with ⟨before, a, m, after, rfl, hbefore, hm, rfl⟩ | ⟨hnone, rfl⟩
            · refine .inl ⟨c :: before, a, m, after, rfl, ?_, hm, ?_⟩
              · exact List.forall_mem_cons.mpr ⟨hfirst, hbefore⟩
              · rw [List.map_cons, List.getLast?_cons]
                cases (before.map Prod.fst).getLast? <;> rfl
            · exact .inr ⟨List.forall_mem_cons.mpr ⟨hfirst, hnone⟩, rfl⟩

private theorem search_total (count : Nat) (tag : Int) (prev : Option Ptr)
    (h : Path s.heap start l none) (hfuel : l.length ≤ fuel) :
    (Source.search s.heap count tag fuel prev start).isSome := by
  induction l generalizing fuel prev start with
  | nil =>
      obtain rfl : start = none := h
      cases fuel <;> rfl
  | cons c l ih =>
      obtain ⟨rfl, next, hcell, hrest⟩ := h
      obtain ⟨fuel, rfl⟩ : ∃ k, fuel = k + 1 := ⟨fuel - 1, by simp at hfuel; omega⟩
      simp only [Source.search, hcell, Option.bind_eq_bind, Option.bind_some]
      split
      · rfl
      · exact ih _ hrest (by simpa using hfuel)

private theorem unlink_holds (h : s.Holds (before ++ (a, m) :: after)) :
    ∃ s', s.unlink a ((before.map Prod.fst).getLast?) = some (m, s') ∧ s'.Holds (before ++ after) ∧
      s'.finished = s.finished ∧ s'.sendedBarrier = s.sendedBarrier := by
  obtain ⟨mid, hbefore, rfl, next, hcell, hafter⟩ := Path.append_iff.mp h.path
  have hnodup := h.nodup
  rw [List.map_append, List.map_cons, List.nodup_append, List.nodup_cons] at hnodup
  obtain ⟨hnodupBefore, ⟨haAfter, hnodupAfter⟩, hdisjoint⟩ := hnodup
  have haBefore : a ∉ before.map Prod.fst := fun hmem =>
    hdisjoint a hmem a List.mem_cons_self rfl
  have hfree {heap : Ptr → Option (Cell Ptr Message)} {start stop : Option Ptr}
      {l : List (Ptr × Message)} (ha : a ∉ l.map Prod.fst) (hpath : Path heap start l stop) :
      Path (Function.update heap a none) start l stop := by
    refine hpath.congr fun c hc => Function.update_of_ne ?_ _ _
    rintro rfl
    exact ha (List.mem_map_of_mem hc)
  have hnext : next = none ↔ after = [] := by
    constructor
    · rintro rfl
      exact hafter.eq_nil_of_none
    · rintro rfl
      exact hafter
  have hsize : s.buffersSize - 1 = ((before ++ after).length : Int) := by
    rw [h.size]
    simp only [List.length_append, List.length_cons]
    push_cast
    ring
  have hnodup' : ((before ++ after).map Prod.fst).Nodup := by
    rw [List.map_append, List.nodup_append]
    exact ⟨hnodupBefore, hnodupAfter, fun p hp q hq =>
      hdisjoint p hp q (List.mem_cons_of_mem a hq)⟩
  rcases List.eq_nil_or_concat' before with rfl | ⟨before, ⟨z, mz⟩, rfl⟩
  · refine ⟨{ s with
      heap := Function.update s.heap a none
      head := next
      tail := if next = none then none else s.tail
      buffersSize := s.buffersSize - 1 }, ?_, ⟨hfree haAfter hafter, hnodup', ?_, hsize⟩, rfl, rfl⟩
    · simp [Source.unlink, hcell]
    · cases after with
      | nil => simp [hnext.mpr rfl]
      | cons c after =>
          have hmore : next ≠ none := fun hnone => by cases hnext.mp hnone
          simp [hmore, h.tail]
  · have hz : z ∉ before.map Prod.fst := by
      rw [List.map_append, List.nodup_append] at hnodupBefore
      exact fun hmem => hnodupBefore.2.2 z hmem z (List.mem_singleton_self z) rfl
    have hzAfter : z ∉ after.map Prod.fst := fun hmem =>
      hdisjoint z (by simp) z (List.mem_cons_of_mem a hmem) rfl
    obtain ⟨old, hzcell⟩ := hbefore.cell (c := (z, mz)) (by simp)
    have hlinked : Path (Function.update s.heap z (some ⟨mz, next⟩)) s.head
        (before ++ [(z, mz)] ++ after) none := by
      refine Path.append_iff.mpr ⟨next, hbefore.relink hz, hafter.congr fun c hc => ?_⟩
      refine Function.update_of_ne ?_ _ _
      rintro rfl
      exact hzAfter (List.mem_map_of_mem hc)
    have haAll : a ∉ (before ++ [(z, mz)] ++ after).map Prod.fst := by
      rw [List.map_append, List.mem_append]
      exact not_or.mpr ⟨haBefore, haAfter⟩
    refine ⟨{ s with
      heap := Function.update (Function.update s.heap z (some ⟨mz, next⟩)) a none
      tail := if next = none then some z else s.tail
      buffersSize := s.buffersSize - 1 }, ?_, ⟨hfree haAll hlinked, hnodup', ?_, hsize⟩, rfl, rfl⟩
    · simp [Source.unlink, hcell, hzcell]
    · cases after with
      | nil => simp [hnext.mpr rfl]
      | cons c after =>
          have hmore : next ≠ none := fun hnone => by cases hnext.mp hnone
          simp [hmore, h.tail]

/-- A turn of the loop: what it does is decided by the list, the finished mark and the
word of a barrier. -/
private theorem recv_cases (h : s.Holds l) {turn : Turn} {s' : Source}
    (hrecv : s.recv fuel count tag = some (turn, s')) :
    (s.sendedBarrier = true ∧ turn = .success none ∧ s' = { s with sendedBarrier := false }) ∨
    (s.sendedBarrier = false ∧ ∃ before a m after, l = before ++ (a, m) :: after ∧
      (∀ c ∈ before, c.2.isMatch count tag = false) ∧ m.isMatch count tag = true ∧
      turn = .success (some m.data) ∧ s'.Holds (before ++ after) ∧
      s'.finished = s.finished ∧ s'.sendedBarrier = s.sendedBarrier) ∨
    (s.sendedBarrier = false ∧ (∀ c ∈ l, c.2.isMatch count tag = false) ∧ s' = s ∧
      turn = if s.finished ∧ s.buffersSize = 0 then .remoteFinished else .waits) := by
  unfold Source.recv at hrecv
  split at hrecv
  · rename_i hbarrier
    obtain ⟨rfl, rfl⟩ := Prod.mk.inj (Option.some.inj hrecv)
    exact .inl ⟨hbarrier, rfl, rfl⟩
  · rename_i hbarrier
    have hflag : s.sendedBarrier = false := by simpa using hbarrier
    cases hsearch : Source.search s.heap count tag fuel none s.head with
    | none => simp [hsearch] at hrecv
    | some found =>
        rcases search_cases h.path hsearch with
          ⟨before, a, m, after, rfl, hbefore, hm, rfl⟩ | ⟨hnone, rfl⟩
        · obtain ⟨s₁, hunlink, hholds, hmarks⟩ := unlink_holds h
          simp only [hsearch, Option.or_none, hunlink, Option.bind_eq_bind, Option.bind_some,
            Option.pure_def] at hrecv
          obtain ⟨rfl, rfl⟩ := Prod.mk.inj (Option.some.inj hrecv)
          exact .inr (.inl ⟨hflag, before, a, m, after, rfl, hbefore, hm, rfl, hholds, hmarks⟩)
        · right
          right
          simp only [hsearch, Option.bind_eq_bind, Option.bind_some] at hrecv
          split at hrecv
          · rename_i hfinished
            obtain ⟨rfl, rfl⟩ := Prod.mk.inj (Option.some.inj hrecv)
            exact ⟨hflag, hnone, rfl, (if_pos hfinished).symm⟩
          · rename_i hfinished
            obtain ⟨rfl, rfl⟩ := Prod.mk.inj (Option.some.inj hrecv)
            exact ⟨hflag, hnone, rfl, (if_neg hfinished).symm⟩

theorem recv_total (h : s.Holds l) (hfuel : l.length ≤ fuel) : (s.recv fuel count tag).isSome := by
  unfold Source.recv
  split
  · rfl
  · obtain ⟨found, hfound⟩ := Option.isSome_iff_exists.mp
      (search_total count tag none h.path hfuel)
    rw [hfound]
    rcases search_cases h.path hfound with ⟨before, a, m, after, rfl, -, -, rfl⟩ | ⟨-, rfl⟩
    · obtain ⟨s₁, hunlink, -⟩ := unlink_holds h
      simp only [Option.or_none, hunlink, Option.bind_eq_bind, Option.bind_some, Option.pure_def,
        Option.isSome_some]
    · simp only [Option.bind_eq_bind, Option.bind_some]
      split <;> rfl

private theorem sourceStep_holds {event : SourceEvent} {s' : Source} (h : s.Holds l)
    (hstep : sourceStep s event = some s') : ∃ l', s'.Holds l' := by
  cases event with
  | receive fresh m =>
      simp only [sourceStep] at hstep
      split at hstep
      · rename_i hfresh
        unfold Source.receiveMessage at hstep
        split at hstep
        · exact ⟨l, Option.some.inj hstep ▸ h.marks _ _⟩
        · split at hstep
          · exact ⟨l, Option.some.inj hstep ▸ h.marks _ _⟩
          · obtain ⟨s₁, happend, hholds, -⟩ := append_holds h hfresh m
            exact ⟨_, Option.some.inj (happend.symm.trans hstep) ▸ hholds⟩
      · cases hstep
  | recv fuel count tag =>
      obtain ⟨⟨turn, s₁⟩, hrecv, rfl⟩ := Option.map_eq_some_iff.mp hstep
      rcases recv_cases h hrecv with ⟨-, -, rfl⟩ |
        ⟨-, before, a, m, after, -, -, -, -, hholds, -⟩ | ⟨-, -, rfl, -⟩
      · exact ⟨l, h.marks _ _⟩
      · exact ⟨_, hholds⟩
      · exact ⟨l, h⟩

end Steps

private theorem holds_of_run {events : List SourceEvent} {s : Source}
    (hrun : run sourceStep .init events = some s) : ∃ l, s.Holds l :=
  run_invariant (I := fun s => ∃ l, s.Holds l)
    (fun _ _ _ ⟨_, h⟩ hstep => sourceStep_holds h hstep) ⟨[], Source.holds_init⟩ hrun

/-! ## The list of the model -/

/-- The cells hold what the rank has in its list for the peer `i`. -/
structure Refines (s : Source) (x : Rank) (i : Nat) : Prop where
  messages : s.messages (x.buffers i)
  finished : s.finished = x.finishedProcesses i
  barrier : s.sendedBarrier = x.sendedBarrier i

def Turn.thread (count source : Nat) (tag : Int) (next : Retcode → Option (List UInt8) → Prog) :
    Turn → Thread
  | success copied => .run (next .success copied)
  | remoteFinished => .run (next .remoteFinished none)
  | waits => .waiting count source tag next

private theorem extract_match {count : Nat} {tag : Int} {before after : List Message} {m : Message}
    (hbefore : ∀ x ∈ before, x.isMatch count tag = false) (hm : m.isMatch count tag = true) :
    extract count tag (before ++ m :: after) = some (m, before ++ after) := by
  induction before with
  | nil => simp [extract, hm]
  | cons x before ih =>
      obtain ⟨hx, hrest⟩ := List.forall_mem_cons.mp hbefore
      simp [extract, hx, ih hrest]

private theorem extract_none {count : Nat} {tag : Int} {ms : List Message}
    (h : ∀ x ∈ ms, x.isMatch count tag = false) : extract count tag ms = none := by
  induction ms with
  | nil => rfl
  | cons x ms ih =>
      obtain ⟨hx, hrest⟩ := List.forall_mem_cons.mp h
      simp [extract, hx, ih hrest]

section Refinement

variable {cfg : Config} {s s' : Source} {x : Rank} {i : Nat}

theorem refines_init (i : Nat) : Refines .init .init i := ⟨⟨[], Source.holds_init, rfl⟩, rfl, rfl⟩

private theorem refines_receive (hoff : cfg.deadlockDetection = false) (h : Refines s x i)
    {fresh : Ptr} (hfresh : s.heap fresh = none) (m : Message) :
    ∃ s', s.receiveMessage fresh m = some s' ∧ Refines s' (x.receiveMessage cfg i m) i := by
  obtain ⟨⟨l, hholds, hmessages⟩, hfinished, hbarrier⟩ := h
  unfold Source.receiveMessage Rank.receiveMessage
  simp only [hoff, Bool.false_eq_true, false_and, if_false]
  split_ifs
  · exact ⟨_, rfl, ⟨l, hholds.marks _ _, hmessages⟩,
      (assign_self _ _ _).symm, hbarrier⟩
  · exact ⟨_, rfl, ⟨l, hholds.marks _ _, hmessages⟩,
      hfinished, (assign_self _ _ _).symm⟩
  · obtain ⟨s', happend, hholds', hfinished', hbarrier'⟩ := append_holds hholds hfresh m
    refine ⟨s', happend, ⟨_, hholds', ?_⟩, hfinished'.trans hfinished, hbarrier'.trans hbarrier⟩
    simp [hmessages]

private theorem refines_recv (hoff : cfg.deadlockDetection = false) (h : Refines s x i)
    {fuel count : Nat}
    {tag : Int} {turn : Turn} (hrecv : s.recv fuel count tag = some (turn, s')) (rank : Nat)
    (next : Retcode → Option (List UInt8) → Prog) :
    (x.test cfg rank count i tag next).1.thread = turn.thread count i tag next ∧
      Refines s' (x.test cfg rank count i tag next).1 i := by
  obtain ⟨⟨l, hholds, hmessages⟩, hfinished, hbarrier⟩ := h
  have hsize : s.buffersSize = 0 ↔ (x.buffers i).length = 0 := by
    rw [hholds.size, ← hmessages, List.length_map, Nat.cast_eq_zero]
  rcases recv_cases hholds hrecv with ⟨hword, rfl, rfl⟩ |
    ⟨hword, before, a, m, after, rfl, hbefore, hm, rfl, hholds', hfinished', hbarrier'⟩ |
    ⟨hword, hnone, rfl, rfl⟩
  · rw [hword] at hbarrier
    unfold Rank.test
    rw [if_pos hbarrier.symm]
    exact ⟨rfl, ⟨l, hholds.marks _ _, hmessages⟩, hfinished, (assign_self _ _ _).symm⟩
  · have hextract : extract count tag (x.buffers i) =
        some (m, before.map Prod.snd ++ after.map Prod.snd) := by
      rw [← hmessages, List.map_append, List.map_cons]
      refine extract_match (fun y hy => ?_) hm
      obtain ⟨c, hc, rfl⟩ := List.mem_map.mp hy
      exact hbefore c hc
    have hunset : ¬ x.sendedBarrier i = true := by rw [← hbarrier, hword]; exact Bool.false_ne_true
    unfold Rank.test
    rw [if_neg hunset, hextract]
    refine ⟨rfl, ⟨_, hholds', ?_⟩, hfinished'.trans hfinished, hbarrier'.trans hbarrier⟩
    simp
  · have hextract : extract count tag (x.buffers i) = none := by
      rw [← hmessages]
      refine extract_none fun y hy => ?_
      obtain ⟨c, hc, rfl⟩ := List.mem_map.mp hy
      exact hnone c hc
    have hunset : ¬ x.sendedBarrier i = true := by rw [← hbarrier, hword]; exact Bool.false_ne_true
    unfold Rank.test
    rw [if_neg hunset, hextract]
    simp only [hoff, Bool.false_eq_true, false_and, if_false, hfinished, hsize]
    split
    · exact ⟨rfl, ⟨l, hholds, hmessages⟩, hfinished, hbarrier⟩
    · exact ⟨rfl, ⟨l, hholds, hmessages⟩, hfinished, hbarrier⟩

/-- The same event in the model with whole lists. -/
def rankAfter (cfg : Config) (i : Nat) (x : Rank) : SourceEvent → Rank
  | .receive _ m => x.receiveMessage cfg i m
  | .recv _ count tag =>
      (x.test cfg 0 count i tag fun code copied => .ret code (copied.getD [])).1

theorem refines_run (hoff : cfg.deadlockDetection = false) {events : List SourceEvent}
    (h : Refines s x i) (hrun : run sourceStep s events = some s') :
    Refines s' (events.foldl (rankAfter cfg i) x) i := by
  induction events generalizing s x with
  | nil => exact Option.some.inj hrun ▸ h
  | cons event events ih =>
      obtain ⟨s₁, hstep, hrest⟩ := run_cons.mp hrun
      refine ih ?_ hrest
      cases event with
      | receive fresh m =>
          simp only [sourceStep] at hstep
          split at hstep
          · rename_i hfresh
            obtain ⟨s₂, hreceive, hrefines⟩ := refines_receive hoff h hfresh m
            obtain rfl := Option.some.inj (hreceive.symm.trans hstep)
            exact hrefines
          · cases hstep
      | recv fuel count tag =>
          obtain ⟨⟨turn, s₂⟩, hrecv, rfl⟩ := Option.map_eq_some_iff.mp hstep
          exact (refines_recv hoff h hrecv 0 _).2

end Refinement

/-! ## The earliest match -/

def Wanted (count : Nat) (tag : Int) (m : Message) : Prop :=
  m.data.length = count ∧ (m.tag = tag ∨ tag = 0 ∧ 0 ≤ m.tag)

/-- From `s` to `s'` the earliest message asked for is copied and removed, and the
others are kept in order. -/
def TakesEarliest (s : Source) (count : Nat) (tag : Int) (copied : Option (List UInt8))
    (s' : Source) : Prop :=
  ∃ before m after, s.messages (before ++ m :: after) ∧ (∀ x ∈ before, ¬ Wanted count tag x) ∧
    Wanted count tag m ∧ copied = some m.data ∧ s'.messages (before ++ after)

private theorem isMatch_iff (count : Nat) (tag : Int) (m : Message) :
    m.isMatch count tag = true ↔ Wanted count tag m := by
  simp only [Message.isMatch, decide_eq_true_eq, Wanted]
  tauto

/-- After any messages and receives, a receive that succeeds takes the earliest message it
asks for exactly where no word of a barrier is kept when its last turn begins. -/
theorem takes_earliest_iff {events : List SourceEvent} {s s' : Source}
    (hrun : run sourceStep .init events = some s) {fuel count : Nat} {tag : Int}
    {copied : Option (List UInt8)} (hrecv : s.recv fuel count tag = some (.success copied, s')) :
    TakesEarliest s count tag copied s' ↔ s.sendedBarrier = false := by
  obtain ⟨l, hholds⟩ := holds_of_run hrun
  rcases recv_cases hholds hrecv with ⟨hbarrier, hturn, -⟩ |
    ⟨hbarrier, before, a, m, after, rfl, hbefore, hm, hturn, hholds', -⟩ | ⟨-, -, -, hturn⟩
  · obtain rfl := Turn.success.inj hturn
    simp [TakesEarliest, hbarrier]
  · refine iff_of_true ?_ hbarrier
    refine ⟨before.map Prod.snd, m, after.map Prod.snd, ⟨_, hholds, by simp⟩, ?_,
      (isMatch_iff _ _ _).mp hm, Turn.success.inj hturn, ⟨_, hholds', by simp⟩⟩
    intro x hx hwanted
    obtain ⟨c, hc, rfl⟩ := List.mem_map.mp hx
    have hfalse := hbefore c hc
    rw [(isMatch_iff _ _ _).mpr hwanted] at hfalse
    cases hfalse
  · split at hturn <;> cases hturn

def barrierWord : List SourceEvent := [.receive 0 ⟨3, [7]⟩, .receive 1 ⟨barrierTag, []⟩]

private theorem succeeds_barrierWord :
    ∃ s ∈ run sourceStep .init barrierWord, s.sendedBarrier = true ∧
    ∃ r ∈ s.recv 2 1 0, r.1 = .success none := by
  decide +kernel

theorem takes_earliest_barrierWord : ∃ s s', run sourceStep .init barrierWord = some s ∧
    s.recv 2 1 0 = some (.success none, s') ∧ ¬ TakesEarliest s 1 0 none s' := by
  obtain ⟨s, hrun, hbarrier, ⟨turn, s'⟩, hrecv, rfl⟩ := succeeds_barrierWord
  refine ⟨s, s', hrun, hrecv, fun h => ?_⟩
  have hnone := (takes_earliest_iff hrun hrecv).mp h
  rw [hbarrier] at hnone
  cases hnone

theorem takes_nothing : ¬ ∀ (events : List SourceEvent) (s s' : Source),
    run sourceStep .init events = some s → ∀ fuel count tag, 0 ≤ tag →
      ∀ copied, s.recv fuel count tag = some (.success copied, s') →
        TakesEarliest s count tag copied s' := by
  intro h
  obtain ⟨s, hrun, hbarrier, ⟨turn, s'⟩, hrecv, rfl⟩ := succeeds_barrierWord
  obtain ⟨-, m, -, -, -, -, hcopied, -⟩ := h barrierWord s s' hrun 2 1 0 (by decide) none hrecv
  cases hcopied

end Mimuw.Mimpi
