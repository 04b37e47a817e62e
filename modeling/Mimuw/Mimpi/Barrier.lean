import Mimuw.Lib.HeapTree
import Mimuw.Mimpi.Steps

/-!
# The barrier

A barrier has seven points, the last one its return.  With `b` barriers behind
it, a rank at the point `p` has sent and received a known number of barrier
messages over each edge of the tree, and on every edge the messages received,
in flight and noted in `sended_barrier` add up to the messages sent.  The order
of the points bounds the messages pending on an edge by one, so a flag is enough
to note them.
-/

namespace Mimuw.Mimpi

open Mimuw.Lib

/-! ## The points of a barrier -/

/-- What is left of the barrier at the point `p`. -/
def stage (n r : Nat) : Nat → Prog
  | 0 => barrier n r
  | 1 => barrierAwaitRight n r
  | 2 => barrierNotifyParent n r
  | 3 => barrierAwaitParent n r
  | 4 => barrierNotify n r
  | 5 => barrierNotifyRight n r
  | _ => .ret .success []

/-- The peer a rank deals with at the point `p`. -/
def peerAt (r : Nat) : Nat → Nat
  | 0 | 4 => 2 * r + 1
  | 1 | 5 => 2 * r + 2
  | _ => (r - 1) / 2

/-- The rank has something to do at the point `p`. -/
def Own (n r p : Nat) : Prop :=
  p = 0 ∧ 2 * r + 1 < n ∨ p = 1 ∧ 2 * r + 2 < n ∨ p = 2 ∧ r ≠ 0 ∨ p = 3 ∧ r ≠ 0 ∨
    p = 4 ∧ 2 * r + 1 < n ∨ p = 5 ∧ 2 * r + 2 < n ∨ p = 6

/-- The barrier messages sent to a peer, `b` barriers and `p` points on. -/
def sent (r b p peer : Nat) : Nat :=
  if peer = 2 * r + 1 then b + if 4 < p then 1 else 0
  else if peer = 2 * r + 2 then b + if 5 < p then 1 else 0
  else if r ≠ 0 ∧ peer = (r - 1) / 2 then b + if 2 < p then 1 else 0
  else 0

def received (r b p peer : Nat) : Nat :=
  if peer = 2 * r + 1 then b + if 0 < p then 1 else 0
  else if peer = 2 * r + 2 then b + if 1 < p then 1 else 0
  else if r ≠ 0 ∧ peer = (r - 1) / 2 then b + if 3 < p then 1 else 0
  else 0

section Points

variable {n r b p : Nat}

private theorem stage_recv (hown : Own n r p) (hp : p = 0 ∨ p = 1 ∨ p = 3) :
    stage n r p =
      .recvFrom 0 (peerAt r p) barrierTag [] fun _ => stage n r (p + 1) := by
  rcases hp with rfl | rfl | rfl
  · have hchild : 2 * r + 1 < n := by simpa [Own] using hown
    simp [stage, barrier, hchild, peerAt]
  · have hchild : 2 * r + 2 < n := by simpa [Own] using hown
    simp [stage, barrierAwaitRight, hchild, peerAt]
  · rfl

private theorem stage_send (hown : Own n r p) (hp : p = 2 ∨ p = 4 ∨ p = 5) :
    stage n r p = .sendTo [] (peerAt r p) barrierTag (stage n r (p + 1)) := by
  rcases hp with rfl | rfl | rfl
  · have hroot : r ≠ 0 := by simpa [Own] using hown
    simp [stage, barrierNotifyParent, hroot, peerAt]
  · have hchild : 2 * r + 1 < n := by simpa [Own] using hown
    simp [stage, barrierNotify, hchild, peerAt]
  · have hchild : 2 * r + 2 < n := by simpa [Own] using hown
    simp [stage, barrierNotifyRight, hchild, peerAt]

private theorem peerAt_spec (hown : Own n r p) (hp : p < 6) (hr : r < n) :
    peerAt r p < n ∧ peerAt r p ≠ r := by
  rcases hown with ⟨rfl, h⟩ | ⟨rfl, h⟩ | ⟨rfl, h⟩ | ⟨rfl, h⟩ | ⟨rfl, h⟩ | ⟨rfl, h⟩ | rfl <;>
    simp only [peerAt] <;> omega

/-- The two points leave the same to do, with the same messages so far. -/
def SamePoint (n r q p : Nat) : Prop :=
  stage n r q = stage n r p ∧
    ∀ b peer, peer < n → sent r b q peer = sent r b p peer ∧
      received r b q peer = received r b p peer

/-- A rank that has come to `p` has something to do at some point `q`. -/
def Settles (n r p : Nat) : Prop := ∃ q, Own n r q ∧ SamePoint n r q p

private theorem settles_own (h : Own n r p) : Settles n r p :=
  ⟨p, h, rfl, fun _ _ _ => ⟨rfl, rfl⟩⟩

private theorem SamePoint.settles {q : Nat} (h : SamePoint n r q p) (hq : Settles n r q) :
    Settles n r p := by
  obtain ⟨q', hown, hstage, hcount⟩ := hq
  refine ⟨q', hown, hstage.trans h.1, fun b peer hpeer => ?_⟩
  obtain ⟨hsent, hreceived⟩ := hcount b peer hpeer
  obtain ⟨hsent', hreceived'⟩ := h.2 b peer hpeer
  exact ⟨hsent.trans hsent', hreceived.trans hreceived'⟩

private theorem settles_five : Settles n r 5 := by
  by_cases hchild : 2 * r + 2 < n
  · exact settles_own (by simp [Own, hchild])
  · refine SamePoint.settles ⟨?_, ?_⟩ (settles_own (n := n) (r := r) (p := 6) (by simp [Own]))
    · simp [stage, barrierNotifyRight, hchild]
    · intro b peer hpeer
      have hne : peer ≠ 2 * r + 2 := by omega
      simp [sent, received, hne]

private theorem settles_four : Settles n r 4 := by
  by_cases hchild : 2 * r + 1 < n
  · exact settles_own (by simp [Own, hchild])
  · refine SamePoint.settles ⟨?_, ?_⟩ settles_five
    · simp [stage, barrierNotify, hchild]
    · intro b peer hpeer
      have hne : peer ≠ 2 * r + 1 := by omega
      simp [sent, received, hne]

private theorem settles_two : Settles n r 2 := by
  by_cases hroot : r ≠ 0
  · exact settles_own (by simp [Own, hroot])
  · refine SamePoint.settles ⟨?_, ?_⟩ settles_four
    · simp [stage, barrierNotifyParent, hroot]
    · intro b peer hpeer
      simp [sent, received, hroot]

private theorem settles_one : Settles n r 1 := by
  by_cases hchild : 2 * r + 2 < n
  · exact settles_own (by simp [Own, hchild])
  · refine SamePoint.settles ⟨?_, ?_⟩ settles_two
    · simp [stage, barrierAwaitRight, hchild]
    · intro b peer hpeer
      have hne : peer ≠ 2 * r + 2 := by omega
      simp [sent, received, hne]

private theorem settles_zero : Settles n r 0 := by
  by_cases hchild : 2 * r + 1 < n
  · exact settles_own (by simp [Own, hchild])
  · refine SamePoint.settles ⟨?_, ?_⟩ settles_one
    · simp [stage, barrier, hchild]
    · intro b peer hpeer
      have hne : peer ≠ 2 * r + 1 := by omega
      simp [sent, received, hne]

/-- After its point `p` a rank comes to a point again. -/
private theorem settles_next (hown : Own n r p) (hp : p < 6) : Settles n r (p + 1) := by
  rcases hown with ⟨rfl, h⟩ | ⟨rfl, h⟩ | ⟨rfl, h⟩ | ⟨rfl, h⟩ | ⟨rfl, h⟩ | ⟨rfl, h⟩ | rfl
  · exact settles_one
  · exact settles_two
  · exact settles_own (by simp [Own, h])
  · exact settles_four
  · exact settles_five
  · exact settles_own (by simp [Own])
  · omega

/-! ## How the counts move -/

private theorem sent_succ_of_send (hown : Own n r p) (hp : p = 2 ∨ p = 4 ∨ p = 5) (peer : Nat) :
    sent r b (p + 1) peer = sent r b p peer + if peer = peerAt r p then 1 else 0 := by
  rcases hp with rfl | rfl | rfl <;> simp only [Own, sent, peerAt] at hown ⊢ <;>
    split_ifs <;> omega

private theorem sent_succ_of_recv (hp : p = 0 ∨ p = 1 ∨ p = 3) (peer : Nat) :
    sent r b (p + 1) peer = sent r b p peer := by
  rcases hp with rfl | rfl | rfl <;> simp [sent]

private theorem received_succ_of_recv (hown : Own n r p) (hp : p = 0 ∨ p = 1 ∨ p = 3) (peer : Nat) :
    received r b (p + 1) peer =
      received r b p peer + if peer = peerAt r p then 1 else 0 := by
  rcases hp with rfl | rfl | rfl <;> simp only [Own, received, peerAt] at hown ⊢ <;>
    split_ifs <;> omega

private theorem received_succ_of_send (hp : p = 2 ∨ p = 4 ∨ p = 5) (peer : Nat) :
    received r b (p + 1) peer = received r b p peer := by
  rcases hp with rfl | rfl | rfl <;> simp [received]

private theorem sent_return (peer : Nat) : sent r (b + 1) 0 peer = sent r b 6 peer := by
  simp [sent]

private theorem received_return (peer : Nat) : received r (b + 1) 0 peer = received r b 6 peer := by
  simp [received]

end Points

section Edge

variable {i b p : Nat}

private theorem received_parent (hi : 0 < i) :
    received i b p ((i - 1) / 2) = b + if 3 < p then 1 else 0 := by
  have hlt := heap_parent_lt hi
  rw [received, if_neg (by omega), if_neg (by omega), if_pos ⟨by omega, rfl⟩]

private theorem sent_parent (hi : 0 < i) :
    sent i b p ((i - 1) / 2) = b + if 2 < p then 1 else 0 := by
  have hlt := heap_parent_lt hi
  rw [sent, if_neg (by omega), if_neg (by omega), if_pos ⟨by omega, rfl⟩]

/-- A rank tells its children after it has heard from its parent. -/
private theorem sent_child (hi : 0 < i) :
    sent ((i - 1) / 2) b p i ≤ b + if 3 < p then 1 else 0 := by
  rw [sent]
  rcases heap_child hi with hchild | hchild
  · rw [if_pos hchild]
    split_ifs <;> omega
  · rw [if_neg (by omega), if_pos hchild]
    split_ifs <;> omega

/-- A rank tells its parent after it has heard from its children. -/
private theorem received_child (hi : 0 < i) :
    b + (if 2 < p then 1 else 0) ≤ received ((i - 1) / 2) b p i := by
  rcases heap_child hi with hchild | hchild
  · have hleft : received ((i - 1) / 2) b p i = b + if 0 < p then 1 else 0 := by
      rw [received, if_pos hchild]
    rw [hleft]
    split_ifs <;> omega
  · have hright : received ((i - 1) / 2) b p i = b + if 1 < p then 1 else 0 := by
      rw [received, if_neg (by omega), if_pos hchild]
    rw [hright]
    split_ifs <;> omega

end Edge

/-- Over every edge at most one barrier message is pending, whatever the order
of the steps: each direction waits for the other. -/
private theorem sent_le {s d b c p q : Nat}
    (hto : received d c q s ≤ sent s b p d)
    (hfrom : received s b p d ≤ sent d c q s) :
    sent s b p d ≤ received d c q s + 1 := by
  by_cases hdown : 0 < d ∧ s = (d - 1) / 2
  · obtain ⟨hd, rfl⟩ := hdown
    have hchild := sent_child (b := b) (p := p) hd
    have hheard := received_child (b := b) (p := p) hd
    rw [sent_parent hd] at hfrom
    rw [received_parent hd]
    split_ifs at * <;> omega
  by_cases hup : 0 < s ∧ d = (s - 1) / 2
  · obtain ⟨hs, rfl⟩ := hup
    have hchild := sent_child (b := c) (p := q) hs
    have hheard := received_child (b := c) (p := q) hs
    rw [received_parent hs] at hfrom
    rw [sent_parent hs]
    split_ifs at * <;> omega
  · have hnone : sent s b p d = 0 := by
      rw [sent, if_neg (by omega), if_neg (by omega), if_neg (by omega)]
    omega

/-! ## One rank -/

/-- The peer whose variables the main thread is about to test. -/
def Thread.testing : Thread → Option Nat
  | .locked _ source _ _ | .waiting _ source _ _ => some source
  | _ => none

/-- With no message to take, the receive from `source` detects a deadlock. -/
def Detects (cfg : Config) (rank : Nat) (x : Rank) (source : Nat) : Prop :=
  x.sendedBarrier source = false ∧ cfg.deadlockDetection = true ∧
    (x.processWaitingForMe source = true ∧ rank > source ∨
      x.deadlock source = true ∧ rank < source)

instance {cfg : Config} {rank source : Nat} {x : Rank} :
    Decidable (Detects cfg rank x source) :=
  inferInstanceAs (Decidable (_ ∧ _ ∧ _))

def flagCount (x : Rank) (peer : Nat) : Nat := if x.sendedBarrier peer then 1 else 0

def barrierCount (messages : List Message) : Nat :=
  messages.countP fun m => m.tag = barrierTag

/-- The messages of a world that only synchronises. -/
def IsControl (cfg : Config) (m : Message) : Prop :=
  m.tag = barrierTag ∨
    cfg.deadlockDetection = true ∧
      (m.tag = deadlockTag ∨ m.tag = waitingTag ∨ m.tag = notWaitingTag)

/-- What follows a receive of the barrier. -/
def awaitNext (n r p : Nat) (code : Retcode) (_ : Option (List UInt8)) : Prog :=
  if code = .remoteFinished then .ret code [] else stage n r (p + 1)

inductive Place (n r : Nat) (x : Rank) (b p : Nat) : Prop where
  | idle (hthread : x.thread = .idle) (hissued : x.issued.length = b) (hp : p = 0)
  | run (hown : Own n r p) (hthread : x.thread = .run (stage n r p))
      (hissued : x.issued.length = b + 1)
  | locked (hown : Own n r p) (hp : p = 0 ∨ p = 1 ∨ p = 3)
      (hthread : x.thread = .locked 0 (peerAt r p) barrierTag (awaitNext n r p))
      (hissued : x.issued.length = b + 1)
  | waiting (hown : Own n r p) (hp : p = 0 ∨ p = 1 ∨ p = 3)
      (hthread : x.thread = .waiting 0 (peerAt r p) barrierTag (awaitNext n r p))
      (hissued : x.issued.length = b + 1)

/-- A rank with `b` barriers behind it at the point `p` of the next. -/
structure Synchronising (n r : Nat) (x : Rank) (b p : Nat) : Prop where
  results : x.results.length = b
  buffers : ∀ s, x.buffers s = []
  unfinished : ∀ s, x.finishedProcesses s = false
  place : Place n r x b p

/-- A step of one rank, with what it does to the counts of each edge. -/
structure Moves (cfg : Config) (r : Nat) (x : Rank) (b p : Nat) (y : Rank) (out : Outbox)
    (b' p' : Nat) : Prop where
  after : Synchronising cfg.worldSize r y b' p'
  sent : ∀ peer, peer < cfg.worldSize →
    sent r b' p' peer = sent r b p peer + barrierCount (out.to peer)
  received : ∀ peer, peer < cfg.worldSize →
    received r b' p' peer + flagCount y peer = received r b p peer + flagCount x peer
  control : ∀ peer, ∀ m ∈ out.to peer, IsControl cfg m

section Local

variable {cfg : Config} {r b p : Nat} {x y : Rank} {out : Outbox}

private theorem moves_stay (hafter : Synchronising cfg.worldSize r y b p)
    (hflags : y.sendedBarrier = x.sendedBarrier) :
    Moves cfg r x b p y [] b p :=
  ⟨hafter, by simp [barrierCount], by simp [flagCount, hflags], by simp⟩

theorem Synchronising.next (h : Synchronising cfg.worldSize r x b p)
    (hown : Own cfg.worldSize r p) (hp : p < 6) (hissued : x.issued.length = b + 1)
    (hbuffers : y.buffers = x.buffers) (hfinished : y.finishedProcesses = x.finishedProcesses)
    (hresults : y.results = x.results) (hsame : y.issued = x.issued)
    (hthread : y.thread = .run (stage cfg.worldSize r (p + 1))) :
    ∃ q, Synchronising cfg.worldSize r y b q ∧
      ∀ peer, peer < cfg.worldSize →
        Mimpi.sent r b q peer = Mimpi.sent r b (p + 1) peer ∧
          Mimpi.received r b q peer = Mimpi.received r b (p + 1) peer := by
  obtain ⟨q, hq, hstage, hcounts⟩ := settles_next hown hp
  refine ⟨q, ⟨hresults ▸ h.results, ?_, ?_, ?_⟩, hcounts b⟩
  · rw [hbuffers]
    exact h.buffers
  · rw [hfinished]
    exact h.unfinished
  · exact .run hq (hthread.trans (by rw [hstage])) (hsame ▸ hissued)

private theorem step_send (h : Synchronising cfg.worldSize r x b p) (hr : r < cfg.worldSize)
    (hown : Own cfg.worldSize r p) (hp : p = 2 ∨ p = 4 ∨ p = 5)
    (hthread : x.thread = .run (stage cfg.worldSize r p)) (hissued : x.issued.length = b + 1)
    (hstep : x.step cfg r = some (y, out)) :
    ∃ b' p', Moves cfg r x b p y out b' p' := by
  obtain ⟨hpeer, hne⟩ := peerAt_spec hown (by omega) hr
  have hself : ¬ ((r : Int) = (peerAt r p : Int) ∧ barrierTag ≠ finishedTag) := by omega
  have hrange : ¬ ((peerAt r p : Int) < 0 ∨ (peerAt r p : Int) ≥ cfg.worldSize) := by omega
  rw [stage_send hown hp] at hthread
  simp only [Rank.step, hthread, Prog.sendTo, Rank.send, if_neg hself, if_neg hrange,
    h.unfinished, Int.toNat_natCast, Bool.false_eq_true, if_false, Option.some.injEq,
    Prod.mk.injEq] at hstep
  obtain ⟨rfl, rfl⟩ := hstep
  obtain ⟨q, hafter, hcounts⟩ :=
    h.next (y := { x with thread := .run (stage cfg.worldSize r (p + 1)) }) hown (by omega)
      hissued rfl rfl rfl rfl rfl
  refine ⟨b, q, hafter, ?_, ?_, ?_⟩
  · intro peer hpeer'
    rw [(hcounts peer hpeer').1, sent_succ_of_send hown hp]
    by_cases heq : peer = peerAt r p
    · simp [heq, barrierCount]
    · simp [heq, Ne.symm heq, barrierCount]
  · intro peer hpeer'
    rw [(hcounts peer hpeer').2, received_succ_of_send hp]
    rfl
  · intro peer m hm
    by_cases heq : peerAt r p = peer <;> simp [heq] at hm
    exact .inl (by rw [hm])

private theorem control_barrierCount {peer : Nat} {tag : Int} (htag : tag ≠ barrierTag)
    (destination : Nat) :
    barrierCount (Outbox.to (x.control cfg r peer tag) destination) = 0 := by
  apply List.countP_eq_zero.mpr
  intro m hm
  rw [control_to hm]
  simpa using htag

private theorem control_isControl {peer : Nat} {tag : Int}
    (htag : IsControl cfg ⟨tag, []⟩) (destination : Nat) :
    ∀ m ∈ Outbox.to (x.control cfg r peer tag) destination, IsControl cfg m := by
  intro m hm
  rw [control_to hm]
  exact htag

private theorem step_recv (h : Synchronising cfg.worldSize r x b p) (hr : r < cfg.worldSize)
    (hown : Own cfg.worldSize r p) (hp : p = 0 ∨ p = 1 ∨ p = 3)
    (hthread : x.thread = .run (stage cfg.worldSize r p)) (hissued : x.issued.length = b + 1)
    (hstep : x.step cfg r = some (y, out)) :
    ∃ b' p', Moves cfg r x b p y out b' p' := by
  obtain ⟨hpeer, hne⟩ := peerAt_spec hown (by omega) hr
  have hself : ¬ (r : Int) = (peerAt r p : Int) := by omega
  have hrange : ¬ ((peerAt r p : Int) < 0 ∨ (peerAt r p : Int) ≥ cfg.worldSize) := by omega
  rw [stage_recv hown hp] at hthread
  simp only [Rank.step, hthread, Prog.recvFrom, if_neg hself, if_neg hrange,
    Int.toNat_natCast, Option.some.injEq, Prod.mk.injEq] at hstep
  obtain ⟨rfl, rfl⟩ := hstep
  refine ⟨b, p, ⟨h.results, h.buffers, h.unfinished, .locked hown hp rfl hissued⟩, ?_, ?_, ?_⟩
  · intro peer hpeer'
    split_ifs
    · rw [control_barrierCount (by decide)]
      rfl
    · rfl
  · intro peer hpeer'
    rfl
  · intro peer
    split_ifs with hdetection
    · refine control_isControl (.inr ⟨hdetection.1, .inr (.inl rfl)⟩) peer
    · simp

/-- A test that detects nothing takes the barrier message if it is there, and
waits if it is not. -/
private theorem step_test (h : Synchronising cfg.worldSize r x b p)
    (hown : Own cfg.worldSize r p) (hp : p = 0 ∨ p = 1 ∨ p = 3)
    (hissued : x.issued.length = b + 1)
    (hnot : ¬ Detects cfg r x (peerAt r p))
    (hstep : x.test cfg r 0 (peerAt r p) barrierTag (awaitNext cfg.worldSize r p) = (y, out)) :
    ∃ b' p', Moves cfg r x b p y out b' p' := by
  by_cases hflag : x.sendedBarrier (peerAt r p)
  · simp only [Rank.test, hflag, if_true, Prod.mk.injEq] at hstep
    obtain ⟨rfl, rfl⟩ := hstep
    obtain ⟨q, hafter, hcounts⟩ := h.next
      (y := { x with
        sendedBarrier := assign x.sendedBarrier (peerAt r p) false
        thread := .run (awaitNext cfg.worldSize r p .success none) })
      hown (by omega) hissued rfl rfl rfl rfl rfl
    refine ⟨b, q, hafter, ?_, ?_, by simp⟩
    · intro peer hpeer
      rw [(hcounts peer hpeer).1, sent_succ_of_recv hp]
      rfl
    · intro peer hpeer
      rw [(hcounts peer hpeer).2, received_succ_of_recv hown hp]
      by_cases heq : peer = peerAt r p
      · simp [heq, flagCount, hflag]
      · simp [heq, flagCount, assign_ne]
  · have hwaiting : ¬ (cfg.deadlockDetection = true ∧
        x.processWaitingForMe (peerAt r p) = true ∧ r > peerAt r p) :=
      fun ⟨hdetection, hdetects⟩ => hnot ⟨by simpa using hflag, hdetection, .inl hdetects⟩
    have hdeadlock : ¬ (cfg.deadlockDetection = true ∧
        x.deadlock (peerAt r p) = true ∧ r < peerAt r p) :=
      fun ⟨hdetection, hdetects⟩ => hnot ⟨by simpa using hflag, hdetection, .inr hdetects⟩
    simp only [Rank.test, hflag, Bool.false_eq_true, if_false, h.buffers, extract, hwaiting,
      hdeadlock, h.unfinished, false_and, Prod.mk.injEq] at hstep
    obtain ⟨rfl, rfl⟩ := hstep
    refine ⟨b, p, moves_stay ?_ rfl⟩
    exact ⟨h.results, h.buffers, h.unfinished, .waiting hown hp rfl hissued⟩

private theorem step_return (h : Synchronising cfg.worldSize r x b 6)
    (hthread : x.thread = .run (stage cfg.worldSize r 6)) (hissued : x.issued.length = b + 1)
    (hstep : x.step cfg r = some (y, out)) :
    ∃ b' p', Moves cfg r x b 6 y out b' p' := by
  simp only [Rank.step, hthread, stage, Option.some.injEq, Prod.mk.injEq] at hstep
  obtain ⟨rfl, rfl⟩ := hstep
  refine ⟨b + 1, 0, ⟨by simp [h.results], h.buffers, h.unfinished, .idle rfl hissued rfl⟩, ?_, ?_,
    by simp⟩
  · intro peer _
    rw [sent_return]
    rfl
  · intro peer _
    rw [received_return]
    rfl

theorem Synchronising.step (h : Synchronising cfg.worldSize r x b p) (hr : r < cfg.worldSize)
    (hnot : ∀ s ∈ x.thread.testing, ¬ Detects cfg r x s)
    (hstep : x.step cfg r = some (y, out)) :
    ∃ b' p', Moves cfg r x b p y out b' p' := by
  cases h.place with
  | idle hthread hissued hp => simp [Rank.step, hthread] at hstep
  | run hown hthread hissued =>
      rcases hown with hp | hp | hp | hp | hp | hp | hp
      · exact step_recv h hr (.inl hp) (.inl hp.1) hthread hissued hstep
      · exact step_recv h hr (.inr (.inl hp)) (.inr (.inl hp.1)) hthread hissued hstep
      · exact step_send h hr (by simp [Own, hp]) (.inl hp.1) hthread hissued hstep
      · exact step_recv h hr (by simp [Own, hp]) (.inr (.inr hp.1)) hthread hissued hstep
      · exact step_send h hr (by simp [Own, hp]) (.inr (.inl hp.1)) hthread hissued hstep
      · exact step_send h hr (by simp [Own, hp]) (.inr (.inr hp.1)) hthread hissued hstep
      · subst hp
        exact step_return h hthread hissued hstep
  | locked hown hp hthread hissued =>
      simp only [Rank.step, hthread, Option.some.injEq] at hstep
      exact step_test h hown hp hissued (hnot _ (by rw [hthread]; rfl)) hstep
  | waiting hown hp hthread hissued =>
      simp only [Rank.step, hthread, Option.some.injEq] at hstep
      exact step_test h hown hp hissued (hnot _ (by rw [hthread]; rfl)) hstep

theorem Synchronising.call (h : Synchronising cfg.worldSize r x b p)
    (hidle : x.thread = .idle) :
    ∃ b' p', Moves cfg r x b p (x.call cfg r .barrier) [] b' p' := by
  cases h.place with
  | idle hthread hissued hp =>
      subst hp
      obtain ⟨q, hq, hstage, hcounts⟩ := settles_zero (n := cfg.worldSize) (r := r)
      refine ⟨b, q, ⟨h.results, h.buffers, h.unfinished, .run hq ?_ ?_⟩, ?_, ?_, by simp⟩
      · simp only [Rank.call, program, hstage]
        rfl
      · simp [Rank.call, hissued]
      · intro peer hpeer
        rw [(hcounts b peer hpeer).1]
        rfl
      · intro peer hpeer
        rw [(hcounts b peer hpeer).2]
        rfl
  | run hown hthread hissued => simp [hthread] at hidle
  | locked hown hp hthread hissued => simp [hthread] at hidle
  | waiting hown hp hthread hissued => simp [hthread] at hidle

end Local

/-! ## All ranks -/

/-- The counts of a rank, with the barriers it has behind it. -/
def World.sentBy (w : World) (p : Nat → Nat) (r peer : Nat) : Nat :=
  sent r (w.ranks r).results.length (p r) peer

def World.receivedBy (w : World) (p : Nat → Nat) (r peer : Nat) : Nat :=
  received r (w.ranks r).results.length (p r) peer

/-- The balance of every edge. -/
structure Balanced (cfg : Config) (w : World) (p : Nat → Nat) : Prop where
  ranks : ∀ r, r < cfg.worldSize →
    Synchronising cfg.worldSize r (w.ranks r) (w.ranks r).results.length (p r)
  control : ∀ s d, ∀ m ∈ w.channel s d, IsControl cfg m
  edges : ∀ s d, s < cfg.worldSize → d < cfg.worldSize → s ≠ d →
    w.receivedBy p d s + barrierCount (w.channel s d) + flagCount (w.ranks d) s =
      w.sentBy p s d

section Network

variable {cfg : Config} {w : World} {p : Nat → Nat}

private theorem balanced_init (cfg : Config) : Balanced cfg .init fun _ => 0 where
  ranks r _ := ⟨rfl, fun _ => rfl, fun _ => rfl, .idle rfl rfl rfl⟩
  control := by simp [World.init]
  edges s d _ _ _ := by
    simp [World.receivedBy, World.sentBy, World.init, Rank.init, received, sent, barrierCount,
      flagCount]

theorem Balanced.post (h : Balanced cfg w p) {r b' q : Nat} {y : Rank} {out : Outbox}
    (hr : r < cfg.worldSize)
    (hmoves : Moves cfg r (w.ranks r) (w.ranks r).results.length (p r) y out b' q) :
    Balanced cfg (w.post r y out) (assign p r q) := by
  have hb : y.results.length = b' := hmoves.after.results
  subst hb
  constructor
  · intro r' hr'
    by_cases heq : r' = r
    · subst heq
      simpa using hmoves.after
    · simpa [post_ranks_ne, assign_ne, heq] using h.ranks r' hr'
  · intro s d m hm
    rw [post_channel] at hm
    split_ifs at hm
    · rcases List.mem_append.mp hm with hm | hm
      · exact h.control s d m hm
      · exact hmoves.control d m hm
    · exact h.control s d m hm
  · intro s d hs hd hne
    have hedge := h.edges s d hs hd hne
    simp only [World.receivedBy, World.sentBy] at hedge ⊢
    by_cases hsource : s = r
    · subst hsource
      have hsent := hmoves.sent d hd
      simp only [post_ranks_self, assign_self, post_ranks_ne _ _ _ _ (Ne.symm hne),
        assign_ne _ _ _ _ (Ne.symm hne), post_channel, if_true]
      rw [barrierCount, List.countP_append]
      simp only [barrierCount] at hedge hsent
      omega
    · by_cases hdest : d = r
      · subst hdest
        have hreceived := hmoves.received s hs
        simp only [post_ranks_self, assign_self, post_ranks_ne _ _ _ _ hsource,
          assign_ne _ _ _ _ hsource, post_channel, if_neg hsource]
        omega
      · simpa [post_ranks_ne, assign_ne, hsource, hdest] using hedge

/-- A barrier message on its way finds its flag cleared. -/
private theorem Balanced.flag_free (h : Balanced cfg w p) {s d : Nat} (hs : s < cfg.worldSize)
    (hd : d < cfg.worldSize) (hne : s ≠ d) (hpos : 0 < barrierCount (w.channel s d)) :
    flagCount (w.ranks d) s = 0 := by
  have hto := h.edges s d hs hd hne
  have hfrom := h.edges d s hd hs (Ne.symm hne)
  have hle := sent_le (s := s) (d := d) (b := (w.ranks s).results.length)
    (c := (w.ranks d).results.length) (p := p s) (q := p d)
  simp only [World.receivedBy, World.sentBy] at hto hfrom
  have := hle (by omega) (by omega)
  omega

private theorem receiveMessage_control {x : Rank} {i : Nat} {m : Message} (hm : IsControl cfg m) :
    (x.receiveMessage cfg i m).buffers = x.buffers ∧
      (x.receiveMessage cfg i m).finishedProcesses = x.finishedProcesses ∧
      (x.receiveMessage cfg i m).sendedBarrier =
        if m.tag = barrierTag then assign x.sendedBarrier i true else x.sendedBarrier := by
  rcases hm with htag | ⟨hdetection, htag | htag | htag⟩ <;>
    simp [Rank.receiveMessage, barrierTag, deadlockTag, waitingTag, notWaitingTag, finishedTag,
      *]

private theorem receiveMessage_sync {r b q i : Nat} {x : Rank} {m : Message}
    (h : Synchronising cfg.worldSize r x b q) (hm : IsControl cfg m) :
    Synchronising cfg.worldSize r ((x.receiveMessage cfg i m).endTurn i) b q := by
  obtain ⟨hbuffers, hfinished, -⟩ := receiveMessage_control (x := x) (i := i) hm
  have hthread := receiveMessage_thread cfg x i m
  have hissued := receiveMessage_issued cfg x i m
  refine ⟨?_, ?_, ?_, ?_⟩
  · rw [receiveMessage_results]
    exact h.results
  · intro s
    rw [Rank.endTurn, hbuffers]
    exact h.buffers s
  · intro s
    rw [Rank.endTurn, hfinished]
    exact h.unfinished s
  · cases h.place with
    | idle ht hi hp => exact .idle (hthread.trans ht) (hissued ▸ hi) hp
    | run hown ht hi => exact .run hown (hthread.trans ht) (hissued ▸ hi)
    | locked hown hp ht hi => exact .locked hown hp (hthread.trans ht) (hissued ▸ hi)
    | waiting hown hp ht hi => exact .waiting hown hp (hthread.trans ht) (hissued ▸ hi)

theorem Balanced.take (h : Balanced cfg w p) {source destination : Nat} {m : Message}
    {rest : List Message} (hsource : source < cfg.worldSize)
    (hdestination : destination < cfg.worldSize) (hne : source ≠ destination)
    (hchannel : w.channel source destination = m :: rest) :
    Balanced cfg (w.take cfg source destination m rest) p := by
  have hm : IsControl cfg m := h.control source destination m (by simp [hchannel])
  constructor
  · intro r hr
    by_cases heq : r = destination
    · subst heq
      simpa using receiveMessage_sync (h.ranks r hr) hm
    · simpa [take_ranks_ne, heq] using h.ranks r hr
  · intro s d m' hm'
    rw [take_channel] at hm'
    split_ifs at hm' with heq
    · exact h.control s d m' (by rw [heq.1, heq.2, hchannel]; exact List.mem_cons_of_mem m hm')
    · exact h.control s d m' hm'
  · intro s d hs hd hsd
    have hedge := h.edges s d hs hd hsd
    have hresults (q : Nat) : ((w.take cfg source destination m rest).ranks q).results =
        (w.ranks q).results := by
      by_cases heq : q = destination
      · rw [heq, take_ranks_self, receiveMessage_results]
      · rw [take_ranks_ne heq]
    simp only [World.receivedBy, World.sentBy, hresults] at hedge ⊢
    by_cases hedgeEq : s = source ∧ d = destination
    · obtain ⟨rfl, rfl⟩ := hedgeEq
      obtain ⟨-, -, hflag⟩ := receiveMessage_control (x := w.ranks d) (i := s) hm
      have hfree := h.flag_free hs hd hsd
      simp only [take_ranks_self, take_channel, and_self, if_true, flagCount, Rank.endTurn,
        hflag]
      rw [hchannel] at hedge hfree
      by_cases htag : m.tag = barrierTag
      · simp only [barrierCount, List.countP_cons, htag, decide_true, if_true, flagCount] at *
        simp only [assign_self, if_true]
        omega
      · simpa [barrierCount, htag, flagCount] using hedge
    · rw [take_channel, if_neg hedgeEq]
      by_cases heq : d = destination
      · subst heq
        have hpeer : s ≠ source := fun hs => hedgeEq ⟨hs, rfl⟩
        obtain ⟨-, -, hflag⟩ := receiveMessage_control (x := w.ranks d) (i := source) hm
        simp only [take_ranks_self, flagCount, Rank.endTurn, hflag] at hedge ⊢
        split_ifs at hedge ⊢ <;> simp_all [assign_ne]
      · simpa [take_ranks_ne, heq] using hedge

end Network

/-! ## The guarantee -/

/-- The main thread of no rank detects a deadlock in the step. -/
def NoDetection (cfg : Config) (w : World) : Action → Prop
  | .step r => ∀ s ∈ (w.ranks r).thread.testing, ¬ Detects cfg r (w.ranks r) s
  | .call _ _ | .deliver _ _ => True

instance {cfg : Config} {w : World} : (a : Action) → Decidable (NoDetection cfg w a)
  | .step r =>
      inferInstanceAs (Decidable (∀ s ∈ (w.ranks r).thread.testing, ¬ Detects cfg r _ s))
  | .call _ _ | .deliver _ _ => isTrue trivial

/-- Steps of a world in which the ranks call nothing but barriers. -/
def barrierStep (cfg : Config) (w : World) : Action → Option World
  | .call rank .barrier => worldStep cfg w (.call rank .barrier)
  | .call _ _ => none
  | action => worldStep cfg w action

private theorem balanced_step {cfg : Config} {w w' : World} {a : Action}
    (h : ∃ p, Balanced cfg w p) (hnot : NoDetection cfg w a)
    (hstep : barrierStep cfg w a = some w') : ∃ p, Balanced cfg w' p := by
  obtain ⟨p, h⟩ := h
  have hworld : worldStep cfg w a = some w' := by
    cases a with
    | call rank c => cases c <;> simp_all [barrierStep]
    | step rank => exact hstep
    | deliver source destination => exact hstep
  cases worldStep_cases hworld with
  | call rank c hrank hidle hfinal =>
      have hc : c = .barrier := by cases c <;> simp_all [barrierStep]
      subst hc
      obtain ⟨b', q, hmoves⟩ := (h.ranks rank hrank).call hidle
      exact ⟨_, h.post hrank hmoves⟩
  | step rank x out hrank hx =>
      obtain ⟨b', q, hmoves⟩ := (h.ranks rank hrank).step hrank hnot hx
      exact ⟨_, h.post hrank hmoves⟩
  | deliver source destination m rest hsource hdestination hne hfree hchannel =>
      exact ⟨p, h.take hsource hdestination hne hchannel⟩

section Safety

variable {cfg : Config} {w : World} {p : Nat → Nat} {k : Nat}

/-- A rank with `k` barriers behind it has heard of the last one from its
parent, and so has every rank above it. -/
private theorem Balanced.heard_up (h : Balanced cfg w p) {r : Nat} (hr : r < cfg.worldSize)
    (hpast : k < (w.ranks r).results.length + if 3 < p r then 1 else 0) :
    k < (w.ranks 0).results.length + if 3 < p 0 then 1 else 0 := by
  refine heap_up (P := fun r => k < (w.ranks r).results.length + if 3 < p r then 1 else 0)
    ?_ r hr hpast
  intro i hi hin hheard
  have hlt := heap_parent_lt hi
  have hedge := h.edges ((i - 1) / 2) i (by omega) hin (by omega)
  have hsent := sent_child (b := (w.ranks ((i - 1) / 2)).results.length)
    (p := p ((i - 1) / 2)) hi
  rw [World.receivedBy, World.sentBy, received_parent hi] at hedge
  omega

/-- Then every rank, from the root down, has told its parent. -/
private theorem Balanced.told_down (h : Balanced cfg w p) {r : Nat} (hr : r < cfg.worldSize)
    (hroot : k < (w.ranks 0).results.length + if 3 < p 0 then 1 else 0) :
    k < (w.ranks r).results.length + if 2 < p r then 1 else 0 := by
  refine heap_down (P := fun r => k < (w.ranks r).results.length + if 2 < p r then 1 else 0)
    ?_ ?_ r hr
  · intro _
    split_ifs at hroot ⊢ <;> omega
  · intro i hi hin htold
    have hlt := heap_parent_lt hi
    have hedge := h.edges i ((i - 1) / 2) hin (by omega) (by omega)
    have hreceived := received_child (b := (w.ranks ((i - 1) / 2)).results.length)
      (p := p ((i - 1) / 2)) hi
    rw [World.receivedBy, World.sentBy, sent_parent hi] at hedge
    omega

/-- A rank that has told its parent is in the barrier, or past it. -/
theorem Balanced.issued (h : Balanced cfg w p) {r : Nat} (hr : r < cfg.worldSize)
    (htold : k < (w.ranks r).results.length + if 2 < p r then 1 else 0) :
    k < (w.ranks r).issued.length := by
  cases (h.ranks r hr).place with
  | idle hthread hissued hp =>
      simp only [hp, Nat.not_lt_zero, if_false] at htold
      omega
  | run hown hthread hissued => split_ifs at htold <;> omega
  | locked hown hp hthread hissued => split_ifs at htold <;> omega
  | waiting hown hp hthread hissued => split_ifs at htold <;> omega

end Safety

/-- In every run of barriers in which no receive takes a deadlock for granted, no
rank returns from its `k`-th barrier before every rank has called its own. -/
theorem barrier_waits_for_all (cfg : Config) (actions : List Action) (w : World)
    (h : run (barrierStep cfg) .init actions = some w)
    (hmeets : Meets (barrierStep cfg) (NoDetection cfg) .init actions)
    (r k : Nat) (hr : r < cfg.worldSize) (data : List UInt8)
    (hreturned : (w.ranks r).results[k]? = some (.success, data)) :
    ∀ q, q < cfg.worldSize → k < (w.ranks q).issued.length := by
  have hinv : ∃ p, Balanced cfg w p :=
    guarded_run_invariant (fun _ _ _ => balanced_step) ⟨_, balanced_init cfg⟩ hmeets h
  obtain ⟨p, hbalanced⟩ := hinv
  obtain ⟨hk, -⟩ := List.getElem?_eq_some_iff.mp hreturned
  have hpast : k < (w.ranks r).results.length + if 3 < p r then 1 else 0 :=
    Nat.lt_add_right _ hk
  intro q hq
  exact hbalanced.issued hq (hbalanced.told_down hq (hbalanced.heard_up hr hpast))

/-- Rank 1 enters first, and both of rank 0's messages reach it before it tests. -/
def handshake : List Action :=
  [.call 1 .barrier, .step 1, .deliver 1 0, .call 0 .barrier, .step 0, .step 0, .step 0,
    .deliver 0 1, .deliver 0 1, .step 1, .step 1, .step 1]

theorem barrier_waits_for_all_two :
    ∃ w, run (barrierStep ⟨2, true⟩) .init handshake = some w ∧
      ∀ q, q < 2 → 0 < (w.ranks q).issued.length :=
  ⟨_, rfl, barrier_waits_for_all ⟨2, true⟩ handshake _ rfl (by decide) 1 0 (by decide) [] rfl⟩

/-- Rank 1 hears that rank 0 waits for it, waits for rank 0 itself, and returns
while rank 2 has not called anything. -/
def earlyLeave : List Action :=
  [.call 0 .barrier, .step 0, .step 0, .deliver 0 1, .call 1 .barrier, .step 1, .step 1, .step 1,
    .step 1, .step 1]

theorem barrier_left_early :
    ∃ w, run (barrierStep ⟨3, true⟩) .init earlyLeave = some w ∧
      (w.ranks 1).results[0]? = some (.success, []) ∧
      ¬ ∀ q, q < 3 → 0 < (w.ranks q).issued.length :=
  ⟨_, rfl, rfl, fun h => absurd (h 2 (by decide)) (by decide)⟩

end Mimuw.Mimpi
