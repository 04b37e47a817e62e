import Mimuw.Mimpi.Steps

/-!
# Deadlock detection between two ranks

Rank 0 announces when it starts to wait and when it has found a message, and
rank 1 decides.  The announcements of rank 0 and its data share one channel, so
their order says at each moment what rank 1 will believe; what they cannot say
is what rank 1 has on its way to rank 0.
-/

namespace Mimuw.Mimpi

open Mimuw.Lib

/-! ## Verdicts -/

def Thread.receive : Thread → Option (Nat × Nat × Int)
  | .locked count source tag _ | .waiting count source tag _ => some (count, source, tag)
  | _ => none

/-- No message from `s` that `d` has not taken matches its receive. -/
def NoMatch (w : World) (s d : Nat) (receive : Nat × Nat × Int) : Prop :=
  ∀ m ∈ (w.ranks d).buffers s ++ w.channel s d, m.isMatch receive.1 receive.2.2 = false

/-- Both ranks are inside receives on each other that nothing can end. -/
def TrueDeadlock (w : World) : Prop :=
  ∃ lower ∈ (w.ranks 0).thread.receive, ∃ higher ∈ (w.ranks 1).thread.receive,
    lower.2.1 = 1 ∧ higher.2.1 = 0 ∧ NoMatch w 1 0 lower ∧ NoMatch w 0 1 higher

/-- The next test of rank 1 decides that there is a deadlock. -/
def Decides (w : World) : Prop :=
  (w.ranks 1).processWaitingForMe 0 = true ∧
    ∃ receive ∈ (w.ranks 1).thread.receive, receive.2.1 = 0 ∧
      extract receive.1 receive.2.2 ((w.ranks 1).buffers 0) = none

/-- The next test of rank 0 takes a decision of rank 1 for its own receive. -/
def TakesVerdict (w : World) : Prop :=
  (w.ranks 0).deadlock 1 = true ∧
    ∃ receive ∈ (w.ranks 0).thread.receive, receive.2.1 = 1 ∧
      extract receive.1 receive.2.2 ((w.ranks 0).buffers 1) = none

/-- Rank 1 decides on an announcement that rank 0 has not taken back and with no
match for rank 0 under way; rank 0 takes a decision only when rank 1 has had its
announcement. -/
def VerdictFounded (w : World) : Action → Prop
  | .step 0 => TakesVerdict w → (w.ranks 1).processWaitingForMe 0 = false ∧
      ∀ m ∈ w.channel 0 1, m.tag ≠ waitingTag
  | .step 1 => Decides w → (∀ m ∈ w.channel 0 1, m.tag ≠ notWaitingTag) ∧
      ∀ lower ∈ (w.ranks 0).thread.receive, NoMatch w 1 0 lower
  | _ => True

section Decide

variable {w : World}

instance {s d : Nat} {receive : Nat × Nat × Int} : Decidable (NoMatch w s d receive) :=
  inferInstanceAs (Decidable
    (∀ m ∈ (w.ranks d).buffers s ++ w.channel s d, m.isMatch receive.1 receive.2.2 = false))

instance : Decidable (TrueDeadlock w) :=
  inferInstanceAs (Decidable
    (∃ lower ∈ (w.ranks 0).thread.receive, ∃ higher ∈ (w.ranks 1).thread.receive,
      lower.2.1 = 1 ∧ higher.2.1 = 0 ∧ NoMatch w 1 0 lower ∧ NoMatch w 0 1 higher))

instance : Decidable (Decides w) :=
  inferInstanceAs (Decidable ((w.ranks 1).processWaitingForMe 0 = true ∧
    ∃ receive ∈ (w.ranks 1).thread.receive, receive.2.1 = 0 ∧
      extract receive.1 receive.2.2 ((w.ranks 1).buffers 0) = none))

instance : Decidable (TakesVerdict w) :=
  inferInstanceAs (Decidable ((w.ranks 0).deadlock 1 = true ∧
    ∃ receive ∈ (w.ranks 0).thread.receive, receive.2.1 = 1 ∧
      extract receive.1 receive.2.2 ((w.ranks 0).buffers 1) = none))

instance : (a : Action) → Decidable (VerdictFounded w a)
  | .step 0 => inferInstanceAs (Decidable (TakesVerdict w →
      (w.ranks 1).processWaitingForMe 0 = false ∧ ∀ m ∈ w.channel 0 1, m.tag ≠ waitingTag))
  | .step 1 => inferInstanceAs (Decidable (Decides w →
      (∀ m ∈ w.channel 0 1, m.tag ≠ notWaitingTag) ∧
        ∀ lower ∈ (w.ranks 0).thread.receive, NoMatch w 1 0 lower))
  | .step (_ + 2) | .call _ _ | .deliver _ _ => isTrue trivial

end Decide

/-- A send or a receive of the program; the tags of the library are not its own. -/
def Call.isUser : Call → Prop
  | .send _ _ tag => tag ≠ finishedTag ∧ tag ≠ barrierTag ∧ tag ≠ deadlockTag ∧
      tag ≠ waitingTag ∧ tag ≠ notWaitingTag
  | .recv _ _ _ => True
  | _ => False

instance : (c : Call) → Decidable c.isUser
  | .send _ _ tag => inferInstanceAs (Decidable (tag ≠ finishedTag ∧ tag ≠ barrierTag ∧
      tag ≠ deadlockTag ∧ tag ≠ waitingTag ∧ tag ≠ notWaitingTag))
  | .recv _ _ _ => isTrue trivial
  | .barrier | .bcast _ _ | .reduce _ _ _ _ _ | .finalize => isFalse id

/-- Steps of two ranks that send and receive, with deadlock detection on. -/
def pairStep (w : World) : Action → Option World
  | .call rank c => if c.isUser then worldStep ⟨2, true⟩ w (.call rank c) else none
  | action => worldStep ⟨2, true⟩ w action

/-- Rank 1 decided in a true deadlock, when rank `r` had made `k` calls. -/
def Founded (actions : List Action) (r k : Nat) : Prop :=
  ∃ before after w, actions = before ++ Action.step 1 :: after ∧
    run pairStep .init before = some w ∧
    Decides w ∧ TrueDeadlock w ∧ (w.ranks r).issued.length = k

theorem Founded.mono {actions : List Action} {r k : Nat} (h : Founded actions r k) (a : Action) :
    Founded (actions ++ [a]) r k := by
  obtain ⟨before, after, w, rfl, hw⟩ := h
  exact ⟨before, after ++ [a], w, by simp, hw⟩

/-! ## Announcements -/

/-- What rank 1 believes after a message. -/
def announce (waiting : Bool) (m : Message) : Bool :=
  if m.tag = waitingTag then true else if m.tag = notWaitingTag then false else waiting

def announced (waiting : Bool) (messages : List Message) : Bool := messages.foldl announce waiting

/-- While rank 0 is believed to wait, all it sends is that it does not. -/
def InOrder : Bool → List Message → Prop
  | _, [] => True
  | waiting, m :: rest =>
      (m.tag ≠ notWaitingTag → waiting = false) ∧ InOrder (announce waiting m) rest

section Announcements

variable {waiting : Bool} {messages : List Message} {m : Message}

private theorem announced_append :
    announced waiting (messages ++ [m]) = announce (announced waiting messages) m := by
  simp [announced]

theorem InOrder.append (h : InOrder waiting messages)
    (hm : m.tag ≠ notWaitingTag → announced waiting messages = false) :
    InOrder waiting (messages ++ [m]) := by
  induction messages generalizing waiting with
  | nil => exact ⟨hm, trivial⟩
  | cons first rest ih => exact ⟨h.1, ih h.2 hm⟩

/-- An announcement that stands and is not taken back is the last message. -/
theorem InOrder.eq_nil (h : InOrder true messages)
    (hnone : ∀ m ∈ messages, m.tag ≠ notWaitingTag) : messages = [] := by
  cases messages with
  | nil => rfl
  | cons m rest => cases h.1 (hnone m List.mem_cons_self)

private theorem announced_false (hnone : ∀ m ∈ messages, m.tag ≠ waitingTag) :
    announced false messages = false := by
  induction messages with
  | nil => rfl
  | cons m rest ih =>
      have hm : announce false m = false := by
        simp [announce, hnone m List.mem_cons_self]
      rw [announced, List.foldl_cons, hm]
      exact ih fun m' hm' => hnone m' (List.mem_cons_of_mem m hm')

end Announcements

/-- What rank 1 will believe is right, or rank 0 is in a receive that has been
decided. -/
structure Announcing (actions : List Action) (waiting : Bool) (messages : List Message)
    (lower : Rank) : Prop where
  order : InOrder waiting messages
  outside : lower.thread.receive = none → announced waiting messages = false
  inside : lower.thread.receive ≠ none →
    announced waiting messages = true ∨ Founded actions 0 lower.issued.length

/-! ## One rank -/

def recvNext (code : Retcode) (received : Option (List UInt8)) : Prog :=
  .ret code (received.getD [])

inductive Shape (r : Nat) (x : Rank) : Prop where
  | idle (hthread : x.thread = .idle) (hcount : x.issued.length = x.results.length)
  | ret (code : Retcode) (data : List UInt8) (hthread : x.thread = .run (.ret code data))
      (hcount : x.issued.length = x.results.length + 1)
  | send (data : List UInt8) (destination tag : Int)
      (huser : (Call.send data destination tag).isUser)
      (hthread : x.thread = .run (.send data destination tag fun code => .ret code []))
      (hcount : x.issued.length = x.results.length + 1)
  | recv (count : Nat) (source tag : Int)
      (hthread : x.thread = .run (.recv count source tag recvNext))
      (hcount : x.issued.length = x.results.length + 1)
  | inside (count : Nat) (tag : Int)
      (hthread : x.thread = .locked count (1 - r) tag recvNext ∨
        x.thread = .waiting count (1 - r) tag recvNext)
      (hcount : x.issued.length = x.results.length + 1)
  | deciding (count : Nat) (tag : Int) (hrank : r = 1)
      (hthread : x.thread = .deciding count 0 tag recvNext)
      (hcount : x.issued.length = x.results.length + 1)

/-- The call of the thread is to return that there is a deadlock. -/
def Thread.verdict : Thread → Bool
  | .deciding _ _ _ _ | .run (.ret .deadlockDetected _) => true
  | _ => false

/-- Nothing has come from a finished rank or a barrier. -/
def Plain (x : Rank) : Prop := ∀ s, x.finishedProcesses s = false ∧ x.sendedBarrier s = false

/-- Every verdict so far is founded. -/
structure Honest (actions : List Action) (w : World) : Prop where
  shape : ∀ r, r < 2 → Shape r (w.ranks r)
  plain : ∀ r, r < 2 → Plain (w.ranks r)
  user : ∀ s d, ∀ m ∈ w.channel s d, m.tag ≠ finishedTag ∧ m.tag ≠ barrierTag
  announcing : Announcing actions ((w.ranks 1).processWaitingForMe 0) (w.channel 0 1) (w.ranks 0)
  verdict : ∀ r, r < 2 → (w.ranks r).thread.verdict → Founded actions r (w.ranks r).issued.length
  results : ∀ r, r < 2 → ∀ k data, (w.ranks r).results[k]? = some (.deadlockDetected, data) →
    Founded actions r (k + 1)

private theorem honest_init : Honest [] .init where
  shape _ _ := .idle rfl rfl
  plain _ _ _ := ⟨rfl, rfl⟩
  user := by simp [World.init]
  announcing := ⟨trivial, fun _ => rfl, fun h => absurd rfl h⟩
  verdict := by simp [World.init, Rank.init, Thread.verdict]
  results := by simp [World.init, Rank.init]

private theorem extract_eq_none {count : Nat} {tag : Int} {messages : List Message}
    (h : extract count tag messages = none) : ∀ m ∈ messages, m.isMatch count tag = false := by
  induction messages with
  | nil => simp
  | cons first rest ih =>
      rw [extract] at h
      split_ifs at h with hmatch
      intro m hm
      rcases List.mem_cons.mp hm with rfl | hm
      · simpa using hmatch
      · exact ih (by simpa using h) m hm

section Test

variable {x : Rank} {count : Nat} {tag : Int} {next : Retcode → Option (List UInt8) → Prog}

private theorem test_lower (h : Plain x) :
    x.test ⟨2, true⟩ 0 count 1 tag next =
      match extract count tag (x.buffers 1) with
      | some (m, rest) =>
          ({ x with
              buffers := assign x.buffers 1 rest
              thread := .run (next .success (some m.data)) }, [(1, ⟨notWaitingTag, []⟩)])
      | none =>
          if x.deadlock 1 then
            ({ x with
                deadlock := assign x.deadlock 1 false
                thread := .run (next .deadlockDetected none) }, [])
          else ({ x with thread := .waiting count 1 tag next }, []) := by
  obtain ⟨hfinished, hbarrier⟩ := h 1
  cases hextract : extract count tag (x.buffers 1) with
  | none => simp [Rank.test, hfinished, hbarrier, hextract]
  | some found => simp [Rank.test, hfinished, hbarrier, hextract, Rank.control, Rank.send]

private theorem test_higher (h : Plain x) :
    x.test ⟨2, true⟩ 1 count 0 tag next =
      match extract count tag (x.buffers 0) with
      | some (m, rest) =>
          ({ x with
              buffers := assign x.buffers 0 rest
              thread := .run (next .success (some m.data)) }, [])
      | none =>
          if x.processWaitingForMe 0 then
            ({ x with
                processWaitingForMe := assign x.processWaitingForMe 0 false
                thread := .deciding count 0 tag next }, [])
          else ({ x with thread := .waiting count 0 tag next }, []) := by
  obtain ⟨hfinished, hbarrier⟩ := h 0
  cases hextract : extract count tag (x.buffers 0) with
  | none => simp [Rank.test, hfinished, hbarrier, hextract]
  | some found => simp [Rank.test, hbarrier, hextract]

end Test

inductive PairKind (r : Nat) (x : Rank) : Rank → Outbox → Prop where
  | ret (code : Retcode) (data : List UInt8) (hthread : x.thread = .run (.ret code data))
      (hcount : x.issued.length = x.results.length + 1) :
      PairKind r x { x with thread := .idle, results := x.results ++ [(code, data)] } []
  /-- a send, or a receive that fails at once -/
  | answer (code : Retcode) (out : Outbox) (hcode : code ≠ .deadlockDetected)
      (hreceive : x.thread.receive = none) (hcount : x.issued.length = x.results.length + 1)
      (hout : out = [] ∨
        ∃ data tag, out = [(1 - r, ⟨tag, data⟩)] ∧ (Call.send data (1 - r : Nat) tag).isUser) :
      PairKind r x { x with thread := .run (.ret code []) } out
  | lock (count : Nat) (tag : Int) (hreceive : x.thread.receive = none)
      (hcount : x.issued.length = x.results.length + 1) :
      PairKind r x { x with thread := .locked count (1 - r) tag recvNext }
        (if r = 0 then [(1, ⟨waitingTag, []⟩)] else [])
  | found (count : Nat) (tag : Int) (m : Message) (rest : List Message)
      (hreceive : x.thread.receive = some (count, 1 - r, tag))
      (hcount : x.issued.length = x.results.length + 1) :
      PairKind r x
        { x with
          buffers := assign x.buffers (1 - r) rest
          thread := .run (recvNext .success (some m.data)) }
        (if r = 0 then [(1, ⟨notWaitingTag, []⟩)] else [])
  | wait (count : Nat) (tag : Int) (hreceive : x.thread.receive = some (count, 1 - r, tag))
      (hcount : x.issued.length = x.results.length + 1) :
      PairKind r x { x with thread := .waiting count (1 - r) tag recvNext } []
  | decide (count : Nat) (tag : Int) (hrank : r = 1)
      (hreceive : x.thread.receive = some (count, 0, tag))
      (hcount : x.issued.length = x.results.length + 1)
      (hextract : extract count tag (x.buffers 0) = none) (hflag : x.processWaitingForMe 0) :
      PairKind r x
        { x with
          processWaitingForMe := assign x.processWaitingForMe 0 false
          thread := .deciding count 0 tag recvNext } []
  | takeVerdict (count : Nat) (tag : Int) (hrank : r = 0)
      (hreceive : x.thread.receive = some (count, 1, tag))
      (hcount : x.issued.length = x.results.length + 1)
      (hextract : extract count tag (x.buffers 1) = none) (hflag : x.deadlock 1) :
      PairKind r x
        { x with
          deadlock := assign x.deadlock 1 false
          thread := .run (recvNext .deadlockDetected none) } []
  | tell (count : Nat) (tag : Int) (hrank : r = 1)
      (hthread : x.thread = .deciding count 0 tag recvNext)
      (hcount : x.issued.length = x.results.length + 1) :
      PairKind r x { x with thread := .run (recvNext .deadlockDetected none) }
        [(0, ⟨deadlockTag, []⟩)]

section Kinds

variable {r : Nat} {x y : Rank} {out : Outbox}

private theorem pairKind_test {count : Nat} {tag : Int} (hr : r < 2) (hplain : Plain x)
    (hreceive : x.thread.receive = some (count, 1 - r, tag))
    (hcount : x.issued.length = x.results.length + 1)
    (hstep : x.test ⟨2, true⟩ r count (1 - r) tag recvNext = (y, out)) : PairKind r x y out := by
  obtain rfl | rfl : r = 0 ∨ r = 1 := by omega
  · rw [test_lower hplain] at hstep
    cases hextract : extract count tag (x.buffers 1) with
    | some found =>
        simp only [hextract, Prod.mk.injEq] at hstep
        obtain ⟨rfl, rfl⟩ := hstep
        exact .found count tag found.1 found.2 hreceive hcount
    | none =>
        simp only [hextract] at hstep
        split_ifs at hstep with hflag
        · obtain ⟨rfl, rfl⟩ := Prod.mk.inj hstep
          exact .takeVerdict count tag rfl hreceive hcount hextract hflag
        · obtain ⟨rfl, rfl⟩ := Prod.mk.inj hstep
          exact .wait count tag hreceive hcount
  · rw [test_higher hplain] at hstep
    cases hextract : extract count tag (x.buffers 0) with
    | some found =>
        simp only [hextract, Prod.mk.injEq] at hstep
        obtain ⟨rfl, rfl⟩ := hstep
        exact .found count tag found.1 found.2 hreceive hcount
    | none =>
        simp only [hextract] at hstep
        split_ifs at hstep with hflag
        · obtain ⟨rfl, rfl⟩ := Prod.mk.inj hstep
          exact .decide count tag rfl hreceive hcount hextract hflag
        · obtain ⟨rfl, rfl⟩ := Prod.mk.inj hstep
          exact .wait count tag hreceive hcount

private theorem pair_send (hr : r < 2) (hplain : Plain x) (data : List UInt8)
    (destination tag : Int) (huser : (Call.send data destination tag).isUser) :
    (x.send ⟨2, true⟩ r data destination tag).1 ≠ .deadlockDetected ∧
      ((x.send ⟨2, true⟩ r data destination tag).2 = [] ∨
        (x.send ⟨2, true⟩ r data destination tag).2 = [(1 - r, ⟨tag, data⟩)]) := by
  have hfinished := (hplain destination.toNat).1
  have htag : tag ≠ finishedTag := huser.1
  simp only [Rank.send, hfinished, Bool.false_eq_true, if_false]
  split_ifs with hself hrange
  · simp
  · simp
  · have hpeer : destination.toNat = 1 - r := by
      have hne : (r : Int) ≠ destination := fun heq => hself ⟨heq, htag⟩
      simp only [Nat.cast_ofNat] at hrange
      omega
    simp [hpeer]

private theorem pairKind (hr : r < 2) (hshape : Shape r x) (hplain : Plain x)
    (hstep : x.step ⟨2, true⟩ r = some (y, out)) : PairKind r x y out := by
  cases hshape with
  | idle hthread hcount => simp [Rank.step, hthread] at hstep
  | ret code data hthread hcount =>
      simp only [Rank.step, hthread, Option.some.injEq, Prod.mk.injEq] at hstep
      obtain ⟨rfl, rfl⟩ := hstep
      exact .ret code data hthread hcount
  | send data destination tag huser hthread hcount =>
      simp only [Rank.step, hthread, Option.some.injEq, Prod.mk.injEq] at hstep
      obtain ⟨rfl, rfl⟩ := hstep
      obtain ⟨hcode, hout⟩ := pair_send hr hplain data destination tag huser
      refine .answer _ _ hcode (by rw [hthread]; rfl) hcount ?_
      rcases hout with hout | hout
      · exact .inl hout
      · exact .inr ⟨data, tag, hout, huser⟩
  | recv count source tag hthread hcount =>
      have hreceive : x.thread.receive = none := by
        rw [hthread]
        rfl
      simp only [Rank.step, hthread] at hstep
      split_ifs at hstep with hself hrange hlower
      · obtain ⟨rfl, rfl⟩ := Prod.mk.inj (Option.some.inj hstep)
        exact .answer _ _ (by decide) hreceive hcount (.inl rfl)
      · obtain ⟨rfl, rfl⟩ := Prod.mk.inj (Option.some.inj hstep)
        exact .answer _ _ (by decide) hreceive hcount (.inl rfl)
      · simp only [Nat.cast_ofNat] at hrange
        obtain ⟨rfl, rfl⟩ := Prod.mk.inj (Option.some.inj hstep)
        obtain ⟨rfl, hsource⟩ : r = 0 ∧ source.toNat = 1 := by omega
        have hcontrol : x.control ⟨2, true⟩ 0 1 waitingTag = [(1, ⟨waitingTag, []⟩)] := by
          simp [Rank.control, Rank.send, (hplain 1).1]
        rw [hsource, hcontrol]
        exact .lock count tag hreceive hcount
      · simp only [Nat.cast_ofNat] at hrange
        obtain ⟨rfl, rfl⟩ := Prod.mk.inj (Option.some.inj hstep)
        have hhigher : ¬ r < source.toNat := fun hlt => hlower ⟨trivial, hlt⟩
        obtain ⟨rfl, hsource⟩ : r = 1 ∧ source.toNat = 0 := by omega
        rw [hsource]
        exact .lock count tag hreceive hcount
  | inside count tag hthread hcount =>
      rcases hthread with hthread | hthread
      · simp only [Rank.step, hthread, Option.some.injEq] at hstep
        exact pairKind_test hr hplain (by rw [hthread]; rfl) hcount hstep
      · simp only [Rank.step, hthread, Option.some.injEq] at hstep
        exact pairKind_test hr hplain (by rw [hthread]; rfl) hcount hstep
  | deciding count tag hrank hthread hcount =>
      subst hrank
      have hcontrol : x.control ⟨2, true⟩ 1 0 deadlockTag = [(0, ⟨deadlockTag, []⟩)] := by
        simp [Rank.control, Rank.send, (hplain 0).1]
      simp only [Rank.step, hthread, hcontrol, Option.some.injEq, Prod.mk.injEq] at hstep
      obtain ⟨rfl, rfl⟩ := hstep
      exact .tell count tag rfl hthread hcount

end Kinds

/-! ## The world -/

section World

variable {actions : List Action} {w : World} {y : Rank} {out : Outbox}

structure Recorded (actions : List Action) (r : Nat) (y : Rank) (out : Outbox) : Prop where
  shape : Shape r y
  plain : Plain y
  user : ∀ d, ∀ m ∈ out.to d, m.tag ≠ finishedTag ∧ m.tag ≠ barrierTag
  verdict : y.thread.verdict → Founded actions r y.issued.length
  results : ∀ k data, y.results[k]? = some (.deadlockDetected, data) → Founded actions r (k + 1)

theorem Honest.post (h : Honest actions w) {r : Nat} (hr : r < 2) (a : Action)
    (hy : Recorded (actions ++ [a]) r y out)
    (hannouncing : Announcing (actions ++ [a])
      (((w.post r y out).ranks 1).processWaitingForMe 0) ((w.post r y out).channel 0 1)
      ((w.post r y out).ranks 0)) :
    Honest (actions ++ [a]) (w.post r y out) := by
  refine ⟨?_, ?_, ?_, hannouncing, ?_, ?_⟩
  · intro q hq
    by_cases heq : q = r
    · subst heq
      simpa using hy.shape
    · simpa [post_ranks_ne, heq] using h.shape q hq
  · intro q hq
    by_cases heq : q = r
    · subst heq
      simpa using hy.plain
    · simpa [post_ranks_ne, heq] using h.plain q hq
  · intro s d m hm
    rw [post_channel] at hm
    split_ifs at hm
    · rcases List.mem_append.mp hm with hm | hm
      · exact h.user s d m hm
      · exact hy.user d m hm
    · exact h.user s d m hm
  · intro q hq hverdict
    by_cases heq : q = r
    · subst heq
      simp only [post_ranks_self] at hverdict ⊢
      exact hy.verdict hverdict
    · rw [post_ranks_ne _ _ _ _ heq] at hverdict ⊢
      exact (h.verdict q hq hverdict).mono a
  · intro q hq k data hresult
    by_cases heq : q = r
    · subst heq
      rw [post_ranks_self] at hresult
      exact hy.results k data hresult
    · rw [post_ranks_ne _ _ _ _ heq] at hresult
      exact (h.results q hq k data hresult).mono a

private theorem isUser_control {data : List UInt8} {destination tag : Int}
    (h : (Call.send data destination tag).isUser) : tag ≠ finishedTag ∧ tag ≠ barrierTag :=
  ⟨h.1, h.2.1⟩

private theorem shape_program {r : Nat} {x : Rank} {c : Call} (huser : c.isUser)
    (hcount : x.issued.length = x.results.length) : Shape r (x.call ⟨2, true⟩ r c) := by
  cases c with
  | send data destination tag =>
      exact .send data destination tag huser rfl (by simp [Rank.call, hcount])
  | recv count source tag => exact .recv count source tag rfl (by simp [Rank.call, hcount])
  | barrier => exact absurd huser id
  | bcast data root => exact absurd huser id
  | reduce sendData recvData scratch op root => exact absurd huser id
  | finalize => exact absurd huser id

theorem Honest.call (h : Honest actions w) {r : Nat} (hr : r < 2) {c : Call} (huser : c.isUser)
    (hidle : (w.ranks r).thread = .idle) :
    Honest (actions ++ [Action.call r c]) (w.post r ((w.ranks r).call ⟨2, true⟩ r c) []) := by
  have hcount : (w.ranks r).issued.length = (w.ranks r).results.length := by
    cases h.shape r hr with
    | idle hthread hcount => exact hcount
    | ret code data hthread hcount => simp [hidle] at hthread
    | send data destination tag huser hthread hcount => simp [hidle] at hthread
    | recv count source tag hthread hcount => simp [hidle] at hthread
    | inside count tag hthread hcount => simp [hidle] at hthread
    | deciding count tag hrank hthread hcount => simp [hidle] at hthread
  have hquiet : ((w.ranks r).call ⟨2, true⟩ r c).thread.receive = none ∧
      ((w.ranks r).call ⟨2, true⟩ r c).thread.verdict = false := by
    cases c <;> first | exact absurd huser id | exact ⟨rfl, rfl⟩
  refine h.post hr _ ⟨shape_program huser hcount, h.plain r hr, by simp, ?_, ?_⟩ ?_
  · intro hverdict
    rw [hquiet.2] at hverdict
    cases hverdict
  · intro k data hresult
    exact (h.results r hr k data hresult).mono _
  · obtain ⟨horder, houtside, hinside⟩ := h.announcing
    rw [post_channel_nil]
    obtain rfl | rfl : r = 0 ∨ r = 1 := by omega
    · rw [post_ranks_ne _ _ _ _ (by decide), post_ranks_self]
      refine ⟨horder, fun _ => houtside (by rw [hidle]; rfl), fun hreceive => ?_⟩
      exact absurd hquiet.1 hreceive
    · rw [post_ranks_self, post_ranks_ne _ _ _ _ (by decide)]
      exact ⟨horder, houtside, fun hreceive => (hinside hreceive).imp_right fun hf => hf.mono _⟩

/-- A receiver thread that takes an announcement makes rank 1 believe it. -/
private theorem receiveMessage_announce (x : Rank) (i : Nat) (m : Message) :
    ((x.receiveMessage ⟨2, true⟩ i m).endTurn i).processWaitingForMe i =
      announce (x.processWaitingForMe i) m := by
  unfold Rank.receiveMessage Rank.endTurn announce
  split_ifs <;> simp_all [deadlockTag, waitingTag, notWaitingTag]

private theorem receiveMessage_plain {x : Rank} {i : Nat} {m : Message} (h : Plain x)
    (hm : m.tag ≠ finishedTag ∧ m.tag ≠ barrierTag) :
    Plain ((x.receiveMessage ⟨2, true⟩ i m).endTurn i) := by
  intro s
  unfold Rank.receiveMessage Rank.endTurn
  rw [if_neg hm.1, if_neg hm.2]
  split_ifs <;> exact h s

theorem Shape.congr {r : Nat} {x : Rank} (h : Shape r x) (hthread : y.thread = x.thread)
    (hissued : y.issued = x.issued) (hresults : y.results = x.results) : Shape r y := by
  cases h with
  | idle ht hcount => exact .idle (hthread.trans ht) (by rw [hissued, hresults, hcount])
  | ret code data ht hcount =>
      exact .ret code data (hthread.trans ht) (by rw [hissued, hresults, hcount])
  | send data destination tag huser ht hcount =>
      exact .send data destination tag huser (hthread.trans ht) (by rw [hissued, hresults, hcount])
  | recv count source tag ht hcount =>
      exact .recv count source tag (hthread.trans ht) (by rw [hissued, hresults, hcount])
  | inside count tag ht hcount =>
      exact .inside count tag (by rw [hthread]; exact ht) (by rw [hissued, hresults, hcount])
  | deciding count tag hrank ht hcount =>
      exact .deciding count tag hrank (hthread.trans ht) (by rw [hissued, hresults, hcount])

theorem Honest.take (h : Honest actions w) {source destination : Nat} {m : Message}
    {rest : List Message} (hsource : source < 2) (hdestination : destination < 2)
    (hne : source ≠ destination)
    (hchannel : w.channel source destination = m :: rest) (a : Action) :
    Honest (actions ++ [a]) (w.take ⟨2, true⟩ source destination m rest) := by
  have hm := h.user source destination m (by simp [hchannel])
  have hsame (q : Nat) : ((w.take ⟨2, true⟩ source destination m rest).ranks q).thread =
        (w.ranks q).thread ∧
      ((w.take ⟨2, true⟩ source destination m rest).ranks q).issued = (w.ranks q).issued ∧
      ((w.take ⟨2, true⟩ source destination m rest).ranks q).results = (w.ranks q).results := by
    by_cases hq : q = destination
    · subst hq
      simp
    · simp [take_ranks_ne hq]
  refine ⟨?_, ?_, ?_, ?_, ?_, ?_⟩
  · intro q hq
    exact (h.shape q hq).congr (hsame q).1 (hsame q).2.1 (hsame q).2.2
  · intro q hq
    by_cases heq : q = destination
    · subst heq
      rw [take_ranks_self]
      exact receiveMessage_plain (h.plain q hq) hm
    · rw [take_ranks_ne heq]
      exact h.plain q hq
  · intro s d m' hm'
    rw [take_channel] at hm'
    split_ifs at hm' with heq
    · refine h.user s d m' ?_
      rw [heq.1, heq.2, hchannel]
      exact List.mem_cons_of_mem m hm'
    · exact h.user s d m' hm'
  · obtain ⟨horder, houtside, hinside⟩ := h.announcing
    have hflag : announced (((w.take
      ⟨2, true⟩ source destination m rest).ranks 1).processWaitingForMe 0)
          ((w.take ⟨2, true⟩ source destination m rest).channel 0 1) =
          announced ((w.ranks 1).processWaitingForMe 0) (w.channel 0 1) ∧
        InOrder (((w.take ⟨2, true⟩ source destination m rest).ranks 1).processWaitingForMe 0)
          ((w.take ⟨2, true⟩ source destination m rest).channel 0 1) := by
      obtain ⟨rfl, rfl⟩ | ⟨rfl, rfl⟩ : source = 0 ∧ destination = 1 ∨
          source = 1 ∧ destination = 0 := by omega
      · rw [hchannel] at horder ⊢
        rw [take_ranks_self, receiveMessage_announce, take_channel, if_pos ⟨rfl, rfl⟩]
        exact ⟨rfl, horder.2⟩
      · rw [take_ranks_ne (by decide), take_channel, if_neg (by decide)]
        exact ⟨rfl, horder⟩
    refine ⟨hflag.2, ?_, ?_⟩
    · intro hreceive
      rw [(hsame 0).1] at hreceive
      rw [hflag.1]
      exact houtside hreceive
    · intro hreceive
      rw [(hsame 0).1] at hreceive
      rw [hflag.1, (hsame 0).2.1]
      exact (hinside hreceive).imp_right fun hf => hf.mono a
  · intro q hq hverdict
    rw [(hsame q).1] at hverdict
    rw [(hsame q).2.1]
    exact (h.verdict q hq hverdict).mono a
  · intro q hq k data hresult
    rw [(hsame q).2.2] at hresult
    exact (h.results q hq k data hresult).mono a

private theorem results_append {r : Nat} {x : Rank} {code : Retcode} {data : List UInt8}
    (hold : ∀ k data, x.results[k]? = some (.deadlockDetected, data) → Founded actions r (k + 1))
    (hnew : code = .deadlockDetected → Founded actions r (x.results.length + 1)) (k : Nat)
    (data' : List UInt8)
    (h : (x.results ++ [(code, data)])[k]? = some (.deadlockDetected, data')) :
    Founded actions r (k + 1) := by
  rcases Nat.lt_trichotomy k x.results.length with hlt | heq | hgt
  · rw [List.getElem?_append_left hlt] at h
    exact hold k data' h
  · subst heq
    simp only [List.getElem?_concat_length, Option.some.injEq, Prod.mk.injEq] at h
    exact hnew h.1
  · rw [List.getElem?_eq_none (by simp; omega)] at h
    cases h

theorem Honest.recorded (h : Honest actions w) {r : Nat} (hr : r < 2) (a : Action)
    (hkind : PairKind r (w.ranks r) y out)
    (hverdict : (w.ranks r).thread.receive ≠ none → y.thread.verdict →
      Founded (actions ++ [a]) r (w.ranks r).issued.length) :
    Recorded (actions ++ [a]) r y out := by
  have hplain := h.plain r hr
  have hresults : ∀ k data, (w.ranks r).results[k]? = some (.deadlockDetected, data) →
      Founded (actions ++ [a]) r (k + 1) :=
    fun k data hresult => (h.results r hr k data hresult).mono a
  cases hkind with
  | ret code data hthread hcount =>
      refine ⟨.idle rfl (by simpa using hcount), hplain, by simp, by simp [Thread.verdict], ?_⟩
      refine results_append hresults fun hcode => ?_
      have hfounded := h.verdict r hr (by rw [hthread, hcode]; rfl)
      rw [hcount] at hfounded
      exact hfounded.mono a
  | answer code out hcode hreceive hcount hout =>
      refine ⟨.ret _ _ rfl hcount, hplain, ?_, ?_, hresults⟩
      · intro d m hm
        rcases hout with rfl | ⟨data, tag, rfl, huser⟩
        · simp at hm
        · rw [Outbox.to_single] at hm
          split_ifs at hm
          · rw [List.mem_singleton.mp hm]
            exact isUser_control huser
          · simp at hm
      · intro hv
        cases code <;> first | exact absurd rfl hcode | simp [Thread.verdict] at hv
  | lock count tag hreceive hcount =>
      refine ⟨.inside count tag (.inl rfl) hcount, hplain, ?_, by simp [Thread.verdict], hresults⟩
      intro d m hm
      split_ifs at hm
      · rw [Outbox.to_single] at hm
        split_ifs at hm
        · rw [List.mem_singleton.mp hm]
          exact ⟨by decide, by decide⟩
        · simp at hm
      · simp at hm
  | found count tag m rest hreceive hcount =>
      refine ⟨.ret _ _ rfl hcount, hplain, ?_, by simp [Thread.verdict, recvNext], hresults⟩
      intro d m' hm
      split_ifs at hm
      · rw [Outbox.to_single] at hm
        split_ifs at hm
        · rw [List.mem_singleton.mp hm]
          exact ⟨by decide, by decide⟩
        · simp at hm
      · simp at hm
  | wait count tag hreceive hcount =>
      exact ⟨.inside count tag (.inr rfl) hcount, hplain, by simp, by simp [Thread.verdict],
        hresults⟩
  | decide count tag hrank hreceive hcount hextract hflag =>
      exact ⟨.deciding count tag hrank rfl hcount, hplain, by simp,
        hverdict (by simp [hreceive]), hresults⟩
  | takeVerdict count tag hrank hreceive hcount hextract hflag =>
      exact ⟨.ret _ _ rfl hcount, hplain, by simp, hverdict (by simp [hreceive]), hresults⟩
  | tell count tag hrank hthread hcount =>
      refine ⟨.ret _ _ rfl hcount, hplain, ?_, fun _ => ?_, hresults⟩
      · intro d m hm
        rw [Outbox.to_single] at hm
        split_ifs at hm
        · rw [List.mem_singleton.mp hm]
          exact ⟨by decide, by decide⟩
        · simp at hm
      · exact (h.verdict r hr (by rw [hthread]; rfl)).mono a

private theorem Honest.lower (h : Honest actions w) (hguard : VerdictFounded w (.step 0))
    (hstep : (w.ranks 0).step ⟨2, true⟩ 0 = some (y, out)) :
    Honest (actions ++ [.step 0]) (w.post 0 y out) := by
  have hkind := pairKind (by decide) (h.shape 0 (by decide)) (h.plain 0 (by decide)) hstep
  obtain ⟨horder, houtside, hinside⟩ := h.announcing
  have hsilent (hverdict : TakesVerdict w) :
      announced ((w.ranks 1).processWaitingForMe 0) (w.channel 0 1) = false := by
    obtain ⟨hflag, hnone⟩ := hguard hverdict
    rw [hflag]
    exact announced_false hnone
  refine h.post (by decide) _ (h.recorded (by decide) _ hkind ?_) ?_
  · intro hreceive hv
    cases hkind with
    | ret code data hthread hcount => simp [Thread.verdict] at hv
    | answer code out hcode hnot hcount hout => exact absurd hnot hreceive
    | lock count tag hnot hcount => exact absurd hnot hreceive
    | found count tag m rest hreceive' hcount => simp [Thread.verdict, recvNext] at hv
    | wait count tag hreceive' hcount => simp [Thread.verdict] at hv
    | decide count tag hrank => cases hrank
    | takeVerdict count tag hrank hreceive' hcount hextract hflag =>
        have hfalse := hsilent ⟨hflag, _, hreceive', rfl, hextract⟩
        rcases hinside hreceive with htrue | hfounded
        · rw [hfalse] at htrue
          cases htrue
        · exact hfounded.mono _
    | tell count tag hrank => cases hrank
  · rw [post_ranks_ne _ _ _ _ (by decide), post_ranks_self, post_channel, if_pos rfl]
    cases hkind with
    | ret code data hthread hcount =>
        refine ⟨by simpa using horder, fun _ => ?_, fun hreceive => absurd rfl hreceive⟩
        simpa using houtside (by rw [hthread]; rfl)
    | answer code out hcode hreceive hcount hout =>
        have hfalse := houtside hreceive
        rcases hout with rfl | ⟨data, tag, rfl, huser⟩
        · refine ⟨by simpa using horder, fun _ => by simpa using hfalse, ?_⟩
          exact fun hreceive => absurd rfl hreceive
        · rw [Outbox.to_single, if_pos rfl]
          refine ⟨horder.append fun _ => hfalse, fun _ => ?_, fun hreceive => absurd rfl hreceive⟩
          rw [announced_append, hfalse]
          simp [announce, huser.2.2.2.1]
    | lock count tag hreceive hcount =>
        rw [if_pos rfl, Outbox.to_single, if_pos rfl]
        refine ⟨horder.append fun _ => houtside hreceive, fun hreceive => ?_, fun _ => .inl ?_⟩
        · cases hreceive
        · rw [announced_append]
          rfl
    | found count tag m rest hreceive hcount =>
        rw [if_pos rfl, Outbox.to_single, if_pos rfl]
        refine ⟨horder.append fun hne => absurd rfl hne, fun _ => ?_,
          fun hreceive => absurd rfl hreceive⟩
        rw [announced_append]
        rfl
    | wait count tag hreceive hcount =>
        refine ⟨by simpa using horder, fun hreceive => absurd hreceive (by simp [Thread.receive]),
          fun _ => ?_⟩
        rcases hinside (by simp [hreceive]) with htrue | hfounded
        · exact .inl (by simpa using htrue)
        · exact .inr (hfounded.mono _)
    | decide count tag hrank => cases hrank
    | takeVerdict count tag hrank hreceive hcount hextract hflag =>
        have hfalse := hsilent ⟨hflag, _, hreceive, rfl, hextract⟩
        exact ⟨by simpa using horder, fun _ => by simpa using hfalse,
          fun hreceive => absurd rfl hreceive⟩
    | tell count tag hrank => cases hrank

/-- Where rank 1 decides on a standing announcement, the deadlock is real. -/
private theorem Honest.trueDeadlock (h : Honest actions w) (hguard : VerdictFounded w (.step 1))
    (hdecides : Decides w) : w.channel 0 1 = [] ∧ TrueDeadlock w := by
  obtain ⟨hnone, hmatch⟩ := hguard hdecides
  obtain ⟨horder, houtside, hinside⟩ := h.announcing
  obtain ⟨hflag, ⟨count, source, tag⟩, hreceive, hsource, hextract⟩ := hdecides
  rw [hflag] at horder houtside
  have hempty := horder.eq_nil hnone
  refine ⟨hempty, ?_⟩
  cases hlower : (w.ranks 0).thread.receive with
  | none =>
      have hfalse := houtside hlower
      rw [hempty] at hfalse
      cases hfalse
  | some lower =>
      have hlower' : lower.2.1 = 1 := by
        cases h.shape 0 (by decide) with
        | inside count tag hthread hcount =>
            rcases hthread with hthread | hthread <;> rw [hthread] at hlower
              <;> cases hlower <;> rfl
        | idle hthread hcount => rw [hthread] at hlower; cases hlower
        | ret code data hthread hcount => rw [hthread] at hlower; cases hlower
        | send data destination tag huser hthread hcount => rw [hthread] at hlower; cases hlower
        | recv count source tag hthread hcount => rw [hthread] at hlower; cases hlower
        | deciding count tag hrank hthread hcount => cases hrank
      refine ⟨lower, hlower, _, hreceive, hlower', hsource, hmatch lower hlower, ?_⟩
      intro m hm
      rw [hempty, List.append_nil] at hm
      exact extract_eq_none hextract m hm

private theorem Honest.higher (h : Honest actions w) (hrun : run pairStep .init actions = some w)
    (hguard : VerdictFounded w (.step 1))
    (hstep : (w.ranks 1).step ⟨2, true⟩ 1 = some (y, out)) :
    Honest (actions ++ [Action.step 1]) (w.post 1 y out) := by
  have hkind := pairKind (by decide) (h.shape 1 (by decide)) (h.plain 1 (by decide)) hstep
  have hannouncing := h.announcing
  have hfounded (hdecides : Decides w) (r : Nat) :
      Founded (actions ++ [Action.step 1]) r (w.ranks r).issued.length :=
    ⟨actions, [], w, rfl, hrun, hdecides, (h.trueDeadlock hguard hdecides).2, rfl⟩
  have hkeep (hsame : y.processWaitingForMe = (w.ranks 1).processWaitingForMe) :
      Announcing (actions ++ [Action.step 1]) (y.processWaitingForMe 0)
        (w.channel 0 1) (w.ranks 0) := by
    rw [hsame]
    exact ⟨hannouncing.order, hannouncing.outside,
      fun hreceive => (hannouncing.inside hreceive).imp_right fun hf => hf.mono _⟩
  refine h.post (by decide) _ (h.recorded (by decide) _ hkind ?_) ?_
  · intro hreceive hv
    cases hkind with
    | ret code data hthread hcount => simp [Thread.verdict] at hv
    | answer code out hcode hnot hcount hout => exact absurd hnot hreceive
    | lock count tag hnot hcount => exact absurd hnot hreceive
    | found count tag m rest hreceive' hcount => simp [Thread.verdict, recvNext] at hv
    | wait count tag hreceive' hcount => simp [Thread.verdict] at hv
    | decide count tag hrank hreceive' hcount hextract hflag =>
        exact hfounded ⟨hflag, _, hreceive', rfl, hextract⟩ 1
    | takeVerdict count tag hrank => cases hrank
    | tell count tag hrank hthread hcount => exact absurd (by rw [hthread]; rfl) hreceive
  · rw [post_ranks_self, post_ranks_ne _ _ _ _ (by decide), post_channel, if_neg (by decide)]
    cases hkind with
    | decide count tag hrank hreceive hcount hextract hflag =>
        have hdecides : Decides w := ⟨hflag, _, hreceive, rfl, hextract⟩
        have hempty := (h.trueDeadlock hguard hdecides).1
        dsimp only
        rw [assign_self, hempty]
        exact ⟨trivial, fun _ => rfl, fun _ => .inr (hfounded hdecides 0)⟩
    | takeVerdict count tag hrank => cases hrank
    | _ => exact hkeep rfl

end World

/-! ## Runs -/

private theorem honest_step {actions : List Action} {w w' : World} {a : Action}
    (hrun : run pairStep .init actions = some w) (h : Honest actions w)
    (hguard : VerdictFounded w a) (hstep : pairStep w a = some w') :
    Honest (actions ++ [a]) w' := by
  have hworld : worldStep ⟨2, true⟩ w a = some w' := by
    cases a with
    | call rank c =>
        simp only [pairStep] at hstep
        split_ifs at hstep
        exact hstep
    | step rank => exact hstep
    | deliver source destination => exact hstep
  cases worldStep_cases hworld with
  | call rank c hrank hidle hfinal =>
      simp only [pairStep] at hstep
      split_ifs at hstep with huser
      exact h.call hrank huser hidle
  | step rank x out hrank hx =>
      obtain rfl | rfl : rank = 0 ∨ rank = 1 := by
        simp only at hrank
        omega
      · exact h.lower hguard hx
      · exact h.higher hrun hguard hx
  | deliver source destination m rest hsource hdestination hne hfree hchannel =>
      exact h.take hsource hdestination hne hchannel _

/-- In every run in which the announcements are up to date when a verdict is
taken, a receive that returns that there is a deadlock had rank 1 decide so, in
a true deadlock, while the receive was going on. -/
theorem deadlock_verdict_founded (actions : List Action) (w : World)
    (h : run pairStep .init actions = some w)
    (hmeets : Meets pairStep VerdictFounded .init actions) (r k : Nat) (hr : r < 2)
    (data : List UInt8)
    (hreturned : (w.ranks r).results[k]? = some (.deadlockDetected, data)) :
    ∃ before after w', actions = before ++ Action.step 1 :: after ∧
      run pairStep .init before = some w' ∧ Decides w' ∧ TrueDeadlock w' ∧
        (w'.ranks r).issued.length = k + 1 := by
  have hhonest : Honest actions w :=
    guarded_history_invariant (I := Honest)
      (fun _ _ _ _ hrun hi hg hl => honest_step hrun hi hg hl) honest_init hmeets h
  exact hhonest.results r hr k data hreturned

def mutualWait : List Action :=
  [.call 0 (.recv 1 1 5), .step 0, .step 0, .deliver 0 1, .call 1 (.recv 1 0 5), .step 1, .step 1,
    .step 1, .step 1]

theorem deadlock_verdict_mutual :
    ∃ w, run pairStep .init mutualWait = some w ∧
      ∃ before after w', mutualWait = before ++ .step 1 :: after ∧
        run pairStep .init before = some w' ∧ Decides w' ∧ TrueDeadlock w' ∧
          (w'.ranks 1).issued.length = 1 :=
  ⟨_, rfl, deadlock_verdict_founded mutualWait _ rfl (by decide) 1 0 (by decide) [] rfl⟩

/-- Rank 0 waits for a message, rank 1 sends it and receives in turn. -/
def crossing : List Action :=
  [.call 0 (.recv 1 1 5), .step 0, .step 0, .deliver 0 1, .call 1 (.send [7] 0 5), .step 1, .step 1,
    .call 1 (.recv 1 0 5), .step 1, .step 1, .step 1, .step 1]

/-- The receive of rank 1 returns that there is a deadlock, and at no moment of
the run there was one. -/
theorem deadlock_verdict_unfounded :
    ∃ w, run pairStep .init crossing = some w ∧
      (w.ranks 1).results[1]? = some (.deadlockDetected, []) ∧
      ¬ ∃ before after w', crossing = before ++ after ∧
        run pairStep .init before = some w' ∧ TrueDeadlock w' := by
  refine ⟨_, rfl, rfl, ?_⟩
  rintro ⟨before, after, w', hsplit, hrun, hdeadlock⟩
  have hall : ∀ i < 13, ∀ w' ∈ run pairStep .init (crossing.take i), ¬ TrueDeadlock w' := by
    decide
  have hbefore : before = crossing.take before.length := by
    rw [hsplit, List.take_left]
  have hlength : before.length < 13 := by
    have := congrArg List.length hsplit
    simp only [List.length_append] at this
    have : crossing.length = 12 := rfl
    omega
  rw [hbefore] at hrun
  exact hall _ hlength w' hrun hdeadlock

end Mimuw.Mimpi
