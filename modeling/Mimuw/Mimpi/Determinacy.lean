import Mimuw.Mimpi.Collectives
import Mimuw.Mimpi.Steps

/-!
# Runs of collective calls

All ranks make the calls of a schedule in the same order, without deadlock
detection.  As long as no receive of data takes a barrier message for its own,
the ranks follow their scripts whatever the order of the steps: the data that is
buffered or in flight between two ranks is what the scripts say comes next.
-/

namespace Mimuw.Mimpi

open Mimuw.Lib

/-! ## Where a rank is in its script -/

/-- The calls of a rank: its rounds, and then `MIMPI_Finalize`. -/
def allCalls (schedule : List Round) (rank : Nat) : List Call :=
  schedule.map (Round.call rank) ++ [Call.finalize]

/-- What follows the current call, after `k` calls. -/
def laterEvents (n : Nat) (schedule : List Round) (rank k : Nat) : List (Event Nat Message) :=
  (schedule.drop k).flatMap (Round.script n rank)

/-- What the `k`-th call may return. -/
def CallReturns (n : Nat) (schedule : List Round) (rank k : Nat)
    (answer : Retcode × List UInt8) : Prop :=
  ∀ round, schedule[k]? = some round → round.Returns n rank answer

def Thread.Follows (n rank : Nat) (c : Call) (returns : Retcode × List UInt8 → Prop) :
    Thread → List (Event Nat Message) → Prop
  | .run prog, events => prog.Follows n rank c returns events
  | .locked count source tag next, events | .waiting count source tag next, events =>
      (Prog.recv count source tag next).Follows n rank c returns events
  | .idle, _ | .deciding _ _ _ _, _ => False

inductive Progress (n : Nat) (schedule : List Round) (rank : Nat) (x : Rank)
    (events : List (Event Nat Message)) : Prop where
  | idle (hthread : x.thread = .idle) (hcount : x.issued.length = x.results.length)
      (hevents : events = [])
  | busy (c : Call) (hlast : x.issued[x.results.length]? = some c)
      (hcount : x.issued.length = x.results.length + 1)
      (hthread : x.thread.Follows n rank c (CallReturns n schedule rank x.results.length) events)

/-- A rank that still has `events` to do in its current call. -/
structure OnScript (n : Nat) (schedule : List Round) (rank : Nat) (x : Rank)
    (events : List (Event Nat Message)) : Prop where
  issued : x.issued <+: allCalls schedule rank
  buffers : ∀ s, ∀ m ∈ x.buffers s, m.isData
  results : ∀ k answer, x.results[k]? = some answer → CallReturns n schedule rank k answer
  ended : .finalize ∈ x.issued → events = []
  progress : Progress n schedule rank x events

/-- The receive the main thread is about to test. -/
def Thread.awaiting : Thread → Option (Nat × Int)
  | .locked _ source tag _ | .waiting _ source tag _ => some (source, tag)
  | _ => none

/-- What the scripts of the peers promise a rank that has `left` to do. -/
structure Surroundings (n rank : Nat) (x : Rank) (left : List (Event Nat Message)) : Prop where
  incoming : ∀ s, s < n → s ≠ rank → ∃ inFlight a,
    Matched s rank (x.buffers s ++ inFlight) a left ∧
      (x.finishedProcesses s → inFlight = [] ∧ a = [])
  outgoing : ∀ d, d < n → d ≠ rank → ∃ pending b,
    Matched rank d pending left b ∧ (x.finishedProcesses d → b = [])

def dataOf (messages : List Message) : List Message := messages.filter Message.isData

/-- A step of one rank, with what it does to the edges. -/
structure Advances (n : Nat) (schedule : List Round) (rank : Nat) (x : Rank)
    (events : List (Event Nat Message)) (y : Rank) (out : Outbox)
    (events' : List (Event Nat Message)) : Prop where
  after : OnScript n schedule rank y events'
  issued : y.issued = x.issued
  sends : ∀ d pending later b, d < n → d ≠ rank → Matched rank d pending (events ++ later) b →
    Matched rank d (pending ++ dataOf (out.to d)) (events' ++ later) b
  receives : ∀ s inFlight later a, s < n → s ≠ rank →
    Matched s rank (x.buffers s ++ inFlight) a (events ++ later) →
      Matched s rank (y.buffers s ++ inFlight) a (events' ++ later)
  signals : ∀ d, ∀ m ∈ out.to d, m.isData = false → ∃ c ∈ x.issued, c.Signals m.tag
  flags : ∀ s, y.sendedBarrier s → x.sendedBarrier s
  finished : y.finishedProcesses = x.finishedProcesses

section Local

variable {n rank : Nat} {schedule : List Round} {x y : Rank} {out : Outbox}
  {events : List (Event Nat Message)}

private theorem advances_silent (hafter : OnScript n schedule rank y events)
    (hissued : y.issued = x.issued) (hbuffers : y.buffers = x.buffers)
    (hflags : ∀ s, y.sendedBarrier s → x.sendedBarrier s)
    (hfinished : y.finishedProcesses = x.finishedProcesses)
    (hdata : ∀ d, d < n → d ≠ rank → dataOf (out.to d) = [])
    (hsignals : ∀ d, ∀ m ∈ out.to d, m.isData = false → ∃ c ∈ x.issued, c.Signals m.tag) :
    Advances n schedule rank x events y out events where
  after := hafter
  issued := hissued
  sends d pending later b hd hne h := by
    rw [hdata d hd hne, List.append_nil]
    exact h
  receives s inFlight later a _ _ h := by
    rw [hbuffers]
    exact h
  signals := hsignals
  flags := hflags
  finished := hfinished

theorem OnScript.thread (h : OnScript n schedule rank x events) {c : Call}
    {events' : List (Event Nat Message)}
    (hlast : x.issued[x.results.length]? = some c)
    (hcount : x.issued.length = x.results.length + 1)
    (hissued : y.issued = x.issued) (hresults : y.results = x.results)
    (hbuffers : ∀ s, ∀ m ∈ y.buffers s, m.isData)
    (hended : events = [] → events' = [])
    (hthread : y.thread.Follows n rank c (CallReturns n schedule rank x.results.length) events') :
    OnScript n schedule rank y events' where
  issued := hissued ▸ h.issued
  buffers := hbuffers
  results := hresults ▸ h.results
  ended hfinal := hended (h.ended (hissued ▸ hfinal))
  progress := .busy c (by rw [hissued, hresults, hlast]) (by rw [hissued, hresults, hcount])
    (by rw [hresults]; exact hthread)

private theorem onScript_ret {code : Retcode} {data : List UInt8}
    (h : OnScript n schedule rank x events)
    {c : Call} (hcount : x.issued.length = x.results.length + 1)
    (hthread : x.thread = .run (.ret code data))
    (hfollows : x.thread.Follows n rank c (CallReturns n schedule rank x.results.length) events)
    (hstep : x.step ⟨n, false⟩ rank = some (y, out)) :
    ∃ events', Advances n schedule rank x events y out events' := by
  rw [hthread] at hfollows
  obtain ⟨rfl, hreturns⟩ := hfollows
  simp only [Rank.step, hthread, Option.some.injEq, Prod.mk.injEq] at hstep
  obtain ⟨rfl, rfl⟩ := hstep
  refine ⟨[], advances_silent ⟨h.issued, h.buffers, ?_, fun _ => rfl, .idle rfl ?_ rfl⟩ rfl rfl
    (fun _ => id) rfl (fun _ _ _ => rfl) (by simp)⟩
  · intro k answer hanswer
    rcases Nat.lt_trichotomy k x.results.length with hlt | heq | hgt
    · rw [List.getElem?_append_left hlt] at hanswer
      exact h.results k answer hanswer
    · subst heq
      simp only [List.getElem?_concat_length, Option.some.injEq] at hanswer
      exact hanswer ▸ hreturns
    · rw [List.getElem?_eq_none (by simp; omega)] at hanswer
      cases hanswer
  · simpa using hcount

private theorem onScript_send {data : List UInt8} {destination tag : Int} {next : Retcode → Prog}
    (h : OnScript n schedule rank x events) {c : Call}
    (hlast : x.issued[x.results.length]? = some c)
    (hcount : x.issued.length = x.results.length + 1)
    (hthread : x.thread = .run (.send data destination tag next))
    (hfollows : x.thread.Follows n rank c (CallReturns n schedule rank x.results.length) events)
    (hout : ∀ d, d < n → d ≠ rank → ∃ pending b,
      Matched rank d pending (events ++ laterEvents n schedule rank x.issued.length) b ∧
        (x.finishedProcesses d → b = []))
    (hstep : x.step ⟨n, false⟩ rank = some (y, out)) :
    ∃ events', Advances n schedule rank x events y out events' := by
  rw [hthread] at hfollows
  simp only [Rank.step, hthread, Option.some.injEq, Prod.mk.injEq] at hstep
  obtain ⟨rfl, rfl⟩ := hstep
  rcases hfollows with ⟨rfl, hsignal, hnext⟩ | ⟨peer, rest, rfl, hdata, rfl, hpeer, hne, hnext⟩
  · refine ⟨events, advances_silent ?_ rfl rfl (fun _ => id) rfl ?_ ?_⟩
    · exact h.thread hlast hcount rfl rfl h.buffers id (hnext _)
    · intro d _ _
      refine List.filter_eq_nil_iff.mpr fun m hm => ?_
      rw [send_to hm]
      cases c <;> simp_all [Call.Signals, Message.isData]
    · intro d m hm _
      rw [send_to hm]
      exact ⟨c, List.mem_of_getElem? hlast, hsignal⟩
  · have hself : ¬ ((rank : Int) = peer ∧ tag ≠ finishedTag) := by omega
    have hrange : ¬ ((peer : Int) < 0 ∨ (peer : Int) ≥ n) := by omega
    have hopen : x.finishedProcesses peer = false := by
      obtain ⟨pending, b, hmatched, hfinished⟩ := hout peer hpeer hne
      rw [Bool.eq_false_iff]
      intro hclosed
      rw [hfinished hclosed] at hmatched
      exact hmatched.not_send
    have hsend : x.send ⟨n, false⟩ rank data peer tag = (.success, [(peer, ⟨tag, data⟩)]) := by
      rw [Rank.send, if_neg hself, if_neg hrange, Int.toNat_natCast, hopen]
      rfl
    rw [hsend]
    refine ⟨rest, ?_, rfl, ?_, ?_, ?_, fun _ => id, rfl⟩
    · exact h.thread hlast hcount rfl rfl h.buffers (by simp) hnext
    · intro d pending later b _ _ hmatched
      have hsent := hmatched.send
      by_cases heq : peer = d
      · simpa [heq, dataOf, hdata] using hsent
      · simpa [heq, dataOf] using hsent
    · intro s inFlight later a _ _ hmatched
      exact hmatched
    · intro d m hm hnot
      by_cases heq : peer = d
      · simp_all
      · simp [heq] at hm

private theorem onScript_recv {count : Nat} {source tag : Int}
    {next : Retcode → Option (List UInt8) → Prog} (h : OnScript n schedule rank x events)
    {c : Call} (hlast : x.issued[x.results.length]? = some c)
    (hcount : x.issued.length = x.results.length + 1)
    (hthread : x.thread = .run (.recv count source tag next))
    (hfollows : x.thread.Follows n rank c (CallReturns n schedule rank x.results.length) events)
    (hstep : x.step ⟨n, false⟩ rank = some (y, out)) :
    ∃ events', Advances n schedule rank x events y out events' := by
  rw [hthread] at hfollows
  have hstay {z : Rank} (hz : OnScript n schedule rank z events)
      (hissued : z.issued = x.issued) (hbuffers : z.buffers = x.buffers)
      (hflags : z.sendedBarrier = x.sendedBarrier)
      (hfinished : z.finishedProcesses = x.finishedProcesses) :
      ∃ events', Advances n schedule rank x events z [] events' :=
    ⟨events, advances_silent hz hissued hbuffers (fun s hs => hflags ▸ hs) hfinished
      (fun _ _ _ => rfl) (by simp)⟩
  simp only [Rank.step, hthread, Bool.false_eq_true, false_and, if_false] at hstep
  split_ifs at hstep with hself hrange
  · obtain ⟨rfl, rfl⟩ := Prod.mk.inj (Option.some.inj hstep)
    refine hstay (h.thread hlast hcount rfl rfl h.buffers id ?_) rfl rfl rfl rfl
    rcases hfollows with ⟨-, hnext⟩ | ⟨peer, m, rest, -, -, -, -, rfl, -, hne, -⟩
    · exact hnext _ _
    · omega
  · obtain ⟨rfl, rfl⟩ := Prod.mk.inj (Option.some.inj hstep)
    refine hstay (h.thread hlast hcount rfl rfl h.buffers id ?_) rfl rfl rfl rfl
    rcases hfollows with ⟨-, hnext⟩ | ⟨peer, m, rest, -, -, -, -, rfl, hpeer, -, -⟩
    · exact hnext _ _
    · omega
  · obtain ⟨rfl, rfl⟩ := Prod.mk.inj (Option.some.inj hstep)
    refine hstay (h.thread hlast hcount rfl rfl h.buffers id ?_) rfl rfl rfl rfl
    have hsource : (source.toNat : Int) = source := Int.toNat_of_nonneg (by omega)
    simpa only [Thread.Follows, hsource] using hfollows

/-- Without deadlock detection a test takes a noted barrier message, takes a
match, gives up on a finished peer or waits. -/
private theorem test_off {count source : Nat} {tag : Int}
    {next : Retcode → Option (List UInt8) → Prog}
    (h : x.test ⟨n, false⟩ rank count source tag next = (y, out)) :
    out = [] ∧
      (x.sendedBarrier source ∧ y = { x with
            sendedBarrier := assign x.sendedBarrier source false
            thread := .run (next .success none) } ∨
        x.sendedBarrier source = false ∧
          ((∃ m rest, extract count tag (x.buffers source) = some (m, rest) ∧ y = { x with
                buffers := assign x.buffers source rest
                thread := .run (next .success (some m.data)) }) ∨
            extract count tag (x.buffers source) = none ∧
              ((x.finishedProcesses source ∧ x.buffers source = [] ∧
                  y = { x with thread := .run (next .remoteFinished none) }) ∨
                y = { x with thread := .waiting count source tag next }))) := by
  by_cases hflag : x.sendedBarrier source
  · simp only [Rank.test, hflag, if_true, Prod.mk.injEq] at h
    exact ⟨h.2.symm, .inl ⟨hflag, h.1.symm⟩⟩
  · simp only [Rank.test, hflag, Bool.false_eq_true, if_false, false_and] at h
    cases hextract : extract count tag (x.buffers source) with
    | some found =>
        obtain ⟨m, rest⟩ := found
        simp only [hextract, Prod.mk.injEq] at h
        exact ⟨h.2.symm, .inr ⟨by simpa using hflag, .inl ⟨m, rest, rfl, h.1.symm⟩⟩⟩
    | none =>
        simp only [hextract] at h
        split_ifs at h with hfinished
        · obtain ⟨rfl, rfl⟩ := Prod.mk.inj h
          exact ⟨rfl, .inr ⟨by simpa using hflag, .inr ⟨rfl, .inl
            ⟨hfinished.1, List.length_eq_zero_iff.mp hfinished.2, rfl⟩⟩⟩⟩
        · obtain ⟨rfl, rfl⟩ := Prod.mk.inj h
          exact ⟨rfl, .inr ⟨by simpa using hflag, .inr ⟨rfl, .inr rfl⟩⟩⟩

private theorem tag_of_isData {m : Message} (h : m.isData) : m.tag ≠ barrierTag := by
  simp only [Message.isData, decide_eq_true_eq] at h
  exact h.2

/-- Nothing that is buffered matches a receive of a barrier message. -/
private theorem extract_barrier {count : Nat} {messages : List Message}
    (h : ∀ m ∈ messages, m.isData) : extract count barrierTag messages = none := by
  induction messages with
  | nil => rfl
  | cons m messages ih =>
      have htag : m.tag ≠ -2 := tag_of_isData (h m List.mem_cons_self)
      have hm : m.isMatch count barrierTag = false := by
        simp [Message.isMatch, barrierTag, htag]
      rw [extract, hm, ih fun m' hm' => h m' (List.mem_cons_of_mem m hm')]
      rfl

private theorem extract_head {m : Message} {rest : List Message} :
    extract m.data.length m.tag (m :: rest) = some (m, rest) := by
  simp [extract, Message.isMatch]

private theorem onScript_test {count source : Nat} {tag : Int}
    {next : Retcode → Option (List UInt8) → Prog} (h : OnScript n schedule rank x events)
    {c : Call} (hlast : x.issued[x.results.length]? = some c)
    (hcount : x.issued.length = x.results.length + 1)
    (hfollows : (Prog.recv count source tag next).Follows n rank c
      (CallReturns n schedule rank x.results.length) events)
    (hin : Surroundings n rank x (events ++ laterEvents n schedule rank x.issued.length))
    (hguard : tag ≠ barrierTag → x.sendedBarrier source = false)
    (hstep : x.test ⟨n, false⟩ rank count source tag next = (y, out)) :
    ∃ events', Advances n schedule rank x events y out events' := by
  obtain ⟨rfl, hcases⟩ := test_off hstep
  have hstay {z : Rank} (hissued : z.issued = x.issued) (hresults : z.results = x.results)
      (hbuffers : z.buffers = x.buffers) (hflags : ∀ s, z.sendedBarrier s → x.sendedBarrier s)
      (hfinished : z.finishedProcesses = x.finishedProcesses)
      (hthread : z.thread.Follows n rank c (CallReturns n schedule rank x.results.length)
        events) :
      ∃ events', Advances n schedule rank x events z [] events' :=
    ⟨events, advances_silent
      (h.thread hlast hcount hissued hresults (hbuffers ▸ h.buffers) id hthread) hissued hbuffers
      hflags hfinished (fun _ _ _ => rfl) (by simp)⟩
  rcases hfollows with ⟨rfl, hnext⟩ |
    ⟨peer, m, rest, rfl, hdata, htag, hlength, hsource, hpeer, hne, hnext⟩
  · rcases hcases with ⟨hflag, rfl⟩ | ⟨-, ⟨m, rest, hextract, -⟩ | ⟨-, ⟨-, -, rfl⟩ | rfl⟩⟩
    · refine hstay rfl rfl rfl ?_ rfl (hnext _ _)
      intro s hs
      by_cases heq : s = source
      · exact heq ▸ hflag
      · simpa [assign_ne _ _ _ _ heq] using hs
    · rw [extract_barrier (h.buffers source)] at hextract
      cases hextract
    · exact hstay rfl rfl rfl (fun _ => id) rfl (hnext _ _)
    · exact hstay rfl rfl rfl (fun _ => id) rfl (.inl ⟨rfl, hnext⟩)
  · obtain rfl : source = peer := by omega
    subst htag hlength
    have hflag := hguard (tag_of_isData hdata)
    obtain ⟨inFlight, a, hmatched, hclosed⟩ := hin.incoming source hpeer hne
    rcases hcases with ⟨hset, -⟩ | ⟨-, ⟨m', rest', hextract, rfl⟩ | ⟨hextract, hrest⟩⟩
    · simp [hflag] at hset
    · cases hbuffer : x.buffers source with
      | nil => simp [hbuffer, extract] at hextract
      | cons first others =>
          rw [hbuffer] at hmatched hextract
          obtain rfl : first = m := hmatched.head
          rw [extract_head] at hextract
          obtain ⟨rfl, rfl⟩ := Prod.mk.inj (Option.some.inj hextract)
          refine ⟨rest, ?_, rfl, ?_, ?_, by simp, fun _ => id, rfl⟩
          · refine h.thread hlast hcount rfl rfl ?_ (by simp) hnext
            intro s m' hm'
            dsimp only at hm'
            by_cases heq : s = source
            · subst heq
              rw [assign_self] at hm'
              exact h.buffers s m' (by rw [hbuffer]; exact List.mem_cons_of_mem _ hm')
            · rw [assign_ne _ _ _ _ heq] at hm'
              exact h.buffers s m' hm'
          · intro d pending later b _ _ hsent
            simpa [dataOf] using hsent.recv_other
          · intro s inFlight' later a' _ _ hreceived
            by_cases heq : s = source
            · subst heq
              rw [hbuffer] at hreceived
              simpa using hreceived.recv
            · simpa [assign_ne _ _ _ _ heq] using hreceived.recv_ne (Ne.symm heq)
    · rcases hrest with ⟨hfinished, hempty, -⟩ | rfl
      · obtain ⟨rfl, rfl⟩ := hclosed hfinished
        rw [hempty] at hmatched
        exact absurd rfl hmatched.pending_of_sent
      · exact hstay rfl rfl rfl (fun _ => id) rfl
          (.inr ⟨source, m, rest, rfl, hdata, rfl, rfl, rfl, hpeer, hne, hnext⟩)

/-- Every step of a rank follows its script, if no receive of data finds a
barrier message. -/
theorem OnScript.step (h : OnScript n schedule rank x events)
    (hin : Surroundings n rank x (events ++ laterEvents n schedule rank x.issued.length))
    (hguard : ∀ receive ∈ x.thread.awaiting, receive.2 ≠ barrierTag →
      x.sendedBarrier receive.1 = false)
    (hstep : x.step ⟨n, false⟩ rank = some (y, out)) :
    ∃ events', Advances n schedule rank x events y out events' := by
  cases h.progress with
  | idle hthread hcount hevents => simp [Rank.step, hthread] at hstep
  | busy c hlast hcount hfollows =>
      cases hthread : x.thread with
      | idle => simp [hthread, Thread.Follows] at hfollows
      | deciding count source tag next => simp [hthread, Thread.Follows] at hfollows
      | run prog =>
          cases prog with
          | ret code data => exact onScript_ret h hcount hthread hfollows hstep
          | send data destination tag next =>
              exact onScript_send h hlast hcount hthread hfollows hin.outgoing hstep
          | recv count source tag next =>
              exact onScript_recv h hlast hcount hthread hfollows hstep
      | locked count source tag next =>
          rw [hthread] at hfollows hguard
          simp only [Rank.step, hthread, Option.some.injEq] at hstep
          exact onScript_test h hlast hcount hfollows hin (hguard (source, tag) rfl) hstep
      | waiting count source tag next =>
          rw [hthread] at hfollows hguard
          simp only [Rank.step, hthread, Option.some.injEq] at hstep
          exact onScript_test h hlast hcount hfollows hin (hguard (source, tag) rfl) hstep

private theorem not_finalize_mem (rounds : List Round) :
    .finalize ∉ rounds.map (Round.call rank) := by
  intro h
  obtain ⟨round, -, hround⟩ := List.mem_map.mp h
  cases round <;> cases hround

private theorem OnScript.barrier_mem (h : OnScript n schedule rank x events)
    (hbarrier : .barrier ∈ x.issued) : .barrier ∈ schedule := by
  have hmem := h.issued.subset hbarrier
  rw [allCalls, List.mem_append, List.mem_map] at hmem
  rcases hmem with ⟨round, hround, hcall⟩ | hmem
  · cases round with
    | barrier => exact hround
    | bcast data root => cases hcall
    | reduce sendData recvData scratch op root => cases hcall
  · simp at hmem

/-- A rank that has called `MIMPI_Finalize` has nothing left to do. -/
private theorem OnScript.left_nil (h : OnScript n schedule rank x events)
    (hfinal : .finalize ∈ x.issued) :
    events ++ laterEvents n schedule rank x.issued.length = [] := by
  have hlong : schedule.length ≤ x.issued.length := by
    by_contra hshort
    rw [List.prefix_iff_eq_take.mp h.issued, allCalls,
      List.take_append_of_le_length (by simp; omega), ← List.map_take] at hfinal
    exact not_finalize_mem _ hfinal
  rw [h.ended hfinal, laterEvents, List.drop_eq_nil_of_le hlong]
  rfl

theorem OnScript.call (h : OnScript n schedule rank x events) (hrank : rank < n)
    (hwell : ∀ round ∈ schedule, round.WellFormed n) (hidle : x.thread = .idle) {c : Call}
    (hc : (allCalls schedule rank)[x.issued.length]? = some c) :
    ∃ events', OnScript n schedule rank (x.call ⟨n, false⟩ rank c) events' ∧
      events' ++ laterEvents n schedule rank (x.issued.length + 1) =
        events ++ laterEvents n schedule rank x.issued.length := by
  cases h.progress with
  | busy c' hlast hcount hfollows => simp [hidle, Thread.Follows] at hfollows
  | idle hthread hcount hevents =>
      subst hevents
      have hissued : x.issued ++ [c] <+: allCalls schedule rank := by
        obtain ⟨rest, hrest⟩ := h.issued
        rw [← hrest, List.getElem?_append_right (Nat.le_refl _), Nat.sub_self] at hc
        cases rest with
        | nil => simp at hc
        | cons first rest =>
            simp only [List.getElem?_cons_zero, Option.some.injEq] at hc
            exact ⟨rest, by rw [← hrest, hc]; simp⟩
      have hlast : (x.issued ++ [c])[x.results.length]? = some c := by
        rw [← hcount]
        simp
      rcases Nat.lt_or_ge x.issued.length schedule.length with hround | hend
      · have hget : schedule[x.issued.length]? = some schedule[x.issued.length] := by simp [hround]
        have hcall : c = schedule[x.issued.length].call rank := by
          rw [allCalls, List.getElem?_append_left (by simpa using hround)] at hc
          simpa [hget] using hc.symm
        refine ⟨schedule[x.issued.length].script n rank, ⟨hissued, h.buffers, h.results, ?_,
          .busy c hlast (by simp [Rank.call, hcount]) ?_⟩, ?_⟩
        · intro hfinal
          have hrounds : x.issued ++ [c] = (schedule.take (x.issued.length + 1)).map
              (Round.call rank) := by
            rw [List.prefix_iff_eq_take.mp hissued, allCalls,
              List.take_append_of_le_length (by simp; omega), List.map_take]
            simp
          have hmem : .finalize ∈ x.issued ++ [c] := hfinal
          rw [hrounds] at hmem
          exact absurd hmem (not_finalize_mem _)
        · have hfollows := program_follows hrank
            (hwell _ (List.getElem_mem (l := schedule) hround))
          subst hcall
          refine hfollows.mono fun answer hanswer round hget' => ?_
          rw [Rank.call, ← hcount, hget] at hget'
          exact (Option.some.inj hget') ▸ hanswer
        · rw [laterEvents, laterEvents, List.drop_eq_getElem_cons hround]
          rfl
      · have hcall : c = .finalize := by
          rw [allCalls, List.getElem?_append_right (by simpa using hend)] at hc
          have hzero : x.issued.length - (schedule.map (Round.call rank)).length = 0 := by
            by_contra hpos
            rw [List.getElem?_eq_none (by simp only [List.length_singleton]; omega)] at hc
            cases hc
          rw [hzero] at hc
          simpa using hc.symm
        subst hcall
        refine ⟨[], ⟨hissued, h.buffers, h.results, fun _ => rfl,
          .busy .finalize hlast (by simp [Rank.call, hcount]) ?_⟩, ?_⟩
        · refine (finalizeFrom_follows n 0).mono fun answer _ round hget' => ?_
          rw [Rank.call, ← hcount, List.getElem?_eq_none hend] at hget'
          cases hget'
        · rw [laterEvents, laterEvents, List.drop_eq_nil_of_le hend,
            List.drop_eq_nil_of_le (by omega)]

end Local

/-! ## All ranks -/

/-- Behind a closing message no data follows; once it has been noted, none is
left at all. -/
def Closing (finished : Bool) (messages : List Message) : Prop :=
  ∃ before after, messages = before ++ after ∧ (∀ m ∈ before, m.tag ≠ finishedTag) ∧
    (∀ m ∈ after, m.isData = false) ∧ (finished → before = [])

/-- What `source` still has to do, with `events` in its current call. -/
def World.left (w : World) (n : Nat) (schedule : List Round)
    (events : Nat → List (Event Nat Message)) (rank : Nat) : List (Event Nat Message) :=
  events rank ++ laterEvents n schedule rank (w.ranks rank).issued.length

/-- The data that `destination` has not taken yet. -/
def World.pending (w : World) (source destination : Nat) : List Message :=
  (w.ranks destination).buffers source ++ dataOf (w.channel source destination)

/-- All ranks are on their scripts, with the right data between them. -/
structure OnSchedule (n : Nat) (schedule : List Round) (w : World)
    (events : Nat → List (Event Nat Message)) : Prop where
  ranks : ∀ r, r < n → OnScript n schedule r (w.ranks r) (events r)
  edges : ∀ s d, s < n → d < n → s ≠ d →
    Matched s d (w.pending s d) (w.left n schedule events s) (w.left n schedule events d)
  signals : ∀ s d, s < n → ∀ m ∈ w.channel s d, m.isData = false →
    ∃ c ∈ (w.ranks s).issued, c.Signals m.tag
  barriers : ∀ s d, (w.ranks d).sendedBarrier s → .barrier ∈ schedule
  finished : ∀ s d, s < n → d < n → (w.ranks d).finishedProcesses s →
    .finalize ∈ (w.ranks s).issued
  closing : ∀ s d, s < n → d < n → s ≠ d →
    Closing ((w.ranks d).finishedProcesses s) (w.channel s d)

section Closing

variable {finished : Bool} {messages : List Message} {m : Message}

private theorem closing_open (h : ∀ m ∈ messages, m.tag ≠ finishedTag) : Closing false messages :=
  ⟨messages, [], by simp, h, by simp, by simp⟩

theorem Closing.append {more : List Message} (h : Closing finished messages)
    (hmore : ∀ m ∈ more, m.isData = false) : Closing finished (messages ++ more) := by
  obtain ⟨before, after, rfl, hbefore, hafter, hfinished⟩ := h
  refine ⟨before, after ++ more, by simp, hbefore, ?_, hfinished⟩
  intro m hm
  rcases List.mem_append.mp hm with hm | hm
  · exact hafter m hm
  · exact hmore m hm

theorem Closing.tail (h : Closing finished (m :: messages)) :
    Closing (if m.tag = finishedTag then true else finished) messages := by
  obtain ⟨before, after, hsplit, hbefore, hafter, hfinished⟩ := h
  cases before with
  | nil =>
      obtain rfl : m :: messages = after := hsplit
      exact ⟨[], messages, rfl, by simp, fun m' hm' => hafter m' (List.mem_cons_of_mem m hm'),
        fun _ => rfl⟩
  | cons first before =>
      obtain ⟨rfl, rfl⟩ := List.cons.inj hsplit
      have htag : m.tag ≠ finishedTag := hbefore m List.mem_cons_self
      refine ⟨before, after, rfl, fun m' hm' => hbefore m' (List.mem_cons_of_mem m hm'), hafter, ?_⟩
      intro hclosed
      rw [if_neg htag] at hclosed
      cases hfinished hclosed

private theorem Closing.dataOf_eq (h : Closing true messages) : dataOf messages = [] := by
  obtain ⟨before, after, rfl, -, hafter, hfinished⟩ := h
  rw [hfinished rfl, List.nil_append]
  exact List.filter_eq_nil_iff.mpr fun m hm => by simp [hafter m hm]

end Closing

section Network

variable {n : Nat} {schedule : List Round} {w : World} {events : Nat → List (Event Nat Message)}

private theorem dataOf_append (a b : List Message) : dataOf (a ++ b) = dataOf a ++ dataOf b :=
  List.filter_append ..

theorem onSchedule_init (hwell : ∀ round ∈ schedule, round.WellFormed n) :
    OnSchedule n schedule .init fun _ => [] where
  ranks r _ :=
    ⟨List.nil_prefix, by simp [World.init, Rank.init], by simp [World.init, Rank.init],
      fun _ => rfl, .idle rfl rfl rfl⟩
  edges s d hs hd _ := by
    have hrounds : Matched s d [] (schedule.flatMap (Round.script n s))
        (schedule.flatMap (Round.script n d)) :=
      matched_flatMap fun round hround => script_matched hs hd (hwell round hround)
    exact hrounds
  signals := by simp [World.init]
  barriers := by simp [World.init, Rank.init]
  finished := by simp [World.init, Rank.init]
  closing s d _ _ _ := closing_open (by simp [World.init])

private theorem OnSchedule.surroundings (h : OnSchedule n schedule w events) {rank : Nat}
    (hrank : rank < n) :
    Surroundings n rank (w.ranks rank) (w.left n schedule events rank) where
  incoming s hs hne := by
    refine ⟨dataOf (w.channel s rank), w.left n schedule events s,
      h.edges s rank hs hrank hne, fun hclosed => ⟨?_, ?_⟩⟩
    · have hclosing := h.closing s rank hs hrank hne
      rw [hclosed] at hclosing
      exact hclosing.dataOf_eq
    · exact (h.ranks s hs).left_nil (h.finished s rank hs hrank hclosed)
  outgoing d hd hne :=
    ⟨w.pending rank d, w.left n schedule events d, h.edges rank d hrank hd (Ne.symm hne),
      fun hclosed => (h.ranks d hd).left_nil (h.finished d rank hd hrank hclosed)⟩

private theorem Advances.silent {rank : Nat} {x y : Rank} {current next : List (Event Nat Message)}
    {out : Outbox} (h : Advances n schedule rank x current y out next)
    (hx : OnScript n schedule rank x current) (hfinal : .finalize ∈ x.issued) {d : Nat}
    (hd : d < n) (hne : d ≠ rank) : ∀ m ∈ out.to d, m.isData = false := by
  have hcurrent : current = [] := hx.ended hfinal
  have hnext : next = [] := h.after.ended (h.issued ▸ hfinal)
  have hsent := h.sends d [] [] [] hd hne (by rw [hcurrent]; rfl)
  rw [hnext] at hsent
  have hnone : dataOf (out.to d) = [] := by simpa [Matched, sendsTo, receivesFrom] using hsent
  intro m hm
  simpa using List.filter_eq_nil_iff.mp hnone m hm

theorem OnSchedule.post (h : OnSchedule n schedule w events) {rank : Nat} (hrank : rank < n)
    {y : Rank} {out : Outbox} {next : List (Event Nat Message)}
    (hy : Advances n schedule rank (w.ranks rank) (events rank) y out next) :
    OnSchedule n schedule (w.post rank y out) (assign events rank next) := by
  have hissued (q : Nat) : ((w.post rank y out).ranks q).issued = (w.ranks q).issued := by
    by_cases hq : q = rank
    · rw [hq, post_ranks_self, hy.issued]
    · rw [post_ranks_ne _ _ _ _ hq]
  have hfinished (q : Nat) :
      ((w.post rank y out).ranks q).finishedProcesses = (w.ranks q).finishedProcesses := by
    by_cases hq : q = rank
    · rw [hq, post_ranks_self, hy.finished]
    · rw [post_ranks_ne _ _ _ _ hq]
  constructor
  · intro r hr
    by_cases hrr : r = rank
    · subst hrr
      simpa using hy.after
    · simpa [post_ranks_ne, assign_ne, hrr] using h.ranks r hr
  · intro s d hs hd hne
    have hedge := h.edges s d hs hd hne
    simp only [World.left, World.pending, hissued, post_channel] at hedge ⊢
    by_cases hsource : s = rank
    · subst hsource
      have hsent := hy.sends d _ _ _ hd (Ne.symm hne) hedge
      simpa [post_ranks_ne _ _ _ _ (Ne.symm hne), assign_ne _ _ _ _ (Ne.symm hne), dataOf_append]
        using hsent
    · by_cases hdest : d = rank
      · subst hdest
        have hreceived := hy.receives s _ _ _ hs hsource hedge
        simpa [hsource, assign_ne] using hreceived
      · simpa [post_ranks_ne, hsource, hdest, assign_ne] using hedge
  · intro s d hs m hm hnot
    rw [hissued]
    rw [post_channel] at hm
    split_ifs at hm with hsource
    · subst hsource
      rcases List.mem_append.mp hm with hm | hm
      · exact h.signals s d hs m hm hnot
      · exact hy.signals d m hm hnot
    · exact h.signals s d hs m hm hnot
  · intro s d hflag
    refine h.barriers s d ?_
    by_cases hd' : d = rank
    · subst hd'
      rw [post_ranks_self] at hflag
      exact hy.flags s hflag
    · rwa [post_ranks_ne _ _ _ _ hd'] at hflag
  · intro s d hs hd hflag
    rw [hfinished] at hflag
    rw [hissued]
    exact h.finished s d hs hd hflag
  · intro s d hs hd hne
    have hclosing := h.closing s d hs hd hne
    rw [hfinished, post_channel]
    split_ifs with hsource
    · subst hsource
      by_cases hfinal : .finalize ∈ (w.ranks s).issued
      · exact hclosing.append (hy.silent (h.ranks s hs) hfinal hd (Ne.symm hne))
      · have hopen : (w.ranks d).finishedProcesses s = false :=
          Bool.eq_false_iff.mpr fun hflag => hfinal (h.finished s d hs hd hflag)
        have hsignal (m : Message) (hm : ∃ c ∈ (w.ranks s).issued, c.Signals m.tag) :
            m.tag ≠ finishedTag := by
          obtain ⟨c, hc, hsignals⟩ := hm
          intro htag
          cases c <;> simp_all [Call.Signals, finishedTag, barrierTag]
        rw [hopen]
        refine closing_open fun m hm htag => ?_
        have hnot : m.isData = false := by simp [Message.isData, htag]
        rcases List.mem_append.mp hm with hm | hm
        · exact hsignal m (h.signals s d hs m hm hnot) htag
        · exact hsignal m (hy.signals d m hm hnot) htag
    · exact hclosing

theorem OnSchedule.call (h : OnSchedule n schedule w events) {rank : Nat} (hrank : rank < n)
    (hwell : ∀ round ∈ schedule, round.WellFormed n) (hidle : (w.ranks rank).thread = .idle)
    {c : Call} (hc : (allCalls schedule rank)[(w.ranks rank).issued.length]? = some c) :
    ∃ events', OnSchedule n schedule
      (w.post rank ((w.ranks rank).call ⟨n, false⟩ rank c) []) events' := by
  obtain ⟨next, hafter, hleft⟩ := (h.ranks rank hrank).call hrank hwell hidle hc
  refine ⟨assign events rank next, ?_⟩
  have hissued (q : Nat) : (w.ranks q).issued ⊆
      ((w.post rank ((w.ranks rank).call ⟨n, false⟩ rank c) []).ranks q).issued := by
    by_cases hq : q = rank
    · subst hq
      simp [Rank.call]
    · rw [post_ranks_ne _ _ _ _ hq]
      exact List.Subset.refl _
  have hsame (q : Nat) :
      (w.post rank ((w.ranks rank).call ⟨n, false⟩ rank c) []).left n schedule
        (assign events rank next) q = w.left n schedule events q := by
    by_cases hq : q = rank
    · subst hq
      simpa [World.left, Rank.call] using hleft
    · simp [World.left, post_ranks_ne, assign_ne, hq]
  have hvariables (q : Nat) :
      ((w.post rank ((w.ranks rank).call ⟨n, false⟩ rank c) []).ranks q).buffers =
          (w.ranks q).buffers ∧
        ((w.post rank ((w.ranks rank).call ⟨n, false⟩ rank c) []).ranks q).sendedBarrier =
          (w.ranks q).sendedBarrier ∧
        ((w.post rank ((w.ranks rank).call ⟨n, false⟩ rank c) []).ranks q).finishedProcesses =
          (w.ranks q).finishedProcesses := by
    by_cases hq : q = rank
    · subst hq
      simp [Rank.call]
    · simp [post_ranks_ne _ _ _ _ hq]
  constructor
  · intro r hr
    by_cases hrr : r = rank
    · subst hrr
      simpa using hafter
    · simpa [post_ranks_ne, assign_ne, hrr] using h.ranks r hr
  · intro s d hs hd hne
    rw [hsame, hsame, World.pending, post_channel_nil, (hvariables d).1]
    exact h.edges s d hs hd hne
  · intro s d hs m hm hnot
    rw [post_channel_nil] at hm
    obtain ⟨c', hc', hsignals⟩ := h.signals s d hs m hm hnot
    exact ⟨c', hissued s hc', hsignals⟩
  · intro s d hflag
    rw [(hvariables d).2.1] at hflag
    exact h.barriers s d hflag
  · intro s d hs hd hflag
    rw [(hvariables d).2.2] at hflag
    exact hissued s (h.finished s d hs hd hflag)
  · intro s d hs hd hne
    rw [(hvariables d).2.2, post_channel_nil]
    exact h.closing s d hs hd hne

/-- Without deadlock detection a receiver thread notes a closing or a barrier
message, and buffers all others. -/
private theorem receiveMessage_off (x : Rank) (i : Nat) (m : Message) :
    ((x.receiveMessage ⟨n, false⟩ i m).finishedProcesses =
        if m.tag = finishedTag then assign x.finishedProcesses i true else x.finishedProcesses) ∧
      ((x.receiveMessage ⟨n, false⟩ i m).sendedBarrier =
        if m.tag = barrierTag then assign x.sendedBarrier i true else x.sendedBarrier) ∧
      (x.receiveMessage ⟨n, false⟩ i m).buffers =
        if m.isData then assign x.buffers i (x.buffers i ++ [m]) else x.buffers := by
  by_cases hfinished : m.tag = finishedTag
  · simp [Rank.receiveMessage, hfinished, Message.isData, finishedTag, barrierTag]
  · by_cases hbarrier : m.tag = barrierTag
    · simp [Rank.receiveMessage, hbarrier, Message.isData, finishedTag, barrierTag]
    · simp [Rank.receiveMessage, hfinished, hbarrier, Message.isData]

private theorem receiveMessage_onScript {rank i : Nat} {x : Rank}
    {current : List (Event Nat Message)} {m : Message} (h : OnScript n schedule rank x current) :
    OnScript n schedule rank ((x.receiveMessage ⟨n, false⟩ i m).endTurn i) current := by
  have hthread := receiveMessage_thread ⟨n, false⟩ x i m
  have hissued := receiveMessage_issued ⟨n, false⟩ x i m
  have hresults := receiveMessage_results ⟨n, false⟩ x i m
  refine ⟨hissued ▸ h.issued, ?_, hresults ▸ h.results, hissued ▸ h.ended, ?_⟩
  · intro s m' hm'
    rw [Rank.endTurn, (receiveMessage_off x i m).2.2] at hm'
    split_ifs at hm' with hdata
    · by_cases hs : s = i
      · subst hs
        rw [assign_self] at hm'
        rcases List.mem_append.mp hm' with hm' | hm'
        · exact h.buffers s m' hm'
        · rw [List.mem_singleton.mp hm']
          exact hdata
      · rw [assign_ne _ _ _ _ hs] at hm'
        exact h.buffers s m' hm'
    · exact h.buffers s m' hm'
  · cases h.progress with
    | idle ht hcount hevents =>
        exact .idle (hthread.trans ht) (by rw [hissued, hresults, hcount]) hevents
    | busy c hlast hcount hfollows =>
        exact .busy c (by rw [hissued, hresults, hlast]) (by rw [hissued, hresults, hcount])
          (by rw [hthread, hresults]; exact hfollows)

theorem OnSchedule.take (h : OnSchedule n schedule w events) {source destination : Nat}
    {m : Message} {rest : List Message} (hsource : source < n) (hdestination : destination < n)
    (hne : source ≠ destination) (hchannel : w.channel source destination = m :: rest) :
    OnSchedule n schedule (w.take ⟨n, false⟩ source destination m rest) events := by
  obtain ⟨hfinished, hbarrier, hbuffers⟩ :=
    receiveMessage_off (n := n) (w.ranks destination) source m
  have hissued (q : Nat) : ((w.take ⟨n, false⟩ source destination m rest).ranks q).issued =
      (w.ranks q).issued := by
    by_cases hq : q = destination
    · rw [hq, take_ranks_self, receiveMessage_issued]
    · rw [take_ranks_ne hq]
  have hsignal (hnot : m.isData = false) : ∃ c ∈ (w.ranks source).issued, c.Signals m.tag :=
    h.signals source destination hsource m (by simp [hchannel]) hnot
  constructor
  · intro r hr
    by_cases heq : r = destination
    · subst heq
      simpa using receiveMessage_onScript (h.ranks r hr)
    · simpa [take_ranks_ne, heq] using h.ranks r hr
  · intro s d hs hd hsd
    have hedge := h.edges s d hs hd hsd
    have hpending : (w.take ⟨n, false⟩ source destination m rest).pending s d = w.pending s d := by
      simp only [World.pending, take_channel]
      by_cases heq : d = destination
      · subst heq
        rw [take_ranks_self, Rank.endTurn, hbuffers]
        by_cases hs' : s = source
        · subst hs'
          rw [if_pos (show s = s ∧ d = d from ⟨rfl, rfl⟩), hchannel]
          by_cases hdata : m.isData <;> simp [dataOf, hdata]
        · rw [if_neg (show ¬ (s = source ∧ d = d) from fun heq => hs' heq.1)]
          split_ifs with hdata
          · rw [assign_ne _ _ _ _ hs']
          · rfl
      · rw [take_ranks_ne heq, if_neg (fun hsd => heq hsd.2)]
    simpa only [World.left, hissued, hpending] using hedge
  · intro s d hs m' hm' hnot
    rw [hissued]
    rw [take_channel] at hm'
    split_ifs at hm' with heq
    · refine h.signals s d hs m' ?_ hnot
      rw [heq.1, heq.2, hchannel]
      exact List.mem_cons_of_mem m hm'
    · exact h.signals s d hs m' hm' hnot
  · intro s d hflag
    by_cases heq : d = destination
    · subst heq
      rw [take_ranks_self, Rank.endTurn, hbarrier] at hflag
      by_cases htag : m.tag = barrierTag
      · obtain ⟨c, hc, hsignals⟩ := hsignal (by simp [Message.isData, htag])
        rw [htag] at hsignals
        cases c with
        | barrier => exact (h.ranks source hsource).barrier_mem hc
        | finalize => cases hsignals
        | _ => cases hsignals
      · rw [if_neg htag] at hflag
        exact h.barriers s d hflag
    · rw [take_ranks_ne heq] at hflag
      exact h.barriers s d hflag
  · intro s d hs hd hflag
    rw [hissued]
    by_cases heq : d = destination
    · subst heq
      rw [take_ranks_self, Rank.endTurn, hfinished] at hflag
      by_cases hnew : m.tag = finishedTag ∧ s = source
      · obtain ⟨htag, rfl⟩ := hnew
        obtain ⟨c, hc, hsignals⟩ := hsignal (by simp [Message.isData, htag])
        cases c <;> simp_all [Call.Signals, finishedTag, barrierTag]
      · refine h.finished s d hs hd ?_
        split_ifs at hflag with htag
        · rwa [assign_ne _ _ _ _ fun hs' => hnew ⟨htag, hs'⟩] at hflag
        · exact hflag
    · rw [take_ranks_ne heq] at hflag
      exact h.finished s d hs hd hflag
  · intro s d hs hd hsd
    have hclosing := h.closing s d hs hd hsd
    rw [take_channel]
    by_cases heq : d = destination
    · subst heq
      rw [take_ranks_self, Rank.endTurn, hfinished]
      by_cases hs' : s = source
      · subst hs'
        rw [hchannel] at hclosing
        have htail := hclosing.tail
        rw [if_pos (show s = s ∧ d = d from ⟨rfl, rfl⟩)]
        split_ifs at htail ⊢ with htag
        · simpa using htail
        · exact htail
      · rw [if_neg (show ¬ (s = source ∧ d = d) from fun heq => hs' heq.1)]
        split_ifs
        · rw [assign_ne _ _ _ _ hs']
          exact hclosing
        · exact hclosing
    · rw [take_ranks_ne heq, if_neg (fun hsd => heq hsd.2)]
      exact hclosing

end Network

/-! ## Runs -/

/-- No receive of data is about to find a noted barrier message. -/
def DataUndisturbed (w : World) : Action → Prop
  | .step r => ∀ receive ∈ (w.ranks r).thread.awaiting, receive.2 ≠ barrierTag →
      (w.ranks r).sendedBarrier receive.1 = false
  | .call _ _ | .deliver _ _ => True

instance {w : World} : (a : Action) → Decidable (DataUndisturbed w a)
  | .step r => inferInstanceAs (Decidable (∀ receive ∈ (w.ranks r).thread.awaiting,
      receive.2 ≠ barrierTag → (w.ranks r).sendedBarrier receive.1 = false))
  | .call _ _ | .deliver _ _ => isTrue trivial

/-- Steps of a world in which every rank makes the calls of the schedule, in order. -/
def collectiveStep (cfg : Config) (schedule : List Round) (w : World) : Action → Option World
  | .call rank c =>
      if (allCalls schedule rank)[(w.ranks rank).issued.length]? = some c then
        worldStep cfg w (.call rank c)
      else none
  | action => worldStep cfg w action

section Runs

variable {n : Nat} {schedule : List Round}

theorem onSchedule_step {w w' : World} {a : Action}
    (hwell : ∀ round ∈ schedule, round.WellFormed n)
    (h : ∃ events, OnSchedule n schedule w events) (hguard : DataUndisturbed w a)
    (hstep : collectiveStep ⟨n, false⟩ schedule w a = some w') :
    ∃ events, OnSchedule n schedule w' events := by
  obtain ⟨events, h⟩ := h
  have hworld : worldStep ⟨n, false⟩ w a = some w' := by
    cases a with
    | call rank c =>
        simp only [collectiveStep] at hstep
        split_ifs at hstep
        exact hstep
    | step rank => exact hstep
    | deliver source destination => exact hstep
  cases worldStep_cases hworld with
  | call rank c hrank hidle hfinal =>
      simp only [collectiveStep] at hstep
      split_ifs at hstep with hc
      exact h.call hrank hwell hidle hc
  | step rank x out hrank hx =>
      obtain ⟨next, hnext⟩ :=
        (h.ranks rank hrank).step (h.surroundings hrank) hguard hx
      exact ⟨_, h.post hrank hnext⟩
  | deliver source destination m rest hsource hdestination hne hfree hchannel =>
      exact ⟨events, h.take hsource hdestination hne hchannel⟩

end Runs

end Mimuw.Mimpi
