import Mimuw.Mimpi.Deadlock

/-!
# Receives from a rank that has finished

A receive gives up on a finished peer by the number of messages that are left in the
list, not by the search it has just made.
-/

namespace Mimuw.Mimpi

open Mimuw.Lib

/-- A receive is about to test, its peer has finished, and nothing in the list matches. -/
def Rank.Abandoned (x : Rank) (count source : Nat) (tag : Int) : Prop :=
  x.thread.receive = some (count, source, tag) ∧ x.finishedProcesses source = true ∧
    extract count tag (x.buffers source) = none

instance (x : Rank) (count source : Nat) (tag : Int) : Decidable (x.Abandoned count source tag) :=
  inferInstanceAs (Decidable (_ ∧ _ ∧ _))

/-- Every such receive returns `MIMPI_ERROR_REMOTE_FINISHED`, whatever comes after it. -/
def ReturnsFinished (cfg : Config) (w : World) : Prop :=
  ∀ rank count source tag, (w.ranks rank).Abandoned count source tag →
    ∀ next, ((w.ranks rank).test cfg rank count source tag next).1.thread =
      .run (next .remoteFinished none)

/-- The finished peers of these receives have left no message in the list, and no word
of a barrier. -/
def NothingLeft (w : World) : Prop :=
  ∀ rank count source tag, (w.ranks rank).Abandoned count source tag →
    (w.ranks rank).buffers source = [] ∧ (w.ranks rank).sendedBarrier source = false

private theorem test_abandoned_iff {cfg : Config} (hoff : cfg.deadlockDetection = false)
    {rank : Nat} {x : Rank} {count source : Nat} {tag : Int} (h : x.Abandoned count source tag) :
    (∀ next, (x.test cfg rank count source tag next).1.thread = .run (next .remoteFinished none)) ↔
      x.buffers source = [] ∧ x.sendedBarrier source = false := by
  obtain ⟨-, hfinished, hnone⟩ := h
  constructor
  · intro hreturns
    have hret := hreturns fun code _ => .ret code []
    unfold Rank.test at hret
    split at hret
    · simp at hret
    · rename_i hbarrier
      simp only [hnone, hoff, hfinished, Bool.false_eq_true, false_and, if_false, true_and,
        List.length_eq_zero_iff] at hret
      split at hret
      · rename_i hempty
        exact ⟨hempty, by simpa using hbarrier⟩
      · cases hret
  · rintro ⟨hempty, hbarrier⟩ next
    simp [Rank.test, hbarrier, hoff, hfinished, hempty, extract]

private theorem returnsFinished_iff {cfg : Config} (hoff : cfg.deadlockDetection = false)
    (w : World) :
    ReturnsFinished cfg w ↔ NothingLeft w :=
  forall_congr' fun _ => forall_congr' fun _ => forall_congr' fun _ => forall_congr' fun _ =>
    forall_congr' fun h => test_abandoned_iff hoff h

/-- Without deadlock detection, in a run of any ranks that exchange anything, the receives
from finished ranks return as they should in every state reached if and only if in every
such state the finished ranks have left nothing behind. -/
theorem finished_returns_iff {cfg : Config} (hoff : cfg.deadlockDetection = false)
    (actions : List Action) :
    (∀ before w, before <+: actions → run (worldStep cfg) .init before = some w →
        ReturnsFinished cfg w) ↔
      ∀ before w, before <+: actions → run (worldStep cfg) .init before = some w →
        NothingLeft w := by
  constructor
  · intro h before w hbefore hrun
    exact (returnsFinished_iff hoff w).mp (h before w hbefore hrun)
  · intro h before w hbefore hrun
    exact (returnsFinished_iff hoff w).mpr (h before w hbefore hrun)

/-- Rank 1 sends a message that rank 0 does not ask for, and finishes. -/
def leftover : List Action :=
  [.call 1 (.send [7] 0 5), .step 1, .step 1, .call 1 .finalize, .step 1, .step 1, .step 1,
    .deliver 1 0, .deliver 1 0, .call 0 (.recv 1 1 9), .step 0]

private theorem abandoned_leftover : ∃ w ∈ run (worldStep ⟨2, false⟩) .init leftover,
    (w.ranks 0).Abandoned 1 1 9 ∧ (w.ranks 0).buffers 1 ≠ [] := by
  decide +kernel

theorem finished_returns_leftover : ¬ ∀ before w, before <+: leftover →
    run (worldStep ⟨2, false⟩) .init before = some w → ReturnsFinished ⟨2, false⟩ w := by
  intro h
  obtain ⟨w, hw, habandoned, hleft⟩ := abandoned_leftover
  have hoff : Config.deadlockDetection ⟨2, false⟩ = false := rfl
  have hnothing := (finished_returns_iff hoff leftover).mp h
  exact hleft (hnothing leftover w List.prefix_rfl hw 0 1 1 9 habandoned).1

theorem finished_waits : ¬ ∀ actions w, run (worldStep ⟨2, false⟩) .init actions = some w →
    ReturnsFinished ⟨2, false⟩ w := by
  intro h
  obtain ⟨w, hw, habandoned, hleft⟩ := abandoned_leftover
  exact hleft ((test_abandoned_iff rfl habandoned).mp (h leftover w hw 0 1 1 9 habandoned)).1

end Mimuw.Mimpi
