import Mimuw.Mimpi.Determinacy

/-!
# Broadcasts

A receive of `MIMPI_Bcast` can take a barrier message of the next round for the
data it waits for.  In runs where that does not happen every broadcast delivers
the bytes of its root.
-/

namespace Mimuw.Mimpi

open Mimuw.Lib

/-- In every run of collective calls without deadlock detection, as long as no
receive of data finds a noted barrier message. -/
theorem bcast_delivers (n : Nat) (schedule : List Round)
    (hwell : ∀ round ∈ schedule, round.WellFormed n) (actions : List Action) (w : World)
    (h : run (collectiveStep ⟨n, false⟩ schedule) .init actions = some w)
    (hmeets : Meets (collectiveStep ⟨n, false⟩ schedule) DataUndisturbed .init actions)
    (k root : Nat) (data : Nat → List UInt8) (hround : schedule[k]? = some (.bcast data root))
    (r : Nat) (hr : r < n) (buffer : List UInt8)
    (hreturned : (w.ranks r).results[k]? = some (.success, buffer)) :
    buffer = data root := by
  have hinv : ∃ events, OnSchedule n schedule w events :=
    guarded_run_invariant (fun _ _ _ => onSchedule_step hwell)
      ⟨_, onSchedule_init hwell⟩ hmeets h
  obtain ⟨events, hschedule⟩ := hinv
  have hanswer := (hschedule.ranks r hr).results k _ hreturned _ hround
  exact (Prod.mk.inj hanswer).2

/-- Rank 1 sends one byte to rank 0, and then both meet at a barrier. -/
def bcastThenBarrier : List Round :=
  [.bcast (fun rank => if rank = 1 then [7] else [5]) 1, .barrier]

/-- Rank 0 receives the byte before rank 1 comes to the barrier. -/
def bcastFirst : List Action :=
  [.call 1 (.bcast [7] 1), .step 1, .step 1, .call 0 (.bcast [5] 1), .deliver 1 0, .step 0,
    .step 0, .step 0]

private theorem bcastThenBarrier_wellFormed : ∀ round ∈ bcastThenBarrier, round.WellFormed 2 := by
  intro round hround
  rcases List.mem_cons.mp hround with rfl | hround
  · refine ⟨by decide, fun r _ => ?_⟩
    dsimp only
    split_ifs <;> rfl
  · rw [List.mem_singleton.mp hround]
    trivial

theorem bcast_delivers_byte :
    ∃ w buffer, run (collectiveStep ⟨2, false⟩ bcastThenBarrier) .init bcastFirst = some w ∧
      (w.ranks 0).results[0]? = some (.success, buffer) ∧ buffer = [7] :=
  ⟨_, _, rfl, rfl, bcast_delivers 2 bcastThenBarrier bcastThenBarrier_wellFormed bcastFirst _ rfl
    (by decide) 0 1 _ rfl 0 (by decide) _ rfl⟩

/-- Rank 1 goes on to the barrier, and both messages reach rank 0 before it
receives. -/
def barrierFirst : List Action :=
  [.call 1 (.bcast [7] 1), .step 1, .step 1, .call 1 .barrier, .step 1, .deliver 1 0,
    .deliver 1 0, .call 0 (.bcast [5] 1), .step 0, .step 0, .step 0]

/-- The broadcast of rank 0 returns the byte it passed in itself. -/
theorem bcast_takes_barrier :
    ∃ w buffer, run (collectiveStep ⟨2, false⟩ bcastThenBarrier) .init barrierFirst = some w ∧
      (w.ranks 0).results[0]? = some (.success, buffer) ∧ buffer ≠ [7] :=
  ⟨_, _, rfl, rfl, by decide⟩

end Mimuw.Mimpi
