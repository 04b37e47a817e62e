import Mimuw.Cards.TurnHandlers

/-!
# The order of the turns

In every run of the server the handlers move as one table does.
-/

namespace Mimuw.Cards

open Mimuw.Lib
open Turns

/-! ## Every run -/

/-- A trick holds what was appended to it. -/
def Server.Recorded (s : Server) : Prop :=
  ∀ j i deal, s.deals[j]? = some deal →
    (deal.tricks i).cardsString = ((s.appended j i).map Prod.snd).flatten

private theorem deal_of_setTrick {s : Server} {j j' i : Nat} {trick : Trick} {deal deal' : Deal}
    (hdeal : s.deals[j]? = some deal) (h : (s.setTrick j i trick).deals[j']? = some deal') :
    j' = j ∧ deal' = deal.setTrick i trick ∨ j' ≠ j ∧ s.deals[j']? = some deal' := by
  rw [Server.setTrick, List.getElem?_modify] at h
  rcases eq_or_ne j' j with rfl | hne
  · simp [hdeal] at h
    exact .inl ⟨rfl, h.symm⟩
  · simp [hne.symm] at h
    exact .inr ⟨hne, h⟩

private theorem recorded_step {s s' : Server} {event : ServerEvent} (h : s.Recorded)
    (hstep : serverStep s event = some s') : s'.Recorded := by
  have hsame : s'.deals = s.deals → s'.appended = s.appended → s'.Recorded := by
    intro hdeals happended j i deal hdeal
    rw [hdeals] at hdeal
    rw [happended]
    exact h j i deal hdeal
  rcases serverStep_tricks hstep with ⟨hdeals, happended⟩ |
    ⟨k, io, t, deal, trick, text, cards, -, -, -, -, -, hdeal, htrick, rfl⟩ |
    ⟨k, t, deal, winner, hdeal, rfl⟩
  · exact hsame hdeals happended
  · have hcards : trick.cardsString = (deal.tricks t.i).cardsString ++ cards := by
      simp only [Trick.addCardToCards, Option.bind_eq_bind, Option.bind_eq_some_iff,
        Option.pure_def, Option.some.injEq] at htrick
      obtain ⟨_, -, _, -, rfl⟩ := htrick
      rfl
    intro j i deal' hdeal'
    change _ = ((Function.update s.appended t.j _ j i).map Prod.snd).flatten
    rcases deal_of_setTrick hdeal hdeal' with ⟨rfl, rfl⟩ | ⟨hne, hdeal''⟩
    · rw [Function.update_self]
      rcases eq_or_ne i t.i with rfl | hi
      · have hold := h t.j t.i deal hdeal
        simp only [Deal.setTrick, Function.update_self, hcards, hold]
        simp [Server.setTrick]
      · have hold := h t.j i deal hdeal
        simp only [Deal.setTrick, Function.update_of_ne hi, hold]
        simp [Server.setTrick]
    · rw [Function.update_of_ne hne]
      exact h j i deal' hdeal''
  · intro j i deal' hdeal'
    change _ = ((s.appended j i).map Prod.snd).flatten
    rcases deal_of_setTrick hdeal hdeal' with ⟨rfl, rfl⟩ | ⟨hne, hdeal''⟩
    · rcases eq_or_ne i t.i with rfl | hi
      · have hold := h t.j t.i deal hdeal
        simpa [Deal.setTrick, Trick.setWinningPlayer] using hold
      · have hold := h t.j i deal hdeal
        simpa [Deal.setTrick, hi] using hold
    · exact h j i deal' hdeal''

private theorem loadDeal_tricks (dealType : Nat) (lead : Char) (hands : Seat → Str) :
    (loadDeal dealType lead hands).tricks = fun _ => .new := by
  have hfold : ∀ (seats : List Seat) (deal : Deal), deal.tricks = (fun _ => Trick.new) →
      (seats.foldl (fun deal p => deal.addPlayerCards p (hands p)) deal).tricks =
        fun _ => .new := by
    intro seats
    induction seats with
    | nil => exact fun _ h => h
    | cons p seats ih => exact fun deal h => ih _ h
  exact hfold _ _ rfl

section Game

variable (game : List (Nat × Char × (Seat → Str)))

private theorem recorded_start : (Server.start (loadGame game)).Recorded := by
  intro j i deal hdeal
  obtain ⟨⟨dealType, lead, hands⟩, -, rfl⟩ := List.mem_map.mp (List.mem_of_getElem? hdeal)
  simp only [loadDeal_tricks]
  rfl

private theorem refines_start (deals : List Deal) :
    Refines (deals.map Deal.leadPlayer) (.start deals) .start := by
  have hnone {t : Thread} (ht : t ∈ (Server.start deals).clientThreads) : False := by
    cases ht
  refine ⟨rfl, rfl, rfl, ?_, ?_, ?_, ?_, ?_, ?_, ?_, ?_⟩
  · exact fun _ _ => rfl
  · exact fun _ => rfl
  · intro b
    simp [Server.start, Table.start]
  · exact fun _ => rfl
  · exact fun _ ht => (hnone ht).elim
  · exact fun _ _ _ _ ht => (hnone (List.mem_of_getElem? ht)).elim
  · exact fun _ ht => (hnone ht).elim
  · intro p
    refine .inr ⟨fun _ ht => (hnone ht).elim, .new, .inl ⟨fun _ ht => (hnone ht).elim, rfl⟩, ?_⟩
    simp [Reentry, GameState.new, Table.start]

private theorem refines_step {leads : List Char} {s s' : Server} {event : ServerEvent}
    (h : ∃ a, Refines leads s a ∧ a.Inv (leadOf leads) leads.length) (hkeeps : s.keeps event)
    (hstep : serverStep s event = some s') :
    ∃ a, Refines leads s' a ∧ a.Inv (leadOf leads) leads.length := by
  obtain ⟨a, hrefines, hinv⟩ := h
  unfold serverStep at hstep
  split at hstep
  · cases hstep
  · cases event with
    | accept clientSocket io => exact ⟨a, hrefines.accept hstep, hinv⟩
    | handler k io =>
        obtain ⟨t, hk, hstep⟩ := Option.bind_eq_some_iff.mp hstep
        obtain ⟨a', hmove, hrefines'⟩ := hrefines.handler hinv hk hkeeps hstep
        cases hmove with
        | refl => exact ⟨a, hrefines', hinv⟩
        | single hone => exact ⟨a', hrefines', hinv.step hone⟩

private theorem inTurn_of_refines {leads : List Char} {s : Server} {a : Table}
    (h : Refines leads s a)
    (hinv : a.Inv (leadOf leads) leads.length) (hrecorded : s.Recorded) : s.InTurn := by
  refine ⟨fun p => ?_, hrecorded, fun j i deal hdeal => ?_, fun t ht hpc deal hdeal => ?_⟩
  · have howed := hinv.owed_le p
    rw [Table.owed] at howed
    rw [h.permits]
    omega
  · rw [h.appended, ← h.leadOf_eq hdeal]
    exact hinv.inOrder j i
  · obtain ⟨k, hk⟩ := List.mem_iff_getElem?.mp ht
    have hat := (h.at hk (by simp [Thread.running, hpc])).1
    simp only [Thread.At, hpc] at hat
    have hround := hinv.round
    rw [hat.2.1] at hround
    rw [h.appended, ← h.leadOf_eq hdeal]
    exact hround.2

theorem refines_run {events : List ServerEvent} {s : Server}
    (hkeeps : Meets serverStep (fun s event => s.keeps event) (.start (loadGame game)) events)
    (hrun : run serverStep (.start (loadGame game)) events = some s) :
    ∃ leads a, Refines leads s a ∧ a.Inv (leadOf leads) leads.length :=
  ⟨_, guarded_run_invariant (fun _ _ _ => refines_step) ⟨_, refines_start _, Table.Inv.start⟩ hkeeps
    hrun⟩

/-- The turns are kept in every run in which no TAKEN before the last of a deal fails,
no answer to TRICK makes the server close the connection, and no handler begins
before the one it follows has stored its deal. -/
theorem turns_kept (events : List ServerEvent) (s : Server)
    (hkeeps : Meets serverStep (fun s event => s.keeps event) (.start (loadGame game)) events)
    (hrun : run serverStep (.start (loadGame game)) events = some s) : s.InTurn := by
  obtain ⟨leads, a, hrefines, hinv⟩ := refines_run game hkeeps hrun
  have hrecorded := run_invariant (fun _ _ _ => recorded_step) (recorded_start game) hrun
  exact inTurn_of_refines hrefines hinv hrecorded

end Game

/-! ## A first trick -/

def moves (k : Nat) (value : Char) (steps : Nat) : List ServerEvent :=
  List.replicate steps
    (.handler k ⟨.done, .message ['T', 'R', 'I', 'C', 'K', '1', value, 'C']⟩)

def firstTrick : List ServerEvent :=
  [ServerEvent.accept 4 ⟨.done, .message ['I', 'A', 'M', 'N']⟩,
    .accept 5 ⟨.done, .message ['I', 'A', 'M', 'E']⟩,
    .accept 6 ⟨.done, .message ['I', 'A', 'M', 'S']⟩,
    .accept 7 ⟨.done, .message ['I', 'A', 'M', 'W']⟩] ++
  moves 0 '2' 3 ++ moves 1 '3' 3 ++ moves 2 '4' 3 ++ moves 3 '5' 3 ++
  moves 0 '2' 6 ++ moves 1 '3' 5 ++ moves 2 '4' 5 ++ moves 3 '5' 5 ++
  moves 0 '2' 8 ++ moves 1 '3' 8 ++ moves 2 '4' 8 ++ moves 3 '5' 8

def oneDeal : List (Nat × Char × (Seat → Str)) := [(1, 'N', fun _ => [])]

theorem turns_kept_firstTrick :
    ∃ s, run serverStep (.start (loadGame oneDeal)) firstTrick = some s ∧ s.InTurn := by
  have hsome : (run serverStep (.start (loadGame oneDeal)) firstTrick).isSome := by
    decide +kernel
  obtain ⟨s, hs⟩ := Option.isSome_iff_exists.mp hsome
  exact ⟨s, hs, turns_kept oneDeal firstTrick s (by decide +kernel) hs⟩

/-- TAKEN finds north gone: its semaphore, which is available again for the next
trick, is released once more. -/
theorem turns_lost : ¬ ∀ events s,
    run serverStep (.start (loadGame oneDeal)) events = some s → s.InTurn := by
  intro h
  set events := firstTrick ++ List.replicate 6 (ServerEvent.handler 0 ⟨.gone, .timeout⟩)
  have hsome : (run serverStep (.start (loadGame oneDeal)) events).isSome := by decide +kernel
  have htwice : ∀ s ∈ run serverStep (.start (loadGame oneDeal)) events,
      s.playerSemaphores 0 = 2 := by
    decide +kernel
  obtain ⟨s, hs⟩ := Option.isSome_iff_exists.mp hsome
  have hpermits := (h events s hs).permits 0
  rw [htwice s hs] at hpermits
  omega

end Mimuw.Cards
