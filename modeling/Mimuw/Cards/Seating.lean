import Mimuw.Lib.Runs
import Mimuw.Cards.Common

/-!
# Seats and sockets

The server says twice who is at the table: a seat is marked by its position, and
the socket of its client is in the first entry of `client_sockets` that was free.
A disconnection clears the entry with the number of the seat.
-/

namespace Mimuw.Cards

open Mimuw.Lib

structure Seating where
  seatOccupied : Seat → Bool
  /-- `none` stands for -1. -/
  clientSockets : Fin 4 → Option Nat
  /-- the socket and the position of each running `client_handler` -/
  clientThreads : List (Nat × Seat)

namespace Seating

def start : Seating := ⟨fun _ => false, fun _ => none, []⟩

def setSeat (s : Seating) (seat : Seat) (isOccupied : Bool) : Seating :=
  { s with seatOccupied := Function.update s.seatOccupied seat isOccupied }

def setSocket (s : Seating) (entry : Fin 4) (socket : Option Nat) : Seating :=
  { s with clientSockets := Function.update s.clientSockets entry socket }

end Seating

/-! ## Connections -/

inductive Iam where
  /-- not an IAM message -/
  | ignored
  | busy (answer : Str)
  | seated (seat : Seat)
  deriving DecidableEq, Repr

/-- Without the end of the line -/
def busyMessage (seatOccupied : Seat → Bool) : Str :=
  ['B', 'U', 'S', 'Y'] ++ ((List.finRange 4).filter seatOccupied).map indexToChar

def receiveIamMessage (seatOccupied : Seat → Bool) (message : Str) : Iam :=
  match message with
  | ['I', 'A', 'M', position] =>
      match charToIndex position with
      | none => .busy (busyMessage seatOccupied)
      | some seat => if seatOccupied seat then .busy (busyMessage seatOccupied) else .seated seat
  | _ => .ignored

/-- `std::find(client_sockets.begin(), client_sockets.end(), -1)` -/
def findFree (clientSockets : Fin 4 → Option Nat) : Option (Fin 4) :=
  (List.finRange 4).find? fun entry => clientSockets entry = none

/-- One round of `accept_clients`.  Without a free entry the socket is neither kept
nor closed, and the seat stays taken. -/
def acceptClient (s : Seating) (clientSocket : Nat) (message : Str) : Seating :=
  match receiveIamMessage s.seatOccupied message with
  | .seated seat =>
      let s := s.setSeat seat true
      match findFree s.clientSockets with
      | some pos =>
          { s.setSocket pos (some clientSocket) with
            clientThreads := (clientSocket, seat) :: s.clientThreads }
      | none => s
  | _ => s

/-! ## Disconnections -/

/-- What a `client_handler` that lost its client does before it returns. -/
def leave (s : Seating) (clientPosition : Seat) : Seating :=
  (s.setSeat clientPosition false).setSocket clientPosition none

inductive SeatingEvent where
  | connect (clientSocket : Nat) (message : Str)
  | disconnect (clientSocket : Nat) (clientPosition : Seat)
  deriving DecidableEq, Repr

def seatingStep (s : Seating) : SeatingEvent → Option Seating
  | .connect clientSocket message => some (acceptClient s clientSocket message)
  | .disconnect clientSocket clientPosition =>
      if (clientSocket, clientPosition) ∈ s.clientThreads then
        some { leave s clientPosition with
          clientThreads := s.clientThreads.erase (clientSocket, clientPosition) }
      else none

/-! ## The two tables -/

namespace Seating

def freeEntries (s : Seating) : Nat := (Finset.univ.filter fun k => s.clientSockets k = none).card

def freeSeats (s : Seating) : Nat := (Finset.univ.filter fun p => s.seatOccupied p = false).card

/-- The tables count the same, and whoever gets a seat gets a handler. -/
structure InStep (s : Seating) : Prop where
  count : s.freeEntries = s.freeSeats
  handled : ∀ clientSocket message seat, receiveIamMessage s.seatOccupied message = .seated seat →
    (acceptClient s clientSocket message).clientThreads = (clientSocket, seat) :: s.clientThreads

/-- A client that leaves has an entry to clear. -/
def Clears (s : Seating) : SeatingEvent → Prop
  | .connect _ _ => True
  | .disconnect clientSocket clientPosition =>
      (clientSocket, clientPosition) ∈ s.clientThreads → s.clientSockets clientPosition ≠ none

/-- A handler runs only for an occupied seat, and at most one for each. -/
structure WellHandled (s : Seating) : Prop where
  occupied : ∀ thread ∈ s.clientThreads, s.seatOccupied thread.2 = true
  distinct : (s.clientThreads.map Prod.snd).Nodup

end Seating

section Counting

variable {β : Type*} (P : β → Prop) [DecidablePred P]

private theorem card_update (f : Fin 4 → β) (k : Fin 4) (v : β) :
    (Finset.univ.filter fun i => P (Function.update f k v i)).card + (if P (f k) then 1 else 0) =
      (Finset.univ.filter fun i => P (f i)).card + if P v then 1 else 0 := by
  have hrest : ∀ i ∈ Finset.univ.erase k,
      (if P (Function.update f k v i) then 1 else 0) = if P (f i) then 1 else 0 := by
    intro i hi
    rw [Function.update_of_ne (Finset.ne_of_mem_erase hi)]
  rw [Finset.card_filter, Finset.card_filter, ← Finset.add_sum_erase _ _ (Finset.mem_univ k),
    ← Finset.add_sum_erase _ (fun i => if P (f i) then 1 else 0) (Finset.mem_univ k),
    Finset.sum_congr rfl hrest, Function.update_self]
  omega

end Counting

namespace Seating

variable {s s' : Seating}

private theorem freeSeats_setSeat (s : Seating) (seat : Seat) (isOccupied : Bool) :
    (s.setSeat seat isOccupied).freeSeats + (if s.seatOccupied seat = false then 1 else 0) =
      s.freeSeats + if isOccupied = false then 1 else 0 :=
  card_update (· = false) s.seatOccupied seat isOccupied

private theorem freeEntries_setSocket (s : Seating) (entry : Fin 4) (socket : Option Nat) :
    (s.setSocket entry socket).freeEntries + (if s.clientSockets entry = none then 1 else 0) =
      s.freeEntries + if socket = none then 1 else 0 :=
  card_update (· = none) s.clientSockets entry socket

private theorem freeSeats_pos {seat : Seat} (h : s.seatOccupied seat = false) : 0 < s.freeSeats :=
  Finset.card_pos.mpr ⟨seat, by simpa using h⟩

end Seating

private theorem findFree_eq_some {clientSockets : Fin 4 → Option Nat} {pos : Fin 4}
    (h : findFree clientSockets = some pos) : clientSockets pos = none := by
  simpa using List.find?_some h

private theorem freeEntries_of_findFree {s : Seating} (h : findFree s.clientSockets = none) :
    s.freeEntries = 0 := by
  rw [Seating.freeEntries, Finset.card_eq_zero, Finset.filter_eq_empty_iff]
  intro k _
  simpa using List.find?_eq_none.mp h k (List.mem_finRange k)

theorem seated_free {seatOccupied : Seat → Bool} {message : Str} {seat : Seat}
    (h : receiveIamMessage seatOccupied message = .seated seat) : seatOccupied seat = false := by
  unfold receiveIamMessage at h
  split at h
  · split at h
    · cases h
    · split at h
      · cases h
      · rename_i hfree
        cases h
        simpa using hfree
  · cases h

/-- What a connection does: nothing, or it takes a free seat, with an entry or
without one. -/
private theorem acceptClient_cases (s : Seating) (clientSocket : Nat) (message : Str) :
    (∀ seat, receiveIamMessage s.seatOccupied message ≠ .seated seat) ∧
        acceptClient s clientSocket message = s ∨
      ∃ seat, receiveIamMessage s.seatOccupied message = .seated seat ∧
        ((∃ pos, s.clientSockets pos = none ∧ acceptClient s clientSocket message =
            { (s.setSeat seat true).setSocket pos (some clientSocket) with
              clientThreads := (clientSocket, seat) :: s.clientThreads }) ∨
          s.freeEntries = 0 ∧ acceptClient s clientSocket message = s.setSeat seat true) := by
  cases hiam : receiveIamMessage s.seatOccupied message with
  | ignored => exact .inl ⟨nofun, by simp [acceptClient, hiam]⟩
  | busy answer => exact .inl ⟨nofun, by simp [acceptClient, hiam]⟩
  | seated seat =>
      refine .inr ⟨seat, rfl, ?_⟩
      cases hfind : findFree (s.setSeat seat true).clientSockets with
      | some pos =>
          exact .inl ⟨pos, findFree_eq_some hfind, by simp [acceptClient, hiam, hfind]; rfl⟩
      | none => exact .inr ⟨freeEntries_of_findFree hfind, by simp [acceptClient, hiam, hfind]⟩

private theorem inStep_of_count {s : Seating} (hcount : s.freeEntries = s.freeSeats) :
    s.InStep := by
  refine ⟨hcount, fun clientSocket message seat hiam => ?_⟩
  rcases acceptClient_cases s clientSocket message with ⟨hnot, -⟩ | ⟨seat', hiam', hcase⟩
  · exact absurd hiam (hnot seat)
  · obtain rfl : seat' = seat := Iam.seated.inj (hiam'.symm.trans hiam)
    rcases hcase with ⟨pos, -, haccept⟩ | ⟨hnone, -⟩
    · rw [haccept]
    · have := Seating.freeSeats_pos (seated_free hiam)
      omega

/-! ## One event -/

private theorem wellHandled_step {s s' : Seating} {event : SeatingEvent} (h : s.WellHandled)
    (hstep : seatingStep s event = some s') : s'.WellHandled := by
  have hseated {seat : Seat} (hfree : s.seatOccupied seat = false) :
      seat ∉ s.clientThreads.map Prod.snd := by
    intro hmem
    obtain ⟨thread, hthread, rfl⟩ := List.mem_map.mp hmem
    rw [h.occupied thread hthread] at hfree
    cases hfree
  have hothers {seat : Seat} (hfree : s.seatOccupied seat = false) (isOccupied : Bool) :
      ∀ thread ∈ s.clientThreads,
        Function.update s.seatOccupied seat isOccupied thread.2 = true := by
    intro thread hthread
    have hne : thread.2 ≠ seat := by
      rintro rfl
      exact hseated hfree (List.mem_map_of_mem hthread)
    rw [Function.update_of_ne hne]
    exact h.occupied thread hthread
  cases event with
  | connect clientSocket message =>
      cases hstep
      rcases acceptClient_cases s clientSocket message with ⟨-, haccept⟩ | ⟨seat, hiam, hcase⟩
      · rw [haccept]
        exact h
      · have hfree := seated_free hiam
        rcases hcase with ⟨pos, -, haccept⟩ | ⟨-, haccept⟩
        · rw [haccept]
          refine ⟨fun thread hthread => ?_, List.nodup_cons.mpr ⟨hseated hfree, h.distinct⟩⟩
          rcases List.mem_cons.mp hthread with rfl | hthread
          · exact Function.update_self _ _ _
          · exact hothers hfree true thread hthread
        · rw [haccept]
          exact ⟨hothers hfree true, h.distinct⟩
  | disconnect clientSocket clientPosition =>
      rw [seatingStep] at hstep
      split_ifs at hstep with hthread
      cases hstep
      have hsub := List.erase_sublist (a := (clientSocket, clientPosition)) (l := s.clientThreads)
      refine ⟨fun thread hmem => ?_, h.distinct.sublist (hsub.map _)⟩
      have hmem' : thread ∈ s.clientThreads.erase (clientSocket, clientPosition) := hmem
      have hne : thread.2 ≠ clientPosition := by
        intro heq
        have hperm := (List.perm_cons_erase hthread).map Prod.snd
        have hnodup := hperm.nodup_iff.mp h.distinct
        rw [List.map_cons, List.nodup_cons] at hnodup
        exact hnodup.1 (List.mem_map.mpr ⟨thread, hmem', heq⟩)
      change Function.update s.seatOccupied clientPosition false thread.2 = true
      rw [Function.update_of_ne hne]
      exact h.occupied thread (hsub.subset hmem')

/-- An event keeps the counts equal exactly if it clears an entry along with the
seat. -/
private theorem count_step {s s' : Seating} {event : SeatingEvent} (h : s.WellHandled)
    (hcount : s.freeEntries = s.freeSeats) (hstep : seatingStep s event = some s') :
    s'.freeEntries = s'.freeSeats ↔ s.Clears event := by
  cases event with
  | connect clientSocket message =>
      cases hstep
      simp only [Seating.Clears, iff_true]
      rcases acceptClient_cases s clientSocket message with ⟨-, haccept⟩ | ⟨seat, hiam, hcase⟩
      · rw [haccept, hcount]
      · have hseats := s.freeSeats_setSeat seat true
        rw [if_pos (seated_free hiam)] at hseats
        rcases hcase with ⟨pos, hpos, haccept⟩ | ⟨hnone, -⟩
        · have hentries := (s.setSeat seat true).freeEntries_setSocket pos (some clientSocket)
          rw [if_pos (show (s.setSeat seat true).clientSockets pos = none from hpos)] at hentries
          rw [haccept]
          change ((s.setSeat seat true).setSocket pos (some clientSocket)).freeEntries =
            (s.setSeat seat true).freeSeats
          have hsame : (s.setSeat seat true).freeEntries = s.freeEntries := rfl
          simp only [reduceCtorEq, if_false] at hseats hentries
          omega
        · have := Seating.freeSeats_pos (seated_free hiam)
          omega
  | disconnect clientSocket clientPosition =>
      rw [seatingStep] at hstep
      split_ifs at hstep with hthread
      cases hstep
      have hseats := s.freeSeats_setSeat clientPosition false
      have hentries := (s.setSeat clientPosition false).freeEntries_setSocket clientPosition none
      have hoccupied := h.occupied _ hthread
      simp only [hoccupied, reduceCtorEq, if_false, if_true, Nat.add_zero] at hseats hentries
      change (leave s clientPosition).freeEntries = (s.setSeat clientPosition false).freeSeats ↔ _
      have hsame : (s.setSeat clientPosition false).freeEntries = s.freeEntries := rfl
      have hsockets : (s.setSeat clientPosition false).clientSockets = s.clientSockets := rfl
      change (leave s clientPosition).freeEntries + _ = _ at hentries
      rw [hsockets, hsame] at hentries
      simp only [Seating.Clears, hthread, true_implies]
      split_ifs at hentries with hnone
      · simp only [hnone, ne_eq, not_true_eq_false, iff_false]
        omega
      · simp only [ne_eq, hnone, not_false_eq_true, iff_true]
        omega

/-! ## Every run -/

private theorem inStep_run {s : Seating} (h : s.WellHandled) (hcount : s.freeEntries = s.freeSeats)
    (events : List SeatingEvent) :
    (∀ before t, before <+: events → run seatingStep s before = some t → t.InStep) ↔
      Meets seatingStep Seating.Clears s events := by
  refine (meets_iff_always (I := Seating.WellHandled) (fun _ _ _ => wellHandled_step) ?_ ?_ h
    (inStep_of_count hcount) events).symm
  · intro s event s' h hstep hnext
    rw [← count_step h hstep.count hnext]
    exact ⟨Seating.InStep.count, inStep_of_count⟩
  · intro s event hnone
    cases event with
    | connect clientSocket message => trivial
    | disconnect clientSocket clientPosition =>
        intro hthread
        simp [seatingStep, hthread] at hnone

/-- Seats and entries stay in step exactly in the runs in which every client that
leaves finds a socket in the entry with the number of its seat. -/
theorem seats_in_step (events : List SeatingEvent) :
    (∀ before t, before <+: events → run seatingStep .start before = some t → t.InStep) ↔
      Meets seatingStep Seating.Clears .start events :=
  inStep_run ⟨by simp [Seating.start], by simp [Seating.start]⟩ rfl events

/-- All four connect, east and south leave, south comes back and leaves again:
south was in the entry of east, and its own entry is cleared twice. -/
def drifting : List SeatingEvent :=
  [.connect 5 ['I', 'A', 'M', 'N'], .connect 6 ['I', 'A', 'M', 'E'],
    .connect 7 ['I', 'A', 'M', 'S'], .connect 8 ['I', 'A', 'M', 'W'],
    .disconnect 6 1, .disconnect 7 2, .connect 9 ['I', 'A', 'M', 'S'], .disconnect 9 2]

theorem seats_drift :
    ¬ ∀ events t, run seatingStep .start events = some t → t.InStep := by
  intro h
  have hrun : ∀ t ∈ run seatingStep .start drifting, t.freeEntries = 1 ∧ t.freeSeats = 2 := by
    decide
  have hsome : (run seatingStep .start drifting).isSome := by decide
  obtain ⟨t, ht⟩ := Option.isSome_iff_exists.mp hsome
  obtain ⟨hentries, hseats⟩ := hrun t ht
  have := (h drifting t ht).count
  omega

end Mimuw.Cards
