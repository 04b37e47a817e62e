import Mimuw.Cards.Server
import Mimuw.Cards.Turns

/-!
# Handlers at the table

The handlers move as one table does.  A seat without a handler is where the state
of its game says that the next handler goes on, with the stores of a handler that
is still leaving made.
-/

namespace Mimuw.Cards

open Mimuw.Lib
open Turns

/-! ## Threads -/

def Leaving.isStore (x : Leaving) : Bool := x ≠ .release && x ≠ .clearSocket

namespace Thread

/-- A handler that has read where its game goes on, and still has its client. -/
def running (t : Thread) : Bool :=
  match t.pc with
  | .start => false
  | .leaving _ => false
  | _ => true

/-- The seat is occupied for this thread. -/
def owns (t : Thread) : Bool :=
  match t.pc with
  | .leaving todo => .setSeat ∈ todo
  | _ => true

/-- It is leaving, and has not stored everything. -/
def stores (t : Thread) : Bool :=
  match t.pc with
  | .leaving todo => todo.any Leaving.isStore
  | _ => false

/-- It is leaving with the permit of its seat. -/
def returns (p : Seat) (t : Thread) : Bool :=
  match t.pc with
  | .leaving todo => t.clientPosition = p && .release ∈ todo
  | _ => false

/-- The state of the game when everything is stored. -/
def settle (t : Thread) (g : GameState) : GameState :=
  match t.pc with
  | .leaving todo => todo.foldl Leaving.store g
  | _ => g

end Thread

/-! ## What is asked of a run -/

namespace Server

/-- No TAKEN before the last of a deal finds its client gone, no answer to TRICK
makes the server close the connection, and no new handler reads the state of its
seat before the old one has stored it. -/
def keeps (s : Server) : ServerEvent → Bool
  | .handler k io =>
      match s.clientThreads[k]? with
      | none => true
      | some t =>
          match t.pc with
          | .start =>
              s.clientThreads.all fun t' => t'.clientPosition ≠ t.clientPosition || !t'.stores
          | .receiveTrick =>
              match io.received with
              | .message text => receiveTrickMessage text (t.i + 1) ≠ .closed
              | _ => true
          | .sendTaken => io.sent ≠ .gone || t.i = 12
          | _ => true
  | .accept _ _ => true

/-- The turns of a state: a permit at most for each seat, what was appended to each
trick, in order, and all four cards when the trick is taken. -/
structure InTurn (s : Server) : Prop where
  permits : ∀ p, s.playerSemaphores p ≤ 1
  cards : ∀ j i deal, s.deals[j]? = some deal →
    (deal.tricks i).cardsString = ((s.appended j i).map Prod.snd).flatten
  order : ∀ j i deal, s.deals[j]? = some deal →
    (s.appended j i).map Prod.fst <+: order (charToIndex deal.leadPlayer)
  complete : ∀ t ∈ s.clientThreads, t.pc = .sendTaken → ∀ deal, s.deals[t.j]? = some deal →
    (s.appended t.j t.i).map Prod.fst = Turns.order (charToIndex deal.leadPlayer)

end Server

/-! ## Where a handler is -/

def leadOf (leads : List Char) (j : Nat) : Option Seat := leads[j]?.bind charToIndex

def Turns.Phase.barrier (n : Nat) : Phase → Option Barrier
  | .opening j => some (if j < n then .dealStart else .dealEnd)
  | .dealing _ => some .trickStart
  | .trick _ _ => some .trickEnd
  | .between _ i => some (if i < 12 then .trickStart else .dealEnd)
  | .ended => none

/-- Where the next handler of a seat goes on. -/
def Reentry (g : GameState) (phase : Phase) (stage : Stage) : Prop :=
  if g.disconnectOnTrickHandler then
    g.disconnectOnDealHandler = false ∧ phase = .trick g.currentDeal g.currentTrick ∧ stage = .early
  else g.currentTrick = 0 ∧
    if g.disconnectOnDealHandler then phase = .dealing g.currentDeal ∧ stage = .early
    else phase = .opening g.currentDeal ∧ stage = .ready

/-- No handler of the seat has lost its client lately. -/
def GameState.Clear (g : GameState) : Prop :=
  g.disconnectOnDealHandler = false ∧ g.disconnectOnTrickHandler = false

/-- The phase that ends when trick `i` starts. -/
def BeforeTrick (j : Nat) : Nat → Phase → Prop
  | 0, phase => phase = .dealing j
  | i + 1, phase => phase = .between j i

/-- Where a running handler is in its phase. -/
def Thread.At (n : Nat) (g : GameState) (phase : Phase) (stage : Stage) (t : Thread) : Prop :=
  match t.pc with
  | .dealLoop => Reentry { g with currentDeal := t.j } phase stage
  | .sendDeal => (g.disconnectOnTrickHandler = false ∧ g.currentTrick = 0) ∧
      phase = .dealing t.j ∧ stage = .early
  | .setTurn => (g.disconnectOnTrickHandler = false ∧ g.currentTrick = 0) ∧
      phase = .dealing t.j ∧ stage = .early
  | .checkLead => (g.disconnectOnTrickHandler = false ∧ g.currentTrick = 0) ∧
      phase = .dealing t.j ∧ stage = .turned
  | .releaseLead => (g.disconnectOnTrickHandler = false ∧ g.currentTrick = 0) ∧
      phase = .dealing t.j ∧ stage = .leading
  | .trickLoop =>
      g.disconnectOnDealHandler = false ∧
        if g.disconnectOnTrickHandler then phase = .trick t.j t.i ∧ stage = .early
        else BeforeTrick t.j t.i phase ∧ stage = if t.i < 13 then .ready else .early
  | .enterTrick => g.Clear ∧ phase = .trick t.j t.i ∧ stage = .early
  | .waitForTurn => g.Clear ∧ phase = .trick t.j t.i ∧ stage = .early
  | .sendTrick => g.Clear ∧ phase = .trick t.j t.i ∧ stage = .holding
  | .receiveTrick => g.Clear ∧ phase = .trick t.j t.i ∧ stage = .holding
  | .setWinner => g.Clear ∧ phase = .trick t.j t.i ∧ stage = .played
  | .passTurn => g.Clear ∧ phase = .trick t.j t.i ∧ stage = .played
  | .releaseNext => g.Clear ∧ phase = .trick t.j t.i ∧ stage = .passing
  | .sendTaken => g.Clear ∧ phase = .between t.j t.i ∧ stage = if t.i < 12 then .ready else .early
  | .checkTurn => g.Clear ∧ phase = .between t.j 12 ∧ stage = .early
  | .acquireTurn => g.Clear ∧ phase = .between t.j 12 ∧ stage = .draining
  | .scoreTotal => (g.Clear ∧ g.currentTrick = 0) ∧ phase = .opening (t.j + 1) ∧ stage = .ready
  | .arriving meeting => Meets' n g phase t meeting ∧ stage = .ready
  | .waiting meeting => Meets' n g phase t meeting ∧ stage = .arrived
  | .shutdown => phase = .ended ∧ stage = .ready
  | .finished => phase = .ended ∧ stage = .ready
  | .start => False
  | .leaving _ => False
where
  /-- A handler on its way to a barrier. -/
  Meets' (n : Nat) (g : GameState) (phase : Phase) (t : Thread) : Meeting → Prop
    | .dealStart => (g.Clear ∧ g.currentTrick = 0) ∧ t.j < n ∧ phase = .opening t.j
    | .trickStart => g.Clear ∧ t.i < 13 ∧ BeforeTrick t.j t.i phase
    | .trickEnd => g.Clear ∧ phase = .trick t.j t.i
    | .dealEnd => (g.Clear ∧ g.currentTrick = 0) ∧ phase = .between t.j 12
    | .last => phase = .opening n

/-! ## Leaving -/

/-- What is left of giving up a client, where TAKEN has not been the reason. -/
def GivesUp (todo : List Leaving) : Prop :=
  ∃ j i, todo <:+ Leaving.onDealHandler j ∨ todo <:+ Leaving.onTrickHandler j i ∨
    todo <:+ Leaving.onScoreTotalHandler j

theorem GivesUp.tail {x : Leaving} {todo : List Leaving} (h : GivesUp (x :: todo)) :
    GivesUp todo := by
  obtain ⟨j, i, h⟩ := h
  have hsuffix : todo <:+ x :: todo := List.suffix_cons x todo
  exact ⟨j, i, h.imp hsuffix.trans (Or.imp hsuffix.trans hsuffix.trans)⟩

theorem GivesUp.ne_taken {x : Leaving} {todo : List Leaving} (h : GivesUp (x :: todo)) :
    x ≠ .setDisconnectOnSendTakenMsg := by
  rintro rfl
  obtain ⟨j, i, h⟩ := h
  have hmem : Leaving.setDisconnectOnSendTakenMsg ∈
      Leaving.setDisconnectOnSendTakenMsg :: todo := List.mem_cons_self
  rcases h with h | h | h
  · simpa [Leaving.onDealHandler] using h.subset hmem
  · simpa [Leaving.onTrickHandler] using h.subset hmem
  · simpa [Leaving.onScoreTotalHandler] using h.subset hmem

theorem GivesUp.nodup {todo : List Leaving} (h : GivesUp todo) : todo.Nodup := by
  obtain ⟨j, i, h⟩ := h
  rcases h with h | h | h
  · exact (by simp [Leaving.onDealHandler] : (Leaving.onDealHandler j).Nodup).sublist h.sublist
  · exact (by simp [Leaving.onTrickHandler] : (Leaving.onTrickHandler j i).Nodup).sublist h.sublist
  · exact (by simp [Leaving.onScoreTotalHandler] :
      (Leaving.onScoreTotalHandler j).Nodup).sublist h.sublist

theorem Leaving.store_eq {x : Leaving} (h : ¬ x.isStore) (g : GameState) : x.store g = g := by
  cases x <;> simp [Leaving.isStore] at h <;> rfl

/-! ## The relation -/

/-- Where a seat without a running handler goes on: its stored state, or what it
will be when the handler that is leaving has stored it. -/
def Settles (s : Server) (p : Seat) (g : GameState) : Prop :=
  (∀ t : Thread, t ∈ s.clientThreads → t.clientPosition = p → ¬ t.stores) ∧ g = s.gameStates p ∨
    ∃ (k : Nat) (t : Thread), s.clientThreads[k]? = some t ∧ t.clientPosition = p ∧ t.stores ∧
      g = t.settle (s.gameStates p) ∧
      ∀ (k' : Nat) (t' : Thread),
        s.clientThreads[k']? = some t' → t'.clientPosition = p → t'.stores → k' = k

/-- A seat is where its handler is, or where the next one goes on. -/
def SeatAt (n : Nat) (s : Server) (phase : Phase) (stage : Stage) (p : Seat) : Prop :=
  (∃ (k : Nat) (t : Thread), s.clientThreads[k]? = some t ∧ t.clientPosition = p ∧ t.running ∧
      t.At n (s.gameStates p) phase stage ∧
      ∀ t' : Thread, t' ∈ s.clientThreads → t'.clientPosition = p → ¬ t'.stores) ∨
    (∀ t : Thread, t ∈ s.clientThreads → t.clientPosition = p → ¬ t.running) ∧
      ∃ g, Settles s p g ∧ Reentry g phase stage

structure Refines (leads : List Char) (s : Server) (a : Table) : Prop where
  players : s.deals.map Deal.leadPlayer = leads
  turn : s.currentTurn = a.turn
  permits : s.playerSemaphores = a.permits
  appended : ∀ j i, (s.appended j i).map Prod.fst = a.appended j i
  returning : ∀ p, a.returning p = s.clientThreads.countP (Thread.returns p)
  arrived : ∀ b, s.arrived b =
    if a.phase.barrier leads.length = some b then (Finset.univ.filter (a.stage · = .arrived)).card
    else 0
  taken : ∀ p, (s.gameStates p).disconnectOnSendTakenMsg = false
  todo : ∀ t : Thread, t ∈ s.clientThreads → ∀ todo, t.pc = .leaving todo → GivesUp todo
  single : ∀ (k k' : Nat) (t t' : Thread),
    s.clientThreads[k]? = some t → s.clientThreads[k']? = some t' →
    t.owns → t'.owns → t.clientPosition = t'.clientPosition → k = k'
  occupied : ∀ t : Thread,
    t ∈ s.clientThreads → t.owns → (s.gameStates t.clientPosition).seatOccupied
  seats : ∀ p, SeatAt leads.length s a.phase (a.stage p) p

theorem Thread.owns_of_running {t : Thread} (h : t.running) : t.owns := by
  unfold Thread.running at h
  unfold Thread.owns
  split at h <;> simp_all

theorem Thread.not_leaving_of_running {t : Thread} (h : t.running) (todo : List Leaving) :
    t.pc ≠ .leaving todo := by
  intro hpc
  simp [Thread.running, hpc] at h

theorem Thread.not_stores_of_running {t : Thread} (h : t.running) : ¬ t.stores := by
  unfold Thread.stores
  split
  · exact absurd ‹_› (t.not_leaving_of_running h _)
  · simp

theorem Thread.not_returns_of_running {t : Thread} (h : t.running) (q : Seat) :
    t.returns q = false := by
  unfold Thread.returns
  split
  · exact absurd ‹_› (t.not_leaving_of_running h _)
  · rfl

/-- A running handler is where its seat is. -/
theorem Refines.at {leads : List Char} {s : Server} {a : Table} {k : Nat} {t : Thread}
    (h : Refines leads s a) (hk : s.clientThreads[k]? = some t) (hrun : t.running) :
    t.At leads.length (s.gameStates t.clientPosition) a.phase (a.stage t.clientPosition) ∧
      ∀ t' : Thread, t' ∈ s.clientThreads → t'.clientPosition = t.clientPosition → ¬ t'.stores := by
  rcases h.seats t.clientPosition with ⟨k', t', hk', hpos, hrun', hat, hquiet⟩ | ⟨hnone, -⟩
  · obtain rfl := h.single k' k t' t hk' hk (Thread.owns_of_running hrun')
      (Thread.owns_of_running hrun) hpos
    obtain rfl := Option.some.inj (hk'.symm.trans hk)
    exact ⟨hat, hquiet⟩
  · exact absurd hrun (hnone t (List.mem_of_getElem? hk) rfl)

theorem SeatAt.congr {n : Nat} {s s' : Server} {phase : Phase} {stage : Stage} {p : Seat}
    (h : SeatAt n s phase stage p) (hgame : s'.gameStates p = s.gameStates p)
    (hthreads : ∀ (k : Nat) (t : Thread), t.clientPosition = p →
      (s'.clientThreads[k]? = some t ↔ s.clientThreads[k]? = some t)) :
    SeatAt n s' phase stage p := by
  have hmem : ∀ t : Thread,
    t.clientPosition = p → (t ∈ s'.clientThreads ↔ t ∈ s.clientThreads) := by
    intro t ht
    rw [List.mem_iff_getElem?, List.mem_iff_getElem?]
    exact exists_congr fun k => hthreads k t ht
  rcases h with ⟨k, t, hk, hpos, hrun, hat, hquiet⟩ | ⟨hnone, g, hsettles, hreentry⟩
  · refine .inl ⟨k, t, (hthreads k t hpos).mpr hk, hpos, hrun, hgame ▸ hat, fun t' ht' hpos' => ?_⟩
    exact hquiet t' ((hmem t' hpos').mp ht') hpos'
  · refine .inr ⟨fun t ht hpos => hnone t ((hmem t hpos).mp ht) hpos, g, ?_, hreentry⟩
    rcases hsettles with ⟨hquiet, hg⟩ | ⟨k, t, hk, hpos, hstores, hg, honly⟩
    · exact .inl ⟨fun t ht hpos => hquiet t ((hmem t hpos).mp ht) hpos, hgame ▸ hg⟩
    · refine .inr ⟨k, t, (hthreads k t hpos).mpr hk, hpos, hstores, hgame ▸ hg, ?_⟩
      exact fun k' t' hk' hpos' => honly k' t' ((hthreads k' t' hpos').mp hk') hpos'

theorem getElem?_set_other {threads : List Thread} {k : Nat} {t t' : Thread} {q : Seat}
    (hk : threads[k]? = some t) (ht : t.clientPosition ≠ q) (ht' : t'.clientPosition ≠ q)
    (k' : Nat) (u : Thread) (hu : u.clientPosition = q) :
    (threads.set k t')[k']? = some u ↔ threads[k']? = some u := by
  rcases eq_or_ne k k' with rfl | hne
  · rw [List.getElem?_set_self (List.getElem?_eq_some_iff.mp hk).1, hk]
    constructor
    · intro heq
      exact absurd (Option.some.inj heq ▸ hu) ht'
    · intro heq
      exact absurd (Option.some.inj heq ▸ hu) ht
  · rw [List.getElem?_set_ne hne]

theorem mem_of_mem_set {threads : List Thread} {k : Nat} {t' u : Thread}
    (h : u ∈ threads.set k t') : u = t' ∨ ∃ k', k' ≠ k ∧ threads[k']? = some u := by
  obtain ⟨k', hk'⟩ := List.mem_iff_getElem?.mp h
  rcases eq_or_ne k k' with rfl | hne
  · obtain ⟨hlt, -⟩ := List.getElem?_eq_some_iff.mp hk'
    rw [List.length_set] at hlt
    rw [List.getElem?_set_self hlt] at hk'
    exact .inl (Option.some.inj hk').symm
  · rw [List.getElem?_set_ne hne] at hk'
    exact .inr ⟨k', hne.symm, hk'⟩

theorem countP_set {threads : List Thread} {k : Nat} {t : Thread} (P : Thread → Bool) (t' : Thread)
    (hk : threads[k]? = some t) :
    (threads.set k t').countP P + (if P t then 1 else 0) =
      threads.countP P + if P t' then 1 else 0 := by
  induction threads generalizing k with
  | nil => simp at hk
  | cons u threads ih =>
      cases k with
      | zero =>
          obtain rfl : u = t := by simpa using hk
          simp only [List.set_cons_zero, List.countP_cons]
          omega
      | succ k =>
          simp only [List.set_cons_succ, List.countP_cons]
          have := ih (by simpa using hk)
          omega

end Mimuw.Cards
