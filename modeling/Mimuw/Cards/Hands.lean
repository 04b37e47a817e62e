import Mimuw.Cards.Replay
import Mimuw.Cards.TurnOrder

/-!
# The hands of a deal

The server keeps the hand of each seat, and sends it; it never looks a card up
there.  What is said of the hands holds for clients that keep to them.
-/

namespace Mimuw.Cards

open Mimuw.Lib
open Turns

namespace Server

def hand (s : Server) (j : Nat) (p : Seat) : List Str :=
  match s.deals[j]? with
  | some deal => splitCards (deal.hands p)
  | none => []

/-- What was accepted from a seat for one trick. -/
def playedIn (s : Server) (j i : Nat) (p : Seat) : List Str :=
  ((s.appended j i).filter (·.1 = p)).map Prod.snd

/-- What was accepted from a seat in a deal. -/
def played (s : Server) (j : Nat) (p : Seat) : List Str :=
  (List.range 13).flatMap fun i => s.playedIn j i p

/-- What is accepted in deal `j` is a card of the hand, and none accepted before. -/
def ownCard (s : Server) (j : Nat) : ServerEvent → Bool
  | .handler k io =>
      match s.clientThreads[k]?, io.received with
      | some t, .message text =>
          match t.pc, receiveTrickMessage text (t.i + 1) with
          | .receiveTrick, .card card =>
              t.j ≠ j || card ∈ s.hand j t.clientPosition && card ∉ s.played j t.clientPosition
          | _, _ => true
      | _, _ => true
  | .accept _ _ => true

/-- Every seat has played cards that it was dealt in the deal, each once. -/
def PlaysOwn (s : Server) (j : Nat) : Prop :=
  ∀ p, (s.played j p).Nodup ∧ ∀ card ∈ s.played j p, card ∈ s.hand j p

end Server

private theorem hand_setTrick (s : Server) (j' i : Nat) (trick : Trick) (j : Nat) (p : Seat) :
    (s.setTrick j' i trick).hand j p = s.hand j p := by
  unfold Server.hand
  rw [Server.setTrick, List.getElem?_modify]
  cases s.deals[j]? with
  | none => rfl
  | some deal =>
      rcases eq_or_ne j' j with rfl | hne
      · simp [Deal.setTrick]
      · simp [hne]

private theorem playedIn_append (s : Server) (j' i' : Nat) (q : Seat) (card : Str) (j i : Nat)
    (p : Seat) : (s.append j' i' q card).playedIn j i p =
      if j = j' ∧ i = i' ∧ q = p then s.playedIn j i p ++ [card] else s.playedIn j i p := by
  unfold Server.playedIn Server.append
  rcases eq_or_ne j j' with rfl | hj
  · rcases eq_or_ne i i' with rfl | hi
    · rcases eq_or_ne q p with rfl | hq
      · simp
      · simp [hq]
    · simp [hi]
  · simp [hj]

private theorem played_append_other {s : Server} {j' i' : Nat} {q : Seat} {card : Str} {j : Nat}
    {p : Seat} (h : ¬ (j = j' ∧ q = p)) : (s.append j' i' q card).played j p = s.played j p := by
  unfold Server.played
  congr 1
  funext i
  rw [playedIn_append, if_neg]
  rintro ⟨hj, -, hq⟩
  exact h ⟨hj, hq⟩

section Lists

variable {β : Type*} {f : Nat → List β} {i : Nat} {x : β} {ks : List Nat}

private theorem flatMap_append_of_notMem (hi : i ∉ ks) :
    (ks.flatMap fun k => if k = i then f k ++ [x] else f k) = ks.flatMap f := by
  refine List.flatMap_congr fun k hk => ?_
  rw [if_neg]
  rintro rfl
  exact hi hk

private theorem flatMap_append_perm (hi : i ∈ ks) (hnodup : ks.Nodup) :
    (ks.flatMap fun k => if k = i then f k ++ [x] else f k).Perm (x :: ks.flatMap f) := by
  induction ks with
  | nil => cases hi
  | cons k ks ih =>
      obtain ⟨hnot, hnodup⟩ := List.nodup_cons.mp hnodup
      rw [List.flatMap_cons, List.flatMap_cons]
      rcases eq_or_ne k i with rfl | hne
      · rw [if_pos rfl, flatMap_append_of_notMem hnot, List.append_assoc]
        exact List.perm_middle
      · rw [if_neg hne]
        have hrest := ih ((List.mem_cons.mp hi).resolve_left hne.symm) hnodup
        exact (hrest.append_left (f k)).trans List.perm_middle

end Lists

private theorem played_append (s : Server) (j i : Nat) (p : Seat) (card : Str) :
    i < 13 ∧ ((s.append j i p card).played j p).Perm (card :: s.played j p) ∨
      ¬ i < 13 ∧ (s.append j i p card).played j p = s.played j p := by
  have hplayed : (s.append j i p card).played j p = (List.range 13).flatMap fun k =>
      if k = i then s.playedIn j k p ++ [card] else s.playedIn j k p := by
    unfold Server.played
    simp only [playedIn_append, true_and, and_true]
  rw [hplayed]
  by_cases hi : i < 13
  · exact .inl ⟨hi, flatMap_append_perm (List.mem_range.mpr hi) List.nodup_range⟩
  · exact .inr ⟨hi, flatMap_append_of_notMem fun hmem => hi (List.mem_range.mp hmem)⟩

private theorem serverStep_card {s s' : Server} {k : Nat} {t : Thread} {io : Io} {text card : Str}
    (hk : s.clientThreads[k]? = some t) (hpc : t.pc = .receiveTrick)
    (hreceived : io.received = .message text)
    (hread : receiveTrickMessage text (t.i + 1) = .card card)
    (hstep : serverStep s (.handler k io) = some s') :
    ∃ trick, s' = ((s.setTrick t.j t.i trick).append t.j t.i t.clientPosition card).setThread k
      { t with pc := .setWinner } := by
  unfold serverStep at hstep
  split at hstep
  · cases hstep
  · obtain ⟨t', hk', hstep⟩ := Option.bind_eq_some_iff.mp hstep
    obtain rfl := Option.some.inj (hk'.symm.trans hk)
    simp only [handlerStep, hpc, hreceived, hread, Option.bind_eq_bind, Option.bind_eq_some_iff,
      Option.pure_def, Option.some.injEq] at hstep
    obtain ⟨deal, -, trick, -, rfl⟩ := hstep
    exact ⟨trick, rfl⟩

private theorem playsOwn_step {s s' : Server} {event : ServerEvent} {j : Nat} (h : s.PlaysOwn j)
    (hown : s.ownCard j event) (hstep : serverStep s event = some s') : s'.PlaysOwn j := by
  have hsame : s'.deals = s.deals → s'.appended = s.appended → s'.PlaysOwn j := by
    intro hdeals happended p
    have hhand : s'.hand j p = s.hand j p := by rw [Server.hand, hdeals, Server.hand]
    have hplayed : s'.played j p = s.played j p := by
      simp only [Server.played, Server.playedIn, happended]
    rw [hhand, hplayed]
    exact h p
  rcases serverStep_tricks hstep with ⟨hdeals, happended⟩ |
    ⟨k, io, t, deal, trick, text, card, rfl, hk, hpc, hreceived, hread, -, -, rfl⟩ |
    ⟨k, t, deal, winner, -, rfl⟩
  · exact hsame hdeals happended
  · simp only [Server.ownCard, hk, hreceived, hpc, hread, Bool.or_eq_true, Bool.and_eq_true,
      decide_eq_true_eq] at hown
    intro p
    have hhand : ((s.setTrick t.j t.i trick).append t.j t.i t.clientPosition card).hand j p =
        s.hand j p := hand_setTrick s t.j t.i trick j p
    change (((s.setTrick t.j t.i trick).append t.j t.i t.clientPosition card).played j p).Nodup ∧
      ∀ c ∈ ((s.setTrick t.j t.i trick).append t.j t.i t.clientPosition card).played j p,
        c ∈ ((s.setTrick t.j t.i trick).append t.j t.i t.clientPosition card).hand j p
    rw [hhand]
    by_cases heq : j = t.j ∧ t.clientPosition = p
    · obtain ⟨rfl, rfl⟩ := heq
      obtain ⟨hhand', hnew⟩ := hown.resolve_left fun hne => hne rfl
      have hold := h t.clientPosition
      rcases played_append (s.setTrick t.j t.i trick) t.j t.i t.clientPosition card with
        ⟨-, hp⟩ | ⟨-, hp⟩
      · refine ⟨hp.nodup_iff.mpr (List.nodup_cons.mpr ⟨hnew, hold.1⟩), fun c hc => ?_⟩
        rcases List.mem_cons.mp (hp.mem_iff.mp hc) with rfl | hc
        · exact hhand'
        · exact hold.2 c hc
      · rw [hp]
        exact hold
    · rw [played_append_other heq]
      exact h p
  · intro p
    change (s.played j p).Nodup ∧ ∀ c ∈ s.played j p, c ∈ (s.setTrick t.j t.i _).hand j p
    rw [hand_setTrick]
    exact h p

private theorem played_subperm_step {s s' : Server} {event : ServerEvent}
    (hstep : serverStep s event = some s') (j : Nat) (p : Seat) :
    (s.played j p).Subperm (s'.played j p) := by
  rcases serverStep_tricks hstep with ⟨-, happended⟩ |
    ⟨k, io, t, deal, trick, text, card, -, -, -, -, -, -, -, rfl⟩ | ⟨k, t, deal, winner, -, rfl⟩
  · have hplayed : s'.played j p = s.played j p := by
      simp only [Server.played, Server.playedIn, happended]
    rw [hplayed]
  · change (s.played j p).Subperm
      (((s.setTrick t.j t.i trick).append t.j t.i t.clientPosition card).played j p)
    by_cases heq : j = t.j ∧ t.clientPosition = p
    · obtain ⟨rfl, rfl⟩ := heq
      rcases played_append (s.setTrick t.j t.i trick) t.j t.i t.clientPosition card with
        ⟨-, hp⟩ | ⟨-, hp⟩
      · exact (List.sublist_cons_self card _).subperm.trans hp.symm.subperm
      · rw [hp]
        exact List.Subperm.refl _
    · rw [played_append_other heq]
      exact List.Subperm.refl _
  · exact List.Subperm.refl _

private theorem played_subperm_run {s s' : Server} {events : List ServerEvent}
    (hrun : run serverStep s events = some s') (j : Nat) (p : Seat) :
    (s.played j p).Subperm (s'.played j p) :=
  run_invariant (I := fun s' => (s.played j p).Subperm (s'.played j p))
    (fun _ _ _ h hstep => h.trans (played_subperm_step hstep j p)) (List.Subperm.refl _) hrun

private theorem hand_step {s s' : Server} {event : ServerEvent}
    (hstep : serverStep s event = some s') (j : Nat) (p : Seat) : s'.hand j p = s.hand j p := by
  rcases serverStep_tricks hstep with ⟨hdeals, -⟩ |
    ⟨k, io, t, deal, trick, text, card, -, -, -, -, -, -, -, rfl⟩ | ⟨k, t, deal, winner, -, rfl⟩
  · rw [Server.hand, hdeals, Server.hand]
  · exact hand_setTrick s _ _ _ j p
  · exact hand_setTrick s _ _ _ j p

private theorem loadDeal_hands (dealType : Nat) (lead : Char) (hands : Seat → Str) (p : Seat) :
    (loadDeal dealType lead hands).hands p = hands p := by
  fin_cases p <;> rfl

/-- Thirteen cards for everyone, no two alike. -/
def FullHands (game : List (Nat × Char × (Seat → Str))) : Prop :=
  ∀ deal ∈ game, ∀ p, (splitCards (deal.2.2 p)).Nodup ∧ (splitCards (deal.2.2 p)).length = 13

private theorem hand_start {game : List (Nat × Char × (Seat → Str))} (h : FullHands game) {j : Nat}
    {deal : Deal} (hdeal : (loadGame game)[j]? = some deal) (p : Seat) :
    ((Server.start (loadGame game)).hand j p).Nodup ∧
      ((Server.start (loadGame game)).hand j p).length = 13 := by
  unfold Server.hand Server.start
  simp only [hdeal]
  rw [loadGame, List.getElem?_map, Option.map_eq_some_iff] at hdeal
  obtain ⟨⟨dealType, lead, hands⟩, hmem, rfl⟩ := hdeal
  rw [loadDeal_hands]
  exact h _ (List.mem_of_getElem? hmem) p

private theorem playedIn_length {s : Server} {j i : Nat} {l : Seat}
    (h : (s.appended j i).map Prod.fst = order (some l)) (p : Seat) :
    (s.playedIn j i p).length = 1 := by
  have hcount : ∀ l p : Seat, (order (some l)).countP (· = p) = 1 := by decide
  rw [Server.playedIn, List.length_map, ← List.countP_eq_length_filter, ← hcount l p, ← h,
    List.countP_map]
  rfl

private theorem hand_run {s s' : Server} {events : List ServerEvent}
    (hrun : run serverStep s events = some s') (j : Nat) (p : Seat) :
    s'.hand j p = s.hand j p :=
  run_invariant (I := fun s' => s'.hand j p = s.hand j p)
    (fun _ _ _ h hstep => (hand_step hstep j p).trans h) rfl hrun

section Game

variable {game : List (Nat × Char × (Seat → Str))} {events : List ServerEvent} {s : Server}

private theorem played_length
    (hkeeps : Meets serverStep (fun s event => s.keeps event) (.start (loadGame game)) events)
    (hrun : run serverStep (.start (loadGame game)) events = some s) {j : Nat}
    (hlast : (s.appended j 12).length = 4) (p : Seat) : (s.played j p).length = 13 := by
  obtain ⟨leads, a, hrefines, hinv⟩ := refines_run game hkeeps hrun
  have hlast' : (a.appended j 12).length = 4 := by
    rw [← hrefines.appended, List.length_map, hlast]
  have hcomplete := fun i (hi : i < 13) => hinv.deal_complete hlast' hi
  obtain ⟨l, hl⟩ := Option.isSome_iff_exists.mp (hcomplete 0 (by decide)).1
  have hone : ∀ i ∈ List.range 13, (s.playedIn j i p).length = 1 := by
    intro i hi
    refine playedIn_length (l := l) ?_ p
    rw [hrefines.appended, (hcomplete i (List.mem_range.mp hi)).2, hl]
  rw [Server.played, List.length_flatMap, List.map_congr_left hone]
  rfl

/-- Distinct cards of its hand are the hand when the deal is over. -/
theorem PlaysOwn.perm (hhands : FullHands game)
    (hkeeps : Meets serverStep (fun s event => s.keeps event) (.start (loadGame game)) events)
    (hrun : run serverStep (.start (loadGame game)) events = some s) {j : Nat}
    (hlast : (s.appended j 12).length = 4) (hplays : s.PlaysOwn j) (p : Seat) :
    (s.played j p).Perm (s.hand j p) := by
  have hlength := played_length hkeeps hrun hlast p
  obtain ⟨hnodup, hsub⟩ := hplays p
  have hhand : (s.hand j p).length = 13 := by
    obtain ⟨card, hcard⟩ := List.exists_mem_of_ne_nil (s.played j p) (by
      intro hnil
      rw [hnil] at hlength
      cases hlength)
    have hmem := hsub card hcard
    rw [hand_run hrun] at hmem ⊢
    cases hdeal : (loadGame game)[j]? with
    | none => simp [Server.hand, Server.start, hdeal] at hmem
    | some deal => exact (hand_start hhands hdeal p).2
  exact (List.subperm_of_subset hnodup hsub).perm_of_length_le (by rw [hhand, hlength])

/-- Each card was one of the hand and new when it was accepted, if the cards of the deal
are the hands in the end. -/
private theorem ownCard_of_perm (hhands : FullHands game) {before after : List ServerEvent}
    {event : ServerEvent} {s₁ s₂ : Server}
    (hkeeps : Meets serverStep (fun s event => s.keeps event) (.start (loadGame game)) before)
    (hbefore : run serverStep (.start (loadGame game)) before = some s₁)
    (hstep : serverStep s₁ event = some s₂) (hafter : run serverStep s₂ after = some s) {j : Nat}
    (hperm : ∀ p, (s.played j p).Perm (s.hand j p)) : s₁.ownCard j event := by
  cases event with
  | accept clientSocket io => rfl
  | handler k io =>
      simp only [Server.ownCard]
      split
      next t text hk hreceived =>
        split
        next card hpc hread =>
          rcases eq_or_ne t.j j with rfl | hne
          · obtain ⟨trick, rfl⟩ := serverStep_card hk hpc hreceived hread hstep
            obtain ⟨leads, a, hrefines, hinv⟩ := refines_run game hkeeps hbefore
            have hi : t.i < 13 := by
              have hat := (hrefines.at hk (by simp [Thread.running, hpc])).1
              simp only [Thread.At, hpc] at hat
              have hvalid := hinv.valid
              rw [hat.2.1] at hvalid
              exact hvalid.2
            obtain ⟨-, hplayed⟩ := (played_append (s₁.setTrick t.j t.i trick) t.j t.i
              t.clientPosition card).resolve_right fun hout => hout.1 hi
            -- what is accepted here is among the cards of the deal in the end
            have hsub : (card :: s₁.played t.j t.clientPosition).Subperm
                (s.hand t.j t.clientPosition) :=
              (hplayed.symm.subperm.trans (played_subperm_run hafter t.j t.clientPosition)).trans
                (hperm t.clientPosition).subperm
            have hhand : s.hand t.j t.clientPosition = s₁.hand t.j t.clientPosition :=
              (hand_run hafter t.j t.clientPosition).trans (hand_setTrick s₁ t.j t.i trick _ _)
            have hmem : card ∈ s₁.hand t.j t.clientPosition :=
              hhand ▸ hsub.subset List.mem_cons_self
            have hnodup : (s.hand t.j t.clientPosition).Nodup := by
              rw [hhand, hand_run hbefore]
              rw [hand_run hbefore] at hmem
              cases hdeal : (loadGame game)[t.j]? with
              | none => simp [Server.hand, Server.start, hdeal] at hmem
              | some deal => exact (hand_start hhands hdeal t.clientPosition).1
            obtain ⟨cards, hcards, hsublist⟩ := hsub
            have hnew := (List.nodup_cons.mp (hcards.nodup_iff.mp (hnodup.sublist hsublist))).1
            simp [hmem, hnew]
          · simp [hne]
        next => rfl
      next => rfl

end Game

/-- When the thirteenth trick of a deal is complete, each dealt card has been taken once,
from the seat that it was dealt to, if and only if each card accepted was one of the hand
of its seat and had not been accepted before. -/
theorem own_cards (game : List (Nat × Char × (Seat → Str))) (hhands : FullHands game)
    (events : List ServerEvent) (s : Server)
    (hkeeps : Meets serverStep (fun s event => s.keeps event) (.start (loadGame game)) events)
    (hrun : run serverStep (.start (loadGame game)) events = some s) (j : Nat)
    (hlast : (s.appended j 12).length = 4) :
    (∀ p, (s.played j p).Perm (s.hand j p)) ↔
      Meets serverStep (fun s event => s.ownCard j event) (.start (loadGame game)) events := by
  constructor
  · intro hperm
    refine meets_of_splits fun before event after s₁ hevents hbefore => ?_
    subst hevents
    obtain ⟨s₁', hbefore', hrest⟩ := run_append.mp hrun
    obtain rfl := Option.some.inj (hbefore'.symm.trans hbefore)
    obtain ⟨s₂, hstep, hafter⟩ := run_cons.mp hrest
    exact ownCard_of_perm hhands (meets_append.mp hkeeps).1 hbefore hstep hafter hperm
  · intro hown
    have hplays : s.PlaysOwn j := by
      refine guarded_run_invariant (fun _ _ _ => playsOwn_step) (fun p => ?_) hown hrun
      have hnone : (Server.start (loadGame game)).played j p = [] := by
        simp [Server.played, Server.playedIn, Server.start]
      rw [hnone]
      exact ⟨List.nodup_nil, by simp⟩
    exact fun p => PlaysOwn.perm hhands hkeeps hrun hlast hplays p

/-- The whole pack, dealt one card at a time. -/
def dealtInTurn (p : Seat) : List PlayingCard :=
  let pack := [Suit.clubs, .diamonds, .hearts, .spades].flatMap suitHand
  (List.range 13).filterMap fun k => pack[4 * k + p.val]?

def packDealt : List (Nat × Char × (Seat → Str)) :=
  [(1, 'N', fun p => cardsText (dealtInTurn p))]

def answers (i : Nat) (p : Seat) (steps : Nat) : List ServerEvent :=
  List.replicate steps (.handler p.val ⟨.done, .message (['T', 'R', 'I', 'C', 'K'] ++
    (toString (i + 1)).toList ++ cardsText ((dealtInTurn p)[i]?.toList))⟩)

def wholeDeal : List ServerEvent :=
  [ServerEvent.accept 4 ⟨.done, .message ['I', 'A', 'M', 'N']⟩,
    .accept 5 ⟨.done, .message ['I', 'A', 'M', 'E']⟩,
    .accept 6 ⟨.done, .message ['I', 'A', 'M', 'S']⟩,
    .accept 7 ⟨.done, .message ['I', 'A', 'M', 'W']⟩] ++
  answers 0 0 3 ++ answers 0 1 3 ++ answers 0 2 3 ++ answers 0 3 8 ++
  answers 0 0 6 ++ answers 0 1 5 ++ answers 0 2 6 ++ answers 0 3 1 ++
  (List.range 12).flatMap (fun i =>
    answers i 0 8 ++ answers i 1 8 ++ answers i 2 7 ++ answers i 3 10 ++
    answers (i + 1) 0 3 ++ answers (i + 1) 1 3 ++ answers (i + 1) 2 4 ++ answers (i + 1) 3 1) ++
  answers 12 0 8 ++ answers 12 1 8 ++ answers 12 2 7 ++ answers 12 3 6

theorem own_cards_wholeDeal :
    ∃ s, run serverStep (.start (loadGame packDealt)) wholeDeal = some s ∧
      ((∀ p, (s.played 0 p).Perm (s.hand 0 p)) ↔
        Meets serverStep (fun s event => s.ownCard 0 event) (.start (loadGame packDealt))
          wholeDeal) := by
  have hsome : (run serverStep (.start (loadGame packDealt)) wholeDeal).isSome := by
    decide +kernel
  have hlast : ∀ s ∈ run serverStep (.start (loadGame packDealt)) wholeDeal,
      (s.appended 0 12).length = 4 := by
    decide +kernel
  obtain ⟨s, hs⟩ := Option.isSome_iff_exists.mp hsome
  exact ⟨s, hs, own_cards packDealt (by unfold FullHands; decide +kernel) wholeDeal s
    (by decide +kernel) hs 0 (hlast s hs)⟩

def suitsDealt : List (Nat × Char × (Seat → Str)) :=
  [(1, 'N', fun p => cardsText (suitHand (![.clubs, .diamonds, .hearts, .spades] p)))]

/-- East plays a club, and has only diamonds. -/
theorem foreign_card : ¬ ∀ game, FullHands game → ∀ events s,
    run serverStep (.start (loadGame game)) events = some s → ∀ j, s.PlaysOwn j := by
  intro h
  have hsome : (run serverStep (.start (loadGame suitsDealt)) firstTrick).isSome := by
    decide +kernel
  have hclub : ∀ s ∈ run serverStep (.start (loadGame suitsDealt)) firstTrick,
      ['3', 'C'] ∈ s.played 0 1 ∧ ['3', 'C'] ∉ s.hand 0 1 := by
    decide +kernel
  obtain ⟨s, hs⟩ := Option.isSome_iff_exists.mp hsome
  obtain ⟨hplayed, hhand⟩ := hclub s hs
  exact hhand ((h suitsDealt (by unfold FullHands; decide +kernel) firstTrick s hs 0 1).2 _ hplayed)

end Mimuw.Cards
