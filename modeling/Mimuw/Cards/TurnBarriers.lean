import Mimuw.Cards.TurnLeaving

/-!
# Barriers and connections

The last handler at a barrier takes the table on to its next phase.  A new handler is
where the state of its seat says.
-/

namespace Mimuw.Cards

open Mimuw.Lib
open Turns

variable {leads : List Char} {s s' : Server} {a a' : Table} {k : Nat} {t t' : Thread}

/-! ## Barriers -/

theorem Thread.At.arriving {n : Nat} {g : GameState} {phase : Phase} {stage : Stage}
    {meeting : Meeting} (h : t.At n g phase stage) (hpc : t.pc = .arriving meeting) :
    stage = .ready ∧ ({ t with pc := .waiting meeting } : Thread).At n g phase .arrived := by
  simp only [Thread.At, hpc] at h
  refine ⟨h.2, ?_⟩
  have := h.1
  cases meeting <;> exact ⟨this, rfl⟩

theorem Thread.At.waiting {n : Nat} {g : GameState} {phase : Phase} (h : t.At n g phase .arrived)
    : ∃ meeting, t.pc = .waiting meeting := by
  unfold Thread.At at h
  split at h <;> simp_all [Reentry]
  · obtain ⟨-, -, -, h⟩ := h
    split_ifs at h
  · obtain ⟨-, -, h⟩ := h
    split_ifs at h

theorem Thread.At.wake {n : Nat} {g : GameState} {phase : Phase} {meeting : Meeting}
    (h : t.At n g phase .arrived) (hpc : t.pc = .waiting meeting) :
    phase.barrier n = some meeting.barrier ∧
      ({ t with pc := meeting.next } : Thread).At n g (phase.next n) (phase.next n).first := by
  simp only [Thread.At, hpc, and_true] at h
  cases meeting with
  | dealStart =>
      obtain ⟨⟨hclear, htrick⟩, hj, rfl⟩ := h
      simp only [Phase.barrier, Phase.next, if_pos hj]
      exact ⟨rfl, ⟨hclear.2, htrick⟩, rfl, rfl⟩
  | trickStart =>
      obtain ⟨hclear, hi, hphase⟩ := h
      cases hti : t.i with
      | zero =>
          rw [hti] at hphase
          obtain rfl : phase = .dealing t.j := hphase
          refine ⟨rfl, hclear, ?_, rfl⟩
          simp [Phase.next]
      | succ i =>
          rw [hti] at hphase hi
          obtain rfl : phase = .between t.j i := hphase
          have hlt : i < 12 := Nat.lt_of_succ_lt_succ hi
          simp only [Phase.barrier, Phase.next, if_pos hlt]
          exact ⟨rfl, hclear, by simp, rfl⟩
  | trickEnd =>
      obtain ⟨hclear, rfl⟩ := h
      exact ⟨rfl, hclear, rfl, rfl⟩
  | dealEnd =>
      obtain ⟨⟨hclear, htrick⟩, rfl⟩ := h
      exact ⟨rfl, ⟨hclear, htrick⟩, rfl, rfl⟩
  | last =>
      obtain rfl : phase = .opening n := h
      simp only [Phase.barrier, Phase.next, lt_irrefl, if_false]
      exact ⟨rfl, rfl, rfl⟩

private theorem wake_cases (b : Barrier) (u : Thread) :
    u.wake b = u ∨ ∃ meeting,
      u.pc = .waiting meeting ∧ u.wake b = { u with pc := meeting.next } := by
  unfold Thread.wake
  split
  · rename_i meeting hpc
    split_ifs
    · exact .inr ⟨meeting, hpc, rfl⟩
    · exact .inl rfl
  · exact .inl rfl

@[simp] theorem wake_clientPosition (b : Barrier) (u : Thread) :
    (u.wake b).clientPosition = u.clientPosition := by
  rcases wake_cases b u with h | ⟨meeting, -, h⟩ <;> rw [h]

@[simp] theorem wake_owns (b : Barrier) (u : Thread) : (u.wake b).owns = u.owns := by
  rcases wake_cases b u with h | ⟨meeting, hpc, h⟩
  · rw [h]
  · rw [h]
    cases meeting <;> simp [Thread.owns, hpc, Meeting.next]

@[simp] theorem wake_running (b : Barrier) (u : Thread) : (u.wake b).running = u.running := by
  rcases wake_cases b u with h | ⟨meeting, hpc, h⟩
  · rw [h]
  · rw [h]
    cases meeting <;> simp [Thread.running, hpc, Meeting.next]

@[simp] theorem wake_stores (b : Barrier) (u : Thread) : (u.wake b).stores = u.stores := by
  rcases wake_cases b u with h | ⟨meeting, hpc, h⟩
  · rw [h]
  · rw [h]
    cases meeting <;> simp [Thread.stores, hpc, Meeting.next]

@[simp] theorem wake_returns (b : Barrier) (q : Seat) (u : Thread) :
    (u.wake b).returns q = u.returns q := by
  rcases wake_cases b u with h | ⟨meeting, hpc, h⟩
  · rw [h]
  · rw [h]
    cases meeting <;> simp [Thread.returns, hpc, Meeting.next]

private theorem pc_of_wake {b : Barrier} {u : Thread} {todo : List Leaving}
    (h : (u.wake b).pc = .leaving todo) : u.pc = .leaving todo := by
  rcases wake_cases b u with heq | ⟨meeting, hpc, heq⟩
  · rwa [heq] at h
  · rw [heq] at h
    cases meeting <;> cases h

theorem SeatAt.wake {n : Nat} {phase : Phase} {p : Seat} {b : Barrier}
    (h : SeatAt n s phase .arrived p) (hb : phase.barrier n = some b)
    (hthreads : s'.clientThreads = s.clientThreads.map (Thread.wake b))
    (hgame : s'.gameStates p = s.gameStates p) :
    SeatAt n s' (phase.next n) (phase.next n).first p := by
  rcases h with ⟨k, t, hk, hpos, hrun, hat, hquiet⟩ | ⟨-, g, -, hreentry⟩
  · obtain ⟨meeting, hpc⟩ := hat.waiting
    obtain ⟨hbarrier, hnext⟩ := hat.wake hpc
    have heq : meeting.barrier = b := Option.some.inj (hbarrier.symm.trans hb)
    have hwake : t.wake b = { t with pc := meeting.next } := by
      simp [Thread.wake, hpc, heq]
    refine .inl ⟨k, t.wake b, ?_, ?_, ?_, ?_, ?_⟩
    · rw [hthreads, List.getElem?_map, hk]
      rfl
    · rw [wake_clientPosition, hpos]
    · rw [wake_running, hrun]
    · rw [hgame, hwake]
      exact hnext
    · intro u hu hupos
      rw [hthreads] at hu
      obtain ⟨v, hv, rfl⟩ := List.mem_map.mp hu
      rw [wake_stores]
      exact hquiet v hv (by simpa using hupos)
  · unfold Reentry at hreentry
    split_ifs at hreentry <;> simp_all

theorem Refines.arriving {meeting : Meeting} (h : Refines leads s a)
    (hk : s.clientThreads[k]? = some t) (hpc : t.pc = .arriving meeting) :
    a.stage t.clientPosition = .ready ∧
      a.phase.barrier leads.length = some meeting.barrier ∧
      ({ t with pc := .waiting meeting } : Thread).At leads.length
        (s.gameStates t.clientPosition) a.phase .arrived := by
  have hrun : t.running := by simp [Thread.running, hpc]
  obtain ⟨hready, hwaiting⟩ := (h.at hk hrun).1.arriving hpc
  exact ⟨hready, (hwaiting.wake rfl).1, hwaiting⟩

private theorem Refines.seat_waiting {meeting : Meeting} (h : Refines leads s a)
    (hk : s.clientThreads[k]? = some t) (hpc : t.pc = .arriving meeting) {q : Seat}
    (hq : a.stage q = .arrived ∨ q = t.clientPosition) :
    SeatAt leads.length (s.setThread k { t with pc := .waiting meeting }) a.phase .arrived q := by
  have hrun : t.running := by simp [Thread.running, hpc]
  have hquiet := (h.at hk hrun).2
  have hwaiting := (h.arriving hk hpc).2.2
  have hlt := (List.getElem?_eq_some_iff.mp hk).1
  rcases eq_or_ne q t.clientPosition with rfl | hne
  · refine .inl ⟨k, _, List.getElem?_set_self hlt, rfl, rfl, hwaiting, fun u hu hupos => ?_⟩
    rcases mem_of_mem_set hu with rfl | ⟨k', -, hk'⟩
    · simp [Thread.stores]
    · exact hquiet u (List.mem_of_getElem? hk') hupos
  · have hseat := h.seats q
    rw [hq.resolve_right hne] at hseat
    have hpos : ({ t with pc := .waiting meeting } : Thread).clientPosition ≠ q := hne.symm
    exact hseat.congr rfl fun k' u hu => getElem?_set_other hk hne.symm hpos k' u hu

/-- The fourth to arrive finds the other three there. -/
private theorem Refines.others_arrived {b : Barrier} {p : Seat} (h : Refines leads s a)
    (hb : a.phase.barrier leads.length = some b) (hp : a.stage p = .ready)
    (hlast : s.arrived b = 3) (q : Seat) (hq : q ≠ p) : a.stage q = .arrived := by
  have hcount := h.arrived b
  rw [if_pos hb] at hcount
  have hsub : Finset.univ.filter (a.stage · = .arrived) ⊆ Finset.univ.erase p := by
    intro r hr
    refine Finset.mem_erase.mpr ⟨?_, Finset.mem_univ r⟩
    rintro rfl
    rw [Finset.mem_filter, hp] at hr
    cases hr.2
  have heq := Finset.eq_of_subset_of_card_le hsub (by
    rw [Finset.card_erase_of_mem (Finset.mem_univ _), Finset.card_univ, Fintype.card_fin]
    omega)
  have hmem : q ∈ Finset.univ.filter (a.stage · = .arrived) := by
    rw [heq]
    exact Finset.mem_erase.mpr ⟨hq, Finset.mem_univ q⟩
  exact (Finset.mem_filter.mp hmem).2

private theorem first_ne_arrived (phase : Phase) : phase.first ≠ .arrived := by
  intro hfirst
  unfold Phase.first at hfirst
  split at hfirst
  all_goals first | cases hfirst | split_ifs at hfirst

private theorem arrived_setStage {p : Seat} (hp : a.stage p = .ready) :
    (Finset.univ.filter ((a.setStage p .arrived).stage · = .arrived)).card =
      (Finset.univ.filter (a.stage · = .arrived)).card + 1 := by
  have hinsert : Finset.univ.filter ((a.setStage p .arrived).stage · = .arrived) =
      insert p (Finset.univ.filter (a.stage · = .arrived)) := by
    ext q
    rw [Finset.mem_insert, Finset.mem_filter, Finset.mem_filter]
    change _ ∧ Function.update a.stage p .arrived q = .arrived ↔ _
    rcases eq_or_ne q p with rfl | hne
    · simp
    · simp [hne]
  have hnot : p ∉ Finset.univ.filter (a.stage · = .arrived) := by simp [hp]
  rw [hinsert, Finset.card_insert_of_notMem hnot]

private theorem Refines.arrived_other {b b' : Barrier} (h : Refines leads s a)
    (hb : a.phase.barrier leads.length = some b) (hne : b' ≠ b) :
    a.phase.barrier leads.length ≠ some b' ∧ s.arrived b' = 0 := by
  have hother : a.phase.barrier leads.length ≠ some b' := by
    rw [hb]
    exact fun heq => hne (Option.some.inj heq).symm
  exact ⟨hother, (h.arrived b').trans (if_neg hother)⟩

/-- The last at a barrier wakes the others. -/
private theorem Refines.arrive_last {meeting : Meeting} (h : Refines leads s a)
    (hk : s.clientThreads[k]? = some t) (hpc : t.pc = .arriving meeting)
    (hlast : s.arrived meeting.barrier = 3) :
    Refines leads (arrive s k t meeting) (a.goOn leads.length) := by
  have hrun : t.running := by simp [Thread.running, hpc]
  obtain ⟨hready, hbarrier, -⟩ := h.arriving hk hpc
  have hothers := h.others_arrived hbarrier hready hlast
  have hlt := (List.getElem?_eq_some_iff.mp hk).1
  have hthreads : (Mimuw.Cards.arrive s k t meeting).clientThreads =
      (s.clientThreads.set k { t with pc := .waiting meeting }).map
        (Thread.wake meeting.barrier) := by
    simp [Mimuw.Cards.arrive, hlast, Server.setThread]
  have hgames : (Mimuw.Cards.arrive s k t meeting).gameStates = s.gameStates := by
    simp [Mimuw.Cards.arrive, hlast, Server.setThread]
  have hget : ∀ (k' : Nat) (u : Thread), (Mimuw.Cards.arrive s k t meeting).clientThreads[k']? =
      some u → u.owns → ∃ v, s.clientThreads[k']? = some v ∧ v.owns ∧
        v.clientPosition = u.clientPosition := by
    intro k' u hu hown
    rw [hthreads, List.getElem?_map, Option.map_eq_some_iff] at hu
    obtain ⟨v, hv, rfl⟩ := hu
    rw [wake_owns] at hown
    rw [wake_clientPosition]
    rcases eq_or_ne k k' with rfl | hne
    · rw [List.getElem?_set_self hlt] at hv
      obtain rfl := Option.some.inj hv
      exact ⟨t, hk, Thread.owns_of_running hrun, rfl⟩
    · rw [List.getElem?_set_ne hne] at hv
      exact ⟨v, hv, hown, rfl⟩
  constructor
  case players => simpa [Mimuw.Cards.arrive, hlast, Server.setThread] using h.players
  case turn => simpa [Mimuw.Cards.arrive, hlast, Server.setThread, Table.goOn] using h.turn
  case permits => simpa [Mimuw.Cards.arrive, hlast, Server.setThread, Table.goOn] using h.permits
  case appended => simpa [Mimuw.Cards.arrive, hlast, Server.setThread, Table.goOn] using h.appended
  case returning =>
    intro q
    have hset := countP_set (Thread.returns q) { t with pc := .waiting meeting } hk
    have hwait : ({ t with pc := .waiting meeting } : Thread).returns q = false := rfl
    rw [Thread.not_returns_of_running hrun, hwait] at hset
    have hmap : (Thread.returns q ∘ Thread.wake meeting.barrier) = Thread.returns q :=
      funext fun u => wake_returns _ q u
    rw [hthreads, List.countP_map, hmap]
    change a.returning q = _
    rw [h.returning q]
    simpa using hset.symm
  case arrived =>
    intro b
    have harrived : (Mimuw.Cards.arrive s k t meeting).arrived =
        Function.update s.arrived meeting.barrier 0 := by
      simp [Mimuw.Cards.arrive, hlast]
    have hnobody : Finset.univ.filter ((a.goOn leads.length).stage · = .arrived) = ∅ :=
      Finset.filter_eq_empty_iff.mpr fun q _ => first_ne_arrived _
    rw [hnobody, Finset.card_empty, ite_self, harrived]
    rcases eq_or_ne b meeting.barrier with rfl | hne
    · exact Function.update_self _ _ _
    · rw [Function.update_of_ne hne]
      exact (h.arrived_other hbarrier hne).2
  case taken =>
    rw [hgames]
    exact h.taken
  case todo =>
    intro u hu todo htodo
    rw [hthreads] at hu
    obtain ⟨v, hv, rfl⟩ := List.mem_map.mp hu
    rcases mem_of_mem_set hv with rfl | ⟨k', -, hk'⟩
    · cases pc_of_wake htodo
    · exact h.todo v (List.mem_of_getElem? hk') todo (pc_of_wake htodo)
  case single =>
    intro k₁ k₂ u₁ u₂ h₁ h₂ hown₁ hown₂ hsame
    obtain ⟨v₁, hv₁, hvown₁, hvpos₁⟩ := hget k₁ u₁ h₁ hown₁
    obtain ⟨v₂, hv₂, hvown₂, hvpos₂⟩ := hget k₂ u₂ h₂ hown₂
    exact h.single k₁ k₂ v₁ v₂ hv₁ hv₂ hvown₁ hvown₂ (hvpos₁.trans (hsame.trans hvpos₂.symm))
  case occupied =>
    intro u hu hown
    obtain ⟨k', hk'⟩ := List.mem_iff_getElem?.mp hu
    obtain ⟨v, hv, hvown, hvpos⟩ := hget k' u hk' hown
    rw [hgames, ← hvpos]
    exact h.occupied v (List.mem_of_getElem? hv) hvown
  case seats =>
    intro q
    refine (h.seat_waiting hk hpc ?_).wake hbarrier hthreads (by rw [hgames]; rfl)
    rcases eq_or_ne q t.clientPosition with rfl | hne
    · exact .inr rfl
    · exact .inl (hothers q hne)

private theorem Refines.arrive_more {meeting : Meeting} (h : Refines leads s a)
    (hk : s.clientThreads[k]? = some t) (hpc : t.pc = .arriving meeting)
    (hmore : ¬ s.arrived meeting.barrier = 3) :
    Refines leads (arrive s k t meeting) (a.setStage t.clientPosition .arrived) := by
  have hrun : t.running := by simp [Thread.running, hpc]
  obtain ⟨hready, hbarrier, -⟩ := h.arriving hk hpc
  have hthreads : (Mimuw.Cards.arrive s k t meeting).clientThreads =
      s.clientThreads.set k { t with pc := .waiting meeting } := by
    simp [Mimuw.Cards.arrive, hmore, Server.setThread]
  have hgames : (Mimuw.Cards.arrive s k t meeting).gameStates = s.gameStates := by
    simp [Mimuw.Cards.arrive, hmore, Server.setThread]
  have hpos : ({ t with pc := .waiting meeting } : Thread).clientPosition = t.clientPosition := rfl
  refine h.thread_step hk hpos hthreads ?_ ?_ ?_ ?_
    (fun q => ?_) (fun b => ?_) rfl (fun q hne => Function.update_of_ne hne _ _)
    (fun q _ => by rw [hgames]) ?_ (by simp) (fun _ => Thread.owns_of_running hrun)
    (.inl (by rw [hgames])) ?_
  · simp [Mimuw.Cards.arrive, hmore, Server.setThread]
  · simpa [Mimuw.Cards.arrive, hmore, Server.setThread, Table.setStage] using h.turn
  · simpa [Mimuw.Cards.arrive, hmore, Server.setThread, Table.setStage] using h.permits
  · simpa [Mimuw.Cards.arrive, hmore, Server.setThread, Table.setStage] using h.appended
  · rw [Thread.not_returns_of_running hrun]
    rfl
  · have harrived : (Mimuw.Cards.arrive s k t meeting).arrived = Function.update s.arrived
        meeting.barrier (s.arrived meeting.barrier + 1) := by
      simp [Mimuw.Cards.arrive, hmore]
    rw [harrived, arrived_setStage hready]
    change _ = if a.phase.barrier leads.length = some b then _ else 0
    rcases eq_or_ne b meeting.barrier with rfl | hne
    · rw [Function.update_self, h.arrived, if_pos hbarrier, if_pos hbarrier]
    · obtain ⟨hother, hzero⟩ := h.arrived_other hbarrier hne
      rw [Function.update_of_ne hne, hzero, if_neg hother]
  · rw [hgames]
    exact h.taken _
  · have hseat := h.seat_waiting hk hpc (.inr rfl)
    have hself : (a.setStage t.clientPosition .arrived).stage t.clientPosition = .arrived :=
      Function.update_self _ _ _
    rw [hself]
    refine hseat.congr (by rw [hgames]; rfl) fun k' u _ => ?_
    rw [hthreads]
    rfl

theorem Refines.arrive {meeting : Meeting} (h : Refines leads s a)
    (hk : s.clientThreads[k]? = some t) (hpc : t.pc = .arriving meeting) :
    ∃ a', Relation.ReflGen (Step (leadOf leads) leads.length) a a' ∧
      Refines leads (arrive s k t meeting) a' := by
  obtain ⟨hready, hbarrier, -⟩ := h.arriving hk hpc
  by_cases hlast : s.arrived meeting.barrier = 3
  · have hothers := h.others_arrived hbarrier hready hlast
    exact ⟨_, .single (Step.goOn a t.clientPosition hready hothers), h.arrive_last hk hpc hlast⟩
  · exact ⟨_, .single (Step.arrive a t.clientPosition hready), h.arrive_more hk hpc hlast⟩

/-! ## Connections -/

def GameState.occupy (g : GameState) : GameState := { g with seatOccupied := true }

private theorem store_occupy {todo : List Leaving} (h : .setSeat ∉ todo) (g : GameState) :
    todo.foldl Leaving.store g.occupy = (todo.foldl Leaving.store g).occupy := by
  induction todo generalizing g with
  | nil => rfl
  | cons x todo ih =>
      simp only [List.mem_cons, not_or] at h
      rw [List.foldl_cons, List.foldl_cons, ← ih h.2]
      have hx : x.store g.occupy = (x.store g).occupy := by
        cases x <;> first | rfl | exact absurd rfl h.1
      rw [hx]

private theorem Refines.occupy {seat : Seat} {new : List Thread} (h : Refines leads s a)
    (hfree : (s.gameStates seat).seatOccupied = false)
    (hnew : ∀ u ∈ new, u.clientPosition = seat ∧ u.pc = .start) (hone : new.length ≤ 1)
    (hthreads : s'.clientThreads = s.clientThreads ++ new)
    (hgames : s'.gameStates = Function.update s.gameStates seat (s.gameStates seat).occupy)
    (hplayers : s'.deals = s.deals) (hturn : s'.currentTurn = s.currentTurn)
    (hpermits : s'.playerSemaphores = s.playerSemaphores) (harrived : s'.arrived = s.arrived)
    (happended : s'.appended = s.appended) : Refines leads s' a := by
  have hself : s'.gameStates seat = (s.gameStates seat).occupy := by
    rw [hgames, Function.update_self]
  have hother : ∀ q, q ≠ seat → s'.gameStates q = s.gameStates q := by
    intro q hne
    rw [hgames, Function.update_of_ne hne]
  have hkeep : ∀ (k : Nat) (u : Thread), s.clientThreads[k]? = some u →
      s'.clientThreads[k]? = some u := by
    intro k u hu
    rw [hthreads, List.getElem?_append_left (List.getElem?_eq_some_iff.mp hu).1]
    exact hu
  have hget : ∀ (k : Nat) (u : Thread), s'.clientThreads[k]? = some u →
      s.clientThreads[k]? = some u ∨ k = s.clientThreads.length ∧ u ∈ new := by
    intro k u hu
    rw [hthreads] at hu
    rcases Nat.lt_or_ge k s.clientThreads.length with hlt | hge
    · rw [List.getElem?_append_left hlt] at hu
      exact .inl hu
    · rw [List.getElem?_append_right hge] at hu
      have := (List.getElem?_eq_some_iff.mp hu).1
      exact .inr ⟨by omega, List.mem_of_getElem? hu⟩
  have hmem : ∀ u ∈ s'.clientThreads, u ∈ s.clientThreads ∨ u ∈ new := by
    intro u hu
    rw [hthreads] at hu
    exact List.mem_append.mp hu
  have hnobody : ∀ u ∈ s.clientThreads, u.clientPosition = seat → ¬ u.owns := by
    intro u hu hupos hown
    have := h.occupied u hu hown
    rw [hupos, hfree] at this
    cases this
  have hidle : ∀ u ∈ new, ¬ u.running ∧ ¬ u.stores := by
    intro u hu
    have hpc := (hnew u hu).2
    constructor <;> simp [Thread.running, Thread.stores, hpc]
  refine ⟨hplayers ▸ h.players, hturn.trans h.turn, hpermits.trans h.permits,
    happended ▸ h.appended, fun q => ?_, harrived ▸ h.arrived, fun q => ?_, ?_, ?_, ?_, fun q => ?_⟩
  · have hzero : new.countP (Thread.returns q) = 0 := by
      refine List.countP_eq_zero.mpr fun u hu => ?_
      simp [Thread.returns, (hnew u hu).2]
    rw [hthreads, List.countP_append, hzero, h.returning q]
    rfl
  · rcases eq_or_ne q seat with rfl | hne
    · rw [hself]
      exact h.taken q
    · rw [hother q hne]
      exact h.taken q
  · intro u hu todo htodo
    rcases hmem u hu with hu | hu
    · exact h.todo u hu todo htodo
    · rw [(hnew u hu).2] at htodo
      cases htodo
  · intro k₁ k₂ u₁ u₂ h₁ h₂ hown₁ hown₂ hsame
    rcases hget k₁ u₁ h₁ with hold₁ | ⟨heq₁, hnew₁⟩
    · rcases hget k₂ u₂ h₂ with hold₂ | ⟨-, hnew₂⟩
      · exact h.single k₁ k₂ u₁ u₂ hold₁ hold₂ hown₁ hown₂ hsame
      · have hpos := hsame.trans (hnew u₂ hnew₂).1
        exact absurd hown₁ (hnobody u₁ (List.mem_of_getElem? hold₁) hpos)
    · rcases hget k₂ u₂ h₂ with hold₂ | ⟨heq₂, -⟩
      · have hpos := hsame.symm.trans (hnew u₁ hnew₁).1
        exact absurd hown₂ (hnobody u₂ (List.mem_of_getElem? hold₂) hpos)
      · exact heq₁.trans heq₂.symm
  · intro u hu hown
    rcases hmem u hu with hu | hu
    · rcases eq_or_ne u.clientPosition seat with heq | hne
      · exact absurd hown (hnobody u hu heq)
      · rw [hother _ hne]
        exact h.occupied u hu hown
    · rw [(hnew u hu).1, hself]
      rfl
  · rcases eq_or_ne q seat with rfl | hne
    · rcases h.seats q with ⟨k, u, hk, hupos, hurun, -⟩ | ⟨hnone, g, hsettles, hreentry⟩
      · exact absurd (Thread.owns_of_running hurun) (hnobody u (List.mem_of_getElem? hk) hupos)
      · refine .inr ⟨fun u hu hupos => ?_, g.occupy, ?_, hreentry⟩
        · rcases hmem u hu with hu | hu
          · exact hnone u hu hupos
          · exact (hidle u hu).1
        · rcases hsettles with ⟨hquiet, rfl⟩ | ⟨k, u, hk, hupos, hstores, rfl, honly⟩
          · refine .inl ⟨fun u hu hupos => ?_, hself.symm⟩
            rcases hmem u hu with hu | hu
            · exact hquiet u hu hupos
            · exact (hidle u hu).2
          · refine .inr ⟨k, u, hkeep k u hk, hupos, hstores, ?_, fun k' v hv hvpos hvstores => ?_⟩
            · have hnot := hnobody u (List.mem_of_getElem? hk) hupos
              rw [hself]
              unfold Thread.stores at hstores
              unfold Thread.owns at hnot
              unfold Thread.settle
              split at hstores
              · rename_i todo hpc
                simp only [hpc, decide_eq_true_eq] at hnot ⊢
                exact (store_occupy hnot _).symm
              · cases hstores
            · rcases hget k' v hv with hv | ⟨-, hv⟩
              · exact honly k' v hv hvpos hvstores
              · exact absurd hvstores (hidle v hv).2
    · refine (h.seats q).congr (hother q hne) fun k u hupos => ⟨fun hu => ?_, hkeep k u⟩
      rcases hget k u hu with hu | ⟨-, hu⟩
      · exact hu
      · exact absurd ((hnew u hu).1.symm.trans hupos) hne.symm

theorem Refines.error (h : Refines leads s a) : Refines leads s.error a :=
  ⟨h.players, h.turn, h.permits, h.appended, h.returning, h.arrived, h.taken, h.todo, h.single,
    h.occupied, h.seats⟩

theorem Refines.accept {clientSocket : Nat} {io : Io} (h : Refines leads s a)
    (hstep : acceptStep s clientSocket io = some s') : Refines leads s' a := by
  unfold acceptStep at hstep
  split at hstep
  · cases hstep
  · split at hstep
    · split at hstep
      · cases hstep
        exact h
      · split at hstep
        · cases hstep
          exact h
        · cases hstep
          exact h.error
      · rename_i seat hseat
        have hfree := seated_free hseat
        have hnone : ∀ u ∈ ([] : List Thread), u.clientPosition = seat ∧ u.pc = .start := by simp
        simp only at hstep
        split at hstep
        · cases hstep
          exact h.occupy hfree (by simp) (by simp) rfl rfl rfl rfl rfl rfl rfl
        · cases hstep
          exact h.occupy hfree hnone (Nat.zero_le 1)
            (List.append_nil _).symm rfl rfl rfl rfl rfl rfl
    · cases hstep
      exact h.error

end Mimuw.Cards
