import Mimuw.Cards.TurnRelation

/-!
# Handlers that move on and leave

One step of one handler takes its own seat on at most.  A handler whose client is gone
stores where its game goes on, and with the last store its seat is free.
-/

namespace Mimuw.Cards

open Mimuw.Lib
open Turns

variable {leads : List Char} {s s' : Server} {a a' : Table} {k : Nat} {t t' : Thread}

private theorem Refines.arrived_of (h : Refines leads s a) {p : Seat} (hphase : a'.phase = a.phase)
    (hstages : ∀ q, q ≠ p → a'.stage q = a.stage q)
    (hstage : a'.stage p = .arrived ↔ a.stage p = .arrived) (b : Barrier) :
    s.arrived b = if a'.phase.barrier leads.length = some b then
      (Finset.univ.filter (a'.stage · = .arrived)).card else 0 := by
  have hfilter : (Finset.univ.filter (a'.stage · = .arrived)) =
      Finset.univ.filter (a.stage · = .arrived) := by
    refine Finset.filter_congr fun q _ => ?_
    rcases eq_or_ne q p with rfl | hne
    · exact hstage
    · rw [hstages q hne]
  rw [hphase, hfilter, h.arrived b]

/-- One thread makes a step that moves its own seat at most. -/
theorem Refines.thread_step (h : Refines leads s a) (hk : s.clientThreads[k]? = some t)
    (hpos : t'.clientPosition = t.clientPosition)
    (hthreads : s'.clientThreads = s.clientThreads.set k t')
    (hplayers : s'.deals.map Deal.leadPlayer = s.deals.map Deal.leadPlayer)
    (hturn : s'.currentTurn = a'.turn) (hpermits : s'.playerSemaphores = a'.permits)
    (happended : ∀ j i, (s'.appended j i).map Prod.fst = a'.appended j i)
    (hreturning : ∀ q, a'.returning q + (if t.returns q then 1 else 0) =
      a.returning q + if t'.returns q then 1 else 0)
    (harrived : ∀ b, s'.arrived b = if a'.phase.barrier leads.length = some b then
      (Finset.univ.filter (a'.stage · = .arrived)).card else 0)
    (hphase : a'.phase = a.phase)
    (hstages : ∀ q, q ≠ t.clientPosition → a'.stage q = a.stage q)
    (hgames : ∀ q, q ≠ t.clientPosition → s'.gameStates q = s.gameStates q)
    (htaken : (s'.gameStates t.clientPosition).disconnectOnSendTakenMsg = false)
    (htodo : ∀ todo, t'.pc = .leaving todo → GivesUp todo)
    (howns : t'.owns → t.owns)
    (hoccupied : (s'.gameStates t.clientPosition).seatOccupied =
        (s.gameStates t.clientPosition).seatOccupied ∨ t.owns ∧ ¬ t'.owns)
    (hseat : SeatAt leads.length s' a'.phase (a'.stage t.clientPosition) t.clientPosition) :
    Refines leads s' a' := by
  refine ⟨hplayers.trans h.players, hturn, hpermits, happended, fun q => ?_, harrived,
    fun q => ?_, ?_, ?_, ?_, fun q => ?_⟩
  · have hcount := countP_set (Thread.returns q) t' hk
    have := hreturning q
    have := h.returning q
    rw [hthreads]
    omega
  · rcases eq_or_ne q t.clientPosition with rfl | hne
    · exact htaken
    · rw [hgames q hne]
      exact h.taken q
  · intro u hu todo htodo'
    rw [hthreads] at hu
    rcases mem_of_mem_set hu with rfl | ⟨k', -, hk'⟩
    · exact htodo todo htodo'
    · exact h.todo u (List.mem_of_getElem? hk') todo htodo'
  · have hget : ∀ (k' : Nat) (u : Thread), s'.clientThreads[k']? = some u → u.owns →
        ∃ u', s.clientThreads[k']? = some u' ∧ u'.owns ∧ u'.clientPosition = u.clientPosition := by
      intro k' u hu hown
      rw [hthreads] at hu
      rcases eq_or_ne k k' with rfl | hne
      · rw [List.getElem?_set_self (List.getElem?_eq_some_iff.mp hk).1] at hu
        obtain rfl := Option.some.inj hu
        exact ⟨t, hk, howns hown, hpos.symm⟩
      · rw [List.getElem?_set_ne hne] at hu
        exact ⟨u, hu, hown, rfl⟩
    intro k₁ k₂ u₁ u₂ h₁ h₂ hown₁ hown₂ hsame
    obtain ⟨v₁, hv₁, hvown₁, hvpos₁⟩ := hget k₁ u₁ h₁ hown₁
    obtain ⟨v₂, hv₂, hvown₂, hvpos₂⟩ := hget k₂ u₂ h₂ hown₂
    exact h.single k₁ k₂ v₁ v₂ hv₁ hv₂ hvown₁ hvown₂ (hvpos₁.trans (hsame.trans hvpos₂.symm))
  · intro u hu hown
    rw [hthreads] at hu
    rcases mem_of_mem_set hu with rfl | ⟨k', hne, hk'⟩
    · rw [hpos]
      rcases hoccupied with heq | ⟨-, hnot⟩
      · rw [heq]
        exact h.occupied t (List.mem_of_getElem? hk) (howns hown)
      · exact absurd hown hnot
    · rcases eq_or_ne u.clientPosition t.clientPosition with heq | hneq
      · rw [heq]
        rcases hoccupied with hsame | ⟨hown', -⟩
        · rw [hsame, ← heq]
          exact h.occupied u (List.mem_of_getElem? hk') hown
        · exact absurd (h.single k' k u t hk' hk hown hown' heq) hne
      · rw [hgames _ hneq]
        exact h.occupied u (List.mem_of_getElem? hk') hown
  · rcases eq_or_ne q t.clientPosition with rfl | hne
    · exact hseat
    · rw [hphase, hstages q hne]
      refine (h.seats q).congr (hgames q hne) fun k' u hu => ?_
      rw [hthreads]
      exact getElem?_set_other hk hne.symm (hpos ▸ hne.symm) k' u hu

theorem Refines.move (h : Refines leads s a) (hk : s.clientThreads[k]? = some t)
    (hrun : t.running) (hthreads : s'.clientThreads = s.clientThreads.set k t')
    (hpos : t'.clientPosition = t.clientPosition) (hrun' : t'.running)
    (hplayers : s'.deals.map Deal.leadPlayer = s.deals.map Deal.leadPlayer)
    (hturn : s'.currentTurn = a'.turn) (hpermits : s'.playerSemaphores = a'.permits)
    (happended : ∀ j i, (s'.appended j i).map Prod.fst = a'.appended j i)
    (hreturning : a'.returning = a.returning)
    (harrived : s'.arrived = s.arrived) (hphase : a'.phase = a.phase) {stage : Stage}
    (hstage : a'.stage = Function.update a.stage t.clientPosition stage)
    (hnew : stage ≠ .arrived) (hold : a.stage t.clientPosition ≠ .arrived) {g : GameState}
    (hgame : s'.gameStates = Function.update s.gameStates t.clientPosition g)
    (htaken : g.disconnectOnSendTakenMsg = false)
    (hoccupied : g.seatOccupied = (s.gameStates t.clientPosition).seatOccupied)
    (hat : t'.At leads.length g a.phase stage) : Refines leads s' a' := by
  have hself : s'.gameStates t.clientPosition = g := by rw [hgame, Function.update_self]
  have hstage' : a'.stage t.clientPosition = stage := by rw [hstage, Function.update_self]
  have hstages : ∀ q, q ≠ t.clientPosition → a'.stage q = a.stage q := by
    intro q hne
    rw [hstage, Function.update_of_ne hne]
  have hsame : a'.stage t.clientPosition = .arrived ↔ a.stage t.clientPosition = .arrived := by
    rw [hstage']
    exact iff_of_false hnew hold
  refine h.thread_step hk hpos hthreads hplayers hturn hpermits happended (fun q => ?_)
    (harrived ▸ h.arrived_of hphase hstages hsame) hphase hstages (fun q hne => ?_) ?_ ?_ ?_ ?_ ?_
  · rw [hreturning, Thread.not_returns_of_running hrun, Thread.not_returns_of_running hrun']
  · rw [hgame, Function.update_of_ne hne]
  · rw [hself]
    exact htaken
  · exact fun todo htodo => absurd htodo (Thread.not_leaving_of_running hrun' todo)
  · exact fun _ => Thread.owns_of_running hrun
  · rw [hself]
    exact .inl hoccupied
  · refine .inl ⟨k, t', ?_, hpos, hrun', ?_, fun u hu hupos => ?_⟩
    · rw [hthreads, List.getElem?_set_self (List.getElem?_eq_some_iff.mp hk).1]
    · rw [hself, hstage', hphase]
      exact hat
    · rw [hthreads] at hu
      rcases mem_of_mem_set hu with rfl | ⟨k', -, hk'⟩
      · exact Thread.not_stores_of_running hrun'
      · exact (h.at hk hrun).2 u (List.mem_of_getElem? hk') hupos

theorem Refines.giveUp (h : Refines leads s a) (hk : s.clientThreads[k]? = some t)
    (hrun : t.running) {todo : List Leaving} (htodo : GivesUp todo)
    (hstores : todo.any Leaving.isStore)
    (hturn : a'.turn = a.turn) (hpermits : a'.permits = a.permits)
    (happended : a'.appended = a.appended)
    (hreturning : ∀ q, a'.returning q =
      a.returning q + if t.clientPosition = q ∧ .release ∈ todo then 1 else 0)
    (hphase : a'.phase = a.phase) {stage : Stage}
    (hstage : a'.stage = Function.update a.stage t.clientPosition stage)
    (hnew : stage ≠ .arrived) (hold : a.stage t.clientPosition ≠ .arrived)
    (hreentry : Reentry (todo.foldl Leaving.store (s.gameStates t.clientPosition)) a.phase stage) :
    Refines leads (s.setThread k { t with pc := .leaving todo }) a' := by
  have hstage' : a'.stage t.clientPosition = stage := by rw [hstage, Function.update_self]
  have hpos : ({ t with pc := .leaving todo } : Thread).clientPosition = t.clientPosition := rfl
  have hstages : ∀ q, q ≠ t.clientPosition → a'.stage q = a.stage q := by
    intro q hne
    rw [hstage, Function.update_of_ne hne]
  have hsame : a'.stage t.clientPosition = .arrived ↔ a.stage t.clientPosition = .arrived := by
    rw [hstage']
    exact iff_of_false hnew hold
  refine h.thread_step hk hpos rfl rfl (h.turn.trans hturn.symm) (h.permits.trans hpermits.symm)
    (fun j i => happended ▸ h.appended j i) (fun q => ?_) (h.arrived_of hphase hstages hsame)
    hphase hstages (fun _ _ => rfl) (h.taken _) ?_ ?_ (.inl rfl) ?_
  · rw [hreturning, Thread.not_returns_of_running hrun]
    simp [Thread.returns]
  · rintro _ ⟨⟩
    exact htodo
  · exact fun _ => Thread.owns_of_running hrun
  · have hlt := (List.getElem?_eq_some_iff.mp hk).1
    refine .inr ⟨fun u hu hupos hurun => ?_, _,
      .inr ⟨k, _, List.getElem?_set_self hlt, rfl, hstores,
      rfl, fun k' u hu hupos hustores => ?_⟩, ?_⟩
    · rcases mem_of_mem_set hu with rfl | ⟨k', hne, hk'⟩
      · simp [Thread.running] at hurun
      · exact hne (h.single k' k u t hk' hk (Thread.owns_of_running hurun)
          (Thread.owns_of_running hrun) hupos)
    · rcases eq_or_ne k k' with rfl | hne
      · rfl
      · have hu' : s.clientThreads[k']? = some u := by
          rw [← hu]
          exact (List.getElem?_set_ne hne).symm
        exact absurd hustores ((h.at hk hrun).2 u (List.mem_of_getElem? hu') hupos)
    · rw [hphase, hstage']
      exact hreentry

theorem Refines.begin (h : Refines leads s a) (hk : s.clientThreads[k]? = some t)
    (hpc : t.pc = .start)
    (hquiet : ∀ u : Thread, u ∈ s.clientThreads → u.clientPosition =
    t.clientPosition → ¬ u.stores) :
    Refines leads (s.setThread k
      { t with j := (s.gameStates t.clientPosition).currentDeal, pc := .dealLoop }) a := by
  have hlt := (List.getElem?_eq_some_iff.mp hk).1
  have howns : t.owns := by simp [Thread.owns, hpc]
  have hpos : ({ t with j := (s.gameStates t.clientPosition).currentDeal, pc := .dealLoop } :
    Thread).clientPosition = t.clientPosition := rfl
  refine h.thread_step hk hpos rfl rfl h.turn h.permits h.appended (fun q => ?_) h.arrived rfl
    (fun _ _ => rfl) (fun _ _ => rfl) (h.taken _) (fun _ => nofun) (fun _ => howns) (.inl rfl) ?_
  · simp [Thread.returns, hpc]
  · refine .inl ⟨k, _, List.getElem?_set_self hlt, rfl, rfl, ?_, fun u hu hupos => ?_⟩
    · rcases h.seats t.clientPosition with ⟨k', u, hk', hupos, hurun, -⟩ |
        ⟨-, g, hsettles, hreentry⟩
      · obtain rfl := h.single k' k u t hk' hk (Thread.owns_of_running hurun) howns hupos
        obtain rfl := Option.some.inj (hk'.symm.trans hk)
        simp [Thread.running, hpc] at hurun
      · rcases hsettles with ⟨-, rfl⟩ | ⟨k', u, hk', hupos, hstores, -⟩
        · exact hreentry
        · exact absurd hstores (hquiet u (List.mem_of_getElem? hk') hupos)
    · rcases mem_of_mem_set hu with rfl | ⟨k', -, hk'⟩
      · simp [Thread.stores]
      · exact hquiet u (List.mem_of_getElem? hk') hupos

/-- A statement of a leaving handler does not change where its seat goes on. -/
theorem SeatAt.leave {n : Nat} {x : Leaving} {todo : List Leaving} {phase : Phase} {stage : Stage}
    (h : SeatAt n s phase stage t.clientPosition) (hk : s.clientThreads[k]? = some t)
    (hpc : t.pc = .leaving (x :: todo))
    (hthreads : s'.clientThreads = s.clientThreads.set k { t with pc := .leaving todo })
    (hgame : s'.gameStates t.clientPosition = x.store (s.gameStates t.clientPosition)) :
    SeatAt n s' phase stage t.clientPosition := by
  have hlt := (List.getElem?_eq_some_iff.mp hk).1
  have hset : s'.clientThreads[k]? = some { t with pc := .leaving todo } := by
    rw [hthreads, List.getElem?_set_self hlt]
  have hother : ∀ k', k ≠ k' → s'.clientThreads[k']? = s.clientThreads[k']? := by
    intro k' hne
    rw [hthreads, List.getElem?_set_ne hne]
  have hmem : ∀ u ∈ s'.clientThreads, u = { t with pc := .leaving todo } ∨
      ∃ k', k' ≠ k ∧ s.clientThreads[k']? = some u := by
    intro u hu
    rw [hthreads] at hu
    exact mem_of_mem_set hu
  -- with nothing left to store the statement stores nothing
  have hsame : ¬ t.stores → s'.gameStates t.clientPosition = s.gameStates t.clientPosition ∧
      ¬ ({ t with pc := .leaving todo } : Thread).stores := by
    intro hnot
    simp only [Thread.stores, hpc, List.any_cons, Bool.or_eq_true, not_or] at hnot
    exact ⟨hgame.trans (Leaving.store_eq hnot.1 _), by simpa [Thread.stores] using hnot.2⟩
  have hquiet : (∀ u : Thread, u ∈ s.clientThreads → u.clientPosition = t.clientPosition →
      ¬ u.stores) → ∀ u : Thread, u ∈ s'.clientThreads → u.clientPosition = t.clientPosition →
      ¬ u.stores := by
    intro hall u hu hupos
    rcases hmem u hu with rfl | ⟨k', -, hk'⟩
    · exact (hsame (hall t (List.mem_of_getElem? hk) rfl)).2
    · exact hall u (List.mem_of_getElem? hk') hupos
  rcases h with ⟨k', u, hk', hupos, hurun, hat, hall⟩ | ⟨hnone, g, hsettles, hreentry⟩
  · have hne : k ≠ k' := by
      rintro rfl
      obtain rfl := Option.some.inj (hk.symm.trans hk')
      exact t.not_leaving_of_running hurun _ hpc
    refine .inl ⟨k', u, (hother k' hne).trans hk', hupos, hurun, ?_, hquiet hall⟩
    rw [(hsame (hall t (List.mem_of_getElem? hk) rfl)).1]
    exact hat
  · refine .inr ⟨fun u hu hupos => ?_, g, ?_, hreentry⟩
    · rcases hmem u hu with rfl | ⟨k', -, hk'⟩
      · simp [Thread.running]
      · exact hnone u (List.mem_of_getElem? hk') hupos
    · rcases hsettles with ⟨hall, hg⟩ | ⟨k₀, u, hk₀, hupos, hstores, hg, honly⟩
      · refine .inl ⟨hquiet hall, ?_⟩
        rw [hg, (hsame (hall t (List.mem_of_getElem? hk) rfl)).1]
      · rcases eq_or_ne k k₀ with rfl | hne
        · obtain rfl := Option.some.inj (hk.symm.trans hk₀)
          have hsettle : g = ({ t with pc := .leaving todo } : Thread).settle
              (s'.gameStates t.clientPosition) := by
            rw [hg, hgame]
            simp [Thread.settle, hpc]
          by_cases hstill : ({ t with pc := .leaving todo } : Thread).stores
          · refine .inr ⟨k, _, hset, rfl, hstill, hsettle, fun k' v hk' hvpos hv => ?_⟩
            rcases eq_or_ne k k' with rfl | hne
            · rfl
            · exact honly k' v ((hother k' hne).symm.trans hk') hvpos hv
          · refine .inl ⟨fun v hv hvpos hvstores => ?_, ?_⟩
            · rcases hmem v hv with rfl | ⟨k', hne, hk'⟩
              · exact hstill hvstores
              · exact hne (honly k' v hk' hvpos hvstores)
            · have hfold : ∀ (rest : List Leaving) (g : GameState), ¬ rest.any Leaving.isStore →
                  rest.foldl Leaving.store g = g := by
                intro rest g hrest
                induction rest with
                | nil => rfl
                | cons y rest ih =>
                    simp only [List.any_cons, Bool.or_eq_true, not_or] at hrest
                    rw [List.foldl_cons, Leaving.store_eq hrest.1, ih hrest.2]
              rw [hsettle]
              exact hfold todo _ hstill
        · have hnot : ¬ t.stores := fun hstores' => hne (honly k t hk rfl hstores')
          refine .inr ⟨k₀, u, (hother k₀ hne).trans hk₀, hupos, hstores, ?_, ?_⟩
          · rw [(hsame hnot).1]
            exact hg
          · intro k' v hk' hvpos hv
            rcases eq_or_ne k k' with rfl | hne'
            · obtain rfl := Option.some.inj (hset.symm.trans hk')
              exact absurd hv (hsame hnot).2
            · exact honly k' v ((hother k' hne').symm.trans hk') hvpos hv

private theorem Leaving.store_seatOccupied {x : Leaving} (h : x ≠ .setSeat) (g : GameState) :
    (x.store g).seatOccupied = g.seatOccupied := by
  cases x <;> first | rfl | exact absurd rfl h

private theorem Leaving.store_taken {x : Leaving} (h : x ≠ .setDisconnectOnSendTakenMsg)
    (g : GameState) : (x.store g).disconnectOnSendTakenMsg = g.disconnectOnSendTakenMsg := by
  cases x <;> first | rfl | exact absurd rfl h

private theorem leavingStep_gameStates (s : Server) (p : Seat) (x : Leaving) :
    (leavingStep s p x).gameStates = Function.update s.gameStates p (x.store (s.gameStates p)) := by
  cases x <;> first | rfl | exact (Function.update_eq_self p s.gameStates).symm

private theorem leavingStep_playerSemaphores {x : Leaving} (hx : x ≠ .release) (s : Server)
    (p : Seat) : (leavingStep s p x).playerSemaphores = s.playerSemaphores := by
  cases x <;> first | rfl | exact absurd rfl hx

private theorem leavingStep_rest (s : Server) (p : Seat) (x : Leaving) :
    (leavingStep s p x).clientThreads = s.clientThreads ∧ (leavingStep s p x).deals = s.deals ∧
      (leavingStep s p x).currentTurn = s.currentTurn ∧
      (leavingStep s p x).arrived = s.arrived ∧ (leavingStep s p x).appended = s.appended := by
  cases x <;> exact ⟨rfl, rfl, rfl, rfl, rfl⟩

theorem Refines.leave {x : Leaving} {todo : List Leaving} (h : Refines leads s a)
    (hk : s.clientThreads[k]? = some t) (hpc : t.pc = .leaving (x :: todo)) :
    ∃ a', Relation.ReflGen (Step (leadOf leads) leads.length) a a' ∧
      Refines leads ((leavingStep s t.clientPosition x).setThread k { t with pc := .leaving todo })
        a' := by
  have hgives := h.todo t (List.mem_of_getElem? hk) _ hpc
  have hnodup := List.nodup_cons.mp hgives.nodup
  obtain ⟨hthreads, hdeals, hturn, harrived, happended⟩ := leavingStep_rest s t.clientPosition x
  have hgames := leavingStep_gameStates s t.clientPosition x
  have hself : (leavingStep s t.clientPosition x).gameStates t.clientPosition =
      x.store (s.gameStates t.clientPosition) := by
    rw [hgames, Function.update_self]
  have hset : ((leavingStep s t.clientPosition x).setThread k
      { t with pc := .leaving todo }).clientThreads =
        s.clientThreads.set k { t with pc := .leaving todo } := by
    rw [Server.setThread, hthreads]
  have hseat := (h.seats t.clientPosition).leave hk hpc hset hself
  have howns : t.owns ↔ .setSeat = x ∨ .setSeat ∈ todo := by simp [Thread.owns, hpc]
  have hoccupied : ((leavingStep s t.clientPosition x).gameStates t.clientPosition).seatOccupied =
      (s.gameStates t.clientPosition).seatOccupied ∨
        t.owns ∧ ¬ ({ t with pc := .leaving todo } : Thread).owns := by
    rw [hself]
    rcases eq_or_ne x .setSeat with rfl | hne
    · exact .inr ⟨howns.mpr (.inl rfl), by simpa [Thread.owns] using hnodup.1⟩
    · exact .inl (Leaving.store_seatOccupied hne _)
  have htaken : ((leavingStep s t.clientPosition x).gameStates
      t.clientPosition).disconnectOnSendTakenMsg = false := by
    rw [hself, Leaving.store_taken hgives.ne_taken]
    exact h.taken _
  have hothers : ∀ q, q ≠ t.clientPosition →
      (leavingStep s t.clientPosition x).gameStates q = s.gameStates q := by
    intro q hne
    rw [hgames, Function.update_of_ne hne]
  have hpos : ({ t with pc := .leaving todo } : Thread).clientPosition = t.clientPosition := rfl
  have htodo : ∀ rest, ({ t with pc := .leaving todo } : Thread).pc = .leaving rest →
      GivesUp rest := by
    rintro _ ⟨⟩
    exact hgives.tail
  have howns' : ({ t with pc := .leaving todo } : Thread).owns → t.owns :=
    fun hown => howns.mpr (.inr (by simpa [Thread.owns] using hown))
  rcases eq_or_ne x .release with rfl | hx
  · have hpending : 0 < a.returning t.clientPosition := by
      rw [h.returning, List.countP_pos_iff]
      exact ⟨t, List.mem_of_getElem? hk, by simp [Thread.returns, hpc]⟩
    refine ⟨_, .single (Step.giveBack a t.clientPosition hpending), ?_⟩
    refine h.thread_step hk hpos hset (congrArg _ hdeals) (hturn.trans h.turn) ?_
      (fun j i => h.appended j i) (fun q => ?_) (harrived ▸ h.arrived) rfl (fun _ _ => rfl)
      hothers htaken htodo howns' hoccupied hseat
    · simp [Server.setThread, leavingStep, Server.release, Server.setSemaphore, Table.setPermits,
        Table.setReturning, h.permits]
    · rcases eq_or_ne q t.clientPosition with rfl | hne
      · simp [Table.setPermits, Table.setReturning, Thread.returns, hpc, hnodup.1]
        omega
      · simp [Table.setPermits, Table.setReturning, Thread.returns, hpc, hne, hne.symm]
  · refine ⟨a, .refl, ?_⟩
    refine h.thread_step hk hpos hset (congrArg _ hdeals) (hturn.trans h.turn)
      ((leavingStep_playerSemaphores hx s _).trans h.permits) (fun j i => ?_) (fun q => ?_)
      (harrived ▸ h.arrived) rfl (fun _ _ => rfl) hothers htaken htodo howns' hoccupied hseat
    · change ((leavingStep s t.clientPosition x).appended j i).map Prod.fst = _
      rw [happended, h.appended j i]
    · simp [Thread.returns, hpc, hx.symm]

end Mimuw.Cards
