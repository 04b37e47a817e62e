import Mimuw.Cards.TurnBarriers

/-!
# The steps of a handler

Every step of a handler is a step of the table, or none.
-/

namespace Mimuw.Cards

open Mimuw.Lib
open Turns

variable {leads : List Char} {s s' : Server} {a a' : Table} {k : Nat} {t t' : Thread}

/-! ## The steps of a handler -/

theorem Refines.leadOf_eq (h : Refines leads s a) {j : Nat} {deal : Deal}
    (hdeal : s.deals[j]? = some deal) : leadOf leads j = charToIndex deal.leadPlayer := by
  rw [leadOf, ← h.players, List.getElem?_map, hdeal]
  rfl

theorem Refines.length_eq (h : Refines leads s a) : leads.length = s.deals.length := by
  rw [← h.players, List.length_map]

private theorem Refines.lt_of_deal (h : Refines leads s a) {j : Nat} {deal : Deal}
    (hdeal : s.deals[j]? = some deal) : j < leads.length := by
  rw [h.length_eq]
  exact (List.getElem?_eq_some_iff.mp hdeal).1

private theorem players_setTrick (s : Server) (j i : Nat) (trick : Trick) :
    (s.setTrick j i trick).deals.map Deal.leadPlayer = s.deals.map Deal.leadPlayer := by
  refine List.ext_getElem? fun k => ?_
  rw [Server.setTrick, List.getElem?_map, List.getElem?_map, List.getElem?_modify]
  cases s.deals[k]? with
  | none => rfl
  | some deal =>
      simp only [Option.map_some]
      split <;> rfl

private theorem Refines.stutter (h : Refines leads s a) (hk : s.clientThreads[k]? = some t)
    (hrun : t.running) (hthreads : s'.clientThreads = s.clientThreads.set k t')
    (hpos : t'.clientPosition = t.clientPosition) (hrun' : t'.running)
    (hplayers : s'.deals.map Deal.leadPlayer = s.deals.map Deal.leadPlayer)
    (hturn : s'.currentTurn = s.currentTurn) (hpermits : s'.playerSemaphores = s.playerSemaphores)
    (happended : s'.appended = s.appended) (harrived : s'.arrived = s.arrived) {g : GameState}
    (hgame : s'.gameStates = Function.update s.gameStates t.clientPosition g)
    (htaken : g.disconnectOnSendTakenMsg = false)
    (hoccupied : g.seatOccupied = (s.gameStates t.clientPosition).seatOccupied)
    (hold : a.stage t.clientPosition ≠ .arrived)
    (hat : t'.At leads.length g a.phase (a.stage t.clientPosition)) : Refines leads s' a :=
  h.move hk hrun hthreads hpos hrun' hplayers (hturn.trans h.turn) (hpermits.trans h.permits)
    (happended ▸ h.appended) rfl harrived rfl (Function.update_eq_self _ _).symm hold hold hgame
    htaken hoccupied hat

private theorem Refines.goTo (h : Refines leads s a) (hk : s.clientThreads[k]? = some t)
    (hrun : t.running) (hpos : t'.clientPosition = t.clientPosition) (hrun' : t'.running)
    (hold : a.stage t.clientPosition ≠ .arrived)
    (hat : t'.At leads.length (s.gameStates t.clientPosition) a.phase (a.stage t.clientPosition)) :
    Refines leads (s.setThread k t') a :=
  h.stutter hk hrun rfl hpos hrun' rfl rfl rfl rfl rfl (Function.update_eq_self _ _).symm
    (h.taken _) rfl hold hat

variable {io : Io}

theorem Refines.dealLoop (h : Refines leads s a) (hinv : a.Inv (leadOf leads) leads.length)
    (hk : s.clientThreads[k]? = some t) (hpc : t.pc = .dealLoop)
    (hstep : handlerStep s k t io = some s') : Refines leads s' a := by
  have hrun : t.running := by simp [Thread.running, hpc]
  have hat := (h.at hk hrun).1
  simp only [Thread.At, hpc, Reentry] at hat
  simp only [handlerStep, hpc] at hstep
  have htaken := h.taken t.clientPosition
  have hvalid := hinv.valid
  split at hstep
  · rename_i hnone
    cases hstep
    have hge : leads.length ≤ t.j := by
      rw [h.length_eq]
      exact List.getElem?_eq_none_iff.mp hnone
    split_ifs at hat with htrick hdeal
    · rw [hat.2.1] at hvalid
      exact absurd hvalid.1 (Nat.not_lt.mpr hge)
    · rw [hat.2.1] at hvalid
      exact absurd hvalid (Nat.not_lt.mpr hge)
    · obtain ⟨-, hphase, hstage⟩ := hat
      rw [hphase] at hvalid
      have heq : t.j = leads.length := le_antisymm hvalid hge
      exact h.goTo hk hrun rfl rfl (by simp [hstage]) ⟨heq ▸ hphase, hstage⟩
  · rename_i deal hdeal
    split at hstep
    · cases hstep
      exact h.error
    · split_ifs at hat with htrick hflag
      · rw [if_pos (by simp [htrick])] at hstep
        cases hstep
        refine h.stutter hk hrun rfl rfl rfl rfl rfl rfl rfl rfl rfl htaken rfl
          (by simp [hat.2.2]) ?_
        refine ⟨hat.1, ?_⟩
        rw [if_pos htrick]
        exact hat.2
      · rw [if_neg (by simp [htaken, htrick]), if_pos hflag] at hstep
        cases hstep
        refine h.stutter hk hrun rfl rfl rfl rfl rfl rfl rfl rfl rfl htaken rfl
          (by simp [hat.2.2]) ?_
        exact ⟨⟨by simpa using htrick, hat.1⟩, hat.2⟩
      · rw [if_neg (by simp [htaken, htrick]), if_neg hflag] at hstep
        cases hstep
        refine h.stutter hk hrun rfl rfl rfl rfl rfl rfl rfl rfl rfl htaken rfl
          (by simp [hat.2.2]) ?_
        exact ⟨⟨⟨⟨by simpa using hflag, by simpa using htrick⟩, hat.1⟩, h.lt_of_deal hdeal,
          hat.2.1⟩, hat.2.2⟩

private theorem Refines.dealHandler (h : Refines leads s a) (hk : s.clientThreads[k]? = some t)
    (hpc : t.pc ∈ [.sendDeal, .setTurn, .checkLead, .releaseLead])
    (hstep : handlerStep s k t io = some s') :
    ∃ a', Relation.ReflGen (Step (leadOf leads) leads.length) a a' ∧ Refines leads s' a' := by
  simp only [List.mem_cons, List.not_mem_nil, or_false] at hpc
  have htaken := h.taken t.clientPosition
  rcases hpc with hpc | hpc | hpc | hpc
  all_goals
    have hrun : t.running := by simp [Thread.running, hpc]
    have hat := (h.at hk hrun).1
    simp only [Thread.At, hpc] at hat
    obtain ⟨⟨htrick, hcurrent⟩, hphase, hstage⟩ := hat
    simp only [handlerStep, hpc] at hstep
  · cases hsent : io.sent with
    | done =>
        rw [hsent] at hstep
        cases hstep
        refine ⟨a, .refl, h.goTo hk hrun rfl rfl (by simp [hstage]) ?_⟩
        exact ⟨⟨htrick, hcurrent⟩, hphase, hstage⟩
    | gone =>
        rw [hsent] at hstep
        cases hstep
        refine ⟨a, .refl, h.giveUp hk hrun ⟨t.j, 0, .inl (List.suffix_refl _)⟩ rfl rfl rfl rfl
          (fun q => ?_) rfl (Function.update_eq_self _ _).symm (by simp [hstage]) (by simp [hstage])
          ?_⟩
        · simp [Leaving.onDealHandler]
        · simp [Reentry, Leaving.onDealHandler, Leaving.store, htrick, hcurrent, hphase, hstage]
    | failed =>
        rw [hsent] at hstep
        cases hstep
        exact ⟨a, .refl, h.error⟩
  · obtain ⟨deal, hdeal, rfl⟩ := Option.map_eq_some_iff.mp hstep
    refine ⟨_, .single (Step.turn a t.clientPosition t.j hphase hstage), ?_⟩
    refine h.move hk hrun rfl rfl rfl rfl (h.leadOf_eq hdeal).symm h.permits h.appended rfl rfl rfl
      rfl (by simp) (by simp [hstage]) (Function.update_eq_self _ _).symm htaken rfl ?_
    exact ⟨⟨htrick, hcurrent⟩, hphase, rfl⟩
  · split_ifs at hstep with hlead
    · cases hstep
      refine ⟨_, .single (Step.lead a t.clientPosition t.j hphase hstage
        (h.turn.symm.trans hlead.symm)), ?_⟩
      refine h.move hk hrun rfl rfl rfl rfl h.turn h.permits h.appended rfl rfl rfl
        rfl (by simp) (by simp [hstage]) (Function.update_eq_self _ _).symm htaken rfl ?_
      exact ⟨⟨htrick, hcurrent⟩, hphase, rfl⟩
    · cases hstep
      refine ⟨_, .single (Step.follow a t.clientPosition t.j hphase hstage
        fun heq => hlead (h.turn.trans heq).symm), ?_⟩
      refine h.move hk hrun rfl rfl rfl rfl h.turn h.permits h.appended rfl rfl rfl
        rfl (by simp) (by simp [hstage]) rfl htaken rfl ?_
      simp [Thread.At, htrick, hcurrent, hphase, BeforeTrick]
  · cases hstep
    refine ⟨_, .single (Step.openTrick a t.clientPosition t.j hphase hstage), ?_⟩
    refine h.move hk hrun rfl rfl rfl rfl h.turn ?_ h.appended rfl rfl rfl
      rfl (by simp) (by simp [hstage]) rfl htaken rfl ?_
    · simp [afterDeal, Server.setThread, Server.setGameState, Server.release, Server.setSemaphore,
        Table.setStage, Table.setPermits, h.permits]
    · simp [Thread.At, Server.release, Server.setSemaphore, htrick, hcurrent, hphase, BeforeTrick]

theorem Refines.trickLoop (h : Refines leads s a) (hinv : a.Inv (leadOf leads) leads.length)
    (hk : s.clientThreads[k]? = some t) (hpc : t.pc = .trickLoop)
    (hstep : handlerStep s k t io = some s') : Refines leads s' a := by
  have hrun : t.running := by simp [Thread.running, hpc]
  have hat := (h.at hk hrun).1
  simp only [Thread.At, hpc] at hat
  simp only [handlerStep, hpc] at hstep
  have htaken := h.taken t.clientPosition
  have hvalid := hinv.valid
  obtain ⟨hdeal, hat⟩ := hat
  split at hstep
  · rename_i hi
    obtain ⟨deal, -, rfl⟩ := Option.map_eq_some_iff.mp hstep
    split_ifs at hat ⊢ with htrick hresends
    · refine h.stutter hk hrun rfl rfl rfl rfl rfl rfl rfl rfl rfl htaken rfl (by simp [hat.2]) ?_
      exact ⟨⟨hdeal, rfl⟩, hat⟩
    · exact h.error
    · refine h.goTo hk hrun rfl rfl (by simp [hat.2]) ?_
      exact ⟨⟨⟨hdeal, by simpa using htrick⟩, hi, hat.1⟩, hat.2⟩
  · rename_i hi
    cases hstep
    rw [if_neg hi] at hat
    split_ifs at hat with htrick
    · rw [hat.1] at hvalid
      exact absurd hvalid.2 hi
    · obtain ⟨hphase, hstage⟩ := hat
      refine h.goTo hk hrun rfl rfl (by simp [hstage]) ⟨⟨hdeal, by simpa using htrick⟩, ?_, hstage⟩
      obtain ⟨i, hti⟩ : ∃ i, t.i = i + 1 := ⟨t.i - 1, by omega⟩
      rw [hti] at hphase
      have hphase' : a.phase = .between t.j i := hphase
      rw [hphase'] at hvalid ⊢
      have : i < 13 := hvalid.2
      have : i = 12 := by omega
      rw [this]

private theorem Refines.loseClient (h : Refines leads s a) (hk : s.clientThreads[k]? = some t)
    (hrun : t.running) (hclear : (s.gameStates t.clientPosition).Clear)
    (hphase : a.phase = .trick t.j t.i) (hstage : a.stage t.clientPosition = .holding) :
    ∃ a', Relation.ReflGen (Step (leadOf leads) leads.length) a a' ∧
      Refines leads (s.setThread k
        { t with pc := .leaving (Leaving.onTrickHandler t.j t.i) }) a' := by
  refine ⟨_, .single (Step.lose a t.clientPosition t.j t.i hphase hstage), ?_⟩
  refine h.giveUp hk hrun ⟨t.j, t.i, .inr (.inl (List.suffix_refl _))⟩ rfl rfl rfl rfl (fun q => ?_)
    rfl rfl (by simp) (by simp [hstage]) ?_
  · rcases eq_or_ne q t.clientPosition with rfl | hne
    · simp [Table.setStage, Table.setReturning, Leaving.onTrickHandler]
    · simp [Table.setStage, Table.setReturning, hne, hne.symm]
  · simp [Reentry, Leaving.onTrickHandler, Leaving.store, hclear.1, hphase]

private theorem Refines.trickHandler (h : Refines leads s a) (hk : s.clientThreads[k]? = some t)
    (hpc : t.pc ∈ [.enterTrick, .waitForTurn, .sendTrick, .receiveTrick])
    (hkeeps : s.keeps (.handler k io)) (hstep : handlerStep s k t io = some s') :
    ∃ a', Relation.ReflGen (Step (leadOf leads) leads.length) a a' ∧ Refines leads s' a' := by
  simp only [List.mem_cons, List.not_mem_nil, or_false] at hpc
  have htaken := h.taken t.clientPosition
  rcases hpc with hpc | hpc | hpc | hpc
  all_goals
    have hrun : t.running := by simp [Thread.running, hpc]
    have hat := (h.at hk hrun).1
    simp only [Thread.At, hpc] at hat
    obtain ⟨hclear, hphase, hstage⟩ := hat
    simp only [handlerStep, hpc] at hstep
  · obtain ⟨deal, -, rfl⟩ := Option.map_eq_some_iff.mp hstep
    rw [if_neg (by simp [htaken])]
    exact ⟨a, .refl, h.goTo hk hrun rfl rfl (by simp [hstage]) ⟨hclear, hphase, hstage⟩⟩
  · split_ifs at hstep with hpermit
    cases hstep
    rw [h.permits] at hpermit
    refine ⟨_, .single (Step.acquire a t.clientPosition t.j t.i hphase hstage hpermit), ?_⟩
    refine h.move hk hrun rfl rfl rfl rfl h.turn ?_ h.appended rfl rfl rfl rfl (by simp)
      (by simp [hstage]) (Function.update_eq_self _ _).symm htaken rfl ⟨hclear, hphase, rfl⟩
    simp [Server.setThread, Server.setSemaphore, Table.setStage, Table.setPermits, h.permits]
  · cases hsent : io.sent with
    | done =>
        rw [hsent] at hstep
        cases hstep
        exact ⟨a, .refl, h.goTo hk hrun rfl rfl (by simp [hstage]) ⟨hclear, hphase, hstage⟩⟩
    | gone =>
        rw [hsent] at hstep
        cases hstep
        exact h.loseClient hk hrun hclear hphase hstage
    | failed =>
        rw [hsent] at hstep
        cases hstep
        exact ⟨a, .refl, h.error⟩
  · cases hreceived : io.received with
    | failed =>
        rw [hreceived] at hstep
        cases hstep
        exact ⟨a, .refl, h.error⟩
    | timeout =>
        rw [hreceived] at hstep
        cases hstep
        exact ⟨a, .refl, h.goTo hk hrun rfl rfl (by simp [hstage]) ⟨hclear, hphase, hstage⟩⟩
    | gone =>
        rw [hreceived] at hstep
        cases hstep
        exact h.loseClient hk hrun hclear hphase hstage
    | message text =>
        simp only [Server.keeps, hk, hpc, hreceived, decide_eq_true_eq] at hkeeps
        rw [hreceived] at hstep
        simp only at hstep
        cases hread : receiveTrickMessage text (t.i + 1) with
        | closed => exact absurd hread hkeeps
        | wrong =>
            rw [hread] at hstep
            simp only at hstep
            split at hstep
            · cases hstep
              exact ⟨a, .refl, h⟩
            · cases hstep
              exact ⟨a, .refl, h.error⟩
        | card cards =>
            rw [hread] at hstep
            simp only [Option.bind_eq_bind, Option.bind_eq_some_iff, Option.pure_def,
              Option.some.injEq] at hstep
            obtain ⟨deal, -, trick, -, rfl⟩ := hstep
            refine ⟨_, .single (Step.append a t.clientPosition t.j t.i hphase hstage), ?_⟩
            refine h.move hk hrun rfl rfl rfl (players_setTrick _ _ _ _) h.turn h.permits
              (fun j i => ?_) rfl rfl rfl rfl (by simp) (by simp [hstage])
              (Function.update_eq_self _ _).symm htaken rfl ⟨hclear, hphase, rfl⟩
            have happended : ∀ j i, ((s.setTrick t.j t.i trick).appended j i).map Prod.fst =
                a.appended j i := h.appended
            change (Function.update s.appended t.j _ j i).map Prod.fst =
              Function.update a.appended t.j _ j i
            rcases eq_or_ne j t.j with rfl | hj
            · rw [Function.update_self, Function.update_self]
              rcases eq_or_ne i t.i with rfl | hi
              · rw [Function.update_self, Function.update_self, List.map_append, happended]
                rfl
              · rw [Function.update_of_ne hi, Function.update_of_ne hi, happended]
            · rw [Function.update_of_ne hj, Function.update_of_ne hj]
              exact happended j i

private theorem Refines.afterCard (h : Refines leads s a) (hinv : a.Inv (leadOf leads) leads.length)
    (hk : s.clientThreads[k]? = some t)
    (hpc : t.pc ∈ [.setWinner, .passTurn, .releaseNext])
    (hstep : handlerStep s k t io = some s') :
    ∃ a', Relation.ReflGen (Step (leadOf leads) leads.length) a a' ∧ Refines leads s' a' := by
  simp only [List.mem_cons, List.not_mem_nil, or_false] at hpc
  have htaken := h.taken t.clientPosition
  rcases hpc with hpc | hpc | hpc
  all_goals
    have hrun : t.running := by simp [Thread.running, hpc]
    have hat := (h.at hk hrun).1
    simp only [Thread.At, hpc] at hat
    obtain ⟨hclear, hphase, hstage⟩ := hat
    simp only [handlerStep, hpc] at hstep
  · simp only [Option.bind_eq_bind, Option.bind_eq_some_iff] at hstep
    obtain ⟨deal, -, hstep⟩ := hstep
    split_ifs at hstep
    · simp only [Option.bind_eq_some_iff, Option.pure_def, Option.some.injEq] at hstep
      obtain ⟨index, -, rfl⟩ := hstep
      exact ⟨a, .refl, h.stutter hk hrun rfl rfl rfl (players_setTrick _ _ _ _) rfl rfl rfl rfl
        (Function.update_eq_self _ _).symm htaken rfl (by simp [hstage]) ⟨hclear, hphase, hstage⟩⟩
    · cases hstep
      exact ⟨a, .refl, h.goTo hk hrun rfl rfl (by simp [hstage]) ⟨hclear, hphase, hstage⟩⟩
  · cases hstep
    obtain ⟨q, hturn⟩ := hinv.turn_of_acting hphase (p := t.clientPosition) (by simp [hstage])
    refine ⟨_, .single (Step.pass a t.clientPosition t.j t.i hphase hstage), ?_⟩
    refine h.move hk hrun rfl rfl rfl rfl ?_ h.permits h.appended rfl rfl rfl rfl (by simp)
      (by simp [hstage]) (Function.update_eq_self _ _).symm htaken rfl ⟨hclear, hphase, rfl⟩
    simp [Server.setThread, h.turn, hturn, residue]
  · obtain ⟨q, hturn, rfl⟩ := Option.map_eq_some_iff.mp hstep
    refine ⟨_, .single (Step.release a t.clientPosition q t.j t.i hphase hstage
      (h.turn.symm.trans hturn)), ?_⟩
    refine h.move hk hrun rfl rfl rfl rfl h.turn ?_ h.appended rfl rfl rfl rfl (by simp)
      (by simp [hstage]) (Function.update_eq_self _ _).symm htaken rfl ⟨⟨hclear, hphase⟩, rfl⟩
    simp [Server.setThread, Server.release, Server.setSemaphore, Table.setStage, Table.setPermits,
      h.permits]

theorem Refines.sendTaken (h : Refines leads s a) (hk : s.clientThreads[k]? = some t)
    (hpc : t.pc = .sendTaken) (hkeeps : s.keeps (.handler k io))
    (hstep : handlerStep s k t io = some s') : Refines leads s' a := by
  have hrun : t.running := by simp [Thread.running, hpc]
  have hat := (h.at hk hrun).1
  simp only [Thread.At, hpc] at hat
  obtain ⟨hclear, hphase, hstage⟩ := hat
  simp only [Server.keeps, hk, hpc, Bool.or_eq_true, decide_eq_true_eq] at hkeeps
  simp only [handlerStep, hpc, Option.bind_eq_bind, Option.bind_eq_some_iff] at hstep
  obtain ⟨deal, -, hstep⟩ := hstep
  have hnext : Refines leads (s.setThread k { t with i := t.i + 1, pc := .trickLoop }) a := by
    refine h.goTo hk hrun rfl rfl (by rw [hstage]; split_ifs <;> simp) ⟨hclear.1, ?_⟩
    rw [if_neg (by simp [hclear.2])]
    refine ⟨hphase, ?_⟩
    rw [hstage]
    exact if_congr Nat.succ_lt_succ_iff.symm rfl rfl
  split at hstep
  · cases hstep
    exact h.error
  · cases hsent : io.sent with
    | done =>
        rw [hsent] at hstep
        cases hstep
        exact hnext
    | gone =>
        rw [hsent] at hstep hkeeps
        have hi : ¬ t.i ≠ 12 := by simpa using hkeeps
        simp only [if_neg hi] at hstep
        cases hstep
        exact hnext
    | failed =>
        rw [hsent] at hstep
        cases hstep
        exact h.error

private theorem Refines.endOfDeal (h : Refines leads s a) (hk : s.clientThreads[k]? = some t)
    (hpc : t.pc ∈ [.checkTurn, .acquireTurn]) (hstep : handlerStep s k t io = some s') :
    ∃ a', Relation.ReflGen (Step (leadOf leads) leads.length) a a' ∧ Refines leads s' a' := by
  simp only [List.mem_cons, List.not_mem_nil, or_false] at hpc
  have htaken := h.taken t.clientPosition
  rcases hpc with hpc | hpc
  all_goals
    have hrun : t.running := by simp [Thread.running, hpc]
    have hat := (h.at hk hrun).1
    simp only [Thread.At, hpc] at hat
    obtain ⟨hclear, hphase, hstage⟩ := hat
    simp only [handlerStep, hpc] at hstep
  · split_ifs at hstep with hturn
    · cases hstep
      refine ⟨_, .single (Step.drain a t.clientPosition t.j 12 hphase hstage
        (h.turn.symm.trans hturn.symm)), ?_⟩
      exact h.move hk hrun rfl rfl rfl rfl h.turn h.permits h.appended rfl rfl rfl rfl (by simp)
        (by simp [hstage]) (Function.update_eq_self _ _).symm htaken rfl ⟨hclear, hphase, rfl⟩
    · cases hstep
      refine ⟨_, .single (Step.rest a t.clientPosition t.j 12 hphase hstage
        fun heq => hturn (h.turn.trans heq).symm), ?_⟩
      exact h.move hk hrun rfl rfl rfl rfl h.turn h.permits h.appended rfl rfl rfl rfl (by simp)
        (by simp [hstage]) rfl htaken rfl ⟨⟨⟨hclear, rfl⟩, hphase⟩, rfl⟩
  · simp only [Option.bind_eq_bind, Option.bind_eq_some_iff] at hstep
    obtain ⟨q, hturn, hstep⟩ := hstep
    split_ifs at hstep with hpermit
    cases hstep
    rw [h.permits] at hpermit
    refine ⟨_, .single (Step.close a t.clientPosition q t.j 12 hphase hstage
      (h.turn.symm.trans hturn) hpermit), ?_⟩
    refine h.move hk hrun rfl rfl rfl rfl h.turn ?_ h.appended rfl rfl rfl rfl (by simp)
      (by simp [hstage]) rfl htaken rfl ⟨⟨⟨hclear, rfl⟩, hphase⟩, rfl⟩
    simp [afterTricks, Server.setThread, Server.setGameState, Server.setSemaphore, Table.setStage,
      Table.setPermits, h.permits]

theorem Refines.scoreTotal (h : Refines leads s a) (hk : s.clientThreads[k]? = some t)
    (hpc : t.pc = .scoreTotal) (hstep : handlerStep s k t io = some s') : Refines leads s' a := by
  have hrun : t.running := by simp [Thread.running, hpc]
  have hat := (h.at hk hrun).1
  simp only [Thread.At, hpc] at hat
  obtain ⟨⟨hclear, hcurrent⟩, hphase, hstage⟩ := hat
  simp only [handlerStep, hpc] at hstep
  have hnext : Refines leads (s.setThread k { t with j := t.j + 1, pc := .dealLoop }) a := by
    refine h.goTo hk hrun rfl rfl (by simp [hstage]) ?_
    simp [Thread.At, Reentry, hclear.1, hclear.2, hcurrent, hphase, hstage]
  cases hsent : io.sent with
  | done =>
      rw [hsent] at hstep
      cases hstep
      exact hnext
  | gone =>
      rw [hsent] at hstep
      simp only at hstep
      split at hstep
      · cases hstep
        refine h.giveUp hk hrun ⟨t.j, 0, .inr (.inr (List.suffix_refl _))⟩ rfl rfl rfl rfl
          (fun q => ?_) rfl (Function.update_eq_self _ _).symm (by simp [hstage]) (by simp [hstage])
          ?_
        · simp [Leaving.onScoreTotalHandler]
        · simp [Reentry, Leaving.onScoreTotalHandler, Leaving.store, hclear.1, hclear.2, hcurrent,
            hphase, hstage]
      · cases hstep
        exact hnext
  | failed =>
      rw [hsent] at hstep
      cases hstep
      exact h.error

theorem Refines.handler (h : Refines leads s a) (hinv : a.Inv (leadOf leads) leads.length)
    (hk : s.clientThreads[k]? = some t) (hkeeps : s.keeps (.handler k io))
    (hstep : handlerStep s k t io = some s') :
    ∃ a', Relation.ReflGen (Step (leadOf leads) leads.length) a a' ∧ Refines leads s' a' := by
  cases hpc : t.pc with
  | start =>
      simp only [handlerStep, hpc] at hstep
      cases hstep
      simp only [Server.keeps, hk, hpc, List.all_eq_true, Bool.or_eq_true, decide_eq_true_eq,
        Bool.not_eq_true'] at hkeeps
      refine ⟨a, .refl, h.begin hk hpc fun u hu hupos => ?_⟩
      simpa using (hkeeps u hu).resolve_left (not_not_intro hupos)
  | dealLoop => exact ⟨a, .refl, h.dealLoop hinv hk hpc hstep⟩
  | sendDeal => exact h.dealHandler hk (by simp [hpc]) hstep
  | setTurn => exact h.dealHandler hk (by simp [hpc]) hstep
  | checkLead => exact h.dealHandler hk (by simp [hpc]) hstep
  | releaseLead => exact h.dealHandler hk (by simp [hpc]) hstep
  | trickLoop => exact ⟨a, .refl, h.trickLoop hinv hk hpc hstep⟩
  | enterTrick => exact h.trickHandler hk (by simp [hpc]) hkeeps hstep
  | waitForTurn => exact h.trickHandler hk (by simp [hpc]) hkeeps hstep
  | sendTrick => exact h.trickHandler hk (by simp [hpc]) hkeeps hstep
  | receiveTrick => exact h.trickHandler hk (by simp [hpc]) hkeeps hstep
  | setWinner => exact h.afterCard hinv hk (by simp [hpc]) hstep
  | passTurn => exact h.afterCard hinv hk (by simp [hpc]) hstep
  | releaseNext => exact h.afterCard hinv hk (by simp [hpc]) hstep
  | sendTaken => exact ⟨a, .refl, h.sendTaken hk hpc hkeeps hstep⟩
  | checkTurn => exact h.endOfDeal hk (by simp [hpc]) hstep
  | acquireTurn => exact h.endOfDeal hk (by simp [hpc]) hstep
  | scoreTotal => exact ⟨a, .refl, h.scoreTotal hk hpc hstep⟩
  | shutdown =>
      have hrun : t.running := by simp [Thread.running, hpc]
      have hat := (h.at hk hrun).1
      simp only [Thread.At, hpc] at hat
      simp only [handlerStep, hpc] at hstep
      cases hstep
      exact ⟨a, .refl, h.stutter hk hrun rfl rfl rfl rfl rfl rfl rfl rfl
        (Function.update_eq_self _ _).symm (h.taken _) rfl (by simp [hat.2]) hat⟩
  | finished => simp [handlerStep, hpc] at hstep
  | arriving meeting =>
      simp only [handlerStep, hpc] at hstep
      cases hstep
      exact h.arrive hk hpc
  | waiting meeting => simp [handlerStep, hpc] at hstep
  | leaving todo =>
      cases todo with
      | nil => simp [handlerStep, hpc] at hstep
      | cons x todo =>
          simp only [handlerStep, hpc] at hstep
          cases hstep
          exact h.leave hk hpc

end Mimuw.Cards
