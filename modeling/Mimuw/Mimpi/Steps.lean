import Mimuw.Mimpi.Model

/-!
# What a step of the world does

A step changes one rank and appends to the channels of that rank, or it moves
the head of one channel into a rank.
-/

namespace Mimuw.Mimpi

section Assign

variable {α : Type} (a : Nat → α) (i j : Nat) (v : α)

@[simp] theorem assign_self : assign a i v i = v := by
  simp [assign]

theorem assign_ne (h : j ≠ i) : assign a i v j = a j := by
  simp [assign, h]

end Assign

@[simp] theorem Outbox.to_nil (destination : Nat) : Outbox.to [] destination = [] := rfl

@[simp] theorem Outbox.to_single (peer destination : Nat) (m : Message) :
    Outbox.to [(peer, m)] destination = if peer = destination then [m] else [] := by
  by_cases h : peer = destination <;> simp [Outbox.to, h]

section World

variable (w : World) (rank : Nat) (x : Rank) (out : Outbox)

@[simp] theorem post_ranks_self : (w.post rank x out).ranks rank = x := by
  simp [World.post]

theorem post_ranks_ne {q : Nat} (h : q ≠ rank) : (w.post rank x out).ranks q = w.ranks q := by
  simp [World.post, assign_ne, h]

@[simp] theorem post_channel (s d : Nat) :
    (w.post rank x out).channel s d =
      if s = rank then w.channel s d ++ out.to d else w.channel s d := rfl

theorem post_channel_nil (s d : Nat) : (w.post rank x []).channel s d = w.channel s d := by
  simp

end World

inductive WorldKind (cfg : Config) (w : World) : Action → World → Prop where
  | call (rank : Nat) (c : Call) (hrank : rank < cfg.worldSize)
      (hidle : (w.ranks rank).thread = .idle) (hfinal : .finalize ∉ (w.ranks rank).issued) :
      WorldKind cfg w (.call rank c) (w.post rank ((w.ranks rank).call cfg rank c) [])
  | step (rank : Nat) (x : Rank) (out : Outbox) (hrank : rank < cfg.worldSize)
      (h : (w.ranks rank).step cfg rank = some (x, out)) :
      WorldKind cfg w (.step rank) (w.post rank x out)
  | deliver (source destination : Nat) (m : Message) (rest : List Message)
      (hsource : source < cfg.worldSize) (hdestination : destination < cfg.worldSize)
      (hne : source ≠ destination)
      (hfree : ¬ (w.ranks destination).thread.holds source)
      (hchannel : w.channel source destination = m :: rest) :
      WorldKind cfg w (.deliver source destination) (w.take cfg source destination m rest)

private theorem isIdle_eq {t : Thread} (h : t.isIdle) : t = .idle := by
  cases t <;> simp_all [Thread.isIdle]

theorem worldStep_cases {cfg : Config} {w w' : World} {a : Action}
    (h : worldStep cfg w a = some w') : WorldKind cfg w a w' := by
  cases a with
  | call rank c =>
      simp only [worldStep] at h
      split at h
      · rename_i hcall
        cases h
        exact .call rank c hcall.1 (isIdle_eq hcall.2.1) hcall.2.2
      · cases h
  | step rank =>
      simp only [worldStep] at h
      split at h
      · rename_i hrank
        obtain ⟨⟨x, out⟩, hstep, hw⟩ := Option.map_eq_some_iff.mp h
        cases hw
        exact .step rank x out hrank hstep
      · cases h
  | deliver source destination =>
      simp only [worldStep] at h
      split at h
      · rename_i hdeliver
        obtain ⟨hsource, hdestination, hne, -, hfree, -⟩ := hdeliver
        split at h
        · rename_i m rest hchannel
          cases h
          exact .deliver source destination m rest hsource hdestination hne hfree hchannel
        · cases h
      · cases h

/-! ## Updates of one rank -/

section Take

variable {cfg : Config} {w : World} {source destination : Nat} {m : Message}
  {rest : List Message}

@[simp] theorem take_ranks_self :
    (w.take cfg source destination m rest).ranks destination =
      ((w.ranks destination).receiveMessage cfg source m).endTurn source := by
  simp [World.take]

theorem take_ranks_ne {q : Nat} (h : q ≠ destination) :
    (w.take cfg source destination m rest).ranks q = w.ranks q := by
  simp [World.take, assign_ne, h]

@[simp] theorem take_channel (s d : Nat) :
    (w.take cfg source destination m rest).channel s d =
      if s = source ∧ d = destination then rest else w.channel s d := rfl

end Take

section Receive

variable (cfg : Config) (x : Rank) (i : Nat) (m : Message)

@[simp] theorem receiveMessage_thread :
    ((x.receiveMessage cfg i m).endTurn i).thread = x.thread := by
  unfold Rank.receiveMessage Rank.endTurn
  split_ifs <;> rfl

@[simp] theorem receiveMessage_issued :
    ((x.receiveMessage cfg i m).endTurn i).issued = x.issued := by
  unfold Rank.receiveMessage Rank.endTurn
  split_ifs <;> rfl

@[simp] theorem receiveMessage_results :
    ((x.receiveMessage cfg i m).endTurn i).results = x.results := by
  unfold Rank.receiveMessage Rank.endTurn
  split_ifs <;> rfl

end Receive

theorem send_to {cfg : Config} {rank d : Nat} {x : Rank} {data : List UInt8}
    {destination tag : Int} {m : Message}
    (h : m ∈ Outbox.to (x.send cfg rank data destination tag).2 d) : m = ⟨tag, data⟩ := by
  simp only [Outbox.to, Rank.send] at h
  split_ifs at h <;> simp_all

theorem control_to {cfg : Config} {rank peer destination : Nat} {x : Rank} {tag : Int}
    {m : Message} (h : m ∈ Outbox.to (x.control cfg rank peer tag) destination) :
    m = ⟨tag, []⟩ :=
  send_to h

end Mimuw.Mimpi
