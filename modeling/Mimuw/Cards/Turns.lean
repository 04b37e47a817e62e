import Mimuw.Cards.Common

/-!
# The turns of a table

What the handlers of a table do together, whoever is connected.  The four barriers
cut a game into phases that all seats are in at once.  In a phase each seat is at a
stage of its own, and what is left of the order is in one permit that goes round.
-/

namespace Mimuw.Cards.Turns

inductive Phase where
  /-- before deal `j`, or after the last one -/
  | opening (j : Nat)
  | dealing (j : Nat)
  | trick (j i : Nat)
  /-- after trick `i` -/
  | between (j i : Nat)
  | ended
  deriving DecidableEq

inductive Stage where
  | early
  /-- the lead of the deal is written -/
  | turned
  | leading
  /-- it has the permit -/
  | holding
  | played
  /-- the next turn is written -/
  | passing
  /-- it takes the last permit of the deal back -/
  | draining
  | ready
  | arrived
  deriving DecidableEq

namespace Phase

def next (n : Nat) : Phase → Phase
  | opening j => if j < n then dealing j else ended
  | dealing j => trick j 0
  | trick j i => between j i
  | between j i => if i < 12 then trick j (i + 1) else opening (j + 1)
  | ended => ended

/-- Where a seat is when the phase begins. -/
def first : Phase → Stage
  | opening _ => .ready
  | dealing _ => .early
  | trick _ _ => .early
  | between _ i => if i < 12 then .ready else .early
  | ended => .ready

/-- Trick `i` of deal `j` is still to come. -/
def Before (n : Nat) : Phase → Nat → Nat → Prop
  | opening k, j, _ => k ≤ j
  | dealing k, j, _ => k ≤ j
  | trick k l, j, i => k < j ∨ k = j ∧ l < i
  | between k l, j, i => k < j ∨ k = j ∧ l < i
  | ended, j, _ => n ≤ j

/-- Trick `i` of deal `j` is over. -/
def After (n : Nat) : Phase → Nat → Nat → Prop
  | opening k, j, _ => j < k
  | dealing k, j, _ => j < k
  | trick k l, j, i => j < k ∨ j = k ∧ i < l
  | between k l, j, i => j < k ∨ j = k ∧ i ≤ l
  | ended, j, _ => j < n

def Valid (n : Nat) : Phase → Prop
  | opening j => j ≤ n
  | dealing j => j < n
  | trick j i => j < n ∧ i < 13
  | between j i => j < n ∧ i < 13
  | ended => True

private theorem valid_next {n : Nat} {phase : Phase} (h : phase.Valid n) :
    (phase.next n).Valid n := by
  cases phase with
  | opening j =>
      rw [next]
      split_ifs with hj
      · exact hj
      · trivial
  | dealing j => exact ⟨h, by decide⟩
  | trick j i => exact h
  | between j i =>
      rw [next]
      split_ifs with hi
      · exact ⟨h.1, Nat.succ_lt_succ hi⟩
      · exact h.1
  | ended => trivial

private theorem before_of_next {n : Nat} {phase : Phase} {j i : Nat} (hvalid : phase.Valid n)
    (h : (phase.next n).Before n j i) : phase.Before n j i := by
  cases phase with
  | opening k =>
      rw [next] at h
      split_ifs at h with hk
      · exact h
      · exact le_trans hvalid h
  | dealing k =>
      simp only [next, Before] at h ⊢
      omega
  | trick k l => exact h
  | between k l =>
      rw [next] at h
      split_ifs at h with hl
      · simp only [Before] at h ⊢
        omega
      · simp only [Before] at h ⊢
        omega
  | ended => exact h

private theorem after_of_next {n : Nat} {phase : Phase} {j i : Nat} (hvalid : phase.Valid n)
    (hi : i < 13) (h : (phase.next n).After n j i) : phase.After n j i ∨ phase = trick j i := by
  cases phase with
  | opening k =>
      rw [next] at h
      simp only [Valid] at hvalid
      split_ifs at h with hk
      · exact .inl h
      · simp only [After] at h ⊢
        omega
  | dealing k =>
      simp only [next, After] at h ⊢
      omega
  | trick k l =>
      simp only [next, After, trick.injEq] at h ⊢
      omega
  | between k l =>
      rw [next] at h
      simp only [Valid] at hvalid
      split_ifs at h with hl
      · simp only [After] at h ⊢
        omega
      · simp only [After] at h ⊢
        omega
  | ended => exact .inl h

end Phase

structure Table where
  phase : Phase
  stage : Seat → Stage
  turn : Option Seat
  permits : Seat → Nat
  /-- the permits of clients that are gone, which are still to be given back -/
  returning : Seat → Nat
  /-- who appended to a trick of a deal -/
  appended : Nat → Nat → List Seat

namespace Table

def start : Table :=
  ⟨.opening 0, fun _ => .ready, some 0, fun _ => 0, fun _ => 0, fun _ _ => []⟩

def setStage (t : Table) (p : Seat) (stage : Stage) : Table :=
  { t with stage := Function.update t.stage p stage }

def setPermits (t : Table) (p : Seat) (permits : Nat) : Table :=
  { t with permits := Function.update t.permits p permits }

def setReturning (t : Table) (p : Seat) (returning : Nat) : Table :=
  { t with returning := Function.update t.returning p returning }

def goOn (t : Table) (n : Nat) : Table :=
  { t with phase := t.phase.next n, stage := fun _ => (t.phase.next n).first }

def append (t : Table) (j i : Nat) (p : Seat) : Table :=
  { t with
    appended := Function.update t.appended j
      (Function.update (t.appended j) i (t.appended j i ++ [p])) }

end Table

section Steps

variable (lead : Nat → Option Seat) (n : Nat)

/-- What a seat `p` can do. -/
inductive Step : Table → Table → Prop where
  | arrive (t : Table) (p : Seat) (hp : t.stage p = .ready) : Step t (t.setStage p .arrived)
  | goOn (t : Table) (p : Seat) (hp : t.stage p = .ready)
      (hothers : ∀ q, q ≠ p → t.stage q = .arrived) : Step t (t.goOn n)
  | turn (t : Table) (p : Seat) (j : Nat) (hj : t.phase = .dealing j) (hp : t.stage p = .early) :
      Step t { t.setStage p .turned with turn := lead j }
  | lead (t : Table) (p : Seat) (j : Nat) (hj : t.phase = .dealing j) (hp : t.stage p = .turned)
      (hturn : t.turn = some p) : Step t (t.setStage p .leading)
  | follow (t : Table) (p : Seat) (j : Nat) (hj : t.phase = .dealing j) (hp : t.stage p = .turned)
      (hturn : t.turn ≠ some p) : Step t (t.setStage p .ready)
  | openTrick (t : Table) (p : Seat) (j : Nat) (hj : t.phase = .dealing j)
      (hp : t.stage p = .leading) :
      Step t ((t.setPermits p (t.permits p + 1)).setStage p .ready)
  | acquire (t : Table) (p : Seat) (j i : Nat) (hi : t.phase = .trick j i) (hp : t.stage p = .early)
      (hpermit : 0 < t.permits p) :
      Step t ((t.setPermits p (t.permits p - 1)).setStage p .holding)
  | append (t : Table) (p : Seat) (j i : Nat) (hi : t.phase = .trick j i)
      (hp : t.stage p = .holding) : Step t ((t.append j i p).setStage p .played)
  /-- The client of the seat is gone. -/
  | lose (t : Table) (p : Seat) (j i : Nat) (hi : t.phase = .trick j i)
      (hp : t.stage p = .holding) :
      Step t ((t.setReturning p (t.returning p + 1)).setStage p .early)
  | giveBack (t : Table) (p : Seat) (hp : 0 < t.returning p) :
      Step t ((t.setReturning p (t.returning p - 1)).setPermits p (t.permits p + 1))
  | pass (t : Table) (p : Seat) (j i : Nat) (hi : t.phase = .trick j i) (hp : t.stage p = .played) :
      Step t { t.setStage p .passing with turn := t.turn.map (· + 1) }
  | release (t : Table) (p q : Seat) (j i : Nat) (hi : t.phase = .trick j i)
      (hp : t.stage p = .passing) (hturn : t.turn = some q) :
      Step t ((t.setPermits q (t.permits q + 1)).setStage p .ready)
  | drain (t : Table) (p : Seat) (j i : Nat) (hi : t.phase = .between j i) (hp : t.stage p = .early)
      (hturn : t.turn = some p) : Step t (t.setStage p .draining)
  | rest (t : Table) (p : Seat) (j i : Nat) (hi : t.phase = .between j i) (hp : t.stage p = .early)
      (hturn : t.turn ≠ some p) : Step t (t.setStage p .ready)
  | close (t : Table) (p q : Seat) (j i : Nat) (hi : t.phase = .between j i)
      (hp : t.stage p = .draining) (hturn : t.turn = some q) (hpermit : 0 < t.permits q) :
      Step t ((t.setPermits q (t.permits q - 1)).setStage p .ready)

end Steps

/-! ## What holds in every phase -/

/-- The cyclic order that begins with the lead of the deal. -/
def order : Option Seat → List Seat
  | none => []
  | some l => [l, l + 1, l + 2, l + 3]

/-- How far behind the lead a seat is; without a lead nobody's turn comes. -/
def rank : Option Seat → Seat → Nat
  | none, _ => 5
  | some l, p => (p - l).val

def Stage.Waits (stage : Stage) : Prop := stage = .ready ∨ stage = .arrived

instance (stage : Stage) : Decidable stage.Waits :=
  inferInstanceAs (Decidable (stage = .ready ∨ stage = .arrived))

def Stage.held (stage : Stage) : Nat := if stage = .holding ∨ stage = .played then 1 else 0

namespace Table

/-- The permits of a seat, those on the way back included. -/
def owed (t : Table) (p : Seat) : Nat := t.permits p + t.returning p

structure Dealing (lead : Option Seat) (t : Table) : Prop where
  stages : ∀ p, t.stage p ∈ [.early, .turned, .leading, .ready, .arrived]
  turn : ∀ p, t.stage p ≠ .early → t.turn = lead
  leading : ∀ p, t.stage p = .leading → lead = some p
  owed : ∀ p, t.owed p = if lead = some p ∧ (t.stage p).Waits then 1 else 0

/-- The first `m` seats have played and passed; the next one is at `stage`. -/
structure Playing (lead : Option Seat) (cards : List Seat) (m : Nat) (stage : Stage)
    (t : Table) : Prop where
  stages : stage ∈ [.early, .holding, .played, .passing]
  nobody : m = 4 ∨ lead = none → stage = .early
  passed : ∀ p, rank lead p < m → (t.stage p).Waits
  later : ∀ p, m < rank lead p → t.stage p = .early
  holder : ∀ p, rank lead p = m → t.stage p = stage
  turn : t.turn = lead.map (· + Fin.ofNat 4 (if stage = .passing then m + 1 else m))
  owed : ∀ p, t.owed p + (t.stage p).held =
    if t.turn = some p ∧ stage ≠ .passing then 1 else 0
  cards : cards = (order lead).take (if stage = .played ∨ stage = .passing then m + 1 else m)

structure Between (lead : Option Seat) (i : Nat) (t : Table) : Prop where
  valid : lead.isSome
  turn : t.turn = lead
  stages : ∀ p, (t.stage p).Waits ∨ i = 12 ∧ (t.stage p = .early ∨ t.stage p = .draining)
  draining : ∀ p, t.stage p = .draining → lead = some p
  owed : ∀ p, t.owed p = if lead = some p ∧ ¬ (i = 12 ∧ (t.stage p).Waits) then 1 else 0

def Round (lead : Nat → Option Seat) (t : Table) : Phase → Prop
  | .opening _ => ∀ p, (t.stage p).Waits ∧ t.owed p = 0
  | .dealing j => t.Dealing (lead j)
  | .trick j i => ∃ m stage, m ≤ 4 ∧ t.Playing (lead j) (t.appended j i) m stage
  | .between j i => t.Between (lead j) i ∧ t.appended j i = order (lead j)
  | .ended => ∀ p, (t.stage p).Waits ∧ t.owed p = 0

structure Inv (lead : Nat → Option Seat) (n : Nat) (t : Table) : Prop where
  valid : t.phase.Valid n
  inOrder : ∀ j i, t.appended j i <+: order (lead j)
  before : ∀ j i, t.phase.Before n j i → t.appended j i = []
  after : ∀ j i, i < 13 → t.phase.After n j i → t.appended j i = order (lead j)
  round : t.Round lead t.phase

end Table

/-! ## Ranks and stages -/

private theorem rank_eq_iff {l : Option Seat} {p : Seat} {m : Nat} (hm : m < 4) :
    rank l p = m ↔ l.map (· + Fin.ofNat 4 m) = some p := by
  cases l with
  | none => simp [rank]; omega
  | some l =>
      revert l p
      interval_cases m <;> decide

private theorem rank_lt (l p : Seat) : rank (some l) p < 4 := (p - l).isLt

private theorem take_order {l : Option Seat} {p : Seat} {m : Nat} (hm : m < 4) (h : rank l p = m) :
    (order l).take (m + 1) = (order l).take m ++ [p] := by
  cases l with
  | none => simp [rank] at h; omega
  | some l =>
      revert l p
      interval_cases m <;> decide

theorem Stage.Waits.held {stage : Stage} (h : stage.Waits) : stage.held = 0 := by
  rcases h with rfl | rfl <;> rfl

namespace Table

variable {lead : Nat → Option Seat} {n : Nat} {t t' : Table} {p : Seat} {l : Option Seat}
  {cards : List Seat} {i m : Nat} {stage : Stage}

private theorem Inv.of_round (h : t.Inv lead n) (hphase : t'.phase = t.phase)
    (happended : t'.appended = t.appended) (hround : t'.Round lead t.phase) :
    t'.Inv lead n := by
  refine ⟨?_, ?_, ?_, ?_, hphase ▸ hround⟩
  · rw [hphase]
    exact h.valid
  · rw [happended]
    exact h.inOrder
  · rw [hphase, happended]
    exact h.before
  · rw [hphase, happended]
    exact h.after

theorem Dealing.act (h : t.Dealing l) (hstage : t'.stage = Function.update t.stage p stage)
    (hmem : stage ∈ [.turned, .leading, .ready, .arrived]) (hturn : t'.turn = l)
    (hleading : stage = .leading → l = some p)
    (howed : t'.owed p = if l = some p ∧ stage.Waits then 1 else 0)
    (hothers : ∀ q, q ≠ p → t'.owed q = t.owed q) : t'.Dealing l := by
  have hself : t'.stage p = stage := by rw [hstage, Function.update_self]
  have hsame : ∀ q, q ≠ p → t'.stage q = t.stage q := by
    intro q hne
    rw [hstage, Function.update_of_ne hne]
  refine ⟨fun q => ?_, fun _ _ => hturn, fun q hq => ?_, fun q => ?_⟩
  · rcases eq_or_ne q p with rfl | hne
    · rw [hself]
      exact List.mem_cons_of_mem _ hmem
    · rw [hsame q hne]
      exact h.stages q
  · rcases eq_or_ne q p with rfl | hne
    · exact hleading (hself.symm.trans hq)
    · exact h.leading q ((hsame q hne).symm.trans hq)
  · rcases eq_or_ne q p with rfl | hne
    · rw [hself, howed]
    · rw [hsame q hne, hothers q hne, h.owed q]

private theorem Playing.lt_of_rank (h : t.Playing l cards m stage) (hm : m ≤ 4)
    (hp : rank l p = m) :
    m < 4 := by
  rcases Nat.lt_or_ge m 4 with hlt | hge
  · exact hlt
  · cases l with
    | none => simp [rank] at hp; omega
    | some l =>
        have := rank_lt l p
        omega

private theorem Playing.acting (h : t.Playing l cards m stage) (hm : m ≤ 4) {s : Stage}
    (hp : t.stage p = s) (hs : s ∈ [.holding, .played, .passing]) :
    rank l p = m ∧ m < 4 ∧ stage = s := by
  rcases lt_trichotomy (rank l p) m with hlt | heq | hgt
  · have hwaits := h.passed p hlt
    rw [hp] at hwaits
    rcases hwaits with rfl | rfl
    · simp at hs
    · simp at hs
  · exact ⟨heq, h.lt_of_rank hm heq, (h.holder p heq).symm.trans hp⟩
  · rw [h.later p hgt] at hp
    simp [← hp] at hs

/-- The permit is with the next one that has not had its turn. -/
private theorem Playing.rank_of_permit (h : t.Playing l cards m stage) (hm : m ≤ 4)
    (hearly : t.stage p = .early) (howed : t.owed p ≠ 0) : rank l p = m := by
  have hturn := h.owed p
  rw [hearly] at hturn
  split_ifs at hturn with hcase
  · obtain ⟨hturn', hstage⟩ := hcase
    rw [h.turn, if_neg hstage] at hturn'
    rcases Nat.lt_or_ge m 4 with hlt | hge
    · exact (rank_eq_iff hlt).mpr hturn'
    · obtain rfl : m = 4 := by omega
      have hzero : rank l p = 0 := (rank_eq_iff (by decide)).mpr hturn'
      have := h.passed p (by omega)
      rw [hearly] at this
      rcases this with hready | harrived
      · cases hready
      · cases harrived
  · simp [Stage.held] at hturn
    omega

theorem Playing.act (h : t.Playing l cards m stage) (hm : m < 4) (hp : rank l p = m)
    {next : Stage} {cards' : List Seat} (hnext : next ∈ [.early, .holding, .played, .passing])
    (hstage : t'.stage = Function.update t.stage p next)
    (hturn : t'.turn = l.map (· + Fin.ofNat 4 (if next = .passing then m + 1 else m)))
    (howed : ∀ q, t'.owed q + (t'.stage q).held =
      if t'.turn = some q ∧ next ≠ .passing then 1 else 0)
    (hcards : cards' = (order l).take (if next = .played ∨ next = .passing then m + 1 else m)) :
    t'.Playing l cards' m next := by
  have hsame : ∀ q, rank l q ≠ m → t'.stage q = t.stage q := by
    intro q hq
    have hne : q ≠ p := by
      rintro rfl
      exact hq hp
    rw [hstage, Function.update_of_ne hne]
  refine ⟨hnext, ?_, ?_, ?_, ?_, hturn, howed, hcards⟩
  · rintro (rfl | rfl)
    · omega
    · simp [rank] at hp
      omega
  · intro q hq
    rw [hsame q (by omega)]
    exact h.passed q hq
  · intro q hq
    rw [hsame q (by omega)]
    exact h.later q hq
  · intro q hq
    have heq : q = p := by
      have hp' := (rank_eq_iff hm).mp hp
      have hq' := (rank_eq_iff hm).mp hq
      exact Option.some.inj (hq'.symm.trans hp')
    rw [hstage, heq, Function.update_self]

private theorem Playing.rank_of_waits (h : t.Playing l cards m stage) (hp : (t.stage p).Waits) :
    rank l p < m := by
  rcases lt_trichotomy (rank l p) m with hlt | heq | hgt
  · exact hlt
  · have := h.stages
    rw [← h.holder p heq] at this
    rcases hp with hready | harrived
    · simp [hready] at this
    · simp [harrived] at this
  · rw [h.later p hgt] at hp
    rcases hp with hready | harrived
    · cases hready
    · cases harrived

theorem Round.arrive {phase : Phase} (h : t.Round lead phase) (hp : t.stage p = .ready) :
    (t.setStage p .arrived).Round lead phase := by
  have hstage : ∀ q, (t.setStage p .arrived).stage q = t.stage q ∨
      q = p ∧ (t.setStage p .arrived).stage q = .arrived := by
    intro q
    rcases eq_or_ne q p with rfl | hne
    · exact .inr ⟨rfl, Function.update_self _ _ _⟩
    · exact .inl (Function.update_of_ne hne _ _)
  have hwaits : ∀ q, (t.stage q).Waits → ((t.setStage p .arrived).stage q).Waits := by
    intro q hq
    rcases hstage q with heq | ⟨-, heq⟩
    · rw [heq]
      exact hq
    · rw [heq]
      exact .inr rfl
  cases phase with
  | opening j =>
      exact fun q => ⟨hwaits q (h q).1, (h q).2⟩
  | dealing j =>
      refine Dealing.act h rfl (by simp) (h.turn p (by simp [hp])) nofun ?_ fun _ _ => rfl
      have howed := h.owed p
      rw [hp] at howed
      change t.owed p = _
      simpa [Stage.Waits] using howed
  | trick j i =>
      obtain ⟨m, stage, hm, hplaying⟩ := h
      have hrank := hplaying.rank_of_waits (.inl hp)
      refine ⟨m, stage, hm, hplaying.stages, hplaying.nobody, ?_, ?_, ?_, hplaying.turn, ?_,
        hplaying.cards⟩
      · exact fun q hq => hwaits q (hplaying.passed q hq)
      · intro q hq
        rcases hstage q with heq | ⟨rfl, -⟩
        · rw [heq, hplaying.later q hq]
        · omega
      · intro q hq
        rcases hstage q with heq | ⟨rfl, -⟩
        · rw [heq, hplaying.holder q hq]
        · omega
      · intro q
        rcases hstage q with heq | ⟨rfl, heq⟩
        · rw [heq]
          exact hplaying.owed q
        · have := hplaying.owed q
          rw [hp] at this
          rw [heq]
          exact this
  | between j i =>
      obtain ⟨hbetween, hcards⟩ := h
      refine ⟨⟨hbetween.valid, hbetween.turn, ?_, ?_, ?_⟩, hcards⟩
      · intro q
        rcases hstage q with heq | ⟨-, heq⟩
        · rw [heq]
          exact hbetween.stages q
        · rw [heq]
          exact .inl (.inr rfl)
      · intro q hq
        rcases hstage q with heq | ⟨-, heq⟩
        · rw [heq] at hq
          exact hbetween.draining q hq
        · rw [heq] at hq
          cases hq
      · intro q
        rcases hstage q with heq | ⟨rfl, heq⟩
        · rw [heq]
          exact hbetween.owed q
        · have howed := hbetween.owed q
          rw [hp] at howed
          rw [heq]
          change t.owed q = _
          simpa [Stage.Waits] using howed
  | ended =>
      exact fun q => ⟨hwaits q (h q).1, (h q).2⟩

theorem Playing.begin (hstage : ∀ q, t.stage q = .early) (hturn : t.turn = l)
    (howed : ∀ q, t.owed q = if l = some q then 1 else 0) : t.Playing l [] 0 .early := by
  refine ⟨by simp, fun _ => rfl, fun q hq => by omega, fun q _ => hstage q, fun q _ => hstage q,
    by simpa using hturn, fun q => ?_, by simp⟩
  simp [hstage, howed, Stage.held, hturn]

private theorem Inv.round_goOn (h : t.Inv lead n) (hall : ∀ q, (t.stage q).Waits) :
    (t.goOn n).Round lead (t.phase.next n) := by
  have hvalid := h.valid
  have hround := h.round
  have hbefore := h.before
  have howed : ∀ q, (t.goOn n).owed q = t.owed q := fun _ => rfl
  have hstage : ∀ q, (t.goOn n).stage q = (t.phase.next n).first := fun _ => rfl
  cases hphase : t.phase with
  | opening j =>
      rw [hphase] at hround hstage
      rw [Phase.next] at hstage ⊢
      split_ifs at hstage ⊢ with hj
      · refine ⟨fun q => ?_, fun q hq => ?_, fun q hq => ?_, fun q => ?_⟩
        · simp [hstage, Phase.first]
        · exact absurd (hstage q) hq
        · cases (hstage q).symm.trans hq
        · rw [howed, hstage, (hround q).2]
          simp [Phase.first, Stage.Waits]
      · exact fun q => ⟨.inl (hstage q), (hround q).2⟩
  | dealing j =>
      rw [hphase] at hround hstage hbefore
      have hturn : t.turn = lead j := by
        refine hround.turn 0 fun hearly => ?_
        have := hall 0
        simp [hearly, Stage.Waits] at this
      have hplaying : (t.goOn n).Playing (lead j) [] 0 .early := by
        refine Playing.begin hstage hturn fun q => ?_
        rw [howed]
        simpa [hall q] using hround.owed q
      have hnone : (t.goOn n).appended j 0 = [] := hbefore j 0 le_rfl
      exact ⟨0, .early, by decide, hnone ▸ hplaying⟩
  | trick j i =>
      rw [hphase] at hround hstage hvalid
      obtain ⟨m, stage, hm, hplaying⟩ := hround
      obtain rfl : m = 4 := by
        have hrank := fun q => hplaying.rank_of_waits (hall q)
        cases hlead : lead j with
        | none =>
            have := hrank 0
            simp only [hlead, rank] at this
            omega
        | some l =>
            have hlast : rank (some l) (l + 3) = 3 := (rank_eq_iff (by decide)).mpr rfl
            have := hrank (l + 3)
            rw [hlead, hlast] at this
            omega
      have hlead : (lead j).isSome := by
        rcases hlead : lead j with - | l
        · have := hplaying.rank_of_waits (hall 0)
          simp [hlead, rank] at this
        · rfl
      have hstage' := hplaying.nobody (.inl rfl)
      subst hstage'
      have hturn : t.turn = lead j := by
        simpa using hplaying.turn
      refine ⟨⟨hlead, hturn, fun q => ?_, fun q hq => ?_, fun q => ?_⟩, ?_⟩
      · rw [hstage, Phase.next, Phase.first]
        split_ifs with hi
        · exact .inl (.inl rfl)
        · exact .inr ⟨by have := hvalid.2; omega, .inl rfl⟩
      · rw [hstage, Phase.next, Phase.first] at hq
        split_ifs at hq
      · have := hplaying.owed q
        rw [(hall q).held] at this
        rw [howed, hstage, Phase.next, Phase.first]
        simp only [Nat.add_zero, ne_eq, reduceCtorEq, not_false_eq_true, and_true, hturn] at this
        rw [this]
        split_ifs <;> simp_all [Stage.Waits]
      · have := hplaying.cards
        change t.appended j i = _
        rw [this]
        cases lead j <;> rfl
  | between j i =>
      rw [hphase] at hround hstage hbefore hvalid
      obtain ⟨hbetween, -⟩ := hround
      rw [Phase.next] at hstage ⊢
      split_ifs at hstage ⊢ with hi
      · have hplaying : (t.goOn n).Playing (lead j) [] 0 .early := by
          refine Playing.begin hstage hbetween.turn fun q => ?_
          have hne : i ≠ 12 := by omega
          rw [howed]
          simpa [hne] using hbetween.owed q
        have hnone : (t.goOn n).appended j (i + 1) = [] :=
          hbefore j (i + 1) (.inr ⟨rfl, Nat.lt_succ_self i⟩)
        exact ⟨0, .early, by decide, hnone ▸ hplaying⟩
      · intro q
        refine ⟨.inl (hstage q), ?_⟩
        have := hbetween.owed q
        have heq : i = 12 := by
          have := hvalid.2
          omega
        rw [howed]
        simpa [heq, hall q] using this
  | ended =>
      rw [hphase] at hround hstage
      exact fun q => ⟨.inl (hstage q), (hround q).2⟩

theorem Inv.goOn (h : t.Inv lead n) (hall : ∀ q, (t.stage q).Waits) : (t.goOn n).Inv lead n := by
  have hround := h.round_goOn hall
  refine ⟨Phase.valid_next h.valid, h.inOrder,
    fun j i hji => h.before j i (Phase.before_of_next h.valid hji), fun j i hi hji => ?_, hround⟩
  rcases Phase.after_of_next h.valid hi hji with hold | hnow
  · exact h.after j i hi hold
  · rw [hnow] at hround
    exact hround.2

/-! ## The turns of a trick -/

theorem Playing.acquire (h : t.Playing l cards m stage) (hm : m ≤ 4) (hp : t.stage p = .early)
    (hpermit : 0 < t.permits p) :
    ((t.setPermits p (t.permits p - 1)).setStage p .holding).Playing l cards m .holding := by
  have howes : t.owed p ≠ 0 := by
    rw [Table.owed]
    omega
  have hrank := h.rank_of_permit hm hp howes
  have hlt := h.lt_of_rank hm hrank
  obtain rfl : stage = .early := (h.holder p hrank).symm.trans hp
  have hturn : t.turn = some p := by
    rw [h.turn]
    exact (rank_eq_iff hlt).mp hrank
  refine h.act hlt hrank (by simp) rfl h.turn (fun q => ?_) (by simpa using h.cards)
  have howed := h.owed q
  rcases eq_or_ne q p with rfl | hne
  · simp [hp, hturn, Table.owed, Stage.held] at howed
    simp [Table.setStage, Table.setPermits, Table.owed, Stage.held, hturn]
    omega
  · simp [hturn, Table.owed, hne.symm] at howed
    simp [Table.setStage, Table.setPermits, Table.owed, hturn, hne, hne.symm]
    exact howed

theorem Playing.append (h : t.Playing l cards m stage) (hm : m ≤ 4) (hp : t.stage p = .holding)
    (j i : Nat) :
    ((t.append j i p).setStage p .played).Playing l (cards ++ [p]) m .played := by
  obtain ⟨hrank, hlt, rfl⟩ := h.acting hm hp (by simp)
  refine h.act hlt hrank (by simp) rfl h.turn (fun q => ?_) ?_
  · have howed := h.owed q
    rcases eq_or_ne q p with rfl | hne
    · simpa [hp, Table.setStage, Table.append, Table.owed, Stage.held] using howed
    · simpa [Table.setStage, Table.append, Table.owed, hne] using howed
  · have hcards := h.cards
    simp only [reduceCtorEq, or_self, if_false] at hcards
    simp [hcards, take_order hlt hrank]

theorem Playing.lose (h : t.Playing l cards m stage) (hm : m ≤ 4) (hp : t.stage p = .holding) :
    ((t.setReturning p (t.returning p + 1)).setStage p .early).Playing l cards m .early := by
  obtain ⟨hrank, hlt, rfl⟩ := h.acting hm hp (by simp)
  refine h.act hlt hrank (by simp) rfl h.turn (fun q => ?_) (by simpa using h.cards)
  have howed := h.owed q
  rcases eq_or_ne q p with rfl | hne
  · simp [hp, Table.owed, Stage.held] at howed
    simp [Table.setStage, Table.setReturning, Table.owed, Stage.held]
    omega
  · simpa [Table.setStage, Table.setReturning, Table.owed, hne] using howed

theorem Playing.pass (h : t.Playing l cards m stage) (hm : m ≤ 4) (hp : t.stage p = .played) :
    Playing l cards m .passing { t.setStage p .passing with turn := t.turn.map (· + 1) } := by
  obtain ⟨hrank, hlt, rfl⟩ := h.acting hm hp (by simp)
  have hturn : t.turn = some p := by
    rw [h.turn]
    exact (rank_eq_iff hlt).mp hrank
  refine h.act hlt hrank (by simp) rfl ?_ (fun q => ?_) (by simpa using h.cards)
  · have hnext : t.turn = l.map (· + Fin.ofNat 4 m) := h.turn
    change t.turn.map (· + 1) = l.map (· + Fin.ofNat 4 (m + 1))
    rw [hnext, Option.map_map]
    refine congrArg (fun f => Option.map f l) (funext fun k => ?_)
    revert k
    interval_cases m <;> decide
  · have howed := h.owed q
    rcases eq_or_ne q p with rfl | hne
    · simp [hp, hturn, Table.owed, Stage.held] at howed
      simp [Table.setStage, Table.owed, Stage.held, howed]
    · simp [hturn, Table.owed, hne.symm] at howed
      simp [Table.setStage, Table.owed, hne, howed]

theorem Playing.release (h : t.Playing l cards m stage) (hm : m ≤ 4) (hp : t.stage p = .passing)
    {q : Seat} (hq : t.turn = some q) : m < 4 ∧
      ((t.setPermits q (t.permits q + 1)).setStage p .ready).Playing l cards (m + 1) .early := by
  obtain ⟨hrank, hlt, rfl⟩ := h.acting hm hp (by simp)
  have hsame : ∀ r, rank l r ≠ m →
      ((t.setPermits q (t.permits q + 1)).setStage p .ready).stage r = t.stage r := by
    intro r hr
    have hne : r ≠ p := by
      rintro rfl
      exact hr hrank
    exact Function.update_of_ne hne _ _
  refine ⟨hlt, by simp, fun _ => rfl, fun r hr => ?_, fun r hr => ?_, fun r hr => ?_, ?_,
    fun r => ?_, ?_⟩
  · rcases eq_or_ne (rank l r) m with heq | hne
    · have hrp : r = p :=
        Option.some.inj (((rank_eq_iff hlt).mp heq).symm.trans ((rank_eq_iff hlt).mp hrank))
      rw [hrp]
      exact .inl (Function.update_self _ _ _)
    · rw [hsame r hne]
      exact h.passed r (by omega)
  · rw [hsame r (by omega)]
    exact h.later r (by omega)
  · rw [hsame r (by omega)]
    exact h.later r (by omega)
  · exact h.turn
  · have howed := h.owed r
    have hheld : (((t.setPermits q (t.permits q + 1)).setStage p .ready).stage r).held = 0 := by
      rcases eq_or_ne r p with rfl | hne
      · simp [Table.setStage, Stage.held]
      · have hzero : (t.stage r).held = 0 := by
          simp at howed
          omega
        simpa [Table.setStage, Table.setPermits, hne] using hzero
    rw [hheld]
    rcases eq_or_ne r q with rfl | hne
    · simp [Table.owed] at howed
      simp [Table.setStage, Table.setPermits, Table.owed, hq]
      omega
    · simp [Table.owed] at howed
      simp [Table.setStage, Table.setPermits, Table.owed, hq, hne, hne.symm]
      omega
  · simpa using h.cards

/-! ## Every step -/

theorem Between.act (h : t.Between l 12) (hp : t.stage p ∈ [.early, .draining])
    (hstage : t'.stage = Function.update t.stage p stage) (hmem : stage ∈ [.draining, .ready])
    (hturn : t'.turn = t.turn) (hdraining : stage = .draining → l = some p)
    (howed : t'.owed p = if l = some p ∧ stage = .draining then 1 else 0)
    (hothers : ∀ q, q ≠ p → t'.owed q = t.owed q) : t'.Between l 12 := by
  have hself : t'.stage p = stage := by rw [hstage, Function.update_self]
  have hsame : ∀ q, q ≠ p → t'.stage q = t.stage q := by
    intro q hne
    rw [hstage, Function.update_of_ne hne]
  refine ⟨h.valid, hturn.trans h.turn, fun q => ?_, fun q hq => ?_, fun q => ?_⟩
  · rcases eq_or_ne q p with rfl | hne
    · rw [hself]
      simp only [List.mem_cons, List.not_mem_nil, or_false] at hmem
      rcases hmem with rfl | rfl
      · exact .inr ⟨rfl, .inr rfl⟩
      · exact .inl (.inl rfl)
    · rw [hsame q hne]
      exact h.stages q
  · rcases eq_or_ne q p with rfl | hne
    · exact hdraining (hself.symm.trans hq)
    · exact h.draining q ((hsame q hne).symm.trans hq)
  · rcases eq_or_ne q p with rfl | hne
    · rw [hself, howed]
      simp only [List.mem_cons, List.not_mem_nil, or_false] at hmem
      rcases hmem with rfl | rfl
      · simp [Stage.Waits]
      · simp [Stage.Waits]
    · rw [hsame q hne, hothers q hne, h.owed q]

/-- A seat that has not drained yet is at the end of the last trick. -/
theorem Between.last (h : t.Between l i) (hp : ¬ (t.stage p).Waits) : i = 12 :=
  ((h.stages p).resolve_left hp).1

private theorem Round.of_owed {phase : Phase} (h : t.Round lead phase) (hstage : t'.stage = t.stage)
    (hturn : t'.turn = t.turn) (happended : t'.appended = t.appended)
    (howed : ∀ q, t'.owed q = t.owed q) : t'.Round lead phase := by
  cases phase with
  | opening j =>
      intro q
      rw [hstage, howed]
      exact h q
  | dealing j =>
      exact ⟨hstage ▸ h.stages, hstage ▸ hturn ▸ h.turn, hstage ▸ h.leading,
        fun q => by rw [howed, hstage, h.owed q]⟩
  | trick j i =>
      obtain ⟨m, stage, hm, hplaying⟩ := h
      refine ⟨m, stage, hm, hplaying.stages, hplaying.nobody, hstage ▸ hplaying.passed,
        hstage ▸ hplaying.later, hstage ▸ hplaying.holder, hturn.trans hplaying.turn,
        fun q => ?_, happended ▸ hplaying.cards⟩
      rw [howed, hstage, hturn]
      exact hplaying.owed q
  | between j i =>
      obtain ⟨hbetween, hcards⟩ := h
      refine ⟨⟨hbetween.valid, hturn.trans hbetween.turn, hstage ▸ hbetween.stages,
        hstage ▸ hbetween.draining, fun q => ?_⟩, happended ▸ hcards⟩
      rw [howed, hstage]
      exact hbetween.owed q
  | ended =>
      intro q
      rw [hstage, howed]
      exact h q

theorem Inv.append {j : Nat} (h : t.Inv lead n) (hi : t.phase = .trick j i)
    (hp : t.stage p = .holding) : ((t.append j i p).setStage p .played).Inv lead n := by
  have hround := h.round
  rw [hi] at hround
  obtain ⟨m, stage, hm, hplaying⟩ := hround
  have hnow := hplaying.append hm hp j i
  have hself : ((t.append j i p).setStage p .played).appended j i = t.appended j i ++ [p] := by
    simp [Table.setStage, Table.append]
  have hsame : ∀ j' i', ¬ (j' = j ∧ i' = i) →
      ((t.append j i p).setStage p .played).appended j' i' = t.appended j' i' := by
    intro j' i' hne
    change Function.update t.appended j _ j' i' = _
    rcases eq_or_ne j' j with rfl | hj
    · rw [Function.update_self, Function.update_of_ne]
      rintro rfl
      exact hne ⟨rfl, rfl⟩
    · rw [Function.update_of_ne hj]
  refine ⟨h.valid, fun j' i' => ?_, fun j' i' hbefore => ?_, fun j' i' hi' hafter => ?_, ?_⟩
  · by_cases heq : j' = j ∧ i' = i
    · obtain ⟨rfl, rfl⟩ := heq
      rw [hself, hnow.cards]
      exact List.take_prefix _ _
    · rw [hsame j' i' heq]
      exact h.inOrder j' i'
  · have hbefore' : t.phase.Before n j' i' := hbefore
    rw [hsame j' i', h.before j' i' hbefore']
    rintro ⟨rfl, rfl⟩
    simp [hi, Phase.Before] at hbefore'
  · have hafter' : t.phase.After n j' i' := hafter
    rw [hsame j' i', h.after j' i' hi' hafter']
    rintro ⟨rfl, rfl⟩
    simp [hi, Phase.After] at hafter'
  · change Round lead _ t.phase
    rw [hi]
    exact ⟨m, .played, hm, hself ▸ hnow⟩

theorem Inv.step (h : t.Inv lead n) (hstep : Step lead n t t') : t'.Inv lead n := by
  have hround := h.round
  cases hstep with
  | arrive p hp => exact h.of_round rfl rfl (hround.arrive hp)
  | goOn p hp hothers =>
      refine h.goOn fun q => ?_
      rcases eq_or_ne q p with rfl | hne
      · exact .inl hp
      · exact .inr (hothers q hne)
  | turn p j hj hp =>
      rw [hj] at hround
      refine h.of_round rfl rfl ?_
      rw [hj]
      refine Dealing.act hround rfl (by simp) rfl nofun ?_ fun _ _ => rfl
      have howed := hround.owed p
      rw [hp] at howed
      change t.owed p = _
      simpa [Stage.Waits] using howed
  | lead p j hj hp hturn =>
      rw [hj] at hround
      have hlead := hround.turn p (by simp [hp])
      refine h.of_round rfl rfl ?_
      rw [hj]
      refine Dealing.act hround rfl (by simp) hlead (fun _ => hlead.symm.trans hturn) ?_
        fun _ _ => rfl
      have howed := hround.owed p
      rw [hp] at howed
      change t.owed p = _
      simpa [Stage.Waits] using howed
  | follow p j hj hp hturn =>
      rw [hj] at hround
      have hlead := hround.turn p (by simp [hp])
      refine h.of_round rfl rfl ?_
      rw [hj]
      refine Dealing.act hround rfl (by simp) hlead nofun ?_ fun _ _ => rfl
      have howed := hround.owed p
      rw [hp] at howed
      change t.owed p = _
      rw [hlead] at hturn
      simpa [Stage.Waits, hturn] using howed
  | openTrick p j hj hp =>
      rw [hj] at hround
      have hlead := hround.leading p hp
      refine h.of_round rfl rfl ?_
      rw [hj]
      refine Dealing.act hround rfl (by simp)
        (hround.turn p (by simp [hp])) nofun ?_ fun q hne => ?_
      · have howed := hround.owed p
        simp [hp, Stage.Waits, Table.owed] at howed
        simp [hlead, Stage.Waits, Table.setStage, Table.setPermits, Table.owed, howed]
      · simp [Table.setStage, Table.setPermits, Table.owed, hne]
  | acquire p j i hi hp hpermit =>
      rw [hi] at hround
      obtain ⟨m, stage, hm, hplaying⟩ := hround
      refine h.of_round rfl rfl ?_
      rw [hi]
      exact ⟨m, .holding, hm, hplaying.acquire hm hp hpermit⟩
  | append p j i hi hp => exact h.append hi hp
  | lose p j i hi hp =>
      rw [hi] at hround
      obtain ⟨m, stage, hm, hplaying⟩ := hround
      refine h.of_round rfl rfl ?_
      rw [hi]
      exact ⟨m, .early, hm, hplaying.lose hm hp⟩
  | giveBack p hp =>
      refine h.of_round rfl rfl (hround.of_owed rfl rfl rfl fun q => ?_)
      rcases eq_or_ne q p with rfl | hne
      · simp [Table.setReturning, Table.setPermits, Table.owed]
        omega
      · simp [Table.setReturning, Table.setPermits, Table.owed, hne]
  | pass p j i hi hp =>
      rw [hi] at hround
      obtain ⟨m, stage, hm, hplaying⟩ := hround
      refine h.of_round rfl rfl ?_
      rw [hi]
      exact ⟨m, .passing, hm, hplaying.pass hm hp⟩
  | release p q j i hi hp hturn =>
      rw [hi] at hround
      obtain ⟨m, stage, hm, hplaying⟩ := hround
      obtain ⟨hlt, hnext⟩ := hplaying.release hm hp hturn
      refine h.of_round rfl rfl ?_
      rw [hi]
      exact ⟨m + 1, .early, hlt, hnext⟩
  | drain p j i hi hp hturn =>
      rw [hi] at hround
      obtain ⟨hbetween, hcards⟩ := hround
      obtain rfl := hbetween.last (p := p) (by simp [hp, Stage.Waits])
      have hlead : lead j = some p := hbetween.turn.symm.trans hturn
      refine h.of_round rfl rfl ?_
      rw [hi]
      refine ⟨hbetween.act (by simp [hp]) rfl (by simp) rfl (fun _ => hlead) ?_ fun _ _ => rfl,
        hcards⟩
      have howed := hbetween.owed p
      rw [hp] at howed
      change t.owed p = _
      simpa [Stage.Waits, hlead] using howed
  | rest p j i hi hp hturn =>
      rw [hi] at hround
      obtain ⟨hbetween, hcards⟩ := hround
      obtain rfl := hbetween.last (p := p) (by simp [hp, Stage.Waits])
      have hlead : lead j ≠ some p := fun hlead => hturn (hbetween.turn.trans hlead)
      refine h.of_round rfl rfl ?_
      rw [hi]
      refine ⟨hbetween.act (by simp [hp]) rfl (by simp) rfl nofun ?_ fun _ _ => rfl, hcards⟩
      have howed := hbetween.owed p
      change t.owed p = _
      simpa [hlead] using howed
  | close p q j i hi hp hturn hpermit =>
      rw [hi] at hround
      obtain ⟨hbetween, hcards⟩ := hround
      obtain rfl := hbetween.last (p := p) (by simp [hp, Stage.Waits])
      have hlead := hbetween.draining p hp
      obtain rfl : q = p := Option.some.inj (hturn.symm.trans (hbetween.turn.trans hlead))
      refine h.of_round rfl rfl ?_
      rw [hi]
      refine ⟨hbetween.act (by simp [hp]) rfl (by simp) rfl nofun ?_ fun r hne => ?_, hcards⟩
      · have howed := hbetween.owed q
        simp [hp, hlead, Stage.Waits, Table.owed] at howed
        simp [Table.setStage, Table.setPermits, Table.owed]
        omega
      · simp [Table.setStage, Table.setPermits, Table.owed, hne]

theorem Inv.start : Table.start.Inv lead n :=
  ⟨Nat.zero_le n, fun _ _ => List.nil_prefix, fun _ _ _ => rfl,
    fun _ _ _ h => absurd h (Nat.not_lt_zero _), fun _ => ⟨.inl rfl, rfl⟩⟩

theorem Inv.deal_complete (h : t.Inv lead n) {j : Nat} (hlast : (t.appended j 12).length = 4)
    (hi : i < 13) : (lead j).isSome ∧ t.appended j i = order (lead j) := by
  have hpre := h.inOrder j 12
  have hlead : (lead j).isSome := by
    rcases hlead : lead j with - | l
    · rw [hlead] at hpre
      have := hpre.length_le
      rw [hlast] at this
      simp [order] at this
    · rfl
  have hfull : t.appended j 12 = order (lead j) := by
    refine hpre.eq_of_length ?_
    obtain ⟨l, hl⟩ := Option.isSome_iff_exists.mp hlead
    rw [hlast, hl]
    rfl
  refine ⟨hlead, ?_⟩
  have hnot : ¬ t.phase.Before n j 12 := by
    intro hbefore
    rw [h.before j 12 hbefore] at hlast
    cases hlast
  rcases eq_or_ne i 12 with rfl | hne
  · exact hfull
  · refine h.after j i hi ?_
    have hvalid := h.valid
    cases hphase : t.phase with
    | opening k =>
        rw [hphase] at hnot
        exact Nat.lt_of_not_le hnot
    | dealing k =>
        rw [hphase] at hnot
        exact Nat.lt_of_not_le hnot
    | trick k l =>
        rw [hphase] at hnot hvalid
        simp only [Phase.Before, Phase.After, Phase.Valid] at hnot hvalid ⊢
        omega
    | between k l =>
        rw [hphase] at hnot hvalid
        simp only [Phase.Before, Phase.After, Phase.Valid] at hnot hvalid ⊢
        omega
    | ended =>
        rw [hphase] at hnot
        exact Nat.lt_of_not_le hnot

theorem Inv.turn_of_acting (h : t.Inv lead n) {j : Nat} (hphase : t.phase = .trick j i)
    (hp : t.stage p ∈ [.holding, .played, .passing]) : ∃ q, t.turn = some q := by
  have hround := h.round
  rw [hphase] at hround
  obtain ⟨m, stage, hm, hplaying⟩ := hround
  obtain ⟨hrank, hlt, -⟩ := hplaying.acting hm rfl hp
  have hlead := (rank_eq_iff hlt).mp hrank
  obtain ⟨l, hl, -⟩ := Option.map_eq_some_iff.mp hlead
  exact ⟨_, by rw [hplaying.turn, hl, Option.map_some]⟩

theorem Inv.owed_le (h : t.Inv lead n) (p : Seat) : t.owed p ≤ 1 := by
  have hround := h.round
  cases hphase : t.phase with
  | opening j =>
      rw [hphase] at hround
      rw [(hround p).2]
      exact Nat.zero_le 1
  | dealing j =>
      rw [hphase] at hround
      rw [hround.owed p]
      split_ifs <;> simp
  | trick j i =>
      rw [hphase] at hround
      obtain ⟨m, stage, -, hplaying⟩ := hround
      have := hplaying.owed p
      split_ifs at this <;> omega
  | between j i =>
      rw [hphase] at hround
      rw [hround.1.owed p]
      split_ifs <;> simp
  | ended =>
      rw [hphase] at hround
      rw [(hround p).2]
      exact Nat.zero_le 1

end Table

end Mimuw.Cards.Turns
