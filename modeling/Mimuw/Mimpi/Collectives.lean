import Mimuw.Lib.Scripts
import Mimuw.Mimpi.Tree

/-!
# Collective calls and their scripts

A round is one collective call that every rank makes.  Its script says, for each
rank, which data messages the call sends and receives; the messages of barriers
and of `MIMPI_Finalize` carry no data and are left out.  The scripts of the
ranks fit, and the program of the call follows the script whatever the other
messages bring.
-/

namespace Mimuw.Mimpi

open Mimuw.Lib

/-- One collective call of all ranks; each rank passes in data of its own. -/
inductive Round where
  | barrier
  | bcast (data : Nat → List UInt8) (root : Nat)
  | reduce (sendData recvData scratch : Nat → List UInt8) (op : Op) (root : Nat)

def Round.call (rank : Nat) : Round → Call
  | .barrier => .barrier
  | .bcast data root => .bcast (data rank) root
  | .reduce sendData recvData scratch op root =>
      .reduce (sendData rank) (recvData rank) (scratch rank) op root

/-- The root is a rank, and all ranks pass the same count. -/
def Round.WellFormed (n : Nat) : Round → Prop
  | .barrier => True
  | .bcast data root | .reduce data _ _ _ root =>
      root < n ∧ ∀ r, r < n → (data r).length = (data root).length

/-! ## Scripts -/

def Message.isData (m : Message) : Bool := m.tag ≠ finishedTag ∧ m.tag ≠ barrierTag

/-- The bytes that reach the parent of a rank: those of its subtree, combined. -/
def partialResult (n : Nat) (sendData : Nat → List UInt8) (op : Op) (root rank : Nat) :
    List UInt8 :=
  heapFold n op.combine (fun node => sendData (rankAt n root node)) (relativeRank n rank root)

def toChild (child : Option Nat) (m : Message) : List (Event Nat Message) :=
  child.toList.map fun peer => .send peer m

def fromChild (child : Option Nat) (m : Nat → Message) : List (Event Nat Message) :=
  child.toList.map fun peer => .recv peer (m peer)

def Round.script (n rank : Nat) : Round → List (Event Nat Message)
  | .barrier => []
  | .bcast data root =>
      (if rank = root then [] else [.recv (parent n rank root) ⟨bcastTag, data root⟩]) ++
        (toChild (leftChild n rank root) ⟨bcastTag, data root⟩ ++
          toChild (rightChild n rank root) ⟨bcastTag, data root⟩)
  | .reduce sendData _ _ op root =>
      fromChild (leftChild n rank root)
          (fun peer => ⟨reduceTag, partialResult n sendData op root peer⟩) ++
        (fromChild (rightChild n rank root)
            (fun peer => ⟨reduceTag, partialResult n sendData op root peer⟩) ++
          if rank = root then []
          else
            [.send (parent n rank root)
              ⟨reduceTag, partialResult n sendData op root rank⟩])

/-- What the call of a rank returns and leaves in its buffer; of a barrier
nothing is said. -/
def Round.Returns (n rank : Nat) : Round → Retcode × List UInt8 → Prop
  | .barrier, _ => True
  | .bcast data root, answer => answer = (.success, data root)
  | .reduce sendData recvData _ op root, answer =>
      answer = (.success,
        if rank = root then partialResult n sendData op root root else recvData rank)

section Fit

variable {n s d root : Nat}

private theorem sendsTo_toChild (child : Option Nat) (m : Message) :
    sendsTo d (toChild child m) = if child = some d then [m] else [] := by
  cases child with
  | none => simp [toChild, sendsTo]
  | some peer => by_cases h : peer = d <;> simp [toChild, sendsTo, h]

private theorem receivesFrom_toChild (child : Option Nat) (m : Message) :
    receivesFrom s (toChild child m) = [] := by
  cases child <;> simp [toChild, receivesFrom]

private theorem sendsTo_fromChild (child : Option Nat) (m : Nat → Message) :
    sendsTo d (fromChild child m) = [] := by
  cases child <;> simp [fromChild, sendsTo]

private theorem receivesFrom_fromChild (child : Option Nat) (m : Nat → Message) :
    receivesFrom s (fromChild child m) = if child = some s then [m s] else [] := by
  cases child with
  | none => simp [fromChild, receivesFrom]
  | some peer => by_cases h : peer = s <;> simp [fromChild, receivesFrom, h]

private theorem either_child {α : Type} (hd : d < n) (hroot : root < n) (m : α) :
    ((if leftChild n s root = some d then [m] else []) ++
        if rightChild n s root = some d then [m] else []) =
      if leftChild n s root = some d ∨ rightChild n s root = some d then [m] else [] := by
  by_cases hleft : leftChild n s root = some d
  · simp [hleft, leftChild_ne_rightChild hd hroot hleft]
  · simp [hleft]

theorem script_matched {round : Round} (hs : s < n) (hd : d < n)
    (hwell : round.WellFormed n) :
    Matched s d [] (round.script n s) (round.script n d) := by
  cases round with
  | barrier => rfl
  | bcast data root =>
      have hroot : root < n := hwell.1
      simp only [Matched, Round.script, List.nil_append, sendsTo_append, receivesFrom_append,
        sendsTo_toChild, receivesFrom_toChild, List.append_nil, either_child hd hroot,
        child_iff_parent hs hd hroot]
      have hown : sendsTo d (if s = root then []
          else [Event.recv (parent n s root) (⟨bcastTag, data root⟩ : Message)]) = [] := by
        split_ifs <;> rfl
      rw [hown, List.nil_append]
      by_cases h : d = root <;> simp [h, receivesFrom]
  | reduce sendData recvData scratch op root =>
      have hroot : root < n := hwell.1
      simp only [Matched, Round.script, List.nil_append, sendsTo_append, receivesFrom_append,
        sendsTo_fromChild, receivesFrom_fromChild]
      have hown : receivesFrom s (if d = root then []
          else [Event.send (parent n d root)
            (⟨reduceTag, partialResult n sendData op root d⟩ : Message)]) = [] := by
        split_ifs <;> rfl
      rw [hown, List.append_nil, either_child hs hroot]
      simp only [child_iff_parent hd hs hroot]
      by_cases h : s = root <;> simp [h, sendsTo]

end Fit

/-! ## Programs that follow a script -/

/-- The messages without data that a call may send. -/
def Call.Signals : Call → Int → Prop
  | .barrier, tag => tag = barrierTag
  | .finalize, tag => tag = finishedTag
  | _, _ => False

/-- The program of the call `c` does the events of the list and ends as allowed,
if its receives bring the messages of the list, and whatever the return codes
of its barrier messages are. -/
def Prog.Follows (n rank : Nat) (c : Call) (returns : Retcode × List UInt8 → Prop) :
    Prog → List (Event Nat Message) → Prop
  | .ret code data, events => events = [] ∧ returns (code, data)
  | .send data destination tag next, events =>
      (data = [] ∧ c.Signals tag ∧ ∀ code, (next code).Follows n rank c returns events) ∨
        ∃ peer rest, events = .send peer ⟨tag, data⟩ :: rest ∧
          (⟨tag, data⟩ : Message).isData ∧ destination = (peer : Int) ∧ peer < n ∧ peer ≠ rank ∧
          (next .success).Follows n rank c returns rest
  | .recv count source tag next, events =>
      (tag = barrierTag ∧
          ∀ code received, (next code received).Follows n rank c returns events) ∨
        ∃ peer m rest, events = .recv peer m :: rest ∧ m.isData ∧ m.tag = tag ∧
          m.data.length = count ∧ source = (peer : Int) ∧ peer < n ∧ peer ≠ rank ∧
          (next .success (some m.data)).Follows n rank c returns rest

section Follows

variable {n rank : Nat} {c : Call} {returns : Retcode × List UInt8 → Prop}
  {events : List (Event Nat Message)}

theorem Prog.Follows.mono {prog : Prog} {returns' : Retcode × List UInt8 → Prop}
    (h : prog.Follows n rank c returns events) (himp : ∀ answer, returns answer → returns' answer) :
    prog.Follows n rank c returns' events := by
  induction prog generalizing events with
  | ret code data => exact ⟨h.1, himp _ h.2⟩
  | send data destination tag next ih =>
      rcases h with ⟨hdata, htag, hnext⟩ | ⟨peer, rest, hevents, hdata, hpeer, hlt, hne, hnext⟩
      · exact .inl ⟨hdata, htag, fun code => ih code (hnext code)⟩
      · exact .inr ⟨peer, rest, hevents, hdata, hpeer, hlt, hne, ih _ hnext⟩
  | recv count source tag next ih =>
      rcases h with ⟨htag, hnext⟩ |
        ⟨peer, m, rest, hevents, hdata, htag, hlength, hpeer, hlt, hne, hnext⟩
      · exact .inl ⟨htag, fun code received => ih code received (hnext code received)⟩
      · exact .inr ⟨peer, m, rest, hevents, hdata, htag, hlength, hpeer, hlt, hne, ih _ _ hnext⟩

private theorem follows_signal {destination : Nat} {tag : Int} {next : Prog} (htag : c.Signals tag)
    (hnext : next.Follows n rank c returns events) :
    (Prog.sendTo [] destination tag next).Follows n rank c returns events :=
  .inl ⟨rfl, htag, fun _ => hnext⟩

private theorem follows_await {source : Nat} {next : Option (List UInt8) → Prog}
    (hfinished : events = [] ∧ returns (.remoteFinished, []))
    (hnext : ∀ received, (next received).Follows n rank c returns events) :
    (Prog.recvFrom 0 source barrierTag [] next).Follows n rank c returns events := by
  refine .inl ⟨rfl, fun code received => ?_⟩
  dsimp only
  split_ifs with h
  · rw [h]
    exact hfinished
  · exact hnext received

private theorem follows_sendTo {data : List UInt8} {peer : Nat} {tag : Int} {next : Prog}
    (hdata : (⟨tag, data⟩ : Message).isData) (hpeer : peer < n ∧ peer ≠ rank)
    (hnext : next.Follows n rank c returns events) :
    (Prog.sendTo data peer tag next).Follows n rank c returns
      (.send peer ⟨tag, data⟩ :: events) :=
  .inr ⟨peer, events, rfl, hdata, rfl, hpeer.1, hpeer.2, hnext⟩

private theorem follows_recvFrom {count peer : Nat} {tag : Int} {data : List UInt8} {m : Message}
    {next : Option (List UInt8) → Prog} (hdata : m.isData) (htag : m.tag = tag)
    (hcount : m.data.length = count) (hpeer : peer < n ∧ peer ≠ rank)
    (hnext : (next (some m.data)).Follows n rank c returns events) :
    (Prog.recvFrom count peer tag data next).Follows n rank c returns
      (.recv peer m :: events) :=
  .inr ⟨peer, m, events, rfl, hdata, htag, hcount, rfl, hpeer.1, hpeer.2, hnext⟩

private theorem barrier_follows :
    (barrier n rank).Follows n rank .barrier (fun _ => True) [] := by
  have hright : (barrierNotifyRight n rank).Follows n rank .barrier (fun _ => True) [] := by
    rw [barrierNotifyRight]
    split_ifs
    · exact follows_signal rfl ⟨rfl, trivial⟩
    · exact ⟨rfl, trivial⟩
  have hnotify : (barrierNotify n rank).Follows n rank .barrier (fun _ => True) [] := by
    rw [barrierNotify]
    split_ifs
    · exact follows_signal rfl hright
    · exact hright
  have hparent : (barrierNotifyParent n rank).Follows n rank .barrier (fun _ => True) [] := by
    rw [barrierNotifyParent]
    split_ifs
    · exact follows_signal rfl (follows_await ⟨rfl, trivial⟩ fun _ => hnotify)
    · exact hnotify
  have hawait : (barrierAwaitRight n rank).Follows n rank .barrier (fun _ => True) [] := by
    rw [barrierAwaitRight]
    split_ifs
    · exact follows_await ⟨rfl, trivial⟩ fun _ => hparent
    · exact hparent
  rw [barrier]
  split_ifs
  · exact follows_await ⟨rfl, trivial⟩ fun _ => hawait
  · exact hawait

theorem finalizeFrom_follows (left i : Nat) :
    (finalizeFrom i left).Follows n rank .finalize (fun _ => True) [] := by
  induction left generalizing i with
  | zero => exact ⟨rfl, trivial⟩
  | succ left ih => exact follows_signal rfl (ih (i + 1))

private theorem follows_sendToChild {data : List UInt8} {child : Option Nat} {tag : Int}
    {next : Prog} (hdata : (⟨tag, data⟩ : Message).isData)
    (hchild : ∀ peer ∈ child, peer < n ∧ peer ≠ rank)
    (hnext : next.Follows n rank c returns events) :
    (Prog.sendToChild data child tag next).Follows n rank c returns
      (toChild child ⟨tag, data⟩ ++ events) := by
  cases child with
  | none => exact hnext
  | some peer => exact follows_sendTo hdata (hchild peer rfl) hnext

private theorem follows_reduceChild {child : Option Nat} {op : Op}
    {recvData buffer scratch : List UInt8} {value : Nat → List UInt8}
    {next : List UInt8 → List UInt8 → Prog}
    (hchild : ∀ peer ∈ child, peer < n ∧ peer ≠ rank)
    (hlength : ∀ peer ∈ child, (value peer).length = buffer.length)
    (hnext : ∀ scratch, (next (child.elim buffer fun peer => op.combine buffer (value peer))
      scratch).Follows n rank c returns events) :
    (reduceChild child op recvData buffer scratch next).Follows n rank c returns
      (fromChild child (fun peer => ⟨reduceTag, value peer⟩) ++ events) := by
  cases child with
  | none => exact hnext scratch
  | some peer =>
      refine follows_recvFrom rfl rfl (hlength peer rfl) (hchild peer rfl) ?_
      exact hnext (value peer)

end Follows

section Program

variable {n rank root : Nat}

private theorem bcastSend_follows {data : List UInt8} {c : Call}
    {returns : Retcode × List UInt8 → Prop} (hrank : rank < n) (hroot : root < n)
    (hreturns : returns (.success, data)) :
    (bcastSend n rank root data).Follows n rank c returns
      (toChild (leftChild n rank root) ⟨bcastTag, data⟩ ++
        toChild (rightChild n rank root) ⟨bcastTag, data⟩) := by
  refine follows_sendToChild rfl (fun peer hpeer => child_ne hrank hroot (.inl hpeer)) ?_
  rw [← List.append_nil (toChild (rightChild n rank root) _)]
  exact follows_sendToChild rfl (fun peer hpeer => child_ne hrank hroot (.inr hpeer))
    ⟨rfl, hreturns⟩

/-- The subtree of a rank is the rank and the subtrees of its children. -/
private theorem partialResult_eq {sendData : Nat → List UInt8} {op : Op} (hrank : rank < n)
    (hroot : root < n) :
    partialResult n sendData op root rank =
      (rightChild n rank root).elim
        ((leftChild n rank root).elim (sendData rank) fun peer =>
          op.combine (sendData rank) (partialResult n sendData op root peer))
        fun peer => op.combine
          ((leftChild n rank root).elim (sendData rank) fun peer =>
            op.combine (sendData rank) (partialResult n sendData op root peer))
          (partialResult n sendData op root peer) := by
  have hchild (node : Nat) : (relativeChild n root node).elim = fun (base : List UInt8) combined =>
      if node < n then combined (rankAt n root node) else base := by
    funext base combined
    rw [relativeChild]
    split_ifs <;> first | rfl | omega
  rw [partialResult, heapFold, rankAt_relativeRank hrank hroot]
  simp only [leftChild, rightChild, hchild]
  by_cases hleft : 2 * relativeRank n rank root + 1 < n
  · by_cases hright : 2 * relativeRank n rank root + 2 < n
    · simp only [hleft, hright, if_true, partialResult, relativeRank_rankAt hleft hroot,
        relativeRank_rankAt hright hroot]
    · simp only [hleft, hright, if_true, if_false, partialResult,
        relativeRank_rankAt hleft hroot]
  · have hright : ¬ 2 * relativeRank n rank root + 2 < n := by omega
    simp only [hleft, hright, if_false]

theorem length_combine (op : Op) (buffer received : List UInt8)
    (h : buffer.length = received.length) :
    (op.combine buffer received).length = buffer.length := by
  simp [Op.combine, h]

private theorem length_partialResult {sendData : Nat → List UInt8} {op : Op} {count : Nat}
    (hlength : ∀ r, r < n → (sendData r).length = count) (hn : 0 < n) :
    (partialResult n sendData op root rank).length = count := by
  refine heapFold_nodes (R := fun _ (a : List UInt8) => a.length = count) ?_ ?_ _
    (relativeRank_lt hn)
  · intro i _
    exact hlength _ (rankAt_lt hn)
  · intro _ _ a b ha hb
    rw [length_combine op a b (ha.trans hb.symm), ha]

/-- Every call of a round follows the script of the round. -/
theorem program_follows {round : Round} (hrank : rank < n) (hwell : round.WellFormed n) :
    (program n rank (round.call rank)).Follows n rank (round.call rank)
      (round.Returns n rank) (round.script n rank) := by
  cases round with
  | barrier => exact barrier_follows
  | bcast data root =>
      obtain ⟨hroot, hlength⟩ := hwell
      simp only [Round.call, program, bcast, Round.script]
      split_ifs with h
      · subst h
        exact bcastSend_follows hrank hroot rfl
      · have hparent : parent n rank root < n ∧ parent n rank root ≠ rank :=
          ⟨parent_lt (by omega), parent_ne hrank hroot h⟩
        refine follows_recvFrom rfl rfl ?_ hparent ?_
        · rw [hlength rank hrank]
        · exact bcastSend_follows hrank hroot rfl
  | reduce sendData recvData scratch op root =>
      obtain ⟨hroot, hlength⟩ := hwell
      have hsubtree (peer : Nat) : (partialResult n sendData op root peer).length =
          (sendData root).length := length_partialResult hlength (by omega)
      simp only [Round.call, program, reduce, Round.script]
      refine follows_reduceChild (fun peer hpeer => child_ne hrank hroot (.inl hpeer)) ?_ ?_
      · intro peer _
        rw [hsubtree, hlength rank hrank]
      intro scratch
      refine follows_reduceChild (fun peer hpeer => child_ne hrank hroot (.inr hpeer)) ?_ ?_
      · intro peer _
        rw [hsubtree]
        cases leftChild n rank root with
        | none => exact (hlength rank hrank).symm
        | some left =>
            rw [Option.elim_some, length_combine _ _ _
              ((hlength rank hrank).trans (hsubtree left).symm), hlength rank hrank]
      intro _
      rw [← partialResult_eq hrank hroot, reduceSend]
      by_cases h : rank = root
      · simp only [h, ne_eq, not_true_eq_false, if_false, if_true]
        exact ⟨rfl, by simp [Round.Returns]⟩
      · simp only [h, ne_eq, not_false_eq_true, if_true, if_false]
        refine follows_sendTo rfl ⟨parent_lt (by omega), parent_ne hrank hroot h⟩ ⟨rfl, ?_⟩
        simp only [Round.Returns, if_neg h]

end Program

end Mimuw.Mimpi
