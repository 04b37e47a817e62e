import Mimuw.Mimpi.Determinacy

/-!
# Reductions

The value that comes up the tree combines, at every byte, the data of all ranks
of the subtree, each once; the tree of the root holds all ranks.
-/

namespace Mimuw.Mimpi

open Mimuw.Lib

/-- The number `result` is the operation over all of the numbers, modulo 256 for
sums and products. -/
def Op.Total (op : Op) (values : List Nat) (result : Nat) : Prop :=
  match op with
  | .sum => result = values.sum % 256
  | .prod => result = values.prod % 256
  | .max => result ∈ values ∧ ∀ value ∈ values, value ≤ result
  | .min => result ∈ values ∧ ∀ value ∈ values, result ≤ value

section Total

variable {op : Op} {values values' : List Nat} {a b : UInt8}

private theorem total_single (op : Op) (a : UInt8) : op.Total [a.toNat] a.toNat := by
  have hlt := a.toNat_lt
  cases op <;> simp [Op.Total]

theorem Op.Total.apply (ha : op.Total values a.toNat) (hb : op.Total values' b.toNat) :
    op.Total (values ++ values') (op.apply a b).toNat := by
  cases op with
  | sum =>
      simp only [Op.Total, Op.apply, List.sum_append, UInt8.toNat_add] at *
      rw [ha, hb, ← Nat.add_mod]
  | prod =>
      simp only [Op.Total, Op.apply, List.prod_append, UInt8.toNat_mul] at *
      rw [ha, hb, ← Nat.mul_mod]
  | max =>
      simp only [Op.Total, Op.apply, List.mem_append] at *
      split_ifs with hlt
      · rw [UInt8.lt_iff_toNat_lt] at hlt
        refine ⟨.inr hb.1, fun value hvalue => ?_⟩
        rcases hvalue with hvalue | hvalue
        · have := ha.2 value hvalue
          omega
        · exact hb.2 value hvalue
      · rw [UInt8.lt_iff_toNat_lt] at hlt
        refine ⟨.inl ha.1, fun value hvalue => ?_⟩
        rcases hvalue with hvalue | hvalue
        · exact ha.2 value hvalue
        · have := hb.2 value hvalue
          omega
  | min =>
      simp only [Op.Total, Op.apply, List.mem_append] at *
      split_ifs with hlt
      · rw [gt_iff_lt, UInt8.lt_iff_toNat_lt] at hlt
        refine ⟨.inr hb.1, fun value hvalue => ?_⟩
        rcases hvalue with hvalue | hvalue
        · have := ha.2 value hvalue
          omega
        · exact hb.2 value hvalue
      · rw [gt_iff_lt, UInt8.lt_iff_toNat_lt] at hlt
        refine ⟨.inl ha.1, fun value hvalue => ?_⟩
        rcases hvalue with hvalue | hvalue
        · exact ha.2 value hvalue
        · have := hb.2 value hvalue
          omega

theorem Op.Total.perm {result : Nat} (h : op.Total values result)
    (hperm : values.Perm values') : op.Total values' result := by
  cases op with
  | sum => exact h.trans (by rw [hperm.sum_eq])
  | prod => exact h.trans (by rw [hperm.prod_eq])
  | max => exact ⟨hperm.subset h.1, fun value hvalue => h.2 value (hperm.symm.subset hvalue)⟩
  | min => exact ⟨hperm.subset h.1, fun value hvalue => h.2 value (hperm.symm.subset hvalue)⟩

end Total

def byteAt (j : Nat) (buffer : List UInt8) : UInt8 := buffer.getD j default

private theorem byteAt_combine {op : Op} {a b : List UInt8} {j : Nat} (ha : j < a.length)
    (hb : j < b.length) : byteAt j (op.combine a b) = op.apply (byteAt j a) (byteAt j b) := by
  simp [byteAt, Op.combine, List.getD, ha, hb]

/-- The buffer combines the data at the nodes, byte by byte. -/
def Combines (op : Op) (count : Nat) (value : Nat → List UInt8) (nodes : List Nat)
    (buffer : List UInt8) : Prop :=
  buffer.length = count ∧ ∀ j, j < count →
    op.Total (nodes.map fun node => (byteAt j (value node)).toNat) (byteAt j buffer).toNat

section Combines

variable {op : Op} {count : Nat} {value : Nat → List UInt8} {nodes nodes' : List Nat}
  {a b : List UInt8}

private theorem combines_single {node : Nat} (hlength : (value node).length = count) :
    Combines op count value [node] (value node) :=
  ⟨hlength, fun _ _ => total_single op _⟩

theorem Combines.combine (ha : Combines op count value nodes a)
    (hb : Combines op count value nodes' b) :
    Combines op count value (nodes ++ nodes') (op.combine a b) := by
  obtain ⟨hlengthA, htotalA⟩ := ha
  obtain ⟨hlengthB, htotalB⟩ := hb
  refine ⟨by rw [length_combine op a b (hlengthA.trans hlengthB.symm), hlengthA], ?_⟩
  intro j hj
  rw [byteAt_combine (by omega) (by omega), List.map_append]
  exact (htotalA j hj).apply (htotalB j hj)

theorem Combines.perm (h : Combines op count value nodes a) (hperm : nodes.Perm nodes') :
    Combines op count value nodes' a :=
  ⟨h.1, fun j hj => (h.2 j hj).perm (hperm.map _)⟩

end Combines

section Result

variable {n root count : Nat} {sendData : Nat → List UInt8} {op : Op}

/-- What the root computes takes in all ranks. -/
private theorem partialResult_combines (hroot : root < n)
    (hlength : ∀ r, r < n → (sendData r).length = count) :
    Combines op count sendData (List.range n) (partialResult n sendData op root root) := by
  have hnodes : Combines op count (fun node => sendData (rankAt n root node)) (heapNodes n 0)
      (heapFold n op.combine (fun node => sendData (rankAt n root node)) 0) :=
    heapFold_nodes (fun node _ => combines_single (hlength _ (rankAt_lt (by omega))))
      (fun _ _ _ _ => Combines.combine) 0 (by omega)
  have hranks : Combines op count sendData ((heapNodes n 0).map (rankAt n root))
      (heapFold n op.combine (fun node => sendData (rankAt n root node)) 0) := by
    refine ⟨hnodes.1, fun j hj => ?_⟩
    rw [List.map_map]
    exact hnodes.2 j hj
  have hzero : relativeRank n root root = 0 := (relativeRank_eq_zero hroot hroot).mpr rfl
  rw [partialResult, hzero]
  exact hranks.perm (((heapNodes_perm n).map (rankAt n root)).trans (map_rankAt_perm hroot))

end Result

/-- In every run of reductions without deadlock detection, the root of each gets
the operation over the data of all ranks. -/
theorem reduce_combines (n : Nat) (schedule : List Round)
    (hwell : ∀ round ∈ schedule, round.WellFormed n)
    (hreduce : ∀ round ∈ schedule, ∃ sendData recvData scratch op root,
      round = .reduce sendData recvData scratch op root)
    (actions : List Action) (w : World)
    (h : run (collectiveStep ⟨n, false⟩ schedule) .init actions = some w)
    (k root : Nat) (sendData recvData scratch : Nat → List UInt8) (op : Op)
    (hround : schedule[k]? = some (.reduce sendData recvData scratch op root))
    (result : List UInt8)
    (hreturned : (w.ranks root).results[k]? = some (.success, result)) :
    result.length = (sendData root).length ∧
      ∀ j, j < (sendData root).length →
        op.Total ((List.range n).map fun r => (byteAt j (sendData r)).toNat)
          (byteAt j result).toNat := by
  have hnone : .barrier ∉ schedule := by
    intro hbarrier
    obtain ⟨_, _, _, _, _, heq⟩ := hreduce _ hbarrier
    cases heq
  have hinv : ∃ events, OnSchedule n schedule w events := by
    refine run_invariant (I := fun w => ∃ events, OnSchedule n schedule w events) ?_
      ⟨_, onSchedule_init hwell⟩ h
    rintro w a w' ⟨events, hw⟩ hstep
    refine onSchedule_step hwell ⟨events, hw⟩ ?_ hstep
    cases a with
    | step r =>
        intro receive _ _
        exact Bool.eq_false_iff.mpr fun hflag => hnone (hw.barriers receive.1 r hflag)
    | call rank c => trivial
    | deliver source destination => trivial
  obtain ⟨events, hschedule⟩ := hinv
  obtain ⟨hroot, hlength⟩ := hwell _ (List.mem_of_getElem? hround)
  have hanswer := (hschedule.ranks root hroot).results k _ hreturned _ hround
  obtain ⟨-, rfl⟩ := Prod.mk.inj hanswer
  rw [if_pos rfl]
  exact partialResult_combines hroot hlength

/-- Two ranks add a byte each, with the result at rank 1. -/
def addBytes : List Round :=
  [.reduce (fun rank => if rank = 1 then [200] else [100]) (fun _ => [5]) (fun _ => [5]) .sum 1]

private theorem addBytes_wellFormed : ∀ round ∈ addBytes, round.WellFormed 2 := by
  intro round hround
  rw [List.mem_singleton.mp hround]
  refine ⟨by decide, fun r _ => ?_⟩
  dsimp only
  split_ifs <;> rfl

def addBytesRun : List Action :=
  [.call 0 (.reduce [100] [5] [5] .sum 1), .step 0, .step 0, .deliver 0 1,
    .call 1 (.reduce [200] [5] [5] .sum 1), .step 1, .step 1, .step 1]

theorem reduce_combines_two :
    ∃ w result, run (collectiveStep ⟨2, false⟩ addBytes) .init addBytesRun = some w ∧
      (w.ranks 1).results[0]? = some (.success, result) ∧
        (byteAt 0 result).toNat = (100 + 200) % 256 :=
  ⟨_, _, rfl, rfl, (reduce_combines 2 addBytes addBytes_wellFormed
    (fun _ h => ⟨_, _, _, _, _, List.mem_singleton.mp h⟩) addBytesRun _ rfl 0 1 _ _ _ _ rfl _
    rfl).2 0 (by decide)⟩

end Mimuw.Mimpi
