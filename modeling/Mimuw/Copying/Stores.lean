import Mimuw.Copying.Squeezed

/-!
# Where the copying program stores

Each store is eight bytes wide, although one or two of them count.  `buffer2` has room
for all bytes that count, but not always for the last store of a block.
-/

namespace Mimuw.Copying

open Lib Lib.ByteMemory

/-- Every quadword lies within `buffer2` as a whole. -/
def StoresInside (K : Platform) : Prop :=
  ∀ s, Reaches K (initial K) s → ∀ p, storeAt s = some p → p + 8 ≤ buffer2Size

def endsInRun (bytes : List UInt8) : Bool := bytes.getLast?.any fun b => !isS b

/-- How many letters directly follow another byte; the flag is about the byte before. -/
def runsEnded : Bool → List UInt8 → Nat
  | _, [] => 0
  | inRun, b :: rest => (if isS b && inRun then 1 else 0) + runsEnded (!isS b) rest

section Stores

variable {K : Platform} {s t : State} {place n : Nat} {bytes : List UInt8} {blocks : List Block}

/-- A step changes the memory in the quadword of `storeAt` only, or it reads a block. -/
private theorem mem_of_step (h : step K s = some t) :
    (∃ p v, storeAt s = some p ∧ t.mem = s.mem.store (K.buffer2 + BitVec.ofNat 64 p) v) ∨
      storeAt s = none ∧ (t.mem = s.mem ∨
        ∃ block : Block, t.mem = s.mem.fill K.buffer1 block.bytes) := by
  unfold step at h
  cases hlabel : s.label with
  | readLoop =>
      right
      simp only [hlabel] at h
      refine ⟨by simp [storeAt, hlabel], ?_⟩
      cases hreads : s.reads with
      | nil =>
          simp only [hreads, Option.some.injEq] at h
          exact .inl (by rw [← h])
      | cons read rest =>
          cases read with
          | none =>
              simp only [hreads, Option.some.injEq] at h
              exact .inl (by rw [← h])
          | some block =>
              simp only [hreads, Option.some.injEq] at h
              exact .inr ⟨block, by rw [← h]⟩
  | readDone =>
      left
      simp only [hlabel, Option.some.injEq] at h
      exact ⟨0, s.r12, by simp [storeAt, hlabel], by simp [← h]⟩
  | backWriteSSToBuffer =>
      left
      simp only [hlabel, Option.some.injEq] at h
      exact ⟨s.r14.toNat, s.mem.load (K.buffer1 + s.r10), by simp [storeAt, hlabel], by simp [← h]⟩
  | writeNotSSToBuffer =>
      left
      simp only [hlabel, Option.some.injEq] at h
      exact ⟨s.r14.toNat, s.r12, by simp [storeAt, hlabel], by simp [← h]⟩
  | writeToFile =>
      right
      simp only [hlabel] at h
      refine ⟨by simp [storeAt, hlabel], .inl ?_⟩
      split at h <;> simp [← Option.some.inj h]
  | start =>
      right
      simp only [hlabel, Option.some.injEq] at h
      refine ⟨by simp [storeAt, hlabel], .inl ?_⟩
      rw [← h]
      split_ifs <;> rfl
  | backReadDone =>
      right
      simp only [hlabel, Option.some.injEq] at h
      refine ⟨by simp [storeAt, hlabel], .inl ?_⟩
      rw [← h]
      split_ifs <;> rfl
  | bufferLoop =>
      right
      simp only [hlabel, Option.some.injEq] at h
      refine ⟨by simp [storeAt, hlabel], .inl ?_⟩
      rw [← h]
      split_ifs <;> rfl
  | exit rdi => simp [hlabel] at h
  | bufferLoopBack | writeSSToBuffer | errorCloseFile1 | errorCloseFile2 | errorCloseFile12
    | exitCode1 =>
      right
      simp only [hlabel, Option.some.injEq] at h
      exact ⟨by simp [storeAt, hlabel], .inl (by rw [← h])⟩

private theorem storesInside_iff_places (bss : Word64) {input : File} (reading : Reading input) :
    StoresInside (platform bss reading) ↔
      ∀ p ∈ allPlaces 0 reading.blocks, p + 8 ≤ buffer2Size := by
  obtain ⟨t, hrun, hlabel, -⟩ := platform_run bss input reading
  have hmem (p : Nat) := hrun.mem_iff (b := p) (by rw [step, hlabel]) (by simp [storeAt, hlabel])
  constructor
  · intro h p hp
    obtain ⟨s, hs, hstore⟩ := (hmem p).mpr hp
    exact h s hs p hstore
  · exact fun h s hs p hstore => h p ((hmem p).mp ⟨s, hs, hstore⟩)

/-! ## The places of a block -/

private theorem runsEnded_of_no_letters (inRun : Bool) (h : bytes.countP isS = 0) :
    runsEnded inRun bytes = 0 := by
  induction bytes generalizing inRun with
  | nil => rfl
  | cons b rest ih =>
      have hb : isS b = false := by simpa using List.countP_eq_zero.mp h b List.mem_cons_self
      rw [List.countP_cons_of_neg (by simp [hb])] at h
      simp [runsEnded, hb, ih _ h]

/-- The last store is that of a letter, at the last of the bytes that count. -/
private theorem places_inside_iff {size : Nat} :
    (∀ p ∈ places place n bytes, p + 8 ≤ size) ↔ bytes.countP isS = 0 ∨
      place + bytes.countP isS + 2 * runsEnded (n ≠ 0) bytes + 7 ≤ size := by
  induction bytes generalizing place n with
  | nil => simp [places]
  | cons b rest ih =>
      cases hb : isS b with
      | false =>
          rw [places, if_neg (by simp [hb]), ih, List.countP_cons_of_neg (by simp [hb])]
          simp [runsEnded, hb]
      | true =>
          have hnone : rest.countP isS = 0 → runsEnded false rest = 0 :=
            runsEnded_of_no_letters false
          have hrest : runsEnded (decide ((0 : Nat) ≠ 0)) rest = runsEnded false rest := rfl
          rw [places, if_pos hb, List.countP_cons_of_pos hb, runsEnded, hb, Bool.true_and]
          by_cases hn : n = 0
          · rw [if_pos hn, List.forall_mem_cons, ih, hrest, hn]
            simp only [ne_eq, not_true_eq_false, decide_false, Bool.false_eq_true, if_false,
              Bool.not_true]
            omega
          · rw [if_neg hn, List.forall_mem_cons, List.forall_mem_cons, ih, hrest]
            simp only [ne_eq, hn, not_false_eq_true, decide_true, if_true, Bool.not_true]
            omega

private theorem runAfter_append (n : Nat) (bytes more : List UInt8) :
    runAfter n (bytes ++ more) = runAfter (runAfter n bytes) more := by
  induction bytes generalizing n with
  | nil => rfl
  | cons b bytes ih =>
      rw [List.cons_append, runAfter, runAfter]
      split_ifs <;> exact ih _

private theorem runAfter_ne_zero (bytes : List UInt8) :
    decide (runAfter 0 bytes ≠ 0) = endsInRun bytes := by
  induction bytes using List.reverseRecOn with
  | nil => rfl
  | append_singleton bytes b _ =>
      cases hb : isS b <;> simp [runAfter_append, runAfter, endsInRun, hb]

private theorem allPlaces_inside_iff {P : Nat → Prop} (hzero : P 0) :
    (∀ p ∈ allPlaces n blocks, P p) ↔ ∀ before block later, blocks = before ++ block :: later →
      ∀ p ∈ places 0 (runAfter n (before.flatMap Block.bytes)) block.bytes, P p := by
  induction blocks generalizing n with
  | nil => simp [allPlaces, hzero]
  | cons first blocks ih =>
      rw [allPlaces, List.forall_mem_append, ih]
      constructor
      · rintro ⟨hfirst, hrest⟩ before block later heq
        cases before with
        | nil =>
            obtain ⟨rfl, rfl⟩ := List.cons.inj heq
            exact hfirst
        | cons block' before =>
            obtain ⟨rfl, rfl⟩ := List.cons.inj heq
            rw [List.flatMap_cons, runAfter_append]
            exact hrest before block later rfl
      · intro h
        refine ⟨h [] first blocks rfl, fun before block later heq => ?_⟩
        have hlater := h (first :: before) block later (by rw [heq, List.cons_append])
        rwa [List.flatMap_cons, runAfter_append] at hlater

end Stores

/-- Every store is within `buffer2` exactly when no block has more than 1531 bytes that
count: one for a letter, and two for a run that the letter ends. -/
theorem storesInside_iff (bss : Word64) (input : File) (reading : Reading input) :
    StoresInside (platform bss reading) ↔
      ∀ before block later, reading.blocks = before ++ block :: later →
        block.bytes.countP isS +
          2 * runsEnded (endsInRun (before.flatMap Block.bytes)) block.bytes ≤ 1531 := by
  rw [storesInside_iff_places, allPlaces_inside_iff (by decide)]
  refine forall₄_congr fun before block later heq => ?_
  have hnone : block.bytes.countP isS = 0 →
      runsEnded (endsInRun (before.flatMap Block.bytes)) block.bytes = 0 :=
    runsEnded_of_no_letters _
  rw [places_inside_iff, runAfter_ne_zero, Nat.zero_add, buffer2Size]
  omega

theorem mem_outside {K : Platform} {s : State} {x : Word64} (hinside : StoresInside K)
    (hrun : Reaches K (initial K) s) (hx : bufferSize + buffer2Size ≤ (x - K.bss).toNat) :
    s.mem x = (initial K).mem x := by
  rw [bufferSize, buffer2Size] at hx
  induction hrun with
  | refl => rfl
  | @tail t u hbefore hstep ih =>
      rw [← ih]
      rcases mem_of_step hstep with ⟨p, v, hp, hmem⟩ | ⟨-, hmem | ⟨block, hmem⟩⟩
      · have hfits : p + 8 ≤ 1538 := hinside t hbefore p hp
        have hfar : ¬ (x - (K.buffer2 + BitVec.ofNat 64 p)).toNat < 8 := by
          rw [Platform.buffer2]
          bv_omega
        rw [hmem, store, if_neg hfar]
      · rw [hmem]
      · have hfits : block.bytes.length ≤ 1024 := block.fits
        have hpast : block.bytes[(x - K.buffer1).toNat]? = none := by
          rw [Platform.buffer1, List.getElem?_eq_none_iff]
          omega
        rw [hmem, fill, List.getD_eq_getElem?_getD, hpast, Option.getD_none]

/-! ## A block with too many runs -/

def otherBytes : List UInt8 := List.replicate 1024 97

def manyRuns : List UInt8 := sLower :: (List.replicate 511 [97, sLower]).flatten ++ [sLower]

def overrunFile : File := ⟨otherBytes ++ manyRuns, by decide +kernel⟩

def overrunReading : Reading overrunFile :=
  ⟨[⟨otherBytes, by decide +kernel, by decide +kernel⟩,
    ⟨manyRuns, by decide +kernel, by decide +kernel⟩], by decide +kernel⟩

/-- The last letter is stored at 1536. -/
theorem stores_overrun :
    ¬ ∀ bss (input : File) (reading : Reading input), StoresInside (platform bss reading) := by
  intro h
  have hinside := (storesInside_iff_places 0 overrunReading).mp (h 0 overrunFile overrunReading)
  have hplace : 1536 ∈ allPlaces 0 overrunReading.blocks := by decide +kernel
  exact absurd (hinside 1536 hplace) (by decide)

end Mimuw.Copying
