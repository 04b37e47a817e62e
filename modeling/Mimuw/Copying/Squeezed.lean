import Mathlib.Data.List.SplitBy
import Mimuw.Copying.Machine

/-!
# What the copy holds

The copied file keeps every `s` and `S` and has, for each maximal run of other
bytes, its length modulo `65536` in two bytes. A run may begin in one block of
the input and go on in the next ones: its length stays in `r12`, and what is
already in the output file, with what counts in `buffer2` and what the rest of
the input adds to that run, is the same at every label. The run is followed
together with the places of its stores.
-/

namespace Mimuw.Copying

open Lib Lib.ByteMemory

/-! ## The copied file -/

def isS (b : UInt8) : Bool := b == sLower || b == sUpper

/-- The length of a run, modulo `65536`, as two bytes, the low one first. -/
def twoBytes (n : Nat) : List UInt8 :=
  [UInt8.ofNat (n % 65536), UInt8.ofNat (n % 65536 / 256)]

def squeezedPiece (piece : List UInt8) : List UInt8 :=
  if piece.any isS then piece else twoBytes piece.length

/-- The letters stand alone, the other bytes in their maximal runs. -/
def squeezed (bytes : List UInt8) : List UInt8 :=
  (bytes.splitBy fun a b => !isS a && !isS b).flatMap squeezedPiece

def flushed (n : Nat) : List UInt8 := if n = 0 then [] else twoBytes n

/-- What is still to be written after a run that has `n` bytes so far. -/
def remaining : Nat → List UInt8 → List UInt8
  | n, [] => flushed n
  | n, b :: rest => if isS b then flushed n ++ b :: remaining 0 rest else remaining (n + 1) rest

@[simp] theorem flushed_zero : flushed 0 = [] := rfl

theorem squeezed_run {run : List UInt8} (h : ∀ b ∈ run, isS b = false) :
    (run.splitBy fun a b => !isS a && !isS b).flatMap squeezedPiece = flushed run.length := by
  cases run with
  | nil => rfl
  | cons a run =>
      have hchain : (a :: run).IsChain fun a b => (!isS a && !isS b) = true := by
        refine List.Pairwise.isChain (List.Pairwise.imp_of_mem ?_ (List.pairwise_of_forall
          (fun _ _ => trivial)))
        intro x y hx hy _
        simp [h x hx, h y hy]
      have hany : (a :: run).any isS = false := by
        simpa using h
      rw [List.splitBy_of_isChain (by simp) hchain]
      simp only [List.flatMap_cons, List.flatMap_nil, List.append_nil, squeezedPiece, hany]
      simp [flushed]

private theorem squeezed_letter {run rest : List UInt8} {b : UInt8} (h : ∀ b ∈ run, isS b = false)
    (hb : isS b = true) :
    squeezed (run ++ b :: rest) = flushed run.length ++ b :: squeezed rest := by
  have hrest : (b :: rest).splitBy (fun a b => !isS a && !isS b) =
      [b] :: rest.splitBy fun a b => !isS a && !isS b := by
    rw [← List.singleton_append, List.splitBy_append (by simp [hb])]
    rfl
  rw [squeezed, List.splitBy_append_cons rest (by simp [hb]), List.flatMap_append,
    squeezed_run h, hrest]
  simp [squeezed, squeezedPiece, hb]

private theorem squeezed_append (run rest : List UInt8) (h : ∀ b ∈ run, isS b = false) :
    squeezed (run ++ rest) = remaining run.length rest := by
  induction rest generalizing run with
  | nil =>
      rw [List.append_nil]
      exact squeezed_run h
  | cons b rest ih =>
      rw [remaining]
      by_cases hb : isS b
      · have hnil : squeezed rest = remaining 0 rest := ih [] (by simp)
        rw [if_pos hb, squeezed_letter h hb, hnil]
      · have hrun : ∀ c ∈ run ++ [b], isS c = false := by
          intro c hc
          rcases List.mem_append.1 hc with hc | hc
          · exact h c hc
          · rw [List.mem_singleton.1 hc]
            simpa using hb
        rw [if_neg hb, List.append_cons, ih _ hrun]
        simp

private theorem squeezed_eq (bytes : List UInt8) : squeezed bytes = remaining 0 bytes :=
  squeezed_append [] bytes (by simp)

example : squeezed [97, 98, 115, 83, 97] = [2, 0, 115, 83, 1, 0] := by decide

/-! ## The stores -/

/-- Where quadwords are stored for these bytes, when the first free byte is `place` and the
run has `n` bytes so far. -/
def places : Nat → Nat → List UInt8 → List Nat
  | _, _, [] => []
  | place, n, b :: rest =>
      if isS b then
        if n = 0 then place :: places (place + 1) 0 rest
        else place :: (place + 2) :: places (place + 3) 0 rest
      else places place (n + 1) rest

def runAfter : Nat → List UInt8 → Nat
  | n, [] => n
  | n, b :: rest => if isS b then runAfter 0 rest else runAfter (n + 1) rest

/-- The last store is made at the end of the file, whether it is written or not. -/
def allPlaces : Nat → List Block → List Nat
  | _, [] => [0]
  | n, block :: later => places 0 n block.bytes ++ allPlaces (runAfter n block.bytes) later

/-! ## One byte of a block -/

section Steps

abbrev Stores (K : Platform) : State → List Nat → State → Prop := Shows (step K) storeAt

variable {K : Platform} {s t : State} {result rest : List UInt8} {later : List Block} {b : UInt8}

/-- `rest` of a block is still to be looked at, `later` blocks are to be read, and with what is
missing the output file will be `result`. -/
structure Inside (K : Platform) (result : List UInt8) (s : State) (rest : List UInt8)
    (later : List Block) : Prop where
  reads : s.reads = later.map some
  r13 : s.r13 = 0
  unread : s.mem.bytesAt (K.buffer1 + s.r10) rest.length = rest
  place : s.r10.toNat + rest.length = s.rbx.toNat
  size : s.rbx.toNat ≤ bufferSize
  count : s.r12.toNat + (rest ++ later.flatMap Block.bytes).length < 2 ^ 64
  result : s.file2 ++ s.mem.bytesAt K.buffer2 s.r14.toNat ++
    remaining s.r12.toNat (rest ++ later.flatMap Block.bytes) = result

/-- A letter takes a byte of `buffer2`, and two more when it ends a run. -/
def Room (s : State) : Prop :=
  2 * s.r14.toNat + (if s.r12 = 0 then 0 else 3) ≤ 3 * s.r10.toNat + 3

private theorem lowBytes_two (v : Word64) : lowBytes 2 v = twoBytes v.toNat := by
  have hlow : byteOf v 0 = UInt8.ofNat (v.toNat % 65536) := by
    apply UInt8.toNat_inj.1
    simp [byteOf, BitVec.extractLsb'_toNat]
  have hhigh : byteOf v 1 = UInt8.ofNat (v.toNat % 65536 / 256) := by
    apply UInt8.toNat_inj.1
    simp [byteOf, BitVec.extractLsb'_toNat, Nat.shiftRight_eq_div_pow]
    omega
  simp [lowBytes, List.range_succ, twoBytes, hlow, hhigh]

namespace Inside

theorem here (h : Inside K result s (b :: rest) later) : s.mem (K.buffer1 + s.r10) = b := by
  have := h.unread
  rw [List.length_cons, bytesAt_succ] at this
  exact (List.cons.inj this).1

theorem ahead (h : Inside K result s (b :: rest) later) :
    s.mem.bytesAt (K.buffer1 + (s.r10 + 1)) rest.length = rest := by
  have := h.unread
  rw [List.length_cons, bytesAt_succ] at this
  rw [← BitVec.add_assoc]
  exact (List.cons.inj this).2

private theorem r12_succ (h : Inside K result s (b :: rest) later) :
    (s.r12 + 1).toNat = s.r12.toNat + 1 := by
  have hcount := h.count
  rw [List.cons_append, List.length_cons] at hcount
  bv_omega

private theorem in_block (h : Inside K result s (b :: rest) later) :
    s.r10.toNat + 1 + rest.length = s.rbx.toNat ∧ (s.r10 + 1).toNat = s.r10.toNat + 1 := by
  have hplace := h.place
  rw [List.length_cons] at hplace
  refine ⟨by omega, by bv_omega⟩

theorem other (h : Inside K result s (b :: rest) later) (hb : isS b = false) :
    Inside K result { s with label := .bufferLoop, r10 := s.r10 + 1, r12 := s.r12 + 1 } rest
      later := by
  have hcount := h.count
  rw [List.cons_append, List.length_cons] at hcount
  have hr12 := h.r12_succ
  obtain ⟨hplace, hr10⟩ := h.in_block
  have hresult := h.result
  rw [List.cons_append, remaining, hb] at hresult
  refine ⟨h.reads, h.r13, h.ahead, ?_, h.size, ?_, ?_⟩
  · simp only [hr10]
    omega
  · simp only [hr12]
    omega
  · simp only [hr12]
    simpa using hresult

private theorem unread_store (h : Inside K result s rest later) (hroom : s.r14.toNat ≤ 2048)
    (v : Word64) :
    bytesAt (s.mem.store (K.buffer2 + s.r14) v) (K.buffer1 + s.r10) rest.length = rest := by
  have hplace := h.place
  have hsize := h.size
  rw [bytesAt_store_of_far, h.unread]
  intro i hi
  simp only [Platform.buffer1, Platform.buffer2, bufferSize] at *
  bv_omega

private theorem flush (h : Inside K result s (b :: rest) later) (hb : isS b = true)
    (hr12 : s.r12 ≠ 0) (hroom : s.r14.toNat ≤ 2048) :
    Inside K result
      { s with
        label := .backWriteSSToBuffer
        mem := s.mem.store (K.buffer2 + s.r14) s.r12
        r12 := 0
        r14 := s.r14 + 2 } (b :: rest) later := by
  have hcount := h.count
  have hresult := h.result
  have hne : s.r12.toNat ≠ 0 := by bv_omega
  have hzero : (0 : Word64).toNat = 0 := rfl
  have hr14 : (s.r14 + 2).toNat = s.r14.toNat + 2 := by bv_omega
  refine ⟨h.reads, h.r13, h.unread_store hroom _, h.place, h.size, ?_, ?_⟩
  · simp only [hzero]
    omega
  · rw [List.cons_append, remaining, hb, flushed, if_neg hne] at hresult
    simp only [hr14, hzero]
    rw [bytesAt_store_end (by omega) (by omega), lowBytes_two, List.cons_append, remaining, hb]
    simpa using hresult

/-- The letter goes to `buffer2`; it is the low byte of the eight that are moved. -/
theorem letter (h : Inside K result s (b :: rest) later) (hb : isS b = true)
    (hr12 : s.r12 = 0) (hroom : s.r14.toNat ≤ 2048) :
    Inside K result
      { s with
        label := .bufferLoop
        r10 := s.r10 + 1
        mem := s.mem.store (K.buffer2 + s.r14) (s.mem.load (K.buffer1 + s.r10))
        r14 := s.r14 + 1 } rest later := by
  have hcount := h.count
  have hresult := h.result
  obtain ⟨hplace, hr10⟩ := h.in_block
  have hr14 : (s.r14 + 1).toNat = s.r14.toNat + 1 := by bv_omega
  have hunread := h.unread_store hroom (s.mem.load (K.buffer1 + s.r10))
  rw [List.length_cons, bytesAt_succ] at hunread
  have hlow : lowBytes 1 (s.mem.load (K.buffer1 + s.r10)) = [b] := by
    simp [lowBytes, load_low, h.here]
  refine ⟨h.reads, h.r13, ?_, ?_, h.size, ?_, ?_⟩
  · simp only [← BitVec.add_assoc]
    exact (List.cons.inj hunread).2
  · simp only [hr10]
    omega
  · rw [List.cons_append, List.length_cons] at hcount
    simp only [hr12] at hcount ⊢
    omega
  · rw [hr12, List.cons_append, remaining, hb] at hresult
    simp only [hr14, hr12]
    rw [bytesAt_store_end (by omega) (by omega), hlow]
    simpa using hresult

end Inside

private theorem stores_none (h : step K s = some t) (hs : storeAt s = none) : Stores K s [] t := by
  have hone : Stores K s (storeAt s).toList t := .single h
  rwa [hs] at hone

private theorem stores_one {p : Nat} (h : step K s = some t) (hs : storeAt s = some p) :
    Stores K s [p] t := by
  have hone : Stores K s (storeAt s).toList t := .single h
  rwa [hs] at hone

private theorem isS_iff : isS b = true ↔ b = sLower ∨ b = sUpper := by
  simp [isS]

private theorem step_other (hlabel : s.label = .bufferLoop) (hne : s.r10 ≠ s.rbx)
    (hb : isS (s.mem (K.buffer1 + s.r10)) = false) :
    Stores K s [] { s with label := .bufferLoop, r10 := s.r10 + 1, r12 := s.r12 + 1 } := by
  have hbyte := mt isS_iff.2 (Bool.eq_false_iff.1 hb)
  rw [not_or] at hbyte
  have h1 : step K s = some { s with label := .bufferLoopBack, r12 := s.r12 + 1 } := by
    simp [step, hlabel, hne, hbyte]
  exact (stores_none h1 (by simp [storeAt, hlabel])).trans (stores_none rfl rfl)

private theorem step_letter (hlabel : s.label = .bufferLoop) (hne : s.r10 ≠ s.rbx)
    (hb : isS (s.mem (K.buffer1 + s.r10)) = true) :
    Stores K s [] { s with label := .writeSSToBuffer } := by
  refine stores_none ?_ (by simp [storeAt, hlabel])
  rcases isS_iff.1 hb with hbyte | hbyte <;> simp [step, hlabel, hne, hbyte, sLower, sUpper]

private theorem step_put (hlabel : s.label = .backWriteSSToBuffer) :
    Stores K s [s.r14.toNat]
      { s with
        label := .bufferLoop
        r10 := s.r10 + 1
        mem := s.mem.store (K.buffer2 + s.r14) (s.mem.load (K.buffer1 + s.r10))
        r14 := s.r14 + 1 } := by
  have h1 : step K s = some
      { s with
        label := .bufferLoopBack
        mem := s.mem.store (K.buffer2 + s.r14) (s.mem.load (K.buffer1 + s.r10))
        r14 := s.r14 + 1 } := by
    simp [step, hlabel]
  exact (stores_one h1 (by simp [storeAt, hlabel])).trans (stores_none rfl rfl)

/-- What the state holds after the first byte that is still to be looked at. -/
structure Past (K : Platform) (result : List UInt8) (s : State) (b : UInt8) (rest : List UInt8)
    (later : List Block) (ps : List Nat) (t : State) : Prop where
  stores : Stores K s ps t
  label : t.label = .bufferLoop
  room : Room t
  inside : Inside K result t rest later
  places : places s.r14.toNat s.r12.toNat (b :: rest) =
    ps ++ Copying.places t.r14.toNat t.r12.toNat rest
  run : runAfter s.r12.toNat (b :: rest) = runAfter t.r12.toNat rest

/-- Reading a byte of the block, up to the next one. -/
private theorem byte_run (h : Inside K result s (b :: rest) later) (hlabel : s.label = .bufferLoop)
    (hroom : Room s) : ∃ ps t, Past K result s b rest later ps t := by
  obtain ⟨hplace, hr10⟩ := h.in_block
  have hne : s.r10 ≠ s.rbx := by bv_omega
  have hsize := h.size
  rw [bufferSize] at hsize
  rw [Room] at hroom
  cases hb : isS b with
  | false =>
      refine ⟨[], _, step_other hlabel hne (by rw [h.here, hb]), rfl, ?_, h.other hb, ?_, ?_⟩
      · simp only [Room, hr10]
        split at hroom <;> split <;> omega
      · simp only [places, hb, Bool.false_eq_true, if_false, h.r12_succ, List.nil_append]
      · simp only [runAfter, hb, Bool.false_eq_true, if_false, h.r12_succ]
  | true =>
      have hwrite := step_letter hlabel hne (by rw [h.here, hb])
      by_cases hr12 : s.r12 = 0
      · -- no run ends here
        rw [if_pos hr12] at hroom
        have hback : step K { s with label := .writeSSToBuffer } =
            some { s with label := .backWriteSSToBuffer } := by
          simp [step, hr12]
        have hr14 : (s.r14 + 1).toNat = s.r14.toNat + 1 := by bv_omega
        refine ⟨_, _, hwrite.trans ((stores_none hback rfl).trans (step_put rfl)), rfl, ?_,
          h.letter hb hr12 (by omega), ?_, ?_⟩
        · simp only [Room, hr10, hr14, if_pos hr12]
          omega
        · rw [hr14, places, if_pos hb, hr12]
          rfl
        · simp [runAfter, hb, hr12]
      · -- the run is flushed before the letter
        rw [if_neg hr12] at hroom
        have hnot : step K { s with label := .writeSSToBuffer } =
            some { s with label := .writeNotSSToBuffer } := by
          simp only [step, ne_eq, hr12, not_false_eq_true, if_true]
        have hne : s.r12.toNat ≠ 0 := by bv_omega
        have hflush := h.flush hb hr12 (by omega)
        have hr14 : (s.r14 + 2).toNat = s.r14.toNat + 2 := by bv_omega
        have hr14' : (s.r14 + 2 + 1).toNat = s.r14.toNat + 3 := by bv_omega
        refine ⟨_, _, hwrite.trans ((stores_none hnot rfl).trans
          ((stores_one rfl rfl).trans (step_put rfl))), rfl, ?_,
          hflush.letter hb rfl (by simp only [hr14]; omega), ?_, ?_⟩
        · simp only [Room, hr10, hr14', if_pos]
          omega
        · rw [hr14, hr14', places, if_pos hb, if_neg hne]
          rfl
        · simp [runAfter, hb]

private theorem block_run (h : Inside K result s rest later) (hlabel : s.label = .bufferLoop)
    (hroom : Room s) :
    ∃ t, Stores K s (places s.r14.toNat s.r12.toNat rest) t ∧ t.label = .writeToFile ∧
      Inside K result t [] later ∧ t.r12.toNat = runAfter s.r12.toNat rest := by
  induction rest generalizing s with
  | nil =>
      have hend : s.r10 = s.rbx := by
        have := h.place
        rw [List.length_nil] at this
        bv_omega
      have hstep : step K s = some { s with label := .writeToFile } := by
        simp [step, hlabel, hend]
      exact ⟨_, stores_none hstep (by simp [storeAt, hlabel]), rfl,
        ⟨h.reads, h.r13, rfl, h.place, h.size, h.count, h.result⟩, rfl⟩
  | cons b rest ih =>
      obtain ⟨ps, t, hpast⟩ := byte_run h hlabel hroom
      obtain ⟨u, htu, hu, hinside, hrun⟩ := ih hpast.inside hpast.label hpast.room
      refine ⟨u, ?_, hu, hinside, hrun.trans hpast.run.symm⟩
      rw [hpast.places]
      exact hpast.stores.trans htu

/-! ## Every block, and the end of the file -/

/-- Between two blocks: `buffer2` is empty, and the run of `r12` bytes goes on. -/
structure Between (result : List UInt8) (s : State) (later : List Block) : Prop where
  label : s.label = .readLoop
  reads : s.reads = later.map some
  r13 : s.r13 = 0
  r14 : s.r14 = 0
  count : s.r12.toNat + (later.flatMap Block.bytes).length < 2 ^ 64
  result : s.file2 ++ remaining s.r12.toNat (later.flatMap Block.bytes) = result

variable {block : Block}

/-- `read` puts the next block into `buffer1`. -/
theorem Between.read (h : Between result s (block :: later)) :
    ∃ t, Stores K s [] t ∧ t.label = .bufferLoop ∧ Room t ∧
      Inside K result t block.bytes later ∧ t.r14 = 0 ∧ t.r12 = s.r12 := by
  have hfits := block.fits
  rw [bufferSize] at hfits
  have hlength : (BitVec.ofNat 64 block.bytes.length).toNat = block.bytes.length := by
    simp only [BitVec.toNat_ofNat]
    omega
  have hstep : step K s = some
      { s with
        label := .bufferLoop
        r10 := 0
        rbx := BitVec.ofNat 64 block.bytes.length
        mem := s.mem.fill K.buffer1 block.bytes
        reads := later.map some } := by
    simp [step, h.label, h.reads]
  refine ⟨_, stores_none hstep (by simp [storeAt, h.label]), rfl, ?_,
    ⟨rfl, h.r13, ?_, ?_, ?_, ?_, ?_⟩, h.r14, rfl⟩
  · simp only [Room, h.r14]
    split <;> simp
  · have hfits : block.bytes.length ≤ 2 ^ 64 := by omega
    have hread := bytesAt_fill (m := s.mem) (a := K.buffer1 + 0) hfits
    rwa [show K.buffer1 + 0 = K.buffer1 from BitVec.add_zero _] at hread ⊢
  · simp [hlength]
  · simp only [hlength]
    exact block.fits
  · simpa using h.count
  · simpa [h.r14] using h.result

/-- `write` takes what counts in `buffer2`, and the next block is read. -/
theorem Inside.write (h : Inside K result s [] later) (hlabel : s.label = .writeToFile)
    (hwrites : ∀ i n, K.writes i n = some n) :
    ∃ t, Stores K s [] t ∧ Between result t later ∧ t.r12 = s.r12 := by
  have hstep : step K s = some
      { s with
        label := .readLoop
        r14 := 0
        writes := s.writes + 1
        file2 := s.file2 ++ s.mem.bytesAt K.buffer2 s.r14.toNat } := by
    simp [step, hlabel, hwrites, h.r13]
  exact ⟨_, stores_none hstep (by simp [storeAt, hlabel]),
    ⟨rfl, h.reads, h.r13, rfl, h.count, h.result⟩, rfl⟩

/-- After the last block a run that has not ended is written, and both files are closed. -/
private theorem Between.finish (h : Between result s []) (hwrites : ∀ i n, K.writes i n = some n)
    (hclose1 : K.closeFile1) (hclose2 : K.closeFile2) :
    ∃ t, Stores K s [0] t ∧ t.label = .exit 0 ∧ t.file2 = result := by
  have hresult := h.result
  rw [List.flatMap_nil, remaining, flushed] at hresult
  have hclose (u : State) (hu : u.label = .backReadDone) :
      Stores K u [] { u with label := .exit 0 } := by
    refine stores_none ?_ (by simp [storeAt, hu])
    simp [step, hu, hclose1, hclose2]
  have hdone : step K s = some { s with label := .readDone, r10 := 0 } := by
    simp [step, h.label, h.reads]
  have hquiet : storeAt s = none := by simp [storeAt, h.label]
  by_cases hr12 : s.r12 = 0
  · have hnone : step K { s with label := .readDone, r10 := 0 } = some
        { s with
          label := .backReadDone
          r10 := 0
          r13 := 1
          r14 := 2
          mem := s.mem.store K.buffer2 s.r12 } := by
      simp [step, hr12]
    refine ⟨_, (stores_none hdone hquiet).trans ((stores_one hnone rfl).trans (hclose _ rfl)),
      rfl, ?_⟩
    simpa [hr12] using hresult
  · have hne : s.r12.toNat ≠ 0 := by bv_omega
    have hsome : step K { s with label := .readDone, r10 := 0 } = some
        { s with
          label := .writeToFile
          r10 := 0
          r13 := 1
          r14 := 2
          mem := s.mem.store K.buffer2 s.r12 } := by
      simp only [step, ne_eq, hr12, not_false_eq_true, if_true]
    have hwrite : step K
        { s with
          label := .writeToFile
          r10 := 0
          r13 := 1
          r14 := 2
          mem := s.mem.store K.buffer2 s.r12 } = some
        { s with
          label := .backReadDone
          r10 := 0
          r13 := 1
          r14 := 0
          mem := s.mem.store K.buffer2 s.r12
          writes := s.writes + 1
          file2 := s.file2 ++ twoBytes s.r12.toNat } := by
      simp [step, hwrites, bytesAt_store, lowBytes_two]
    refine ⟨_, (stores_none hdone hquiet).trans ((stores_one hsome rfl).trans
      ((stores_none hwrite rfl).trans (hclose _ rfl))), rfl, ?_⟩
    simpa [hne] using hresult

private theorem blocks_run (h : Between result s later) (hwrites : ∀ i n, K.writes i n = some n)
    (hclose1 : K.closeFile1) (hclose2 : K.closeFile2) :
    ∃ t, Stores K s (allPlaces s.r12.toNat later) t ∧ t.label = .exit 0 ∧ t.file2 = result := by
  induction later generalizing s with
  | nil => exact h.finish hwrites hclose1 hclose2
  | cons block later ih =>
      obtain ⟨t, hst, ht, hroom, hin, hr14, hr12⟩ := h.read (K := K)
      obtain ⟨u, htu, hu, hin', hrun⟩ := block_run hin ht hroom
      obtain ⟨v, huv, hbetween, hr12'⟩ := hin'.write hu hwrites
      obtain ⟨w, hvw, hw⟩ := ih hbetween
      rw [hr12', hrun, hr12] at hvw
      rw [hr14, hr12] at htu
      refine ⟨w, ?_, hw⟩
      rw [allPlaces]
      simpa using hst.trans (htu.trans (huv.trans hvw))

end Steps

/-! ## A whole run -/

/-- The size of a file is an `off_t`. -/
structure File where
  bytes : List UInt8
  size : bytes.length < 2 ^ 63

/-- How successive calls of `read` split a file. -/
structure Reading (input : File) where
  blocks : List Block
  whole : blocks.flatMap Block.bytes = input.bytes

/-- `scopy` is called with two files, no system call fails, and `write` writes all it is given. -/
def platform (bss : Word64) {input : File} (reading : Reading input) : Platform :=
  { bss, argc := 3, openFile1 := true, openFile2 := true, reads := reading.blocks.map some
    writes := fun _ n => some n, closeFile1 := true, closeFile2 := true }

theorem platform_run (bss : Word64) (input : File) (reading : Reading input) :
    ∃ t, Stores (platform bss reading) (initial (platform bss reading))
      (allPlaces 0 reading.blocks) t ∧ t.label = .exit 0 ∧ t.file2 = squeezed input.bytes := by
  have hstart : step (platform bss reading) (initial (platform bss reading)) =
      some { initial (platform bss reading) with label := .readLoop } := by
    simp [step, initial, platform]
  have hbetween : Between (squeezed input.bytes)
      { initial (platform bss reading) with label := .readLoop } reading.blocks := by
    refine ⟨rfl, rfl, rfl, rfl, ?_, ?_⟩
    · have hsize := input.size
      have hzero : (0 : Word64).toNat = 0 := rfl
      simp only [initial, reading.whole, hzero]
      omega
    · rw [reading.whole, squeezed_eq]
      rfl
  obtain ⟨t, hst, ht⟩ := blocks_run (K := platform bss reading) hbetween (fun _ _ => rfl) rfl rfl
  exact ⟨t, (stores_none hstart rfl).trans hst, ht⟩

/-- However the reads fall, the program ends with code `0` and the copied file. -/
theorem scopy_squeezes (bss : Word64) (input : File) (reading : Reading input) :
    ∃ t, Ends (platform bss reading) (initial (platform bss reading)) t ∧ t.label = .exit 0 ∧
      t.file2 = squeezed input.bytes := by
  obtain ⟨t, hrun, hlabel, hfile⟩ := platform_run bss input reading
  refine ⟨t, ⟨hrun.reaches, ?_⟩, hlabel, hfile⟩
  rw [step, hlabel]

end Mimuw.Copying
