import Mathlib.Algebra.Order.Group.Nat
import Mathlib.Data.List.Basic
import Mathlib.Data.Nat.ModEq

/-!
# The data of the client

`read_data_from_stdin` reads the whole standard input into a buffer that is made twice as
long whenever it is full.  The sizes of the buffer and all positions of reads are
multiples of the size of a read, so that a buffer that is not full has room for one.
-/

namespace Mimuw.Ppcb

def initialBufferSize : Nat := 4096

def readSize : Nat := 4096

/-- What the system answers: whether an allocation of that size is granted, what is in the
memory it gives, and whether a read fails, each by the number of the call. -/
structure Host where
  grants : Nat → Nat → Bool
  fresh : Nat → Nat → UInt8
  fails : Nat → Bool

/-- `malloc` and `realloc` refuse sizes above `PTRDIFF_MAX`. -/
def Host.allocates (H : Host) (k size : Nat) : Bool := size < 2 ^ 63 && H.grants k size

/-- Standard input: the bytes that are not read yet, and `feof`. -/
structure Stdin where
  rest : List UInt8
  eof : Bool

/-- The bytes that `fread` stores. -/
def Stdin.bytes (stdin : Stdin) (count : Nat) : List UInt8 := stdin.rest.take count

/-- The end of the input is seen when it is reached before all bytes are read. -/
def Stdin.fread (stdin : Stdin) (count : Nat) : Stdin :=
  ⟨stdin.rest.drop count, stdin.eof || decide (stdin.rest.length < count)⟩

/-- `current_size`, `data` and `total_read` -/
structure ReadBuffer where
  currentSize : Nat
  data : Nat → UInt8
  totalRead : Nat

def ReadBuffer.store (buffer : ReadBuffer) (bytes : List UInt8) : Nat → UInt8 := fun i =>
  if buffer.totalRead ≤ i then bytes.getD (i - buffer.totalRead) (buffer.data i)
  else buffer.data i

/-- The uses of the buffer, each with the size it has then. -/
inductive Use where
  | fread (position size : Nat)
  | terminator (index size : Nat)

inductive ReadResult where
  | syserr (message : String)
  | returned (data : Nat → UInt8) (totalRead : Nat)

/-- A full buffer is made twice as long. -/
def grow (H : Host) (k : Nat) (buffer : ReadBuffer) : Option ReadBuffer :=
  if buffer.totalRead ≥ buffer.currentSize then
    let currentSize := buffer.currentSize * 2 % 2 ^ 64
    if H.allocates k currentSize then
      some { buffer with
        currentSize
        data := fun i => if i < buffer.currentSize then buffer.data i else H.fresh k i }
    else none
  else some buffer

/-- `while (!feof(stdin))`, with the number of the turn. -/
def readLoop (H : Host) (k : Nat) (stdin : Stdin) (buffer : ReadBuffer) :
    List Use × ReadResult :=
  if stdin.eof then
    ([.terminator buffer.totalRead buffer.currentSize],
      .returned (buffer.store [0]) buffer.totalRead)
  else
    match grow H k buffer with
    | none => ([], .syserr "failed to reallocate memory")
    | some buffer =>
        let use := Use.fread buffer.totalRead buffer.currentSize
        if H.fails k then ([use], .syserr "failed reading from stdin")
        else
          let bytesRead := stdin.bytes readSize
          let (uses, result) := readLoop H (k + 1) (stdin.fread readSize)
            { buffer with
              data := buffer.store bytesRead
              totalRead := (buffer.totalRead + bytesRead.length) % 2 ^ 64 }
          (use :: uses, result)
termination_by if stdin.eof then 0 else stdin.rest.length + 1
decreasing_by
  have hgoes : stdin.eof = false := by simpa using ‹¬ stdin.eof = true›
  have hsize : 0 < readSize := by decide
  simp only [Stdin.fread, hgoes, Bool.false_or, decide_eq_true_eq, List.length_drop,
    Bool.false_eq_true, if_false]
  split <;> omega

/-- The number 0 is that of `malloc`. -/
def readDataFromStdin (H : Host) (input : List UInt8) : List Use × ReadResult :=
  if H.allocates 0 initialBufferSize then
    readLoop H 1 ⟨input, false⟩ ⟨initialBufferSize, H.fresh 0, 0⟩
  else ([], .syserr "bad alloc memory")

/-! ## The bounds -/

def Use.Within : Use → Prop
  | .fread position size => position + readSize ≤ size
  | .terminator index size => index < size

def AllWithin (uses : List Use) : Prop := ∀ use ∈ uses, use.Within

/-- At the test of the loop: as long as there is more to read, all reads were full. -/
structure Filling (input : List UInt8) (stdin : Stdin) (buffer : ReadBuffer) : Prop where
  size : readSize ∣ buffer.currentSize
  bounded : 0 < buffer.currentSize ∧ buffer.currentSize < 2 ^ 63
  position : stdin.eof = false → readSize ∣ buffer.totalRead ∧
    buffer.totalRead ≤ buffer.currentSize
  ended : stdin.eof = true → buffer.totalRead < buffer.currentSize ∧ stdin.rest = []
  whole : (List.range buffer.totalRead).map buffer.data ++ stdin.rest = input

section Filling

variable {H : Host} {k : Nat} {input : List UInt8} {stdin : Stdin} {buffer buffer' : ReadBuffer}

private theorem room_of_lt {size position : Nat} (hsize : readSize ∣ size)
    (hposition : readSize ∣ position) (hlt : position < size) : position + readSize ≤ size := by
  have hleft : readSize ∣ size - position := Nat.dvd_sub hsize hposition
  have hle := Nat.le_of_dvd (Nat.sub_pos_of_lt hlt) hleft
  omega

private theorem map_store (buffer : ReadBuffer) (bytes : List UInt8) :
    (List.range (buffer.totalRead + bytes.length)).map (buffer.store bytes) =
      (List.range buffer.totalRead).map buffer.data ++ bytes := by
  rw [List.range_add, List.map_append, List.map_map]
  congr 1
  · refine List.map_congr_left fun i hi => ?_
    rw [ReadBuffer.store, if_neg (Nat.not_le_of_lt (List.mem_range.mp hi))]
  · refine List.ext_getElem (by simp) fun i hi hi' => ?_
    simp [ReadBuffer.store, List.getD_eq_getElem?_getD, hi']

private theorem Filling.grow (h : Filling input stdin buffer) (hgoes : stdin.eof = false)
    (hgrow : grow H k buffer = some buffer') :
    buffer'.totalRead < buffer'.currentSize ∧ Filling input stdin buffer' := by
  obtain ⟨hposition, hle⟩ := h.position hgoes
  have hbounded := h.bounded
  unfold Ppcb.grow at hgrow
  split_ifs at hgrow with hfull
  · have hdouble : buffer.currentSize * 2 % 2 ^ 64 = buffer.currentSize * 2 :=
      Nat.mod_eq_of_lt (by omega)
    simp only [hdouble] at hgrow
    split_ifs at hgrow with hallocates
    obtain rfl := Option.some.inj hgrow
    rw [Host.allocates, Bool.and_eq_true, decide_eq_true_eq] at hallocates
    refine ⟨by simp only; omega, h.size.mul_right 2, ⟨by simp only; omega, hallocates.1⟩,
      fun _ => ⟨hposition, by simp only; omega⟩, fun hend => ?_, ?_⟩
    · cases hgoes.symm.trans hend
    · rw [← h.whole]
      congr 1
      refine List.map_congr_left fun i hi => if_pos ?_
      have hi := List.mem_range.mp hi
      simp only at hi
      omega
  · obtain rfl := Option.some.inj hgrow
    exact ⟨by omega, h⟩

theorem Filling.room (h : Filling input stdin buffer) (hgoes : stdin.eof = false)
    (hlt : buffer.totalRead < buffer.currentSize) :
    buffer.totalRead + readSize ≤ buffer.currentSize :=
  room_of_lt h.size (h.position hgoes).1 hlt

theorem Filling.fread (h : Filling input stdin buffer) (hgoes : stdin.eof = false)
    (hlt : buffer.totalRead < buffer.currentSize) :
    Filling input (stdin.fread readSize)
      { buffer with
        data := buffer.store (stdin.bytes readSize)
        totalRead := (buffer.totalRead + (stdin.bytes readSize).length) % 2 ^ 64 } := by
  obtain ⟨hposition, -⟩ := h.position hgoes
  have hroom := h.room hgoes hlt
  have hlength : (stdin.bytes readSize).length = min readSize stdin.rest.length :=
    List.length_take
  have hbounded := h.bounded
  have htotal : (buffer.totalRead + (stdin.bytes readSize).length) % 2 ^ 64 =
      buffer.totalRead + (stdin.bytes readSize).length := Nat.mod_eq_of_lt (by omega)
  rw [htotal]
  refine ⟨h.size, hbounded, fun hmore => ?_, fun hend => ?_, ?_⟩
  · simp only [Stdin.fread, hgoes, Bool.false_or, decide_eq_false_iff_not] at hmore
    have hfull : (stdin.bytes readSize).length = readSize := by omega
    simp only [hfull]
    exact ⟨Nat.dvd_add hposition (Nat.dvd_refl readSize), hroom⟩
  · simp only [Stdin.fread, hgoes, Bool.false_or, decide_eq_true_eq] at hend
    simp only [Stdin.fread]
    exact ⟨by omega, List.drop_eq_nil_of_le (by omega)⟩
  · have hstore := map_store buffer (stdin.bytes readSize)
    rw [← h.whole]
    change List.map (buffer.store _) _ ++ _ = _
    rw [hstore, List.append_assoc]
    congr 1
    exact List.take_append_drop readSize stdin.rest

/-- All uses are within the buffer, and what is returned is the input and a zero. -/
structure ReadsAll (input : List UInt8) (uses : List Use) (result : ReadResult) : Prop where
  within : AllWithin uses
  data : ∀ data total, result = .returned data total →
    (List.range total).map data = input ∧ data total = 0

private theorem readLoop_readsAll (h : Filling input stdin buffer) :
    ReadsAll input (readLoop H k stdin buffer).1 (readLoop H k stdin buffer).2 := by
  fun_induction readLoop H k stdin buffer with
  | case1 k stdin buffer hend =>
      obtain ⟨hlt, hrest⟩ := h.ended hend
      refine ⟨List.forall_mem_singleton.mpr hlt, fun data total hreturned => ?_⟩
      obtain ⟨rfl, rfl⟩ := ReadResult.returned.inj hreturned
      have hstore := map_store buffer [0]
      rw [List.length_singleton, List.range_succ, List.map_append] at hstore
      obtain ⟨hdata, hzero⟩ := List.append_inj' hstore rfl
      have hwhole := h.whole
      rw [hrest, List.append_nil] at hwhole
      exact ⟨hdata.trans hwhole, List.singleton_inj.mp hzero⟩
  | case2 k stdin buffer hgoes hgrow => exact ⟨List.forall_mem_nil _, by simp⟩
  | case3 k stdin buffer hgoes grown hgrow use hfails =>
      obtain ⟨hlt, hgrown⟩ := h.grow (Bool.eq_false_iff.mpr hgoes) hgrow
      have hroom := hgrown.room (Bool.eq_false_iff.mpr hgoes) hlt
      exact ⟨List.forall_mem_singleton.mpr hroom, by simp⟩
  | case4 k stdin buffer hgoes grown hgrow use hfails bytesRead uses result heq ih =>
      obtain ⟨hlt, hgrown⟩ := h.grow (Bool.eq_false_iff.mpr hgoes) hgrow
      have hroom := hgrown.room (Bool.eq_false_iff.mpr hgoes) hlt
      have hrest := ih (hgrown.fread (Bool.eq_false_iff.mpr hgoes) hlt)
      rw [heq] at hrest
      exact ⟨List.forall_mem_cons.mpr ⟨hroom, hrest.within⟩, hrest.data⟩

end Filling

private theorem readDataFromStdin_readsAll (H : Host) (input : List UInt8) :
    ReadsAll input (readDataFromStdin H input).1 (readDataFromStdin H input).2 := by
  rw [readDataFromStdin]
  split_ifs with hmalloc
  · have hsize : 0 < initialBufferSize ∧ initialBufferSize < 2 ^ 63 := by decide
    refine readLoop_readsAll ⟨dvd_refl _, hsize, fun _ => ⟨dvd_zero _, Nat.zero_le _⟩, ?_, rfl⟩
    intro hend
    cases hend
  · exact ⟨List.forall_mem_nil _, by simp⟩

/-- Each read has room for `READ_SIZE` bytes, and the terminator is within the buffer. -/
theorem readDataFromStdin_within (H : Host) (input : List UInt8) :
    AllWithin (readDataFromStdin H input).1 :=
  (readDataFromStdin_readsAll H input).within

theorem readDataFromStdin_data (H : Host) (input : List UInt8) (data : Nat → UInt8) (total : Nat)
    (h : (readDataFromStdin H input).2 = .returned data total) :
    (List.range total).map data = input ∧ data total = 0 :=
  (readDataFromStdin_readsAll H input).data data total h

end Mimuw.Ppcb
