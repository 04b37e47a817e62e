import Mimuw.Lib.ByteMemory
import Mimuw.Lib.Runs

/-!
# The copying program

`scopy` as its assembly has it: a step runs the instructions from one label to
the jump that leaves them. The registers that outlive a label are in the state,
and so is the memory, with the two buffers one after the other in `.bss`. What
the system calls answer is a parameter.
-/

namespace Mimuw.Copying

open Lib Lib.ByteMemory

def sLower : UInt8 := 115

def sUpper : UInt8 := 83

/-- `mov rdx, 1024` -/
def bufferSize : Nat := 1024

/-- `resb 1538` -/
def buffer2Size : Nat := 1538

/-- What a call of `read` stored in `buffer1`, before the end of the file. -/
structure Block where
  bytes : List UInt8
  nonempty : bytes ≠ []
  fits : bytes.length ≤ bufferSize

/-- The address of `.bss` and what the system calls answer; `none` and `false` stand for an error
number. After the listed reads the first file is at its end. -/
structure Platform where
  bss : Word64
  argc : Word64
  openFile1 : Bool
  openFile2 : Bool
  reads : List (Option Block)
  /-- The bytes of its buffer that a `write` writes, from the number of the call and the
  length of the buffer. -/
  writes : Nat → Nat → Option Nat
  closeFile1 : Bool
  closeFile2 : Bool

def Platform.buffer1 (K : Platform) : Word64 := K.bss

def Platform.buffer2 (K : Platform) : Word64 := K.bss + 1024

inductive Label where
  | start
  | readLoop
  | readDone
  | backReadDone
  | bufferLoop
  | bufferLoopBack
  | writeSSToBuffer
  | backWriteSSToBuffer
  | writeNotSSToBuffer
  | writeToFile
  | errorCloseFile1
  | errorCloseFile2
  | errorCloseFile12
  | exitCode1
  /-- `SYS_EXIT` with the code in `rdi` -/
  | exit (rdi : Word64)
  deriving DecidableEq

structure State where
  label : Label
  rbx : Word64
  r10 : Word64
  r12 : Word64
  r13 : Word64
  r14 : Word64
  mem : ByteMemory
  reads : List (Option Block)
  writes : Nat
  file2 : List UInt8

/-- The state at `_start`: `.bss` is zero, and so are the registers. -/
def initial (K : Platform) : State :=
  { label := .start, rbx := 0, r10 := 0, r12 := 0, r13 := 0, r14 := 0
    mem := fun _ => 0, reads := K.reads, writes := 0, file2 := [] }

/-- From a label up to the jump; there is no step after `SYS_EXIT`. -/
def step (K : Platform) (s : State) : Option State :=
  match s.label with
  | .start =>
      some (if K.argc ≠ 3 then { s with label := .exitCode1 }
      else if ¬ K.openFile1 then { s with label := .exitCode1 }
      else if ¬ K.openFile2 then { s with label := .errorCloseFile1 }
      else { s with label := .readLoop, r12 := 0, r13 := 0, r14 := 0 })
  | .readLoop =>
      match s.reads with
      | [] => some { s with label := .readDone, r10 := 0 }
      | none :: rest => some { s with label := .errorCloseFile12, r10 := 0, reads := rest }
      | some block :: rest =>
          some { s with
            label := .bufferLoop
            r10 := 0
            rbx := BitVec.ofNat 64 block.bytes.length
            mem := s.mem.fill K.buffer1 block.bytes
            reads := rest }
  | .readDone =>
      some { s with
        label := if s.r12 ≠ 0 then .writeToFile else .backReadDone
        r13 := 1
        r14 := 2
        mem := s.mem.store K.buffer2 s.r12 }
  | .backReadDone =>
      some (if ¬ K.closeFile1 then { s with label := .errorCloseFile2 }
      else if ¬ K.closeFile2 then { s with label := .exitCode1 }
      else { s with label := .exit 0 })
  | .bufferLoop =>
      some (if s.r10 = s.rbx then { s with label := .writeToFile }
      else if s.mem (K.buffer1 + s.r10) = sLower then { s with label := .writeSSToBuffer }
      else if s.mem (K.buffer1 + s.r10) = sUpper then { s with label := .writeSSToBuffer }
      else { s with label := .bufferLoopBack, r12 := s.r12 + 1 })
  | .bufferLoopBack => some { s with label := .bufferLoop, r10 := s.r10 + 1 }
  | .writeSSToBuffer =>
      some { s with label := if s.r12 ≠ 0 then .writeNotSSToBuffer else .backWriteSSToBuffer }
  | .backWriteSSToBuffer =>
      some { s with
        label := .bufferLoopBack
        -- all eight bytes from the letter on are copied, and the first counts
        mem := s.mem.store (K.buffer2 + s.r14) (s.mem.load (K.buffer1 + s.r10))
        r14 := s.r14 + 1 }
  | .writeNotSSToBuffer =>
      some { s with
        label := .backWriteSSToBuffer
        mem := s.mem.store (K.buffer2 + s.r14) s.r12
        r12 := 0
        r14 := s.r14 + 2 }
  | .writeToFile =>
      match K.writes s.writes s.r14.toNat with
      | none => some { s with label := .errorCloseFile12, writes := s.writes + 1 }
      | some n =>
          some { s with
            label := if s.r13 = 0 then .readLoop else .backReadDone
            r14 := 0
            writes := s.writes + 1
            file2 := s.file2 ++ s.mem.bytesAt K.buffer2 n }
  | .errorCloseFile1 => some { s with label := .exitCode1 }
  | .errorCloseFile2 => some { s with label := .exitCode1 }
  | .errorCloseFile12 => some { s with label := .exitCode1 }
  | .exitCode1 => some { s with label := .exit 1 }
  | .exit _ => none

/-- The offset in `buffer2` of the quadword that the step stores there. -/
def storeAt (s : State) : Option Nat :=
  match s.label with
  | .readDone => some 0
  | .backWriteSSToBuffer => some s.r14.toNat
  | .writeNotSSToBuffer => some s.r14.toNat
  | _ => none

def Reaches (K : Platform) : State → State → Prop :=
  Relation.ReflTransGen fun s t => step K s = some t

/-- The program runs from one state up to another and is over there. -/
def Ends (K : Platform) (s t : State) : Prop := Reaches K s t ∧ step K t = none

end Mimuw.Copying
