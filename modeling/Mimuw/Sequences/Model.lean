import Mathlib
import Mimuw.Lib.Runs
import Mimuw.Lib.Trie

/-!
# Sequences with classes and names

The trie of `seq.c`.  A pointer to a node is the word that leads to it; class
records and names are blocks at addresses, since nodes share them.  `none`
stands for undefined behaviour: a pointer that is followed or freed and points
to no block.
-/

namespace Mimuw.Sequences

open Mimuw.Lib

inductive Digit where
  | zero
  | one
  | two
  deriving DecidableEq, Repr

instance : Fintype Digit := ⟨{.zero, .one, .two}, fun d => by cases d <;> simp⟩

def Digit.char : Digit → Char
  | zero => '0'
  | one => '1'
  | two => '2'

/-- `*(s + i) - 48`, when it is one of the three digits. -/
def digit? (c : Char) : Option Digit :=
  if c = '0' then some .zero
  else if c = '1' then some .one
  else if c = '2' then some .two
  else none

abbrev Word := List Digit

abbrev Addr := Nat

/-- `char const*`, which may be null; the terminating zero is not kept. -/
abbrev CString := Option (List Char)

/-- A node is labelled by its pointer to a class record. -/
abbrev Seq := Trie Digit (Option Addr)

structure AClass where
  counter : Nat
  s : Option Addr
  deriving DecidableEq, Repr

structure Memory where
  classes : Finmap fun _ : Addr => AClass
  names : Finmap fun _ : Addr => List Char
  /-- how often `malloc` was called -/
  mallocs : Nat

def Memory.empty : Memory := ⟨∅, ∅, 0⟩

/-- `malloc`: what the next call returns may depend on the calls before it and on
the blocks in use, of which none is returned. -/
structure Allocator where
  malloc : Nat → Finset Addr → Option Addr
  fresh : ∀ {n used a}, malloc n used = some a → a ∉ used

inductive Errno where
  | einval
  | enomem
  deriving DecidableEq, Repr

namespace Memory

def used (m : Memory) : Finset Addr := m.classes.keys ∪ m.names.keys

def setClass (m : Memory) (c : Addr) (r : AClass) : Memory :=
  { m with classes := m.classes.insert c r }

/-- `free` of a class record -/
def freeClass (m : Memory) (c : Addr) : Option Memory :=
  if c ∈ m.classes then some { m with classes := m.classes.erase c } else none

/-- `free` of a name, which may be null -/
def freeName (m : Memory) : Option Addr → Option Memory
  | none => some m
  | some b => if b ∈ m.names then some { m with names := m.names.erase b } else none

/-- `c->s`, as a string that can be read -/
def readName (m : Memory) (c : Addr) : Option (List Char) :=
  (m.classes.lookup c).bind fun r => r.s.bind fun b => m.names.lookup b

end Memory

section Functions

variable (A : Allocator)

/-- `malloc` of a name with the `strcpy` into it -/
def newName (m : Memory) (n : List Char) : Option Addr × Memory :=
  match A.malloc m.mallocs m.used with
  | some b => (some b, { m with names := m.names.insert b n, mallocs := m.mallocs + 1 })
  | none => (none, { m with mallocs := m.mallocs + 1 })

def classNew (m : Memory) (s : Option Addr) : Option Addr × Memory :=
  match A.malloc m.mallocs m.used with
  | some c => (some c, { m with classes := m.classes.insert c ⟨1, s⟩, mallocs := m.mallocs + 1 })
  | none => (none, { m with mallocs := m.mallocs + 1 })

/-- `malloc` of a node with nothing in it -/
def newNode (m : Memory) : Seq × Memory :=
  match A.malloc m.mallocs m.used with
  | some _ => (.node none fun _ => .null, { m with mallocs := m.mallocs + 1 })
  | none => (.null, { m with mallocs := m.mallocs + 1 })

def seqNew (m : Memory) : Seq × Memory := newNode A m

def seqBad (s : CString) : Int :=
  match s with
  | none => -1
  | some s => if s = [] then -1 else if s.dropWhile (fun c => (digit? c).isSome) = [] then 1 else -1

/-- The loop of `seq_walk`: the node it stops at, how often `i` was increased, and
`stop`. -/
def walk (root : Seq) (step : Nat) : List Char → Word → Nat → Word × Nat × Bool
  | [], p, i => (p, i, false)
  | c :: s, p, i =>
      if (c :: s).drop step = [] then (p, i, false)
      else
        match digit? c with
        | some d =>
            if (root.label (p ++ [d])).isSome then walk root step s (p ++ [d]) (i + 1)
            else (p, i + 1, true)
        | none => walk root step s p (i + 1)

/-- The counter behind `l` is given and returned when `l` is not null. -/
def seqWalk (root : Seq) (s : List Char) (step : Nat) (l : Option Nat) :
    Option Word × Option Nat :=
  let (p, i, stop) := walk root step s [] 0
  (if !stop && step == 0 && l.isSome then none
    else if step == 1 && stop then none
    else if stop && l.isNone then none
    else some p,
    l.map (· + i))

/-- The child is the one for the first character; a node for any other character
is lost. -/
def seqAddNew (root : Seq) (m : Memory) (p : Word) (c : Char) : Option (Bool × Seq × Memory) :=
  match newNode A m with
  | (.null, m) => some (false, root, m)
  | (new, m) =>
      match digit? c with
      | some d => (root.setChild p d new).map fun root => (true, root, m)
      | none => some (true, root, m)

/-- The loop of `seq_add`; it stops at the first node that cannot be had. -/
def addAll (root : Seq) (m : Memory) : Word → List Char → Option (Bool × Seq × Memory)
  | _, [] => some (true, root, m)
  | h, c :: s => do
      let (added, root', m') ← seqAddNew A root m h c
      if added then
        match digit? c with
        | some d => addAll root' m' (h ++ [d]) s
        | none => addAll root' m' h s
      else some (false, root', m')

def seqAdd (root : Seq) (m : Memory) (s : CString) :
    Option (Except Errno Bool × Seq × Memory) := do
  if root.label [] = none ∨ seqBad s = -1 then return (.error .einval, root, m)
  let s ← s
  match seqWalk root s 0 (some 0) with
  | (none, _) => return (.ok false, root, m)
  | (some h, l) => do
      let j := l.getD 0 - 1
      let (added, root, m) ← addAll A root m h (s.drop j)
      if added then return (.ok true, root, m)
      match (s.drop j).head?.bind digit? with
      | some d => (root.setChild h d .null).map fun root => (.error .enomem, root, m)
      | none => return (.error .enomem, root, m)

/-- What `seq_class_remove` and `seq_delete_all` do to the record of a node, if it has
one, before the node goes. -/
def release (m : Memory) : Option Addr → Option Memory
  | none => some m
  | some c => do
      let r ← m.classes.lookup c
      if r.counter = 1 then (← m.freeName r.s).freeClass c
      else if r.counter > 1 then return m.setClass c { r with counter := r.counter - 1 }
      else return m

def seqClassRemove : Seq → Memory → Option Memory
  | .null, m => some m
  | .node c children, m => do
      let m ← release m c
      let m ← seqClassRemove (children .zero) m
      let m ← seqClassRemove (children .one) m
      seqClassRemove (children .two) m

/-- Unlike in `seq_class_remove` the children go first. -/
def seqDeleteAll : Seq → Memory → Option Memory
  | .null, m => some m
  | .node c children, m => do
      let m ← seqDeleteAll (children .zero) m
      let m ← seqDeleteAll (children .one) m
      let m ← seqDeleteAll (children .two) m
      release m c

def seqDelete (root : Seq) (m : Memory) : Option Memory :=
  match root with
  | .null => some m
  | root => seqDeleteAll root m

def seqRemove (root : Seq) (m : Memory) (s : CString) :
    Option (Except Errno Bool × Seq × Memory) := do
  if root.label [] = none ∨ seqBad s = -1 then return (.error .einval, root, m)
  let s ← s
  match seqWalk root s 1 (some 0) with
  | (none, _) => return (.ok false, root, m)
  | (some h, l) =>
      match (s.drop (l.getD 0)).head?.bind digit? with
      | some d =>
          if root.label (h ++ [d]) = none then return (.ok false, root, m)
          let root' ← root.setChild h d .null
          let m ← seqClassRemove (root.sub (h ++ [d])) m
          return (.ok true, root', m)
      | none => return (.ok true, root, m)

def seqValid (root : Seq) (s : CString) : Option (Except Errno Bool) := do
  if root.label [] = none ∨ seqBad s = -1 then return .error .einval
  let s ← s
  match seqWalk root s 0 none with
  | (none, _) => return .ok false
  | (some _, _) => return .ok true

def seqSetName (root : Seq) (m : Memory) (s n : CString) :
    Option (Except Errno Bool × Seq × Memory) := do
  if root.label [] = none ∨ seqBad s = -1 ∨ n = none ∨ n = some [] then
    return (.error .einval, root, m)
  let s ← s
  let n ← n
  match newName A m n with
  | (none, m) => return (.error .enomem, root, m)
  | (some copy, m) =>
      match seqWalk root s 0 none with
      | (none, _) => return (.ok false, root, ← m.freeName (some copy))
      | (some h, _) =>
          match ← root.label h with
          | none =>
              match classNew A m (some copy) with
              | (none, m) => return (.error .enomem, root, ← m.freeName (some copy))
              | (some c, m) => return (.ok true, ← root.setLabel h (some c), m)
          | some c =>
              if n = (← m.readName c) then
                return (.ok false, root, ← m.freeName (some copy))
              let r ← m.classes.lookup c
              return (.ok true, root, ← (m.setClass c { r with s := some copy }).freeName r.s)

def seqGetName (root : Seq) (m : Memory) (s : CString) : Option (Except Errno CString) := do
  if root.label [] = none ∨ seqBad s = -1 then return .error .einval
  let s ← s
  match seqWalk root s 0 none with
  | (none, _) => return .ok none
  | (some h, _) =>
      match ← root.label h with
      | none => return .ok none
      | some c =>
          let n ← m.readName c
          return .ok (if n = [] then none else some n)

/-- What `class_change` does to one node. -/
def changeNode (old new : Addr) (c : Option Addr) (m : Memory) :
    Option (Option Addr × Memory) :=
  if c = some old then do
    let o ← m.classes.lookup old
    let m := m.setClass old { o with s := none }
    let n ← m.classes.lookup new
    return (some new, m.setClass new { n with counter := n.counter + 1 })
  else some (c, m)

def classChange (old new : Addr) : Seq → Memory → Option (Seq × Memory)
  | .null, m => some (.null, m)
  | .node c children, m => do
      let (c, m) ← changeNode old new c m
      let (lchild, m) ← classChange old new (children .zero) m
      let (mchild, m) ← classChange old new (children .one) m
      let (rchild, m) ← classChange old new (children .two) m
      return (.node c (fun | .zero => lchild | .one => mchild | .two => rchild), m)

/-- The two records become one: every node of either points to `c`. -/
def mergeInto (root : Seq) (m : Memory) (c c₁ c₂ : Addr) : Option (Seq × Memory) := do
  let r ← m.classes.lookup c
  let m := m.setClass c { r with counter := 0 }
  let (root, m) ← classChange c₁ c root m
  classChange c₂ c root m

/-- The node at `h` takes the class `c` of the other one. -/
def shareClass (root : Seq) (m : Memory) (h : Word) (c : Addr) :
    Option (Except Errno Bool × Seq × Memory) := do
  let root ← root.setLabel h (some c)
  let r ← m.classes.lookup c
  return (.ok true, root, m.setClass c { r with counter := r.counter + 1 })

/-- Two nodes without a class get one with the empty name. -/
def pairClass (root : Seq) (m : Memory) (h₁ h₂ : Word) :
    Option (Except Errno Bool × Seq × Memory) :=
  match newName A m [] with
  | (none, m) => some (.error .enomem, root, m)
  | (some b, m) =>
      match classNew A m (some b) with
      | (none, m) => do return (.error .enomem, root, ← m.freeName (some b))
      | (some c, m) => do
          let root ← root.setLabel h₁ (some c)
          let root ← root.setLabel h₂ (some c)
          return (.ok true, root, m.setClass c ⟨2, some b⟩)

/-- Two classes are joined: equal names are kept, others follow each other. -/
def mergeClasses (root : Seq) (m : Memory) (c₁ c₂ : Addr) :
    Option (Except Errno Bool × Seq × Memory) := do
  let n₁ ← m.readName c₁
  let n₂ ← m.readName c₂
  let r₁ ← m.classes.lookup c₁
  let r₂ ← m.classes.lookup c₂
  if n₁ = n₂ then
    match classNew A m r₁.s with
    | (none, m) => return (.error .enomem, root, m)
    | (some c, m) =>
        let (root, m) ← mergeInto root m c c₁ c₂
        let m ← m.freeClass c₁
        let m ← m.freeClass c₂
        return (.ok true, root, m)
  else
    match newName A m (n₁ ++ n₂) with
    | (none, m) => return (.error .enomem, root, m)
    | (some b, m) =>
        match classNew A m (some b) with
        | (none, m) => return (.error .enomem, root, ← m.freeName (some b))
        | (some c, m) =>
            let (root, m) ← mergeInto root m c c₁ c₂
            let m ← m.freeName r₁.s
            let m ← m.freeName r₂.s
            let m ← m.freeClass c₁
            let m ← m.freeClass c₂
            return (.ok true, root, m)

/-- What `seq_equiv` does with two nodes, by their pointers to classes. -/
def joinNodes (root : Seq) (m : Memory) (h₁ h₂ : Word) :
    Option Addr → Option Addr → Option (Except Errno Bool × Seq × Memory)
  | none, some c => shareClass root m h₁ c
  | some c, none => shareClass root m h₂ c
  | none, none => pairClass A root m h₁ h₂
  | some c₁, some c₂ =>
      if c₁ = c₂ then some (.ok false, root, m) else mergeClasses A root m c₁ c₂

def seqEquiv (root : Seq) (m : Memory) (s₁ s₂ : CString) :
    Option (Except Errno Bool × Seq × Memory) := do
  if root.label [] = none ∨ seqBad s₁ = -1 ∨ seqBad s₂ = -1 then
    return (.error .einval, root, m)
  let s₁ ← s₁
  let s₂ ← s₂
  if s₁ = s₂ then return (.ok false, root, m)
  match (seqWalk root s₁ 0 none).1, (seqWalk root s₂ 0 none).1 with
  | some h₁, some h₂ => joinNodes A root m h₁ h₂ (← root.label h₁) (← root.label h₂)
  | _, _ => return (.ok false, root, m)

end Functions

/-! ## A history of calls -/

inductive Call where
  | add (s : CString)
  | remove (s : CString)
  | valid (s : CString)
  | setName (s n : CString)
  | getName (s : CString)
  | equiv (s₁ s₂ : CString)
  deriving DecidableEq, Repr

inductive Answer where
  /-- 0 or 1, or -1 with the error in `errno` -/
  | code (r : Except Errno Bool)
  | name (r : Except Errno CString)
  | undefinedBehaviour

/-- The root and what it points to. -/
structure State where
  root : Seq
  memory : Memory

def State.initial (A : Allocator) : State :=
  ⟨(seqNew A .empty).1, (seqNew A .empty).2⟩

def answerCode (s : State) : Option (Except Errno Bool × Seq × Memory) → State × Answer
  | some (r, root, m) => (⟨root, m⟩, .code r)
  | none => (s, .undefinedBehaviour)

def step (A : Allocator) (s : State) : Call → State × Answer
  | .add w => answerCode s (seqAdd A s.root s.memory w)
  | .remove w => answerCode s (seqRemove s.root s.memory w)
  | .valid w =>
      answerCode s ((seqValid s.root w).map fun r => (r, s.root, s.memory))
  | .setName w n => answerCode s (seqSetName A s.root s.memory w n)
  | .getName w =>
      match seqGetName s.root s.memory w with
      | some r => (s, .name r)
      | none => (s, .undefinedBehaviour)
  | .equiv w₁ w₂ => answerCode s (seqEquiv A s.root s.memory w₁ w₂)

end Mimuw.Sequences
