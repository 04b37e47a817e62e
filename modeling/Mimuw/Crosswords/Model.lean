import Mathlib.Logic.Function.Basic
import Mimuw.Lib.Runs

/-!
# Crosswords

A crossword maps the cells it has touched to a character and the orientation of the word
that wrote it; the cells around a word are touched with a dot.  Coordinates are
`size_t`, so sums of them wrap.

The vertical and the horizontal half of the class are the same text up to exchanging the
coordinates.  Here they are one text over `line`, the column of a vertical word and the
row of a horizontal one, and the coordinate along the word.
-/

namespace Mimuw.Crosswords

open Mimuw.Lib

/-- `size_t` -/
abbrev Coordinate := UInt64

def sizeMax : Coordinate := 18446744073709551615

/-- `char`, which is signed. -/
abbrev CChar := Int8

/-- The column and the row. -/
abbrev Pos := Coordinate × Coordinate

inductive Orientation where
  | H
  | V
  deriving DecidableEq, Repr

structure LetterId where
  char : CChar
  orientation : Orientation
  deriving DecidableEq, Repr

/-- `PROTECTED_CHAR`, `'.'` -/
def protectedChar : CChar := 46

def convertLetter (c : CChar) : CChar :=
  if c ≥ 97 && c ≤ 122 then c - 32
  else if (c ≥ 0 && c < 65) || (c > 91 && c < 97) || c > 122 then 63
  else c

/-! ## Words -/

structure Word where
  coordinates : Pos
  orientation : Orientation
  word : List CChar
  deriving DecidableEq, Repr

namespace Word

/-- The constructor; in its last test `SIZE_MAX - first` stands for a vertical word too. -/
def make (first second : Coordinate) (o : Orientation) (newWord : List CChar) : Word :=
  let word := if newWord.isEmpty then [63] else newWord
  let word := if o = .H ∧ sizeMax - first < UInt64.ofNat newWord.length + 1 then
      newWord.take (sizeMax - first + 1).toNat
    else word
  let word := if o = .V ∧ sizeMax - first < UInt64.ofNat newWord.length + 1 then
      newWord.take (sizeMax - second + 1).toNat
    else word
  ⟨(first, second), o, word⟩

variable (w : Word)

def length : Coordinate := UInt64.ofNat w.word.length

def «at» (letter : Coordinate) : CChar :=
  if w.word = [63] ∧ letter = 0 ∨ letter ≥ w.length then 0 else w.word.getD letter.toNat 0

/-- The coordinate along the word where it starts. -/
def start : Coordinate :=
  match w.orientation with
  | .H => w.coordinates.1
  | .V => w.coordinates.2

/-- The coordinate that is the same in all cells of the word. -/
def line : Coordinate :=
  match w.orientation with
  | .H => w.coordinates.2
  | .V => w.coordinates.1

/-- The coordinate along the word where it ends, by `get_end_position`. -/
def stop : Coordinate :=
  if sizeMax - w.start < w.length then sizeMax else w.start + (w.length - 1)

end Word

def Orientation.pos (o : Orientation) (line along : Coordinate) : Pos :=
  match o with
  | .H => (along, line)
  | .V => (line, along)

def Word.getStartPosition (w : Word) : Pos := w.coordinates

def Word.getEndPosition (w : Word) : Pos := w.orientation.pos w.line w.stop

/-! ## The area -/

structure RectArea where
  leftTop : Pos
  rightBottom : Pos
  deriving DecidableEq, Repr

def defaultEmptyRectArea : RectArea := ⟨(1, 1), (0, 0)⟩

def RectArea.empty (a : RectArea) : Bool :=
  !(a.rightBottom.1 ≥ a.leftTop.1 && a.rightBottom.2 ≥ a.leftTop.2)

def RectArea.embrace (a : RectArea) (p : Pos) : RectArea :=
  if !a.empty then
    ⟨(min a.leftTop.1 p.1, min a.leftTop.2 p.2), (max a.rightBottom.1 p.1, max a.rightBottom.2 p.2)⟩
  else ⟨p, p⟩

/-! ## The letters -/

/-- `crossword_letters` -/
abbrev Letters := Pos → Option LetterId

/-- The values of the counter of `while (j <= stop) { …; if (j == SIZE_MAX) break; j++; }`
from `start`. -/
def span (start stop : Coordinate) : List Coordinate :=
  (List.range (stop.toNat + 1 - start.toNat)).map fun k => start + UInt64.ofNat k

/-- The cell is not touched, or protected. -/
def clear (letters : Letters) (p : Pos) : Bool :=
  match letters p with
  | some id => id.char == protectedChar
  | none => true

/-- One round of the loop that checks a word; `false` is the `return false` in it. -/
def checkCell (letters : Letters) (w : Word) (along : Coordinate) : Bool :=
  let o := w.orientation
  let line := w.line
  match letters (o.pos line along) with
  | none => true
  | some id =>
      if id.char == protectedChar then
        if along == sizeMax || w.length == 1 then false
        else
          match letters (o.pos line (along + 1)) with
          | none => true
          | some next =>
              if next.char == protectedChar ||
                  next.char != convertLetter (w.at (along + 1 - w.start)) then false
              else
                (!(line > 0) || clear letters (o.pos (line - 1) along) &&
                  clear letters (o.pos (line - 1) (along + 2))) &&
                (!(line < sizeMax) || clear letters (o.pos (line + 1) along) &&
                  clear letters (o.pos (line + 1) (along + 2)))
      else !(id.orientation == o || id.char != convertLetter (w.at (along - w.start)))

/-- `check_word_vertically` and `check_word_horizontally` -/
def checkWord (letters : Letters) (w : Word) : Bool :=
  (span w.start w.stop).all (checkCell letters w)

/-- The loop that writes the word; its `i` is `j - row`, or `j - column`. -/
def writeWord (letters : Letters) (w : Word) : Letters :=
  (span w.start w.stop).foldl (fun letters j =>
    Function.update letters (w.orientation.pos w.line j)
      (some ⟨convertLetter (w.at (j - w.start)), w.orientation⟩)) letters

/-- `crossword_letters.insert({p, letter_id(PROTECTED_CHAR, o)})` -/
def protect (o : Orientation) (letters : Letters) (p : Pos) : Letters :=
  match letters p with
  | some _ => letters
  | none => Function.update letters p (some ⟨protectedChar, o⟩)

/-- The cells around the word, in the order they are protected. -/
def halo (w : Word) : List Pos :=
  let o := w.orientation
  let line := w.line
  (if line > 0 then (span w.start w.stop).map (o.pos (line - 1)) else []) ++
    (if line < sizeMax then (span w.start w.stop).map (o.pos (line + 1)) else []) ++
    (if w.start > 0 then
      (if line > 0 then [o.pos (line - 1) (w.start - 1)] else []) ++
        (if line < sizeMax then [o.pos (line + 1) (w.start - 1)] else []) ++
        [o.pos line (w.start - 1)]
    else []) ++
    (if w.stop < sizeMax then
      (if line > 0 then [o.pos (line - 1) (w.stop + 1)] else []) ++
        (if line < sizeMax then [o.pos (line + 1) (w.stop + 1)] else []) ++
        [o.pos line (w.stop + 1)]
    else [])

/-- `insert_word_vertically` and `insert_word_horizontally`, the counters apart. -/
def insertLetters (letters : Letters) (w : Word) : Letters :=
  (halo w).foldl (protect w.orientation) (writeWord letters w)

/-! ## Crosswords -/

structure Crossword where
  area : RectArea
  howManyVertically : Coordinate
  howManyHorizontally : Coordinate
  words : List Word
  letters : Letters

namespace Crossword

/-- A crossword before its constructor inserts the words. -/
def empty : Crossword := ⟨defaultEmptyRectArea, 0, 0, [], fun _ => none⟩

def insertWord (c : Crossword) (w : Word) : Crossword × Bool :=
  if checkWord c.letters w then
    ({ area := (c.area.embrace w.getStartPosition).embrace w.getEndPosition
       howManyVertically :=
        if w.orientation = .V then c.howManyVertically + 1 else c.howManyVertically
       howManyHorizontally :=
        if w.orientation = .H then c.howManyHorizontally + 1 else c.howManyHorizontally
       words := c.words ++ [w]
       letters := insertLetters c.letters w }, true)
  else (c, false)

def insertWords (c : Crossword) (ws : List Word) : Crossword := (calls insertWord c ws).1

def construct (firstWord : Word) (otherWords : List Word) : Crossword :=
  empty.insertWords (firstWord :: otherWords)

/-- `operator+`; `insert_word` makes the test before it once more. -/
def add (c other : Crossword) : Crossword := c.insertWords other.words

end Crossword

/-! ## Calls on any number of crosswords -/

inductive Call where
  | construct (firstWord : Word) (otherWords : List Word)
  | insertWord (i : Nat) (word : Word)
  | add (i j : Nat)
  | addAssign (i j : Nat)
  deriving DecidableEq, Repr

/-- The crosswords made so far are numbered; a call on a number not given out yet does
nothing.  The answer is what `insert_word` returns. -/
def step (crosswords : List Crossword) : Call → List Crossword × Option Bool
  | .construct firstWord otherWords =>
      (crosswords ++ [.construct firstWord otherWords], none)
  | .insertWord i word =>
      match crosswords[i]? with
      | some c => (crosswords.set i (c.insertWord word).1, some (c.insertWord word).2)
      | none => (crosswords, none)
  | .add i j =>
      match crosswords[i]?, crosswords[j]? with
      | some c, some other => (crosswords ++ [c.add other], none)
      | _, _ => (crosswords, none)
  | .addAssign i j =>
      match crosswords[i]?, crosswords[j]? with
      | some c, some other => (crosswords.set i (c.add other), none)
      | _, _ => (crosswords, none)

end Mimuw.Crosswords
