import Mimuw.Crosswords.Edges

/-!
# Printing a crossword

A crossword is printed with a frame of dots. The loops count in `size_t` up to the
limits of the area, so in the last columns and rows they are left too soon or not
at all; a loop that the fuel does not suffice for prints nothing here.
-/

namespace Mimuw.Crosswords

open Mimuw.Lib

def space : CChar := 32

def newline : CChar := 10

/-- `CROSSWORD_BACKGROUND` -/
def background : CChar := 46

/-- `for (x = start; cond(x); x++)`, with what its rounds print. -/
def printLoop (cond : Coordinate → Bool) (body : Coordinate → Option (List CChar)) :
    Nat → Coordinate → Option (List CChar)
  | 0, _ => none
  | fuel + 1, x =>
      if cond x then do
        let out ← body x
        let rest ← printLoop cond body fuel (x + 1)
        some (out ++ rest)
      else some []

namespace Crossword

variable (c : Crossword)

def size : Coordinate × Coordinate :=
  if !c.area.empty then
    (c.area.rightBottom.1 - c.area.leftTop.1 + 1, c.area.rightBottom.2 - c.area.leftTop.2 + 1)
  else (0, 0)

def cellAt (row col : Coordinate) : CChar :=
  match c.letters (col, row) with
  | some id => if id.char ≠ protectedChar then id.char else background
  | none => background

/-- The line above the crossword and below it; `EXTRA_CORNERS` is `2`. -/
def printBorder (fuel : Nat) : Option (List CChar) := do
  let cells ← printLoop (fun col => col < c.area.rightBottom.1 + 2)
    (fun _ => some [background, space]) fuel c.area.leftTop.1
  some (cells ++ [background, newline])

def printRow (fuel : Nat) (row : Coordinate) : Option (List CChar) := do
  let cells ← printLoop (fun col => col ≤ c.area.rightBottom.1)
    (fun col => some [c.cellAt row col, space]) fuel c.area.leftTop.1
  some ([background, space] ++ cells ++ [background, newline])

/-- `operator<<` -/
def print (fuel : Nat) : Option (List CChar) := do
  let above ← c.printBorder fuel
  let rows ← printLoop (fun row => row ≤ c.area.rightBottom.2) (c.printRow fuel) fuel
    c.area.leftTop.2
  let below ← c.printBorder fuel
  some (above ++ rows ++ below)

end Crossword

def lineText (cells : List CChar) : List CChar := cells.intersperse space ++ [newline]

/-- Printing comes to an end, with two lines more than the height and in each of them two cells more
than the width. -/
def Crossword.PrintsFramed (c : Crossword) : Prop :=
  ∃ fuel, ∃ lines : List (List CChar), c.print fuel = some (lines.flatMap lineText) ∧
    lines.length = c.size.2.toNat + 2 ∧ ∀ cells ∈ lines, cells.length = c.size.1.toNat + 2

/-! ## Loops -/

section Loops

variable {cond : Coordinate → Bool} {body : Coordinate → Option (List CChar)}
  {f : Coordinate → List CChar} {x : Coordinate} {n fuel : Nat}

private theorem add_ofNat_succ (x : Coordinate) (i : Nat) :
    x + UInt64.ofNat (i + 1) = x + 1 + UInt64.ofNat i := by
  rw [UInt64.ofNat_add, UInt64.add_comm (UInt64.ofNat i), ← UInt64.add_assoc]
  rfl

private theorem printLoop_eq (hcond : ∀ i < n, cond (x + UInt64.ofNat i) = true)
    (hstop : cond (x + UInt64.ofNat n) = false)
    (hbody : ∀ i < n, body (x + UInt64.ofNat i) = some (f (x + UInt64.ofNat i)))
    (hfuel : n < fuel) :
    printLoop cond body fuel x =
      some ((List.range n).flatMap fun i => f (x + UInt64.ofNat i)) := by
  obtain ⟨fuel, rfl⟩ : ∃ m, fuel = m + 1 := ⟨fuel - 1, by omega⟩
  induction n generalizing x fuel with
  | zero =>
      have hx : cond x = false := by simpa using hstop
      simp [printLoop, hx]
  | succ n ih =>
      have hx : cond x = true := by simpa using hcond 0 (by omega)
      have hout : body x = some (f x) := by simpa using hbody 0 (by omega)
      obtain ⟨fuel, rfl⟩ : ∃ m, fuel = m + 1 := ⟨fuel - 1, by omega⟩
      have hrest := ih (x := x + 1)
        (fun i hi => by rw [← add_ofNat_succ]; exact hcond (i + 1) (by omega))
        (by rw [← add_ofNat_succ]; exact hstop)
        (fun i hi => by rw [← add_ofNat_succ]; exact hbody (i + 1) (by omega)) fuel (by omega)
      rw [printLoop, if_pos hx, hout, hrest, List.range_succ_eq_map]
      simp only [Option.bind_eq_bind, Option.bind_some, List.flatMap_cons, List.flatMap_map,
        add_ofNat_succ]
      simp

private theorem printLoop_forever (h : ∀ x, cond x = true) (fuel : Nat) (x : Coordinate) :
    printLoop cond body fuel x = none := by
  induction fuel generalizing x with
  | zero => rfl
  | succ fuel ih => simp [printLoop, h x, ih]

private theorem printLoop_stuck (hcond : cond x = true) (hbody : body x = none) :
    printLoop cond body fuel x = none := by
  cases fuel with
  | zero => rfl
  | succ fuel => simp [printLoop, hcond, hbody]

end Loops

/-! ## Where printing ends -/

def Crossword.borderCells (c : Crossword) : List CChar :=
  (List.range (c.area.rightBottom.1.toNat + 2 - c.area.leftTop.1.toNat)).map
    (fun _ => background) ++ [background]

def Crossword.rowCells (c : Crossword) (row : Coordinate) : List CChar :=
  background :: (List.range (c.area.rightBottom.1.toNat + 1 - c.area.leftTop.1.toNat)).map
    (fun i => c.cellAt row (c.area.leftTop.1 + UInt64.ofNat i)) ++ [background]

def Inner (p : Pos) : Prop := p.1 < sizeMax - 1 ∧ p.2 < sizeMax

instance (p : Pos) : Decidable (Inner p) := inferInstanceAs (Decidable (_ ∧ _))

private theorem lineText_concat (cells : List CChar) (last : CChar) :
    lineText (cells ++ [last]) = (cells.flatMap fun c => [c, space]) ++ [last, newline] := by
  induction cells with
  | nil => rfl
  | cons c cells ih =>
      have hcons : lineText (c :: (cells ++ [last])) =
          [c, space] ++ lineText (cells ++ [last]) := by
        cases cells <;> rfl
      rw [List.cons_append, hcons, ih]
      simp

section Print

variable {c : Crossword} {fuel : Nat}

private theorem toNat_offset {x y : Coordinate} {i : Nat} (h : x.toNat + i ≤ y.toNat) :
    (x + UInt64.ofNat i).toNat = x.toNat + i := by
  have hy := y.toNat_lt
  rw [UInt64.toNat_add, UInt64.toNat_ofNat']
  omega

private theorem printLoop_le {x y : Coordinate} {f : Coordinate → List CChar}
    {body : Coordinate → Option (List CChar)} (hbody : ∀ x, body x = some (f x))
    (hxy : x.toNat ≤ y.toNat + 1) (hy : y.toNat < sizeMax.toNat)
    (hfuel : y.toNat + 1 - x.toNat < fuel) :
    printLoop (fun x => x ≤ y) body fuel x = some ((List.range (y.toNat + 1 - x.toNat)).flatMap
      fun i => f (x + UInt64.ofNat i)) := by
  refine printLoop_eq (fun i hi => ?_) ?_ (fun i _ => hbody _) hfuel
  · rw [decide_eq_true_eq, UInt64.le_iff_toNat_le, toNat_offset (y := y) (by omega)]
    omega
  · have hend : (x + UInt64.ofNat (y.toNat + 1 - x.toNat)).toNat = y.toNat + 1 := by
      rw [toNat_offset (y := sizeMax) (by omega)]
      omega
    rw [decide_eq_false_iff_not, UInt64.le_iff_toNat_le, hend]
    omega

private theorem framed_eq (g : Nat → CChar) (n : Nat) :
    ((List.range n).flatMap fun i => [g i, space]) ++ [background, newline] =
      lineText ((List.range n).map g ++ [background]) := by
  rw [lineText_concat, List.flatMap_map]

private theorem printBorder_eq (hleft : c.area.leftTop.1.toNat ≤ c.area.rightBottom.1.toNat + 1)
    (hright : c.area.rightBottom.1.toNat + 2 ≤ sizeMax.toNat)
    (hfuel : c.area.rightBottom.1.toNat + 2 < fuel) :
    c.printBorder fuel = some (lineText c.borderCells) := by
  have htwo : (c.area.rightBottom.1 + 2).toNat = c.area.rightBottom.1.toNat + 2 :=
    toNat_offset (y := sizeMax) (i := 2) hright
  have hloop : printLoop (fun col => col < c.area.rightBottom.1 + 2)
      (fun _ => some [background, space]) fuel c.area.leftTop.1 =
      some ((List.range (c.area.rightBottom.1.toNat + 2 - c.area.leftTop.1.toNat)).flatMap
        fun _ => [background, space]) := by
    refine printLoop_eq (f := fun _ => [background, space]) (fun i hi => ?_) ?_ (fun _ _ => rfl)
      (by omega)
    · rw [decide_eq_true_eq, UInt64.lt_iff_toNat_lt, htwo, toNat_offset (y := sizeMax) (by omega)]
      omega
    · rw [decide_eq_false_iff_not, UInt64.lt_iff_toNat_lt, htwo,
        toNat_offset (y := sizeMax) (by omega)]
      omega
  rw [Crossword.printBorder, hloop, Crossword.borderCells, ← framed_eq]
  rfl

private theorem printRow_eq (hleft : c.area.leftTop.1.toNat ≤ c.area.rightBottom.1.toNat + 1)
    (hright : c.area.rightBottom.1.toNat < sizeMax.toNat)
    (hfuel : c.area.rightBottom.1.toNat + 1 < fuel) (row : Coordinate) :
    c.printRow fuel row = some (lineText (c.rowCells row)) := by
  have henough : c.area.rightBottom.1.toNat + 1 - c.area.leftTop.1.toNat < fuel := by omega
  have hloop := printLoop_le (f := fun col => [c.cellAt row col, space]) (fun _ => rfl) hleft hright
    henough
  rw [Crossword.printRow, hloop, Crossword.rowCells, lineText_concat, List.flatMap_cons,
    List.flatMap_map]
  simp

/-- The frame and the rows are printed when the loops end before the edge. -/
private theorem printsFramed_of_inner (hinner : Inner c.area.rightBottom)
    (hleft : c.area.leftTop.1.toNat ≤ c.area.rightBottom.1.toNat + 1)
    (htop : c.area.leftTop.2.toNat ≤ c.area.rightBottom.2.toNat + 1)
    (hwidth : c.size.1.toNat = c.area.rightBottom.1.toNat + 1 - c.area.leftTop.1.toNat)
    (hheight : c.size.2.toNat = c.area.rightBottom.2.toNat + 1 - c.area.leftTop.2.toNat) :
    c.PrintsFramed := by
  obtain ⟨hright, hbottom⟩ := hinner
  have hpred : (sizeMax - 1).toNat = sizeMax.toNat - 1 := rfl
  rw [UInt64.lt_iff_toNat_lt, hpred] at hright
  rw [UInt64.lt_iff_toNat_lt] at hbottom
  let fuel := sizeMax.toNat + 1
  have hborder : c.printBorder fuel = some (lineText c.borderCells) :=
    printBorder_eq hleft (by omega) (by omega)
  have hrow (row : Coordinate) : c.printRow fuel row = some (lineText (c.rowCells row)) :=
    printRow_eq hleft (by omega) (by omega) row
  have hfuel : c.area.rightBottom.2.toNat + 1 - c.area.leftTop.2.toNat < fuel := by omega
  have hrows := printLoop_le hrow htop hbottom hfuel
  refine ⟨fuel, c.borderCells :: (List.range (c.area.rightBottom.2.toNat + 1 -
    c.area.leftTop.2.toNat)).map (fun i => c.rowCells (c.area.leftTop.2 + UInt64.ofNat i)) ++
      [c.borderCells], ?_, ?_, ?_⟩
  · rw [Crossword.print, hborder, hrows]
    simp [List.flatMap_map]
  · simp [hheight]
  · intro cells hcells
    have hcases : cells = c.borderCells ∨ ∃ row, cells = c.rowCells row := by
      simp only [List.cons_append, List.mem_cons, List.mem_append, List.mem_map] at hcells
      rcases hcells with h | ⟨i, -, h⟩ | h | h
      · exact .inl h
      · exact .inr ⟨_, h.symm⟩
      · exact .inl h
      · cases h
    rcases hcases with rfl | ⟨row, rfl⟩
    · simp only [Crossword.borderCells, List.length_append, List.length_map, List.length_range,
        List.length_singleton]
      omega
    · simp only [Crossword.rowCells, List.length_append, List.length_map, List.length_range,
        List.length_nil, List.length_cons]
      omega

/-- In the last column the rows never end, and the area has a row. -/
private theorem print_last_column (hright : c.area.rightBottom.1 = sizeMax)
    (htop : c.area.leftTop.2 ≤ c.area.rightBottom.2) : c.print fuel = none := by
  have hall (x : Coordinate) : decide (x ≤ c.area.rightBottom.1) = true := by
    rw [hright, decide_eq_true_eq, UInt64.le_iff_toNat_le]
    exact toNat_le_sizeMax x
  have hrow (row : Coordinate) : c.printRow fuel row = none := by
    rw [Crossword.printRow, printLoop_forever hall]
    rfl
  rw [Crossword.print, printLoop_stuck (by simpa using htop) (hrow _)]
  cases c.printBorder fuel <;> rfl

/-- In the last row there is always one more row. -/
private theorem print_last_row (hbottom : c.area.rightBottom.2 = sizeMax) :
    c.print fuel = none := by
  have hall (x : Coordinate) : decide (x ≤ c.area.rightBottom.2) = true := by
    rw [hbottom, decide_eq_true_eq, UInt64.le_iff_toNat_le]
    exact toNat_le_sizeMax x
  rw [Crossword.print, printLoop_forever hall]
  cases c.printBorder fuel <;> rfl

/-- One column before the last the limit of the frame wraps to `0`, and one dot is all of it. -/
private theorem print_wrapped (hright : c.area.rightBottom.1 = sizeMax - 1) {text : List CChar}
    (h : c.print fuel = some text) : ∃ rest, text = background :: newline :: rest := by
  have hnone (x : Coordinate) : decide (x < c.area.rightBottom.1 + 2) = false := by
    rw [hright, decide_eq_false_iff_not, UInt64.lt_iff_toNat_lt]
    exact Nat.not_lt_zero _
  cases fuel with
  | zero => simp [Crossword.print, Crossword.printBorder, printLoop] at h
  | succ fuel =>
      have hborder : c.printBorder (fuel + 1) = some [background, newline] := by
        simp [Crossword.printBorder, printLoop, hnone]
      simp only [Crossword.print, hborder, Option.bind_eq_bind, Option.bind_some] at h
      cases hrows : printLoop (fun row => row ≤ c.area.rightBottom.2) (c.printRow (fuel + 1))
        (fuel + 1) c.area.leftTop.2 with
      | none => simp [hrows] at h
      | some rows =>
          rw [hrows] at h
          exact ⟨_, (Option.some.inj h).symm⟩

private theorem flatMap_lineText_ne {lines : List (List CChar)} {rest : List CChar}
    (hlines : 2 ≤ lines.length) (hcells : ∀ cells ∈ lines, 2 ≤ cells.length) :
    lines.flatMap lineText ≠ background :: newline :: rest := by
  obtain ⟨first, lines, rfl⟩ := List.exists_cons_of_length_pos (l := lines) (by omega)
  have hfirst := hcells first (by simp)
  match first, hfirst with
  | a :: b :: cells, _ =>
      intro h
      have hsecond : lineText (a :: b :: cells) = a :: space :: lineText (b :: cells) := rfl
      rw [List.flatMap_cons, hsecond] at h
      exact absurd (List.cons.inj (List.cons.inj h).2).1 (by decide)

/-- A crossword with an area is printed in full exactly when its area ends before the edge. -/
private theorem printsFramed_iff_area (harea : c.area.empty = false) :
    c.PrintsFramed ↔ Inner c.area.rightBottom := by
  have hpred : (sizeMax - 1).toNat = sizeMax.toNat - 1 := rfl
  have hle : c.area.leftTop.1 ≤ c.area.rightBottom.1 ∧ c.area.leftTop.2 ≤ c.area.rightBottom.2 := by
    simpa [RectArea.empty] using harea
  have hright := toNat_le_sizeMax c.area.rightBottom.1
  have hbottom := toNat_le_sizeMax c.area.rightBottom.2
  constructor
  · rintro ⟨fuel, lines, hprint, hlines, hcells⟩
    refine ⟨?_, ?_⟩
    · rw [UInt64.lt_iff_toNat_lt, hpred]
      by_contra hlast
      rcases (by omega : c.area.rightBottom.1.toNat = sizeMax.toNat ∨
        c.area.rightBottom.1.toNat = (sizeMax - 1).toNat) with heq | heq
      · rw [print_last_column (UInt64.toNat_inj.mp heq) hle.2] at hprint
        cases hprint
      · obtain ⟨rest, hrest⟩ := print_wrapped (UInt64.toNat_inj.mp heq) hprint
        refine flatMap_lineText_ne (by omega) (fun cells h => ?_) hrest
        rw [hcells cells h]
        omega
    · rw [UInt64.lt_iff_toNat_lt]
      by_contra hlast
      rw [print_last_row (UInt64.toNat_inj.mp (by omega))] at hprint
      cases hprint
  · rintro hinner
    obtain ⟨hcol, hrow⟩ := hle
    rw [UInt64.le_iff_toNat_le] at hcol hrow
    have hfirst := hinner.1
    have hsecond := hinner.2
    rw [UInt64.lt_iff_toNat_lt, hpred] at hfirst
    rw [UInt64.lt_iff_toNat_lt] at hsecond
    rw [sizeMax_toNat] at hfirst hsecond
    have hsize (x y : Coordinate) (hxy : x.toNat ≤ y.toNat) (hy : y.toNat + 1 < 2 ^ 64) :
        (y - x + 1).toNat = y.toNat + 1 - x.toNat := by
      rw [UInt64.toNat_add, UInt64.toNat_sub_of_le _ _ (UInt64.le_iff_toNat_le.mpr hxy),
        UInt64.toNat_one]
      omega
    refine printsFramed_of_inner hinner (by omega) (by omega) ?_ ?_ <;>
      simp only [Crossword.size, harea, Bool.not_false, if_true]
    · exact hsize _ _ hcol (by omega)
    · exact hsize _ _ hrow (by omega)

end Print

/-! ## Crosswords that are built from words -/

def Word.Within (w : Word) : Prop := Inner w.getStartPosition ∧ Inner w.getEndPosition

/-- The area before the first word, or one that ends before the edge if the words do. -/
def Measured (c : Crossword) : Prop :=
  c.words = [] ∧ c.area = defaultEmptyRectArea ∨
    c.area.empty = false ∧ (Inner c.area.rightBottom ↔ ∀ w ∈ c.words, w.Within)

section Area

variable {a : RectArea} {p : Pos}

private theorem toNat_max (x y : Coordinate) : (max x y).toNat = max x.toNat y.toNat := by
  change (if x ≤ y then y else x).toNat = _
  split
  next h => exact (Nat.max_eq_right (UInt64.le_iff_toNat_le.mp h)).symm
  next h => exact (Nat.max_eq_left (by rw [UInt64.le_iff_toNat_le] at h; omega)).symm

private theorem toNat_min (x y : Coordinate) : (min x y).toNat = min x.toNat y.toNat := by
  change (if x ≤ y then x else y).toNat = _
  split
  next h => exact (Nat.min_eq_left (UInt64.le_iff_toNat_le.mp h)).symm
  next h => exact (Nat.min_eq_right (by rw [UInt64.le_iff_toNat_le] at h; omega)).symm

private theorem empty_eq_false :
    a.empty = false ↔ a.leftTop.1.toNat ≤ a.rightBottom.1.toNat ∧
      a.leftTop.2.toNat ≤ a.rightBottom.2.toNat := by
  simp [RectArea.empty, UInt64.le_iff_toNat_le]

private theorem empty_embrace (a : RectArea) (p : Pos) : (a.embrace p).empty = false := by
  rw [empty_eq_false, RectArea.embrace]
  split
  · simp only [toNat_max, toNat_min]
    omega
  · exact ⟨Nat.le_refl _, Nat.le_refl _⟩

private theorem inner_embrace (a : RectArea) (p : Pos) :
    Inner (a.embrace p).rightBottom ↔ (a.empty = false → Inner a.rightBottom) ∧ Inner p := by
  simp only [Inner, RectArea.embrace, UInt64.lt_iff_toNat_lt]
  cases a.empty with
  | false =>
      simp only [Bool.not_false, if_true, toNat_max, forall_const]
      omega
  | true => simp

end Area

private theorem measured_insertWord (c : Crossword) (w : Word) (h : Measured c) :
    Measured (c.insertWord w).1 := by
  by_cases hcheck : checkWord c.letters w = true
  · have harea : (c.insertWord w).1.area =
        (c.area.embrace w.getStartPosition).embrace w.getEndPosition := by
      rw [Crossword.insertWord, if_pos hcheck]
    refine .inr ⟨by rw [harea]; exact empty_embrace _ _, ?_⟩
    have hold : (c.area.empty = false → Inner c.area.rightBottom) ↔ ∀ w ∈ c.words, w.Within := by
      rcases h with ⟨hwords, hdefault⟩ | ⟨hempty, hinner⟩
      · rw [hwords, hdefault]
        exact iff_of_true (fun hempty => by cases hempty) (by simp)
      · rw [← hinner]
        exact ⟨fun himp => himp hempty, fun hright _ => hright⟩
    rw [harea, (insertWord_of_check hcheck).1, inner_embrace, inner_embrace, hold]
    simp only [empty_embrace, true_imp_iff, List.mem_append, List.mem_singleton]
    constructor
    · rintro ⟨⟨hwords, hstart⟩, hend⟩ u (hu | rfl)
      · exact hwords u hu
      · exact ⟨hstart, hend⟩
    · intro hall
      obtain ⟨hstart, hend⟩ := hall w (.inr rfl)
      exact ⟨⟨fun u hu => hall u (.inl hu), hstart⟩, hend⟩
  · rw [insertWord_of_not hcheck]
    exact h

private theorem measured_after (history : List Call) :
    ∀ c ∈ (calls step [] history).1, Measured c := by
  refine calls_invariant (I := fun crosswords => ∀ c ∈ crosswords, Measured c) ?_
    (fun _ hc => absurd hc List.not_mem_nil) history
  intro crosswords call h c hc
  rcases step_cases crosswords call hc with hc | ⟨c₀, ws, hc₀, rfl, -⟩
  · exact h c hc
  · refine calls_invariant measured_insertWord ?_ ws
    rcases hc₀ with rfl | hc₀
    · exact .inl ⟨rfl, rfl⟩
    · exact h c₀ hc₀

/-- A crossword built from any words is printed in full exactly when none of them begins or ends in
the last two columns or the last row. -/
theorem printsFramed_iff (history : List Call) :
    ∀ c ∈ (calls step [] history).1, c.PrintsFramed ↔ ∀ w ∈ c.words, w.Within := by
  intro c hc
  rcases measured_after history c hc with ⟨hwords, harea⟩ | ⟨hempty, hinner⟩
  · rw [hwords]
    refine iff_of_true ?_ nofun
    apply printsFramed_of_inner <;> simp only [Crossword.size, harea] <;> decide
  · rw [printsFramed_iff_area hempty, hinner]

def alone (first second : Coordinate) : List Call := [.construct (.make first second .H [65]) []]

theorem printsFramed_alone : ∃ c ∈ (calls step [] (alone 5 5)).1, c.PrintsFramed := by
  have hwords : (calls step [] (alone 5 5)).1.map (·.words) = [[.make 5 5 .H [65]]] := by
    decide +kernel
  obtain ⟨c, hc, hcwords⟩ := List.mem_map.mp (hwords ▸ List.mem_singleton_self _)
  refine ⟨c, hc, (printsFramed_iff (alone 5 5) c hc).mpr fun w hw => ?_⟩
  rw [hcwords, List.mem_singleton] at hw
  rw [hw]
  exact ⟨by decide, by decide⟩

/-- A letter in the last column is printed for ever. -/
theorem print_never_ends :
    ∃ c ∈ (calls step [] (alone sizeMax 0)).1,
      (∀ fuel, c.print fuel = none) ∧ ¬ c.PrintsFramed := by
  have harea : (calls step [] (alone sizeMax 0)).1.map (·.area) =
      [⟨(sizeMax, 0), (sizeMax, 0)⟩] := by
    decide +kernel
  obtain ⟨c, hc, hcarea⟩ := List.mem_map.mp (harea ▸ List.mem_singleton_self _)
  have hnever (fuel : Nat) : c.print fuel = none :=
    print_last_column (by rw [hcarea]) (by rw [hcarea]; decide)
  refine ⟨c, hc, hnever, ?_⟩
  rintro ⟨fuel, lines, hprint, -⟩
  rw [hnever fuel] at hprint
  cases hprint

end Mimuw.Crosswords
