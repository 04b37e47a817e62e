import Mathlib.Algebra.Order.Group.Int
import Mathlib.Tactic.Common

/-!
# Where the images are put on the canvas

The destination image and the aligned one are written into slices of a new canvas. The
size of the canvas takes both images into account, the offset only the new one.
-/

namespace Mimuw.Stitching

/-- `start:stop` -/
structure Slice where
  start : Int
  stop : Int
  deriving DecidableEq

/-- A bound of a slice of an axis: a negative one counts from the end. -/
def clamp (length bound : Int) : Int :=
  if bound < 0 then max 0 (bound + length) else min bound length

/-- The first index that a slice takes, and the one after the last. -/
def Slice.bounds (length : Int) (slice : Slice) : Int × Int :=
  (clamp length slice.start, clamp length slice.stop)

/-- The bounding box of the aligned image, which is not empty. -/
structure AlignedCoords where
  yMin : Int
  yMax : Int
  xMin : Int
  xMax : Int
  yMin_lt : yMin < yMax
  xMin_lt : xMin < xMax

/-- What `stitch_images_seam` computes before it writes to the canvas. -/
structure Placement where
  canvasHeight : Int
  canvasWidth : Int
  offset : Int × Int
  destY : Slice
  destX : Slice
  alignedY : Slice
  alignedX : Slice
  deriving DecidableEq

def canvasYMin (offDest : Int × Int) (aligned : AlignedCoords) : Int :=
  min (-offDest.1) aligned.yMin

def canvasXMin (offDest : Int × Int) (aligned : AlignedCoords) : Int :=
  min (-offDest.2) aligned.xMin

def stitchOffset (aligned : AlignedCoords) : Int × Int :=
  if aligned.yMin < 0 ∧ aligned.xMin < 0 then (-aligned.yMin, -aligned.xMin)
  else if aligned.yMin < 0 ∧ aligned.xMin ≥ 0 then (-aligned.yMin, 0)
  else if aligned.yMin ≥ 0 ∧ aligned.xMin < 0 then (0, -aligned.xMin)
  else (0, 0)

/-- `height` and `width` are those of the destination image. -/
def placeImages (height width : Nat) (offDest : Int × Int) (aligned : AlignedCoords) : Placement :=
  let canvasYMax := max (height - offDest.1) aligned.yMax
  let canvasXMax := max (width - offDest.2) aligned.xMax
  let offset := stitchOffset aligned
  { canvasHeight := canvasYMax - canvasYMin offDest aligned
    canvasWidth := canvasXMax - canvasXMin offDest aligned
    offset := offset
    destY := ⟨offset.1 - offDest.1, offset.1 + height - offDest.1⟩
    destX := ⟨offset.2 - offDest.2, offset.2 + width - offDest.2⟩
    alignedY := ⟨offset.1 + aligned.yMin, offset.1 + aligned.yMax⟩
    alignedX := ⟨offset.2 + aligned.xMin, offset.2 + aligned.xMax⟩ }

/-- A slice lies inside the axis, begins at `start` and is `size` long. -/
def Slice.Fits (slice : Slice) (length start size : Int) : Prop :=
  0 ≤ (slice.bounds length).1 ∧ (slice.bounds length).2 ≤ length ∧
    (slice.bounds length).1 = start ∧ (slice.bounds length).2 - (slice.bounds length).1 = size

instance (slice : Slice) (length start size : Int) : Decidable (slice.Fits length start size) := by
  unfold Slice.Fits
  infer_instance

/-- Both images are where the canvas has room for them. -/
structure PlacedRight (height width : Nat) (offDest : Int × Int) (aligned : AlignedCoords) :
    Prop where
  destY : (placeImages height width offDest aligned).destY.Fits
    (placeImages height width offDest aligned).canvasHeight
    (-offDest.1 - canvasYMin offDest aligned) height
  destX : (placeImages height width offDest aligned).destX.Fits
    (placeImages height width offDest aligned).canvasWidth
    (-offDest.2 - canvasXMin offDest aligned) width
  alignedY : (placeImages height width offDest aligned).alignedY.Fits
    (placeImages height width offDest aligned).canvasHeight
    (aligned.yMin - canvasYMin offDest aligned) (aligned.yMax - aligned.yMin)
  alignedX : (placeImages height width offDest aligned).alignedX.Fits
    (placeImages height width offDest aligned).canvasWidth
    (aligned.xMin - canvasXMin offDest aligned) (aligned.xMax - aligned.xMin)

/-- In each dimension the offset depends on the new image alone. -/
private theorem stitchOffset_eq (aligned : AlignedCoords) :
    stitchOffset aligned = (max 0 (-aligned.yMin), max 0 (-aligned.xMin)) := by
  unfold stitchOffset
  split_ifs <;> ext <;> simp <;> omega

section Dimension

variable {off lo hi size : Int}

private theorem clamp_le (length : Int) {bound : Int} (h : 0 ≤ bound) :
    clamp length bound ≤ bound := by
  rw [clamp, if_neg (by omega)]
  exact min_le_left bound length

/-- One dimension of the destination image, when the new one begins no later. -/
private theorem fits_dest (hoff : 0 ≤ off) (hsize : 0 ≤ size) (h : off = 0 ∨ lo ≤ -off) :
    (Slice.mk (max 0 (-lo) - off) (max 0 (-lo) + size - off)).Fits
      (max (size - off) hi - min (-off) lo) (-off - min (-off) lo) size := by
  simp only [Slice.Fits, Slice.bounds, clamp]
  omega

private theorem fits_aligned (hoff : 0 ≤ off) (hlt : lo < hi) (h : off = 0 ∨ lo ≤ -off) :
    (Slice.mk (max 0 (-lo) + lo) (max 0 (-lo) + hi)).Fits
      (max (size - off) hi - min (-off) lo) (lo - min (-off) lo) (hi - lo) := by
  simp only [Slice.Fits, Slice.bounds, clamp]
  omega

/-- A new image that begins after the edge of the canvas is put too far from its end. -/
private theorem of_fits_aligned (hoff : 0 ≤ off)
    (h : (Slice.mk (max 0 (-lo) + lo) (max 0 (-lo) + hi)).Fits
      (max (size - off) hi - min (-off) lo) (lo - min (-off) lo) (hi - lo)) :
    off = 0 ∨ lo ≤ -off := by
  have hstart := h.2.2.1
  have hle := clamp_le (max (size - off) hi - min (-off) lo) (show 0 ≤ max 0 (-lo) + lo by omega)
  rw [Slice.bounds] at hstart
  dsimp only at hstart
  omega

end Dimension

/-- Both images are placed right exactly when, in each dimension, there is no offset from before
or the new image begins where the old canvas does, or earlier. -/
theorem placedRight_iff (height width : Nat) (offDest : Int × Int) (aligned : AlignedCoords)
    (hoffY : 0 ≤ offDest.1) (hoffX : 0 ≤ offDest.2) : PlacedRight height width offDest aligned ↔
      (offDest.1 = 0 ∨ aligned.yMin ≤ -offDest.1) ∧
        (offDest.2 = 0 ∨ aligned.xMin ≤ -offDest.2) := by
  constructor
  · intro h
    have hy := h.alignedY
    have hx := h.alignedX
    simp only [placeImages, stitchOffset_eq] at hy hx
    exact ⟨of_fits_aligned hoffY hy, of_fits_aligned hoffX hx⟩
  · rintro ⟨hy, hx⟩
    refine ⟨?_, ?_, ?_, ?_⟩ <;> simp only [placeImages, stitchOffset_eq]
    · exact fits_dest hoffY (by omega) hy
    · exact fits_dest hoffX (by omega) hx
    · exact fits_aligned hoffY aligned.yMin_lt hy
    · exact fits_aligned hoffX aligned.xMin_lt hx

theorem placedRight_iff_left : PlacedRight 10 10 (0, 4) ⟨0, 10, -6, 5, by decide, by decide⟩ ↔
    ((0 : Int) = 0 ∨ 0 ≤ -0) ∧ ((4 : Int) = 0 ∨ -6 ≤ -4) :=
  placedRight_iff 10 10 (0, 4) ⟨0, 10, -6, 5, by decide, by decide⟩ (by decide) (by decide)

/-- A first stitch to the left and a second one to the right: the offset of the first is lost. -/
theorem placed_wrong :
    (placeImages 10 10 (0, 0) ⟨0, 10, -5, 5, by decide, by decide⟩).offset = (0, 5) ∧
    ¬ PlacedRight 10 15 (0, 5) ⟨0, 10, 6, 16, by decide, by decide⟩ := by
  refine ⟨by decide, fun h => ?_⟩
  exact absurd h.alignedX (by decide)

end Mimuw.Stitching
