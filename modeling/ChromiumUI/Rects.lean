import Mathlib

/-!
# Rectangles

RectBase over `int`, whose sums wrap around. A rectangle holds the points from its origin to its
right and bottom edges, these left out.
-/
namespace ChromiumUI.Gfx

open Int

theorem toInt_max (x y : Int32) : (max x y).toInt = max x.toInt y.toInt := by
  have hle := @Int32.le_iff_toInt_le x y
  rw [show max x y = if x ≤ y then y else x from rfl]
  split
  · rename_i h
    exact (Int.max_eq_right (hle.mp h)).symm
  · rename_i h
    rw [hle, Int.not_le] at h
    exact (Int.max_eq_left (Int.le_of_lt h)).symm

theorem toInt_min (x y : Int32) : (min x y).toInt = min x.toInt y.toInt := by
  have hle := @Int32.le_iff_toInt_le x y
  rw [show min x y = if x ≤ y then x else y from rfl]
  split
  · rename_i h
    exact (Int.min_eq_left (hle.mp h)).symm
  · rename_i h
    rw [hle, Int.not_le] at h
    exact (Int.min_eq_right (Int.le_of_lt h)).symm

theorem toInt_add_of_fits {x y : Int32} (hlo : -2 ^ 31 ≤ x.toInt + y.toInt)
    (hhi : x.toInt + y.toInt < 2 ^ 31) : (x + y).toInt = x.toInt + y.toInt := by
  rw [Int32.toInt_add, bmod_eq_of_le_mul_two (by omega) (by omega)]

theorem toInt_sub_of_fits {x y : Int32} (hlo : -2 ^ 31 ≤ x.toInt - y.toInt)
    (hhi : x.toInt - y.toInt < 2 ^ 31) : (x - y).toInt = x.toInt - y.toInt := by
  rw [Int32.toInt_sub, bmod_eq_of_le_mul_two (by omega) (by omega)]

theorem add_sub_cancel_left (x y : Int32) : x + (y - x) = y := by
  rw [Int32.add_comm]
  exact Int32.sub_add_cancel y x

structure Point where
  x : Int32
  y : Int32
  deriving DecidableEq

/-- Size doesn't allow negative dimensions. -/
structure Size where
  width : Int32
  height : Int32
  width_nonneg : 0 ≤ width.toInt
  height_nonneg : 0 ≤ height.toInt
  deriving DecidableEq

namespace Size

/-- set_width and set_height: a negative value becomes 0. -/
def clamp (v : Int32) : Int32 := if v < 0 then 0 else v

theorem clamp_nonneg (v : Int32) : 0 ≤ (clamp v).toInt := by
  unfold clamp
  split
  · exact Int.le_refl 0
  · rename_i h
    rw [Int32.lt_iff_toInt_lt] at h
    exact Int.not_lt.mp h

theorem clamp_of_nonneg {v : Int32} (h : 0 ≤ v.toInt) : clamp v = v := by
  refine if_neg fun hlt => ?_
  rw [Int32.lt_iff_toInt_lt] at hlt
  exact absurd h (Int.not_le.mpr hlt)

theorem clamp_of_neg {v : Int32} (h : v.toInt < 0) : clamp v = 0 := by
  refine if_pos ?_
  rw [Int32.lt_iff_toInt_lt]
  exact h

def ofInts (width height : Int32) : Size :=
  ⟨clamp width, clamp height, clamp_nonneg width, clamp_nonneg height⟩

def isEmpty (s : Size) : Bool := s.width == 0 || s.height == 0

end Size

structure Rect where
  origin : Point
  size : Size
  deriving DecidableEq

/-- AdjustAlongAxis: the new origin and the new size. -/
def adjustAlongAxis (dstOrigin dstSize origin size : Int32) : Int32 × Int32 :=
  let size := min dstSize size
  if origin < dstOrigin then (dstOrigin, size)
  else (min (dstOrigin + dstSize) (origin + size) - size, size)

namespace Rect

def ofInts (x y width height : Int32) : Rect := ⟨⟨x, y⟩, Size.ofInts width height⟩

/-- The default constructor. -/
def empty : Rect := ofInts 0 0 0 0

section

variable (r : Rect)

def x : Int32 := r.origin.x

def y : Int32 := r.origin.y

def width : Int32 := r.size.width

def height : Int32 := r.size.height

def right : Int32 := r.x + r.width

def bottom : Int32 := r.y + r.height

def isEmpty : Bool := r.size.isEmpty

/-- Contains of a point. -/
def contains (p : Point) : Bool :=
  p.x ≥ r.x && p.x < r.right && (p.y ≥ r.y && p.y < r.bottom)

end

variable (r rect : Rect)

/-- Contains of a rectangle. -/
def containsRect : Bool :=
  rect.x ≥ r.x && rect.right ≤ r.right && (rect.y ≥ r.y && rect.bottom ≤ r.bottom)

def intersects : Bool :=
  !(rect.x ≥ r.right || rect.right ≤ r.x || (rect.y ≥ r.bottom || rect.bottom ≤ r.y))

/-- The rectangle between four edges. -/
def ofEdges (rx ry rr rb : Int32) : Rect := ofInts rx ry (rr - rx) (rb - ry)

def intersect : Rect :=
  let rx := max r.x rect.x
  let ry := max r.y rect.y
  let rr := min r.right rect.right
  let rb := min r.bottom rect.bottom
  if rx ≥ rr || ry ≥ rb then ofEdges 0 0 0 0 else ofEdges rx ry rr rb

def union : Rect :=
  if r.isEmpty then rect
  else if rect.isEmpty then r
  else ofEdges (min r.x rect.x) (min r.y rect.y) (max r.right rect.right) (max r.bottom rect.bottom)

def subtract : Rect :=
  if !r.intersects rect then r
  else if rect.containsRect r then empty
  else if rect.y ≤ r.y && rect.bottom ≥ r.bottom then
    -- complete intersection in the y-direction
    if rect.x ≤ r.x then ofEdges rect.right r.y r.right r.bottom
    else ofEdges r.x r.y rect.x r.bottom
  else if rect.x ≤ r.x && rect.right ≥ r.right then
    -- complete intersection in the x-direction
    if rect.y ≤ r.y then ofEdges r.x rect.bottom r.right r.bottom
    else ofEdges r.x r.y r.right rect.y
  else ofEdges r.x r.y r.right r.bottom

def adjustToFit : Rect :=
  let (newX, newWidth) := adjustAlongAxis rect.x rect.width r.x r.width
  let (newY, newHeight) := adjustAlongAxis rect.y rect.height r.y r.height
  ofInts newX newY newWidth newHeight

/-! ## Edges -/

theorem width_nonneg (r : Rect) : 0 ≤ r.width.toInt := r.size.width_nonneg

theorem height_nonneg (r : Rect) : 0 ≤ r.height.toInt := r.size.height_nonneg

theorem contains_iff {r : Rect} {p : Point} : r.contains p = true ↔
    (r.x.toInt ≤ p.x.toInt ∧ p.x.toInt < r.right.toInt) ∧
      (r.y.toInt ≤ p.y.toInt ∧ p.y.toInt < r.bottom.toInt) := by
  simp only [contains, Bool.and_eq_true, decide_eq_true_eq, ge_iff_le, Int32.le_iff_toInt_le,
    Int32.lt_iff_toInt_lt]

theorem containsRect_iff {r rect : Rect} : r.containsRect rect = true ↔
    (r.x.toInt ≤ rect.x.toInt ∧ rect.right.toInt ≤ r.right.toInt) ∧
      (r.y.toInt ≤ rect.y.toInt ∧ rect.bottom.toInt ≤ r.bottom.toInt) := by
  simp only [containsRect, Bool.and_eq_true, decide_eq_true_eq, ge_iff_le, Int32.le_iff_toInt_le]

theorem intersects_iff {r rect : Rect} : r.intersects rect = true ↔
    (rect.x.toInt < r.right.toInt ∧ r.x.toInt < rect.right.toInt) ∧
      (rect.y.toInt < r.bottom.toInt ∧ r.y.toInt < rect.bottom.toInt) := by
  simp only [intersects, Bool.not_eq_true', Bool.or_eq_false_iff, decide_eq_false_iff_not,
    ge_iff_le, Int32.le_iff_toInt_le, Int.not_le]

theorem isEmpty_iff {r : Rect} : r.isEmpty = true ↔ r.width.toInt = 0 ∨ r.height.toInt = 0 := by
  simp only [isEmpty, Size.isEmpty, Bool.or_eq_true, beq_iff_eq, ← Int32.toInt_inj]
  exact Iff.rfl

/-- Four edges are those of the rectangle between them, where the differences are sizes. -/
theorem ofEdges_edges {rx ry rr rb : Int32} (hx : 0 ≤ (rr - rx).toInt) (hy : 0 ≤ (rb - ry).toInt) :
    (ofEdges rx ry rr rb).right = rr ∧ (ofEdges rx ry rr rb).bottom = rb := by
  constructor
  · show rx + Size.clamp (rr - rx) = rr
    rw [Size.clamp_of_nonneg hx, add_sub_cancel_left]
  · show ry + Size.clamp (rb - ry) = rb
    rw [Size.clamp_of_nonneg hy, add_sub_cancel_left]

theorem contains_ofEdges {rx ry rr rb : Int32} (hx : 0 ≤ (rr - rx).toInt)
    (hy : 0 ≤ (rb - ry).toInt) {p : Point} : (ofEdges rx ry rr rb).contains p = true ↔
      (rx.toInt ≤ p.x.toInt ∧ p.x.toInt < rr.toInt) ∧
        (ry.toInt ≤ p.y.toInt ∧ p.y.toInt < rb.toInt) := by
  rw [contains_iff, (ofEdges_edges hx hy).1, (ofEdges_edges hx hy).2]
  exact Iff.rfl

end Rect

end ChromiumUI.Gfx
