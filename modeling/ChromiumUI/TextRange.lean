import Mathlib

/-!
# Ranges of text positions

`ui::Range`: a start and an end in no particular order. A `size_t` is a `Nat`;
a text is far shorter than 2^31 units, so the `int` inside `length()` is the
plain difference.
-/
namespace ChromiumUI.Ui

/-- `std::numeric_limits<size_t>::max()`. -/
def sizeMax : Nat := 2 ^ 64 - 1

structure Range where
  start : Nat
  end_ : Nat
  deriving DecidableEq, Repr

namespace Range

def invalidRange : Range := ⟨sizeMax, sizeMax⟩

def isValid (r : Range) : Bool := r != invalidRange

def length (r : Range) : Nat := if r.start ≤ r.end_ then r.end_ - r.start else r.start - r.end_

def isReversed (r : Range) : Bool := r.end_ < r.start

def isEmpty (r : Range) : Bool := r.start == r.end_

def getMin (r : Range) : Nat := min r.start r.end_

def getMax (r : Range) : Nat := max r.start r.end_

def contains (r range : Range) : Bool :=
  r.isValid && range.isValid && decide (r.getMin ≤ range.getMin) &&
    decide (range.getMax ≤ r.getMax)

@[simp] theorem isEmpty_iff (r : Range) : r.isEmpty = true ↔ r.start = r.end_ := by
  simp [isEmpty]

@[simp] theorem isEmpty_eq_false (r : Range) : r.isEmpty = false ↔ r.start ≠ r.end_ := by
  simp [isEmpty]

@[simp] theorem isReversed_iff (r : Range) : r.isReversed = true ↔ r.end_ < r.start := by
  simp [isReversed]

/-- The invalid range is empty, so a non-empty range is always valid. -/
theorem isValid_of_ne {r : Range} (h : r.start ≠ r.end_) : r.isValid = true := by
  simp only [isValid, bne_iff_ne, ne_eq]
  rintro rfl
  exact h rfl

/-- Between forward ranges with distinct ends, containment is the two inequalities. -/
theorem contains_forward {r range : Range} (hr : r.start < r.end_)
    (hrange : range.start < range.end_) :
    r.contains range = true ↔ r.start ≤ range.start ∧ range.end_ ≤ r.end_ := by
  simp only [contains, isValid_of_ne (Nat.ne_of_lt hr), isValid_of_ne (Nat.ne_of_lt hrange),
    Bool.true_and, Bool.and_eq_true, decide_eq_true_eq]
  simp only [getMin, getMax]
  omega

theorem getMin_add_length (r : Range) : r.getMin + r.length = r.getMax := by
  simp only [getMin, getMax, length]
  split <;> omega

end Range

end ChromiumUI.Ui
