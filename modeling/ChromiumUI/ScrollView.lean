import ChromiumUI.Runs
import Mathlib.Tactic.Linarith

/-!
# ScrollView and its BaseScrollBars

What the source does for x with the horizontal bar it does for y with the vertical one; here an
axis is the viewport, the contents and the bar of one direction. Thumb positions are those that
GetPosition returns, without the start of the track.
-/
namespace ChromiumUI.Views.ScrollView

open Runs

/-- Extents are those of gfx::Size and never negative. -/
structure Axis where
  viewport : Nat
  contents : Nat
  /-- x() or y() of contents_. -/
  origin : Int
  visible : Bool
  trackSize : Nat
  thumbSize : Int
  thumbPosition : Int
  contentsSize : Int
  contentsScrollOffset : Int
  maxPos : Int
  deriving DecidableEq

/-- What the views around the scroll view do: the track of a bar of some length, the thumb for a
viewport, a contents size and a track, and the increments of the contents in this direction. -/
structure Surroundings where
  scrollBarWidth : Nat
  scrollBarHeight : Nat
  trackSize : Bool → Int → Nat
  thumbSize : Bool → Nat → Int → Nat → Int
  pageScrollIncrement : Bool → Bool → Int
  lineScrollIncrement : Bool → Bool → Int

/-- GetContentsBounds(), when there is something to layout. -/
structure Bounds where
  x : Int
  y : Int
  width : Nat
  height : Nat
  nonempty : 0 < width ∧ 0 < height

structure Rect where
  x : Int
  y : Int
  width : Nat
  height : Nat
  deriving DecidableEq

inductive ScrollAmount
  | scrollNone | scrollStart | scrollEnd | scrollPrevLine | scrollNextLine | scrollPrevPage
  | scrollNextPage
  deriving DecidableEq

namespace Axis

/-- How far the contents can be scrolled. -/
def maxScroll (a : Axis) : Int := max ((a.contents : Int) - a.viewport) 0

def getMinPosition : Int := 0

def calculateThumbPosition (offset : Int) (a : Axis) : Int :=
  (offset * a.trackSize).tdiv a.contentsSize

def calculateContentsOffset (thumbPosition : Int) (scrollToMiddle : Bool) (a : Axis) : Int :=
  let thumbPosition :=
    if scrollToMiddle then thumbPosition - a.thumbSize.tdiv 2 else thumbPosition
  (thumbPosition * a.contentsSize).tdiv a.trackSize

/-- BaseScrollBar::Update, with the sizes and the origin of this axis. -/
def update (thumbSize : Nat → Int → Nat → Int) (a : Axis) : Axis :=
  let offset := -a.origin
  let a := { a with
    maxPos := max 0 ((a.contents : Int) - a.viewport)
    contentsSize := max 1 (a.contents : Int) }
  let offset := if offset < 0 then 0 else offset
  let offset := if offset > a.contents then a.contents else offset
  { a with
    thumbSize := thumbSize a.viewport a.contentsSize a.trackSize
    thumbPosition := a.calculateThumbPosition offset }

/-- CheckScrollBounds of an int. -/
def checkScrollBounds (viewportSize contentSize : Nat) (currentPos : Int) : Int :=
  let max := max ((contentSize : Int) - viewportSize) 0
  if currentPos < 0 then 0 else if currentPos > max then max else currentPos

/-- ScrollView::ScrollToPosition. -/
def scrollToPosition (position : Int) (a : Axis) : Axis :=
  if a.visible && decide (-a.origin ≠ position) then
    let maxPos := max 0 ((a.contents : Int) - a.viewport)
    { a with
      origin := -(if position < 0 then 0 else if position > maxPos then maxPos else position) }
  else a

def scrollContentsToOffset (a : Axis) : Axis :=
  let a := a.scrollToPosition a.contentsScrollOffset
  { a with thumbPosition := a.calculateThumbPosition a.contentsScrollOffset }

/-- The part of ScrollByAmount that finds the offset; `increment` is GetScrollIncrement. -/
def offsetByAmount (increment : Bool → Bool → Int) (amount : ScrollAmount) (a : Axis) : Int :=
  let offset := a.contentsScrollOffset
  match amount with
  | .scrollStart => getMinPosition
  | .scrollEnd => a.maxPos
  | .scrollPrevLine => max getMinPosition (offset - increment false false)
  | .scrollNextLine => min a.maxPos (offset + increment false true)
  | .scrollPrevPage => max getMinPosition (offset - increment true false)
  | .scrollNextPage => min a.maxPos (offset + increment true true)
  | .scrollNone => offset

/-- The offset is brought between GetMinPosition() and GetMaxPosition(). -/
def limit (offset : Int) (a : Axis) : Int :=
  if offset < getMinPosition then getMinPosition
  else if offset > a.maxPos then a.maxPos else offset

def scrollTo (offset : Int) (a : Axis) : Axis :=
  { a with contentsScrollOffset := offset }.scrollContentsToOffset

/-- The coordinate of GetVisibleRect. -/
def visiblePosition (a : Axis) : Int := if a.visible then a.thumbPosition else 0

/-- Where a rectangle starts, within the bounds of the contents. -/
def regionStart (position : Int) (a : Axis) : Int :=
  max 0 (min (max a.viewport a.contents : Nat) position)

/-- Where it ends, clipped by the viewport. -/
def regionEnd (position : Int) (extent : Nat) (a : Axis) : Int :=
  min (max a.viewport a.contents : Nat) (a.regionStart position + min extent a.viewport)

/-- The test of ScrollContentsRegionToBeVisible in this direction. -/
def contains (position : Int) (extent : Nat) (a : Axis) : Bool :=
  decide (a.visiblePosition ≤ a.regionStart position) &&
    decide (a.regionEnd position extent ≤ a.visiblePosition + a.viewport)

/-- The contents are shifted so that the region is visible. -/
def shift (position : Int) (extent : Nat) (a : Axis) : Axis :=
  { a with
    origin := -(if a.visiblePosition > a.regionStart position then a.regionStart position
      else max 0 (a.regionEnd position extent - a.viewport)) }

end Axis

structure State where
  horizontal : Axis
  vertical : Axis
  bounds : Bounds

namespace State

variable (env : Surroundings)

/-- The horizontal bar is shown, and the vertical one. -/
def computeScrollBarsVisibility (vpWidth vpHeight contentWidth
    contentHeight : Nat) : Bool × Bool :=
  if contentWidth ≤ vpWidth ∧ contentHeight ≤ vpHeight then (false, false)
  else if (contentWidth : Int) ≤ vpWidth - env.scrollBarWidth then (false, true)
  else if (contentHeight : Int) ≤ vpHeight - env.scrollBarHeight then (true, false)
  else (true, true)

/-- UpdateScrollBarPositions. -/
def updateScrollBarPositions (s : State) : State :=
  { s with
    horizontal := if s.horizontal.visible then s.horizontal.update (env.thumbSize true)
      else s.horizontal
    vertical := if s.vertical.visible then s.vertical.update (env.thumbSize false)
      else s.vertical }

/-- The first part of Layout: which bars are shown, the viewport they leave, and their tracks. A
width below zero becomes zero. -/
def arrange (s : State) : State :=
  let b := s.bounds
  let (horizSbRequired, vertSbRequired) := computeScrollBarsVisibility env b.width b.height
    s.horizontal.contents s.vertical.contents
  let width := b.width - env.scrollBarWidth
  let height := if horizSbRequired then b.height - env.scrollBarHeight else b.height
  let width := if vertSbRequired then width else width + env.scrollBarWidth
  { s with
    horizontal := { s.horizontal with
      visible := horizSbRequired
      viewport := width
      trackSize := if horizSbRequired then env.trackSize true (b.x + width)
        else s.horizontal.trackSize }
    vertical := { s.vertical with
      visible := vertSbRequired
      viewport := height
      trackSize := if vertSbRequired then env.trackSize false (b.y + height)
        else s.vertical.trackSize } }

/-- CheckScrollBounds. -/
def checkScrollBounds (s : State) : State :=
  let check (a : Axis) : Axis :=
    { a with origin := -Axis.checkScrollBounds a.viewport a.contents (-a.origin) }
  { s with horizontal := check s.horizontal, vertical := check s.vertical }

def layout (s : State) : State :=
  (s.arrange env).checkScrollBounds.updateScrollBarPositions env

def scrollContentsRegionToBeVisible (rect : Rect) (s : State) : State :=
  if !s.horizontal.visible && !s.vertical.visible then s
  else if s.horizontal.contains rect.x rect.width && s.vertical.contains rect.y rect.height then s
  else
    { s with
      horizontal := s.horizontal.shift rect.x rect.width
      vertical := s.vertical.shift rect.y rect.height }.updateScrollBarPositions env

/-- The axis of the horizontal bar or the vertical one. -/
def axis (horizontal : Bool) (s : State) : Axis := if horizontal then s.horizontal else s.vertical

def setAxis (horizontal : Bool) (a : Axis) (s : State) : State :=
  if horizontal then { s with horizontal := a } else { s with vertical := a }

/-- GetScrollIncrement. -/
def getScrollIncrement (horizontal : Bool) (s : State)
    (isPage isPositive : Bool) : Int :=
  let amount := if isPage then env.pageScrollIncrement horizontal isPositive
    else env.lineScrollIncrement horizontal isPositive
  if amount > 0 then amount
  else if isPage then ((s.axis horizontal).viewport : Int)
  else ((s.axis horizontal).viewport / 5 : Nat)

end State

/-- Layout in some bounds, a resize of the contents with the Layout that follows it, and the
scrolling by rectangle and by a bar. -/
inductive Action
  | layout (bounds : Bounds)
  | resize (width height : Nat)
  | scrollContentsRegionToBeVisible (rect : Rect)
  | scrollByAmount (horizontal : Bool) (amount : ScrollAmount)
  | scrollByContentsOffset (horizontal : Bool) (contentsOffset : Int)
  | scrollToThumbPosition (horizontal : Bool) (thumbPosition : Int) (scrollToMiddle : Bool)

namespace State

/-- The offset that an operation of a bar scrolls to. -/
def offsetOf (env : Surroundings) (s : State) : Action → Option (Bool × Int)
  | .scrollByAmount h amount =>
    some (h, (s.axis h).offsetByAmount (s.getScrollIncrement env h) amount)
  | .scrollByContentsOffset h contentsOffset =>
    some (h, (s.axis h).limit ((s.axis h).contentsScrollOffset - contentsOffset))
  | .scrollToThumbPosition h thumbPosition scrollToMiddle =>
    some (h, (s.axis h).limit ((s.axis h).calculateContentsOffset thumbPosition scrollToMiddle))
  | _ => none

end State

/-- An operation of a bar is refused when the bar is not visible or has no track. -/
def step (env : Surroundings) (s : State) : Action → Option State
  | .layout bounds => some (State.layout env { s with bounds := bounds })
  | .resize width height =>
    some (State.layout env { s with
      horizontal := { s.horizontal with contents := width }
      vertical := { s.vertical with contents := height } })
  | .scrollContentsRegionToBeVisible rect => some (s.scrollContentsRegionToBeVisible env rect)
  | action =>
    (s.offsetOf env action).bind fun (h, offset) =>
      if (s.axis h).visible && decide (0 < (s.axis h).trackSize) then
        some (s.setAxis h ((s.axis h).scrollTo offset))
      else none

/-- A bar nobody has updated, and contents of this size. -/
def Axis.create (contents : Nat) : Axis where
  viewport := 0
  contents := contents
  origin := 0
  visible := false
  trackSize := 0
  thumbSize := 0
  thumbPosition := 0
  contentsSize := 0
  contentsScrollOffset := 0
  maxPos := 0

/-- SetContents with a view of this size, and its Layout. -/
def create (env : Surroundings) (bounds : Bounds) (width height : Nat) : State :=
  State.layout env ⟨.create width, .create height, bounds⟩

/-! ## What is to hold -/

namespace Axis

/-- The contents are not scrolled too far, and all agree on how far. -/
def Agrees (a : Axis) : Prop :=
  a.visible = true → (-a.maxScroll ≤ a.origin ∧ a.origin ≤ 0) ∧
    a.contentsScrollOffset = -a.origin ∧ a.visiblePosition = -a.origin

/-- The start of the part of a rectangle that is inside the contents, and its end, cut to the
viewport size. -/
def partStart (position : Int) : Int := max 0 position

def partEnd (position : Int) (extent : Nat) (a : Axis) : Int :=
  min (min a.contents (position + extent)) (partStart position + a.viewport)

/-- The part is inside the viewport. -/
def Shows (position : Int) (extent : Nat) (a : Axis) : Prop :=
  0 ≤ partStart position + a.origin ∧ a.partEnd position extent + a.origin ≤ a.viewport

/-- The thumb position of the offset is the offset itself. -/
def Fits (offset : Int) (a : Axis) : Prop :=
  offset = 0 ∨ (max 1 (a.contents : Int) ≤ a.trackSize ∧
    offset * (a.trackSize - max 1 (a.contents : Int)) < max 1 (a.contents : Int))

/-- A bar that is shown is where the contents are going to be, and the thumb too. -/
def Settled (a : Axis) : Prop :=
  a.visible = true →
    checkScrollBounds a.viewport a.contents (-a.origin) = a.contentsScrollOffset ∧
      a.Fits a.contentsScrollOffset

end Axis

namespace State

def Agrees (s : State) : Prop := s.horizontal.Agrees ∧ s.vertical.Agrees

def Shows (rect : Rect) (s : State) : Prop :=
  Axis.partStart rect.x < s.horizontal.partEnd rect.x rect.width →
    Axis.partStart rect.y < s.vertical.partEnd rect.y rect.height →
    s.horizontal.Shows rect.x rect.width ∧ s.vertical.Shows rect.y rect.height

end State

/-- What an operation is to bring about. -/
def Kept (env : Surroundings) (s : State) (action : Action) : Prop :=
  ∀ s', step env s action = some s' →
    s'.Agrees ∧ ∀ rect, action = .scrollContentsRegionToBeVisible rect → s'.Shows rect

/-- A Layout does not scroll, the rectangle is in view already, and where a bar scrolls to is the
thumb position of itself. -/
def Meets (env : Surroundings) (s : State) : Action → Prop
  | .layout bounds =>
    let arranged := State.arrange env { s with bounds := bounds }
    arranged.horizontal.Settled ∧ arranged.vertical.Settled
  | .resize width height =>
    let arranged := State.arrange env { s with
      horizontal := { s.horizontal with contents := width }
      vertical := { s.vertical with contents := height } }
    arranged.horizontal.Settled ∧ arranged.vertical.Settled
  | .scrollContentsRegionToBeVisible rect =>
    s.horizontal.contains rect.x rect.width = true ∧ s.vertical.contains rect.y rect.height = true
  | action => ∀ h offset, s.offsetOf env action = some (h, offset) →
      (s.axis h).visible = true → 0 < (s.axis h).trackSize → (s.axis h).Fits offset

/-! ## When the bars agree with the contents

GetVisibleRect takes the position of the thumb for that of the contents, and Update leaves the
offset of the bar as it was. So the three agree as long as nothing but a bar scrolls, and that only
to offsets that are their own thumb positions. -/

open Runs Int Bool State

/-! ## One axis -/

namespace Axis

variable {a : Axis} {f : Nat → Int → Nat → Int} {position offset : Int} {extent : Nat}

theorem thumb_eq_iff {c t : Int} (hoff : 0 ≤ offset) (hc : 0 < c) (ht : 0 ≤ t) :
    (offset * t).tdiv c = offset ↔ offset = 0 ∨ (c ≤ t ∧ offset * (t - c) < c) := by
  have hsub : offset * (t - c) = offset * t - offset * c := mul_sub ..
  rw [tdiv_eq_ediv_of_nonneg (mul_nonneg hoff ht), ediv_eq_iff_of_pos hc]
  constructor
  · rintro ⟨hle, hlt⟩
    by_cases hzero : offset = 0
    · exact Or.inl hzero
    · have hpos : 0 < offset := by omega
      refine Or.inr ⟨?_, ?_⟩
      · have hcomm : offset * c ≤ offset * t := by linarith [mul_comm c offset]
        exact Int.le_of_mul_le_mul_left hcomm hpos
      · rw [hsub]
        linarith [mul_comm c offset]
  · rintro (rfl | ⟨hle, hlt⟩)
    · simp [hc]
    · have hmul : offset * c ≤ offset * t := mul_le_mul_of_nonneg_left hle hoff
      rw [hsub] at hlt
      constructor <;> linarith [mul_comm c offset]

theorem maxScroll_nonneg (a : Axis) : 0 ≤ a.maxScroll := le_max_right _ _

theorem checkScrollBounds_range (v c : Nat) (p : Int) :
    0 ≤ checkScrollBounds v c p ∧ checkScrollBounds v c p ≤ max ((c : Int) - v) 0 := by
  unfold checkScrollBounds
  dsimp only
  split_ifs <;> omega

/-- What holds of every axis: the bar that is shown knows the sizes, and without a bar there is
nothing to scroll. -/
structure Sound (a : Axis) : Prop where
  shown : a.visible = true → a.contentsSize = max 1 (a.contents : Int) ∧ a.maxPos = a.maxScroll
  hidden : a.visible = false → a.contents ≤ a.viewport ∧ a.origin = 0

theorem update_sound (hvis : a.visible = true) : (a.update f).Sound := by
  refine ⟨fun _ => ⟨rfl, ?_⟩, fun hhidden => ?_⟩
  · exact max_comm _ _
  · exact absurd (hvis.symm.trans hhidden) (by decide)

/-- Update brings the thumb to the contents, and that is all. -/
theorem update_thumb (hlow : 0 ≤ -a.origin) (hhigh : -a.origin ≤ a.maxScroll) :
    (a.update f).thumbPosition = (-a.origin * a.trackSize).tdiv (max 1 (a.contents : Int)) := by
  have hcontents : -a.origin ≤ a.contents := by
    unfold maxScroll at hhigh
    omega
  simp only [update, calculateThumbPosition, if_neg (not_lt.mpr hlow),
    if_neg (not_lt.mpr hcontents)]

theorem update_agrees (hvis : a.visible = true) (hlow : 0 ≤ -a.origin)
    (hhigh : -a.origin ≤ a.maxScroll) :
    (a.update f).Agrees ↔ a.contentsScrollOffset = -a.origin ∧ a.Fits (-a.origin) := by
  have hthumb := update_thumb (f := f) hlow hhigh
  have hfits := thumb_eq_iff (c := max 1 (a.contents : Int)) (t := a.trackSize) hlow (by omega)
    (natCast_nonneg _)
  have hpos : (a.update f).visiblePosition = (a.update f).thumbPosition := by
    unfold visiblePosition
    exact if_pos hvis
  constructor
  · intro h
    obtain ⟨-, hoff, hvisiblePosition⟩ := h hvis
    refine ⟨hoff, hfits.mp ?_⟩
    rw [← hthumb, ← hpos]
    exact hvisiblePosition
  · rintro ⟨hoff, hfit⟩ -
    have hnear : a.origin ≤ 0 := by omega
    refine ⟨⟨neg_le.mp hhigh, hnear⟩, hoff, ?_⟩
    rw [hpos, hthumb]
    exact hfits.mpr hfit

/-! ### Scrolling with a bar -/

theorem scrollTo_eq (hoff : 0 ≤ offset) (hhigh : offset ≤ a.maxScroll) (hvis : a.visible = true) :
    a.scrollTo offset = { a with
      contentsScrollOffset := offset
      origin := -offset
      thumbPosition := (offset * a.trackSize).tdiv a.contentsSize } := by
  have hlow : ¬ offset < 0 := not_lt.mpr hoff
  have hmax : ¬ offset > max 0 ((a.contents : Int) - a.viewport) := by
    unfold maxScroll at hhigh
    omega
  by_cases horigin : -a.origin = offset
  · subst horigin
    simp [scrollTo, scrollContentsToOffset, scrollToPosition, calculateThumbPosition]
  · simp [scrollTo, scrollContentsToOffset, scrollToPosition, calculateThumbPosition, hvis,
      horigin, hlow, hmax]

theorem scrollTo_sound (h : a.Sound) (hvis : a.visible = true) (hoff : 0 ≤ offset)
    (hhigh : offset ≤ a.maxScroll) : (a.scrollTo offset).Sound := by
  rw [scrollTo_eq hoff hhigh hvis]
  exact ⟨fun _ => h.shown hvis, fun hhidden => absurd (hvis.symm.trans hhidden) (by decide)⟩

theorem scrollTo_agrees (h : a.Sound) (hvis : a.visible = true) (hoff : 0 ≤ offset)
    (hhigh : offset ≤ a.maxScroll) : (a.scrollTo offset).Agrees ↔ a.Fits offset := by
  have hfits := thumb_eq_iff (c := max 1 (a.contents : Int)) (t := a.trackSize) hoff (by omega)
    (natCast_nonneg _)
  rw [scrollTo_eq hoff hhigh hvis, (h.shown hvis).1]
  unfold Fits
  rw [← hfits]
  constructor
  · intro hagrees
    obtain ⟨-, -, hpos⟩ := hagrees hvis
    simpa [visiblePosition, hvis] using hpos
  · intro hthumb _
    refine ⟨⟨neg_le_neg hhigh, by simpa using hoff⟩, by simp, ?_⟩
    simpa [visiblePosition, hvis] using hthumb

theorem limit_range (h : a.Sound) (hvis : a.visible = true) (p : Int) :
    0 ≤ a.limit p ∧ a.limit p ≤ a.maxScroll := by
  have hmax := (h.shown hvis).2
  have hpos := a.maxScroll_nonneg
  unfold limit getMinPosition
  split_ifs <;> omega

theorem offsetByAmount_range (h : a.Sound) (hagrees : a.Agrees) (hvis : a.visible = true)
    {increment : Bool → Bool → Int} (hincrement : ∀ page positive, 0 ≤ increment page positive)
    (amount : ScrollAmount) :
    0 ≤ a.offsetByAmount increment amount ∧ a.offsetByAmount increment amount ≤ a.maxScroll := by
  have hmax := (h.shown hvis).2
  obtain ⟨⟨hfar, hnear⟩, hoff, -⟩ := hagrees hvis
  have hline := hincrement false false
  have hline' := hincrement false true
  have hpage := hincrement true false
  have hpage' := hincrement true true
  cases amount <;> simp only [offsetByAmount, getMinPosition] <;> omega

/-! ### Scrolling to a rectangle -/

section

variable (h : a.Sound)
include h

/-- Without a bar every rectangle is in view. -/
theorem contains_of_hidden (hhidden : a.visible = false) (position : Int)
    (extent : Nat) : a.contains position extent = true := by
  obtain ⟨hfits, -⟩ := h.hidden hhidden
  simp only [contains, visiblePosition, hhidden, regionStart, regionEnd, and_eq_true,
    decide_eq_true_eq]
  constructor
  · simp
  · rw [Nat.max_eq_left hfits]
    simp

/-- The contents are where GetVisibleRect says. -/
theorem visiblePosition_eq (hagrees : a.Agrees) : a.visiblePosition = -a.origin := by
  cases hvis : a.visible with
  | false =>
    rw [(h.hidden hvis).2]
    simp [visiblePosition, hvis]
  | true => exact (hagrees hvis).2.2

theorem shows_of_contains (hagrees : a.Agrees) (hcont : a.contains position extent = true)
    (hpart : partStart position < a.partEnd position extent) : a.Shows position extent := by
  have hpos := visiblePosition_eq h hagrees
  simp only [contains, and_eq_true, decide_eq_true_eq, hpos] at hcont
  obtain ⟨hstart, hend⟩ := hcont
  simp only [Shows, partStart, partEnd, regionStart, regionEnd] at *
  omega

/-- A rectangle that is not in view moves the contents. -/
theorem shift_moves (hagrees : a.Agrees) (hcont : a.contains position extent = false) :
    a.visible = true ∧ (a.shift position extent).origin ≠ a.origin := by
  have hpos := visiblePosition_eq h hagrees
  cases hvis : a.visible with
  | false =>
    rw [contains_of_hidden h hvis] at hcont
    cases hcont
  | true =>
    refine ⟨rfl, fun hsame => ?_⟩
    obtain ⟨⟨-, hnear⟩, -⟩ := hagrees hvis
    have hnot : ¬ (a.visiblePosition ≤ a.regionStart position ∧
        a.regionEnd position extent ≤ a.visiblePosition + a.viewport) := by
      rintro ⟨hstart, hend⟩
      rw [contains, decide_eq_true hstart, decide_eq_true hend] at hcont
      cases hcont
    have hsame' : -(if a.visiblePosition > a.regionStart position then a.regionStart position
      else max 0 (a.regionEnd position extent - a.viewport)) = a.origin := hsame
    split_ifs at hsame' <;> omega

theorem shift_hidden (hhidden : a.visible = false) : (a.shift position extent).origin = 0 := by
  obtain ⟨hfits, -⟩ := h.hidden hhidden
  have hpos : a.visiblePosition = 0 := by simp [visiblePosition, hhidden]
  have hstart : 0 ≤ a.regionStart position := le_max_left _ _
  have hend : a.regionEnd position extent ≤ a.viewport := by
    rw [regionEnd, Nat.max_eq_left hfits]
    exact min_le_left _ _
  have : (a.shift position extent).origin = -(if a.visiblePosition > a.regionStart position then
      a.regionStart position else max 0 (a.regionEnd position extent - a.viewport)) := rfl
  rw [this, hpos, if_neg (by omega)]
  omega

end

/-! ### Layout -/

/-- What Layout does with an axis it has arranged. -/
def laidOut (f : Nat → Int → Nat → Int) (a : Axis) : Axis :=
  let a := { a with origin := -checkScrollBounds a.viewport a.contents (-a.origin) }
  if a.visible then a.update f else a

theorem laidOut_sound (hhidden : a.visible = false → a.contents ≤ a.viewport) :
    (a.laidOut f).Sound := by
  unfold laidOut
  dsimp only
  split_ifs with hvis
  · exact update_sound hvis
  · have hfalse : a.visible = false := by simpa using hvis
    refine ⟨fun hshown => absurd hshown hvis, fun _ => ⟨hhidden hfalse, ?_⟩⟩
    obtain ⟨hlow, hhigh⟩ := checkScrollBounds_range a.viewport a.contents (-a.origin)
    have := hhidden hfalse
    dsimp only
    omega

theorem laidOut_agrees : (a.laidOut f).Agrees ↔ a.Settled := by
  unfold laidOut
  dsimp only
  split_ifs with hvis
  · obtain ⟨hlow, hhigh⟩ := checkScrollBounds_range a.viewport a.contents (-a.origin)
    have hneg := neg_neg (checkScrollBounds a.viewport a.contents (-a.origin))
    have h := update_agrees (f := f)
      (a := { a with origin := -checkScrollBounds a.viewport a.contents (-a.origin) }) hvis
      (hlow.trans_eq hneg.symm) (hneg.trans_le hhigh)
    rw [h]
    rw [hneg]
    constructor
    · rintro ⟨hoff, hfits⟩ -
      refine ⟨hoff.symm, ?_⟩
      rw [hoff]
      exact hfits
    · intro hsettled
      obtain ⟨hoff, hfits⟩ := hsettled hvis
      refine ⟨hoff.symm, ?_⟩
      rw [hoff]
      exact hfits
  · exact ⟨fun _ hshown => absurd hshown hvis, fun _ hshown => absurd hshown hvis⟩

/-- What scrolling to a rectangle does with an axis when it does something. -/
def moved (f : Nat → Int → Nat → Int) (position : Int) (extent : Nat) (a : Axis) : Axis :=
  let a := a.shift position extent
  if a.visible then a.update f else a

theorem moved_sound (h : a.Sound) : (a.moved f position extent).Sound := by
  unfold moved
  dsimp only
  split_ifs with hvis
  · exact update_sound hvis
  · have hfalse : a.visible = false := by simpa [shift] using hvis
    exact ⟨fun hshown => absurd hshown hvis, fun _ =>
      ⟨(h.hidden hfalse).1, shift_hidden h hfalse⟩⟩

/-- The offset of the bar stays behind. -/
theorem moved_disagrees (h : a.Sound) (hagrees : a.Agrees)
    (hcont : a.contains position extent = false) : ¬ (a.moved f position extent).Agrees := by
  obtain ⟨hvis, hmoves⟩ := shift_moves h hagrees hcont
  have hshift : (a.shift position extent).visible = true := hvis
  intro hafter
  unfold moved at hafter
  rw [if_pos hshift] at hafter
  obtain ⟨-, hoff, -⟩ := hafter hshift
  obtain ⟨-, hpre, -⟩ := hagrees hvis
  exact hmoves (neg_injective (hoff.symm.trans hpre))

end Axis

/-! ## Both axes -/

structure State.Sound (s : State) : Prop where
  horizontal : s.horizontal.Sound
  vertical : s.vertical.Sound

variable {env : Surroundings} {s s' : State}

theorem computeScrollBarsVisibility_hidden {vw vh cw ch : Nat} {horizontal vertical : Bool}
    (h : computeScrollBarsVisibility env vw vh cw ch = (horizontal, vertical)) :
    (horizontal = false →
      cw ≤ if vertical then vw - env.scrollBarWidth
        else vw - env.scrollBarWidth + env.scrollBarWidth) ∧
    (vertical = false → ch ≤ if horizontal then vh - env.scrollBarHeight else vh) := by
  unfold computeScrollBarsVisibility at h
  split_ifs at h with hboth hwidth hheight
  · cases h
    exact ⟨fun _ => by simp only [false_eq_true, if_false]; omega, fun _ => hboth.2⟩
  · cases h
    exact ⟨fun _ => by simp only [if_true]; omega, nofun⟩
  · cases h
    exact ⟨nofun, fun _ => by simp only [if_true]; omega⟩
  · cases h
    exact ⟨nofun, nofun⟩

/-- A bar is left out where the contents fit. -/
theorem arrange_hidden (env : Surroundings) (s : State) :
    ((s.arrange env).horizontal.visible = false →
      (s.arrange env).horizontal.contents ≤ (s.arrange env).horizontal.viewport) ∧
    ((s.arrange env).vertical.visible = false →
      (s.arrange env).vertical.contents ≤ (s.arrange env).vertical.viewport) := by
  rcases h : computeScrollBarsVisibility env s.bounds.width s.bounds.height
    s.horizontal.contents s.vertical.contents with ⟨horizontal, vertical⟩
  simp only [arrange, h]
  exact computeScrollBarsVisibility_hidden h

theorem layout_sound (env : Surroundings) (s : State) : (s.layout env).Sound :=
  ⟨Axis.laidOut_sound (arrange_hidden env s).1, Axis.laidOut_sound (arrange_hidden env s).2⟩

theorem layout_agrees : (s.layout env).Agrees ↔
    (s.arrange env).horizontal.Settled ∧ (s.arrange env).vertical.Settled :=
  and_congr Axis.laidOut_agrees Axis.laidOut_agrees

theorem region_sound (h : s.Sound) (rect : Rect) :
    (s.scrollContentsRegionToBeVisible env rect).Sound := by
  unfold scrollContentsRegionToBeVisible
  split_ifs
  · exact h
  · exact h
  · exact ⟨Axis.moved_sound h.horizontal, Axis.moved_sound h.vertical⟩

theorem region_agrees (h : s.Sound) (hagrees : s.Agrees) (rect : Rect) :
    ((s.scrollContentsRegionToBeVisible env rect).Agrees ∧
      (s.scrollContentsRegionToBeVisible env rect).Shows rect) ↔
    s.horizontal.contains rect.x rect.width = true ∧
      s.vertical.contains rect.y rect.height = true := by
  have hstays : s.horizontal.contains rect.x rect.width = true ∧
      s.vertical.contains rect.y rect.height = true →
      s.scrollContentsRegionToBeVisible env rect = s := by
    rintro ⟨hx, hy⟩
    simp [scrollContentsRegionToBeVisible, hx, hy]
  constructor
  · rintro ⟨hafter, -⟩
    by_contra hnot
    have hshown : (!s.horizontal.visible && !s.vertical.visible) = false := by
      by_contra hhidden
      simp only [not_eq_false, and_eq_true, not_eq_true'] at hhidden
      exact hnot ⟨Axis.contains_of_hidden h.horizontal hhidden.1 _ _,
        Axis.contains_of_hidden h.vertical hhidden.2 _ _⟩
    have hout : (s.horizontal.contains rect.x rect.width &&
        s.vertical.contains rect.y rect.height) = false := by
      rw [eq_false_iff]
      intro hin
      exact hnot (and_eq_true _ _ ▸ hin)
    rw [scrollContentsRegionToBeVisible, hshown, hout] at hafter
    obtain ⟨hhorizontal, hvertical⟩ := hafter
    rcases and_eq_false_iff.mp hout with hx | hy
    · exact Axis.moved_disagrees (f := env.thumbSize true) h.horizontal hagrees.1 hx hhorizontal
    · exact Axis.moved_disagrees (f := env.thumbSize false) h.vertical hagrees.2 hy hvertical
  · intro hin
    rw [hstays hin]
    exact ⟨hagrees, fun hx hy => ⟨Axis.shows_of_contains h.horizontal hagrees.1 hin.1 hx,
      Axis.shows_of_contains h.vertical hagrees.2 hin.2 hy⟩⟩

/-! ### A bar -/

theorem axis_sound (h : s.Sound) (d : Bool) : (s.axis d).Sound := by
  cases d
  · exact h.vertical
  · exact h.horizontal

theorem axis_agrees (h : s.Agrees) (d : Bool) : (s.axis d).Agrees := by
  cases d
  · exact h.2
  · exact h.1

variable {d : Bool}

theorem setAxis_sound (h : s.Sound) {a : Axis} (ha : a.Sound) : (s.setAxis d a).Sound := by
  cases d
  · exact ⟨h.horizontal, ha⟩
  · exact ⟨ha, h.vertical⟩

theorem setAxis_agrees (h : s.Agrees) {a : Axis} : (s.setAxis d a).Agrees ↔ a.Agrees := by
  cases d
  · exact ⟨fun hs => hs.2, fun ha => ⟨h.1, ha⟩⟩
  · exact ⟨fun hs => hs.1, fun ha => ⟨ha, h.2⟩⟩

theorem getScrollIncrement_nonneg (env : Surroundings) (d : Bool) (s : State)
    (isPage isPositive : Bool) : 0 ≤ s.getScrollIncrement env d isPage isPositive := by
  unfold getScrollIncrement
  dsimp only
  split_ifs <;> omega

variable {action : Action}

theorem offsetOf_range (h : s.Sound) (hagrees : s.Agrees) {o : Int}
    (hoff : s.offsetOf env action = some (d, o)) (hvis : (s.axis d).visible = true) :
    0 ≤ o ∧ o ≤ (s.axis d).maxScroll := by
  cases action with
  | layout => cases hoff
  | resize => cases hoff
  | scrollContentsRegionToBeVisible => cases hoff
  | scrollByAmount d' amount =>
    simp only [offsetOf, Option.some.injEq, Prod.mk.injEq] at hoff
    obtain ⟨rfl, rfl⟩ := hoff
    exact Axis.offsetByAmount_range (axis_sound h d') (axis_agrees hagrees d') hvis
      (getScrollIncrement_nonneg env d' s) amount
  | scrollByContentsOffset d' p | scrollToThumbPosition d' p middle =>
    simp only [offsetOf, Option.some.injEq, Prod.mk.injEq] at hoff
    obtain ⟨rfl, rfl⟩ := hoff
    exact Axis.limit_range (axis_sound h d') hvis _

/-- The step of a bar. -/
theorem step_bar {o : Int} (hoff : s.offsetOf env action = some (d, o)) :
    step env s action =
      if (s.axis d).visible && decide (0 < (s.axis d).trackSize) then
        some (s.setAxis d ((s.axis d).scrollTo o))
      else none := by
  cases action with
  | layout => cases hoff
  | resize => cases hoff
  | scrollContentsRegionToBeVisible => cases hoff
  | scrollByAmount | scrollByContentsOffset | scrollToThumbPosition => simp only [step, hoff, Option.bind_some]

theorem bar_kept (h : s.Sound) (hagrees : s.Agrees) {o : Int}
    (hoff : s.offsetOf env action = some (d, o)) :
    Kept env s action ↔ ((s.axis d).visible = true → 0 < (s.axis d).trackSize →
      (s.axis d).Fits o) := by
  have hstep := step_bar hoff
  have hafter : (s.axis d).visible = true →
      ((s.setAxis d ((s.axis d).scrollTo o)).Agrees ↔ (s.axis d).Fits o) := by
    intro hvis
    obtain ⟨hlow, hhigh⟩ := offsetOf_range h hagrees hoff hvis
    rw [setAxis_agrees hagrees]
    exact Axis.scrollTo_agrees (axis_sound h d) hvis hlow hhigh
  constructor
  · intro hkept hvis htrack
    refine (hafter hvis).mp (hkept _ ?_).1
    rw [hstep, hvis, decide_eq_true htrack]
    rfl
  · intro hfits s' hs'
    rw [hstep] at hs'
    split_ifs at hs' with hallow
    cases hs'
    simp only [and_eq_true, decide_eq_true_eq] at hallow
    obtain ⟨hvis, htrack⟩ := hallow
    refine ⟨(hafter hvis).mpr (hfits hvis htrack), ?_⟩
    rintro rect rfl
    cases hoff

/-! ## Steps and runs -/

theorem step_sound (h : s.Sound) (hagrees : s.Agrees) (hstep : step env s action = some s') :
    s'.Sound := by
  have hbar : ∀ d o, s.offsetOf env action = some (d, o) → s'.Sound := by
    intro d o hoff
    rw [step_bar hoff] at hstep
    split_ifs at hstep with hallow
    cases hstep
    simp only [and_eq_true, decide_eq_true_eq] at hallow
    obtain ⟨hlow, hhigh⟩ := offsetOf_range h hagrees hoff hallow.1
    exact setAxis_sound h (Axis.scrollTo_sound (axis_sound h d) hallow.1 hlow hhigh)
  cases action with
  | layout bounds | resize width height =>
    cases hstep
    exact layout_sound env _
  | scrollContentsRegionToBeVisible rect =>
    cases hstep
    exact region_sound h rect
  | scrollByAmount => exact hbar _ _ rfl
  | scrollByContentsOffset => exact hbar _ _ rfl
  | scrollToThumbPosition => exact hbar _ _ rfl

/-- An operation brings about what it is to exactly when it meets the condition. -/
theorem kept_iff_meets (h : s.Sound) (hagrees : s.Agrees) (action : Action) :
    Kept env s action ↔ Meets env s action := by
  have hbar : ∀ d o, s.offsetOf env action = some (d, o) →
      (Kept env s action ↔ ∀ d offset, s.offsetOf env action = some (d, offset) →
        (s.axis d).visible = true → 0 < (s.axis d).trackSize → (s.axis d).Fits offset) := by
    intro d o hoff
    rw [bar_kept h hagrees hoff]
    constructor
    · intro hfits d' o' hoff'
      cases hoff.symm.trans hoff'
      exact hfits
    · exact fun hfits => hfits d o hoff
  cases action with
  | layout bounds | resize width height =>
    rw [Kept, Meets, ← layout_agrees]
    constructor
    · exact fun hkept => (hkept _ rfl).1
    · rintro hafter s' hs'
      cases hs'
      exact ⟨hafter, nofun⟩
  | scrollContentsRegionToBeVisible rect =>
    rw [Kept, Meets, ← @region_agrees env s h hagrees rect]
    constructor
    · exact fun hkept => ⟨(hkept _ rfl).1, (hkept _ rfl).2 rect rfl⟩
    · rintro ⟨hafter, hshows⟩ s' hs'
      cases hs'
      refine ⟨hafter, ?_⟩
      rintro rect' hrect
      cases hrect
      exact hshows
  | scrollByAmount => exact hbar _ _ rfl
  | scrollByContentsOffset => exact hbar _ _ rfl
  | scrollToThumbPosition => exact hbar _ _ rfl

theorem create_sound (env : Surroundings) (bounds : Bounds) (width height : Nat) :
    (create env bounds width height).Sound := layout_sound env _

theorem settled_origin {a : Axis} (horigin : a.origin = 0) (hoff : a.contentsScrollOffset = 0) :
    a.Settled := by
  intro _
  rw [horigin, hoff]
  refine ⟨?_, Or.inl rfl⟩
  unfold Axis.checkScrollBounds at *
  dsimp only at *
  split_ifs at * <;> omega

theorem create_agrees (env : Surroundings) (bounds : Bounds) (width height : Nat) :
    (create env bounds width height).Agrees :=
  layout_agrees.mpr ⟨settled_origin rfl rfl, settled_origin rfl rfl⟩

/-- Bars of ten pixels, buttons of ten pixels at both ends, and a small thumb. -/
def plainSurroundings : Surroundings where
  scrollBarWidth := 10
  scrollBarHeight := 10
  trackSize := fun _ length => (length - 20).toNat
  thumbSize := fun _ _ _ _ => 10
  pageScrollIncrement := fun _ _ => 0
  lineScrollIncrement := fun _ _ => 0

end ChromiumUI.Views.ScrollView
