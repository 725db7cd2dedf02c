import Mathlib.Tactic.Common
import Mathlib

/-!
# Touch events and gesture points

The positions and times of a finger, as a gesture sequence keeps them. Whatever the code
computes in floating point, or compares with a value of GestureConfiguration, is a field of
`Measures`.
-/
namespace ChromiumUI.Gestures

structure Point where
  x : Int
  y : Int
  deriving DecidableEq, Repr

inductive EventType where
  | touchReleased
  | touchPressed
  | touchMoved
  | touchStationary
  | touchCancelled
  deriving DecidableEq, Repr

/-- A touch; the timestamp counts microseconds. -/
structure TouchEvent where
  type : EventType
  location : Point
  touchId : Nat
  timestamp : Int
  deriving DecidableEq, Repr

/-- The touch ends the contact of its finger. -/
def TouchEvent.Lifts (event : TouchEvent) : Prop :=
  event.type = .touchReleased ∨ event.type = .touchCancelled

instance (event : TouchEvent) : Decidable event.Lifts :=
  inferInstanceAs (Decidable (_ ∨ _))

/-- A position with its time in the velocity calculator's buffer. -/
structure Sample where
  position : Point
  time : Int
  deriving DecidableEq, Repr

structure Rect where
  x : Int
  y : Int
  width : Int
  height : Int
  deriving DecidableEq, Repr

def Rect.centerPoint (rect : Rect) : Point :=
  ⟨rect.x + (rect.width - 1).tdiv 2, rect.y + (rect.height - 1).tdiv 2⟩

/-- What is computed in floating point, with the values of GestureConfiguration. -/
structure Measures (F : Type) where
  pointsBufferedForVelocity : Nat
  xVelocity : List Sample → F
  yVelocity : List Sample → F
  isInClickTimeWindow : (lastTouchTime firstTouchTime : Int) → Bool
  isInSecondClickTimeWindow : (lastTouchTime lastTapTime : Int) → Bool
  isTouchMoveForClick : (manhattanDistance : Int) → Bool
  hasEnoughDataToEstablishRail : (dx dy : Int) → Bool
  isInHorizontalRailWindow : (dx dy : Int) → Bool
  isInVerticalRailWindow : (dx dy : Int) → Bool
  breaksHorizontalRail : (vx vy : F) → Bool
  breaksVerticalRail : (vx vy : F) → Bool
  isOverMinFlickSpeed : (vx vy : F) → Bool
  isTwoFingerTapDistance : (distanceSquared : Int) → Bool
  maxTouchDownDurationForClick : Int
  boundingBoxDiagonal : Rect → F
  isPinchUpdateDistance : (distance current : F) → Bool
  isSwipe : (velocities : List (F × F)) → (pointCount : Int) → Bool

structure GesturePoint where
  firstTouchPosition : Point
  firstTouchTime : Int
  lastTouchPosition : Point
  lastTouchTime : Int
  lastTapTime : Int
  lastTapPosition : Point
  samples : List Sample
  pointId : Int
  touchId : Int
  deriving DecidableEq, Repr

namespace GesturePoint

def new : GesturePoint := ⟨⟨0, 0⟩, 0, ⟨0, 0⟩, 0, 0, ⟨0, 0⟩, [], -1, -1⟩

section

variable (point : GesturePoint)

def inUse : Bool := point.pointId ≥ 0

def reset : GesturePoint :=
  { point with firstTouchTime := 0, lastTouchTime := 0, samples := [], pointId := -1 }

def resetVelocity : GesturePoint := { point with samples := [] }

/-- UpdateForTap: the tap position and time. -/
def updateForTap : GesturePoint :=
  { point with
    lastTapTime := point.lastTouchTime
    lastTapPosition := point.lastTouchPosition }

/-- UpdateForScroll: the next scroll delta counts from here. -/
def updateForScroll : GesturePoint :=
  { point with
    firstTouchPosition := point.lastTouchPosition
    firstTouchTime := point.lastTouchTime }

def xDelta : Int := point.lastTouchPosition.x - point.firstTouchPosition.x

def yDelta : Int := point.lastTouchPosition.y - point.firstTouchPosition.y

def didScroll (dist : Int) : Bool :=
  decide ((point.xDelta.natAbs : Int) > dist) || decide ((point.yDelta.natAbs : Int) > dist)

end

variable {F : Type} (m : Measures F)

section

variable (point : GesturePoint)

/-- PointSeen drops the oldest sample of a full buffer. -/
def pointSeen (event : TouchEvent) : GesturePoint :=
  { point with
    samples := (⟨event.location, event.timestamp⟩ :: point.samples).take
      m.pointsBufferedForVelocity }

def updateValues (event : TouchEvent) : GesturePoint :=
  let point := if event.type = .touchMoved then point.pointSeen m event else point
  let point :=
    { point with lastTouchTime := event.timestamp, lastTouchPosition := event.location }
  if event.type = .touchPressed then
    { point with
      firstTouchTime := point.lastTouchTime
      firstTouchPosition := event.location
      samples := [] }.pointSeen m event
  else point

def xVelocity : F := m.xVelocity point.samples

def yVelocity : F := m.yVelocity point.samples

end

def manhattanDistance (location from' : Point) : Int :=
  (location.x - from'.x).natAbs + (location.y - from'.y).natAbs

section

variable (point : GesturePoint)

variable (event : TouchEvent)

def isInsideManhattanSquare : Bool :=
  m.isTouchMoveForClick (manhattanDistance event.location point.firstTouchPosition)

def isSecondClickInsideManhattanSquare : Bool :=
  m.isTouchMoveForClick (manhattanDistance event.location point.lastTapPosition)

def isInClickWindow : Bool :=
  m.isInClickTimeWindow point.lastTouchTime point.firstTouchTime &&
    point.isInsideManhattanSquare m event

def isInDoubleClickWindow : Bool :=
  m.isInSecondClickTimeWindow point.lastTouchTime point.lastTapTime &&
    point.isSecondClickInsideManhattanSquare m event

def isInScrollWindow : Bool :=
  event.type = .touchMoved && !point.isInsideManhattanSquare m event

def isInFlickWindow : Bool :=
  m.isOverMinFlickSpeed (point.xVelocity m) (point.yVelocity m) &&
    event.type ≠ .touchCancelled

def hasEnoughDataToEstablishRail : Bool :=
  m.hasEnoughDataToEstablishRail point.xDelta point.yDelta

def isInHorizontalRailWindow : Bool :=
  m.isInHorizontalRailWindow point.xDelta point.yDelta

def isInVerticalRailWindow : Bool :=
  m.isInVerticalRailWindow point.xDelta point.yDelta

def breaksHorizontalRail : Bool :=
  m.breaksHorizontalRail (point.xVelocity m) (point.yVelocity m)

def breaksVerticalRail : Bool :=
  m.breaksVerticalRail (point.xVelocity m) (point.yVelocity m)

end

/-! ## What keeps the ids -/

@[simp] theorem pointId_reset (point : GesturePoint) : point.reset.pointId = -1 := rfl

@[simp] theorem pointId_updateValues (point : GesturePoint) (event : TouchEvent) :
    (point.updateValues m event).pointId = point.pointId := by
  unfold updateValues
  split <;> split <;> rfl

@[simp] theorem touchId_updateValues (point : GesturePoint) (event : TouchEvent) :
    (point.updateValues m event).touchId = point.touchId := by
  unfold updateValues
  split <;> split <;> rfl

end GesturePoint

/-! ## A gesture sequence

`GestureSequence::ProcessTouchEventForGesture` with the transition functions it calls. A
computation that reaches NOTREACHED in `GetPointByPointId` yields `none`. -/

/-- Maximum number of points in a single gesture. -/
abbrev kMaxGesturePoints : Nat := 12

inductive GestureState where
  | noGesture
  | pendingSyntheticClick
  | scroll
  | pinch
  | pendingTwoFingerTap
  deriving DecidableEq, Repr

inductive ScrollType where
  | free
  | horizontal
  | vertical
  deriving DecidableEq, Repr

inductive GestureEventType where
  | scrollBegin
  | scrollEnd
  | scrollUpdate
  | tap
  | tapDown
  | gestureBegin
  | gestureEnd
  | doubleTap
  | twoFingerTap
  | pinchBegin
  | pinchEnd
  | pinchUpdate
  | longPress
  | multifingerSwipe
  | scrollFlingStart
  deriving DecidableEq, Repr

/-- A gesture with the bit field of the touch ids that take part in it. -/
structure GestureEvent where
  type : GestureEventType
  touchIds : Nat
  deriving DecidableEq, Repr

inductive TouchStatus where
  | unknown
  | start
  | «continue»
  | «end»
  | synthMouse
  | queued
  | queuedEnd
  deriving DecidableEq, Repr

abbrev Slot := Fin kMaxGesturePoints

structure GestureSequence (F : Type) where
  state : GestureState
  boundingBox : Rect
  boundingBoxLastCenter : Point
  pinchDistanceStart : F
  pinchDistanceCurrent : F
  secondTouchTime : Int
  scrollType : ScrollType
  longPressTimerRunning : Bool
  points : Slot → GesturePoint
  pointCount : Int

namespace GestureSequence

variable {F : Type}

def new [Zero F] : GestureSequence F where
  state := .noGesture
  boundingBox := ⟨0, 0, 0, 0⟩
  boundingBoxLastCenter := ⟨0, 0⟩
  pinchDistanceStart := 0
  pinchDistanceCurrent := 0
  secondTouchTime := 0
  scrollType := .free
  longPressTimerRunning := false
  points := fun _ => .new
  pointCount := 0

section

variable (s : GestureSequence F)

def modifyPoint (i : Slot) (f : GesturePoint → GesturePoint) :
    GestureSequence F :=
  { s with points := fun j => if j = i then f (s.points j) else s.points j }

def reset : GestureSequence F :=
  { s with
    state := .noGesture
    points := fun i => (s.points i).reset
    pointCount := 0 }

def pointsInUse : List GesturePoint :=
  ((List.finRange kMaxGesturePoints).map s.points).filter GesturePoint.inUse

def computeTouchBitmask : Nat :=
  s.pointsInUse.foldl (fun mask point => mask ||| 1 <<< point.touchId.toNat) 0

def recreateBoundingBox : GestureSequence F :=
  let left := s.pointsInUse.foldl (fun v point => min v point.lastTouchPosition.x) (2 ^ 31 - 1)
  let top := s.pointsInUse.foldl (fun v point => min v point.lastTouchPosition.y) (2 ^ 31 - 1)
  let right := s.pointsInUse.foldl (fun v point => max v point.lastTouchPosition.x) (-2 ^ 31)
  let bottom := s.pointsInUse.foldl (fun v point => max v point.lastTouchPosition.y) (-2 ^ 31)
  { s with
    boundingBoxLastCenter := s.boundingBox.centerPoint
    boundingBox := ⟨left, top, max ((right - left).bmod (2 ^ 32)) 0,
      max ((bottom - top).bmod (2 ^ 32)) 0⟩ }

def resetVelocities : GestureSequence F :=
  { s with points := fun i => if (s.points i).inUse then (s.points i).resetVelocity
      else s.points i }

def getPointByPointId (pointId : Int) : Option Slot :=
  (List.finRange kMaxGesturePoints).find? fun i =>
    (s.points i).inUse && (s.points i).pointId == pointId

/-- The bit of the finger in a bit field of touch ids. -/
def touchBit (i : Slot) : Nat := 1 <<< (s.points i).touchId.toNat

end

/-! ## Gesture events -/

variable [Zero F] [DecidableEq F] (m : Measures F)

/-- AppendScrollGestureEnd: a fling follows unless the railed velocity is zero. -/
def scrollGestureEnd (s : GestureSequence F) (i : Slot) (xVelocity yVelocity : F) :
    List GestureEvent :=
  let railedXVelocity := if s.scrollType = .vertical then 0 else xVelocity
  let railedYVelocity := if s.scrollType = .horizontal then 0 else yVelocity
  ⟨.scrollEnd, s.touchBit i⟩ ::
    if railedXVelocity ≠ 0 ∨ railedYVelocity ≠ 0 then [⟨.scrollFlingStart, s.touchBit i⟩] else []

/-- AppendScrollGestureUpdate -/
def scrollGestureUpdate (s : GestureSequence F) (location : Point) : List GestureEvent :=
  let dx := location.x - s.boundingBoxLastCenter.x
  let dy := location.y - s.boundingBoxLastCenter.y
  if dx = 0 ∧ dy = 0 then [] else [⟨.scrollUpdate, s.computeTouchBitmask⟩]

/-! ## Transition functions -/

/-- The new state and the gestures recognized. -/
abbrev Recognized (F : Type) := GestureSequence F × List GestureEvent

section

variable (s : GestureSequence F)

def touchDown (i : Slot) : Option (Recognized F) :=
  some ({ s with longPressTimerRunning := true, state := .pendingSyntheticClick },
    [⟨.tapDown, s.touchBit i⟩])

variable (event : TouchEvent)

def click (i : Slot) : Option (Recognized F) :=
  if (s.points i).isInClickWindow m event then
    some ({ s.modifyPoint i .updateForTap with state := .noGesture },
      ⟨.tap, s.touchBit i⟩ ::
        if (s.points i).isInDoubleClickWindow m event then [⟨.doubleTap, s.touchBit i⟩] else [])
  else some ({ s with state := .noGesture }, [])

/-- ScrollUpdate, with UpdateForScroll when it succeeds. -/
def scrollUpdate (i : Slot) : GestureSequence F × List GestureEvent :=
  if (s.points i).didScroll 0 then
    (s.modifyPoint i .updateForScroll, s.scrollGestureUpdate (s.points i).lastTouchPosition)
  else (s, [])

def scrollStart (i : Slot) : Option (Recognized F) :=
  let point := s.points i
  if point.isInClickWindow m event || !point.isInScrollWindow m event ||
      !point.hasEnoughDataToEstablishRail m then some (s, [])
  else
    let scrollType :=
      if point.isInHorizontalRailWindow m then .horizontal
      else if point.isInVerticalRailWindow m then .vertical
      else .free
    let r := scrollUpdate { s with scrollType := scrollType, state := .scroll } i
    some (r.1, ⟨.scrollBegin, s.touchBit i⟩ :: r.2)

def breakRailScroll (i : Slot) : GestureSequence F :=
  if s.scrollType = .horizontal ∧ (s.points i).breaksHorizontalRail m then
    { s with scrollType := .free }
  else if s.scrollType = .vertical ∧ (s.points i).breaksVerticalRail m then
    { s with scrollType := .free }
  else s

def scrollMove (i : Slot) : Option (Recognized F) :=
  some (scrollUpdate (if s.scrollType = .vertical ∨ s.scrollType = .horizontal then
    s.breakRailScroll m i else s) i)

def scrollEnd (i : Slot) : Option (Recognized F) :=
  let gestures :=
    if (s.points i).isInFlickWindow m event then
      s.scrollGestureEnd i ((s.points i).xVelocity m) ((s.points i).yVelocity m)
    else s.scrollGestureEnd i 0 0
  some ({ s with state := .noGesture }, gestures)

def isSecondTouchDownCloseEnoughForTwoFingerTap : Option Bool := do
  let i₁ ← s.getPointByPointId 0
  let i₂ ← s.getPointByPointId 1
  let p₁ := (s.points i₁).lastTouchPosition
  let p₂ := (s.points i₂).lastTouchPosition
  return m.isTwoFingerTapDistance
    ((p₁.x - p₂.x) * (p₁.x - p₂.x) + (p₁.y - p₂.y) * (p₁.y - p₂.y))

def twoFingerTouchDown (i : Slot) :
    Option (Recognized F) :=
  some ({ s with secondTouchTime := event.timestamp, state := .pendingTwoFingerTap },
    if s.state = .scroll then s.scrollGestureEnd i 0 0 else [])

def pinchStart (i : Slot) : Option (Recognized F) := do
  let i₁ ← s.getPointByPointId 0
  let i₂ ← s.getPointByPointId 1
  let distance := m.boundingBoxDiagonal s.boundingBox
  return ({ s with
      scrollType := .free
      pinchDistanceCurrent := distance
      pinchDistanceStart := distance
      state := .pinch },
    ⟨.pinchBegin, s.touchBit i₁ ||| s.touchBit i₂⟩ ::
      if s.state = .pendingSyntheticClick ∨ s.state = .pendingTwoFingerTap then
        [⟨.scrollBegin, s.touchBit i⟩] else [])

/-- The second finger comes down. -/
def secondTouchDown (i : Slot) :
    Option (Recognized F) := do
  let close ← s.isSecondTouchDownCloseEnoughForTwoFingerTap m
  if close then s.twoFingerTouchDown event i else s.pinchStart m i

def twoFingerTouchReleased (i : Slot) :
    Option (Recognized F) :=
  if event.timestamp - s.secondTouchTime < m.maxTouchDownDurationForClick ∧
      (s.points i).isInsideManhattanSquare m event then do
    let i₀ ← s.getPointByPointId 0
    return ({ s with state := .scroll }, [⟨.twoFingerTap, s.touchBit i₀⟩])
  else some ({ s with state := .scroll }, [])

def twoFingerTouchMove (i : Slot) :
    Option (Recognized F) :=
  if event.timestamp - s.secondTouchTime > m.maxTouchDownDurationForClick ∨
      ¬(s.points i).isInsideManhattanSquare m event then s.pinchStart m i
  else some (s, [])

def twoFingerCancelled : Option (Recognized F) :=
  some ({ s with scrollType := .free, state := .scroll }, [])

end

/-- UpdateForScroll of the points with the given ids. -/
def updatePointsForScroll : List Nat → GestureSequence F → Option (GestureSequence F)
  | [], s => some s
  | k :: ks, s => do
    let i ← s.getPointByPointId k
    updatePointsForScroll ks (s.modifyPoint i .updateForScroll)

section

variable (s : GestureSequence F)

def pinchUpdate : GestureSequence F × List GestureEvent :=
  let distance := m.boundingBoxDiagonal s.boundingBox
  if m.isPinchUpdateDistance distance s.pinchDistanceCurrent then
    ({ s with pinchDistanceCurrent := distance }, [⟨.pinchUpdate, s.computeTouchBitmask⟩])
  else (s, s.scrollGestureUpdate s.boundingBox.centerPoint)

def pinchMove : Option (Recognized F) := do
  let r := s.pinchUpdate m
  let s' ← updatePointsForScroll (List.range s.pointCount.toNat) r.1
  return (s', r.2)

def pinchEnd : Option (Recognized F) := do
  let i₁ ← s.getPointByPointId 0
  let i₂ ← s.getPointByPointId 1
  return ({ s with pinchDistanceStart := 0, pinchDistanceCurrent := 0, state := .scroll },
    [⟨.pinchEnd, s.touchBit i₁ ||| s.touchBit i₂⟩])

/-- MaybeSwipe -/
def maybeSwipe : List GestureEvent :=
  if m.isSwipe (s.pointsInUse.map fun point => (point.xVelocity m, point.yVelocity m))
      s.pointCount then [⟨.multifingerSwipe, s.computeTouchBitmask⟩] else []

def pinchLift : Option (Recognized F) := do
  let r ← if s.pointCount = 2 then s.pinchEnd else some (s, s.maybeSwipe m)
  return (r.1.resetVelocities, r.2)

def pinchTouchDown : Option (Recognized F) :=
  let distance := m.boundingBoxDiagonal s.boundingBox
  some ({ s with pinchDistanceCurrent := distance, pinchDistanceStart := distance }, [])

/-- The switch over the signature of state, point id and touch. -/
def transition (pointId : Nat) (event : TouchEvent) (i : Slot) :
    Option (Recognized F) :=
  match s.state, pointId, event.type with
  | .noGesture, 0, .touchPressed => s.touchDown i
  | .pendingSyntheticClick, 0, .touchReleased => s.click m event i
  | .pendingSyntheticClick, 0, .touchMoved
  | .pendingSyntheticClick, 0, .touchStationary => s.scrollStart m event i
  | .pendingSyntheticClick, 0, .touchCancelled => some (s.reset, [])
  | .scroll, 0, .touchMoved => s.scrollMove m i
  | .scroll, 0, .touchReleased
  | .scroll, 0, .touchCancelled => s.scrollEnd m event i
  | .scroll, 1, .touchPressed
  | .pendingSyntheticClick, 1, .touchPressed => s.secondTouchDown m event i
  | .pendingTwoFingerTap, 0, .touchReleased
  | .pendingTwoFingerTap, 1, .touchReleased => s.twoFingerTouchReleased m event i
  | .pendingTwoFingerTap, 0, .touchMoved
  | .pendingTwoFingerTap, 1, .touchMoved => s.twoFingerTouchMove m event i
  | .pendingTwoFingerTap, 0, .touchCancelled
  | .pendingTwoFingerTap, 1, .touchCancelled => s.twoFingerCancelled
  | .pendingTwoFingerTap, 2, .touchPressed => s.pinchStart m i
  | .pinch, k, .touchMoved => if k < 5 then s.pinchMove m else some (s, [])
  | .pinch, k, .touchReleased
  | .pinch, k, .touchCancelled => if k < 5 then s.pinchLift m else some (s, [])
  | .pinch, k, .touchPressed => if 2 ≤ k ∧ k < 5 then s.pinchTouchDown m else some (s, [])
  | _, _, _ => some (s, [])

/-! ## ProcessTouchEventForGesture -/

/-- A pressed finger takes the next point id. -/
def addPoint (i : Slot) : GestureSequence F :=
  { s.modifyPoint i (fun point => { point with pointId := s.pointCount, touchId := i }) with
    pointCount := s.pointCount + 1 }

/-- UpdateValues of the finger's point, with RecreateBoundingBox. -/
def updatePoint (event : TouchEvent) (i : Slot) : GestureSequence F :=
  (s.modifyPoint i fun point => point.updateValues m event).recreateBoundingBox

/-- The points behind a lifted one move up. -/
def closeGap (pointId : Int) : GestureSequence F :=
  { s with points := fun j =>
      if (s.points j).pointId > pointId then
        { s.points j with pointId := (s.points j).pointId - 1 } else s.points j }

def removePoint (i : Slot) : GestureSequence F :=
  let s' := s.closeGap (s.points i).pointId
  if (s'.points i).inUse then
    let s' :=
      { s'.modifyPoint i .reset with pointCount := s'.pointCount - 1 }.recreateBoundingBox
    if s'.state = .pinch then
      let distance := m.boundingBoxDiagonal s'.boundingBox
      { s' with pinchDistanceCurrent := distance, pinchDistanceStart := distance }
    else s'
  else s'

/-- The timer stops when the pending click is decided. -/
def stopLongPressTimer (lastState : GestureState) : GestureSequence F :=
  if lastState = .pendingSyntheticClick ∧ s.state ≠ lastState then
    { s with longPressTimerRunning := false } else s

/-- The events are `none` where the code returns NULL. -/
def processTouchEventForGesture (event : TouchEvent)
    (status : TouchStatus) : Option (GestureSequence F × Option (List GestureEvent)) :=
  if status ≠ .unknown then some (s, none)
  else if h : event.touchId < kMaxGesturePoints then
    let i : Slot := ⟨event.touchId, h⟩
    if event.type = .touchPressed ∧ s.pointCount = kMaxGesturePoints then some (s, none)
    else
      let s₁ := if event.type = .touchPressed then s.addPoint i else s
      let s₂ := s₁.updatePoint m event i
      let pointId := (s₂.points i).pointId
      if pointId < 0 then some (s₂, none)
      else do
        let r ← s₂.transition m pointId.toNat event i
        let begins :=
          if event.type = .touchPressed then [⟨.gestureBegin, s₂.touchBit i⟩] else []
        let ends := if event.Lifts then [⟨.gestureEnd, r.1.touchBit i⟩] else []
        let s₃ := r.1.stopLongPressTimer s.state
        return (if event.Lifts then s₃.removePoint m i else s₃, some (begins ++ r.2 ++ ends))
  else some (s, none)

/-- AppendLongPressGestureEvent, when the timer fires. -/
def appendLongPressGestureEvent : Option (Recognized F) := do
  let i ← s.getPointByPointId 0
  return ({ s with longPressTimerRunning := false }, [⟨.longPress, s.touchBit i⟩])

end

end GestureSequence

end ChromiumUI.Gestures
