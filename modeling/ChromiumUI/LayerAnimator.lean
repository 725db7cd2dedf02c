import Mathlib.Data.Finset.Card

/-!
# The layer animator

`LayerAnimator` with its queue and its running animations. What a sequence does to the layer as
it progresses is left out; a sequence is its address, its properties and its duration.
-/
namespace ChromiumUI.Compositor

inductive AnimatableProperty where
  | transform
  | bounds
  | opacity
  | visibility
  deriving DecidableEq, Repr

abbrev AnimatableProperties := Finset AnimatableProperty

structure LayerAnimationSequence where
  id : Nat
  properties : AnimatableProperties
  duration : Int
  isCyclic : Bool
  deriving DecidableEq

def LayerAnimationSequence.hasCommonProperty (sequence : LayerAnimationSequence)
    (other : AnimatableProperties) : Bool :=
  (sequence.properties ∩ other).card > 0

structure RunningAnimation where
  sequence : LayerAnimationSequence
  startTime : Int
  deriving DecidableEq

inductive PreemptionStrategy where
  | immediatelySetNewTarget
  | immediatelyAnimateToNewTarget
  | enqueueNewAnimation
  | replaceQueuedAnimations
  | blendWithCurrentAnimation
  deriving DecidableEq, Repr

/-- The animator; `nextId` is the address of the next sequence to be allocated. -/
structure LayerAnimator where
  animationQueue : List LayerAnimationSequence
  runningAnimations : List RunningAnimation
  preemptionStrategy : PreemptionStrategy
  lastStepTime : Int
  isStarted : Bool
  nextId : Nat

namespace LayerAnimator

def new : LayerAnimator := ⟨[], [], .immediatelySetNewTarget, 0, false, 0⟩

section

variable (s : LayerAnimator)

def isAnimating : Bool := !s.animationQueue.isEmpty

def hasAnimation (sequence : LayerAnimationSequence) : Bool :=
  s.animationQueue.any fun queued => queued.id == sequence.id

def updateAnimationState : LayerAnimator :=
  { s with isStarted := s.isAnimating }

/-- RemoveAnimation, from the running animations and from the queue. -/
def removeAnimation (sequence : LayerAnimationSequence) : LayerAnimator :=
  { s with
    runningAnimations := s.runningAnimations.eraseP fun running =>
      running.sequence.id == sequence.id
    animationQueue := s.animationQueue.eraseP fun queued => queued.id == sequence.id }

def addToQueueIfNotPresent (animation : LayerAnimationSequence) :
    LayerAnimator :=
  if s.hasAnimation animation then s
  else { s with animationQueue := animation :: s.animationQueue }

def getRunningAnimation (property : AnimatableProperty) :
    Option RunningAnimation :=
  s.runningAnimations.find? fun running => property ∈ running.sequence.properties

end

/-! ## Stepping and starting, around a given ProcessQueue -/

section
variable (processQueue : LayerAnimator → Option LayerAnimator)

def finishAnimation (s : LayerAnimator) (sequence : LayerAnimationSequence) :
    Option LayerAnimator := do
  let s ← processQueue (s.removeAnimation sequence)
  return s.updateAnimationState

/-- The loop of Step over the copy of the running animations. -/
def stepRunning (now : Int) : List RunningAnimation → LayerAnimator → Option LayerAnimator
  | [], s => some s
  | running :: copy, s =>
    if !s.hasAnimation running.sequence then stepRunning now copy s
    else if now - running.startTime ≥ running.sequence.duration ∧ !running.sequence.isCyclic then
      (s.finishAnimation processQueue running.sequence).bind (stepRunning now copy)
    else stepRunning now copy s

def step (now : Int) (s : LayerAnimator) : Option LayerAnimator :=
  stepRunning processQueue now s.runningAnimations { s with lastStepTime := now }

/-- `now` is what TimeTicks::Now would say; the flag tells whether the sequence was started. -/
def startSequenceImmediately (now : Int) (s : LayerAnimator)
    (sequence : LayerAnimationSequence) : Option (LayerAnimator × Bool) :=
  if s.runningAnimations.any fun running =>
      running.sequence.hasCommonProperty sequence.properties then some (s, false)
  else do
    let startTime := if s.isAnimating then s.lastStepTime else now
    let running : RunningAnimation := ⟨sequence, startTime⟩
    let s' := { s with runningAnimations := s.runningAnimations ++ [running] }
    let s' ← (s'.addToQueueIfNotPresent sequence).step processQueue startTime
    return (s', true)

end

/-! ## ProcessQueue -/

def animatedProperties (running : List RunningAnimation) : AnimatableProperties :=
  running.foldr (fun running animated => running.sequence.properties ∪ animated) ∅

/-- The first sequence that conflicts neither with what is animated nor with one before it. -/
def findStartable (animated : AnimatableProperties) :
    List LayerAnimationSequence → Option LayerAnimationSequence
  | [] => none
  | sequence :: sequences =>
    if !sequence.hasCommonProperty animated then some sequence
    else findStartable (animated ∪ sequence.properties) sequences

/-- ProcessQueue, with at most so many turns of its loop and calls of itself in one another. -/
def processQueueWithin : Nat → LayerAnimator → Option LayerAnimator
  | 0, _ => none
  | fuel + 1, s =>
    match findStartable (animatedProperties s.runningAnimations) s.animationQueue with
    | none => some s
    | some sequence => do
      -- Something is queued, so the time is not read here.
      let result ← s.startSequenceImmediately (processQueueWithin fuel) s.lastStepTime sequence
      processQueueWithin fuel result.1

variable (s : LayerAnimator)

/-- Every turn starts a queued sequence or removes it. -/
def processQueue : Option LayerAnimator :=
  processQueueWithin (2 * s.animationQueue.length + 1) s

/-! ## Preemption -/

/-- RemoveAllAnimationsWithACommonProperty, of a copy of the sequences. -/
def removeCommon (properties : AnimatableProperties) :
    List LayerAnimationSequence → LayerAnimator → LayerAnimator
  | [], s => s
  | sequence :: copy, s =>
    removeCommon properties copy
      (if s.hasAnimation sequence ∧ sequence.hasCommonProperty properties then
        s.removeAnimation sequence else s)

variable (sequence : LayerAnimationSequence)

def removeAllAnimationsWithACommonProperty : LayerAnimator :=
  let s' := removeCommon sequence.properties
    (s.runningAnimations.map RunningAnimation.sequence) s
  removeCommon sequence.properties s'.animationQueue s'

def immediatelySetNewTarget :
    LayerAnimator :=
  (s.removeAllAnimationsWithACommonProperty sequence).removeAnimation sequence

def immediatelyAnimateToNewTarget (now : Int) (s : LayerAnimator)
    (sequence : LayerAnimationSequence) : Option LayerAnimator := do
  let s' := (s.removeAllAnimationsWithACommonProperty sequence).addToQueueIfNotPresent sequence
  let result ← s'.startSequenceImmediately processQueue now sequence
  return result.1

def pushBack : LayerAnimator :=
  { s with animationQueue := s.animationQueue ++ [sequence] }

def enqueueNewAnimation :
    Option LayerAnimator :=
  (s.pushBack sequence).processQueue

/-- The queued sequences that are not running are deleted. -/
def removeUnstarted : List LayerAnimationSequence → LayerAnimator → LayerAnimator
  | [], s => s
  | sequence :: queue, s =>
    removeUnstarted queue
      (if s.runningAnimations.any fun running => running.sequence.id == sequence.id then s
        else s.removeAnimation sequence)

def replaceQueuedAnimations :
    Option LayerAnimator :=
  ((removeUnstarted s.animationQueue s).pushBack sequence).processQueue

/-- Running animations of no duration are removed, cyclic ones too. -/
def removeZeroDuration : List RunningAnimation → LayerAnimator → LayerAnimator
  | [], s => s
  | running :: copy, s =>
    removeZeroDuration copy
      (if s.hasAnimation running.sequence ∧ running.sequence.duration = 0 then
        s.removeAnimation running.sequence else s)

def finishAnyAnimationWithZeroDuration : Option LayerAnimator := do
  let s' ← (removeZeroDuration s.runningAnimations s).processQueue
  return s'.updateAnimationState

/-! ## The public operations -/

/-- A sequence that a client makes; it animates something. -/
structure NewSequence where
  properties : AnimatableProperties
  duration : Int
  isCyclic : Bool
  nonempty : properties.Nonempty

/-- The address of a new sequence is one that no sequence has had. -/
def allocate (properties : AnimatableProperties) (duration : Int)
    (isCyclic : Bool) : LayerAnimationSequence × LayerAnimator :=
  (⟨s.nextId, properties, duration, isCyclic⟩, { s with nextId := s.nextId + 1 })

def startAnimation (now : Int) (s : LayerAnimator) (animation : LayerAnimationSequence) :
    Option LayerAnimator := do
  let result ← s.startSequenceImmediately processQueue now animation
  let s' ←
    if result.2 then some result.1
    else match result.1.preemptionStrategy with
      | .immediatelySetNewTarget => some (result.1.immediatelySetNewTarget animation)
      | .immediatelyAnimateToNewTarget => result.1.immediatelyAnimateToNewTarget now animation
      | .enqueueNewAnimation => result.1.enqueueNewAnimation animation
      | .replaceQueuedAnimations => result.1.replaceQueuedAnimations animation
      | .blendWithCurrentAnimation => some result.1
  let s'' ← s'.finishAnyAnimationWithZeroDuration
  return s''.updateAnimationState

def scheduleAnimation (now : Int) (s : LayerAnimator) (animation : LayerAnimationSequence) :
    Option LayerAnimator :=
  (if s.isAnimating then (s.pushBack animation).processQueue
    else (s.startSequenceImmediately processQueue now animation).map Prod.fst).map
      updateAnimationState

/-- The sequences of ScheduleTogether, scheduled one after another; `now` is the time at which
one of them is started while nothing is queued. -/
def scheduleEach (now : LayerAnimationSequence → Int) :
    List NewSequence → LayerAnimator → Option LayerAnimator
  | [], s => some s
  | made :: rest, s => do
    let (animation, s') := s.allocate made.properties made.duration made.isCyclic
    let s'' ← s'.scheduleAnimation (now animation) animation
    scheduleEach now rest s''

def unionProperties (animations : List NewSequence) : AnimatableProperties :=
  animations.foldr (fun made animated => made.properties ∪ animated) ∅

/-- A pause of no duration that affects all the animated properties goes first. -/
def scheduleTogether (now : LayerAnimationSequence → Int) (s : LayerAnimator)
    (animations : List NewSequence) : Option LayerAnimator := do
  let (pause, s') := s.allocate (unionProperties animations) 0 false
  let s' ← s'.scheduleAnimation (now pause) pause
  let s' ← scheduleEach now animations s'
  return s'.updateAnimationState

/-- The loop of StopAnimatingProperty, with at most so many turns. -/
def stopPropertyWithin (property : AnimatableProperty) : Nat → LayerAnimator →
    Option LayerAnimator
  | 0, _ => none
  | fuel + 1, s =>
    match s.getRunningAnimation property with
    | none => some s
    | some running =>
      (s.finishAnimation processQueue running.sequence).bind (stopPropertyWithin property fuel)

def stopAnimatingProperty (property : AnimatableProperty) :
    Option LayerAnimator :=
  stopPropertyWithin property (s.animationQueue.length + 1) s

/-- The loop of StopAnimating; `running_animations_[0]` must be there. -/
def stopWithin : Nat → LayerAnimator → Option LayerAnimator
  | 0, _ => none
  | fuel + 1, s =>
    if s.isAnimating then
      match s.runningAnimations with
      | [] => none
      | running :: _ => (s.finishAnimation processQueue running.sequence).bind (stopWithin fuel)
    else some s

def stopAnimating : Option LayerAnimator :=
  stopWithin (s.animationQueue.length + 1) s

/-- The calls of a client and of the animation container. -/
inductive Call where
  | setPreemptionStrategy (strategy : PreemptionStrategy)
  | startAnimation (now : Int) (animation : NewSequence)
  | scheduleAnimation (now : Int) (animation : NewSequence)
  | scheduleTogether (now : LayerAnimationSequence → Int) (animations : List NewSequence)
      (nonempty : animations ≠ [])
  | stopAnimatingProperty (property : AnimatableProperty)
  | stopAnimating
  | step (now : Int)

def call : Call → Option LayerAnimator
  | .setPreemptionStrategy strategy => some { s with preemptionStrategy := strategy }
  | .startAnimation now made =>
    let (animation, s') := s.allocate made.properties made.duration made.isCyclic
    s'.startAnimation now animation
  | .scheduleAnimation now made =>
    let (animation, s') := s.allocate made.properties made.duration made.isCyclic
    s'.scheduleAnimation now animation
  | .scheduleTogether now animations _ => s.scheduleTogether now animations
  | .stopAnimatingProperty property => s.stopAnimatingProperty property
  | .stopAnimating => s.stopAnimating
  | .step now => s.step processQueue now

end LayerAnimator

end ChromiumUI.Compositor
