import ChromiumUI.LayerAnimationElements
import ChromiumUI.LayerAnimatorScheduling

/-!
# The layer animator with the values of its delegate

The operations of the layer animator again, now with all that Progress and Abort do to the
sequences and to the delegate. What they do to the queue and to the running animations is what
LayerAnimator does.
-/
namespace ChromiumUI.Compositor

/-- An animator with its sequences, by their addresses, and its delegate. -/
structure AnimatedLayer (T : Type) extends LayerAnimator where
  sequences : Nat → SequenceState T
  delegate : Values T

namespace AnimatedLayer
variable {T : Type} (A : Arithmetic T)

def new (sequences : Nat → SequenceState T) (delegate : Values T) : AnimatedLayer T :=
  ⟨.new, sequences, delegate⟩

section

variable (s : AnimatedLayer T)

def withAnimator (animator : LayerAnimator) : AnimatedLayer T :=
  { s with toLayerAnimator := animator }

variable (sequence : LayerAnimationSequence)

/-- Progress of a sequence. -/
def progress (elapsed : Int) :
    AnimatedLayer T :=
  let r := (s.sequences sequence.id).progress A sequence.duration elapsed s.delegate
  { s with sequences := Function.update s.sequences sequence.id r.1, delegate := r.2 }

/-- Abort of a sequence. -/
def abort : AnimatedLayer T :=
  { s with sequences :=
      Function.update s.sequences sequence.id (s.sequences sequence.id).abort }

def updateAnimationState : AnimatedLayer T :=
  s.withAnimator s.toLayerAnimator.updateAnimationState

def removeAnimation :
    AnimatedLayer T :=
  s.withAnimator (s.toLayerAnimator.removeAnimation sequence)

def addToQueueIfNotPresent (animation : LayerAnimationSequence) :
    AnimatedLayer T :=
  s.withAnimator (s.toLayerAnimator.addToQueueIfNotPresent animation)

def pushBack : AnimatedLayer T :=
  s.withAnimator (s.toLayerAnimator.pushBack sequence)

/-- GetTargetValue of the animator, from the values of the delegate on. -/
def getTargetValue : Values T :=
  s.animationQueue.foldl
    (fun target queued =>
      if queued.isCyclic then target else (s.sequences queued.id).getTargetValue target)
    s.delegate

def getTargetTransform : T := s.getTargetValue.transform
def getTargetBounds : Rect := s.getTargetValue.bounds
def getTargetOpacity : ℚ := s.getTargetValue.opacity
def getTargetVisibility : Bool := s.getTargetValue.visibility

end

/-! ## Stepping and starting, around a given ProcessQueue -/

section
variable (processQueue : AnimatedLayer T → Option (AnimatedLayer T))

def finishAnimation (s : AnimatedLayer T) (sequence : LayerAnimationSequence) :
    Option (AnimatedLayer T) := do
  let s ← processQueue ((s.removeAnimation sequence).progress A sequence sequence.duration)
  return s.updateAnimationState

/-- The loop of Step over the copy of the running animations. -/
def stepRunning (now : Int) : List RunningAnimation → AnimatedLayer T → Option (AnimatedLayer T)
  | [], s => some s
  | running :: copy, s =>
    if !s.hasAnimation running.sequence then stepRunning now copy s
    else if now - running.startTime ≥ running.sequence.duration ∧ !running.sequence.isCyclic then
      (s.finishAnimation A processQueue running.sequence).bind (stepRunning now copy)
    else stepRunning now copy (s.progress A running.sequence (now - running.startTime))

def step (now : Int) (s : AnimatedLayer T) : Option (AnimatedLayer T) :=
  stepRunning A processQueue now s.runningAnimations
    (s.withAnimator { s.toLayerAnimator with lastStepTime := now })

def startSequenceImmediately (now : Int) (s : AnimatedLayer T)
    (sequence : LayerAnimationSequence) : Option (AnimatedLayer T × Bool) :=
  if s.runningAnimations.any fun running =>
      running.sequence.hasCommonProperty sequence.properties then some (s, false)
  else do
    let startTime := if s.isAnimating then s.lastStepTime else now
    let running : RunningAnimation := ⟨sequence, startTime⟩
    let s' := s.withAnimator
      { s.toLayerAnimator with runningAnimations := s.runningAnimations ++ [running] }
    let s' ← (s'.addToQueueIfNotPresent sequence).step A processQueue startTime
    return (s', true)

end

/-- ProcessQueue, with at most so many turns of its loop and calls of itself in one another. -/
def processQueueWithin : Nat → AnimatedLayer T → Option (AnimatedLayer T)
  | 0, _ => none
  | fuel + 1, s =>
    match LayerAnimator.findStartable (LayerAnimator.animatedProperties s.runningAnimations)
        s.animationQueue with
    | none => some s
    | some sequence => do
      let result ←
        s.startSequenceImmediately A (processQueueWithin fuel) s.lastStepTime sequence
      processQueueWithin fuel result.1

variable (s : AnimatedLayer T)

def processQueue : Option (AnimatedLayer T) :=
  processQueueWithin A (2 * s.animationQueue.length + 1) s

/-! ## Preemption -/

/-- RemoveAllAnimationsWithACommonProperty, of a copy of the sequences. -/
def removeCommon (properties : AnimatableProperties) (abort : Bool) :
    List LayerAnimationSequence → AnimatedLayer T → AnimatedLayer T
  | [], s => s
  | sequence :: copy, s =>
    removeCommon properties abort copy
      (if s.hasAnimation sequence ∧ sequence.hasCommonProperty properties then
        let removed := s.removeAnimation sequence
        if abort then removed.abort sequence
        else removed.progress A sequence sequence.duration
      else s)

variable (sequence : LayerAnimationSequence)

def removeAllAnimationsWithACommonProperty (abort : Bool) : AnimatedLayer T :=
  let s' := removeCommon A sequence.properties abort
    (s.runningAnimations.map RunningAnimation.sequence) s
  removeCommon A sequence.properties abort s'.animationQueue s'

def immediatelySetNewTarget :
    AnimatedLayer T :=
  ((s.removeAllAnimationsWithACommonProperty A sequence false).removeAnimation
    sequence).progress A sequence sequence.duration

def immediatelyAnimateToNewTarget (now : Int) (s : AnimatedLayer T)
    (sequence : LayerAnimationSequence) : Option (AnimatedLayer T) := do
  let s' := (s.removeAllAnimationsWithACommonProperty A sequence true).addToQueueIfNotPresent
    sequence
  let result ← s'.startSequenceImmediately A (processQueue A) now sequence
  return result.1

def enqueueNewAnimation :
    Option (AnimatedLayer T) :=
  (s.pushBack sequence).processQueue A

def replaceQueuedAnimations :
    Option (AnimatedLayer T) :=
  ((s.withAnimator (LayerAnimator.removeUnstarted s.animationQueue s.toLayerAnimator)).pushBack
    sequence).processQueue A

/-- Running animations of no duration are finished and removed. -/
def removeZeroDuration : List RunningAnimation → AnimatedLayer T → AnimatedLayer T
  | [], s => s
  | running :: copy, s =>
    removeZeroDuration copy
      (if s.hasAnimation running.sequence ∧ running.sequence.duration = 0 then
        (s.progress A running.sequence running.sequence.duration).removeAnimation
          running.sequence
      else s)

def finishAnyAnimationWithZeroDuration : Option (AnimatedLayer T) := do
  let s' ← (removeZeroDuration A s.runningAnimations s).processQueue A
  return s'.updateAnimationState

/-! ## The public operations -/

/-- A sequence that a client makes of elements of positive duration, or of a single element; it
animates something. -/
structure ElementSequence (T : Type) where
  elements : List (LayerAnimationElement T)
  timely : Timely elements
  nonempty : (allProperties elements).Nonempty

def ElementSequence.toNewSequence (made : ElementSequence T) : LayerAnimator.NewSequence :=
  ⟨allProperties made.elements, totalDuration made.elements, false, made.nonempty⟩

/-- A new sequence, with its elements. -/
def allocate (elements : List (LayerAnimationElement T)) :
    LayerAnimationSequence × AnimatedLayer T :=
  let r := s.toLayerAnimator.allocate (allProperties elements) (totalDuration elements) false
  (r.1, { s with
    toLayerAnimator := r.2
    sequences := Function.update s.sequences r.1.id (.new elements) })

def startAnimation (now : Int) (s : AnimatedLayer T) (animation : LayerAnimationSequence) :
    Option (AnimatedLayer T) := do
  let result ← s.startSequenceImmediately A (processQueue A) now animation
  let s' ←
    if result.2 then some result.1
    else match result.1.preemptionStrategy with
      | .immediatelySetNewTarget => some (result.1.immediatelySetNewTarget A animation)
      | .immediatelyAnimateToNewTarget => result.1.immediatelyAnimateToNewTarget A now animation
      | .enqueueNewAnimation => result.1.enqueueNewAnimation A animation
      | .replaceQueuedAnimations => result.1.replaceQueuedAnimations A animation
      | .blendWithCurrentAnimation => some result.1
  let s'' ← s'.finishAnyAnimationWithZeroDuration A
  return s''.updateAnimationState

def scheduleAnimation (now : Int) (s : AnimatedLayer T) (animation : LayerAnimationSequence) :
    Option (AnimatedLayer T) :=
  (if s.isAnimating then (s.pushBack animation).processQueue A
    else (s.startSequenceImmediately A (processQueue A) now animation).map Prod.fst).map
      updateAnimationState

/-- The sequences of ScheduleTogether, scheduled one after another. -/
def scheduleEach (now : LayerAnimationSequence → Int) :
    List (ElementSequence T) → AnimatedLayer T → Option (AnimatedLayer T)
  | [], s => some s
  | made :: rest, s => do
    let (animation, s') := s.allocate made.elements
    let s'' ← s'.scheduleAnimation A (now animation) animation
    scheduleEach now rest s''

def createPauseElement (properties : AnimatableProperties) (duration : Int) :
    LayerAnimationElement T :=
  ⟨.pause properties, duration, .linear, true⟩

def scheduleTogether (now : LayerAnimationSequence → Int) (s : AnimatedLayer T)
    (animations : List (ElementSequence T)) : Option (AnimatedLayer T) := do
  let (pause, s') := s.allocate [createPauseElement
    (LayerAnimator.unionProperties (animations.map ElementSequence.toNewSequence)) 0]
  let s' ← s'.scheduleAnimation A (now pause) pause
  let s' ← scheduleEach A now animations s'
  return s'.updateAnimationState

/-- The loop of StopAnimatingProperty, with at most so many turns. -/
def stopPropertyWithin (property : AnimatableProperty) : Nat → AnimatedLayer T →
    Option (AnimatedLayer T)
  | 0, _ => none
  | fuel + 1, s =>
    match s.getRunningAnimation property with
    | none => some s
    | some running =>
      (s.finishAnimation A (processQueue A) running.sequence).bind
        (stopPropertyWithin property fuel)

def stopAnimatingProperty (property : AnimatableProperty) :
    Option (AnimatedLayer T) :=
  stopPropertyWithin A property (s.animationQueue.length + 1) s

/-- The loop of StopAnimating; `running_animations_[0]` must be there. -/
def stopWithin : Nat → AnimatedLayer T → Option (AnimatedLayer T)
  | 0, _ => none
  | fuel + 1, s =>
    if s.isAnimating then
      match s.runningAnimations with
      | [] => none
      | running :: _ =>
        (s.finishAnimation A (processQueue A) running.sequence).bind (stopWithin fuel)
    else some s

def stopAnimating : Option (AnimatedLayer T) :=
  stopWithin A (s.animationQueue.length + 1) s

/-- The calls of LayerAnimator, on sequences with their elements. -/
inductive Call (T : Type) where
  | setPreemptionStrategy (strategy : PreemptionStrategy)
  | startAnimation (now : Int) (animation : ElementSequence T)
  | scheduleAnimation (now : Int) (animation : ElementSequence T)
  | scheduleTogether (now : LayerAnimationSequence → Int) (animations : List (ElementSequence T))
      (nonempty : animations ≠ [])
  | stopAnimatingProperty (property : AnimatableProperty)
  | stopAnimating
  | step (now : Int)

def call : Call T → Option (AnimatedLayer T)
  | .setPreemptionStrategy strategy =>
    some (s.withAnimator { s.toLayerAnimator with preemptionStrategy := strategy })
  | .startAnimation now made =>
    let (animation, s') := s.allocate made.elements
    s'.startAnimation A now animation
  | .scheduleAnimation now made =>
    let (animation, s') := s.allocate made.elements
    s'.scheduleAnimation A now animation
  | .scheduleTogether now animations _ => s.scheduleTogether A now animations
  | .stopAnimatingProperty property => s.stopAnimatingProperty A property
  | .stopAnimating => s.stopAnimating A
  | .step now => s.step A (processQueue A) now

end AnimatedLayer

/-! ## The animator with values schedules as the animator does

Every operation with its values forgotten is the operation of LayerAnimator, so that the
scheduling invariant and the end of every loop carry over. -/

open Outcomes Runs LayerAnimator

namespace AnimatedLayer

variable {T : Type} {A : Arithmetic T} {s : AnimatedLayer T} {sequence : LayerAnimationSequence}

@[simp] theorem withAnimator_toLayerAnimator (animator : LayerAnimator) :
    (s.withAnimator animator).toLayerAnimator = animator := rfl

@[simp] theorem progress_toLayerAnimator (elapsed : Int) :
    (s.progress A sequence elapsed).toLayerAnimator = s.toLayerAnimator := rfl

/-! ## Stepping and starting -/

section
variable {pq : AnimatedLayer T → Option (AnimatedLayer T)}
  {pq' : LayerAnimator → Option LayerAnimator}

/-- A ProcessQueue that schedules as another one without values. -/
def SchedulesAs (pq : AnimatedLayer T → Option (AnimatedLayer T))
    (pq' : LayerAnimator → Option LayerAnimator) : Prop :=
  ∀ s, Maps toLayerAnimator (pq s) (pq' s.toLayerAnimator)

section

variable (hpq : SchedulesAs pq pq')
include hpq

theorem finishAnimation_maps (s : AnimatedLayer T) (sequence : LayerAnimationSequence) :
    Maps toLayerAnimator (s.finishAnimation A pq sequence)
      (s.toLayerAnimator.finishAnimation pq' sequence) :=
  (hpq _).bind fun _ => .some rfl

theorem stepRunning_maps (now : Int) (copy : List RunningAnimation) (s : AnimatedLayer T) :
    Maps toLayerAnimator (stepRunning A pq now copy s)
      (LayerAnimator.stepRunning pq' now copy s.toLayerAnimator) := by
  induction copy generalizing s with
  | nil => exact .some rfl
  | cons running copy ih =>
    rw [stepRunning, LayerAnimator.stepRunning]
    split
    · exact ih s
    · split
      · exact (finishAnimation_maps hpq s running.sequence).bind ih
      · exact ih _

theorem step_maps (now : Int) (s : AnimatedLayer T) :
    Maps toLayerAnimator (s.step A pq now) (s.toLayerAnimator.step pq' now) :=
  stepRunning_maps hpq now s.runningAnimations _

theorem startSequenceImmediately_maps (now : Int)
    (s : AnimatedLayer T) (sequence : LayerAnimationSequence) :
    Maps (Prod.map toLayerAnimator id) (s.startSequenceImmediately A pq now sequence)
      (s.toLayerAnimator.startSequenceImmediately pq' now sequence) := by
  rw [startSequenceImmediately, LayerAnimator.startSequenceImmediately]
  split
  · exact .some rfl
  · exact (step_maps hpq _ _).bind fun _ => .some rfl

end

end

theorem processQueueWithin_maps (fuel : Nat) :
    SchedulesAs (processQueueWithin (T := T) A fuel) (LayerAnimator.processQueueWithin fuel) := by
  induction fuel with
  | zero => exact fun s => rfl
  | succ fuel ih =>
    intro s
    rw [processQueueWithin, LayerAnimator.processQueueWithin]
    cases findStartable (animatedProperties s.runningAnimations)
      s.animationQueue with
    | none => exact .some rfl
    | some sequence =>
      apply (startSequenceImmediately_maps ih s.lastStepTime s sequence).bind
      exact fun result => ih result.1

theorem processQueue_maps : SchedulesAs (processQueue (T := T) A) LayerAnimator.processQueue :=
  fun s => processQueueWithin_maps _ s

/-! ## Preemption -/

theorem removeCommon_toLayerAnimator (properties : AnimatableProperties) (abort : Bool)
    (copy : List LayerAnimationSequence) (s : AnimatedLayer T) :
    (removeCommon A properties abort copy s).toLayerAnimator =
      LayerAnimator.removeCommon properties copy s.toLayerAnimator := by
  induction copy generalizing s with
  | nil => rfl
  | cons sequence copy ih =>
    rw [removeCommon, LayerAnimator.removeCommon, ih]
    split
    · cases abort <;> rfl
    · rfl

theorem removeAll_toLayerAnimator (s : AnimatedLayer T) (sequence : LayerAnimationSequence)
    (abort : Bool) :
    (s.removeAllAnimationsWithACommonProperty A sequence abort).toLayerAnimator =
      s.toLayerAnimator.removeAllAnimationsWithACommonProperty sequence := by
  rw [removeAllAnimationsWithACommonProperty,
    LayerAnimator.removeAllAnimationsWithACommonProperty]
  simp only [removeCommon_toLayerAnimator]

theorem immediatelySetNewTarget_toLayerAnimator (s : AnimatedLayer T)
    (sequence : LayerAnimationSequence) :
    (s.immediatelySetNewTarget A sequence).toLayerAnimator =
      s.toLayerAnimator.immediatelySetNewTarget sequence := by
  rw [immediatelySetNewTarget, LayerAnimator.immediatelySetNewTarget, progress_toLayerAnimator,
    removeAnimation, withAnimator_toLayerAnimator, removeAll_toLayerAnimator]

theorem immediatelyAnimateToNewTarget_maps (now : Int) (s : AnimatedLayer T)
    (sequence : LayerAnimationSequence) :
    Maps toLayerAnimator (s.immediatelyAnimateToNewTarget A now sequence)
      (s.toLayerAnimator.immediatelyAnimateToNewTarget now sequence) := by
  rw [immediatelyAnimateToNewTarget, LayerAnimator.immediatelyAnimateToNewTarget,
    ← @removeAll_toLayerAnimator T A s sequence true]
  apply (startSequenceImmediately_maps processQueue_maps now _ sequence).bind
  exact fun _ => .some rfl

theorem removeZeroDuration_toLayerAnimator (copy : List RunningAnimation) (s : AnimatedLayer T) :
    (removeZeroDuration A copy s).toLayerAnimator =
      LayerAnimator.removeZeroDuration copy s.toLayerAnimator := by
  induction copy generalizing s with
  | nil => rfl
  | cons running copy ih =>
    rw [removeZeroDuration, LayerAnimator.removeZeroDuration, ih]
    split <;> rfl

theorem finishAny_maps (s : AnimatedLayer T) :
    Maps toLayerAnimator (s.finishAnyAnimationWithZeroDuration A)
      s.toLayerAnimator.finishAnyAnimationWithZeroDuration := by
  have hprocess := @processQueue_maps T A (removeZeroDuration A s.runningAnimations s)
  rw [removeZeroDuration_toLayerAnimator] at hprocess
  exact hprocess.bind fun _ => .some rfl

/-! ## The public operations -/

theorem startAnimation_maps (now : Int) (s : AnimatedLayer T) (animation : LayerAnimationSequence) :
    Maps toLayerAnimator (s.startAnimation A now animation)
      (s.toLayerAnimator.startAnimation now animation) := by
  have hfin : ∀ s' : AnimatedLayer T, Maps toLayerAnimator
      ((s'.finishAnyAnimationWithZeroDuration A).bind fun s => some s.updateAnimationState)
      (s'.toLayerAnimator.finishAnyAnimationWithZeroDuration.bind
        fun s => some s.updateAnimationState) :=
    fun s' => (finishAny_maps s').bind fun _ => .some rfl
  apply (startSequenceImmediately_maps processQueue_maps now s animation).bind
  rintro ⟨s', started⟩
  dsimp only [Prod.map, id]
  cases started with
  | true => exact hfin s'
  | false =>
    rw [if_neg Bool.false_ne_true, if_neg Bool.false_ne_true]
    cases s'.preemptionStrategy with
    | immediatelySetNewTarget =>
      have htgt := hfin (s'.immediatelySetNewTarget A animation)
      rw [immediatelySetNewTarget_toLayerAnimator] at htgt
      exact htgt
    | immediatelyAnimateToNewTarget =>
      exact (immediatelyAnimateToNewTarget_maps now s' animation).bind hfin
    | enqueueNewAnimation => exact (processQueue_maps (s'.pushBack animation)).bind hfin
    | replaceQueuedAnimations =>
      apply (processQueue_maps ((s'.withAnimator (LayerAnimator.removeUnstarted
        s'.animationQueue s'.toLayerAnimator)).pushBack animation)).bind
      exact hfin
    | blendWithCurrentAnimation => exact hfin s'

theorem scheduleAnimation_maps (now : Int) (s : AnimatedLayer T)
    (animation : LayerAnimationSequence) :
    Maps toLayerAnimator (s.scheduleAnimation A now animation)
      (s.toLayerAnimator.scheduleAnimation now animation) := by
  have hsched : Maps toLayerAnimator
      (if s.isAnimating then (s.pushBack animation).processQueue A
        else (s.startSequenceImmediately A (processQueue A) now animation).map Prod.fst)
      (if s.isAnimating then (s.toLayerAnimator.pushBack animation).processQueue
        else (s.toLayerAnimator.startSequenceImmediately LayerAnimator.processQueue now
          animation).map Prod.fst) := by
    split
    · exact processQueue_maps _
    · exact (startSequenceImmediately_maps processQueue_maps now s animation).map fun _ => rfl
  exact hsched.map fun _ => rfl

theorem scheduleEach_maps (now : LayerAnimationSequence → Int)
    (animations : List (ElementSequence T)) (s : AnimatedLayer T) :
    Maps toLayerAnimator (scheduleEach A now animations s)
      (LayerAnimator.scheduleEach now (animations.map ElementSequence.toNewSequence)
        s.toLayerAnimator) := by
  induction animations generalizing s with
  | nil => exact .some rfl
  | cons made rest ih => exact (scheduleAnimation_maps _ _ _).bind ih

theorem allocate_pause (s : AnimatedLayer T) (properties : AnimatableProperties) :
    (s.allocate [createPauseElement properties 0]).1 =
        (s.toLayerAnimator.allocate properties 0 false).1 ∧
      (s.allocate [createPauseElement properties 0]).2.toLayerAnimator =
        (s.toLayerAnimator.allocate properties 0 false).2 := by
  have hproperties : allProperties [createPauseElement (T := T) properties 0] = properties :=
    Finset.union_empty _
  rw [allocate]
  rw [hproperties]
  exact ⟨rfl, rfl⟩

theorem scheduleTogether_maps (now : LayerAnimationSequence → Int) (s : AnimatedLayer T)
    (animations : List (ElementSequence T)) :
    Maps toLayerAnimator (s.scheduleTogether A now animations)
      (s.toLayerAnimator.scheduleTogether now
        (animations.map ElementSequence.toNewSequence)) := by
  obtain ⟨hpause, hallocated⟩ := allocate_pause s
    (unionProperties (animations.map ElementSequence.toNewSequence))
  rw [scheduleTogether, LayerAnimator.scheduleTogether]
  generalize s.allocate [createPauseElement (unionProperties
    (animations.map ElementSequence.toNewSequence)) 0] = allocated at hpause hallocated ⊢
  generalize s.toLayerAnimator.allocate (unionProperties
    (animations.map ElementSequence.toNewSequence)) 0 false = allocated' at hpause hallocated ⊢
  obtain ⟨pause, s₁⟩ := allocated
  obtain ⟨pause', s₁'⟩ := allocated'
  cases hpause
  cases hallocated
  apply (scheduleAnimation_maps (now pause) s₁ pause).bind
  intro s₂
  apply (scheduleEach_maps now animations s₂).bind
  exact fun _ => .some rfl

theorem stopPropertyWithin_maps (property : AnimatableProperty) (fuel : Nat) (s : AnimatedLayer T) :
    Maps toLayerAnimator (stopPropertyWithin A property fuel s)
      (LayerAnimator.stopPropertyWithin property fuel s.toLayerAnimator) := by
  induction fuel generalizing s with
  | zero => rfl
  | succ fuel ih =>
    rw [stopPropertyWithin, LayerAnimator.stopPropertyWithin]
    cases s.getRunningAnimation property with
    | none => exact .some rfl
    | some running => exact (finishAnimation_maps processQueue_maps s running.sequence).bind ih

theorem stopWithin_maps (fuel : Nat) (s : AnimatedLayer T) :
    Maps toLayerAnimator (stopWithin A fuel s)
      (LayerAnimator.stopWithin fuel s.toLayerAnimator) := by
  induction fuel generalizing s with
  | zero => rfl
  | succ fuel ih =>
    rw [stopWithin, LayerAnimator.stopWithin]
    split
    · cases s.runningAnimations with
      | nil => rfl
      | cons running rest =>
        exact (finishAnimation_maps processQueue_maps s running.sequence).bind ih
    · exact .some rfl

def Call.toCall : Call T → LayerAnimator.Call
  | setPreemptionStrategy strategy => .setPreemptionStrategy strategy
  | startAnimation now made => .startAnimation now made.toNewSequence
  | scheduleAnimation now made => .scheduleAnimation now made.toNewSequence
  | scheduleTogether now animations nonempty =>
    .scheduleTogether now (animations.map ElementSequence.toNewSequence)
      (fun hnil => nonempty (List.map_eq_nil_iff.mp hnil))
  | stopAnimatingProperty property => .stopAnimatingProperty property
  | stopAnimating => .stopAnimating
  | step now => .step now

/-- The refinement: a call with its values forgotten is the call of LayerAnimator. -/
theorem call_maps (s : AnimatedLayer T) (c : Call T) :
    Maps toLayerAnimator (s.call A c) (s.toLayerAnimator.call c.toCall) := by
  cases c with
  | setPreemptionStrategy strategy => exact .some rfl
  | startAnimation now made => exact startAnimation_maps now _ _
  | scheduleAnimation now made => exact scheduleAnimation_maps now _ _
  | scheduleTogether now animations nonempty => exact scheduleTogether_maps now s animations
  | stopAnimatingProperty property => exact stopPropertyWithin_maps property _ s
  | stopAnimating => exact stopWithin_maps _ s
  | step now => exact step_maps processQueue_maps now s

theorem call_yields (c : Call T) (h : s.Scheduled) : Yields (s.call A c) fun s' => s'.Scheduled :=
  (call_maps s c).yields (LayerAnimator.call_yields h c.toCall)

end AnimatedLayer

end ChromiumUI.Compositor
