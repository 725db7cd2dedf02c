import ChromiumUI.GestureInvariant
import ChromiumUI.GestureRecognizer

/-!
# A gesture sequence in an arbitrary stream of touches

A finger whose touches were partly handled by a window is out of step with its gesture
sequence: it can be pressed twice, or lifted unseen. The numbering of the points then has
gaps, but what is left of it still says which points a touch cancel gives up.
-/
namespace ChromiumUI.Gestures

open Outcomes

namespace GestureSequence

variable {F : Type} {s s' : GestureSequence F} {m : Measures F} {event : TouchEvent} {i : Slot}

/-- What any stream leaves of the numbering: a pending click has one point. -/
structure Loose (s : GestureSequence F) : Prop extends Distinct s where
  pending : s.state = .pendingSyntheticClick → s.pointCount = 1

theorem loose_of_cleared (hcount : s.pointCount = 0) (hids : ∀ i, (s.points i).pointId = -1)
    (hstate : s.state ≠ .pendingSyntheticClick) : Loose s where
  lt := (numbered_of_cleared hcount hids).lt
  inj := (numbered_of_cleared hcount hids).inj
  pending h := absurd h hstate

theorem loose_new [Zero F] : Loose (new : GestureSequence F) :=
  loose_of_cleared rfl (fun _ => rfl) nofun

/-- No other point is given up. -/
theorem Distinct.inUse_of_removes (h : Distinct s) (hi : (s.points i).inUse = true)
    (hrem : Removes i s s') {j : Slot} (hj : j ≠ i) :
    (s'.points j).inUse = (s.points j).inUse := by
  have hpos := inUse_iff.mp hi
  have hne : (s.points j).pointId ≠ (s.points i).pointId :=
    fun hid => hj (h.inj i j hpos hid.symm).symm
  rw [Bool.eq_iff_iff, inUse_iff, inUse_iff, hrem.pointId j hj]
  split <;> omega

/-! ## Transitions -/

/-- The ids are left alone, and no click becomes pending. -/
structure Keeps (s : GestureSequence F) (r : Recognized F) : Prop where
  ids : SameIds s r.1
  pending : r.1.state = .pendingSyntheticClick → s.state = .pendingSyntheticClick

/-- The ids are left alone, and no click is pending any more. -/
structure Decides (s : GestureSequence F) (r : Recognized F) : Prop where
  ids : SameIds s r.1
  decided : r.1.state ≠ .pendingSyntheticClick

theorem Decides.keeps {r : Recognized F} (h : Decides s r) : Keeps s r :=
  ⟨h.ids, fun hstate => absurd hstate h.decided⟩

theorem keeps_still (s : GestureSequence F) (gs : List GestureEvent) :
    Ensures (some (s, gs)) (Keeps s) := .some ⟨.refl s, id⟩

theorem click_decides : Ensures (s.click m event i) (Decides s) := by
  unfold click
  split
  · have hsame : SameIds s (s.modifyPoint i .updateForTap) :=
      .modifyPoint (fun _ => rfl) fun _ => rfl
    exact .some ⟨hsame.trans (.of_points rfl rfl), nofun⟩
  · exact .some ⟨.of_points rfl rfl, nofun⟩

theorem scrollStart_keeps : Ensures (s.scrollStart m event i) (Keeps s) := by
  unfold scrollStart
  dsimp only
  split
  · exact keeps_still s []
  · generalize hs₁ : { s with
      scrollType := _
      state := .scroll } = s₁
    obtain ⟨hsame, hstate, -⟩ := @scrollUpdate_spec F s₁ i
    subst hs₁
    apply Ensures.some
    apply Decides.keeps
    exact ⟨⟨hsame.pointCount, hsame.pointId, hsame.touchId⟩, by rw [hstate]; nofun⟩

theorem scrollMove_keeps : Ensures (s.scrollMove m i) (Keeps s) := by
  unfold scrollMove
  split
  · obtain ⟨hsame, hstate, -⟩ := @breakRailScroll_spec F s m i
    obtain ⟨hsame', hstate', -⟩ := @scrollUpdate_spec F (s.breakRailScroll m i) i
    exact .some ⟨hsame.trans hsame', fun h => hstate ▸ hstate' ▸ h⟩
  · obtain ⟨hsame, hstate, -⟩ := @scrollUpdate_spec F s i
    exact .some ⟨hsame, fun h => hstate ▸ h⟩

theorem pinchStart_decides : Ensures (s.pinchStart m i) (Decides s) := by
  apply Ensures.of_any
  intro i₁
  apply Ensures.of_any
  intro i₂
  exact .some ⟨.of_points rfl rfl, nofun⟩

theorem twoFingerTouchReleased_decides :
    Ensures (s.twoFingerTouchReleased m event i) (Decides s) := by
  unfold twoFingerTouchReleased
  split
  · apply Ensures.of_any
    intro i₀
    exact .some ⟨.of_points rfl rfl, nofun⟩
  · exact .some ⟨.of_points rfl rfl, nofun⟩

theorem twoFingerTouchMove_keeps : Ensures (s.twoFingerTouchMove m event i) (Keeps s) := by
  unfold twoFingerTouchMove
  split
  · exact pinchStart_decides.mono fun _ => Decides.keeps
  · exact keeps_still s []

theorem updatePointsForScroll_keeps (ks : List Nat) (s : GestureSequence F) :
    Ensures (updatePointsForScroll ks s) fun s' => SameIds s s' ∧ s'.state = s.state := by
  induction ks generalizing s with
  | nil => exact .some ⟨.refl s, rfl⟩
  | cons k ks ih =>
    apply Ensures.of_any
    intro i
    have hsame : SameIds s (s.modifyPoint i .updateForScroll) :=
      .modifyPoint (fun _ => rfl) fun _ => rfl
    refine (ih (s.modifyPoint i .updateForScroll)).mono ?_
    rintro s' ⟨hsame', hstate⟩
    exact ⟨hsame.trans hsame', hstate⟩

theorem pinchMove_keeps : Ensures (s.pinchMove m) (Keeps s) := by
  obtain ⟨hsame, hstate, -⟩ := @pinchUpdate_spec F s m
  unfold pinchMove
  refine (updatePointsForScroll_keeps _ _).bind ?_
  rintro s' ⟨hsame', hstate'⟩
  exact .some ⟨hsame.trans hsame', fun h => hstate ▸ hstate' ▸ h⟩

/-- What a transition does to the ids, in any state. -/
structure Changes (pointId : Nat) (event : TouchEvent) (s : GestureSequence F)
    (r : Recognized F) : Prop where
  ids : SameIds s r.1 ∨
    r.1 = s.reset ∧ s.state = .pendingSyntheticClick ∧ pointId = 0 ∧ event.Lifts
  pending : r.1.state = .pendingSyntheticClick →
    s.state = .noGesture ∧ pointId = 0 ∧ event.type = .touchPressed ∨
      s.state = .pendingSyntheticClick ∧ ¬(pointId = 0 ∧ event.Lifts) ∧
        ¬(pointId = 1 ∧ event.type = .touchPressed)

theorem Decides.changes {pointId : Nat} {r : Recognized F} (h : Decides s r) :
    Changes pointId event s r :=
  ⟨Or.inl h.ids, fun hstate => absurd hstate h.decided⟩

theorem Keeps.changes {pointId : Nat} {r : Recognized F} (h : Keeps s r)
    (hkeeps : s.state = .pendingSyntheticClick → ¬(pointId = 0 ∧ event.Lifts) ∧
      ¬(pointId = 1 ∧ event.type = .touchPressed)) : Changes pointId event s r :=
  ⟨Or.inl h.ids, fun hstate => Or.inr ⟨h.pending hstate, hkeeps (h.pending hstate)⟩⟩

variable [Zero F]

theorem pinchEnd_decides : Ensures s.pinchEnd (Decides s) := by
  apply Ensures.of_any
  intro i₁
  apply Ensures.of_any
  intro i₂
  exact .some ⟨.of_points rfl rfl, nofun⟩

theorem pinchLift_keeps : Ensures (s.pinchLift m) (Keeps s) := by
  unfold pinchLift
  split
  · refine pinchEnd_decides.bind ?_
    intro r hdecides
    exact .some ⟨hdecides.ids.resetVelocities, fun hstate => absurd hstate hdecides.decided⟩
  · exact .some ⟨(SameIds.refl s).resetVelocities, id⟩

variable [DecidableEq F]

theorem secondTouchDown_decides : Ensures (s.secondTouchDown m event i) (Decides s) := by
  unfold secondTouchDown
  apply Ensures.of_any
  intro close
  split
  · exact .some ⟨.of_points rfl rfl, nofun⟩
  · exact pinchStart_decides

theorem transition_changes {pointId : Nat} :
    Ensures (s.transition m pointId event i) (Changes pointId event s) := by
  have hkeeps : ∀ {o : Option (Recognized F)}, Ensures o (Keeps s) →
      s.state ≠ .pendingSyntheticClick → Ensures o (Changes pointId event s) :=
    fun h hstate => h.mono fun _ hr => hr.changes fun hpend => absurd hpend hstate
  unfold transition
  split
  case h_1 hstate hty =>
    exact .some ⟨Or.inl (.of_points rfl rfl), fun _ => Or.inl ⟨hstate, rfl, hty⟩⟩
  case h_2 => exact click_decides.mono fun _ => Decides.changes
  case h_3 hstate hty =>
    refine scrollStart_keeps.mono fun r hr => ?_
    exact hr.changes fun _ => by simp [TouchEvent.Lifts, hty]
  case h_4 hstate hty =>
    refine scrollStart_keeps.mono fun r hr => ?_
    exact hr.changes fun _ => by simp [TouchEvent.Lifts, hty]
  case h_5 hstate hty => exact .some ⟨Or.inr ⟨rfl, hstate, rfl, Or.inr hty⟩, nofun⟩
  case h_6 hstate hty => exact hkeeps scrollMove_keeps (by simp [hstate])
  case h_7 hstate hty => exact .some ⟨Or.inl (.of_points rfl rfl), nofun⟩
  case h_8 hstate hty => exact .some ⟨Or.inl (.of_points rfl rfl), nofun⟩
  case h_9 => exact secondTouchDown_decides.mono fun _ => Decides.changes
  case h_10 => exact secondTouchDown_decides.mono fun _ => Decides.changes
  case h_11 => exact twoFingerTouchReleased_decides.mono fun _ => Decides.changes
  case h_12 => exact twoFingerTouchReleased_decides.mono fun _ => Decides.changes
  case h_13 hstate hty => exact hkeeps twoFingerTouchMove_keeps (by simp [hstate])
  case h_14 hstate hty => exact hkeeps twoFingerTouchMove_keeps (by simp [hstate])
  case h_15 => exact .some ⟨Or.inl (.of_points rfl rfl), nofun⟩
  case h_16 => exact .some ⟨Or.inl (.of_points rfl rfl), nofun⟩
  case h_17 => exact pinchStart_decides.mono fun _ => Decides.changes
  case h_18 hstate hty =>
    apply hkeeps _ (by simp [hstate])
    split
    · exact pinchMove_keeps
    · exact keeps_still s []
  case h_19 hstate hty =>
    apply hkeeps _ (by simp [hstate])
    split
    · exact pinchLift_keeps
    · exact keeps_still s []
  case h_20 hstate hty =>
    apply hkeeps _ (by simp [hstate])
    split
    · exact pinchLift_keeps
    · exact keeps_still s []
  case h_21 hstate hty =>
    apply hkeeps _ (by simp [hstate])
    split
    · exact .some ⟨.of_points rfl rfl, id⟩
    · exact keeps_still s []
  case h_22 =>
    refine (keeps_still s []).mono fun r hr => hr.changes ?_
    rintro hstate
    constructor
    · rintro ⟨rfl, hty | hty⟩
      · simp_all
      · simp_all
    · rintro ⟨rfl, hty⟩
      simp_all

/-! ## One touch -/

/-- What a lifted finger leaves behind: the points of the other fingers. -/
structure Leaves (touchId : Nat) (s s' : GestureSequence F) : Prop where
  loose : Loose s'
  others : ∀ j : Slot, j.val ≠ touchId → (s'.points j).inUse = (s.points j).inUse

omit [Zero F] [DecidableEq F] in
theorem Leaves.of_sameIds (h : Loose s) (hsame : SameIds s s') (hstate : s'.state = s.state)
    (touchId : Nat) : Leaves touchId s s' where
  loose := by
    refine ⟨h.toDistinct.of_sameIds hsame, fun hpend => ?_⟩
    rw [hsame.pointCount]
    exact h.pending (hstate ▸ hpend)
  others j _ := hsame.inUse j

omit [Zero F] [DecidableEq F] in
/-- The end of a touch that lifts a finger with a point. -/
theorem removePoint_leaves {r : Recognized F} (h : Loose s)
    (hi : (s.points i).inUse = true) (hlifts : event.Lifts)
    (hchanges : Changes (s.points i).pointId.toNat event s r) (lastState : GestureState) :
    Leaves i s ((r.1.stopLongPressTimer lastState).removePoint m i) := by
  have hpos := inUse_iff.mp hi
  have hlt := h.lt i
  have hids := sameIds_stopLongPressTimer r.1 lastState
  have hstate := state_stopLongPressTimer r.1 lastState
  generalize r.1.stopLongPressTimer lastState = s₄ at hids hstate ⊢
  obtain hsame | ⟨hreset, hpend, -, -⟩ := hchanges.ids
  · have hsame₄ := hsame.trans hids
    have hdist := h.toDistinct.of_sameIds hsame₄
    have hi₄ : (s₄.points i).inUse = true := by
      rw [hsame₄.inUse]
      exact hi
    have hrem : Removes i s₄ (s₄.removePoint m i) := removes_removePoint hi₄
    have hnotPending : (s₄.removePoint m i).state ≠ .pendingSyntheticClick := by
      rw [hrem.state, hstate]
      intro hstill
      obtain ⟨-, -, hpress⟩ | ⟨hpend, hnotLifted, -⟩ := hchanges.pending hstill
      · obtain hty | hty := hlifts <;> rw [hty] at hpress <;> cases hpress
      · have hone := h.pending hpend
        exact hnotLifted ⟨by omega, hlifts⟩
    refine ⟨⟨hdist.of_removes hi₄ hrem, fun hstill => absurd hstill hnotPending⟩, ?_⟩
    intro j hj
    rw [hdist.inUse_of_removes hi₄ hrem fun he => hj (congrArg Fin.val he),
      hsame₄.inUse]
  · -- The one point of the pending click is the lifted one.
    have hone := h.pending hpend
    have hids₄ : ∀ j, (s₄.points j).pointId = -1 := by
      intro j
      rw [hids.pointId, hreset]
      rfl
    obtain ⟨hsame₅, hstate₅, -⟩ := @removePoint_cleared F s₄ m i hids₄
    have hids₅ : ∀ j, ((s₄.removePoint m i).points j).pointId = -1 := fun j =>
      (hsame₅.pointId j).trans (hids₄ j)
    refine ⟨loose_of_cleared ?_ hids₅ ?_, ?_⟩
    · rw [hsame₅.pointCount, hids.pointCount, hreset]
      rfl
    · rw [hstate₅, hstate, hreset]
      nofun
    · intro j hj
      rw [Bool.eq_iff_iff, inUse_iff, inUse_iff, hids₅]
      constructor
      · intro hge
        exact absurd hge (by decide)
      · intro hge
        have := h.lt j
        have := h.inj j i hge (by omega)
        exact absurd (congrArg Fin.val this) hj

/-- A lift gives up the point of its own finger at most. -/
theorem process_lift (h : Loose s) (hlifts : event.Lifts) (status : TouchStatus) :
    Ensures (s.processTouchEventForGesture m event status) fun r => Leaves event.touchId s r.1 := by
  have hnotPressed : event.type ≠ .touchPressed := by
    obtain hty | hty := hlifts <;> rw [hty] <;> nofun
  unfold processTouchEventForGesture
  split
  · exact .some (.of_sameIds h (.refl s) rfl _)
  split
  · rename_i hlt
    dsimp only
    have hsame : SameIds s (s.updatePoint m event ⟨event.touchId, hlt⟩) := sameIds_updatePoint
    have hstate : (s.updatePoint m event ⟨event.touchId, hlt⟩).state = s.state := rfl
    rw [if_neg (by rintro ⟨hpress, -⟩; exact hnotPressed hpress)]
    generalize s.updatePoint m event ⟨event.touchId, hlt⟩ = s₂ at hsame hstate ⊢
    have hleaves := Leaves.of_sameIds h hsame hstate event.touchId
    split
    · exact .some hleaves
    · rename_i hid
      have hi : (s₂.points ⟨event.touchId, hlt⟩).inUse = true :=
        inUse_iff.mpr (Int.not_lt.mp hid)
      refine transition_changes.bind fun r hchanges => .some ?_
      have hremoved := @removePoint_leaves F s₂ m event ⟨event.touchId, hlt⟩ r hleaves.loose
        hi hlifts hchanges s.state
      refine ⟨hremoved.loose, fun j hj => ?_⟩
      rw [hremoved.others j hj, hleaves.others j hj]
  · exact .some (.of_sameIds h (.refl s) rfl _)

/-- Any touch keeps what there is of the numbering. -/
theorem process_loose (h : Loose s) (event : TouchEvent) (status : TouchStatus) :
    Ensures (s.processTouchEventForGesture m event status) fun r => Loose r.1 := by
  by_cases hlifts : event.Lifts
  · exact (process_lift h hlifts status).mono fun _ hr => hr.loose
  unfold processTouchEventForGesture
  split
  · exact .some h
  split
  · rename_i hlt
    split
    · exact .some h
    dsimp only
    set i : Slot := ⟨event.touchId, hlt⟩ with hidef
    set s₁ := if event.type = .touchPressed then s.addPoint i else s with hs₁
    have hsame : SameIds s₁ (s₁.updatePoint m event i) := sameIds_updatePoint
    have hstate : (s₁.updatePoint m event i).state = s.state := by
      rw [hs₁]
      split <;> rfl
    have hdist : Distinct s₁ := by
      rw [hs₁]
      split
      · exact h.toDistinct.addPoint
      · exact h.toDistinct
    have hcount : s₁.pointCount = s.pointCount ∧ event.type ≠ .touchPressed ∨
        s₁.pointCount = s.pointCount + 1 ∧ (s₁.points i).pointId = s.pointCount ∧
          event.type = .touchPressed := by
      rw [hs₁]
      split
      · rename_i hty
        refine Or.inr ⟨rfl, ?_, hty⟩
        rw [points_addPoint, if_pos rfl]
      · rename_i hty
        exact Or.inl ⟨rfl, hty⟩
    rw [← hsame.pointCount, ← hsame.pointId] at hcount
    generalize s₁.updatePoint m event i = s₂ at hsame hstate hcount ⊢
    split
    · rename_i hid
      refine .some ⟨hdist.of_sameIds hsame, fun hpend => ?_⟩
      have hone := h.pending (hstate ▸ hpend)
      dsimp only
      omega
    · rename_i hid
      refine transition_changes.bind fun r hchanges => .some ?_
      have hids := sameIds_stopLongPressTimer r.1 s.state
      have hids₂ : SameIds s₂ r.1 := by
        obtain hids₂ | ⟨-, -, -, hlifts'⟩ := hchanges.ids
        · exact hids₂
        · exact absurd hlifts' hlifts
      refine ⟨(hdist.of_sameIds hsame).of_sameIds (hids₂.trans hids), fun hpend => ?_⟩
      rw [(hids₂.trans hids).pointCount]
      rw [state_stopLongPressTimer] at hpend
      obtain ⟨hnone, hzero, hpress⟩ | ⟨hstill, -, hsecond⟩ := hchanges.pending hpend
      · obtain ⟨-, hty⟩ | ⟨hcount, hid', -⟩ := hcount
        · exact absurd hpress hty
        · omega
      · have hone := h.pending (hstate ▸ hstill)
        obtain ⟨hcount, -⟩ | ⟨hcount, hid', hpress⟩ := hcount
        · omega
        · exact absurd ⟨by omega, hpress⟩ hsecond
  · exact .some h

end GestureSequence

/-! ## Touches dispatched by a root window

`RootWindow::DispatchTouchEvent` around the gesture recognizer, and `TransferEventsTo`, whose
loop dispatches a cancel for each finger that loses its target. -/

open Runs

/-- The consumers there are: windows, and the consumer that ignores its events. -/
inductive Consumer (W : Type) where
  | window (w : W)
  | ignorer
  deriving DecidableEq, Repr

variable {W : Type}

/-- ConsumerToWindow: a consumer that ignores events is no window. -/
def consumerToWindow : ConsumerPtr (Consumer W) → Option W
  | some (.window w) => some w
  | _ => none

/-- A Window* as a GestureConsumer*. -/
def windowPtr (window : Option W) : ConsumerPtr (Consumer W) := window.map .window

abbrev gestureConsumerIgnorer : ConsumerPtr (Consumer W) := some .ignorer

/-- What a dispatch finds around the locked targets. -/
structure Surroundings (W : Type) where
  rootTransform : Point → Point
  captureWindow : Option W
  /-- GetTargetForLocation, which measures the distance to every finger. -/
  targetForLocation : Option W
  boundsContain : Point → Bool
  rootWindow : W
  eventHandlerForPoint : Option W
  /-- What ProcessTouchEvent returns for the target. -/
  status : TouchStatus

/-- The target of a touch, with the status that the recognizer is given. -/
def Surroundings.target (around : Surroundings W) (location : Point)
    (locked : ConsumerPtr (Consumer W)) : Option (W × TouchStatus) :=
  match (around.captureWindow.or (consumerToWindow locked)).or around.targetForLocation with
  | some w => some (w, around.status)
  | none =>
    -- If the initial touch is outside the root window, target the root.
    if !around.boundsContain location then some (around.rootWindow, .unknown)
    else around.eventHandlerForPoint.map fun w => (w, around.status)

namespace GestureRecognizer

variable {F : Type} [DecidableEq W] [Zero F] [DecidableEq F] (m : Measures F)

/-- The entry of the map, NULL where there is none. -/
def lockedTarget {C : Type} (r : GestureRecognizer C F) (touchId : Nat) : ConsumerPtr C :=
  (r.touchIdTarget[touchId]?).getD none

variable (r : GestureRecognizer (Consumer W) F)

/-- RootWindow::DispatchTouchEvent -/
def dispatchTouchEvent (event : TouchEvent)
    (around : Surroundings W) : Option (GestureRecognizer (Consumer W) F) :=
  let event := { event with location := around.rootTransform event.location }
  let locked := r.getTouchLockedTarget event.touchId
  -- With a capture window there is no lookup.
  let r := if around.captureWindow.isNone then locked.2 else r
  match around.target event.location locked.1 with
  | none => some r
  | some (target, status) => do
    let r := if status = .queued ∨ status = .queuedEnd then
      r.queueTouchEventForGesture (windowPtr (some target)) event else r
    let result ← r.processTouchEventForGesture m event status (windowPtr (some target))
    return result.1

/-! ## TransferEventsTo -/

/-- The touch that CreateTouchEvent makes for a finger. -/
def cancelEvent (now : Int) (touchId : Nat) : TouchEvent := ⟨.touchCancelled, ⟨0, 0⟩, touchId, now⟩

/-- Whether the loop cancels the finger of an entry. -/
def takesFrom (current next : Option W) (target : ConsumerPtr (Consumer W)) : Bool :=
  cancels gestureConsumerIgnorer (windowPtr current) (windowPtr next) target

/-- The body of the loop over the entries, with the touch ids it has dispatched a cancel for. -/
def cancelTouch (now : Nat → Int) (around : Nat → Surroundings W) (current next : Option W)
    (state : GestureRecognizer (Consumer W) F × List Nat) (touchId : Nat) :
    Option (GestureRecognizer (Consumer W) F × List Nat) :=
  if takesFrom current next (state.1.lockedTarget touchId) then do
    let r ← state.1.dispatchTouchEvent m (cancelEvent (now touchId) touchId) (around touchId)
    return ({ r with touchIdTarget := r.touchIdTarget.insert touchId gestureConsumerIgnorer },
      state.2 ++ [touchId])
  else some state

/-- TransferEventsTo. A dispatch in the loop is for a finger of the map, and adds no entry. -/
def transferEventsTo (now : Nat → Int)
    (around : Nat → Surroundings W) (current next : Option W) :
    Option (GestureRecognizer (Consumer W) F × List Nat) := do
  let (r, cancelled) ← r.touchIdTarget.keys.foldlM (cancelTouch m now around current next) (r, [])
  return (transferConsumers (windowPtr current) (windowPtr next) r, cancelled)

/-! ## Reached states -/

/-- What reaches the recognizer through the root window. -/
inductive TouchOp (W : Type) where
  | touch (event : TouchEvent) (around : Surroundings W)
  | advance (window : W) (processed : Bool)
  | transfer (now : Nat → Int) (around : Nat → Surroundings W) (current next : Option W)

def touchStep :
    TouchOp W → Option (GestureRecognizer (Consumer W) F)
  | .touch event around => r.dispatchTouchEvent m event around
  | .advance window processed =>
    (r.advanceTouchQueue m (windowPtr (some window)) processed).map Prod.fst
  | .transfer now around current next => (r.transferEventsTo m now around current next).map Prod.fst

def Reached : Prop :=
  ∃ ops, run (touchStep m) ops new = some r

variable {m} {r r' : GestureRecognizer (Consumer W) F} {event : TouchEvent}
  {around : Surroundings W}

/-! ## What a dispatch does -/

omit [DecidableEq W] [Zero F] [DecidableEq F] in
theorem getTouchLockedTarget_spec {C : Type} (r : GestureRecognizer C F) (touchId : Nat) :
    (r.getTouchLockedTarget touchId).1 = r.lockedTarget touchId ∧
      (r.getTouchLockedTarget touchId).2.consumerSequence = r.consumerSequence ∧
      ∀ id, id ≠ touchId →
        (r.getTouchLockedTarget touchId).2.touchIdTarget[id]? = r.touchIdTarget[id]? := by
  unfold getTouchLockedTarget lockedTarget
  split
  · rename_i target htgt
    exact ⟨by rw [htgt]; rfl, rfl, fun _ _ => rfl⟩
  · rename_i hnone
    refine ⟨by rw [hnone]; rfl, rfl, fun id hid => ?_⟩
    rw [Std.TreeMap.getElem?_insert, if_neg]
    rw [Std.LawfulEqCmp.compare_eq_iff_eq]
    exact hid.symm

omit [DecidableEq W] in
/-- The recognizer gives the sequence of the target the touch, and locks the finger. -/
theorem processTouchEvent_spec {C : Type} [DecidableEq C] (r : GestureRecognizer C F)
    (event : TouchEvent) (status : TouchStatus) (target : ConsumerPtr C) :
    ∃ next : GestureSequence F → GestureRecognizer C F,
      r.processTouchEventForGesture m event status target =
        ((r.sequenceOf target).processTouchEventForGesture m event status).map
          (fun result => (next result.1, result.2)) ∧
      ∀ s, (next s).consumerSequence = setEntry r.consumerSequence target (some s) ∧
        ∀ id, id ≠ event.touchId → (next s).touchIdTarget[id]? = r.touchIdTarget[id]? := by
  have hinsert : ∀ (target : ConsumerPtr C) id, id ≠ event.touchId →
      (r.touchIdTarget.insert event.touchId target)[id]? = r.touchIdTarget[id]? := by
    intro target id hid
    rw [Std.TreeMap.getElem?_insert, if_neg]
    rw [Std.LawfulEqCmp.compare_eq_iff_eq]
    exact hid.symm
  unfold processTouchEventForGesture
  split
  · refine ⟨fun s => { r with
      touchIdTarget := r.touchIdTarget.insert event.touchId none }.setSequence target s, ?_,
      fun s => ⟨rfl, hinsert none⟩⟩
    exact Option.map_eq_bind.symm
  · refine ⟨fun s => { r with
      touchIdTarget := r.touchIdTarget.insert event.touchId target
      touchIdTargetForGestures :=
        if target.isSome then r.touchIdTargetForGestures.insert event.touchId target
        else r.touchIdTargetForGestures }.setSequence target s, ?_,
      fun s => ⟨rfl, hinsert target⟩⟩
    exact Option.map_eq_bind.symm

/-- The touch as the target sees it. -/
def seen (around : Surroundings W) (event : TouchEvent) : TouchEvent :=
  { event with location := around.rootTransform event.location }

/-- A dispatch that finds no window: at most the lookup leaves its entry. -/
theorem dispatch_unhandled
    (htgt : around.target (seen around event).location (r.lockedTarget event.touchId) = none) :
    ∃ r', r.dispatchTouchEvent m event around = some r' ∧
      r'.consumerSequence = r.consumerSequence ∧
      ∀ id, id ≠ event.touchId → r'.touchIdTarget[id]? = r.touchIdTarget[id]? := by
  obtain ⟨hlocked, hseq, hents⟩ := r.getTouchLockedTarget_spec event.touchId
  unfold dispatchTouchEvent
  dsimp only
  rw [hlocked]
  rw [seen] at htgt
  rw [htgt]
  refine ⟨_, rfl, ?_, ?_⟩
  · split
    · exact hseq
    · rfl
  · intro id hid
    split
    · exact hents id hid
    · rfl

/-- A dispatch to a window: its sequence is given the touch. -/
theorem dispatch_handled {w : W} {status : TouchStatus}
    (htgt : around.target (seen around event).location (r.lockedTarget event.touchId) =
      some (w, status)) :
    ∃ next : GestureSequence F → GestureRecognizer (Consumer W) F,
      r.dispatchTouchEvent m event around =
        ((r.sequenceOf (windowPtr (some w))).processTouchEventForGesture m (seen around event)
          status).map (fun result => next result.1) ∧
      ∀ s, (next s).consumerSequence =
          setEntry r.consumerSequence (windowPtr (some w)) (some s) ∧
        ∀ id, id ≠ event.touchId → (next s).touchIdTarget[id]? = r.touchIdTarget[id]? := by
  obtain ⟨hlocked, hseq, hents⟩ := r.getTouchLockedTarget_spec event.touchId
  unfold dispatchTouchEvent
  dsimp only
  rw [hlocked]
  rw [seen] at htgt
  rw [htgt]
  set base : GestureRecognizer (Consumer W) F :=
    if around.captureWindow.isNone then (r.getTouchLockedTarget event.touchId).2 else r with hbase
  have hbaseSequence : base.consumerSequence = r.consumerSequence := by
    rw [hbase]
    split
    · exact hseq
    · rfl
  have hbaseEntries : ∀ id, id ≠ event.touchId →
      base.touchIdTarget[id]? = r.touchIdTarget[id]? := by
    intro id hid
    rw [hbase]
    split
    · exact hents id hid
    · rfl
  clear_value base
  set queued : GestureRecognizer (Consumer W) F :=
    if status = .queued ∨ status = .queuedEnd then
      base.queueTouchEventForGesture (windowPtr (some w)) (seen around event) else base
    with hqueue
  have hkeep : queued.consumerSequence = base.consumerSequence ∧
      queued.touchIdTarget = base.touchIdTarget := by
    rw [hqueue]
    split <;> exact ⟨rfl, rfl⟩
  obtain ⟨next, hprocess, hnext⟩ := @processTouchEvent_spec F _ _ m _ _ queued
    (seen around event) status (windowPtr (some w))
  refine ⟨next, ?_, ?_⟩
  · have hsequenceOf : queued.sequenceOf (windowPtr (some w)) =
        r.sequenceOf (windowPtr (some w)) := by
      rw [sequenceOf, sequenceOf, hkeep.1, hbaseSequence]
    rw [← hsequenceOf]
    show (queued.processTouchEventForGesture m (seen around event) status _).bind _ = _
    rw [hprocess]
    cases (queued.sequenceOf (windowPtr (some w))).processTouchEventForGesture m
      (seen around event) status <;> rfl
  · intro s
    rw [(hnext s).1, hkeep.1, hbaseSequence]
    refine ⟨rfl, fun id hid => ?_⟩
    rw [(hnext s).2 id hid, hkeep.2, hbaseEntries id hid]

/-! ## The sequences of a reached state -/

/-- The sequences are loosely numbered, and NULL has none. -/
structure WellFormed (r : GestureRecognizer (Consumer W) F) : Prop where
  loose : ∀ c s, r.consumerSequence c = some s → s.Loose
  noNull : r.consumerSequence none = none

omit [DecidableEq W] [DecidableEq F] in
theorem WellFormed.sequenceOf (h : WellFormed r) (consumer : ConsumerPtr (Consumer W)) :
    (r.sequenceOf consumer).Loose := by
  unfold GestureRecognizer.sequenceOf
  cases hs : r.consumerSequence consumer with
  | none => exact GestureSequence.loose_new
  | some s => exact h.loose consumer s hs

omit [DecidableEq W] [Zero F] [DecidableEq F] in
theorem WellFormed.of_consumerSequence (h : WellFormed r)
    (hseq : r'.consumerSequence = r.consumerSequence) : WellFormed r' where
  loose c s hs := h.loose c s (hseq ▸ hs)
  noNull := hseq ▸ h.noNull

omit [Zero F] [DecidableEq F] in
theorem WellFormed.setEntry {w : W} {s : GestureSequence F} (h : WellFormed r) (hs : s.Loose)
    (hseq : r'.consumerSequence =
      GestureRecognizer.setEntry r.consumerSequence (windowPtr (some w)) (some s)) :
    WellFormed r' where
  loose c s' hs' := by
    rw [hseq, GestureRecognizer.setEntry] at hs'
    split at hs'
    · cases hs'
      exact hs
    · exact h.loose c s' hs'
  noNull := by
    rw [hseq, GestureRecognizer.setEntry, if_neg (by rintro ⟨⟩)]
    exact h.noNull

theorem WellFormed.dispatchTouchEvent (h : WellFormed r) (event : TouchEvent)
    (around : Surroundings W) : Ensures (r.dispatchTouchEvent m event around) WellFormed := by
  cases htgt : around.target (seen around event).location (r.lockedTarget event.touchId) with
  | none =>
    obtain ⟨r', hdisp, hseq, -⟩ := @dispatch_unhandled W F _ _ _ m _ _ _ htgt
    rw [hdisp]
    exact .some (h.of_consumerSequence hseq)
  | some target =>
    obtain ⟨w, status⟩ := target
    obtain ⟨next, hdisp, hnext⟩ := @dispatch_handled W F _ _ _ m _ _ _ _ _ htgt
    rw [hdisp, Option.map_eq_bind]
    refine (GestureSequence.process_loose (h.sequenceOf _) _ _).bind fun result hloose => ?_
    exact .some (h.setEntry hloose (hnext result.1).1)

theorem WellFormed.cancelTouch {now : Nat → Int} {around : Nat → Surroundings W}
    {current next : Option W} (state : GestureRecognizer (Consumer W) F × List Nat)
    (touchId : Nat) (h : WellFormed state.1) :
    Ensures (cancelTouch m now around current next state touchId)
      fun state' => WellFormed state'.1 := by
  unfold GestureRecognizer.cancelTouch
  split
  · refine (h.dispatchTouchEvent _ _).bind fun r hr => ?_
    exact .some (hr.of_consumerSequence rfl)
  · exact .some h

omit [Zero F] [DecidableEq F] in
theorem WellFormed.transferConsumers (h : WellFormed r) (current next : Option W) :
    WellFormed (transferConsumers (windowPtr current) (windowPtr next) r) := by
  cases current with
  | none => exact h
  | some a =>
    cases next with
    | none => exact h
    | some b =>
      unfold GestureRecognizer.transferConsumers
      rw [if_pos ⟨rfl, rfl⟩]
      unfold transferConsumer
      cases hs : r.consumerSequence (windowPtr (some a)) with
      | none => exact h.of_consumerSequence rfl
      | some s =>
        constructor
        · intro c s' hs'
          dsimp only [GestureRecognizer.setEntry] at hs'
          split at hs'
          · cases hs'
          · split at hs'
            · cases hs'
              exact h.loose _ _ hs
            · exact h.loose c s' hs'
        · dsimp only [GestureRecognizer.setEntry]
          rw [if_neg nofun, if_neg nofun]
          exact h.noNull

theorem WellFormed.touchStep (h : WellFormed r) (op : TouchOp W) :
    Ensures (touchStep m r op) WellFormed := by
  cases op with
  | touch event around => exact h.dispatchTouchEvent event around
  | advance w processed =>
    unfold GestureRecognizer.touchStep
    dsimp only
    unfold advanceTouchQueue
    split
    · exact .some (h.of_consumerSequence rfl)
    · rw [Option.map_eq_bind]
      refine Ensures.bind (P := fun result => WellFormed result.1) ?_ fun _ hr => .some hr
      refine (GestureSequence.process_loose (h.sequenceOf _) _ _).bind fun result hloose => ?_
      exact .some (h.setEntry hloose rfl)
  | transfer now around current next =>
    unfold GestureRecognizer.touchStep
    dsimp only
    rw [Option.map_eq_bind]
    refine Ensures.bind (P := fun result => WellFormed result.1) ?_ fun _ hr => .some hr
    refine Ensures.bind
      (P := fun state : GestureRecognizer (Consumer W) F × List Nat => WellFormed state.1) ?_
      fun state hr => .some (hr.transferConsumers current next)
    exact Ensures.foldlM
      (P := fun state : GestureRecognizer (Consumer W) F × List Nat => WellFormed state.1)
      WellFormed.cancelTouch _ h

theorem Reached.wellFormed (h : Reached m r) : WellFormed r := by
  obtain ⟨ops, hrun⟩ := h
  refine run_invariant (P := WellFormed) ?_ hrun ?_
  · intro r op r' hr hstep
    exact hr.touchStep op r' hstep
  · constructor
    · intro c s hs
      simp [new] at hs
    · rfl

end GestureRecognizer

end ChromiumUI.Gestures
