import ChromiumUI.GesturePoint
import ChromiumUI.Outcomes

/-!
# What a transition of a gesture sequence does

`Emits` lists the edges of the state machine with the gestures that each one reports; every
transition is one of them, and leaves the point ids alone unless it is the reset of a
cancelled click.
-/
namespace ChromiumUI.Gestures

open Outcomes GestureEvent

/-- An edge of the state machine: the touch, the number of points in use with a pressed one
counted and a lifted one still there, and the gestures reported. -/
inductive Emits : GestureState → EventType → Int → List GestureEventType → GestureState → Prop
  | touchDown {n} : Emits .noGesture .touchPressed n [.tapDown] .pendingSyntheticClick
  | click {n gs} (h : gs = [] ∨ gs = [.tap] ∨ gs = [.tap, .doubleTap]) :
    Emits .pendingSyntheticClick .touchReleased n gs .noGesture
  | wait {ty n} (h : ty = .touchMoved ∨ ty = .touchStationary) :
    Emits .pendingSyntheticClick ty n [] .pendingSyntheticClick
  | scrollStart {n gs} (h : gs = [.scrollBegin] ∨ gs = [.scrollBegin, .scrollUpdate]) :
    Emits .pendingSyntheticClick .touchMoved n gs .scroll
  | noGesture {n} : Emits .pendingSyntheticClick .touchCancelled n [] .noGesture
  | scrollMove {n gs} (h : gs = [] ∨ gs = [.scrollUpdate]) : Emits .scroll .touchMoved n gs .scroll
  | scrollEnd {ty n gs} (hty : ty = .touchReleased ∨ ty = .touchCancelled)
      (h : gs = [.scrollEnd] ∨ gs = [.scrollEnd, .scrollFlingStart]) :
    Emits .scroll ty n gs .noGesture
  | scrollToTwoFingerTap {n} : Emits .scroll .touchPressed n [.scrollEnd] .pendingTwoFingerTap
  | clickToTwoFingerTap {n} : Emits .pendingSyntheticClick .touchPressed n [] .pendingTwoFingerTap
  | scrollToPinch {n} : Emits .scroll .touchPressed n [.pinchBegin] .pinch
  | clickToPinch {n} :
    Emits .pendingSyntheticClick .touchPressed n [.pinchBegin, .scrollBegin] .pinch
  | twoFingerTouchReleased {n gs} (h : gs = [] ∨ gs = [.twoFingerTap]) :
    Emits .pendingTwoFingerTap .touchReleased n gs .scroll
  | twoFingerTouchMove {n} :
    Emits .pendingTwoFingerTap .touchMoved n [.pinchBegin, .scrollBegin] .pinch
  | twoFingerCancelled {n} : Emits .pendingTwoFingerTap .touchCancelled n [] .scroll
  | thirdTouchDown {n} :
    Emits .pendingTwoFingerTap .touchPressed n [.pinchBegin, .scrollBegin] .pinch
  | pinchMove {n gs} (h : gs = [] ∨ gs = [.pinchUpdate] ∨ gs = [.scrollUpdate]) :
    Emits .pinch .touchMoved n gs .pinch
  | pinchEnd {ty} (hty : ty = .touchReleased ∨ ty = .touchCancelled) :
    Emits .pinch ty 2 [.pinchEnd] .scroll
  | pinchLift {ty n gs} (hty : ty = .touchReleased ∨ ty = .touchCancelled) (hn : n ≠ 2)
      (h : gs = [] ∨ gs = [.multifingerSwipe]) : Emits .pinch ty n gs .pinch
  | pinchTouchDown {n} : Emits .pinch .touchPressed n [] .pinch
  | scrollStationary {n} : Emits .scroll .touchStationary n [] .scroll
  | twoFingerStill {ty n} (h : ty = .touchMoved ∨ ty = .touchStationary) :
    Emits .pendingTwoFingerTap ty n [] .pendingTwoFingerTap
  | pinchStationary {n} : Emits .pinch .touchStationary n [] .pinch

/-- The state belongs to the number of points in use. -/
def Fits : GestureState → Int → Prop
  | .noGesture, n => n = 0
  | .pendingSyntheticClick, n => n = 1
  | .scroll, n => n = 1
  | .pendingTwoFingerTap, n => n = 2
  | .pinch, n => 2 ≤ n

theorem Emits.fits {st st' : GestureState} {ty : EventType} {n : Int}
    {gs : List GestureEventType} (h : Emits st ty n gs st')
    (hfits : Fits st (if ty = .touchPressed then n - 1 else n)) :
    Fits st' (if ty = .touchReleased ∨ ty = .touchCancelled then n - 1 else n) := by
  cases h with
  | wait h => obtain rfl | rfl := h <;> simpa [Fits] using hfits
  | twoFingerStill h => obtain rfl | rfl := h <;> simpa [Fits] using hfits
  | scrollEnd hty => obtain rfl | rfl := hty <;> simp [Fits] at hfits ⊢ <;> omega
  | pinchEnd hty => obtain rfl | rfl := hty <;> simp [Fits]
  | pinchLift hty hn => obtain rfl | rfl := hty <;> simp [Fits] at hfits ⊢ <;> omega
  | pinchTouchDown | thirdTouchDown | scrollToPinch | clickToPinch | clickToTwoFingerTap
  | scrollToTwoFingerTap | touchDown | twoFingerTouchReleased | twoFingerCancelled | click
  | noGesture =>
    simp [Fits] at hfits ⊢
    omega
  | twoFingerTouchMove =>
    simp only [Fits] at hfits ⊢
    exact Int.le_of_eq hfits.symm
  | _ => simpa [Fits] using hfits

namespace GestureSequence

variable {F : Type} {s s' : GestureSequence F} {m : Measures F}

/-- The same points carry the same ids. -/
structure SameIds (s s' : GestureSequence F) : Prop where
  pointCount : s'.pointCount = s.pointCount
  pointId : ∀ i, (s'.points i).pointId = (s.points i).pointId
  touchId : ∀ i, (s'.points i).touchId = (s.points i).touchId

theorem SameIds.refl (s : GestureSequence F) : SameIds s s := ⟨rfl, fun _ => rfl, fun _ => rfl⟩

theorem SameIds.trans {s₁ s₂ s₃ : GestureSequence F} (h : SameIds s₁ s₂) (h' : SameIds s₂ s₃) :
    SameIds s₁ s₃ where
  pointCount := h'.pointCount.trans h.pointCount
  pointId i := (h'.pointId i).trans (h.pointId i)
  touchId i := (h'.touchId i).trans (h.touchId i)

theorem SameIds.of_points (hpoints : s'.points = s.points) (hcount : s'.pointCount = s.pointCount) :
    SameIds s s' :=
  ⟨hcount, fun i => by rw [hpoints], fun i => by rw [hpoints]⟩

theorem SameIds.modifyPoint {f : GesturePoint → GesturePoint} {i : Slot}
    (hpointId : ∀ point, (f point).pointId = point.pointId)
    (htouchId : ∀ point, (f point).touchId = point.touchId) : SameIds s (s.modifyPoint i f) where
  pointCount := rfl
  pointId j := by
    unfold GestureSequence.modifyPoint
    dsimp only
    split
    · exact hpointId _
    · rfl
  touchId j := by
    unfold GestureSequence.modifyPoint
    dsimp only
    split
    · exact htouchId _
    · rfl

theorem SameIds.resetVelocities (h : SameIds s s') : SameIds s s'.resetVelocities where
  pointCount := h.pointCount
  pointId j := by
    unfold GestureSequence.resetVelocities
    dsimp only
    split <;> exact h.pointId j
  touchId j := by
    unfold GestureSequence.resetVelocities
    dsimp only
    split <;> exact h.touchId j

/-- Every point id below the count belongs to a point. -/
def Covers (s : GestureSequence F) : Prop :=
  ∀ k, 0 ≤ k → k < s.pointCount → ∃ i, (s.points i).pointId = k

theorem Covers.of_sameIds (h : s.Covers) (hsame : SameIds s s') : s'.Covers := by
  intro k hk hlt
  obtain ⟨i, hi⟩ := h k hk (hsame.pointCount ▸ hlt)
  exact ⟨i, (hsame.pointId i).trans hi⟩

theorem Covers.getPointByPointId (h : s.Covers) {k : Int} (hk : 0 ≤ k) (hlt : k < s.pointCount) :
    ∃ i, s.getPointByPointId k = some i ∧ (s.points i).pointId = k := by
  obtain ⟨i, hi⟩ := h k hk hlt
  have hfound : ((List.finRange kMaxGesturePoints).find? fun i =>
      (s.points i).inUse && (s.points i).pointId == k).isSome := by
    rw [List.find?_isSome]
    exact ⟨i, List.mem_finRange i, by simp [GesturePoint.inUse, hi, hk]⟩
  obtain ⟨j, hj⟩ := Option.isSome_iff_exists.mp hfound
  have hid := List.find?_some hj
  rw [Bool.and_eq_true, beq_iff_eq] at hid
  exact ⟨j, hj, hid.2⟩

/-- UpdateForScroll of points that are there. -/
theorem updatePointsForScroll_yields (ks : List Nat) {s : GestureSequence F} (hcov : s.Covers)
    (hks : ∀ k ∈ ks, (k : Int) < s.pointCount) :
    Yields (updatePointsForScroll ks s) fun s' => SameIds s s' ∧ s'.state = s.state ∧
      s'.longPressTimerRunning = s.longPressTimerRunning := by
  induction ks generalizing s with
  | nil => exact .some ⟨.refl s, rfl, rfl⟩
  | cons k ks ih =>
    obtain ⟨i, hi, -⟩ := hcov.getPointByPointId (Int.natCast_nonneg k) (hks k (by simp))
    have hsame : SameIds s (s.modifyPoint i .updateForScroll) :=
      .modifyPoint (fun _ => rfl) fun _ => rfl
    rw [updatePointsForScroll, hi]
    refine (ih (hcov.of_sameIds hsame) fun k' hk' => hks k' (by simp [hk'])).mono ?_
    rintro s' ⟨hsame', hstate, htimer⟩
    exact ⟨hsame.trans hsame', hstate, htimer⟩

/-- What a transition does: an edge of the state machine, the point ids left alone or all of
them given up, and the timer started at most in the pending click. -/
structure Transits (event : TouchEvent) (s : GestureSequence F) (r : Recognized F) : Prop where
  emits : Emits s.state event.type s.pointCount (r.2.map type) r.1.state
  ids : SameIds s r.1 ∨ r.1 = s.reset ∧ s.state = .pendingSyntheticClick ∧ event.Lifts
  timer : r.1.longPressTimerRunning → s.longPressTimerRunning ∨
    r.1.state = .pendingSyntheticClick

variable {event : TouchEvent} {i : Slot}

theorem scrollGestureUpdate_types (location : Point) :
    (s.scrollGestureUpdate location).map type = [] ∨
      (s.scrollGestureUpdate location).map type = [.scrollUpdate] := by
  unfold scrollGestureUpdate
  dsimp only
  split
  · exact .inl rfl
  · exact .inr rfl

theorem scrollUpdate_spec : SameIds s (s.scrollUpdate i).1 ∧
    (s.scrollUpdate i).1.state = s.state ∧
    (s.scrollUpdate i).1.longPressTimerRunning = s.longPressTimerRunning ∧
    ((s.scrollUpdate i).2.map type = [] ∨
      (s.scrollUpdate i).2.map type = [.scrollUpdate]) := by
  unfold scrollUpdate
  split
  · exact ⟨.modifyPoint (fun _ => rfl) fun _ => rfl, rfl, rfl, scrollGestureUpdate_types _⟩
  · exact ⟨.refl s, rfl, rfl, .inl rfl⟩

theorem click_transits (hstate : s.state = .pendingSyntheticClick)
    (hty : event.type = .touchReleased) : Yields (s.click m event i) (Transits event s) := by
  unfold click
  split
  · have hsame : SameIds s (s.modifyPoint i .updateForTap) :=
      .modifyPoint (fun _ => rfl) fun _ => rfl
    refine .some ⟨?_, .inl (hsame.trans (.of_points rfl rfl)), .inl⟩
    rw [hstate, hty]
    apply Emits.click
    rw [List.map_cons]
    split
    · exact .inr (Or.inr rfl)
    · exact .inr (Or.inl rfl)
  · refine .some ⟨?_, .inl (.of_points rfl rfl), .inl⟩
    rw [hstate, hty]
    exact .click (Or.inl rfl)

theorem scrollStart_transits (hstate : s.state = .pendingSyntheticClick)
    (hty : event.type = .touchMoved ∨ event.type = .touchStationary) :
    Yields (s.scrollStart m event i) (Transits event s) := by
  unfold scrollStart
  dsimp only
  split
  · refine .some ⟨?_, .inl (.refl s), .inl⟩
    rw [hstate]
    exact .wait hty
  · rename_i hstart
    have hmoved : event.type = .touchMoved := by
      simp only [Bool.or_eq_true, not_or, Bool.not_eq_true', GesturePoint.isInScrollWindow,
        Bool.not_eq_false, Bool.and_eq_true, decide_eq_true_eq, Bool.not_eq_true] at hstart
      exact hstart.1.2.1
    generalize hs₁ : { s with
      scrollType := _
      state := .scroll } = s₁
    obtain ⟨hsame, hstate', htimer, htypes⟩ := @scrollUpdate_spec F s₁ i
    subst hs₁
    refine .some ⟨?_, .inl ⟨hsame.pointCount, hsame.pointId, hsame.touchId⟩, ?_⟩
    · rw [hstate, hmoved, hstate', List.map_cons]
      apply Emits.scrollStart
      obtain h | h := htypes
      · exact .inl (by rw [h])
      · exact .inr (by rw [h])
    · intro h
      exact .inl (htimer ▸ h)

theorem breakRailScroll_spec : SameIds s (s.breakRailScroll m i) ∧
    (s.breakRailScroll m i).state = s.state ∧
    (s.breakRailScroll m i).longPressTimerRunning = s.longPressTimerRunning := by
  unfold breakRailScroll
  split
  · exact ⟨.of_points rfl rfl, rfl, rfl⟩
  · split
    · exact ⟨.of_points rfl rfl, rfl, rfl⟩
    · exact ⟨.refl s, rfl, rfl⟩

theorem scrollMove_transits (hstate : s.state = .scroll) (hty : event.type = .touchMoved) :
    Yields (s.scrollMove m i) (Transits event s) := by
  have hbreak : ∀ s₁, s₁ = (if s.scrollType = .vertical ∨ s.scrollType = .horizontal then
      s.breakRailScroll m i else s) → SameIds s s₁ ∧ s₁.state = s.state ∧
        s₁.longPressTimerRunning = s.longPressTimerRunning := by
    rintro s₁ rfl
    split
    · exact breakRailScroll_spec
    · exact ⟨.refl s, rfl, rfl⟩
  obtain ⟨hsame, hstate₁, htimer₁⟩ := hbreak _ rfl
  unfold scrollMove
  generalize (if s.scrollType = .vertical ∨ s.scrollType = .horizontal then
      s.breakRailScroll m i else s) = s₁ at hsame hstate₁ htimer₁ ⊢
  obtain ⟨hsame', hstate', htimer', htypes⟩ := @scrollUpdate_spec F s₁ i
  refine .some ⟨?_, .inl (hsame.trans hsame'), ?_⟩
  · rw [hstate', hstate₁, hstate, hty]
    exact .scrollMove htypes
  · intro h
    exact .inl (htimer₁ ▸ htimer' ▸ h)

theorem pinchStart_transits (hcov : s.Covers) (hcount : 2 ≤ s.pointCount)
    (hemits : ∀ gs, gs = .pinchBegin ::
        (if s.state = .pendingSyntheticClick ∨ s.state = .pendingTwoFingerTap then
          [.scrollBegin] else []) → Emits s.state event.type s.pointCount gs .pinch) :
    Yields (s.pinchStart m i) (Transits event s) := by
  obtain ⟨i₁, h₁, -⟩ := hcov.getPointByPointId (k := 0) (by omega) (by omega)
  obtain ⟨i₂, h₂, -⟩ := hcov.getPointByPointId (k := 1) (by omega) (by omega)
  rw [pinchStart, h₁, h₂]
  refine .some ⟨hemits _ ?_, .inl (.of_points rfl rfl), .inl⟩
  rw [List.map_cons, apply_ite (List.map type)]
  rfl

theorem twoFingerTouchReleased_transits (hcov : s.Covers) (hcount : 1 ≤ s.pointCount)
    (hstate : s.state = .pendingTwoFingerTap) (hty : event.type = .touchReleased) :
    Yields (s.twoFingerTouchReleased m event i) (Transits event s) := by
  obtain ⟨i₀, h₀, -⟩ := hcov.getPointByPointId (k := 0) (by omega) (by omega)
  unfold twoFingerTouchReleased
  split
  · rw [h₀]
    refine .some ⟨?_, .inl (.of_points rfl rfl), .inl⟩
    rw [hstate, hty]
    exact .twoFingerTouchReleased (Or.inr rfl)
  · refine .some ⟨?_, .inl (.of_points rfl rfl), .inl⟩
    rw [hstate, hty]
    exact .twoFingerTouchReleased (Or.inl rfl)

theorem twoFingerTouchMove_transits (hcov : s.Covers) (hcount : 2 ≤ s.pointCount)
    (hstate : s.state = .pendingTwoFingerTap) (hty : event.type = .touchMoved) :
    Yields (s.twoFingerTouchMove m event i) (Transits event s) := by
  unfold twoFingerTouchMove
  split
  · apply pinchStart_transits hcov hcount
    rintro gs rfl
    rw [hstate, hty]
    exact .twoFingerTouchMove
  · refine .some ⟨?_, .inl (.refl s), .inl⟩
    rw [hstate, hty]
    exact .twoFingerStill (Or.inl rfl)

theorem pinchUpdate_spec : SameIds s (s.pinchUpdate m).1 ∧
    (s.pinchUpdate m).1.state = s.state ∧
    (s.pinchUpdate m).1.longPressTimerRunning = s.longPressTimerRunning ∧
    ((s.pinchUpdate m).2.map type = [] ∨
      (s.pinchUpdate m).2.map type = [.pinchUpdate] ∨
      (s.pinchUpdate m).2.map type = [.scrollUpdate]) := by
  unfold pinchUpdate
  dsimp only
  split
  · exact ⟨.of_points rfl rfl, rfl, rfl, .inr (Or.inl rfl)⟩
  · refine ⟨.refl s, rfl, rfl, ?_⟩
    obtain h | h := @scrollGestureUpdate_types F s s.boundingBox.centerPoint
    · exact .inl h
    · exact .inr (Or.inr h)

theorem pinchMove_transits (hcov : s.Covers) (hstate : s.state = .pinch)
    (hty : event.type = .touchMoved) : Yields (s.pinchMove m) (Transits event s) := by
  obtain ⟨hsame, hstate', htimer, htypes⟩ := @pinchUpdate_spec F s m
  unfold pinchMove
  apply (updatePointsForScroll_yields _ (hcov.of_sameIds hsame) ?_).bind
  · rintro s' ⟨hsame', hstate'', htimer'⟩
    refine .some ⟨?_, .inl (hsame.trans hsame'), ?_⟩
    · rw [hstate'', hstate', hstate, hty]
      exact .pinchMove htypes
    · intro h
      exact .inl (htimer ▸ htimer' ▸ h)
  · intro k hk
    rw [List.mem_range] at hk
    rw [hsame.pointCount]
    omega

variable [Zero F]

theorem pinchLift_transits (hcov : s.Covers) (hstate : s.state = .pinch)
    (hty : event.type = .touchReleased ∨ event.type = .touchCancelled) :
    Yields (s.pinchLift m) (Transits event s) := by
  unfold pinchLift
  split
  · rename_i hcount
    obtain ⟨i₁, h₁, -⟩ := hcov.getPointByPointId (k := 0) (by omega) (by omega)
    obtain ⟨i₂, h₂, -⟩ := hcov.getPointByPointId (k := 1) (by omega) (by omega)
    rw [pinchEnd, h₁, h₂]
    have hsame := (SameIds.refl s).resetVelocities
    refine .some ⟨?_, .inl ⟨hsame.pointCount, hsame.pointId, hsame.touchId⟩, .inl⟩
    rw [hstate, hcount]
    exact .pinchEnd hty
  · rename_i hcount
    refine .some ⟨?_, .inl (SameIds.refl s).resetVelocities, .inl⟩
    rw [show s.resetVelocities.state = .pinch from hstate, hstate]
    apply Emits.pinchLift hty hcount
    unfold maybeSwipe
    split
    · exact .inr rfl
    · exact .inl rfl

variable [DecidableEq F]

theorem scrollGestureEnd_types (x y : F) :
    (s.scrollGestureEnd i x y).map type = [.scrollEnd] ∨
      (s.scrollGestureEnd i x y).map type = [.scrollEnd, .scrollFlingStart] := by
  unfold scrollGestureEnd
  dsimp only
  generalize (if s.scrollType = .vertical then 0 else x) = railedXVelocity
  generalize (if s.scrollType = .horizontal then 0 else y) = railedYVelocity
  split
  · exact .inr rfl
  · exact .inl rfl

/-- Nothing is flung without a velocity. -/
theorem scrollGestureEnd_zero : (s.scrollGestureEnd i 0 0).map type = [.scrollEnd] := by
  simp [scrollGestureEnd]

theorem scrollEnd_transits (hstate : s.state = .scroll)
    (hty : event.type = .touchReleased ∨ event.type = .touchCancelled) :
    Yields (s.scrollEnd m event i) (Transits event s) := by
  refine .some ⟨?_, .inl (.of_points rfl rfl), .inl⟩
  rw [hstate]
  apply Emits.scrollEnd hty
  split <;> exact scrollGestureEnd_types _ _

theorem secondTouchDown_transits (hcov : s.Covers) (hcount : 2 ≤ s.pointCount)
    (hstate : s.state = .scroll ∨ s.state = .pendingSyntheticClick)
    (hty : event.type = .touchPressed) :
    Yields (s.secondTouchDown m event i) (Transits event s) := by
  obtain ⟨i₁, h₁, -⟩ := hcov.getPointByPointId (k := 0) (by omega) (by omega)
  obtain ⟨i₂, h₂, -⟩ := hcov.getPointByPointId (k := 1) (by omega) (by omega)
  rw [secondTouchDown, isSecondTouchDownCloseEnoughForTwoFingerTap, h₁, h₂]
  simp only [Option.bind_eq_bind, Option.bind_some, Option.pure_def]
  split
  · refine .some ⟨?_, .inl (.of_points rfl rfl), .inl⟩
    rw [hty]
    obtain h | h := hstate
    · rw [h, if_pos rfl, scrollGestureEnd_zero]
      exact .scrollToTwoFingerTap
    · rw [h, if_neg (by decide)]
      exact .clickToTwoFingerTap
  · apply pinchStart_transits hcov hcount
    rintro gs rfl
    rw [hty]
    obtain h | h := hstate
    · rw [h]
      exact .scrollToPinch
    · rw [h]
      exact .clickToPinch

/-- In a state that belongs to the points in use, every transition is an edge. -/
theorem transition_transits {pointId : Nat} (hcov : s.Covers)
    (hfits : Fits s.state
      (if event.type = .touchPressed then s.pointCount - 1 else s.pointCount))
    (hpress : event.type = .touchPressed → (pointId : Int) = s.pointCount - 1)
    (hdown : event.type ≠ .touchPressed → (pointId : Int) < s.pointCount) :
    Yields (s.transition m pointId event i) (Transits event s) := by
  have hkeep : Emits s.state event.type s.pointCount [] s.state →
      Yields (some (s, [])) (Transits event s) := fun h =>
    .some ⟨h, .inl (.refl s), .inl⟩
  unfold transition
  cases hstate : s.state with
  | noGesture =>
    cases hty : event.type with
    | touchPressed =>
      simp only [hstate, hty, if_true, Fits] at hfits
      obtain rfl : pointId = 0 := by have := hpress hty; omega
      refine .some ⟨?_, .inl (.of_points rfl rfl), fun _ => .inr rfl⟩
      rw [hstate, hty]
      exact .touchDown
    | _ =>
      simp [hstate, hty, Fits] at hfits hdown
      omega
  | pendingSyntheticClick =>
    cases hty : event.type with
    | touchPressed =>
      simp only [hstate, hty, if_true, Fits] at hfits
      obtain rfl : pointId = 1 := by have := hpress hty; omega
      exact secondTouchDown_transits hcov (by omega) (Or.inr hstate) hty
    | _ =>
      simp [hstate, hty, Fits] at hfits hdown
      obtain rfl : pointId = 0 := by omega
      first
        | exact click_transits hstate hty
        | exact scrollStart_transits hstate (Or.inl hty)
        | exact scrollStart_transits hstate (Or.inr hty)
        | refine .some ⟨?_, .inr ⟨rfl, hstate, .inr hty⟩, .inl⟩
          rw [hstate, hty]
          exact .noGesture
  | scroll =>
    cases hty : event.type with
    | touchPressed =>
      simp only [hstate, hty, if_true, Fits] at hfits
      obtain rfl : pointId = 1 := by have := hpress hty; omega
      exact secondTouchDown_transits hcov (by omega) (Or.inl hstate) hty
    | _ =>
      simp [hstate, hty, Fits] at hfits hdown
      obtain rfl : pointId = 0 := by omega
      first
        | exact scrollMove_transits hstate hty
        | exact scrollEnd_transits hstate (Or.inl hty)
        | exact scrollEnd_transits hstate (Or.inr hty)
        | exact hkeep (by rw [hstate, hty]; exact .scrollStationary)
  | pendingTwoFingerTap =>
    cases hty : event.type with
    | touchPressed =>
      simp only [hstate, hty, if_true, Fits] at hfits
      obtain rfl : pointId = 2 := by have := hpress hty; omega
      apply pinchStart_transits hcov (by omega)
      rintro gs rfl
      rw [hstate, hty]
      exact .thirdTouchDown
    | _ =>
      simp [hstate, hty, Fits] at hfits hdown
      have hcancelled : event.type = .touchCancelled →
          Yields s.twoFingerCancelled (Transits event s) := fun h =>
        .some ⟨by rw [hstate, h]; exact .twoFingerCancelled, .inl (.of_points rfl rfl), .inl⟩
      have hstationary : event.type = .touchStationary →
          Yields (some (s, [])) (Transits event s) := fun h =>
        hkeep (by rw [hstate, h]; exact .twoFingerStill (Or.inr rfl))
      obtain rfl | rfl : pointId = 0 ∨ pointId = 1 := by omega
      all_goals first
        | exact twoFingerTouchReleased_transits hcov (by omega) hstate hty
        | exact twoFingerTouchMove_transits hcov (by omega) hstate hty
        | exact hcancelled hty
        | exact hstationary hty
  | pinch =>
    cases hty : event.type with
    | touchMoved =>
      dsimp only
      split
      · exact pinchMove_transits hcov hstate hty
      · exact hkeep (by rw [hstate, hty]; exact .pinchMove (Or.inl rfl))
    | touchPressed =>
      dsimp only
      split
      · refine .some ⟨?_, .inl (.of_points rfl rfl), .inl⟩
        rw [hty]
        exact hstate ▸ .pinchTouchDown
      · exact hkeep (by rw [hstate, hty]; exact .pinchTouchDown)
    | touchStationary => exact hkeep (by rw [hstate, hty]; exact .pinchStationary)
    | _ =>
      have hlift : event.type = .touchReleased ∨ event.type = .touchCancelled := by
        simp [hty]
      have hlt := hdown (by simp [hty])
      dsimp only
      split
      · exact pinchLift_transits hcov hstate hlift
      · apply hkeep
        rw [hstate]
        exact .pinchLift hlift (by omega) (Or.inl rfl)

end GestureSequence

end ChromiumUI.Gestures
