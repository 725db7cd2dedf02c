import ChromiumUI.GestureTransitions
import ChromiumUI.Runs

/-!
# The state invariant of a gesture sequence

The point ids in use are numbered without gaps, the state belongs to their number and the
long-press timer runs only while a click is pending, after every stream of touches in which
each finger alternates.
-/
namespace ChromiumUI.Gestures

open Outcomes Runs

/-! ## The numbering of the points -/

variable {down : List Nat}

namespace GestureSequence

variable {F : Type} {s s' : GestureSequence F} {m : Measures F} {event : TouchEvent} {i : Slot}

/-- The ids in use are distinct and below the point count. -/
structure Distinct (s : GestureSequence F) : Prop where
  lt : ∀ i, (s.points i).pointId < s.pointCount
  inj : ∀ i j, 0 ≤ (s.points i).pointId → (s.points i).pointId = (s.points j).pointId → i = j

theorem Distinct.of_sameIds (h : Distinct s) (hsame : SameIds s s') : Distinct s' where
  lt i := by
    rw [hsame.pointId, hsame.pointCount]
    exact h.lt i
  inj i j := by
    rw [hsame.pointId, hsame.pointId]
    exact h.inj i j

/-- The points in use carry the ids below the point count, each once, and know their slot. -/
structure Numbered (s : GestureSequence F) : Prop where
  nonneg : 0 ≤ s.pointCount
  lt : ∀ i, (s.points i).pointId < s.pointCount
  ge : ∀ i, -1 ≤ (s.points i).pointId
  inj : ∀ i j, 0 ≤ (s.points i).pointId → (s.points i).pointId = (s.points j).pointId → i = j
  covers : s.Covers
  touchId : ∀ i, 0 ≤ (s.points i).pointId → (s.points i).touchId = i

theorem inUse_iff {point : GesturePoint} : point.inUse = true ↔ 0 ≤ point.pointId := by
  simp [GesturePoint.inUse]

theorem Numbered.distinct (h : Numbered s) : Distinct s := ⟨h.lt, h.inj⟩

theorem Numbered.of_sameIds (h : Numbered s) (hsame : SameIds s s') : Numbered s' where
  nonneg := hsame.pointCount ▸ h.nonneg
  lt := (h.distinct.of_sameIds hsame).lt
  ge i := by
    rw [hsame.pointId]
    exact h.ge i
  inj := (h.distinct.of_sameIds hsame).inj
  covers := h.covers.of_sameIds hsame
  touchId i := by
    rw [hsame.pointId, hsame.touchId]
    exact h.touchId i

theorem Numbered.bijOn (h : Numbered s) :
    Set.BijOn (fun i => (s.points i).pointId) {i | (s.points i).inUse = true}
      (Set.Ico 0 s.pointCount) := by
  refine ⟨fun i hi => ⟨inUse_iff.mp hi, h.lt i⟩, fun i hi j _ hij => h.inj i j (inUse_iff.mp hi) hij,
    fun k hk => ?_⟩
  obtain ⟨i, hi⟩ := h.covers k hk.1 hk.2
  exact ⟨i, inUse_iff.mpr (hi ▸ hk.1), hi⟩

/-- Twelve points in use leave no slot free. -/
theorem Numbered.pointCount_lt (h : Numbered s) (hfree : (s.points i).inUse = false) :
    s.pointCount < kMaxGesturePoints := by
  by_contra hfull
  have hslot : ∀ k : Fin kMaxGesturePoints, ∃ j, (s.points j).pointId = k :=
    fun k => h.covers k (by omega) (by have := k.isLt; omega)
  choose slot hid using hslot
  have hinj : Function.Injective slot := by
    intro k k' hk
    have := hid k
    rw [hk, hid k'] at this
    exact Fin.ext (by omega)
  obtain ⟨k, hk⟩ := Finite.injective_iff_surjective.mp hinj i
  have := inUse_iff.mpr (show 0 ≤ (s.points i).pointId by rw [← hk, hid]; omega)
  rw [hfree] at this
  cases this

theorem numbered_of_cleared (hcount : s.pointCount = 0)
    (hids : ∀ i, (s.points i).pointId = -1) : Numbered s where
  nonneg := hcount.ge
  lt i := by
    rw [hids, hcount]
    decide
  ge i := (hids i).ge
  inj i j h := by
    rw [hids] at h
    exact absurd h (by decide)
  covers k hk hlt := absurd hk (Int.not_le.mpr (hcount ▸ hlt))
  touchId i h := by
    rw [hids] at h
    exact absurd h (by decide)

theorem numbered_new [Zero F] : Numbered (new : GestureSequence F) :=
  numbered_of_cleared rfl fun _ => rfl

theorem points_addPoint (s : GestureSequence F) (i j : Slot) :
    (s.addPoint i).points j =
      if j = i then { s.points j with pointId := s.pointCount, touchId := i } else s.points j := rfl

/-- A pressed finger takes an id of its own, whether it had one before or not. -/
theorem Distinct.addPoint (h : Distinct s) : Distinct (s.addPoint i) := by
  have hcount : (s.addPoint i).pointCount = s.pointCount + 1 := rfl
  have hpointId : ∀ j, ((s.addPoint i).points j).pointId =
      if j = i then s.pointCount else (s.points j).pointId := by
    intro j
    rw [points_addPoint]
    split <;> rfl
  constructor
  · intro j
    rw [hpointId, hcount]
    have := h.lt j
    split <;> omega
  · intro j k
    rw [hpointId, hpointId]
    have hj := h.lt j
    have hk := h.lt k
    split <;> split
    · intros
      simp [*]
    · intros
      omega
    · intros
      omega
    · exact h.inj j k

theorem Numbered.addPoint (h : Numbered s) (hfree : (s.points i).inUse = false) :
    Numbered (s.addPoint i) := by
  have hcount : (s.addPoint i).pointCount = s.pointCount + 1 := rfl
  have hpointId : ∀ j, ((s.addPoint i).points j).pointId =
      if j = i then s.pointCount else (s.points j).pointId := by
    intro j
    rw [points_addPoint]
    split <;> rfl
  have hnneg := h.nonneg
  refine ⟨by omega, h.distinct.addPoint.lt, ?_, h.distinct.addPoint.inj, ?_, ?_⟩
  · intro j
    rw [hpointId]
    have := h.ge j
    split <;> omega
  · intro k hk hlt
    rw [hcount] at hlt
    by_cases hlast : k = s.pointCount
    · exact ⟨i, by rw [hpointId, if_pos rfl, hlast]⟩
    · obtain ⟨j, hj⟩ := h.covers k hk (by omega)
      have hne : j ≠ i := by
        rintro rfl
        rw [← Bool.not_eq_true, inUse_iff] at hfree
        omega
      exact ⟨j, by rw [hpointId, if_neg hne, hj]⟩
  · intro j
    rw [hpointId, points_addPoint]
    split
    · rename_i hj
      intro _
      rw [hj]
    · exact h.touchId j

theorem sameIds_recreateBoundingBox : SameIds s s.recreateBoundingBox := .of_points rfl rfl

theorem sameIds_updatePoint : SameIds s (s.updatePoint m event i) := by
  have h : SameIds s (s.modifyPoint i fun point => point.updateValues m event) :=
    .modifyPoint (fun _ => GesturePoint.pointId_updateValues m _ _)
      fun _ => GesturePoint.touchId_updateValues m _ _
  exact h.trans sameIds_recreateBoundingBox

/-- Where the slots stand when the point of `i` is gone. -/
structure Removes (i : Slot) (s s' : GestureSequence F) : Prop where
  state : s'.state = s.state
  timer : s'.longPressTimerRunning = s.longPressTimerRunning
  pointCount : s'.pointCount = s.pointCount - 1
  removed : (s'.points i).pointId = -1
  pointId : ∀ j, j ≠ i → (s'.points j).pointId =
    if (s.points j).pointId > (s.points i).pointId then (s.points j).pointId - 1
    else (s.points j).pointId
  touchId : ∀ j, (s'.points j).touchId = (s.points j).touchId

theorem removes_removePoint (hi : (s.points i).inUse = true) : Removes i s (s.removePoint m i) := by
  have hown : (s.closeGap (s.points i).pointId).points i = s.points i := by
    simp [closeGap]
  generalize hs' : { (s.closeGap (s.points i).pointId).modifyPoint i .reset with
    pointCount := s.pointCount - 1 }.recreateBoundingBox = s'
  have hrem : Removes i s s' := by
    subst hs'
    constructor
    · rfl
    · rfl
    · rfl
    · simp [recreateBoundingBox, modifyPoint]
    · intro j hj
      simp only [recreateBoundingBox, modifyPoint, if_neg hj, closeGap]
      split <;> rfl
    · intro j
      simp only [recreateBoundingBox, modifyPoint, closeGap]
      split <;> split <;> rfl
  rw [removePoint]
  dsimp only
  rw [hown, if_pos hi]
  rw [show (s.closeGap (s.points i).pointId).pointCount = s.pointCount from rfl, hs']
  split
  · exact ⟨hrem.state, hrem.timer, hrem.pointCount, hrem.removed,
      hrem.pointId, hrem.touchId⟩
  · exact hrem

theorem Distinct.of_removes (h : Distinct s) (hi : (s.points i).inUse = true)
    (hrem : Removes i s s') : Distinct s' := by
  have hpos := inUse_iff.mp hi
  have hlt := h.lt i
  have hdist : ∀ j, j ≠ i → (s.points j).pointId ≠ (s.points i).pointId :=
    fun j hj hid => hj (h.inj i j hpos hid.symm).symm
  constructor
  · intro j
    rw [hrem.pointCount]
    by_cases hj : j = i
    · rw [hj, hrem.removed]
      omega
    · rw [hrem.pointId j hj]
      have := h.lt j
      have := hdist j hj
      split <;> omega
  · intro j k hpos' hid
    have hj : j ≠ i := by
      rintro rfl
      rw [hrem.removed] at hpos'
      omega
    have hk : k ≠ i := by
      rintro rfl
      rw [hid, hrem.removed] at hpos'
      omega
    rw [hrem.pointId j hj] at hpos' hid
    rw [hrem.pointId k hk] at hid
    have := hdist j hj
    have := hdist k hk
    apply h.inj j k
    · split at hpos' <;> omega
    · split at hid <;> split at hid <;> omega

theorem Numbered.of_removes (h : Numbered s) (hi : (s.points i).inUse = true)
    (hrem : Removes i s s') : Numbered s' := by
  have hpos := inUse_iff.mp hi
  have hdist := h.distinct.of_removes hi hrem
  refine ⟨?_, hdist.lt, ?_, hdist.inj, ?_, ?_⟩
  · rw [hrem.pointCount]
    have := h.lt i
    omega
  · intro j
    by_cases hj : j = i
    · rw [hj, hrem.removed]
    · rw [hrem.pointId j hj]
      have := h.ge j
      split <;> omega
  · intro k hk hlt
    rw [hrem.pointCount] at hlt
    by_cases hbelow : k < (s.points i).pointId
    · obtain ⟨j, hj⟩ := h.covers k hk (by omega)
      have hne : j ≠ i := by
        rintro rfl
        omega
      exact ⟨j, by rw [hrem.pointId j hne, if_neg (by omega), hj]⟩
    · obtain ⟨j, hj⟩ := h.covers (k + 1) (by omega) (by omega)
      have hne : j ≠ i := by
        rintro rfl
        omega
      refine ⟨j, ?_⟩
      rw [hrem.pointId j hne, if_pos (by omega), hj]
      omega
  · intro j hj
    rw [hrem.touchId]
    apply h.touchId
    by_cases hne : j = i
    · rw [hne]
      exact hpos
    · rw [hrem.pointId j hne] at hj
      split at hj <;> omega

/-! ## One touch -/

/-- What holds between two touches: the fingers with a point are those that are down. -/
structure Invariant (down : List Nat) (s : GestureSequence F) : Prop where
  numbered : Numbered s
  fits : Fits s.state s.pointCount
  timer : s.longPressTimerRunning = true → s.state = .pendingSyntheticClick
  inUse : ∀ i : Slot, (s.points i).inUse = true ↔ i.val ∈ down

theorem invariant_new [Zero F] : Invariant [] (new : GestureSequence F) where
  numbered := numbered_new
  fits := rfl
  timer h := by cases h
  inUse i := by
    constructor
    · intro h
      exact absurd (inUse_iff.mp h) (show ¬(0 : Int) ≤ -1 by decide)
    · intro h
      cases h

theorem SameIds.inUse (h : SameIds s s') (i : Slot) : (s'.points i).inUse = (s.points i).inUse := by
  rw [GesturePoint.inUse, GesturePoint.inUse, h.pointId]

/-- The invariant reads no more than the ids, the state and the timer. -/
theorem Invariant.of_sameIds (h : Invariant down s) (hsame : SameIds s s')
    (hstate : s'.state = s.state) (htimer : s'.longPressTimerRunning = s.longPressTimerRunning) :
    Invariant down s' where
  numbered := h.numbered.of_sameIds hsame
  fits := by
    rw [hstate, hsame.pointCount]
    exact h.fits
  timer := by
    rw [hstate, htimer]
    exact h.timer
  inUse i := by
    rw [hsame.inUse]
    exact h.inUse i

theorem state_stopLongPressTimer (s : GestureSequence F) (lastState : GestureState) :
    (s.stopLongPressTimer lastState).state = s.state := by
  unfold stopLongPressTimer
  split <;> rfl

theorem sameIds_stopLongPressTimer (s : GestureSequence F) (lastState : GestureState) :
    SameIds s (s.stopLongPressTimer lastState) := by
  unfold stopLongPressTimer
  split
  · exact .of_points rfl rfl
  · exact .refl s

/-- Once the click is decided the timer is stopped. -/
theorem timer_stopLongPressTimer {lastState : GestureState}
    (h : s.longPressTimerRunning = true → lastState = .pendingSyntheticClick ∨
      s.state = .pendingSyntheticClick)
    (hrun : (s.stopLongPressTimer lastState).longPressTimerRunning = true) :
    s.state = .pendingSyntheticClick := by
  unfold stopLongPressTimer at hrun
  split at hrun
  · cases hrun
  · rename_i hkeep
    obtain hlast | hstate := h hrun
    · rw [not_and_not_right] at hkeep
      exact (hkeep hlast).trans hlast
    · exact hstate

/-- The gestures around those of the transition. -/
def begins (event : TouchEvent) : List GestureEvent :=
  if event.type = .touchPressed then [⟨.gestureBegin, 1 <<< event.touchId⟩] else []

def ends (event : TouchEvent) : List GestureEvent :=
  if event.Lifts then [⟨.gestureEnd, 1 <<< event.touchId⟩] else []

/-- The touch is taken: one edge of the state machine between GESTURE_BEGIN and GESTURE_END. -/
def Takes (event : TouchEvent) (s : GestureSequence F)
    (r : GestureSequence F × Option (List GestureEvent)) : Prop :=
  ∃ n gs, Emits s.state event.type n (gs.map GestureEvent.type) r.1.state ∧
    r.2 = some (begins event ++ gs ++ ends event)

/-- The fingers that are down after the touch. -/
def downAfter (down : List Nat) (event : TouchEvent) : List Nat :=
  if event.type = .touchPressed then event.touchId :: down
  else if event.Lifts then down.filter (· ≠ event.touchId)
  else down

theorem touchBit_of_numbered (h : Numbered s) (hi : (s.points i).inUse = true) :
    s.touchBit i = 1 <<< i.val := by
  rw [touchBit, h.touchId i (inUse_iff.mp hi)]
  rfl

theorem Transits.touchBit {r : Recognized F} (h : Transits event s r) :
    r.1.touchBit i = s.touchBit i := by
  rw [GestureSequence.touchBit, GestureSequence.touchBit]
  obtain hsame | ⟨hreset, -⟩ := h.ids
  · rw [hsame.touchId]
  · rw [hreset]
    rfl

/-- A lift that finds its point given up already changes no id. -/
theorem removePoint_cleared (hids : ∀ i, (s.points i).pointId = -1) :
    SameIds s (s.removePoint m i) ∧ (s.removePoint m i).state = s.state ∧
      (s.removePoint m i).longPressTimerRunning = s.longPressTimerRunning := by
  have hgap : ∀ j, (s.closeGap (s.points i).pointId).points j = s.points j := by
    intro j
    simp [closeGap, hids]
  have hfree : ¬((s.closeGap (s.points i).pointId).points i).inUse = true := by
    rw [hgap, inUse_iff, hids]
    decide
  rw [removePoint]
  rw [if_neg hfree]
  exact ⟨.of_points (funext hgap) rfl, rfl, rfl⟩

/-- Lifting a finger that has its point. -/
theorem invariant_removePoint (hnumbered : Numbered s) (hused : (s.points i).inUse = true)
    (hinUse : ∀ j : Slot, (s.points j).inUse = true ↔ j.val = i.val ∨ j.val ∈ down)
    (hfits : Fits s.state (s.pointCount - 1))
    (htimer : s.longPressTimerRunning = true → s.state = .pendingSyntheticClick) :
    Invariant (down.filter (· ≠ i.val)) (s.removePoint m i) ∧
      (s.removePoint m i).state = s.state := by
  have hrem : Removes i s (s.removePoint m i) := removes_removePoint hused
  have hpos := inUse_iff.mp hused
  refine ⟨⟨hnumbered.of_removes hused hrem, ?_, ?_, ?_⟩, hrem.state⟩
  · rw [hrem.state, hrem.pointCount]
    exact hfits
  · rw [hrem.timer, hrem.state]
    exact htimer
  · intro j
    rw [List.mem_filter, decide_eq_true_eq]
    by_cases hj : j = i
    · rw [inUse_iff, hj, hrem.removed]
      simp
    · have hne : j.val ≠ i.val := fun he => hj (Fin.ext he)
      have hpre := hinUse j
      rw [inUse_iff] at hpre
      rw [inUse_iff, hrem.pointId j hj]
      have : (s.points j).pointId ≠ (s.points i).pointId :=
        fun he => hj (hnumbered.inj i j hpos he.symm).symm
      constructor
      · intro hge
        exact ⟨(hpre.mp (by split at hge <;> omega)).resolve_left hne, hne⟩
      · rintro ⟨hmem, -⟩
        have := hpre.mpr (Or.inr hmem)
        split <;> omega

/-- Lifting the finger of a click whose reset gave up the point. -/
theorem invariant_removePoint_cleared (hids : ∀ j, (s.points j).pointId = -1)
    (hcount : s.pointCount = 0) (hstate : s.state = .noGesture)
    (hrun : s.longPressTimerRunning = false) (hdown : ∀ j : Slot, j.val ∈ down → j = i) :
    Invariant (down.filter (· ≠ i.val)) (s.removePoint m i) ∧
      (s.removePoint m i).state = s.state := by
  obtain ⟨hsame, hstate', htimer'⟩ := @removePoint_cleared F s m i hids
  have hids' : ∀ j, ((s.removePoint m i).points j).pointId = -1 := fun j =>
    (hsame.pointId j).trans (hids j)
  have hcount' : (s.removePoint m i).pointCount = 0 := hsame.pointCount.trans hcount
  refine ⟨⟨numbered_of_cleared hcount' hids', ?_, ?_, ?_⟩, hstate'⟩
  · rw [hstate', hstate, hcount']
    rfl
  · rw [htimer', hrun]
    exact nofun
  · intro j
    rw [inUse_iff, hids', List.mem_filter, decide_eq_true_eq]
    constructor
    · intro hge
      exact absurd hge (by decide)
    · rintro ⟨hmem, hne⟩
      exact absurd (congrArg Fin.val (hdown j hmem)) hne

/-- The touch of a finger that has its point. -/
theorem transition_takes [Zero F] [DecidableEq F] (s₂ : GestureSequence F) (h : Invariant down s)
    (hlt : event.touchId < kMaxGesturePoints) (hstate : s₂.state = s.state)
    (htimer : s₂.longPressTimerRunning = s.longPressTimerRunning) (hnumbered : Numbered s₂)
    (hcount : s.pointCount =
      if event.type = .touchPressed then s₂.pointCount - 1 else s₂.pointCount)
    (hinUse : ∀ j : Slot, (s₂.points j).inUse = true ↔ j.val = event.touchId ∨ j.val ∈ down)
    (hlast : event.type = .touchPressed →
      (s₂.points ⟨event.touchId, hlt⟩).pointId = s₂.pointCount - 1)
    (hdown : event.type ≠ .touchPressed → event.touchId ∈ down) :
    Yields (do
      let r ← s₂.transition m (s₂.points ⟨event.touchId, hlt⟩).pointId.toNat event
        ⟨event.touchId, hlt⟩
      let s₃ := r.1.stopLongPressTimer s.state
      return (if event.Lifts then s₃.removePoint m ⟨event.touchId, hlt⟩ else s₃,
        some ((if event.type = .touchPressed then
            [⟨.gestureBegin, s₂.touchBit ⟨event.touchId, hlt⟩⟩] else []) ++ r.2 ++
          (if event.Lifts then [⟨.gestureEnd, r.1.touchBit ⟨event.touchId, hlt⟩⟩] else []))))
      fun r => Invariant (downAfter down event) r.1 ∧ Takes event s r := by
  set i : Slot := ⟨event.touchId, hlt⟩ with hi
  have hused : (s₂.points i).inUse = true := (hinUse i).mpr (Or.inl rfl)
  have hpos := inUse_iff.mp hused
  have hid : ((s₂.points i).pointId.toNat : Int) = (s₂.points i).pointId := Int.toNat_of_nonneg hpos
  have hfits : Fits s₂.state
      (if event.type = .touchPressed then s₂.pointCount - 1 else s₂.pointCount) := by
    rw [hstate, ← hcount]
    exact h.fits
  apply (transition_transits hnumbered.covers hfits (fun hty => hid ▸ hlast hty)
    fun _ => hid ▸ hnumbered.lt i).bind
  rintro ⟨s₃, gs⟩ htransits
  have hemits := htransits.emits
  have hafter : Fits s₃.state
      (if event.Lifts then s₂.pointCount - 1 else s₂.pointCount) := hemits.fits hfits
  obtain ⟨hsame₄, hstate₄, htimer₄⟩ : SameIds s₃ (s₃.stopLongPressTimer s.state) ∧
      (s₃.stopLongPressTimer s.state).state = s₃.state ∧
      ((s₃.stopLongPressTimer s.state).longPressTimerRunning = true →
        s₃.state = .pendingSyntheticClick) := by
    refine ⟨sameIds_stopLongPressTimer s₃ _, state_stopLongPressTimer s₃ _, ?_⟩
    apply timer_stopLongPressTimer
    intro hrun
    obtain hrun | hpend := htransits.timer hrun
    · exact Or.inl (h.timer (htimer ▸ hrun))
    · exact Or.inr hpend
  have hends : s₃.touchBit i = s₂.touchBit i := htransits.touchBit
  generalize s₃.stopLongPressTimer s.state = s₄ at hsame₄ hstate₄ htimer₄ ⊢
  suffices hfinal : ∀ s₅, s₅ = (if event.Lifts then s₄.removePoint m i else s₄) →
      Invariant (downAfter down event) s₅ ∧ s₅.state = s₃.state by
    obtain ⟨hinv, hstate₅⟩ := hfinal _ rfl
    refine .some ⟨hinv, s₂.pointCount, gs, ?_, ?_⟩
    · rw [hstate₅, ← hstate]
      exact hemits
    · dsimp only
      rw [hends, touchBit_of_numbered hnumbered hused]
      rfl
  rintro s₅ rfl
  by_cases hlifts : event.Lifts
  · have hnotPressed : event.type ≠ .touchPressed := by
      obtain hty | hty := hlifts <;> simp [hty]
    rw [if_pos hlifts, downAfter, if_neg hnotPressed, if_pos hlifts]
    rw [if_pos hlifts] at hafter
    show Invariant (down.filter (· ≠ i.val)) _ ∧ _
    obtain hsame | ⟨hreset, hpend, -⟩ := htransits.ids
    · have hsame' := hsame.trans hsame₄
      rw [← hstate₄, ← hsame'.pointCount] at hafter
      rw [← hstate₄] at htimer₄ ⊢
      apply invariant_removePoint (hnumbered.of_sameIds hsame') _ _ hafter htimer₄
      · rw [hsame'.inUse]
        exact hused
      · intro j
        rw [hsame'.inUse]
        exact hinUse j
    · have hone : s₂.pointCount = 1 := by
        rw [if_neg hnotPressed, hpend] at hfits
        exact hfits
      have hs₃ : s₃ = s₂.reset := hreset
      have hnone : s₄.state = .noGesture := by
        rw [hstate₄, hs₃]
        rfl
      rw [← hstate₄] at htimer₄ ⊢
      apply invariant_removePoint_cleared _ _ hnone
      · rw [← Bool.not_eq_true]
        intro hrun
        have := htimer₄ hrun
        rw [hnone] at this
        cases this
      · intro j hmem
        have hj := inUse_iff.mp ((hinUse j).mpr (Or.inr hmem))
        have := hnumbered.lt j
        have := hnumbered.lt i
        exact hnumbered.inj j i hj (by omega)
      · intro j
        rw [hsame₄.pointId, hs₃]
        rfl
      · rw [hsame₄.pointCount, hs₃]
        rfl
  · rw [if_neg hlifts]
    have hsame : SameIds s₂ s₄ := by
      obtain hsame | ⟨-, -, hlifts'⟩ := htransits.ids
      · exact hsame.trans hsame₄
      · exact absurd hlifts' hlifts
    refine ⟨⟨hnumbered.of_sameIds hsame, ?_, ?_, ?_⟩, hstate₄⟩
    · rw [hstate₄, hsame.pointCount]
      rw [if_neg hlifts] at hafter
      exact hafter
    · rw [hstate₄]
      exact htimer₄
    · intro j
      rw [hsame.inUse, hinUse, downAfter, if_neg hlifts]
      split
      · rw [List.mem_cons]
      · rename_i hnotPressed
        constructor
        · rintro (he | hmem)
          · exact he ▸ hdown hnotPressed
          · exact hmem
        · exact Or.inr

/-- A pressed finger without a point gets one. -/
theorem process_pressed [Zero F] [DecidableEq F] (h : Invariant down s)
    (hlt : event.touchId < kMaxGesturePoints) (hty : event.type = .touchPressed)
    (hfree : event.touchId ∉ down) :
    Yields (s.processTouchEventForGesture m event .unknown) fun r =>
      Invariant (downAfter down event) r.1 ∧ Takes event s r := by
  set i : Slot := ⟨event.touchId, hlt⟩ with hi
  have hunused : (s.points i).inUse = false := by
    rw [← Bool.not_eq_true, h.inUse i]
    exact hfree
  have hcount := h.numbered.pointCount_lt hunused
  have hsame : SameIds (s.addPoint i) ((s.addPoint i).updatePoint m event i) :=
    sameIds_updatePoint
  have hid : (((s.addPoint i).updatePoint m event i).points i).pointId = s.pointCount := by
    rw [hsame.pointId, points_addPoint, if_pos rfl]
  have hnneg := h.numbered.nonneg
  rw [processTouchEventForGesture, if_neg (by decide), dif_pos hlt,
    if_neg (by rintro ⟨-, hfull⟩; omega)]
  rw [if_pos hty, if_neg (by rw [hid]; omega)]
  apply transition_takes ((s.addPoint i).updatePoint m event i) h hlt rfl rfl
    ((h.numbered.addPoint hunused).of_sameIds hsame)
  · rw [if_pos hty, hsame.pointCount]
    show s.pointCount = s.pointCount + 1 - 1
    omega
  · intro j
    rw [hsame.inUse, inUse_iff, points_addPoint]
    split
    · rename_i hj
      subst hj
      exact ⟨fun _ => Or.inl rfl, fun _ => hnneg⟩
    · rename_i hj
      rw [← inUse_iff, h.inUse]
      exact ⟨Or.inr, fun hor => hor.resolve_left fun he => hj (Fin.ext he)⟩
  · intro _
    rw [hid, hsame.pointCount]
    show s.pointCount = s.pointCount + 1 - 1
    omega
  · intro hnot
    exact absurd hty hnot

/-- A touch of a finger that has its point. -/
theorem process_down [Zero F] [DecidableEq F] (h : Invariant down s)
    (hlt : event.touchId < kMaxGesturePoints) (hty : event.type ≠ .touchPressed)
    (hdown : event.touchId ∈ down) :
    Yields (s.processTouchEventForGesture m event .unknown) fun r =>
      Invariant (downAfter down event) r.1 ∧ Takes event s r := by
  set i : Slot := ⟨event.touchId, hlt⟩ with hi
  have hsame : SameIds s (s.updatePoint m event i) := sameIds_updatePoint
  have hused : (s.points i).inUse = true := (h.inUse i).mpr hdown
  rw [processTouchEventForGesture, if_neg (by decide), dif_pos hlt,
    if_neg (by rintro ⟨hpress, -⟩; exact hty hpress)]
  rw [if_neg hty, if_neg (by rw [hsame.pointId]; exact Int.not_lt.mpr (inUse_iff.mp hused))]
  apply transition_takes (s.updatePoint m event i) h hlt rfl rfl (h.numbered.of_sameIds hsame)
  · rw [if_neg hty, hsame.pointCount]
  · intro j
    rw [hsame.inUse, h.inUse]
    exact ⟨Or.inr, fun hor => hor.elim (fun he => he ▸ hdown) id⟩
  · intro hpress
    exact absurd hpress hty
  · exact fun _ => hdown

/-- A touch of a finger without a point is no gesture. -/
theorem process_ignored [Zero F] [DecidableEq F] (hlt : event.touchId < kMaxGesturePoints)
    (hty : event.type ≠ .touchPressed) (hfree : (s.points ⟨event.touchId, hlt⟩).pointId < 0) :
    Yields (s.processTouchEventForGesture m event .unknown) fun r =>
      SameIds s r.1 ∧ r.1.state = s.state ∧
        r.1.longPressTimerRunning = s.longPressTimerRunning ∧ r.2 = none := by
  set i : Slot := ⟨event.touchId, hlt⟩ with hi
  have hsame : SameIds s (s.updatePoint m event i) := sameIds_updatePoint
  rw [processTouchEventForGesture, if_neg (by decide), dif_pos hlt,
    if_neg (by rintro ⟨hpress, -⟩; exact hty hpress)]
  rw [if_neg hty, if_pos (by rw [hsame.pointId]; exact hfree)]
  exact .some ⟨hsame, rfl, rfl, rfl⟩

/-- The timer finds the one point of the pending click. -/
theorem appendLongPressGestureEvent_yields (h : Invariant down s)
    (hrun : s.longPressTimerRunning = true) :
    Yields s.appendLongPressGestureEvent fun r =>
      Invariant down r.1 ∧ r.1.state = s.state ∧ r.2.map GestureEvent.type = [.longPress] := by
  have hstate := h.timer hrun
  have hone : s.pointCount = 1 := by
    have := h.fits
    rw [hstate] at this
    exact this
  obtain ⟨i, hi, -⟩ := h.numbered.covers.getPointByPointId (k := 0) (by omega) (by omega)
  rw [appendLongPressGestureEvent, hi]
  exact .some ⟨⟨h.numbered.of_sameIds (.of_points rfl rfl), h.fits, nofun, h.inUse⟩, rfl, rfl⟩

end GestureSequence

/-! ## Streams of touches -/

variable {F : Type} [Zero F] [DecidableEq F]

/-- A touch is delivered with TOUCH_STATUS_UNKNOWN, or the time of the timer comes. -/
inductive Input where
  | touch (event : TouchEvent)
  | timer
  deriving DecidableEq, Repr

def Input.touchEvent : Input → Option TouchEvent
  | .touch event => some event
  | .timer => none

/-- The gestures reported for an input, with the state it came in. -/
structure Report where
  state : GestureState
  input : Input
  gestures : List GestureEvent
  deriving DecidableEq, Repr

/-- A sequence with what it has reported so far. -/
structure Session (F : Type) where
  sequence : GestureSequence F
  reports : List Report

def Session.new : Session F := ⟨.new, []⟩

/-- Only a running timer fires. -/
def Session.advance (m : Measures F) (session : Session F) (input : Input) :
    Option (Session F) :=
  let s := session.sequence
  match input with
  | .touch event => do
    let r ← s.processTouchEventForGesture m event .unknown
    return ⟨r.1, session.reports ++ [⟨s.state, input, r.2.getD []⟩]⟩
  | .timer =>
    if s.longPressTimerRunning then do
      let r ← s.appendLongPressGestureEvent
      return ⟨r.1, session.reports ++ [⟨s.state, input, r.2⟩]⟩
    else some session

/-- The fingers that are down after a touch, unless it is out of turn: a finger that is down is
not pressed, and only one that is down moves or is lifted. -/
def contact (down : List Nat) (event : TouchEvent) : Option (List Nat) :=
  if event.touchId < kMaxGesturePoints ∧
      (event.type = .touchPressed ↔ event.touchId ∉ down) then
    some (GestureSequence.downAfter down event)
  else none

/-- The fingers that a stream leaves down, each of them alternating in it. -/
def contacts (inputs : List Input) : Option (List Nat) :=
  run contact (inputs.filterMap Input.touchEvent) []

theorem process_contact {m : Measures F} {s : GestureSequence F} {event : TouchEvent}
    {down' : List Nat} (h : s.Invariant down) (hcontact : contact down event = some down') :
    Yields (s.processTouchEventForGesture m event .unknown) fun r =>
      r.1.Invariant down' ∧ GestureSequence.Takes event s r := by
  rw [contact] at hcontact
  split at hcontact
  · rename_i hturn
    cases hcontact
    by_cases hty : event.type = .touchPressed
    · exact GestureSequence.process_pressed h hturn.1 hty (hturn.2.mp hty)
    · apply GestureSequence.process_down h hturn.1 hty
      by_contra hdown
      exact hty (hturn.2.mpr hdown)
  · cases hcontact

/-- The invariant in the words of the header: the point ids, the state and the timer. -/
structure GestureSequence.Sound (s : GestureSequence F) : Prop where
  pointIds : Set.BijOn (fun i => (s.points i).pointId) {i | (s.points i).inUse = true}
    (Set.Ico 0 s.pointCount)
  noGesture : s.state = .noGesture ↔ s.pointCount = 0
  oneFinger : s.state = .pendingSyntheticClick ∨ s.state = .scroll ↔ s.pointCount = 1
  twoFingers : s.state = .pendingTwoFingerTap → s.pointCount = 2
  pinch : s.state = .pinch → 2 ≤ s.pointCount
  timer : s.longPressTimerRunning = true → s.state = .pendingSyntheticClick

omit [Zero F] [DecidableEq F] in
theorem GestureSequence.Invariant.sound {s : GestureSequence F} (h : s.Invariant down) :
    s.Sound := by
  have hfits := h.fits
  refine ⟨h.numbered.bijOn, ?_, ?_, ?_, ?_, h.timer⟩ <;> cases hstate : s.state <;>
    simp [hstate, Fits] at hfits ⊢ <;> omega

/-- The default configuration in whole numbers. -/
def wholeMeasures : Measures Int where
  pointsBufferedForVelocity := 3
  xVelocity _ := 0
  yVelocity _ := 0
  isInClickTimeWindow last first := decide (10000 ≤ last - first ∧ last - first < 800000)
  isInSecondClickTimeWindow last tap := decide (last - tap < 700000)
  isTouchMoveForClick distance := decide (distance < 20)
  hasEnoughDataToEstablishRail dx dy := decide (dx * dx + dy * dy > 25)
  isInHorizontalRailWindow dx dy := decide (dx.natAbs > 2 * dy.natAbs)
  isInVerticalRailWindow dx dy := decide (dy.natAbs > 2 * dx.natAbs)
  breaksHorizontalRail vx vy := decide (vy.natAbs > 15 * vx.natAbs + 200)
  breaksVerticalRail vx vy := decide (vx.natAbs > 15 * vy.natAbs + 200)
  isOverMinFlickSpeed vx vy := decide (vx * vx + vy * vy > 550 * 550)
  isTwoFingerTapDistance distanceSquared := decide (distanceSquared < 300 * 300)
  maxTouchDownDurationForClick := 800000
  boundingBoxDiagonal rect := (rect.width * rect.width + rect.height * rect.height).toNat.sqrt
  isPinchUpdateDistance distance current := decide ((distance - current).natAbs ≥ 5)
  isSwipe _ _ := false

end ChromiumUI.Gestures
