import ChromiumUI.LayerAnimator
import ChromiumUI.Frames

/-!
# The elements of an animation and the values they animate

What LayerAnimationElement and LayerAnimationSequence do to the values of a delegate, in exact
arithmetic. The sequences are not cyclic.
-/
namespace ChromiumUI.Compositor

open Frames

/-- gfx::Rect; SizeBase keeps out negative widths and heights. -/
structure Rect where
  x : Int
  y : Int
  width : Nat
  height : Nat
  deriving DecidableEq, Repr

def Rect.ofInts (x y width height : Int) : Rect := ⟨x, y, width.toNat, height.toNat⟩

/-- What a LayerAnimationDelegate holds; GetTargetValue fills in such values as well. -/
structure Values (T : Type) where
  transform : T
  bounds : Rect
  opacity : ℚ
  visibility : Bool

/-- A tween that maps 1 to 1: what Tween::CalculateValue makes of the progress. -/
structure Tween where
  value : ℚ → ℚ
  value_one : value 1 = 1

def Tween.linear : Tween := ⟨id, rfl⟩

/-- What the interpolations rest on: nextafter towards 0, and the interpolation between two
transforms at a progress between 0 and 1. -/
structure Arithmetic (T : Type) where
  nextafter : ℚ → ℚ
  nextafter_lt : ∀ n : ℤ, 0 < n → nextafter n < n
  le_nextafter : ∀ n : ℤ, 0 < n → n - 1 ≤ nextafter n
  nextafter_neg : ∀ q, nextafter (-q) = -nextafter q
  interpolate : ℚ → T → T → T

/-- A nextafter that goes half the way, and jumps. -/
instance {T : Type} : Inhabited (Arithmetic T) where
  default :=
    { nextafter := fun q => if 0 < q then q - 1 / 2 else if q < 0 then q + 1 / 2 else 0
      nextafter_lt n hn := by
        rw [if_pos (by exact_mod_cast hn)]
        linarith
      le_nextafter n hn := by
        rw [if_pos (by exact_mod_cast hn)]
        linarith
      nextafter_neg q := by
        obtain hq | rfl | hq := lt_trichotomy q 0
        · rw [if_pos (by linarith), if_neg (by linarith), if_pos hq]
          ring
        · norm_num
        · rw [if_neg (by linarith), if_pos (by linarith), if_pos hq]
          ring
      interpolate _ _ target := target }

/-! ## Tween::ValueBetween -/

/-- The cast of a number to an int. -/
def truncate (q : ℚ) : Int := q.num.tdiv q.den

section
variable {T : Type} (A : Arithmetic T)

def valueBetween (value start target : ℚ) : ℚ := start + (target - start) * value

def valueBetweenInt (value : ℚ) (start target : Int) : Int :=
  if start = target then start
  else
    let delta : ℚ := ((target - start : Int) : ℚ)
    let delta := if delta < 0 then delta - 1 else delta + 1
    start + truncate (value * A.nextafter delta)

def valueBetweenRect (value : ℚ) (start target : Rect) : Rect :=
  .ofInts (valueBetweenInt A value start.x target.x) (valueBetweenInt A value start.y target.y)
    (valueBetweenInt A value start.width target.width)
    (valueBetweenInt A value start.height target.height)

def valueBetweenTransform (value : ℚ) (start target : T) : T :=
  if value ≥ 1 then target
  else if value ≤ 0 then start
  else A.interpolate value start target

end

theorem truncate_neg (q : ℚ) : truncate (-q) = -truncate q := by
  rw [truncate, truncate, Rat.neg_num, Rat.neg_den, Int.neg_tdiv]

theorem truncate_eq {q : ℚ} {n : Int} (hn : 0 ≤ n) (hle : (n : ℚ) ≤ q) (hlt : q < n + 1) :
    truncate q = n := by
  have hq : 0 ≤ q := le_trans (by exact_mod_cast hn) hle
  have hnum : 0 ≤ q.num := Rat.num_nonneg.mpr hq
  rw [truncate, Int.tdiv_eq_ediv_of_nonneg hnum, ← Rat.floor_def]
  exact Int.floor_eq_iff.mpr ⟨hle, hlt⟩

theorem truncate_nextafter {T : Type} (A : Arithmetic T) {n : Int} (hn : 0 < n) :
    truncate (A.nextafter n) = n - 1 := by
  have hle := A.le_nextafter n hn
  have hlt := A.nextafter_lt n hn
  apply truncate_eq (by omega)
  · push_cast
    exact hle
  · push_cast
    linarith

theorem valueBetween_one (start target : ℚ) : valueBetween 1 start target = target := by
  rw [valueBetween]
  ring

theorem valueBetweenInt_one {T : Type} (A : Arithmetic T) (start target : Int) :
    valueBetweenInt A 1 start target = target := by
  rw [valueBetweenInt]
  split
  · assumption
  · rename_i hne
    dsimp only
    split
    · rename_i hneg
      have hneg' : target - start < 0 := by exact_mod_cast hneg
      have hdelta : ((target - start : Int) : ℚ) - 1 = -((start - target + 1 : Int) : ℚ) := by
        push_cast
        ring
      rw [one_mul, hdelta, A.nextafter_neg, truncate_neg, truncate_nextafter A (by omega)]
      omega
    · rename_i hpos
      have hpos' : 0 ≤ target - start := by exact_mod_cast not_lt.mp hpos
      have hdelta : ((target - start : Int) : ℚ) + 1 = ((target - start + 1 : Int) : ℚ) := by
        push_cast
        ring
      rw [one_mul, hdelta, truncate_nextafter A (by omega)]
      omega

theorem valueBetweenRect_one {T : Type} (A : Arithmetic T) (start target : Rect) :
    valueBetweenRect A 1 start target = target := by
  simp only [valueBetweenRect, valueBetweenInt_one, Rect.ofInts, Int.toNat_natCast]

theorem valueBetweenTransform_one {T : Type} (A : Arithmetic T) (start target : T) :
    valueBetweenTransform A 1 start target = target := if_pos (le_refl _)

/-! ## LayerAnimationElement -/

/-- The kinds of element, with the `start_` and `target_` of each. -/
inductive ElementKind (T : Type) where
  | pause (properties : AnimatableProperties)
  | transformTransition (start target : T)
  | interpolatedTransformTransition (interpolate : ℚ → T)
  | boundsTransition (start target : Rect)
  | opacityTransition (start target : ℚ)
  | visibilityTransition (start target : Bool)

/-- An element; its duration is the one that GetEffectiveDuration left. -/
structure LayerAnimationElement (T : Type) where
  kind : ElementKind T
  duration : Int
  tweenType : Tween
  firstFrame : Bool

namespace ElementKind
variable {T : Type} (A : Arithmetic T)

def properties : ElementKind T → AnimatableProperties
  | pause properties => properties
  | transformTransition .. => {.transform}
  | interpolatedTransformTransition _ => {.transform}
  | boundsTransition .. => {.bounds}
  | opacityTransition .. => {.opacity}
  | visibilityTransition .. => {.visibility}

def onStart (delegate : Values T) : ElementKind T → ElementKind T
  | transformTransition _ target => transformTransition delegate.transform target
  | boundsTransition _ target => boundsTransition delegate.bounds target
  | opacityTransition _ target => opacityTransition delegate.opacity target
  | visibilityTransition _ target => visibilityTransition delegate.visibility target
  | kind => kind

def onProgress (t : ℚ) (delegate : Values T) : ElementKind T → Values T
  | pause _ => delegate
  | transformTransition start target =>
    { delegate with transform := valueBetweenTransform A t start target }
  | interpolatedTransformTransition interpolate => { delegate with transform := interpolate t }
  | boundsTransition start target => { delegate with bounds := valueBetweenRect A t start target }
  | opacityTransition start target => { delegate with opacity := valueBetween t start target }
  | visibilityTransition start target =>
    { delegate with visibility := if t = 1 then target else start }

def onGetTarget (target : Values T) : ElementKind T → Values T
  | pause _ => target
  | transformTransition _ value => { target with transform := value }
  | interpolatedTransformTransition interpolate => { target with transform := interpolate 1 }
  | boundsTransition _ value => { target with bounds := value }
  | opacityTransition _ value => { target with opacity := value }
  | visibilityTransition _ value => { target with visibility := value }

end ElementKind

namespace LayerAnimationElement
variable {T : Type} (A : Arithmetic T)

def progress (t : ℚ) (delegate : Values T) (e : LayerAnimationElement T) :
    LayerAnimationElement T × Values T :=
  let kind := if e.firstFrame then e.kind.onStart delegate else e.kind
  ({ e with kind, firstFrame := t = 1 }, kind.onProgress A (e.tweenType.value t) delegate)

def getTargetValue (target : Values T) (e : LayerAnimationElement T) : Values T :=
  e.kind.onGetTarget target

def abort (e : LayerAnimationElement T) : LayerAnimationElement T := { e with firstFrame := true }

end LayerAnimationElement

/-! ### Facts -/

section
variable {T : Type} {A : Arithmetic T} {kind : ElementKind T} {e : LayerAnimationElement T}
  {v : Values T} {t : ℚ}

/-- Two values of a delegate that agree on a property. -/
def SameAt (p : AnimatableProperty) (v w : Values T) : Prop :=
  match p with
  | .transform => v.transform = w.transform
  | .bounds => v.bounds = w.bounds
  | .opacity => v.opacity = w.opacity
  | .visibility => v.visibility = w.visibility

theorem sameAt_frame : Frame (SameAt (T := T)) where
  equivalence p := by
    cases p <;> exact ⟨fun _ => rfl, Eq.symm, Eq.trans⟩
  separates v w h := by
    cases v
    cases w
    have htransform := h .transform
    have hbounds := h .bounds
    have hopacity := h .opacity
    have hvisibility := h .visibility
    simp only [SameAt] at htransform hbounds hopacity hvisibility
    rw [htransform, hbounds, hopacity, hvisibility]

@[simp] theorem onGetTarget_onStart (w : Values T) :
    (kind.onStart v).onGetTarget w = kind.onGetTarget w := by
  cases kind <;> rfl

@[simp] theorem properties_onStart : (kind.onStart v).properties = kind.properties := by
  cases kind <;> rfl

/-- At the end of its progress an element has reached its target. -/
theorem onProgress_one : kind.onProgress A 1 v = kind.onGetTarget v := by
  cases kind with
  | pause _ => rfl
  | transformTransition start target =>
    rw [ElementKind.onProgress, valueBetweenTransform_one]
    rfl
  | interpolatedTransformTransition _ => rfl
  | boundsTransition start target =>
    rw [ElementKind.onProgress, valueBetweenRect_one]
    rfl
  | opacityTransition start target =>
    rw [ElementKind.onProgress, valueBetween_one]
    rfl
  | visibilityTransition start target =>
    rw [ElementKind.onProgress, if_pos rfl]
    rfl

/-- Whatever an element sets on its way, its target replaces. -/
theorem onGetTarget_onProgress : kind.onGetTarget (kind.onProgress A t v) = kind.onGetTarget v := by
  cases kind <;> rfl

theorem onGetTarget_local {P : AnimatableProperties} (h : kind.properties ⊆ P) :
    Local (SameAt (T := T)) (↑P) (fun v => kind.onGetTarget v) := by
  constructor
  · intro p hp w
    have hp' : p ∉ kind.properties := fun hmem => hp (h hmem)
    cases kind <;> cases p <;> simp_all [ElementKind.properties, ElementKind.onGetTarget, SameAt]
  · intro p v w hsame
    cases kind <;> cases p <;> simp_all [ElementKind.onGetTarget, SameAt]

end

/-! ## The progress of a sequence

What a LayerAnimationSequence, which is not cyclic, does to the delegate: progress on the way
keeps its targets, and progress to its end reaches them. -/

open List Int LayerAnimationElement

/-- The `elements_` of a sequence, parted before the one at `last_element_`. -/
structure SequenceState (T : Type) where
  passed : List (LayerAnimationElement T)
  remaining : List (LayerAnimationElement T)
  lastStart : Int

namespace SequenceState
variable {T : Type} (A : Arithmetic T)

def elements (s : SequenceState T) : List (LayerAnimationElement T) := s.passed ++ s.remaining

/-- A sequence that has not been progressed. -/
def new (elements : List (LayerAnimationElement T)) : SequenceState T := ⟨[], elements, 0⟩

/-- The loop of Progress over the elements that end before `elapsed`. -/
def passElements (elapsed : Int) (passed : List (LayerAnimationElement T)) :
    List (LayerAnimationElement T) → Int → Values T → SequenceState T × Values T
  | [], lastStart, delegate => (⟨passed, [], lastStart⟩, delegate)
  | e :: remaining, lastStart, delegate =>
    if lastStart + e.duration < elapsed then
      let r := e.progress A 1 delegate
      passElements elapsed (passed ++ [r.1]) remaining (lastStart + e.duration) r.2
    else (⟨passed, e :: remaining, lastStart⟩, delegate)

/-- The element that Progress has come to. -/
def progressCurrent (elapsed : Int) (s : SequenceState T) (delegate : Values T) :
    SequenceState T × Values T :=
  match s.remaining with
  | [] => (s, delegate)
  | e :: remaining =>
    let t : ℚ := if e.duration > 0 then ((elapsed - s.lastStart : Int) : ℚ) / e.duration else 1
    let r := e.progress A t delegate
    ({ s with remaining := r.1 :: remaining }, r.2)

def progress (duration elapsed : Int) (s : SequenceState T) (delegate : Values T) :
    SequenceState T × Values T :=
  let r := passElements A elapsed s.passed s.remaining s.lastStart delegate
  let r := progressCurrent A elapsed r.1 r.2
  if elapsed = duration then (.new r.1.elements, r.2) else r

def getTargetValue (s : SequenceState T) (target : Values T) : Values T :=
  s.remaining.foldl LayerAnimationElement.getTargetValue target

def abort (s : SequenceState T) : SequenceState T :=
  .new (s.passed ++ s.remaining.map LayerAnimationElement.abort)

end SequenceState

/-- AddElement adds up the durations. -/
def totalDuration {T : Type} (elements : List (LayerAnimationElement T)) : Int :=
  (elements.map duration).sum

/-- AddElement collects the properties. -/
def allProperties {T : Type} (elements : List (LayerAnimationElement T)) :
    AnimatableProperties :=
  elements.foldr (fun e properties => e.kind.properties ∪ properties) ∅

/-- Elements of positive duration, or a single element of any duration. -/
def Timely {T : Type} (elements : List (LayerAnimationElement T)) : Prop :=
  (∃ e, elements = [e]) ∨ elements ≠ [] ∧ ∀ e ∈ elements, 0 < e.duration

variable {l l' : List (LayerAnimationElement T)}

section
variable {T : Type} {A : Arithmetic T} {e : LayerAnimationElement T} {t : ℚ} {v : Values T}
  {elapsed : Int}

/-! ## Elements -/

@[simp] theorem progress_duration : (e.progress A t v).1.duration = e.duration := rfl

@[simp] theorem getTargetValue_progress (w : Values T) :
    (e.progress A t v).1.getTargetValue w = e.getTargetValue w := by
  rw [progress, getTargetValue]
  split
  · exact onGetTarget_onStart w
  · rfl

@[simp] theorem properties_progress : (e.progress A t v).1.kind.properties = e.kind.properties := by
  rw [progress]
  split
  · exact properties_onStart
  · rfl

theorem progress_one : (e.progress A 1 v).2 = e.getTargetValue v := by
  rw [progress, getTargetValue]
  rw [e.tweenType.value_one, onProgress_one]
  split
  · exact onGetTarget_onStart v
  · rfl

theorem getTargetValue_progressed : e.getTargetValue (e.progress A t v).2 = e.getTargetValue v := by
  rw [progress, getTargetValue]
  split
  · rw [← onGetTarget_onStart (v := v), onGetTarget_onProgress, onGetTarget_onStart]
    rfl
  · exact onGetTarget_onProgress

/-! ## On the way -/

namespace SequenceState

theorem passElements_target (passed remaining : List (LayerAnimationElement T)) (lastStart : Int)
    (v : Values T) :
    (passElements A elapsed passed remaining lastStart v).1.getTargetValue
        (passElements A elapsed passed remaining lastStart v).2 =
      remaining.foldl LayerAnimationElement.getTargetValue v := by
  induction remaining generalizing passed lastStart v with
  | nil => rfl
  | cons e remaining ih =>
    rw [passElements]
    split
    · rw [ih, foldl_cons, progress_one]
    · rfl

theorem progressCurrent_target (s : SequenceState T) (v : Values T) :
    (s.progressCurrent A elapsed v).1.getTargetValue (s.progressCurrent A elapsed v).2 =
      s.getTargetValue v := by
  rw [progressCurrent]
  split
  · rfl
  · rename_i e remaining hrem
    simp only [getTargetValue, hrem, foldl_cons, getTargetValue_progress,
      getTargetValue_progressed]

/-- Progress that does not come to the end keeps what the sequence aims at. -/
theorem progress_target {duration : Int} (helapsed : elapsed ≠ duration) (s : SequenceState T)
    (v : Values T) :
    (s.progress A duration elapsed v).1.getTargetValue (s.progress A duration elapsed v).2 =
      s.getTargetValue v := by
  rw [progress]
  rw [if_neg helapsed, progressCurrent_target, passElements_target]
  rfl

/-! ## What the animator knows of a sequence -/

/-- `last_start_` is when the element at `last_element_` starts. -/
structure WellFormed (sequence : LayerAnimationSequence) (s : SequenceState T) : Prop where
  notCyclic : sequence.isCyclic = false
  timely : Timely s.elements
  unfinished : s.remaining ≠ []
  lastStart : s.lastStart = totalDuration s.passed
  duration : sequence.duration = totalDuration s.elements
  properties : sequence.properties = allProperties s.elements

variable {sequence : LayerAnimationSequence} {s : SequenceState T}

theorem totalDuration_append (l l' : List (LayerAnimationElement T)) :
    totalDuration (l ++ l') = totalDuration l + totalDuration l' := by
  rw [totalDuration, map_append, sum_append]
  rfl

theorem totalDuration_cons (l : List (LayerAnimationElement T)) :
    totalDuration (e :: l) = e.duration + totalDuration l := by
  rw [totalDuration, map_cons, sum_cons]
  rfl

theorem totalDuration_pos (hne : l ≠ []) (hl : ∀ e ∈ l, 0 < e.duration) : 0 < totalDuration l := by
  induction l with
  | nil => exact absurd rfl hne
  | cons e l ih =>
    have he := hl e mem_cons_self
    rw [totalDuration_cons]
    cases l with
    | nil => simpa [totalDuration] using he
    | cons e' l =>
      have := ih (cons_ne_nil _ _) fun e he => hl e (mem_cons_of_mem _ he)
      omega

/-- Elements as the animator sees them: their durations and their properties. -/
def Alike (l l' : List (LayerAnimationElement T)) : Prop :=
  l.map (fun e => (e.duration, e.kind.properties)) =
    l'.map fun e => (e.duration, e.kind.properties)

theorem Alike.totalDuration (h : Alike l l') : totalDuration l = totalDuration l' := by
  have := congrArg (List.map Prod.fst) h
  rw [map_map, map_map] at this
  rw [Compositor.totalDuration, Compositor.totalDuration]
  exact congrArg List.sum this

theorem allProperties_eq (l : List (LayerAnimationElement T)) :
    allProperties l = (l.map fun e => (e.duration, e.kind.properties)).foldr
      (fun e properties => e.2 ∪ properties) ∅ := by
  rw [allProperties, foldr_map]

theorem Alike.allProperties (h : Alike l l') : allProperties l = allProperties l' := by
  rw [allProperties_eq, allProperties_eq, h]

theorem Alike.timely (h : Alike l l') (ht : Timely l) : Timely l' := by
  have hlen : l.length = l'.length := by
    have := congrArg List.length h
    rwa [length_map, length_map] at this
  obtain ⟨e, rfl⟩ | ⟨hne, hpos⟩ := ht
  · exact Or.inl (length_eq_one_iff.mp hlen.symm)
  · refine Or.inr ⟨?_, ?_⟩
    · rw [← length_pos_iff, ← hlen]
      exact length_pos_iff.mpr hne
    · intro e' he'
      have hmem : (e'.duration, e'.kind.properties) ∈
          l.map fun e => (e.duration, e.kind.properties) := by
        rw [h]
        exact mem_map_of_mem he'
      obtain ⟨e, he, heq⟩ := mem_map.mp hmem
      have hdur : e.duration = e'.duration := congrArg Prod.fst heq
      rw [← hdur]
      exact hpos e he

theorem Alike.progress (passed remaining : List (LayerAnimationElement T)) :
    Alike (passed ++ (e.progress A t v).1 :: remaining) (passed ++ e :: remaining) := by
  rw [Alike, map_append, map_append, map_cons, map_cons, progress_duration,
    properties_progress]

theorem Alike.wellFormed {s' : SequenceState T} (h : WellFormed sequence s)
    (halike : Alike s.elements s'.elements) (hunfinished : s'.remaining ≠ [])
    (hlastStart : s'.lastStart = Compositor.totalDuration s'.passed) :
    WellFormed sequence s' where
  notCyclic := h.notCyclic
  timely := halike.timely h.timely
  unfinished := hunfinished
  lastStart := hlastStart
  duration := h.duration.trans halike.totalDuration
  properties := h.properties.trans halike.allProperties

/-- The loop of Progress stops at an element as long as not all of them have ended. -/
theorem passElements_wellFormed (passed remaining : List (LayerAnimationElement T))
    (lastStart : Int) (v : Values T) (h : WellFormed sequence ⟨passed, remaining, lastStart⟩)
    (helapsed : elapsed ≤ sequence.duration) :
    WellFormed sequence (passElements A elapsed passed remaining lastStart v).1 := by
  induction remaining generalizing passed lastStart v with
  | nil => exact absurd rfl h.unfinished
  | cons e remaining ih =>
    rw [passElements]
    split
    · rename_i hpass
      have hlast : lastStart = Compositor.totalDuration passed := h.lastStart
      have hdur : sequence.duration =
          Compositor.totalDuration (passed ++ e :: remaining) := h.duration
      rw [totalDuration_append, totalDuration_cons] at hdur
      apply ih
      refine Alike.wellFormed h ?_ ?_ ?_
      · rw [elements, elements, append_assoc]
        exact (Alike.progress passed remaining).symm
      · rintro (rfl : remaining = [])
        have hnil : Compositor.totalDuration ([] : List (LayerAnimationElement T)) = 0 := rfl
        omega
      · change lastStart + e.duration = _
        rw [hlast, totalDuration_append, totalDuration_cons, progress_duration]
        exact congrArg _ (add_zero _).symm
    · exact h

theorem progressCurrent_wellFormed (v : Values T) (h : WellFormed sequence s) :
    WellFormed sequence (s.progressCurrent A elapsed v).1 := by
  rw [progressCurrent]
  split
  · exact h
  · rename_i e remaining hrem
    refine Alike.wellFormed h ?_ (cons_ne_nil _ _) h.lastStart
    rw [elements, elements, hrem]
    exact (Alike.progress s.passed remaining).symm

/-- Progress on the way keeps a sequence well formed. -/
theorem progress_wellFormed (v : Values T) (h : WellFormed sequence s)
    (helapsed : elapsed < sequence.duration) :
    WellFormed sequence (s.progress A sequence.duration elapsed v).1 := by
  rw [progress]
  rw [if_neg (ne_of_lt helapsed)]
  exact progressCurrent_wellFormed _
    (passElements_wellFormed _ _ _ v h (le_of_lt helapsed))

/-! ## To the end -/

/-- The elapsed duration is that of all the elements, so the loop stops at the last one. -/
theorem passElements_end (passed remaining : List (LayerAnimationElement T)) (lastStart : Int)
    (v : Values T) (h : WellFormed sequence ⟨passed, remaining, lastStart⟩) :
    ∃ e, (passElements A sequence.duration passed remaining lastStart v).1.remaining = [e] ∧
      (passElements A sequence.duration passed remaining lastStart v).1.lastStart + e.duration =
        sequence.duration := by
  induction remaining generalizing passed lastStart v with
  | nil => exact absurd rfl h.unfinished
  | cons e remaining ih =>
    have hlast : lastStart = Compositor.totalDuration passed := h.lastStart
    have hdur : sequence.duration =
        Compositor.totalDuration (passed ++ e :: remaining) := h.duration
    rw [totalDuration_append, totalDuration_cons] at hdur
    cases remaining with
    | nil =>
      have hend : lastStart + e.duration = sequence.duration := by
        rw [hdur, hlast]
        exact congrArg _ (add_zero _).symm
      rw [passElements, if_neg (by omega)]
      exact ⟨e, rfl, hend⟩
    | cons e' remaining =>
      have hpos : 0 < Compositor.totalDuration (e' :: remaining) := by
        obtain ⟨single, hone⟩ | ⟨-, hpositive⟩ := h.timely
        · have hlen := congrArg List.length hone
          rw [elements, length_append, length_cons, length_cons,
            length_singleton] at hlen
          omega
        · apply totalDuration_pos (cons_ne_nil _ _)
          intro e'' he''
          exact hpositive e'' (mem_append_right _ (mem_cons_of_mem _ he''))
      have hpass : lastStart + e.duration < sequence.duration := by omega
      have hnext : WellFormed sequence
          ⟨passed ++ [(e.progress A 1 v).1], e' :: remaining, lastStart + e.duration⟩ := by
        refine Alike.wellFormed h ?_ (cons_ne_nil _ _) ?_
        · rw [elements, elements, append_assoc]
          exact (Alike.progress passed _).symm
        · change lastStart + e.duration = _
          rw [hlast, totalDuration_append, totalDuration_cons, progress_duration]
          exact congrArg _ (add_zero _).symm
      rw [passElements, if_pos hpass]
      exact ih _ _ _ hnext

/-- Progress to the end reaches what the sequence aims at. -/
theorem progress_end (v : Values T) (h : WellFormed sequence s) :
    (s.progress A sequence.duration sequence.duration v).2 = s.getTargetValue v := by
  obtain ⟨e, hrem, hend⟩ := @passElements_end _ A sequence s.passed s.remaining s.lastStart v h
  have htgt := @passElements_target _ A sequence.duration s.passed s.remaining s.lastStart v
  rw [getTargetValue, hrem] at htgt
  rw [progress]
  rw [if_pos rfl, progressCurrent, hrem]
  dsimp only
  have ht : (if e.duration > 0 then ((sequence.duration - (passElements A sequence.duration
      s.passed s.remaining s.lastStart v).1.lastStart : Int) : ℚ) / e.duration else 1) = 1 := by
    split
    · rename_i hpos
      have hne : (e.duration : ℚ) ≠ 0 := by exact_mod_cast (ne_of_gt hpos)
      have hleft : sequence.duration - (passElements A sequence.duration s.passed s.remaining
          s.lastStart v).1.lastStart = e.duration := by omega
      rw [hleft, div_self hne]
    · rfl
  rw [ht, progress_one]
  exact htgt

/-- What a sequence aims at concerns its own properties only. -/
theorem getTargetValue_local (h : WellFormed sequence s) :
    Local (SameAt (T := T)) ↑sequence.properties s.getTargetValue := by
  apply Local.foldl sameAt_frame
  intro e he
  apply onGetTarget_local
  rw [h.properties]
  have hmem : e ∈ s.elements := mem_append_right _ he
  generalize s.elements = l at hmem
  induction l with
  | nil => cases hmem
  | cons e' l ih =>
    rw [allProperties, foldr_cons]
    obtain rfl | hmem := mem_cons.mp hmem
    · exact Finset.subset_union_left
    · exact (ih hmem).trans Finset.subset_union_right

theorem wellFormed_new {elements : List (LayerAnimationElement T)} (id : Nat)
    (ht : Timely elements) :
    WellFormed ⟨id, allProperties elements, totalDuration elements, false⟩ (new elements) where
  notCyclic := rfl
  timely := ht
  unfinished := by
    obtain ⟨e, rfl⟩ | ⟨hne, -⟩ := ht
    · exact cons_ne_nil _ _
    · exact hne
  lastStart := rfl
  duration := rfl
  properties := rfl

end SequenceState

end

end ChromiumUI.Compositor
