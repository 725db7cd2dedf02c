import ChromiumUI.AnimationSequences

/-!
# Playing a sequence to its end

A sequence that is not cyclic passes the elements that end before the time elapsed, so the calls
come to the element that ends with the sequence, and to none behind it.
-/
namespace ChromiumUI.Compositor

open ChromiumUI.Fuel List Int AnimationSequence
open Progressed (SameCourse)

/-- Events of the elements from `i` to `j`, in order; all but `j` are completed. -/
structure Played (i j : Nat) (events : List SequenceEvent) : Prop where
  le : i ≤ j
  within : ∀ k t, .progressed k t ∈ events → i ≤ k ∧ k ≤ j
  completed : ∀ k, i ≤ k → k < j → ∃ before after, events = before ++ .progressed k 1 :: after ∧
    (∀ k' t, .progressed k' t ∈ before → k' ≤ k) ∧ ∀ k' t, .progressed k' t ∈ after → k < k'
  noEnd : SequenceEvent.ended ∉ events

/-- What a series of calls up to the end is to do. -/
structure PlaysOut {T : Type} (elements : List (LayerAnimationElement T)) (delegate : Values T)
    (r : Progressed T) : Prop where
  /-- The last event of each element completes it, before any event of the later ones. -/
  completed : ∀ k < elements.length, ∃ before after,
    r.events = before ++ .progressed k 1 :: after ∧
      (∀ k' t, .progressed k' t ∈ before → k' ≤ k) ∧ ∀ k' t, .progressed k' t ∈ after → k < k'
  ended : r.events.count .ended = 1
  delegate : r.delegate = (AnimationSequence.new false elements).getTargetValue delegate
  reset : r.sequence = .new false r.sequence.elements
  course : SameCourse (AnimationSequence.new false elements) r.sequence

/-- The last element takes time, or is the only one. -/
def EndsWithLast {T : Type} (elements : List (LayerAnimationElement T)) : Prop :=
  ∃ init e, elements = init ++ [e] ∧ (init = [] ∨ 0 < e.duration)

section
variable {T : Type} {A : Arithmetic T} {r : Progressed T} {s s₀ : AnimationSequence T}
  {v target : Values T} {t : ℚ} {elapsed : Int} {i j k : Nat}
  {events events' : List SequenceEvent} {elements : List (LayerAnimationElement T)}

/-! ## Events -/

namespace Played

theorem nil (j : Nat) : Played j j [] where
  le := Nat.le_refl j
  within := fun k t h => by cases h
  completed := fun k hle hlt => absurd hlt (Nat.not_lt.mpr hle)
  noEnd := fun h => by cases h

theorem current (j : Nat) (t : ℚ) : Played j j [.progressed j t] where
  le := Nat.le_refl j
  within := fun k t' h => by
    cases mem_singleton.mp h
    exact ⟨Nat.le_refl j, Nat.le_refl j⟩
  completed := fun k hle hlt => absurd hlt (Nat.not_lt.mpr hle)
  noEnd := fun h => by cases mem_singleton.mp h

theorem pass (j : Nat) : Played j (j + 1) [.progressed j 1] where
  le := Nat.le_succ j
  within := fun k t' h => by
    cases mem_singleton.mp h
    exact ⟨Nat.le_refl j, Nat.le_succ j⟩
  completed := fun k hle hlt => by
    obtain rfl : k = j := by omega
    exact ⟨[], [], rfl, fun _ _ h => (by cases h), fun _ _ h => (by cases h)⟩
  noEnd := fun h => by cases mem_singleton.mp h

theorem append (h : Played i j events) (h' : Played j k events') :
    Played i k (events ++ events') where
  le := Nat.le_trans h.le h'.le
  within := fun m t hmem => by
    have hij := h.le
    have hjk := h'.le
    obtain hmem | hmem := mem_append.mp hmem
    · have := h.within m t hmem
      omega
    · have := h'.within m t hmem
      omega
  completed := fun m hle hlt => by
    by_cases hm : m < j
    · obtain ⟨before, after, heq, hpre, hafter⟩ := h.completed m hle hm
      refine ⟨before, after ++ events', by rw [heq]; simp, hpre, fun k' t' hmem => ?_⟩
      obtain hmem | hmem := mem_append.mp hmem
      · exact hafter k' t' hmem
      · have := (h'.within k' t' hmem).1
        omega
    · obtain ⟨before, after, heq, hpre, hafter⟩ := h'.completed m (by omega) hlt
      refine ⟨events ++ before, after, by rw [heq]; simp, fun k' t' hmem => ?_, hafter⟩
      obtain hmem | hmem := mem_append.mp hmem
      · have := (h.within k' t' hmem).2
        omega
      · exact hpre k' t' hmem
  noEnd := fun hmem => (mem_append.mp hmem).elim h.noEnd h'.noEnd

end Played

/-! ## Targets -/

namespace AnimationSequence

theorem getTargetValue_eq (s : AnimationSequence T) (w : Values T) : s.getTargetValue w =
    if s.isCyclic then w else (s.targets.drop s.lastElement).foldl (fun w f => f w) w := by
  rw [getTargetValue, targets, ← map_drop, foldl_map]

theorem getTargetValue_of_course {s' : AnimationSequence T} (h : SameCourse s s')
    (hlast : s'.lastElement = s.lastElement) (w : Values T) :
    s'.getTargetValue w = s.getTargetValue w := by
  rw [getTargetValue_eq, getTargetValue_eq, h.isCyclic, h.targets, hlast]

/-- What the current element fills in is filled in first. -/
theorem getTargetValue_current {e : LayerAnimationElement T} (hcyclic : s.isCyclic = false)
    (he : s.elements[s.lastElement]? = some e) (w : Values T) :
    s.getTargetValue w =
      { s with lastElement := s.lastElement + 1 }.getTargetValue (e.getTargetValue w) := by
  obtain ⟨hlt, rfl⟩ := List.getElem?_eq_some_iff.mp he
  rw [getTargetValue, getTargetValue, if_neg (by simp [hcyclic]), if_neg (by simp [hcyclic]),
    drop_eq_getElem_cons hlt, foldl_cons]

end AnimationSequence

/-- A sequence on its way to its end. -/
structure Underway (s₀ : AnimationSequence T) (target : Values T) (s : AnimationSequence T)
    (delegate : Values T) : Prop where
  course : SameCourse s₀ s
  notCyclic : s.isCyclic = false
  lt : s.lastElement < s.elements.length
  lastStart : s.lastStart = startOf s₀.durations s.lastElement
  /-- The current element starts before the sequence ends. -/
  early : s.lastElement = 0 ∨ startOf s₀.durations s.lastElement < s₀.duration
  target : s.getTargetValue delegate = target

namespace Underway

section

variable (h : Underway s₀ target s v)
include h

theorem ne_nil : s.elements ≠ [] := by
  rw [← length_pos_iff]
  exact Nat.lt_of_le_of_lt (Nat.zero_le _) h.lt

theorem currentIndex : s.currentIndex = s.lastElement :=
  s.currentIndex_of_lt h.lt

theorem startOf_next :
    startOf s₀.durations (s.lastElement + 1) = s.lastStart + s.currentDuration := by
  have hlt := h.lt
  rw [← s.durations_length, h.course.durations] at hlt
  rw [startOf_succ hlt, ← h.lastStart, currentDuration, h.currentIndex,
    h.course.durations]

end

variable (A) in
/-- Progress of the current element changes nothing that is aimed at. -/
theorem progressElement (h : Underway s₀ target r.sequence r.delegate) (t : ℚ) :
    Underway s₀ target (r.progressElement A t).sequence (r.progressElement A t).delegate := by
  obtain ⟨hcourse, hlast, hstart, -⟩ := Progressed.progressElement_course A t h.ne_nil
  refine ⟨h.course.trans hcourse, hcourse.isCyclic.trans h.notCyclic, ?_, ?_, ?_, ?_⟩
  · rw [hlast, hcourse.length]
    exact h.lt
  · rw [hstart, hlast]
    exact h.lastStart
  · rw [hlast]
    exact h.early
  · rw [← h.target, getTargetValue_of_course hcourse hlast]
    obtain ⟨e, he, heq⟩ := Progressed.progressElement_eq A t h.ne_nil
    rw [h.currentIndex] at he
    rw [getTargetValue_current h.notCyclic he,
      getTargetValue_current h.notCyclic he, heq]
    rw [getTargetValue_progressed]

variable (A) in
/-- With the current element completed, the others are left to aim at. -/
theorem target_of_completed (h : Underway s₀ target r.sequence r.delegate) :
    { (r.progressElement A 1).sequence with
        lastElement := r.sequence.lastElement + 1 }.getTargetValue
      (r.progressElement A 1).delegate = target := by
  obtain ⟨hcourse, -, -, -⟩ := Progressed.progressElement_course A 1 h.ne_nil
  have hnext : SameCourse { r.sequence with lastElement := r.sequence.lastElement + 1 }
      { (r.progressElement A 1).sequence with lastElement := r.sequence.lastElement + 1 } :=
    ⟨hcourse.durations, hcourse.isCyclic, hcourse.targets⟩
  obtain ⟨e, he, heq⟩ := Progressed.progressElement_eq A 1 h.ne_nil
  rw [h.currentIndex] at he
  rw [getTargetValue_of_course hnext rfl, heq]
  rw [progress_one, ← getTargetValue_current h.notCyclic he]
  exact h.target

variable (A) in
theorem pass (h : Underway s₀ target r.sequence r.delegate)
    (hpass : r.sequence.lastStart + r.sequence.currentDuration < s₀.duration) :
    Underway s₀ target (r.pass A).sequence (r.pass A).delegate := by
  obtain ⟨hcourse, hlast, hstart, -⟩ := Progressed.pass_course A h.ne_nil
  have hnext := h.startOf_next
  have hlen : s₀.durations.length = r.sequence.elements.length := by
    rw [← h.course.durations, r.sequence.durations_length]
  have hmore : r.sequence.lastElement + 1 < r.sequence.elements.length := by
    by_contra hno
    have hend : r.sequence.lastElement + 1 = s₀.durations.length := by
      have hlt := h.lt
      omega
    rw [hend, startOf_length, ← s₀.duration_eq] at hnext
    omega
  refine ⟨h.course.trans hcourse, hcourse.isCyclic.trans h.notCyclic, ?_, ?_, .inr ?_,
    h.target_of_completed A⟩
  · rw [hlast, hcourse.length]
    exact hmore
  · rw [hstart, hlast, hnext]
  · rw [hlast, hnext]
    exact hpass

end Underway

/-! ## One call -/

/-- The loop stops at an element that has not ended before `elapsed`. -/
theorem passElements_underway (h : Underway s₀ target r.sequence r.delegate)
    (helapsed : elapsed ≤ s₀.duration) (hplayed : Played i r.sequence.lastElement r.events) :
    ∃ r', (∀ fuel, r.sequence.elements.length < r.sequence.lastElement + fuel →
        r.passElements A elapsed fuel = some r') ∧
      Underway s₀ target r'.sequence r'.delegate ∧
      Played i r'.sequence.lastElement r'.events ∧
      elapsed ≤ startOf s₀.durations (r'.sequence.lastElement + 1) := by
  generalize hleft : r.sequence.elements.length - r.sequence.lastElement = left
  induction left generalizing r with
  | zero =>
    have hlt := h.lt
    omega
  | succ left ih =>
    have hlt := h.lt
    by_cases hpass : r.sequence.lastStart + r.sequence.currentDuration < elapsed
    · obtain ⟨hcourse, hlast, -, hevents⟩ := Progressed.pass_course A h.ne_nil
      have hnext : Played i (r.pass A).sequence.lastElement (r.pass A).events := by
        rw [hlast, hevents, h.currentIndex]
        exact hplayed.append (.pass _)
      obtain ⟨r', hrun, hr'⟩ := ih (h.pass A (by omega)) hnext (by rw [hlast, hcourse.length]; omega)
      refine ⟨r', fun fuel hfuel => ?_, hr'⟩
      obtain _ | fuel := fuel
      · omega
      rw [Progressed.passElements, if_pos ⟨.inr hlt, hpass⟩]
      apply hrun
      rw [hlast, hcourse.length]
      omega
    · refine ⟨r, fun fuel hfuel => ?_, h, hplayed, by rw [h.startOf_next]; omega⟩
      obtain _ | fuel := fuel
      · omega
      rw [Progressed.passElements, if_neg fun hgo => hpass hgo.2]

variable (A) in
/-- The call up to the element it comes to. -/
theorem progress_reaches (h : Underway s₀ target s v) (helapsed : elapsed ≤ s₀.duration) :
    ∃ r : Progressed T, (∀ fuel, s.elements.length < fuel →
        s.progress A elapsed fuel v = some
          ((r.progressElement A (Progressed.currentProgress elapsed r.sequence)).finish elapsed)) ∧
      Underway s₀ target r.sequence r.delegate ∧
      Played s.lastElement r.sequence.lastElement r.events ∧
      elapsed ≤ startOf s₀.durations (r.sequence.lastElement + 1) := by
  obtain ⟨r, hrun, hr, hplayed, hend⟩ :=
    @passElements_underway _ A ⟨s, v, []⟩ s₀ target elapsed s.lastElement h helapsed (.nil _)
  refine ⟨r, fun fuel hfuel => ?_, hr, hplayed, hend⟩
  have hskip : s.skipLoops elapsed = s := by
    rw [skipLoops, if_neg (by simp [h.notCyclic])]
  rw [progress, if_neg h.ne_nil, hskip, hrun fuel (by dsimp only; omega)]
  have hunfinished : r.sequence.Unfinished := .inr hr.lt
  dsimp only
  rw [Progressed.progressCurrent, if_pos hunfinished]

variable (A) in
/-- A call on the way. -/
theorem progress_underway (h : Underway s₀ target s v) (helapsed : elapsed < s₀.duration) :
    ∃ r : Progressed T, (∀ fuel, s.elements.length < fuel →
        s.progress A elapsed fuel v = some r) ∧
      Underway s₀ target r.sequence r.delegate ∧
      Played s.lastElement r.sequence.lastElement r.events := by
  obtain ⟨r, hrun, hr, hplayed, -⟩ := progress_reaches A h (le_of_lt helapsed)
  have hnext := hr.progressElement A (Progressed.currentProgress elapsed r.sequence)
  obtain ⟨-, hlast, -, hevents⟩ := Progressed.progressElement_course A
    (Progressed.currentProgress elapsed r.sequence) hr.ne_nil
  refine ⟨_, fun fuel hfuel => ?_, hnext, ?_⟩
  · have hdur : elapsed ≠ (r.progressElement A
        (Progressed.currentProgress elapsed r.sequence)).sequence.duration := by
      rw [duration_eq, hnext.course.durations, ← s₀.duration_eq]
      omega
    rw [hrun fuel hfuel, Progressed.finish, if_neg fun hend => hdur hend.2]
  · rw [hlast, hevents, hr.currentIndex]
    exact hplayed.append (.current _ _)

/-- What a sequence has done when it ends with the element at `j`. -/
structure EndsAt (s₀ : AnimationSequence T) (target : Values T) (first j : Nat)
    (r : Progressed T) : Prop where
  course : SameCourse s₀ r.sequence
  lt : j < s₀.elements.length
  early : j = 0 ∨ startOf s₀.durations j < s₀.duration
  reached : s₀.duration ≤ startOf s₀.durations (j + 1)
  events : ∃ before, r.events = before ++ [.progressed j 1] ∧ Played first j before
  target : { r.sequence with lastElement := j + 1 }.getTargetValue r.delegate = target

variable (A) in
/-- The call at the end comes to the element that ends with the sequence. -/
theorem progress_finishes (hnneg : ∀ d ∈ s₀.durations, 0 ≤ d) (h : Underway s₀ target s v) :
    ∃ (r : Progressed T) (j : Nat), (∀ fuel, s.elements.length < fuel →
        s.progress A s₀.duration fuel v = some
          { r with sequence := .new false r.sequence.elements, events := r.events ++ [.ended] }) ∧
      EndsAt s₀ target s.lastElement j r := by
  obtain ⟨r, hrun, hr, hplayed, hend⟩ := progress_reaches A h (le_refl _)
  have hone : Progressed.currentProgress s₀.duration r.sequence = 1 := by
    have hnext := hr.startOf_next
    have hle := startOf_le_sum hnneg (r.sequence.lastElement + 1)
    rw [← s₀.duration_eq] at hle
    rw [Progressed.currentProgress]
    split
    · rename_i hpos
      have hne : (r.sequence.currentDuration : ℚ) ≠ 0 := by exact_mod_cast (ne_of_gt hpos)
      have hleft : s₀.duration - r.sequence.lastStart = r.sequence.currentDuration := by omega
      rw [hleft, div_self hne]
    · rfl
  obtain ⟨-, -, -, hevents⟩ := Progressed.progressElement_course A 1 hr.ne_nil
  have hnext := hr.progressElement A 1
  refine ⟨r.progressElement A 1, r.sequence.lastElement, fun fuel hfuel => ?_, hnext.course, ?_,
    hr.early, hend, ⟨r.events, ?_, hplayed⟩, hr.target_of_completed A⟩
  · have hdur : s₀.duration = (r.progressElement A 1).sequence.duration := by
      rw [duration_eq (r.progressElement A 1).sequence, hnext.course.durations,
        ← s₀.duration_eq]
    rw [hrun fuel hfuel, hone, Progressed.finish, if_pos ⟨hnext.notCyclic, hdur⟩]
  · rw [← hr.course.length]
    exact hr.lt
  · rw [hevents, hr.currentIndex]

/-! ## The calls -/

variable (A) in
/-- Calls before the end, in whatever order, and one at the end. -/
theorem progressAll_finishes (hnneg : ∀ d ∈ s₀.durations, 0 ≤ d) {series : List Int}
    (hseries : ∀ elapsed ∈ series, elapsed < s₀.duration) (h : Underway s₀ target s v) :
    ∃ (r : Progressed T) (j : Nat), (∀ fuel, s₀.elements.length < fuel →
        s.progressAll A fuel (series ++ [s₀.duration]) v = some
          { r with sequence := .new false r.sequence.elements, events := r.events ++ [.ended] }) ∧
      EndsAt s₀ target s.lastElement j r := by
  induction series generalizing s v with
  | nil =>
    obtain ⟨r, j, hrun, hr⟩ := progress_finishes A hnneg h
    refine ⟨r, j, fun fuel hfuel => ?_, hr⟩
    rw [nil_append, progressAll, hrun fuel (by rwa [h.course.length])]
    dsimp only
    rw [progressAll]
    dsimp only
    rw [append_nil]
  | cons elapsed series ih =>
    obtain ⟨r, hrun, hr, hplayed⟩ :=
      progress_underway A h (hseries elapsed mem_cons_self)
    obtain ⟨r', j, hrest, hr'⟩ := ih (fun e he => hseries e (mem_cons_of_mem _ he)) hr
    obtain ⟨before, hpre, hplayed'⟩ := hr'.events
    refine ⟨{ r' with events := r.events ++ r'.events }, j, fun fuel hfuel => ?_, hr'.course,
      hr'.lt, hr'.early, hr'.reached, ⟨r.events ++ before, ?_, hplayed.append hplayed'⟩,
      hr'.target⟩
    · rw [cons_append, progressAll,
        hrun fuel (by rwa [h.course.length])]
      dsimp only
      rw [hrest fuel hfuel]
      rw [append_assoc]
    · dsimp only
      rw [hpre, append_assoc]

/-- Without an element, nothing happens. -/
theorem progressAll_of_nil (series : List Int) (fuel : Nat) (hs : s.elements = []) :
    s.progressAll A fuel series v = some ⟨s, v, []⟩ := by
  induction series with
  | nil => rfl
  | cons elapsed series ih =>
    rw [progressAll, progress, if_pos hs]
    dsimp only
    rw [ih]
    rfl

theorem underway_new (hne : elements ≠ []) (v : Values T) :
    Underway (AnimationSequence.new false elements)
      ((AnimationSequence.new false elements).getTargetValue v) (.new false elements) v where
  course := .refl _
  notCyclic := rfl
  lt := length_pos_iff.mpr hne
  lastStart := rfl
  early := .inl rfl
  target := rfl

/-- The element that the calls come to is the last one. -/
theorem EndsAt.last_iff (hnneg : ∀ e ∈ elements, 0 ≤ e.duration)
    (h : EndsAt (AnimationSequence.new false elements) target i j r) :
    j + 1 = elements.length ↔ EndsWithLast elements := by
  have hlt : j < elements.length := h.lt
  have hne : elements ≠ [] := length_pos_iff.mp (Nat.lt_of_le_of_lt (Nat.zero_le _) hlt)
  obtain ⟨init, e, rfl⟩ : ∃ init e, elements = init ++ [e] :=
    ⟨_, _, (dropLast_append_getLast hne).symm⟩
  have hdurations : (new false (init ++ [e])).durations =
      init.map LayerAnimationElement.duration ++ [e.duration] := by
    simp [durations, new]
  have hdur : (new false (init ++ [e])).duration =
      (init.map LayerAnimationElement.duration).sum + e.duration := by
    rw [duration_eq, hdurations, sum_append, sum_singleton]
  have hinit : startOf (new false (init ++ [e])).durations init.length =
      (init.map LayerAnimationElement.duration).sum := by
    rw [hdurations, startOf, take_left' (length_map _)]
  have hnneg' : ∀ d ∈ (new false (init ++ [e])).durations, 0 ≤ d := by
    intro d hd
    obtain ⟨e', he', rfl⟩ := mem_map.mp hd
    exact hnneg e' he'
  rw [length_append, length_singleton] at hlt ⊢
  have hearly := h.early
  have hreached := h.reached
  rw [hdur] at hearly hreached
  constructor
  · intro hj
    obtain rfl : j = init.length := by omega
    refine ⟨init, e, rfl, ?_⟩
    rw [hinit] at hearly
    obtain hzero | hstart := hearly
    · exact .inl (length_eq_zero_iff.mp hzero)
    · exact .inr (by omega)
  · rintro ⟨init', e', heq, hlast⟩
    obtain ⟨rfl, he⟩ := append_inj' heq rfl
    cases cons.inj he with
    | intro he _ =>
      subst he
      by_contra hno
      obtain rfl | hpos := hlast
      · rw [length_nil] at hlt hno
        omega
      · have hmono := @startOf_mono _ (j + 1) init.length hnneg' (by omega)
        rw [hinit] at hmono
        omega

/-- When the last element is come to, all is as it is to be. -/
theorem EndsAt.playsOut (h : EndsAt (AnimationSequence.new false elements)
      ((AnimationSequence.new false elements).getTargetValue v) 0 j r)
    (hlast : j + 1 = elements.length) :
    PlaysOut elements v
      { r with sequence := .new false r.sequence.elements, events := r.events ++ [.ended] } := by
  obtain ⟨before, hevents, hplayed⟩ := h.events
  have hall : Played 0 elements.length r.events := by
    rw [hevents, ← hlast]
    exact hplayed.append (.pass j)
  refine ⟨fun k hk => ?_, ?_, ?_, rfl, ⟨h.course.durations, rfl, h.course.targets⟩⟩
  · obtain ⟨before, after, heq, hpre, hafter⟩ := hall.completed k (Nat.zero_le k) hk
    refine ⟨before, after ++ [.ended], ?_, hpre, fun k' t hmem => ?_⟩
    · dsimp only
      rw [heq, append_assoc, cons_append]
    · obtain hmem | hmem := mem_append.mp hmem
      · exact hafter k' t hmem
      · cases mem_singleton.mp hmem
  · dsimp only
    rw [count_append, count_eq_zero_of_not_mem hall.noEnd, count_singleton_self]
  · have hlen : r.sequence.elements.length = j + 1 := by
      rw [h.course.length]
      exact hlast.symm
    have htgt := h.target
    rw [getTargetValue] at htgt
    rw [h.course.isCyclic, ← hlen, drop_length] at htgt
    exact htgt

/-- An element that is not come to is not completed. -/
theorem EndsAt.not_playsOut (h : EndsAt (AnimationSequence.new false elements) target 0 j r)
    (hlast : j + 1 ≠ elements.length) :
    ¬ PlaysOut elements v
      { r with sequence := .new false r.sequence.elements, events := r.events ++ [.ended] } := by
  intro hplays
  have hlt : j < elements.length := h.lt
  obtain ⟨before, hevents, hplayed⟩ := h.events
  obtain ⟨before', after, heq, -, -⟩ := hplays.completed (j + 1) (by omega)
  dsimp only at heq
  have hmem : SequenceEvent.progressed (j + 1) 1 ∈ before ++ [.progressed j 1] ++ [.ended] := by
    rw [← hevents, heq]
    exact mem_append_right _ mem_cons_self
  simp only [mem_append, mem_singleton, SequenceEvent.progressed.injEq, reduceCtorEq,
    or_false] at hmem
  obtain hmem | ⟨hj, -⟩ := hmem
  · have := (hplayed.within _ _ hmem).2
    omega
  · omega

theorem not_playsOut_nil : ¬ PlaysOut elements v ⟨s, v, []⟩ := by
  intro h
  have hended := h.ended
  rw [count_nil] at hended
  cases hended

variable (A) in
theorem progressAll_new (hnneg : ∀ e ∈ elements, 0 ≤ e.duration) (hne : elements ≠ [])
    {series : List Int} (hseries : ∀ elapsed ∈ series, elapsed < totalDuration elements)
    (v : Values T) :
    ∃ (r : Progressed T) (j : Nat),
      Computes (fun fuel => (AnimationSequence.new false elements).progressAll A fuel
          (series ++ [totalDuration elements]) v)
        { r with sequence := .new false r.sequence.elements, events := r.events ++ [.ended] } ∧
      EndsAt (AnimationSequence.new false elements)
        ((AnimationSequence.new false elements).getTargetValue v) 0 j r := by
  have hnneg' : ∀ d ∈ (new false elements).durations, 0 ≤ d := by
    intro d hd
    obtain ⟨e, he, rfl⟩ := mem_map.mp hd
    exact hnneg e he
  obtain ⟨r, j, hrun, hr⟩ := progressAll_finishes A hnneg' hseries (underway_new hne v)
  exact ⟨r, j, ⟨elements.length + 1, fun fuel hfuel => hrun fuel hfuel⟩, hr⟩

variable (A) in
theorem progressAll_playsOut (hnneg : ∀ e ∈ elements, 0 ≤ e.duration)
    (hends : EndsWithLast elements) {series : List Int}
    (hseries : ∀ elapsed ∈ series, elapsed < totalDuration elements) (v : Values T) :
    ∃ r : Progressed T, Computes (fun fuel =>
        (AnimationSequence.new false elements).progressAll A fuel
          (series ++ [totalDuration elements]) v) r ∧ PlaysOut elements v r := by
  have hne : elements ≠ [] := by
    obtain ⟨init, e, rfl, -⟩ := hends
    simp
  obtain ⟨r, j, hrun, hr⟩ := progressAll_new A hnneg hne hseries v
  exact ⟨_, hrun, hr.playsOut ((hr.last_iff hnneg).mpr hends)⟩

/-- The elements that a sequence is left with are played in the same way. -/
theorem PlaysOut.endsWithLast (h : PlaysOut elements v r) (hends : EndsWithLast elements) :
    EndsWithLast r.sequence.elements := by
  obtain ⟨init, e, rfl, hlast⟩ := hends
  have hdurations := h.course.durations
  have hne : r.sequence.elements ≠ [] := h.course.ne_nil (by simp [new])
  obtain ⟨init', e', heq⟩ : ∃ init' e', r.sequence.elements = init' ++ [e'] :=
    ⟨_, _, (dropLast_append_getLast hne).symm⟩
  simp only [durations, new, heq, map_append,
    map_cons, map_nil] at hdurations
  obtain ⟨hinit, he⟩ := append_inj' hdurations rfl
  refine ⟨init', e', heq, ?_⟩
  obtain rfl | hpos := hlast
  · exact .inl (map_eq_nil_iff.mp hinit)
  · have hsame : e'.duration = e.duration := (cons.inj he).1
    exact .inr (by omega)

/-- A series of calls before the end, and one at the end, completes every element in order, leaves
the delegate with the values aimed at, tells the observers once and can be replayed, exactly when
the last element takes time or is the only one. -/
theorem sequence_plays_iff (hnonneg : ∀ e ∈ elements, 0 ≤ e.duration) {series : List Int}
    (hseries : ∀ elapsed ∈ series, elapsed < totalDuration elements) (v : Values T) :
    (∃ r : Progressed T, Computes (fun fuel =>
        (AnimationSequence.new false elements).progressAll A fuel
          (series ++ [totalDuration elements]) v) r ∧ PlaysOut elements v r ∧
      ∀ w, ∃ r' : Progressed T, Computes (fun fuel =>
        r.sequence.progressAll A fuel (series ++ [totalDuration elements]) w) r' ∧
          PlaysOut r.sequence.elements w r') ↔ EndsWithLast elements := by
  constructor
  · rintro ⟨r, hrun, hplays, -⟩
    by_cases hne : elements = []
    · have hnil : Computes (fun fuel => (new false elements).progressAll A fuel
          (series ++ [totalDuration elements]) v) ⟨.new false elements, v, []⟩ :=
        ⟨0, fun fuel _ => progressAll_of_nil _ fuel hne⟩
      rw [hrun.unique hnil] at hplays
      exact absurd hplays not_playsOut_nil
    · obtain ⟨r', j, hrun', hr'⟩ := progressAll_new A hnonneg hne hseries v
      rw [← hr'.last_iff hnonneg]
      by_contra hlast
      rw [hrun.unique hrun'] at hplays
      exact hr'.not_playsOut hlast hplays
  · intro hends
    obtain ⟨r, hrun, hplays⟩ := progressAll_playsOut A hnonneg hends hseries v
    have hduration : totalDuration r.sequence.elements = totalDuration elements :=
      congrArg sum hplays.course.durations
    have hnonneg' : ∀ e ∈ r.sequence.elements, 0 ≤ e.duration := by
      intro e he
      have hmem : e.duration ∈ r.sequence.durations := mem_map_of_mem he
      rw [hplays.course.durations] at hmem
      obtain ⟨e', he', heq⟩ := mem_map.mp hmem
      rw [← heq]
      exact hnonneg e' he'
    refine ⟨r, hrun, hplays, fun w => ?_⟩
    have hagain := progressAll_playsOut A hnonneg' (hplays.endsWithLast hends)
      (hduration.symm ▸ hseries) w
    rw [← hplays.reset, hduration] at hagain
    exact hagain

end

theorem sequence_plays_iff_fades : ∃ r : Progressed Unit, Computes (fun fuel =>
    (AnimationSequence.new false (fades 2 3)).progressAll default fuel [1, 2, 5] shown) r ∧
      PlaysOut (fades 2 3) shown r := by
  obtain ⟨r, hrun, hplays, -⟩ := (@sequence_plays_iff Unit default (fades 2 3)
    (fades_nonneg (by decide) (by decide)) [1, 2]
    (by intro elapsed h; simp only [mem_cons, not_mem_nil, or_false] at h
        have hduration : totalDuration (fades 2 3) = 5 := rfl
        omega) shown).mpr
    ⟨[⟨.opacityTransition 1 0, 2, .linear, true⟩],
      ⟨.opacityTransition 0 (1 / 2), 3, .linear, true⟩, rfl, .inr (by decide)⟩
  exact ⟨r, hrun, hplays⟩

/-- Two fades that take no time: the second is never progressed. -/
theorem fades_at_once : ¬ ∃ r : Progressed Unit, Computes (fun fuel =>
    (AnimationSequence.new false (fades 0 0)).progressAll default fuel [0] shown) r ∧
      PlaysOut (fades 0 0) shown r := by
  rintro ⟨r, hrun, hplays⟩
  have hnonneg := @fades_nonneg 0 0 (le_refl 0) (le_refl 0)
  obtain ⟨r', j, hrun', hr'⟩ := @progressAll_new Unit default (fades 0 0) hnonneg
    (cons_ne_nil _ _) [] (fun elapsed h => by cases h) shown
  rw [hrun.unique hrun'] at hplays
  refine hr'.not_playsOut (fun hlast => ?_) hplays
  obtain ⟨init, e, heq, hinit⟩ := (hr'.last_iff hnonneg).mp hlast
  have hsplit : [(fades 0 0)[0]] ++ [(fades 0 0)[1]] = init ++ [e] := heq
  obtain ⟨rfl, he⟩ := append_inj' hsplit rfl
  obtain hnil | hpos := hinit
  · cases hnil
  · rw [← (cons.inj he).1] at hpos
    exact absurd hpos (by decide)

end ChromiumUI.Compositor
