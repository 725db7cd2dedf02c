import ChromiumUI.Fuel
import ChromiumUI.LayerAnimationElements

/-!
# Sequences, cyclic or not

LayerAnimationSequence::Progress with `last_element_` counted as in the source, what it does to
the elements kept in order.
-/
namespace ChromiumUI.Compositor

open ChromiumUI.Fuel List

structure AnimationSequence (T : Type) where
  elements : List (LayerAnimationElement T)
  isCyclic : Bool
  lastElement : Nat
  lastStart : Int

/-- What a call does, in order. -/
inductive SequenceEvent where
  /-- An element is progressed to t. -/
  | progressed (index : Nat) (t : ℚ)
  /-- NotifyEnded. -/
  | ended
  deriving DecidableEq

/-- A sequence and its delegate, after some events. -/
structure Progressed (T : Type) where
  sequence : AnimationSequence T
  delegate : Values T
  events : List SequenceEvent

namespace AnimationSequence
variable {T : Type} (A : Arithmetic T)

/-- A sequence that has not been progressed. -/
def new (isCyclic : Bool) (elements : List (LayerAnimationElement T)) : AnimationSequence T :=
  ⟨elements, isCyclic, 0, 0⟩

section

variable (s : AnimationSequence T)

def duration : Int := totalDuration s.elements

def durations : List Int :=
  s.elements.map LayerAnimationElement.duration

def currentIndex : Nat := s.lastElement % s.elements.length

/-- The duration of the current element. -/
def currentDuration : Int := s.durations.getD s.currentIndex 0

end

/-- Skip ahead by complete loops. -/
def skipLoops (elapsed : Int) (s : AnimationSequence T) : AnimationSequence T :=
  if s.isCyclic ∧ 0 < s.duration then
    let delta := elapsed - s.lastStart
    let k := delta.tdiv s.duration - 1
    { s with lastStart := s.lastStart + k * s.duration }
  else s

/-- There is a current element. -/
def Unfinished (s : AnimationSequence T) : Prop :=
  s.isCyclic = true ∨ s.lastElement < s.elements.length

instance (s : AnimationSequence T) : Decidable s.Unfinished := by
  unfold Unfinished
  infer_instance

end AnimationSequence

namespace Progressed
variable {T : Type} (A : Arithmetic T)

/-- Progress the current element. -/
def progressElement (t : ℚ) (r : Progressed T) : Progressed T :=
  match r.sequence.elements[r.sequence.currentIndex]? with
  | none => r
  | some e =>
    let p := e.progress A t r.delegate
    { sequence :=
        { r.sequence with elements := r.sequence.elements.set r.sequence.currentIndex p.1 }
      delegate := p.2
      events := r.events ++ [.progressed r.sequence.currentIndex t] }

/-- Let the element we're passing finish. -/
def pass (r : Progressed T) : Progressed T :=
  let passed := r.progressElement A 1
  { passed with
    sequence :=
      { passed.sequence with
        lastStart := r.sequence.lastStart + r.sequence.currentDuration
        lastElement := r.sequence.lastElement + 1 } }

/-- The loop over the elements that end before `elapsed`. -/
def passElements (elapsed : Int) : Nat → Progressed T → Option (Progressed T)
  | 0, _ => none
  | fuel + 1, r =>
    if r.sequence.Unfinished ∧ r.sequence.lastStart + r.sequence.currentDuration < elapsed then
      passElements elapsed fuel (r.pass A)
    else some r

def currentProgress (elapsed : Int) (s : AnimationSequence T) : ℚ :=
  if s.currentDuration > 0 then ((elapsed - s.lastStart : Int) : ℚ) / s.currentDuration else 1

/-- The element that Progress has come to. -/
def progressCurrent (elapsed : Int) (r : Progressed T) : Progressed T :=
  if r.sequence.Unfinished then r.progressElement A (currentProgress elapsed r.sequence) else r

/-- The end of Progress. -/
def finish (elapsed : Int) (r : Progressed T) : Progressed T :=
  if r.sequence.isCyclic = false ∧ elapsed = r.sequence.duration then
    { r with
      sequence := .new false r.sequence.elements
      events := r.events ++ [.ended] }
  else r

end Progressed

namespace AnimationSequence
variable {T : Type} (A : Arithmetic T)

def progress (elapsed : Int) (fuel : Nat) (s : AnimationSequence T) (delegate : Values T) :
    Option (Progressed T) :=
  if s.elements = [] then some ⟨s, delegate, []⟩
  else
    match Progressed.passElements A elapsed fuel ⟨s.skipLoops elapsed, delegate, []⟩ with
    | none => none
    | some r => some ((r.progressCurrent A elapsed).finish elapsed)

/-- A series of calls, and all that they do. -/
def progressAll (fuel : Nat) : List Int → AnimationSequence T → Values T → Option (Progressed T)
  | [], s, delegate => some ⟨s, delegate, []⟩
  | elapsed :: series, s, delegate =>
    match s.progress A elapsed fuel delegate with
    | none => none
    | some r =>
      match progressAll fuel series r.sequence r.delegate with
      | none => none
      | some r' => some { r' with events := r.events ++ r'.events }

def getTargetValue (s : AnimationSequence T) (target : Values T) : Values T :=
  if s.isCyclic then target
  else (s.elements.drop s.lastElement).foldl LayerAnimationElement.getTargetValue target

/-- What each element makes of the values it is to fill in. -/
def targets (s : AnimationSequence T) : List (Values T → Values T) :=
  s.elements.map fun e target => e.getTargetValue target

end AnimationSequence

/-- The elements before the one at this index last so long. -/
def startOf (durations : List Int) (index : Nat) : Int := (durations.take index).sum

section
variable {T : Type} {A : Arithmetic T} {r : Progressed T} {s : AnimationSequence T} {t : ℚ}
  {elapsed : Int} {durations : List Int} {i j : Nat}

/-! ## Starts -/

theorem startOf_zero : startOf durations 0 = 0 := rfl

theorem startOf_succ (hi : i < durations.length) :
    startOf durations (i + 1) = startOf durations i + durations.getD i 0 := by
  have hget : durations.getD i 0 = durations[i] := by
    rw [getD_eq_getElem?_getD, List.getElem?_eq_getElem hi, Option.getD_some]
  rw [startOf, startOf, take_succ_eq_append_getElem hi, sum_append, sum_singleton,
    hget]

theorem startOf_length : startOf durations durations.length = durations.sum := by
  rw [startOf, take_length]

section

variable (h : ∀ d ∈ durations, 0 ≤ d)
include h

theorem startOf_mono (hle : i ≤ j) : startOf durations i ≤ startOf durations j := by
  have hsplit := take_append_drop i (durations.take j)
  rw [take_take, Nat.min_eq_left hle] at hsplit
  have hrest : 0 ≤ ((durations.take j).drop i).sum := by
    apply sum_nonneg
    intro d hd
    exact h d (mem_of_mem_take (mem_of_mem_drop hd))
  rw [startOf, startOf, ← hsplit, sum_append]
  omega

theorem startOf_nonneg (i : Nat) : 0 ≤ startOf durations i :=
  startOf_mono h (Nat.zero_le i)

theorem startOf_le_sum (i : Nat) : startOf durations i ≤ durations.sum := by
  rw [← startOf_length]
  by_cases hi : i ≤ durations.length
  · exact startOf_mono h hi
  · rw [startOf, take_of_length_le (by omega), startOf_length]

end

/-! ## One element -/

namespace AnimationSequence

theorem duration_eq (s : AnimationSequence T) : s.duration = s.durations.sum := rfl

@[simp] theorem durations_length (s : AnimationSequence T) :
    s.durations.length = s.elements.length := length_map _

theorem currentIndex_lt (h : s.elements ≠ []) : s.currentIndex < s.elements.length :=
  Nat.mod_lt _ (length_pos_iff.mpr h)

theorem currentIndex_of_lt (h : s.lastElement < s.elements.length) :
    s.currentIndex = s.lastElement := Nat.mod_eq_of_lt h

end AnimationSequence

namespace Progressed

variable (A) in
theorem progressElement_eq (t : ℚ) (h : r.sequence.elements ≠ []) :
    ∃ e, r.sequence.elements[r.sequence.currentIndex]? = some e ∧
      r.progressElement A t =
        { sequence := { r.sequence with
            elements := r.sequence.elements.set r.sequence.currentIndex
              (e.progress A t r.delegate).1 }
          delegate := (e.progress A t r.delegate).2
          events := r.events ++ [.progressed r.sequence.currentIndex t] } := by
  have hlt := r.sequence.currentIndex_lt h
  refine ⟨r.sequence.elements[r.sequence.currentIndex], List.getElem?_eq_getElem hlt, ?_⟩
  rw [progressElement, List.getElem?_eq_getElem hlt]

theorem map_set_eq {α β : Type*} (f : α → β) {l : List α} {a b : α} (h : l[i]? = some a)
    (hf : f b = f a) : (l.set i b).map f = l.map f := by
  obtain ⟨hi, rfl⟩ := List.getElem?_eq_some_iff.mp h
  rw [map_set, hf, ← map_set, set_getElem_self]

/-- All that progress of an element leaves as it is. -/
structure SameCourse (s s' : AnimationSequence T) : Prop where
  durations : s'.durations = s.durations
  isCyclic : s'.isCyclic = s.isCyclic
  targets : s'.targets = s.targets

theorem SameCourse.refl (s : AnimationSequence T) : SameCourse s s := ⟨rfl, rfl, rfl⟩

theorem SameCourse.trans {s s' s'' : AnimationSequence T} (h : SameCourse s s')
    (h' : SameCourse s' s'') : SameCourse s s'' :=
  ⟨h'.durations.trans h.durations, h'.isCyclic.trans h.isCyclic, h'.targets.trans h.targets⟩

theorem SameCourse.length {s s' : AnimationSequence T} (h : SameCourse s s') :
    s'.elements.length = s.elements.length := by
  rw [← s.durations_length, ← s'.durations_length, h.durations]

theorem SameCourse.ne_nil {s s' : AnimationSequence T} (h : SameCourse s s')
    (hs : s.elements ≠ []) : s'.elements ≠ [] := by
  rw [← length_pos_iff, h.length]
  exact length_pos_iff.mpr hs

variable (A) in
theorem progressElement_course (t : ℚ) (h : r.sequence.elements ≠ []) :
    SameCourse r.sequence (r.progressElement A t).sequence ∧
      (r.progressElement A t).sequence.lastElement = r.sequence.lastElement ∧
      (r.progressElement A t).sequence.lastStart = r.sequence.lastStart ∧
      (r.progressElement A t).events = r.events ++ [.progressed r.sequence.currentIndex t] := by
  obtain ⟨e, he, heq⟩ := progressElement_eq A t h
  rw [heq]
  refine ⟨⟨map_set_eq _ he rfl, rfl, map_set_eq _ he ?_⟩, rfl, rfl, rfl⟩
  funext w
  exact getTargetValue_progress w

variable (A) in
theorem pass_course (h : r.sequence.elements ≠ []) :
    SameCourse r.sequence (r.pass A).sequence ∧
      (r.pass A).sequence.lastElement = r.sequence.lastElement + 1 ∧
      (r.pass A).sequence.lastStart = r.sequence.lastStart + r.sequence.currentDuration ∧
      (r.pass A).events = r.events ++ [.progressed r.sequence.currentIndex 1] := by
  obtain ⟨hcourse, -, -, hevents⟩ := progressElement_course A 1 h
  exact ⟨⟨hcourse.durations, hcourse.isCyclic, hcourse.targets⟩, rfl, rfl, hevents⟩

end Progressed

end

/-! ## Two fades -/

/-- A layer that is fully seen. -/
def shown : Values Unit := ⟨(), .ofInts 0 0 1 1, 1, true⟩

/-- A fade to nothing and one to a half. -/
def fades (first second : Int) : List (LayerAnimationElement Unit) :=
  [⟨.opacityTransition 1 0, first, .linear, true⟩,
    ⟨.opacityTransition 0 (1 / 2), second, .linear, true⟩]

theorem fades_nonneg {first second : Int} (hfirst : 0 ≤ first) (hsecond : 0 ≤ second) :
    ∀ e ∈ fades first second, 0 ≤ e.duration := by
  intro e he
  obtain rfl | he := mem_cons.mp he
  · exact hfirst
  · cases mem_singleton.mp he
    exact hsecond

/-! ## Cyclic sequences

However often a cyclic sequence has been progressed, `last_start_` is when its current element
starts in one of the cycles, and Progress comes to the element that the time falls on. -/

open Nat Int AnimationSequence
open Progressed (SameCourse)

/-- The time in its cycle: 0 is the end of the cycle before. -/
def cycleTime (total elapsed : Int) : Int := (elapsed - 1) % total + 1

/-- The call has come to the element that the time falls on, and to its fraction of it. -/
structure FallsOn (durations : List Int) (elapsed : Int) (events : List SequenceEvent) (index : Nat)
    (t : ℚ) : Prop where
  last : ∃ before, events = before ++ [.progressed index t]
  lt : index < durations.length
  starts : startOf durations index < cycleTime durations.sum elapsed
  ends : cycleTime durations.sum elapsed ≤ startOf durations (index + 1)
  fraction : t = ((cycleTime durations.sum elapsed - startOf durations index : Int) : ℚ) /
    durations.getD index 0
  range : 0 < t ∧ t ≤ 1

/-- `last_start_` is a start of the current element. -/
structure Cycling (s₀ s : AnimationSequence T) (cycle : Int) : Prop where
  course : SameCourse s₀ s
  cyclic : s.isCyclic = true
  lastStart : s.lastStart = cycle * s₀.duration + startOf s₀.durations s.currentIndex

section
variable {T : Type} {A : Arithmetic T} {r : Progressed T} {s s₀ : AnimationSequence T}
  {v : Values T} {elapsed cycle : Int} {i : Nat}

/-- A sequence that a cycle of takes time. -/
structure Cycle (s₀ : AnimationSequence T) : Prop where
  nonneg : ∀ d ∈ s₀.durations, 0 ≤ d
  pos : 0 < s₀.duration

theorem succ_mod {m n : Nat} (hn : 0 < n) :
    (m % n + 1 < n ∧ (m + 1) % n = m % n + 1) ∨ (m % n + 1 = n ∧ (m + 1) % n = 0) := by
  have hlt := mod_lt m hn
  have hsplit : m + 1 = n * (m / n) + (m % n + 1) := by
    have := div_add_mod m n
    omega
  by_cases hnext : m % n + 1 < n
  · left
    refine ⟨hnext, ?_⟩
    conv_lhs => rw [hsplit]
    rw [mul_add_mod, mod_eq_of_lt hnext]
  · right
    have hn' : m % n + 1 = n := by omega
    refine ⟨hn', ?_⟩
    conv_lhs => rw [hsplit]
    rw [mul_add_mod, hn', mod_self]

namespace Cycling

section

variable (h : Cycling s₀ s cycle)
include h

theorem ne_nil (hcycle : Cycle s₀) : s.elements ≠ [] := by
  rintro hnil
  have hpos := hcycle.pos
  have hdurations : s.durations = [] := by rw [durations, hnil, map_nil]
  rw [s₀.duration_eq, ← h.course.durations, hdurations] at hpos
  exact lt_irrefl 0 hpos

theorem currentIndex_lt (hcycle : Cycle s₀) : s.currentIndex < s₀.durations.length := by
  rw [← h.course.durations, s.durations_length]
  exact s.currentIndex_lt (h.ne_nil hcycle)

/-- The current element ends where the next one starts. -/
theorem end_eq (hcycle : Cycle s₀) :
    s.lastStart + s.currentDuration =
      cycle * s₀.duration + startOf s₀.durations (s.currentIndex + 1) := by
  rw [startOf_succ (h.currentIndex_lt hcycle), h.lastStart, currentDuration,
    h.course.durations]
  omega

end

variable (A) in
/-- The next element, which may be the first one of the next cycle. -/
theorem pass (h : Cycling s₀ r.sequence cycle) (hcycle : Cycle s₀) :
    (Cycling s₀ (r.pass A).sequence cycle ∧
      (r.pass A).sequence.currentIndex = r.sequence.currentIndex + 1) ∨
    (Cycling s₀ (r.pass A).sequence (cycle + 1) ∧
      (r.pass A).sequence.lastStart = (cycle + 1) * s₀.duration) := by
  obtain ⟨hcourse, hlast, hstart, -⟩ := Progressed.pass_course A (h.ne_nil hcycle)
  have hend := h.end_eq hcycle
  have hpos : 0 < r.sequence.elements.length := length_pos_iff.mpr (h.ne_nil hcycle)
  have hindex : (r.pass A).sequence.currentIndex =
      (r.sequence.lastElement + 1) % r.sequence.elements.length := by
    rw [currentIndex, hlast, hcourse.length]
  obtain ⟨-, hnext⟩ | ⟨hlen, hnext⟩ := @succ_mod r.sequence.lastElement _ hpos
  · left
    have hnext' : (r.pass A).sequence.currentIndex = r.sequence.currentIndex + 1 :=
      hindex.trans hnext
    refine ⟨⟨h.course.trans hcourse, hcourse.isCyclic.trans h.cyclic, ?_⟩, hnext'⟩
    rw [hstart, hend, hnext']
  · right
    have hlen' : r.sequence.currentIndex + 1 = s₀.durations.length := by
      rw [← h.course.durations, r.sequence.durations_length]
      exact hlen
    have hstart' : (r.pass A).sequence.lastStart = (cycle + 1) * s₀.duration := by
      rw [hstart, hend, hlen', startOf_length, ← s₀.duration_eq]
      ring
    refine ⟨⟨h.course.trans hcourse, hcourse.isCyclic.trans h.cyclic, ?_⟩, hstart'⟩
    rw [hstart', hindex, hnext, startOf_zero, add_zero]

/-- Complete loops are skipped, but for one. -/
theorem skipLoops (h : Cycling s₀ s cycle) (hcycle : Cycle s₀) (hle : s.lastStart ≤ elapsed) :
    ∃ cycle', Cycling s₀ (s.skipLoops elapsed) cycle' ∧
      (s.skipLoops elapsed).lastStart < elapsed := by
  have hdur : s.duration = s₀.duration := by
    rw [s.duration_eq, h.course.durations, ← s₀.duration_eq]
  have hpos := hcycle.pos
  have hk : (elapsed - s.lastStart).tdiv s.duration = (elapsed - s.lastStart) / s.duration :=
    tdiv_eq_ediv_of_nonneg (by omega)
  rw [AnimationSequence.skipLoops, if_pos ⟨h.cyclic, by omega⟩]
  dsimp only
  rw [hk, hdur]
  refine ⟨cycle + ((elapsed - s.lastStart) / s₀.duration - 1), ⟨⟨h.course.durations,
    h.course.isCyclic, h.course.targets⟩, h.cyclic, ?_⟩, ?_⟩
  · change _ = _ + startOf s₀.durations s.currentIndex
    rw [h.lastStart]
    ring
  · have hdivmod := mul_ediv_add_emod (elapsed - s.lastStart) s₀.duration
    have hmod := emod_nonneg (elapsed - s.lastStart) (ne_of_gt hpos)
    have hexpand : ((elapsed - s.lastStart) / s₀.duration - 1) * s₀.duration =
        s₀.duration * ((elapsed - s.lastStart) / s₀.duration) - s₀.duration := by ring
    omega

end Cycling

/-- The loop ends at an element that starts before `elapsed` and does not end before it. -/
theorem passElements_cycling (hcycle : Cycle s₀) (h : Cycling s₀ r.sequence cycle)
    (hlt : r.sequence.lastStart < elapsed) :
    ∃ r' cycle', Computes (fun fuel => r.passElements A elapsed fuel) r' ∧
      Cycling s₀ r'.sequence cycle' ∧ r'.sequence.lastStart < elapsed ∧
      elapsed ≤ r'.sequence.lastStart + r'.sequence.currentDuration := by
  -- a cycle is worth more than all of its elements
  generalize hleft : s₀.durations.length * (elapsed - cycle * s₀.duration).toNat +
    (s₀.durations.length - r.sequence.currentIndex) = left
  induction left using Nat.strong_induction_on generalizing r cycle with
  | _ left ih =>
    by_cases hpass : r.sequence.lastStart + r.sequence.currentDuration < elapsed
    · have hindex := h.currentIndex_lt hcycle
      have hpos := hcycle.pos
      have hstart : (r.pass A).sequence.lastStart =
          r.sequence.lastStart + r.sequence.currentDuration :=
        (Progressed.pass_course A (h.ne_nil hcycle)).2.2.1
      have hstep : ∃ left' < left, ∃ cycle', Cycling s₀ (r.pass A).sequence cycle' ∧
          s₀.durations.length * (elapsed - cycle' * s₀.duration).toNat +
            (s₀.durations.length - (r.pass A).sequence.currentIndex) = left' := by
        obtain ⟨hnext, hcurr⟩ | ⟨hnext, hbegin⟩ := h.pass A hcycle
        · exact ⟨_, by rw [hcurr, ← hleft]; omega, cycle, hnext, rfl⟩
        · refine ⟨_, ?_, cycle + 1, hnext, rfl⟩
          have hexpand : (cycle + 1) * s₀.duration = cycle * s₀.duration + s₀.duration := by ring
          have hfewer : (elapsed - (cycle + 1) * s₀.duration).toNat + 1 ≤
              (elapsed - cycle * s₀.duration).toNat := by omega
          have hmul := mul_le_mul_left s₀.durations.length hfewer
          rw [mul_add, mul_one] at hmul
          omega
      obtain ⟨left', hless, cycle', hnext, heq⟩ := hstep
      obtain ⟨r', cycle'', hrun, hr'⟩ := ih left' hless hnext (by omega) heq
      refine ⟨r', cycle'', hrun.succ fun fuel => ?_, hr'⟩
      exact if_pos ⟨Or.inl h.cyclic, hpass⟩
    · refine ⟨r, cycle, ⟨1, fun fuel hfuel => ?_⟩, h, hlt, by omega⟩
      obtain _ | fuel := fuel
      · omega
      exact if_neg fun hgo => hpass hgo.2

/-! ## The calls -/

/-- The time in the cycle, of a time that the current element lasts over. -/
theorem cycleTime_eq {start : Int} (hstart : 0 ≤ start)
    (hlt : cycle * s₀.duration + start < elapsed)
    (hle : elapsed ≤ cycle * s₀.duration + s₀.duration) :
    cycleTime s₀.durations.sum elapsed = elapsed - cycle * s₀.duration := by
  have hsplit : elapsed - 1 = (elapsed - cycle * s₀.duration - 1) + s₀.duration * cycle := by ring
  rw [cycleTime, ← s₀.duration_eq, hsplit, add_mul_emod_self_left,
    emod_eq_of_lt (by omega) (by omega)]
  omega

theorem fallsOn (hcycle : Cycle s₀) (h : Cycling s₀ s cycle) (hlt : s.lastStart < elapsed)
    (hle : elapsed ≤ s.lastStart + s.currentDuration) {events : List SequenceEvent}
    (hlast : ∃ before, events = before ++
      [.progressed s.currentIndex (Progressed.currentProgress elapsed s)]) :
    FallsOn s₀.durations elapsed events s.currentIndex (Progressed.currentProgress elapsed s) := by
  have hindex := h.currentIndex_lt hcycle
  have hend := h.end_eq hcycle
  have hsum := startOf_le_sum hcycle.nonneg (s.currentIndex + 1)
  rw [← s₀.duration_eq] at hsum
  have hstart := startOf_nonneg hcycle.nonneg s.currentIndex
  have hlastStart := h.lastStart
  have htime : cycleTime s₀.durations.sum elapsed = elapsed - cycle * s₀.duration :=
    cycleTime_eq hstart (by omega) (by omega)
  have hpos : 0 < s.currentDuration := by omega
  have hpos' : (0 : ℚ) < s.currentDuration := by exact_mod_cast hpos
  have hdur : s₀.durations.getD s.currentIndex 0 = s.currentDuration := by
    rw [currentDuration, h.course.durations]
  have hprogress : Progressed.currentProgress elapsed s =
      ((elapsed - s.lastStart : Int) : ℚ) / s.currentDuration := if_pos hpos
  have hleft : (0 : ℚ) < ((elapsed - s.lastStart : Int) : ℚ) := by
    exact_mod_cast (by omega : 0 < elapsed - s.lastStart)
  have hright : ((elapsed - s.lastStart : Int) : ℚ) ≤ s.currentDuration := by
    exact_mod_cast (by omega : elapsed - s.lastStart ≤ s.currentDuration)
  refine ⟨hlast, hindex, by omega, by omega, ?_, ?_, ?_⟩
  · have hfrom : cycleTime s₀.durations.sum elapsed - startOf s₀.durations s.currentIndex =
        elapsed - s.lastStart := by omega
    rw [hprogress, hdur, hfrom]
  · rw [hprogress]
    exact div_pos hleft hpos'
  · rw [hprogress]
    exact (div_le_one hpos').mpr hright

variable (A) in
/-- One call, from any earlier time. -/
theorem progress_cycling (hcycle : Cycle s₀) (h : Cycling s₀ s cycle) (hle : s.lastStart ≤ elapsed)
    (v : Values T) :
    ∃ (r : Progressed T) (cycle' : Int), Computes (fun fuel => s.progress A elapsed fuel v) r ∧
      Cycling s₀ r.sequence cycle' ∧ r.sequence.lastStart < elapsed ∧
      ∃ index t, FallsOn s₀.durations elapsed r.events index t := by
  obtain ⟨cycle₁, hskip, hskipped⟩ := h.skipLoops hcycle hle
  obtain ⟨r, cycle₂, hrun, hr, hlt, hend⟩ :=
    @passElements_cycling _ A ⟨s.skipLoops elapsed, v, []⟩ _ _ _ hcycle hskip hskipped
  obtain ⟨hcourse, hlast, hstart, hevents⟩ := Progressed.progressElement_course A
    (Progressed.currentProgress elapsed r.sequence) (hr.ne_nil hcycle)
  have hindex : (r.progressElement A
      (Progressed.currentProgress elapsed r.sequence)).sequence.currentIndex =
        r.sequence.currentIndex := by
    rw [currentIndex, hlast, hcourse.length]
    rfl
  refine ⟨r.progressElement A (Progressed.currentProgress elapsed r.sequence), cycle₂, ?_,
    ⟨hr.course.trans hcourse, hcourse.isCyclic.trans hr.cyclic, ?_⟩, ?_,
    r.sequence.currentIndex, Progressed.currentProgress elapsed r.sequence, ?_⟩
  · obtain ⟨enough, hrun⟩ := hrun
    refine ⟨enough, fun fuel hfuel => ?_⟩
    have hunfinished : r.sequence.Unfinished := Or.inl hr.cyclic
    have hloop := hrun fuel hfuel
    beta_reduce at hloop ⊢
    rw [progress, if_neg (h.ne_nil hcycle), hloop]
    dsimp only
    rw [Progressed.progressCurrent, if_pos hunfinished, Progressed.finish, if_neg]
    rintro ⟨hno, -⟩
    rw [hcourse.isCyclic, hr.cyclic] at hno
    cases hno
  · rw [hstart, hindex]
    exact hr.lastStart
  · rw [hstart]
    exact hlt
  · exact fallsOn hcycle hr hlt hend ⟨r.events, hevents⟩

variable (A) in
/-- Calls at times that do not go back. -/
theorem progressAll_cycling (hcycle : Cycle s₀) {series : List Int}
    (hseries : series.Pairwise (· ≤ ·)) (h : Cycling s₀ s cycle)
    (hle : ∀ e ∈ series, s.lastStart ≤ e) (v : Values T) :
    ∃ (r : Progressed T) (cycle' : Int), Computes (fun fuel => s.progressAll A fuel series v) r ∧
      Cycling s₀ r.sequence cycle' ∧
      ∀ elapsed, s.lastStart ≤ elapsed → (∀ e ∈ series, e ≤ elapsed) →
        r.sequence.lastStart ≤ elapsed := by
  induction series generalizing s v cycle with
  | nil => exact ⟨⟨s, v, []⟩, cycle, ⟨0, fun fuel _ => rfl⟩, h, fun elapsed hs _ => hs⟩
  | cons e series ih =>
    obtain ⟨hfirst, hrest⟩ := pairwise_cons.mp hseries
    obtain ⟨r, cycle₁, ⟨m, hrun⟩, hr, hlt, -⟩ :=
      progress_cycling A hcycle h (hle e mem_cons_self) v
    obtain ⟨r', cycle₂, ⟨n, hrun'⟩, hr', hbound⟩ := ih hrest hr
      (fun e' he' => le_trans (le_of_lt hlt) (hfirst e' he')) r.delegate
    refine ⟨{ r' with events := r.events ++ r'.events }, cycle₂, ⟨max m n, fun fuel hfuel => ?_⟩,
      hr', fun elapsed _ hall => ?_⟩
    · have hfirst := hrun fuel (by omega)
      have hrest := hrun' fuel (by omega)
      beta_reduce at hfirst hrest ⊢
      rw [progressAll, hfirst]
      dsimp only
      rw [hrest]
    · have he := hall e mem_cons_self
      exact hbound elapsed (by omega) fun e' he' => hall e' (mem_cons_of_mem _ he')

variable {elements : List (LayerAnimationElement T)} {series : List Int}

/-- Whatever calls were made before, Progress comes to the element that the time falls on. The
delegate may have been changed in between. -/
theorem cyclic_progress (hnonneg : ∀ e ∈ elements, 0 ≤ e.duration)
    (hpos : 0 < totalDuration elements) (hseries : (series ++ [elapsed]).Pairwise (· ≤ ·))
    (hstart : ∀ e ∈ series, 0 ≤ e) (helapsed : 0 < elapsed) (v : Values T) :
    ∃ r : Progressed T, Computes (fun fuel =>
        (AnimationSequence.new true elements).progressAll A fuel series v) r ∧
      ∀ w, ∃ r' : Progressed T,
        Computes (fun fuel => r.sequence.progress A elapsed fuel w) r' ∧
          ∃ index t, FallsOn (elements.map LayerAnimationElement.duration) elapsed r'.events
            index t := by
  have hcycle : Cycle (new true elements) := by
    refine ⟨fun d hd => ?_, hpos⟩
    obtain ⟨e, he, rfl⟩ := mem_map.mp hd
    exact hnonneg e he
  have hnew : Cycling (new true elements) (.new true elements) 0 := by
    refine ⟨.refl _, rfl, ?_⟩
    have hindex : (new true elements).currentIndex = 0 := zero_mod _
    rw [hindex, zero_mul, startOf_zero]
    rfl
  obtain ⟨hbefore, -, hlast⟩ := pairwise_append.mp hseries
  obtain ⟨r, cycle', hrun, hr, hbound⟩ := progressAll_cycling A hcycle hbefore hnew hstart v
  refine ⟨r, hrun, fun w => ?_⟩
  obtain ⟨r', cycle'', hrun', -, -, hfalls⟩ := progress_cycling A hcycle hr
    (hbound elapsed (le_of_lt helapsed) fun e he => hlast e he _ (mem_singleton_self _)) w
  exact ⟨r', hrun', hfalls⟩

end

theorem cyclic_progress_fades : ∃ r : Progressed Unit, Computes (fun fuel =>
    (AnimationSequence.new true (fades 2 3)).progressAll default fuel [0, 1, 7] shown) r ∧
      ∀ w, ∃ r' : Progressed Unit,
        Computes (fun fuel => r.sequence.progress default 23 fuel w) r' ∧
          ∃ index t, FallsOn [2, 3] 23 r'.events index t :=
  cyclic_progress (fades_nonneg (by decide) (by decide)) (by decide) (by decide) (by decide)
    (by decide) shown

end ChromiumUI.Compositor
