import ChromiumUI.LayerAnimator
import ChromiumUI.Outcomes
import ChromiumUI.Runs

/-!
# The scheduling invariant of the layer animator

Running sequences are queued and animate disjoint properties at every point of the nested
calls; between calls whatever waits in the queue waits for a conflicting sequence. The number
of turns left is bounded by twice the length of the queue less the number of running sequences.
-/
namespace ChromiumUI.Compositor

open Outcomes Runs LayerAnimationSequence

theorem LayerAnimationSequence.hasCommonProperty_iff {sequence : LayerAnimationSequence}
    {other : AnimatableProperties} :
    sequence.hasCommonProperty other = true ↔ ¬Disjoint sequence.properties other := by
  rw [hasCommonProperty, decide_eq_true_eq, gt_iff_lt, Finset.card_pos,
    Finset.not_disjoint_iff_nonempty_inter]

variable {sequences : List LayerAnimationSequence}

namespace LayerAnimator

variable {s s' : LayerAnimator} {sequence : LayerAnimationSequence}

/-! ## The invariant of the nested calls -/

def runningSequences (s : LayerAnimator) : List LayerAnimationSequence :=
  s.runningAnimations.map RunningAnimation.sequence

/-- What holds at every re-entrant point. -/
structure Base (s : LayerAnimator) : Prop where
  distinct : (s.animationQueue.map LayerAnimationSequence.id).Nodup
  queued : ∀ running ∈ s.runningSequences, running ∈ s.animationQueue
  disjoint : s.runningSequences.Pairwise fun a b => Disjoint a.properties b.properties
  nonempty : ∀ queued ∈ s.animationQueue, queued.properties.Nonempty
  allocated : ∀ queued ∈ s.animationQueue, queued.id < s.nextId

/-- Every queued sequence that is not running waits for a running one or for one before it. -/
def Settled (s : LayerAnimator) : Prop :=
  ∀ pre waiting post, s.animationQueue = pre ++ waiting :: post → waiting ∉ s.runningSequences →
    ∃ earlier, (earlier ∈ s.runningSequences ∨ earlier ∈ pre) ∧
      ¬Disjoint earlier.properties waiting.properties

/-- The turns that ProcessQueue has left. -/
def weight (s : LayerAnimator) : Nat := 2 * s.animationQueue.length - s.runningAnimations.length

theorem Base.eq_of_id (h : Base s) {a b : LayerAnimationSequence} (ha : a ∈ s.animationQueue)
    (hb : b ∈ s.animationQueue) (hid : a.id = b.id) : a = b :=
  List.inj_on_of_nodup_map h.distinct ha hb hid

theorem Base.running_nodup (h : Base s) : s.runningSequences.Nodup := by
  rw [List.Nodup]
  refine h.disjoint.imp_of_mem ?_
  rintro a b ha - hdisj rfl
  obtain ⟨p, hp⟩ := h.nonempty a (h.queued a ha)
  exact Finset.disjoint_left.mp hdisj hp hp

theorem Base.running_le (h : Base s) : s.runningAnimations.length ≤ s.animationQueue.length := by
  have hsubperm := h.running_nodup.subperm h.queued
  have := hsubperm.length_le
  rwa [runningSequences, List.length_map] at this

theorem Base.update (h : Base s) (hqueue : s'.animationQueue = s.animationQueue)
    (hrun : s'.runningAnimations = s.runningAnimations) (hid : s.nextId ≤ s'.nextId) :
    Base s' where
  distinct := hqueue ▸ h.distinct
  queued := by
    rw [runningSequences, hrun, hqueue]
    exact h.queued
  disjoint := by
    rw [runningSequences, hrun]
    exact h.disjoint
  nonempty := hqueue ▸ h.nonempty
  allocated queued hqueued := by
    rw [hqueue] at hqueued
    exact Nat.lt_of_lt_of_le (h.allocated queued hqueued) hid

theorem Settled.update (h : Settled s) (hqueue : s'.animationQueue = s.animationQueue)
    (hrun : s'.runningAnimations = s.runningAnimations) : Settled s' := by
  rw [Settled, runningSequences, hqueue, hrun]
  exact h

/-! ## Removing -/

theorem removeAnimation_queue_sublist :
    (s.removeAnimation sequence).animationQueue.Sublist s.animationQueue :=
  List.eraseP_sublist

theorem removeAnimation_running_sublist :
    (s.removeAnimation sequence).runningSequences.Sublist s.runningSequences :=
  List.eraseP_sublist.map _

/-- The one running animation with the address is removed. -/
theorem ne_of_mem_eraseP {l : List RunningAnimation} (hl : (l.map fun r => r.sequence.id).Nodup)
    {r : RunningAnimation} {id : Nat} (hr : r ∈ l.eraseP fun r => r.sequence.id == id) :
    r.sequence.id ≠ id := by
  induction l with
  | nil => cases hr
  | cons a l ih =>
    rw [List.map_cons, List.nodup_cons] at hl
    by_cases ha : a.sequence.id = id
    · rw [List.eraseP_cons_of_pos (by simpa using ha)] at hr
      intro he
      exact hl.1 (List.mem_map.mpr ⟨r, hr, he.trans ha.symm⟩)
    · rw [List.eraseP_cons_of_neg (by simpa using ha)] at hr
      obtain rfl | hr := List.mem_cons.mp hr
      · exact ha
      · exact ih hl.2 hr

theorem Base.running_ids (h : Base s) : (s.runningAnimations.map fun r => r.sequence.id).Nodup := by
  have hmap : (s.runningAnimations.map fun r => r.sequence.id) =
      s.runningSequences.map LayerAnimationSequence.id := by
    rw [runningSequences, List.map_map]
    rfl
  rw [hmap]
  exact h.running_nodup.map_on fun a ha b hb => h.eq_of_id (h.queued a ha) (h.queued b hb)

theorem Base.removeAnimation (h : Base s) : Base (s.removeAnimation sequence) where
  distinct := h.distinct.sublist (removeAnimation_queue_sublist.map _)
  queued running hrun := by
    have hqueue := h.queued running (removeAnimation_running_sublist.subset hrun)
    obtain ⟨r, hr, rfl⟩ := List.mem_map.mp hrun
    have hne := ne_of_mem_eraseP h.running_ids hr
    exact (List.mem_eraseP_of_neg (by simpa using hne)).mpr hqueue
  disjoint := h.disjoint.sublist removeAnimation_running_sublist
  nonempty queued hqueue := h.nonempty queued (removeAnimation_queue_sublist.subset hqueue)
  allocated queued hqueue := h.allocated queued (removeAnimation_queue_sublist.subset hqueue)

/-- A removal leaves less to do. -/
theorem weight_removeAnimation (h : Base s) (hseq : s.hasAnimation sequence = true) :
    (s.removeAnimation sequence).weight < s.weight ∧
      (s.removeAnimation sequence).animationQueue.length + 1 = s.animationQueue.length := by
  rw [hasAnimation, List.any_eq_true] at hseq
  obtain ⟨queued, hqueued, hid⟩ := hseq
  have hqueue : (s.removeAnimation sequence).animationQueue.length =
      s.animationQueue.length - 1 := List.length_eraseP_of_mem hqueued hid
  have hpos : 0 < s.animationQueue.length := List.length_pos_of_mem hqueued
  have hle := h.running_le
  have hrun : s.runningAnimations.length ≤
      (s.removeAnimation sequence).runningAnimations.length + 1 := by
    have : (s.removeAnimation sequence).runningAnimations.length =
      (s.runningAnimations.eraseP fun r => r.sequence.id == sequence.id).length := rfl
    rw [this, List.length_eraseP]
    split <;> omega
  constructor
  · rw [weight, weight, hqueue]
    omega
  · omega

/-! ## Finishing and stepping -/

/-- What a nested call leaves behind: the invariant, less to do and nothing new in the queue. -/
structure Progresses (s s' : LayerAnimator) : Prop where
  base : Base s'
  weight : s'.weight ≤ s.weight
  queue : s'.animationQueue.Sublist s.animationQueue
  nextId : s'.nextId = s.nextId

theorem Progresses.refl (h : Base s) : Progresses s s := ⟨h, Nat.le_refl _, .refl _, rfl⟩

theorem Progresses.trans {s'' : LayerAnimator} (h : Progresses s s') (h' : Progresses s' s'') :
    Progresses s s'' :=
  ⟨h'.base, h'.weight.trans h.weight, h'.queue.trans h.queue, h'.nextId.trans h.nextId⟩

/-- ProcessQueue settles every state with less than `bound` turns to go. -/
def Settles (processQueue : LayerAnimator → Option LayerAnimator) (bound : Nat) : Prop :=
  ∀ s, Base s → s.weight < bound →
    Yields (processQueue s) fun s' => Progresses s s' ∧ Settled s'

variable {processQueue : LayerAnimator → Option LayerAnimator} {bound : Nat}

section

variable (hsettles : Settles processQueue bound)
include hsettles

theorem finishAnimation_yields (h : Base s)
    (hweight : s.weight ≤ bound) (hseq : s.hasAnimation sequence = true) :
    Yields (s.finishAnimation processQueue sequence) fun s' =>
      Progresses s s' ∧ Settled s' ∧ s'.animationQueue.length < s.animationQueue.length := by
  obtain ⟨hless, hlen⟩ := weight_removeAnimation h hseq
  apply (hsettles _ h.removeAnimation (by omega)).bind
  rintro s' ⟨hprog, hsettled⟩
  refine .some ⟨⟨hprog.base.update rfl rfl (Nat.le_refl _), ?_, ?_, hprog.nextId⟩,
    hsettled.update rfl rfl, ?_⟩
  · have := hprog.weight
    show s'.weight ≤ s.weight
    omega
  · exact hprog.queue.trans removeAnimation_queue_sublist
  · have := hprog.queue.length_le
    show s'.animationQueue.length < s.animationQueue.length
    omega

theorem stepRunning_yields (now : Int)
    (copy : List RunningAnimation) (h : Base s) (hweight : s.weight ≤ bound) :
    Yields (stepRunning processQueue now copy s) fun s' =>
      Progresses s s' ∧ (Settled s → Settled s') := by
  induction copy generalizing s with
  | nil => exact .some ⟨.refl h, id⟩
  | cons running copy ih =>
    rw [stepRunning]
    split
    · exact ih h hweight
    · rename_i hhas
      split
      · apply (finishAnimation_yields hsettles h hweight (by simpa using hhas)).bind
        rintro s' ⟨hprog, hsettled, -⟩
        apply (ih hprog.base (hprog.weight.trans hweight)).mono
        rintro s'' ⟨hprog', hsettled'⟩
        exact ⟨hprog.trans hprog', fun _ => hsettled' hsettled⟩
      · exact ih h hweight

theorem step_yields (now : Int) (h : Base s) (hweight : s.weight ≤ bound) :
    Yields (s.step processQueue now) fun s' => Progresses s s' ∧ (Settled s → Settled s') := by
  have hbase : Base { s with lastStepTime := now } := h.update rfl rfl (Nat.le_refl _)
  apply (stepRunning_yields hsettles now s.runningAnimations hbase hweight).mono
  rintro s' ⟨hprog, hsettled⟩
  exact ⟨⟨hprog.base, hprog.weight, hprog.queue, hprog.nextId⟩,
    fun hs => hsettled (hs.update rfl rfl)⟩

end

/-! ## Starting -/

/-- The sequence is one of the animator's, or a new one. -/
def Startable (s : LayerAnimator) (sequence : LayerAnimationSequence) : Prop :=
  sequence.properties.Nonempty ∧ sequence.id < s.nextId ∧
    (sequence ∈ s.animationQueue ∨ ∀ queued ∈ s.animationQueue, queued.id ≠ sequence.id)

theorem addToQueue_cases (hseq : sequence ∈ s.animationQueue ∨
    ∀ queued ∈ s.animationQueue, queued.id ≠ sequence.id) :
    sequence ∈ s.animationQueue ∧ s.addToQueueIfNotPresent sequence = s ∨
      (∀ queued ∈ s.animationQueue, queued.id ≠ sequence.id) ∧
        s.addToQueueIfNotPresent sequence =
          { s with animationQueue := sequence :: s.animationQueue } := by
  rw [addToQueueIfNotPresent]
  obtain hmem | hfresh := hseq
  · refine Or.inl ⟨hmem, if_pos ?_⟩
    exact List.any_eq_true.mpr ⟨sequence, hmem, by simp⟩
  · refine Or.inr ⟨hfresh, if_neg ?_⟩
    rw [hasAnimation, List.any_eq_true]
    rintro ⟨queued, hqueue, hid⟩
    exact hfresh queued hqueue (by simpa using hid)

/-- Putting a new sequence in front of the queue. -/
theorem Base.addToQueue (h : Base s) (hstart : Startable s sequence) :
    Base (s.addToQueueIfNotPresent sequence) := by
  obtain ⟨hnonempty, hid, hmember⟩ := hstart
  obtain ⟨-, hadd⟩ | ⟨hfresh, hadd⟩ := addToQueue_cases hmember
  · rw [hadd]
    exact h
  · rw [hadd]
    refine ⟨?_, fun running hrun => List.mem_cons_of_mem _ (h.queued running hrun),
      h.disjoint, ?_, ?_⟩
    · rw [List.map_cons, List.nodup_cons, List.mem_map]
      exact ⟨fun ⟨queued, hqueue, he⟩ => hfresh queued hqueue he, h.distinct⟩
    · rintro queued (- | ⟨-, hqueue⟩)
      · exact hnonempty
      · exact h.nonempty queued hqueue
    · rintro queued (- | ⟨-, hqueue⟩)
      · exact hid
      · exact h.allocated queued hqueue

theorem mem_addToQueue (hseq : sequence ∈ s.animationQueue ∨
    ∀ queued ∈ s.animationQueue, queued.id ≠ sequence.id) :
    sequence ∈ (s.addToQueueIfNotPresent sequence).animationQueue := by
  obtain ⟨hmem, hadd⟩ | ⟨-, hadd⟩ := addToQueue_cases hseq
  · rw [hadd]
    exact hmem
  · rw [hadd]
    exact List.mem_cons_self

/-- The sequence runs, and is queued. -/
def started (s : LayerAnimator) (sequence : LayerAnimationSequence) (startTime : Int) :
    LayerAnimator :=
  addToQueueIfNotPresent
    { s with runningAnimations := s.runningAnimations ++ [⟨sequence, startTime⟩] } sequence

theorem started_eq {startTime : Int} :
    s.started sequence startTime = { s.addToQueueIfNotPresent sequence with
      runningAnimations := s.runningAnimations ++ [⟨sequence, startTime⟩] } := by
  rw [started, addToQueueIfNotPresent, addToQueueIfNotPresent]
  have hhas : hasAnimation
      { s with runningAnimations := s.runningAnimations ++ [⟨sequence, startTime⟩] } sequence =
        s.hasAnimation sequence := rfl
  rw [hhas]
  split <;> rfl

theorem Base.started {startTime : Int} (h : Base s) (hstart : Startable s sequence)
    (hdisj : ∀ running ∈ s.runningSequences,
      Disjoint running.properties sequence.properties) : Base (s.started sequence startTime) := by
  have hadd := h.addToQueue hstart
  have hrun : (s.addToQueueIfNotPresent sequence).runningSequences = s.runningSequences := by
    rw [addToQueueIfNotPresent]
    split <;> rfl
  have hseqs : (s.started sequence startTime).runningSequences =
      s.runningSequences ++ [sequence] := by
    rw [started_eq, runningSequences, List.map_append]
    rfl
  have hqueue : (s.started sequence startTime).animationQueue =
      (s.addToQueueIfNotPresent sequence).animationQueue := by rw [started_eq]
  refine ⟨hqueue ▸ hadd.distinct, ?_, ?_, hqueue ▸ hadd.nonempty, ?_⟩
  · rw [hseqs, hqueue]
    intro running hmem
    obtain hmem | hmem := List.mem_append.mp hmem
    · exact hadd.queued running (hrun ▸ hmem)
    · rw [List.mem_singleton.mp hmem]
      exact mem_addToQueue hstart.2.2
  · rw [hseqs, List.pairwise_append]
    refine ⟨h.disjoint, List.pairwise_singleton _ _, fun a ha b hb => ?_⟩
    rw [List.mem_singleton.mp hb]
    exact hdisj a ha
  · rw [hqueue]
    intro queued hqueued
    have := hadd.allocated queued hqueued
    rw [started_eq]
    exact this

/-- A sequence in front of the others, or one of them, makes nobody's wait unfounded. -/
theorem Settled.started {startTime : Int} (h : Settled s) (hstart : Startable s sequence) :
    Settled (s.started sequence startTime) := by
  intro pre waiting post hsplit hwait
  have hseqs : (s.started sequence startTime).runningSequences =
      s.runningSequences ++ [sequence] := by
    rw [started_eq, runningSequences, List.map_append]
    rfl
  rw [hseqs, List.mem_append, List.mem_singleton, not_or] at hwait
  rw [hseqs]
  rw [started_eq] at hsplit
  have hkeep : ∀ earlier, earlier ∈ s.runningSequences →
      earlier ∈ s.runningSequences ++ [sequence] := fun _ => List.mem_append_left _
  obtain ⟨-, hadd⟩ | ⟨-, hadd⟩ := addToQueue_cases hstart.2.2
  · rw [hadd] at hsplit
    obtain ⟨earlier, hearlier, hcommon⟩ := h pre waiting post hsplit hwait.1
    exact ⟨earlier, hearlier.imp_left (hkeep earlier), hcommon⟩
  · rw [hadd] at hsplit
    cases pre with
    | nil =>
      obtain ⟨rfl, -⟩ := List.cons.inj hsplit
      exact absurd rfl hwait.2
    | cons first pre =>
      obtain ⟨-, hsplit'⟩ := List.cons.inj hsplit
      obtain ⟨earlier, hearlier, hcommon⟩ := h pre waiting post hsplit' hwait.1
      exact ⟨earlier, hearlier.imp (hkeep earlier) (List.mem_cons_of_mem _), hcommon⟩

/-- StartSequenceImmediately starts a sequence unless a running one is in its way. -/
theorem startSequenceImmediately_yields (hsettles : Settles processQueue bound) (now : Int)
    (h : Base s) (hstart : Startable s sequence)
    (hweight : ∀ startTime, (s.started sequence startTime).weight ≤ bound) :
    Yields (s.startSequenceImmediately processQueue now sequence) fun r =>
      r = (s, false) ∧ (∃ running ∈ s.runningSequences,
          ¬Disjoint running.properties sequence.properties) ∨
        r.2 = true ∧ ∃ startTime, Progresses (s.started sequence startTime) r.1 ∧
          (Settled s → Settled r.1) := by
  rw [startSequenceImmediately]
  split
  · rename_i hconflict
    obtain ⟨running, hrun, hcommon⟩ := List.any_eq_true.mp hconflict
    rw [hasCommonProperty_iff] at hcommon
    exact .some (Or.inl ⟨rfl, running.sequence, List.mem_map_of_mem hrun, hcommon⟩)
  · rename_i hclear
    have hdisj : ∀ running ∈ s.runningSequences,
        Disjoint running.properties sequence.properties := by
      intro running hrun
      obtain ⟨r, hr, rfl⟩ := List.mem_map.mp hrun
      by_contra hcommon
      exact hclear (List.any_eq_true.mpr
        ⟨r, hr, hasCommonProperty_iff.mpr hcommon⟩)
    generalize (if s.isAnimating then s.lastStepTime else now) = startTime
    apply (step_yields hsettles startTime (h.started hstart hdisj)
      (hweight startTime)).bind
    rintro s' ⟨hprog, hsettled⟩
    exact .some (Or.inr ⟨rfl, startTime, hprog, fun hs => hsettled (hs.started hstart)⟩)

/-! ## ProcessQueue -/

theorem mem_animatedProperties {running : List RunningAnimation} {p : AnimatableProperty} :
    p ∈ animatedProperties running ↔ ∃ r ∈ running, p ∈ r.sequence.properties := by
  induction running with
  | nil => simp [animatedProperties]
  | cons r running ih =>
    rw [animatedProperties, List.foldr_cons, Finset.mem_union, List.exists_mem_cons_iff, ← ih]
    rfl

theorem disjoint_animatedProperties {properties : AnimatableProperties} :
    Disjoint properties (animatedProperties s.runningAnimations) ↔
      ∀ running ∈ s.runningSequences, Disjoint running.properties properties := by
  simp only [Finset.disjoint_right, mem_animatedProperties, runningSequences, List.mem_map]
  constructor
  · rintro h _ ⟨r, hr, rfl⟩ p hp hp'
    exact h ⟨r, hr, hp'⟩ hp
  · rintro h p ⟨r, hr, hp⟩ hp'
    exact h r.sequence ⟨r, hr, rfl⟩ hp' hp

theorem findStartable_some {animated : AnimatableProperties}
    (h : findStartable animated sequences = some sequence) :
    sequence ∈ sequences ∧ Disjoint sequence.properties animated := by
  induction sequences generalizing animated with
  | nil => cases h
  | cons first sequences ih =>
    rw [findStartable] at h
    split at h
    · rename_i hclear
      cases h
      rw [Bool.not_eq_true', ← Bool.not_eq_true,
        hasCommonProperty_iff, not_not] at hclear
      exact ⟨List.mem_cons_self, hclear⟩
    · obtain ⟨hmem, hdisj⟩ := ih h
      exact ⟨List.mem_cons_of_mem _ hmem, hdisj.mono_right Finset.subset_union_left⟩

/-- Where nothing can be started, everything conflicts with what is animated or with a sequence
before it. -/
theorem findStartable_none {animated : AnimatableProperties}
    (h : findStartable animated sequences = none) {pre post : List LayerAnimationSequence}
    {waiting : LayerAnimationSequence} (hsplit : sequences = pre ++ waiting :: post) :
    ¬Disjoint waiting.properties animated ∨
      ∃ earlier ∈ pre, ¬Disjoint earlier.properties waiting.properties := by
  induction sequences generalizing animated pre with
  | nil => cases pre <;> cases hsplit
  | cons first sequences ih =>
    rw [findStartable] at h
    split at h
    · cases h
    · rename_i hconflict
      rw [Bool.not_eq_true', Bool.not_eq_false,
        hasCommonProperty_iff] at hconflict
      cases pre with
      | nil =>
        obtain ⟨rfl, -⟩ := List.cons.inj hsplit
        exact Or.inl hconflict
      | cons head pre =>
        obtain ⟨rfl, hsplit'⟩ := List.cons.inj hsplit
        obtain hunion | ⟨earlier, hearlier, hcommon⟩ := ih h hsplit'
        · by_cases hanimated : Disjoint waiting.properties animated
          · refine Or.inr ⟨first, List.mem_cons_self, fun hfirst => hunion ?_⟩
            exact Finset.disjoint_union_right.mpr ⟨hanimated, hfirst.symm⟩
          · exact Or.inl hanimated
        · exact Or.inr ⟨earlier, List.mem_cons_of_mem _ hearlier, hcommon⟩

theorem settled_of_findStartable
    (h : findStartable (animatedProperties s.runningAnimations) s.animationQueue = none) :
    Settled s := by
  intro pre waiting post hsplit _
  obtain hanimated | ⟨earlier, hearlier, hcommon⟩ := findStartable_none h hsplit
  · rw [disjoint_animatedProperties] at hanimated
    push Not at hanimated
    obtain ⟨running, hrun, hcommon⟩ := hanimated
    exact ⟨running, Or.inl hrun, hcommon⟩
  · exact ⟨earlier, Or.inr hearlier, hcommon⟩

/-- A turn of ProcessQueue starts a queued sequence, so that less is left to do. -/
theorem weight_started {startTime : Int} (h : Base (s.started sequence startTime))
    (hmem : sequence ∈ s.animationQueue) :
    (s.started sequence startTime).weight < s.weight ∧
      (s.started sequence startTime).animationQueue = s.animationQueue ∧
      (s.started sequence startTime).nextId = s.nextId := by
  have hadd : s.addToQueueIfNotPresent sequence = s := by
    rw [addToQueueIfNotPresent]
    exact if_pos (List.any_eq_true.mpr ⟨sequence, hmem, by simp⟩)
  have hle := h.running_le
  rw [started_eq, hadd] at hle ⊢
  refine ⟨?_, rfl, rfl⟩
  rw [weight, weight]
  simp only [List.length_append, List.length_singleton] at hle ⊢
  omega

/-- The invariant rule of the nested calls: with a turn for all that is left to do, ProcessQueue
comes to an end, and then nothing more can be started. -/
theorem settles_processQueueWithin (fuel : Nat) : Settles (processQueueWithin fuel) fuel := by
  induction fuel with
  | zero => exact fun s _ hweight => absurd hweight (Nat.not_lt_zero _)
  | succ fuel ih =>
    intro s h hweight
    rw [processQueueWithin]
    cases hfind : findStartable (animatedProperties s.runningAnimations) s.animationQueue with
    | none => exact .some ⟨.refl h, settled_of_findStartable hfind⟩
    | some sequence =>
      obtain ⟨hmem, hdisj⟩ := findStartable_some hfind
      rw [disjoint_animatedProperties] at hdisj
      have hstart : Startable s sequence :=
        ⟨h.nonempty _ hmem, h.allocated _ hmem, Or.inl hmem⟩
      have hstarted := fun startTime =>
        @weight_started s sequence startTime (h.started hstart hdisj) hmem
      apply (startSequenceImmediately_yields ih s.lastStepTime h hstart fun startTime => by
        have := (hstarted startTime).1
        omega).bind
      rintro ⟨s', flag⟩ (⟨-, running, hrun, hcommon⟩ | ⟨-, startTime, hprog, -⟩)
      · exact absurd (hdisj running hrun) hcommon
      · obtain ⟨hless, hqueue, hid⟩ := hstarted startTime
        have hweight' := hprog.weight
        have hprog' : Progresses s s' :=
          ⟨hprog.base, by dsimp only at hweight'; omega, hqueue ▸ hprog.queue,
            hprog.nextId.trans hid⟩
        apply (ih s' hprog.base (by dsimp only at hweight'; omega)).mono
        rintro s'' ⟨hprog'', hsettled⟩
        exact ⟨hprog'.trans hprog'', hsettled⟩

theorem settles_processQueue (bound : Nat) : Settles LayerAnimator.processQueue bound := by
  intro s h _
  apply settles_processQueueWithin _ s h
  rw [weight]
  omega

theorem processQueue_yields (h : Base s) :
    Yields s.processQueue fun s' => Progresses s s' ∧ Settled s' :=
  settles_processQueue _ s h (Nat.lt_succ_self _)

end LayerAnimator

/-! ## The calls of a layer animator

Every call comes to an end and keeps the scheduling invariant. -/

open Nat

namespace LayerAnimator

variable {s s' : LayerAnimator} {sequence : LayerAnimationSequence}

/-! ## The operations -/

/-- The scheduling invariant, as it holds between calls. -/
structure Scheduled (s : LayerAnimator) : Prop where
  base : Base s
  settled : Settled s

theorem scheduled_new : Scheduled new where
  base := ⟨List.nodup_nil, nofun, .nil, nofun, nofun⟩
  settled pre waiting post hsplit := by cases pre <;> cases hsplit

/-- Something runs whenever something is queued. -/
theorem Scheduled.exists_running (h : Scheduled s) (hqueue : s.animationQueue ≠ []) :
    s.runningAnimations ≠ [] := by
  intro hnone
  cases hsplit : s.animationQueue with
  | nil => exact hqueue hsplit
  | cons first queue =>
    have hidle : ∀ q, q ∉ s.runningSequences := by
      intro q
      simp [runningSequences, hnone]
    obtain ⟨earlier, hearlier, -⟩ := h.settled [] first queue hsplit (hidle first)
    obtain hrun | hpre := hearlier
    · exact hidle earlier hrun
    · cases hpre

theorem Base.pushBack (h : Base s) (hnonempty : sequence.properties.Nonempty)
    (hid : sequence.id < s.nextId) (hfresh : ∀ queued ∈ s.animationQueue, queued.id ≠ sequence.id) :
    Base (s.pushBack sequence) where
  distinct := by
    rw [LayerAnimator.pushBack, List.map_append, List.nodup_append]
    refine ⟨h.distinct, List.nodup_singleton _, ?_⟩
    rintro a ha b hb
    obtain ⟨queued, hqueue, rfl⟩ := List.mem_map.mp ha
    rw [List.mem_singleton.mp hb]
    exact hfresh queued hqueue
  queued running hrun := List.mem_append_left _ (h.queued running hrun)
  disjoint := h.disjoint
  nonempty queued hqueue := by
    obtain hmem | hmem := List.mem_append.mp hqueue
    · exact h.nonempty queued hmem
    · rw [List.mem_singleton.mp hmem]
      exact hnonempty
  allocated queued hqueue := by
    obtain hmem | hmem := List.mem_append.mp hqueue
    · exact h.allocated queued hmem
    · rw [List.mem_singleton.mp hmem]
      exact hid

/-- A sequence of the client's that the animator does not have. -/
structure Fresh (s : LayerAnimator) (sequence : LayerAnimationSequence) : Prop where
  nonempty : sequence.properties.Nonempty
  allocated : sequence.id < s.nextId
  fresh : ∀ queued ∈ s.animationQueue, queued.id ≠ sequence.id

theorem Fresh.startable (h : Fresh s sequence) : Startable s sequence :=
  ⟨h.nonempty, h.allocated, .inr h.fresh⟩

/-- What a loop of removals does to the animator. -/
structure Prunes (s s' : LayerAnimator) : Prop where
  base : Base s'
  queue : s'.animationQueue.Sublist s.animationQueue
  nextId : s'.nextId = s.nextId

theorem Prunes.refl (h : Base s) : Prunes s s := ⟨h, .refl _, rfl⟩

theorem Prunes.trans {s'' : LayerAnimator} (h : Prunes s s') (h' : Prunes s' s'') : Prunes s s'' :=
  ⟨h'.base, h'.queue.trans h.queue, h'.nextId.trans h.nextId⟩

theorem prunes_removeAnimation (h : Base s) : Prunes s (s.removeAnimation sequence) :=
  ⟨h.removeAnimation, removeAnimation_queue_sublist, rfl⟩

theorem Prunes.fresh (h : Prunes s s') (hfresh : Fresh s sequence) : Fresh s' sequence :=
  ⟨hfresh.nonempty, h.nextId ▸ hfresh.allocated,
    fun queued hqueue => hfresh.fresh queued (h.queue.subset hqueue)⟩

/-- A loop that removes some of the animations it comes to. -/
theorem prunes_loop {α : Type} {loop : List α → LayerAnimator → LayerAnimator}
    (hnil : ∀ s, loop [] s = s) (hcons : ∀ a as s, loop (a :: as) s = loop as s ∨
      ∃ sequence, loop (a :: as) s = loop as (s.removeAnimation sequence)) (as : List α)
    (h : Base s) : Prunes s (loop as s) := by
  induction as generalizing s with
  | nil =>
    rw [hnil]
    exact .refl h
  | cons a as ih =>
    obtain heq | ⟨sequence, heq⟩ := hcons a as s
    · rw [heq]
      exact ih h
    · have hprun := @prunes_removeAnimation s sequence h
      rw [heq]
      exact hprun.trans (ih hprun.base)

theorem prunes_removeCommon (properties : AnimatableProperties) (copy : List LayerAnimationSequence)
    (h : Base s) : Prunes s (removeCommon properties copy s) := by
  apply prunes_loop (fun _ => rfl) _ copy h
  intro sequence copy s
  rw [removeCommon]
  split
  · exact .inr ⟨_, rfl⟩
  · exact .inl rfl

theorem prunes_removeUnstarted (queue : List LayerAnimationSequence) (h : Base s) :
    Prunes s (removeUnstarted queue s) := by
  apply prunes_loop (fun _ => rfl) _ queue h
  intro sequence queue s
  rw [removeUnstarted]
  split
  · exact .inl rfl
  · exact .inr ⟨_, rfl⟩

theorem prunes_removeZeroDuration (copy : List RunningAnimation) (h : Base s) :
    Prunes s (removeZeroDuration copy s) := by
  apply prunes_loop (fun _ => rfl) _ copy h
  intro running copy s
  rw [removeZeroDuration]
  split
  · exact .inr ⟨_, rfl⟩
  · exact .inl rfl

theorem prunes_removeAll (h : Base s) :
    Prunes s (s.removeAllAnimationsWithACommonProperty sequence) := by
  have hrun := prunes_removeCommon sequence.properties
    (s.runningAnimations.map RunningAnimation.sequence) h
  exact hrun.trans (prunes_removeCommon _ _ hrun.base)

theorem finishAny_yields (h : Base s) :
    Yields s.finishAnyAnimationWithZeroDuration fun s' => Scheduled s' ∧ s'.nextId = s.nextId := by
  have hprun := prunes_removeZeroDuration s.runningAnimations h
  apply (processQueue_yields hprun.base).bind
  rintro s' ⟨hprog, hsettled⟩
  exact .some ⟨⟨hprog.base.update rfl rfl (le_refl _), hsettled.update rfl rfl⟩,
    hprog.nextId.trans hprun.nextId⟩

theorem start_yields (now : Int) (h : Base s) (hstart : Startable s sequence) :
    Yields (s.startSequenceImmediately LayerAnimator.processQueue now sequence) fun r =>
      Base r.1 ∧ r.1.nextId = s.nextId ∧ (r.2 = false → r.1 = s) ∧ (Settled s → Settled r.1) := by
  have hbound : ∀ startTime, (s.started sequence startTime).weight ≤
      2 * (s.animationQueue.length + 1) := by
    intro startTime
    have hlen : (s.started sequence startTime).animationQueue.length ≤
        s.animationQueue.length + 1 := by
      rw [started_eq]
      obtain ⟨-, hadd⟩ | ⟨-, hadd⟩ := addToQueue_cases hstart.2.2
      · rw [hadd]
        exact le_succ _
      · rw [hadd]
        exact le_refl _
    rw [weight]
    omega
  have hid : ∀ startTime, (s.started sequence startTime).nextId = s.nextId := by
    intro startTime
    rw [started_eq, addToQueueIfNotPresent]
    split <;> rfl
  apply (startSequenceImmediately_yields (settles_processQueue _) now h hstart
    hbound).mono
  rintro r (⟨rfl, -⟩ | ⟨hflag, startTime, hprog, hsettled⟩)
  · exact ⟨h, rfl, fun _ => rfl, id⟩
  · refine ⟨hprog.base, hprog.nextId.trans (hid startTime), ?_, hsettled⟩
    intro hno
    rw [hflag] at hno
    cases hno

/-! ## Starting and scheduling -/

theorem immediatelyAnimateToNewTarget_yields (now : Int) (h : Base s) (hfresh : Fresh s sequence) :
    Yields (s.immediatelyAnimateToNewTarget now sequence) fun s' =>
      Base s' ∧ s'.nextId = s.nextId := by
  have hprun := @prunes_removeAll s sequence h
  have hfresh' := hprun.fresh hfresh
  have hid : ∀ t : LayerAnimator, (t.addToQueueIfNotPresent sequence).nextId = t.nextId := by
    intro t
    rw [addToQueueIfNotPresent]
    split <;> rfl
  have hstart : Startable
      ((s.removeAllAnimationsWithACommonProperty sequence).addToQueueIfNotPresent sequence)
      sequence :=
    ⟨hfresh'.nonempty, by rw [hid]; exact hfresh'.allocated,
      .inl (mem_addToQueue (Or.inr hfresh'.fresh))⟩
  apply (start_yields now (hprun.base.addToQueue hfresh'.startable) hstart).bind
  rintro r ⟨hbase, hnext, -⟩
  exact .some ⟨hbase, hnext.trans ((hid _).trans hprun.nextId)⟩

theorem pushBack_processQueue_yields (h : Base s) (hfresh : Fresh s sequence) :
    Yields (s.pushBack sequence).processQueue fun s' => Scheduled s' ∧ s'.nextId = s.nextId := by
  apply (processQueue_yields (h.pushBack hfresh.nonempty hfresh.allocated hfresh.fresh)).mono
  rintro s' ⟨hprog, hsettled⟩
  exact ⟨⟨hprog.base, hsettled⟩, hprog.nextId⟩

theorem startAnimation_yields (now : Int) (h : Base s) (hfresh : Fresh s sequence) :
    Yields (s.startAnimation now sequence) fun s' => Scheduled s' ∧ s'.nextId = s.nextId := by
  apply (start_yields now h hfresh.startable).bind
  rintro ⟨s₁, flag⟩ ⟨hbase, hid, hsame, -⟩
  have hfin : ∀ {s₂ : LayerAnimator}, Base s₂ → s₂.nextId = s.nextId →
      Yields (s₂.finishAnyAnimationWithZeroDuration.bind fun s₃ =>
        some s₃.updateAnimationState) fun s' => Scheduled s' ∧ s'.nextId = s.nextId := by
    intro s₂ hbase₂ hid₂
    apply (finishAny_yields hbase₂).bind
    rintro s₃ ⟨hsched, hid₃⟩
    exact .some ⟨⟨hsched.base.update rfl rfl (le_refl _), hsched.settled.update rfl rfl⟩,
      hid₃.trans hid₂⟩
  cases flag with
  | true => exact hfin hbase hid
  | false =>
    obtain rfl : s₁ = s := hsame rfl
    rw [if_neg Bool.false_ne_true]
    cases s₁.preemptionStrategy with
    | immediatelySetNewTarget =>
      have hprun := @prunes_removeAll s₁ sequence h
      exact hfin hprun.base.removeAnimation hprun.nextId
    | immediatelyAnimateToNewTarget =>
      apply (immediatelyAnimateToNewTarget_yields now h hfresh).bind
      rintro s₂ ⟨hbase₂, hid₂⟩
      exact hfin hbase₂ hid₂
    | enqueueNewAnimation =>
      apply (pushBack_processQueue_yields h hfresh).bind
      rintro s₂ ⟨hsched, hid₂⟩
      exact hfin hsched.base hid₂
    | replaceQueuedAnimations =>
      have hprun := prunes_removeUnstarted s₁.animationQueue h
      apply (pushBack_processQueue_yields hprun.base (hprun.fresh hfresh)).bind
      rintro s₂ ⟨hsched, hid₂⟩
      exact hfin hsched.base (hid₂.trans hprun.nextId)
    | blendWithCurrentAnimation => exact hfin h rfl

theorem scheduleAnimation_yields (now : Int) (h : Scheduled s) (hfresh : Fresh s sequence) :
    Yields (s.scheduleAnimation now sequence) fun s' => Scheduled s' ∧ s'.nextId = s.nextId := by
  have hsched : Yields (if s.isAnimating then (s.pushBack sequence).processQueue
      else (s.startSequenceImmediately LayerAnimator.processQueue now sequence).map Prod.fst)
      fun s' => Scheduled s' ∧ s'.nextId = s.nextId := by
    split
    · exact pushBack_processQueue_yields h.base hfresh
    · apply (start_yields now h.base hfresh.startable).map
      rintro r ⟨hbase, hid, -, hsettled⟩
      exact ⟨⟨hbase, hsettled h.settled⟩, hid⟩
  apply hsched.map
  rintro s' ⟨hsched', hid⟩
  exact ⟨⟨hsched'.base.update rfl rfl (le_refl _),
    hsched'.settled.update rfl rfl⟩, hid⟩

/-- A sequence that was just made is new to the animator. -/
theorem fresh_allocate (h : Base s) {properties : AnimatableProperties}
    (hnonempty : properties.Nonempty) (duration : Int) (isCyclic : Bool) :
    Fresh (s.allocate properties duration isCyclic).2
      (s.allocate properties duration isCyclic).1 where
  nonempty := hnonempty
  allocated := lt_succ_self _
  fresh queued hqueue hid := by
    have hlt := h.allocated queued hqueue
    exact absurd hid (Nat.ne_of_lt hlt)

theorem Base.allocate (h : Base s) (properties : AnimatableProperties) (duration : Int)
    (isCyclic : Bool) : Base (s.allocate properties duration isCyclic).2 :=
  h.update rfl rfl (le_succ _)

theorem Scheduled.allocate (h : Scheduled s) (properties : AnimatableProperties) (duration : Int)
    (isCyclic : Bool) : Scheduled (s.allocate properties duration isCyclic).2 :=
  ⟨h.base.allocate _ _ _, h.settled.update rfl rfl⟩

theorem scheduleEach_yields (now : LayerAnimationSequence → Int) (animations : List NewSequence)
    (h : Scheduled s) : Yields (scheduleEach now animations s) Scheduled := by
  induction animations generalizing s with
  | nil => exact .some h
  | cons made rest ih =>
    apply (scheduleAnimation_yields _ (h.allocate _ _ _)
      (fresh_allocate h.base made.nonempty made.duration made.isCyclic)).bind
    rintro s' ⟨hsched, -⟩
    exact ih hsched

theorem unionProperties_nonempty {animations : List NewSequence} (h : animations ≠ []) :
    (unionProperties animations).Nonempty := by
  cases animations with
  | nil => exact absurd rfl h
  | cons made rest => exact made.nonempty.mono Finset.subset_union_left

theorem scheduleTogether_yields (now : LayerAnimationSequence → Int)
    {animations : List NewSequence} (hanimations : animations ≠ []) (h : Scheduled s) :
    Yields (s.scheduleTogether now animations) Scheduled := by
  apply (scheduleAnimation_yields _ (h.allocate _ _ _)
    (fresh_allocate h.base (unionProperties_nonempty hanimations) 0 false)).bind
  rintro s₁ ⟨hsched₁, -⟩
  apply (scheduleEach_yields now animations hsched₁).bind
  intro s₂ hsched₂
  exact .some ⟨hsched₂.base.update rfl rfl (le_refl _), hsched₂.settled.update rfl rfl⟩

/-! ## Stopping -/

theorem finish_yields (h : Base s) (hseq : sequence ∈ s.runningSequences) :
    Yields (s.finishAnimation LayerAnimator.processQueue sequence) fun s' =>
      Scheduled s' ∧ s'.animationQueue.length < s.animationQueue.length := by
  have hhas : s.hasAnimation sequence = true :=
    List.any_eq_true.mpr ⟨sequence, h.queued sequence hseq, by simp⟩
  apply (finishAnimation_yields (settles_processQueue _) h (le_refl _) hhas).mono
  rintro s' ⟨hprog, hsettled, hlen⟩
  exact ⟨⟨hprog.base, hsettled⟩, hlen⟩

theorem stopPropertyWithin_yields (property : AnimatableProperty) (fuel : Nat) (h : Scheduled s)
    (hfuel : s.animationQueue.length < fuel) :
    Yields (stopPropertyWithin property fuel s) Scheduled := by
  induction fuel generalizing s with
  | zero => exact absurd hfuel (not_lt_zero _)
  | succ fuel ih =>
    rw [stopPropertyWithin]
    cases hfind : s.getRunningAnimation property with
    | none => exact .some h
    | some running =>
      have hmem : running.sequence ∈ s.runningSequences :=
        List.mem_map_of_mem (List.mem_of_find?_eq_some hfind)
      apply (finish_yields h.base hmem).bind
      rintro s' ⟨hsched, hlen⟩
      exact ih hsched (by omega)

theorem stopWithin_yields (fuel : Nat) (h : Scheduled s) (hfuel : s.animationQueue.length < fuel) :
    Yields (stopWithin fuel s) fun s' => Scheduled s' ∧ s'.animationQueue = [] := by
  induction fuel generalizing s with
  | zero => exact absurd hfuel (not_lt_zero _)
  | succ fuel ih =>
    rw [stopWithin]
    split
    · rename_i hanimating
      have hqueue : s.animationQueue ≠ [] := by
        simpa [isAnimating] using hanimating
      cases hrun : s.runningAnimations with
      | nil => exact absurd hrun (h.exists_running hqueue)
      | cons running rest =>
        have hmem : running.sequence ∈ s.runningSequences := by
          rw [runningSequences, hrun]
          exact List.mem_cons_self
        apply (finish_yields h.base hmem).bind
        rintro s' ⟨hsched, hlen⟩
        exact ih hsched (by omega)
    · rename_i hanimating
      exact .some ⟨h, by simpa [isAnimating] using hanimating⟩

/-! ## Runs -/

/-- The step lemma: every call comes to an end and keeps the invariant. -/
theorem call_yields (h : Scheduled s) (c : Call) : Yields (s.call c) Scheduled := by
  cases c with
  | setPreemptionStrategy strategy =>
    exact .some ⟨h.base.update rfl rfl (le_refl _), h.settled.update rfl rfl⟩
  | startAnimation now made =>
    apply (startAnimation_yields now (h.base.allocate _ _ _)
      (fresh_allocate h.base made.nonempty made.duration made.isCyclic)).mono
    exact fun s' hs' => hs'.1
  | scheduleAnimation now made =>
    apply (scheduleAnimation_yields now (h.allocate _ _ _)
      (fresh_allocate h.base made.nonempty made.duration made.isCyclic)).mono
    exact fun s' hs' => hs'.1
  | scheduleTogether now animations hanimations => exact scheduleTogether_yields now hanimations h
  | stopAnimatingProperty property => exact stopPropertyWithin_yields property _ h (lt_succ_self _)
  | stopAnimating =>
    apply (stopWithin_yields _ h (lt_succ_self _)).mono
    exact fun s' hs' => hs'.1
  | step now =>
    apply (step_yields (settles_processQueue _) now h.base (le_refl _)).mono
    rintro s' ⟨hprog, hsettled⟩
    exact ⟨hprog.base, hsettled h.settled⟩

theorem run_call_yields (calls : List Call) (h : Scheduled s) :
    Yields (run call calls s) Scheduled := by
  induction calls generalizing s with
  | nil => exact .some h
  | cons c calls ih =>
    rw [run_cons]
    exact (call_yields h c).bind fun s' hs' => ih hs'

end LayerAnimator

end ChromiumUI.Compositor
