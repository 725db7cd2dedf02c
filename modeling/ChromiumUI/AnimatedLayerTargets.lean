import ChromiumUI.AnimatedLayer

/-!
# What the animator aims at, through the nested calls

No running sequence animates a property of a sequence before it in the queue, so finishing it
first makes no difference to the values that the queue leads to.
-/
namespace ChromiumUI.Compositor

open Outcomes Runs Frames List

variable {queue : List LayerAnimationSequence}

namespace LayerAnimator

variable {s s' : LayerAnimator} {sequence : LayerAnimationSequence}

/-- Running sequences share no property with a sequence before them in the queue. -/
def Ordered (s : LayerAnimator) : Prop :=
  s.animationQueue.Pairwise fun earlier later =>
    later ∈ s.runningSequences → Disjoint earlier.properties later.properties

theorem Ordered.prune (h : Ordered s) (hqueue : s'.animationQueue.Sublist s.animationQueue)
    (hrun : ∀ q ∈ s'.runningSequences, q ∈ s.runningSequences) : Ordered s' :=
  (h.sublist hqueue).imp fun hlater hmem => hlater (hrun _ hmem)

theorem Ordered.removeAnimation (h : Ordered s) : Ordered (s.removeAnimation sequence) :=
  h.prune removeAnimation_queue_sublist fun _ hq => removeAnimation_running_sublist.subset hq

theorem Ordered.removeUnstarted (queue : List LayerAnimationSequence) (h : Ordered s) :
    Ordered (removeUnstarted queue s) := by
  induction queue generalizing s with
  | nil => exact h
  | cons sequence queue ih =>
    rw [LayerAnimator.removeUnstarted]
    split
    · exact ih h
    · exact ih h.removeAnimation

theorem Ordered.pushBack (h : Ordered s) (hbase : Base s)
    (hfresh : ∀ queued ∈ s.animationQueue, queued.id ≠ sequence.id) :
    Ordered (s.pushBack sequence) := by
  rw [Ordered, LayerAnimator.pushBack, pairwise_append]
  refine ⟨h, pairwise_singleton _ _, ?_⟩
  rintro earlier - later hlater hrun
  rw [mem_singleton.mp hlater] at hrun
  exact absurd rfl (hfresh sequence (hbase.queued sequence hrun))

/-- Nothing before the sequence in the queue shares a property with it. -/
def Clear (s : LayerAnimator) (sequence : LayerAnimationSequence) : Prop :=
  s.animationQueue.Pairwise fun earlier later =>
    later = sequence → Disjoint earlier.properties later.properties

theorem pairwise_of_notMem {α : Type} {R : α → α → Prop} {a : α} {l : List α} (h : a ∉ l) :
    l.Pairwise fun x y => y = a → R x y := by
  rw [pairwise_iff_forall_sublist]
  rintro x y hsublist rfl
  exact absurd (hsublist.subset (mem_cons_of_mem _ mem_cons_self)) h

theorem clear_of_fresh (hfresh : ∀ queued ∈ s.animationQueue, queued.id ≠ sequence.id) :
    Clear s sequence :=
  pairwise_of_notMem fun hmem => hfresh sequence hmem rfl

/-- What ProcessQueue starts conflicts with nothing before it. -/
theorem clear_of_findStartable {animated : AnimatableProperties} (hnodup : queue.Nodup)
    (hfind : findStartable animated queue = some sequence) :
    queue.Pairwise fun earlier later =>
      later = sequence → Disjoint earlier.properties later.properties := by
  induction queue generalizing animated with
  | nil => exact .nil
  | cons first queue ih =>
    rw [findStartable] at hfind
    obtain ⟨hfirst, hqueue⟩ := nodup_cons.mp hnodup
    split at hfind
    · cases hfind
      refine .cons ?_ (pairwise_of_notMem hfirst)
      rintro later hlater rfl
      exact absurd hlater hfirst
    · refine .cons ?_ (ih hqueue hfind)
      rintro later - rfl
      have hdisj := (findStartable_some hfind).2
      exact (hdisj.mono_right Finset.subset_union_right).symm

theorem Base.queue_nodup (h : Base s) : s.animationQueue.Nodup := h.distinct.of_map _

theorem Ordered.started {startTime : Int} (h : Ordered s) (hstart : Startable s sequence)
    (hclear : Clear s sequence)
    (hdisj : ∀ running ∈ s.runningSequences,
      Disjoint running.properties sequence.properties) :
    Ordered (s.started sequence startTime) := by
  have hseqs : (s.started sequence startTime).runningSequences =
      s.runningSequences ++ [sequence] := by
    rw [started_eq, runningSequences, map_append]
    rfl
  have hpairwise : s.animationQueue.Pairwise fun earlier later =>
      later ∈ s.runningSequences ++ [sequence] →
        Disjoint earlier.properties later.properties := by
    refine (h.and hclear).imp ?_
    rintro earlier later ⟨hrun, hsame⟩ hmem
    obtain hmem | hmem := mem_append.mp hmem
    · exact hrun hmem
    · exact hsame (mem_singleton.mp hmem)
  rw [Ordered, hseqs, started_eq]
  obtain ⟨-, hadd⟩ | ⟨hfresh, hadd⟩ := addToQueue_cases hstart.2.2
  · rw [hadd]
    exact hpairwise
  · rw [hadd]
    refine .cons ?_ hpairwise
    intro later hlater hmem
    obtain hmem | hmem := mem_append.mp hmem
    · exact (hdisj later hmem).symm
    · rw [mem_singleton.mp hmem] at hlater
      exact absurd rfl (hfresh sequence hlater)

/-- The sequence that is removed is not queued any more. -/
theorem ids_removeAnimation (h : Base s) :
    ∀ queued ∈ (s.removeAnimation sequence).animationQueue, queued.id ≠ sequence.id := by
  intro queued hqueued hid
  by_cases hhas : ∃ other ∈ s.animationQueue, other.id = sequence.id
  · obtain ⟨other, hother, hoid⟩ := hhas
    obtain ⟨pre, post, hqueue⟩ := append_of_mem hother
    have hdist := h.distinct
    rw [hqueue, map_append, map_cons] at hdist
    have hpre : ∀ q ∈ pre, ¬(q.id == sequence.id) = true := by
      intro q hq he
      have he' : q.id = other.id := (beq_iff_eq.mp he).trans hoid.symm
      exact (nodup_append.mp hdist).2.2 q.id (mem_map_of_mem hq) other.id
        mem_cons_self he'
    have herase : (s.removeAnimation sequence).animationQueue = pre ++ post := by
      change s.animationQueue.eraseP _ = _
      rw [hqueue, eraseP_append_right _ hpre,
        eraseP_cons_of_pos (by simpa using hoid)]
    rw [herase] at hqueued
    have hnodup := (nodup_middle.mp hdist)
    rw [nodup_cons, ← map_append] at hnodup
    exact hnodup.1 (mem_map.mpr ⟨queued, hqueued, hid.trans hoid.symm⟩)
  · exact hhas ⟨queued, removeAnimation_queue_sublist.subset hqueued, hid⟩

end LayerAnimator

namespace AnimatedLayer

variable {T : Type} {A : Arithmetic T} {s s' : AnimatedLayer T}
  {sequence : LayerAnimationSequence}

/-! ## The values that a queue leads to -/

/-- What a queued sequence makes of the values that GetTargetValue collects. -/
def aim (sequences : Nat → SequenceState T) (target : Values T)
    (queued : LayerAnimationSequence) : Values T :=
  if queued.isCyclic then target else (sequences queued.id).getTargetValue target

theorem getTargetValue_eq :
    s.getTargetValue = s.animationQueue.foldl (aim s.sequences) s.delegate := rfl

theorem aim_congr {sequences sequences' : Nat → SequenceState T}
    {queue : List LayerAnimationSequence}
    (h : ∀ queued ∈ queue, sequences' queued.id = sequences queued.id) (v : Values T) :
    queue.foldl (aim sequences') v = queue.foldl (aim sequences) v := by
  induction queue generalizing v with
  | nil => rfl
  | cons first queue ih =>
    have hfirst : aim sequences' v first = aim sequences v first := by
      rw [aim, aim, h first mem_cons_self]
    rw [foldl_cons, foldl_cons, hfirst]
    exact ih (fun queued hqueue => h queued (mem_cons_of_mem _ hqueue)) _

theorem aim_of_wellFormed {sequences : Nat → SequenceState T}
    (h : (sequences sequence.id).WellFormed sequence) (v : Values T) :
    aim sequences v sequence = (sequences sequence.id).getTargetValue v := by
  rw [aim, if_neg]
  rw [h.notCyclic]
  exact Bool.false_ne_true

/-! ## The invariant -/

/-- What holds at every re-entrant point. -/
structure Inv (s : AnimatedLayer T) : Prop where
  base : LayerAnimator.Base s.toLayerAnimator
  ordered : LayerAnimator.Ordered s.toLayerAnimator
  wellFormed : ∀ queued ∈ s.animationQueue, (s.sequences queued.id).WellFormed queued

theorem Inv.update (h : Inv s) (hqueue : s'.animationQueue = s.animationQueue)
    (hrun : s'.runningAnimations = s.runningAnimations) (hid : s.nextId ≤ s'.nextId)
    (hheap : ∀ queued ∈ s.animationQueue, s'.sequences queued.id = s.sequences queued.id) :
    Inv s' where
  base := h.base.update hqueue hrun hid
  ordered := by
    apply h.ordered.prune
    · rw [hqueue]
    · rw [LayerAnimator.runningSequences, LayerAnimator.runningSequences, hrun]
      exact fun _ hq => hq
  wellFormed queued hqueued := by
    rw [hqueue] at hqueued
    rw [hheap queued hqueued]
    exact h.wellFormed queued hqueued

/-- Sequences of no common property with a well-formed one leave what it does alone. -/
theorem aim_comm {sequences : Nat → SequenceState T} {st : SequenceState T}
    (hst : st.WellFormed sequence) {pre : List LayerAnimationSequence}
    (hpre : ∀ queued ∈ pre, (sequences queued.id).WellFormed queued ∧
      Disjoint queued.properties sequence.properties) (v : Values T) :
    st.getTargetValue (pre.foldl (aim sequences) v) =
      pre.foldl (aim sequences) (st.getTargetValue v) := by
  induction pre generalizing v with
  | nil => rfl
  | cons first pre ih =>
    obtain ⟨hfirst, hdisj⟩ := hpre first mem_cons_self
    have hcomm : st.getTargetValue (aim sequences v first) =
        aim sequences (st.getTargetValue v) first := by
      rw [aim_of_wellFormed hfirst, aim_of_wellFormed hfirst]
      exact (SequenceState.getTargetValue_local hst).comm sameAt_frame
        (SequenceState.getTargetValue_local hfirst)
        (Finset.disjoint_coe.mpr hdisj.symm) v
    rw [foldl_cons, ih fun queued hqueue => hpre queued (mem_cons_of_mem _ hqueue),
      hcomm, foldl_cons]

/-- A running sequence in its place in the queue. -/
theorem Inv.split (h : Inv s) (hrun : sequence ∈ s.runningSequences) :
    ∃ pre post, s.animationQueue = pre ++ sequence :: post ∧
      (∀ queued ∈ pre ++ post, queued.id ≠ sequence.id) ∧
      ∀ queued ∈ pre, (s.sequences queued.id).WellFormed queued ∧
        Disjoint queued.properties sequence.properties := by
  obtain ⟨pre, post, hqueue⟩ := append_of_mem (h.base.queued sequence hrun)
  refine ⟨pre, post, hqueue, ?_, ?_⟩
  · intro queued hqueued hid
    have hdist := h.base.distinct
    rw [hqueue, map_append, map_cons, nodup_middle, nodup_cons,
      ← map_append] at hdist
    exact hdist.1 (mem_map.mpr ⟨queued, hqueued, hid⟩)
  · intro queued hqueued
    have hord := h.ordered
    rw [LayerAnimator.Ordered, hqueue, pairwise_append] at hord
    refine ⟨h.wellFormed queued (hqueue ▸ mem_append_left _ hqueued), ?_⟩
    exact hord.2.2 queued hqueued sequence mem_cons_self hrun

/-- What a nested call leaves behind: the invariant, the values aimed at, nothing new in the
queue, and what ran runs on as long as it is queued. -/
structure Keeps (s s' : AnimatedLayer T) : Prop where
  inv : Inv s'
  target : s'.getTargetValue = s.getTargetValue
  queue : s'.animationQueue.Sublist s.animationQueue
  running : ∀ q ∈ s.runningSequences, q ∈ s'.animationQueue → q ∈ s'.runningSequences

theorem Keeps.refl (h : Inv s) : Keeps s s := ⟨h, rfl, .refl _, fun _ hq _ => hq⟩

theorem Keeps.trans {s'' : AnimatedLayer T} (h : Keeps s s') (h' : Keeps s' s'') :
    Keeps s s'' where
  inv := h'.inv
  target := h'.target.trans h.target
  queue := h'.queue.trans h.queue
  running q hq hqueue := h'.running q (h.running q hq (h'.queue.subset hqueue)) hqueue

/-- A change of what GetTargetValue and the invariant do not look at. -/
theorem Keeps.update (h : Inv s) (hqueue : s'.animationQueue = s.animationQueue)
    (hrun : s'.runningAnimations = s.runningAnimations) (hid : s.nextId ≤ s'.nextId)
    (hheap : s'.sequences = s.sequences) (hdelegate : s'.delegate = s.delegate) :
    Keeps s s' where
  inv := h.update hqueue hrun hid fun _ _ => by rw [hheap]
  target := by rw [getTargetValue_eq, getTargetValue_eq, hqueue, hheap, hdelegate]
  queue := by rw [hqueue]
  running q hq _ := by
    rw [LayerAnimator.runningSequences, hrun]
    exact hq

/-- Progress on the way. -/
theorem keeps_progress (h : Inv s) (hrun : sequence ∈ s.runningSequences) {elapsed : Int}
    (helapsed : elapsed < sequence.duration) : Keeps s (s.progress A sequence elapsed) := by
  have hqueued := h.base.queued sequence hrun
  have hwf := h.wellFormed sequence hqueued
  obtain ⟨pre, post, hqueue, hids, hpre⟩ := h.split hrun
  have hother : ∀ queued : LayerAnimationSequence, queued.id ≠ sequence.id →
      (s.progress A sequence elapsed).sequences queued.id = s.sequences queued.id :=
    fun queued hid => Function.update_of_ne hid _ _
  have hsame : (s.progress A sequence elapsed).sequences sequence.id =
      ((s.sequences sequence.id).progress A sequence.duration elapsed s.delegate).1 :=
    Function.update_self ..
  have hnext := SequenceState.progress_wellFormed (A := A) s.delegate hwf helapsed
  refine ⟨⟨h.base.update rfl rfl (Nat.le_refl _), h.ordered, ?_⟩, ?_, .refl _,
    fun _ hq _ => hq⟩
  · intro queued hmem
    by_cases hid : queued.id = sequence.id
    · obtain rfl := h.base.eq_of_id hmem hqueued hid
      rw [hsame]
      exact hnext
    · rw [hother queued hid]
      exact h.wellFormed queued hmem
  · have hprogressed : ((s.progress A sequence elapsed).sequences sequence.id).WellFormed
        sequence := hsame ▸ hnext
    rw [getTargetValue_eq, getTargetValue_eq]
    change s.animationQueue.foldl _ _ = _
    rw [hqueue, foldl_append, foldl_append, foldl_cons, foldl_cons,
      aim_congr fun queued hqueued => hother queued (hids queued (mem_append_left _ hqueued)),
      aim_congr fun queued hqueued => hother queued (hids queued (mem_append_right _ hqueued)),
      aim_of_wellFormed hprogressed, aim_of_wellFormed hwf,
      aim_comm hprogressed hpre, aim_comm hwf hpre, hsame]
    congr 2
    exact SequenceState.progress_target (Int.ne_of_lt helapsed) _ _

/-- A running sequence is removed and progressed to its end. -/
theorem keeps_finish (h : Inv s) (hrun : sequence ∈ s.runningSequences) :
    Keeps s ((s.removeAnimation sequence).progress A sequence sequence.duration) := by
  have hqueued := h.base.queued sequence hrun
  have hwf := h.wellFormed sequence hqueued
  obtain ⟨pre, post, hqueue, hids, hpre⟩ := h.split hrun
  have hremoved : (s.toLayerAnimator.removeAnimation sequence).animationQueue = pre ++ post := by
    change s.animationQueue.eraseP _ = _
    rw [hqueue, eraseP_append_right, eraseP_cons_of_pos (by simp)]
    intro queued hmem
    simpa using hids queued (mem_append_left _ hmem)
  have hother : ∀ queued : LayerAnimationSequence, queued.id ≠ sequence.id →
      ((s.removeAnimation sequence).progress A sequence sequence.duration).sequences queued.id =
        s.sequences queued.id :=
    fun queued hid => Function.update_of_ne hid _ _
  refine ⟨⟨h.base.removeAnimation, h.ordered.removeAnimation, ?_⟩, ?_,
    LayerAnimator.removeAnimation_queue_sublist, ?_⟩
  · intro queued hmem
    rw [hother queued (LayerAnimator.ids_removeAnimation h.base queued hmem)]
    exact h.wellFormed queued (LayerAnimator.removeAnimation_queue_sublist.subset hmem)
  · rw [getTargetValue_eq, getTargetValue_eq]
    change (s.toLayerAnimator.removeAnimation sequence).animationQueue.foldl _ _ = _
    rw [hremoved, hqueue, aim_congr fun queued hmem => hother queued (hids queued hmem),
      foldl_append, foldl_append, foldl_cons, aim_of_wellFormed hwf,
      aim_comm hwf hpre]
    congr 2
    exact SequenceState.progress_end s.delegate hwf
  · intro q hq hmem
    have hid : q.id ≠ sequence.id := LayerAnimator.ids_removeAnimation h.base q hmem
    obtain ⟨running, hr, rfl⟩ := mem_map.mp hq
    apply mem_map_of_mem
    exact (mem_eraseP_of_neg (by simpa using hid)).mpr hr

/-! ## The nested calls -/

section
variable {pq : AnimatedLayer T → Option (AnimatedLayer T)}

/-- A ProcessQueue that keeps what is aimed at. -/
def KeepsTargets (pq : AnimatedLayer T → Option (AnimatedLayer T)) : Prop :=
  ∀ s, Inv s → Ensures (pq s) (Keeps s)

theorem finishAnimation_keeps (hpq : KeepsTargets pq) (h : Inv s)
    (hrun : sequence ∈ s.runningSequences) :
    Ensures (s.finishAnimation A pq sequence) (Keeps s) := by
  have hfin := keeps_finish (A := A) h hrun
  refine Ensures.bind (hpq _ hfin.inv) ?_
  intro s' hs'
  exact .some (hfin.trans (hs'.trans (.update hs'.inv rfl rfl (Nat.le_refl _) rfl rfl)))

/-- What of the copy is still there is still running. -/
def StillRuns (s : AnimatedLayer T) (copy : List RunningAnimation) : Prop :=
  ∀ running ∈ copy, s.hasAnimation running.sequence = true →
    running.sequence ∈ s.runningSequences

theorem mem_of_hasAnimation (h : LayerAnimator.Base s.toLayerAnimator)
    (hqueue : sequence ∈ s.animationQueue) (hsublist : queue.Sublist s.animationQueue)
    (hhas : (queue.any fun queued => queued.id == sequence.id) = true) : sequence ∈ queue := by
  obtain ⟨queued, hmem, hid⟩ := any_eq_true.mp hhas
  obtain rfl := h.eq_of_id (hsublist.subset hmem) hqueue (beq_iff_eq.mp hid)
  exact hmem

theorem StillRuns.keeps {copy : List RunningAnimation} (h : StillRuns s copy) (hinv : Inv s)
    (hkeeps : Keeps s s') : StillRuns s' copy := by
  intro running hmem hhas
  have hhas' : s.hasAnimation running.sequence = true := by
    obtain ⟨queued, hqueue, hid⟩ := any_eq_true.mp hhas
    exact any_eq_true.mpr ⟨queued, hkeeps.queue.subset hqueue, hid⟩
  have hrun := h running hmem hhas'
  apply hkeeps.running _ hrun
  exact mem_of_hasAnimation hinv.base (hinv.base.queued _ hrun) hkeeps.queue hhas

theorem stepRunning_keeps (hpq : KeepsTargets pq) (now : Int) (copy : List RunningAnimation)
    (h : Inv s) (hruns : StillRuns s copy) : Ensures (stepRunning A pq now copy s) (Keeps s) := by
  induction copy generalizing s with
  | nil => exact .some (.refl h)
  | cons running copy ih =>
    have hrest : StillRuns s copy := fun r hr => hruns r (mem_cons_of_mem _ hr)
    rw [stepRunning]
    split
    · exact ih h hrest
    · rename_i hhas
      have hrun := hruns running mem_cons_self (by simpa using hhas)
      split
      · refine Ensures.bind (finishAnimation_keeps hpq h hrun) ?_
        intro s' hs'
        exact (ih hs'.inv (hrest.keeps h hs')).mono fun s'' hs'' => hs'.trans hs''
      · rename_i hshort
        have hcyclic := (h.wellFormed _ (h.base.queued _ hrun)).notCyclic
        have helapsed : now - running.startTime < running.sequence.duration := by
          rw [hcyclic] at hshort
          simpa using hshort
        have hs' := keeps_progress (A := A) h hrun helapsed
        exact (ih hs'.inv (hrest.keeps h hs')).mono fun s'' hs'' => hs'.trans hs''

theorem step_keeps (hpq : KeepsTargets pq) (now : Int) (h : Inv s) :
    Ensures (s.step A pq now) (Keeps s) := by
  have hs' : Keeps s (s.withAnimator { s.toLayerAnimator with lastStepTime := now }) :=
    .update h rfl rfl (Nat.le_refl _) rfl rfl
  have hruns : StillRuns (s.withAnimator { s.toLayerAnimator with lastStepTime := now })
      s.runningAnimations := fun running hmem _ => mem_map_of_mem hmem
  exact (stepRunning_keeps hpq now _ hs'.inv hruns).mono fun s'' hs'' => hs'.trans hs''

/-- The sequence runs, and is queued. -/
def started (s : AnimatedLayer T) (sequence : LayerAnimationSequence) (startTime : Int) :
    AnimatedLayer T :=
  s.withAnimator (s.toLayerAnimator.started sequence startTime)

theorem inv_started {startTime : Int} (h : Inv s)
    (hstart : LayerAnimator.Startable s.toLayerAnimator sequence)
    (hclear : LayerAnimator.Clear s.toLayerAnimator sequence)
    (hwf : (s.sequences sequence.id).WellFormed sequence)
    (hdisj : ∀ running ∈ s.runningSequences,
      Disjoint running.properties sequence.properties) :
    Inv (s.started sequence startTime) where
  base := h.base.started hstart hdisj
  ordered := h.ordered.started hstart hclear hdisj
  wellFormed queued hqueue := by
    change queued ∈ (s.toLayerAnimator.started sequence startTime).animationQueue at hqueue
    rw [LayerAnimator.started_eq] at hqueue
    obtain ⟨-, hadd⟩ | ⟨-, hadd⟩ := LayerAnimator.addToQueue_cases hstart.2.2
    · rw [hadd] at hqueue
      exact h.wellFormed queued hqueue
    · rw [hadd] at hqueue
      obtain rfl | hqueue := mem_cons.mp hqueue
      · exact hwf
      · exact h.wellFormed queued hqueue

/-- Starting either does nothing or steps the animator with the sequence running. -/
theorem startSequenceImmediately_keeps (hpq : KeepsTargets pq) (now : Int) (h : Inv s)
    (hstart : LayerAnimator.Startable s.toLayerAnimator sequence)
    (hclear : LayerAnimator.Clear s.toLayerAnimator sequence)
    (hwf : (s.sequences sequence.id).WellFormed sequence) :
    Ensures (s.startSequenceImmediately A pq now sequence) fun r =>
      r = (s, false) ∨ r.2 = true ∧ ∃ startTime, Keeps (s.started sequence startTime) r.1 := by
  rw [startSequenceImmediately]
  split
  · exact .some (Or.inl rfl)
  · rename_i hnone
    have hdisj : ∀ running ∈ s.runningSequences,
        Disjoint running.properties sequence.properties := by
      intro running hrun
      obtain ⟨r, hr, rfl⟩ := mem_map.mp hrun
      by_contra hcommon
      exact hnone (any_eq_true.mpr
        ⟨r, hr, LayerAnimationSequence.hasCommonProperty_iff.mpr hcommon⟩)
    generalize (if s.isAnimating then s.lastStepTime else now) = startTime
    refine Ensures.bind (step_keeps hpq startTime
      (inv_started h hstart hclear hwf hdisj)) ?_
    intro s' hs'
    exact .some (Or.inr ⟨rfl, startTime, hs'⟩)

end

/-- A queued sequence that starts changes nothing of what is aimed at. -/
theorem keeps_started {startTime : Int} (hinv : Inv (s.started sequence startTime))
    (hqueued : sequence ∈ s.animationQueue) : Keeps s (s.started sequence startTime) := by
  have hadd : s.toLayerAnimator.addToQueueIfNotPresent sequence = s.toLayerAnimator := by
    rw [LayerAnimator.addToQueueIfNotPresent]
    exact if_pos (any_eq_true.mpr ⟨sequence, hqueued, by simp⟩)
  have hqueue : (s.started sequence startTime).animationQueue = s.animationQueue := by
    rw [started, withAnimator_toLayerAnimator, LayerAnimator.started_eq, hadd]
  refine ⟨hinv, ?_, by rw [hqueue], ?_⟩
  · rw [getTargetValue_eq, getTargetValue_eq, hqueue]
    rfl
  · intro q hq _
    rw [started, withAnimator_toLayerAnimator, LayerAnimator.started_eq,
      LayerAnimator.runningSequences, map_append]
    exact mem_append_left _ hq

/-- The invariant rule of the nested calls, for the values. -/
theorem processQueueWithin_keeps (fuel : Nat) :
    KeepsTargets (processQueueWithin (T := T) A fuel) := by
  induction fuel with
  | zero => exact fun s _ => nofun
  | succ fuel ih =>
    intro s h
    rw [processQueueWithin]
    cases hfind : LayerAnimator.findStartable
      (LayerAnimator.animatedProperties s.runningAnimations) s.animationQueue with
    | none => exact .some (.refl h)
    | some sequence =>
      obtain ⟨hmem, hdisj⟩ := LayerAnimator.findStartable_some hfind
      rw [LayerAnimator.disjoint_animatedProperties] at hdisj
      have hstart : LayerAnimator.Startable s.toLayerAnimator sequence :=
        ⟨h.base.nonempty _ hmem, h.base.allocated _ hmem, Or.inl hmem⟩
      have hclear : LayerAnimator.Clear s.toLayerAnimator sequence :=
        LayerAnimator.clear_of_findStartable h.base.queue_nodup hfind
      refine Ensures.bind (startSequenceImmediately_keeps ih s.lastStepTime h hstart hclear
        (h.wellFormed _ hmem)) ?_
      rintro ⟨s', flag⟩ (heq | ⟨-, startTime, hs'⟩)
      · cases heq
        exact ih s h
      · have hkeeps : Keeps s s' := by
          refine (keeps_started ?_ hmem).trans hs'
          exact inv_started h hstart hclear (h.wellFormed _ hmem) hdisj
        exact (ih s' hs'.inv).mono fun s'' hs'' => hkeeps.trans hs''

theorem processQueue_keeps : KeepsTargets (processQueue (T := T) A) :=
  fun s h => processQueueWithin_keeps _ s h

end AnimatedLayer

/-! ## Predicted targets are reached

Every call keeps the invariant of the values, and StopAnimating brings the delegate to what
GetTargetValue reports. -/

open Nat Function

namespace LayerAnimator

/-- What RemoveAllAnimationsWithACommonProperty leaves of the copy has no property in common. -/
theorem removeCommon_disjoint (properties : AnimatableProperties)
    (copy : List LayerAnimationSequence) {s : LayerAnimator} (h : Base s) :
    ∀ q ∈ (removeCommon properties copy s).animationQueue, q ∈ copy →
      Disjoint q.properties properties := by
  induction copy generalizing s with
  | nil => exact fun q _ hnil => absurd hnil not_mem_nil
  | cons sequence copy ih =>
    intro q hq hmem
    rw [removeCommon] at hq
    have hbase : Base (if s.hasAnimation sequence ∧ sequence.hasCommonProperty properties then
        s.removeAnimation sequence else s) := by
      split
      · exact h.removeAnimation
      · exact h
    obtain rfl | hmem := mem_cons.mp hmem
    · have hqueue := (prunes_removeCommon properties copy hbase).queue.subset hq
      split at hqueue
      · exact absurd rfl (ids_removeAnimation h q hqueue)
      · rename_i hneither
        by_contra hcommon
        refine hneither ⟨any_eq_true.mpr ⟨q, hqueue, by simp⟩, ?_⟩
        exact LayerAnimationSequence.hasCommonProperty_iff.mpr hcommon
    · exact ih hbase q hq hmem

theorem removeAll_disjoint {s : LayerAnimator} {sequence : LayerAnimationSequence} (h : Base s) :
    ∀ q ∈ (s.removeAllAnimationsWithACommonProperty sequence).animationQueue,
      Disjoint q.properties sequence.properties := by
  have hrun := prunes_removeCommon sequence.properties
    (s.runningAnimations.map RunningAnimation.sequence) h
  intro q hq
  refine removeCommon_disjoint _ _ hrun.base q hq ?_
  exact (prunes_removeCommon _ _ hrun.base).queue.subset hq

end LayerAnimator

namespace AnimatedLayer

variable {T : Type} {A : Arithmetic T} {s s' : AnimatedLayer T}
  {sequence : LayerAnimationSequence}

/-! ## Removals -/

/-- A sequence of the client's that the animator does not have, as AddElement left it. -/
structure Ready (s : AnimatedLayer T) (sequence : LayerAnimationSequence) : Prop where
  fresh : LayerAnimator.Fresh s.toLayerAnimator sequence
  wellFormed : (s.sequences sequence.id).WellFormed sequence

/-- What removing sequences does; the others keep their elements. -/
structure Prunes (s s' : AnimatedLayer T) : Prop where
  inv : Inv s'
  queue : s'.animationQueue.Sublist s.animationQueue
  nextId : s'.nextId = s.nextId
  heap : ∀ id, (∀ queued ∈ s.animationQueue, queued.id ≠ id) →
    s'.sequences id = s.sequences id

theorem Prunes.refl (h : Inv s) : Prunes s s := ⟨h, .refl _, rfl, fun _ _ => rfl⟩

theorem Prunes.trans {s'' : AnimatedLayer T} (h : Prunes s s') (h' : Prunes s' s'') :
    Prunes s s'' where
  inv := h'.inv
  queue := h'.queue.trans h.queue
  nextId := h'.nextId.trans h.nextId
  heap id hid := (h'.heap id fun queued hqueue => hid queued (h.queue.subset hqueue)).trans
    (h.heap id hid)

theorem Prunes.ready (h : Prunes s s') (hready : Ready s sequence) : Ready s' sequence where
  fresh := ⟨hready.fresh.nonempty, h.nextId ▸ hready.fresh.allocated,
    fun queued hqueue => hready.fresh.fresh queued (h.queue.subset hqueue)⟩
  wellFormed := by
    rw [h.heap sequence.id hready.fresh.fresh]
    exact hready.wellFormed

/-- The sequence that is removed may be progressed or aborted on the way. -/
theorem prunes_remove (h : Inv s)
    (hanimator : s'.toLayerAnimator = s.toLayerAnimator.removeAnimation sequence)
    (hheap : ∀ id, id ≠ sequence.id → s'.sequences id = s.sequences id)
    (hhas : s.hasAnimation sequence = true) : Prunes s s' := by
  refine ⟨⟨?_, ?_, ?_⟩, ?_, ?_, ?_⟩
  · rw [hanimator]
    exact h.base.removeAnimation
  · rw [hanimator]
    exact h.ordered.removeAnimation
  · intro queued hqueue
    rw [hanimator] at hqueue
    rw [hheap _ (LayerAnimator.ids_removeAnimation h.base queued hqueue)]
    exact h.wellFormed queued (LayerAnimator.removeAnimation_queue_sublist.subset hqueue)
  · rw [hanimator]
    exact LayerAnimator.removeAnimation_queue_sublist
  · rw [hanimator]
    rfl
  · intro id hid
    obtain ⟨queued, hqueue, hsame⟩ := any_eq_true.mp hhas
    apply hheap
    rintro rfl
    exact hid queued hqueue (beq_iff_eq.mp hsame)

theorem prunes_removeCommon (properties : AnimatableProperties) (abort : Bool)
    (copy : List LayerAnimationSequence) (h : Inv s) :
    Prunes s (removeCommon A properties abort copy s) := by
  induction copy generalizing s with
  | nil => exact .refl h
  | cons sequence copy ih =>
    rw [removeCommon]
    split
    · rename_i hcommon
      have hprun : Prunes s (if abort then (s.removeAnimation sequence).abort sequence
          else (s.removeAnimation sequence).progress A sequence sequence.duration) := by
        cases abort with
        | true | false => exact prunes_remove h rfl (fun id hid => update_of_ne hid _ _) hcommon.1
      exact hprun.trans (ih hprun.inv)
    · exact ih h

theorem prunes_removeAll (sequence : LayerAnimationSequence) (abort : Bool) (h : Inv s) :
    Prunes s (s.removeAllAnimationsWithACommonProperty A sequence abort) := by
  have hrun := prunes_removeCommon (A := A) sequence.properties abort
    (s.runningAnimations.map RunningAnimation.sequence) h
  exact hrun.trans (prunes_removeCommon _ _ _ hrun.inv)

theorem prunes_removeZeroDuration (copy : List RunningAnimation) (h : Inv s) :
    Prunes s (removeZeroDuration A copy s) := by
  induction copy generalizing s with
  | nil => exact .refl h
  | cons running copy ih =>
    rw [removeZeroDuration]
    split
    · rename_i hzero
      have hprun : Prunes s ((s.progress A running.sequence
          running.sequence.duration).removeAnimation running.sequence) :=
        prunes_remove h rfl (fun id hid => update_of_ne hid _ _) hzero.1
      exact hprun.trans (ih hprun.inv)
    · exact ih h

theorem prunes_removeUnstarted (h : Inv s) :
    Prunes s (s.withAnimator
      (LayerAnimator.removeUnstarted s.animationQueue s.toLayerAnimator)) := by
  have hprun := LayerAnimator.prunes_removeUnstarted s.animationQueue h.base
  refine ⟨⟨hprun.base, h.ordered.removeUnstarted _, ?_⟩, hprun.queue, hprun.nextId,
    fun _ _ => rfl⟩
  exact fun queued hqueue => h.wellFormed queued (hprun.queue.subset hqueue)

/-! ## The operations -/

theorem Inv.relabel (h : Inv s) {animator : LayerAnimator}
    (hqueue : animator.animationQueue = s.animationQueue)
    (hrun : animator.runningAnimations = s.runningAnimations)
    (hid : s.nextId ≤ animator.nextId) : Inv (s.withAnimator animator) :=
  h.update hqueue hrun hid fun _ _ => rfl

theorem finishAny_inv (h : Inv s) : Ensures (s.finishAnyAnimationWithZeroDuration A) Inv := by
  have hprun := prunes_removeZeroDuration (A := A) s.runningAnimations h
  refine Ensures.bind (processQueue_keeps _ hprun.inv) ?_
  exact fun s' hs' => .some (hs'.inv.relabel rfl rfl (le_refl _))

theorem pushBack_inv (h : Inv s) (hready : Ready s sequence) : Inv (s.pushBack sequence) where
  base := h.base.pushBack hready.fresh.nonempty hready.fresh.allocated hready.fresh.fresh
  ordered := h.ordered.pushBack h.base hready.fresh.fresh
  wellFormed queued hqueue := by
    obtain hmem | hmem := mem_append.mp hqueue
    · exact h.wellFormed queued hmem
    · rw [mem_singleton.mp hmem]
      exact hready.wellFormed

theorem pushBack_processQueue_inv (h : Inv s) (hready : Ready s sequence) :
    Ensures ((s.pushBack sequence).processQueue A) Inv :=
  (processQueue_keeps _ (pushBack_inv h hready)).mono fun _ hs' => hs'.inv

/-- Starting a sequence of the client's. -/
theorem start_inv (now : Int) (h : Inv s) (hready : Ready s sequence) :
    Ensures (s.startSequenceImmediately A (processQueue A) now sequence) fun r =>
      Inv r.1 ∧ (r.2 = false → r.1 = s) := by
  refine (startSequenceImmediately_keeps processQueue_keeps now h hready.fresh.startable
    (LayerAnimator.clear_of_fresh hready.fresh.fresh) hready.wellFormed).mono ?_
  rintro ⟨s', flag⟩ (heq | ⟨hflag, startTime, hs'⟩)
  · cases heq
    exact ⟨h, fun _ => rfl⟩
  · refine ⟨hs'.inv, fun hfalse => ?_⟩
    exact absurd (hflag.symm.trans hfalse) Bool.true_eq_false.mp

theorem immediatelyAnimateToNewTarget_inv (now : Int) (h : Inv s) (hready : Ready s sequence) :
    Ensures (s.immediatelyAnimateToNewTarget A now sequence) Inv := by
  have hprun := @prunes_removeAll T A s sequence true h
  have hready' := hprun.ready hready
  have hapart := @LayerAnimator.removeAll_disjoint s.toLayerAnimator sequence h.base
  rw [immediatelyAnimateToNewTarget]
  rw [← @removeAll_toLayerAnimator T A s sequence true] at hapart
  generalize s.removeAllAnimationsWithACommonProperty A sequence true = s₁
    at hprun hready' hapart ⊢
  have hadd : s₁.toLayerAnimator.addToQueueIfNotPresent sequence =
      { s₁.toLayerAnimator with animationQueue := sequence :: s₁.animationQueue } := by
    obtain ⟨hmem, -⟩ | ⟨-, hadd⟩ := LayerAnimator.addToQueue_cases hready'.fresh.startable.2.2
    · exact absurd rfl (hready'.fresh.fresh sequence hmem)
    · exact hadd
  have hnotMem : sequence ∉ s₁.animationQueue := fun hmem => hready'.fresh.fresh sequence hmem rfl
  have hinv : Inv (s₁.addToQueueIfNotPresent sequence) := by
    refine ⟨hprun.inv.base.addToQueue hready'.fresh.startable, ?_, ?_⟩
    · rw [addToQueueIfNotPresent, withAnimator_toLayerAnimator, hadd]
      refine .cons ?_ hprun.inv.ordered
      exact fun later hlater _ => (hapart later hlater).symm
    · intro queued hqueue
      rw [addToQueueIfNotPresent, withAnimator_toLayerAnimator, hadd] at hqueue
      obtain rfl | hqueue := mem_cons.mp hqueue
      · exact hready'.wellFormed
      · exact hprun.inv.wellFormed queued hqueue
  have hclear : LayerAnimator.Clear (s₁.addToQueueIfNotPresent sequence).toLayerAnimator
      sequence := by
    rw [addToQueueIfNotPresent, withAnimator_toLayerAnimator, hadd]
    refine .cons ?_ (LayerAnimator.pairwise_of_notMem hnotMem)
    rintro later hlater rfl
    exact absurd hlater hnotMem
  have hstart : LayerAnimator.Startable
      (s₁.addToQueueIfNotPresent sequence).toLayerAnimator sequence := by
    rw [addToQueueIfNotPresent, withAnimator_toLayerAnimator, hadd]
    exact ⟨hready'.fresh.nonempty, hready'.fresh.allocated, Or.inl mem_cons_self⟩
  refine Ensures.bind (startSequenceImmediately_keeps processQueue_keeps now hinv hstart hclear
    hready'.wellFormed) ?_
  rintro ⟨s', flag⟩ (heq | ⟨-, startTime, hs'⟩)
  · cases heq
    exact .some hinv
  · exact .some hs'.inv

theorem startAnimation_inv (now : Int) (h : Inv s) (hready : Ready s sequence) :
    Ensures (s.startAnimation A now sequence) Inv := by
  have hfin : ∀ s' : AnimatedLayer T, Inv s' →
      Ensures ((s'.finishAnyAnimationWithZeroDuration A).bind
        fun s => some s.updateAnimationState) Inv :=
    fun s' hs' => (finishAny_inv hs').bind fun s'' hs'' => .some (hs''.relabel rfl rfl (le_refl _))
  refine Ensures.bind (start_inv now h hready) ?_
  rintro ⟨s', started⟩ ⟨hs', hsame⟩
  cases started with
  | true => exact hfin s' hs'
  | false =>
    obtain rfl : s' = s := hsame rfl
    rw [if_neg Bool.false_ne_true]
    cases s'.preemptionStrategy with
    | immediatelySetNewTarget =>
      have hprun := @prunes_removeAll T A s' sequence false h
      apply hfin
      refine ⟨hprun.inv.base.removeAnimation, hprun.inv.ordered.removeAnimation, ?_⟩
      intro queued hqueue
      have hid := LayerAnimator.ids_removeAnimation hprun.inv.base queued hqueue
      rw [immediatelySetNewTarget, progress]
      dsimp only
      rw [update_of_ne hid]
      exact hprun.inv.wellFormed queued
        (LayerAnimator.removeAnimation_queue_sublist.subset hqueue)
    | immediatelyAnimateToNewTarget =>
      exact (immediatelyAnimateToNewTarget_inv now h hready).bind hfin
    | enqueueNewAnimation => exact (pushBack_processQueue_inv h hready).bind hfin
    | replaceQueuedAnimations =>
      have hprun := prunes_removeUnstarted h
      exact (pushBack_processQueue_inv hprun.inv (hprun.ready hready)).bind hfin
    | blendWithCurrentAnimation => exact hfin s' h

theorem scheduleAnimation_inv (now : Int) (h : Inv s) (hready : Ready s sequence) :
    Ensures (s.scheduleAnimation A now sequence) Inv := by
  have hsched : Ensures (if s.isAnimating then (s.pushBack sequence).processQueue A
      else (s.startSequenceImmediately A (processQueue A) now sequence).map Prod.fst) Inv := by
    split
    · exact pushBack_processQueue_inv h hready
    · rw [Option.map_eq_bind]
      exact (start_inv now h hready).bind fun r hr => .some hr.1
  rw [scheduleAnimation, Option.map_eq_bind]
  exact hsched.bind fun s' hs' => .some (hs'.relabel rfl rfl (le_refl _))

/-- A sequence that was just made is new to the animator. -/
theorem allocate_inv (h : Inv s) {elements : List (LayerAnimationElement T)}
    (htimely : Timely elements) (hnonempty : (allProperties elements).Nonempty) :
    Inv (s.allocate elements).2 ∧ Ready (s.allocate elements).2 (s.allocate elements).1 := by
  have hheap : ∀ queued ∈ s.animationQueue,
      (s.allocate elements).2.sequences queued.id = s.sequences queued.id := by
    intro queued hqueue
    exact update_of_ne (Nat.ne_of_lt (h.base.allocated queued hqueue)) _ _
  refine ⟨h.update rfl rfl (le_succ _) hheap, LayerAnimator.fresh_allocate h.base hnonempty _ _,
    ?_⟩
  have hnew : (s.allocate elements).2.sequences (s.allocate elements).1.id = .new elements :=
    update_self ..
  rw [hnew]
  exact SequenceState.wellFormed_new _ htimely

theorem scheduleEach_inv (now : LayerAnimationSequence → Int)
    (animations : List (ElementSequence T)) (h : Inv s) :
    Ensures (scheduleEach A now animations s) Inv := by
  induction animations generalizing s with
  | nil => exact .some h
  | cons made rest ih =>
    obtain ⟨hinv, hready⟩ := allocate_inv h made.timely made.nonempty
    exact Ensures.bind (scheduleAnimation_inv _ hinv hready) fun s' hs' => ih hs'

theorem scheduleTogether_inv (now : LayerAnimationSequence → Int)
    {animations : List (ElementSequence T)} (hanimations : animations ≠ []) (h : Inv s) :
    Ensures (s.scheduleTogether A now animations) Inv := by
  have hnonempty : (allProperties [createPauseElement (T := T) (LayerAnimator.unionProperties
      (animations.map ElementSequence.toNewSequence)) 0]).Nonempty := by
    have hunion := LayerAnimator.unionProperties_nonempty
      (fun hnil => hanimations (map_eq_nil_iff.mp hnil) :
        animations.map ElementSequence.toNewSequence ≠ [])
    exact hunion.mono Finset.subset_union_left
  obtain ⟨hinv, hready⟩ := allocate_inv h (Or.inl ⟨_, rfl⟩) hnonempty
  refine Ensures.bind (scheduleAnimation_inv _ hinv hready) ?_
  intro s₁ hs₁
  refine Ensures.bind (scheduleEach_inv now animations hs₁) ?_
  exact fun s₂ hs₂ => .some (hs₂.relabel rfl rfl (le_refl _))

/-! ## Stopping -/

theorem finish_keeps (h : Inv s) {running : RunningAnimation}
    (hrun : running ∈ s.runningAnimations) :
    Ensures (s.finishAnimation A (processQueue A) running.sequence) (Keeps s) :=
  finishAnimation_keeps processQueue_keeps h (mem_map_of_mem hrun)

theorem stopPropertyWithin_keeps (property : AnimatableProperty) (fuel : Nat) (h : Inv s) :
    Ensures (stopPropertyWithin A property fuel s) (Keeps s) := by
  induction fuel generalizing s with
  | zero => exact nofun
  | succ fuel ih =>
    rw [stopPropertyWithin]
    cases hfind : s.getRunningAnimation property with
    | none => exact .some (.refl h)
    | some running =>
      refine Ensures.bind (finish_keeps h (mem_of_find?_eq_some hfind)) ?_
      exact fun s' hs' => (ih hs'.inv).mono fun s'' hs'' => hs'.trans hs''

theorem stopWithin_keeps (fuel : Nat) (h : Inv s) : Ensures (stopWithin A fuel s) (Keeps s) := by
  induction fuel generalizing s with
  | zero => rintro _ ⟨⟩
  | succ fuel ih =>
    rw [stopWithin]
    split
    · cases hrun : s.runningAnimations with
      | nil => rintro _ ⟨⟩
      | cons running rest =>
        refine Ensures.bind (finish_keeps h (hrun ▸ mem_cons_self)) ?_
        exact fun s' hs' => (ih hs'.inv).mono fun s'' hs'' => hs'.trans hs''
    · exact .some (.refl h)

/-! ## Runs -/

/-- The step lemma: every call keeps the invariant of the values. -/
theorem call_inv (h : Inv s) (c : Call T) : Ensures (s.call A c) Inv := by
  cases c with
  | setPreemptionStrategy strategy => exact .some (h.relabel rfl rfl (le_refl _))
  | startAnimation now made =>
    obtain ⟨hinv, hready⟩ := allocate_inv h made.timely made.nonempty
    exact startAnimation_inv now hinv hready
  | scheduleAnimation now made =>
    obtain ⟨hinv, hready⟩ := allocate_inv h made.timely made.nonempty
    exact scheduleAnimation_inv now hinv hready
  | scheduleTogether now animations hanimations => exact scheduleTogether_inv now hanimations h
  | stopAnimatingProperty property =>
    exact (stopPropertyWithin_keeps property _ h).mono fun _ hs' => hs'.inv
  | stopAnimating => exact (stopWithin_keeps _ h).mono fun _ hs' => hs'.inv
  | step now => exact (step_keeps processQueue_keeps now h).mono fun _ hs' => hs'.inv

theorem inv_new (sequences : Nat → SequenceState T) (delegate : Values T) :
    Inv (new sequences delegate) :=
  ⟨LayerAnimator.scheduled_new.base, .nil, nofun⟩

theorem run_call_yields (calls : List (Call T)) (h : s.Scheduled) (hinv : Inv s) :
    Yields (run (call A) calls s) fun s' => s'.Scheduled ∧ Inv s' := by
  induction calls generalizing s with
  | nil => exact .some ⟨h, hinv⟩
  | cons c calls ih =>
    obtain ⟨s', hcall, hsched⟩ := call_yields (A := A) c h
    rw [run_cons, hcall]
    exact ih hsched (call_inv hinv c s' hcall)

theorem stopAnimating_reaches (h : s.Scheduled) (hinv : Inv s) :
    Yields (s.stopAnimating A) fun s' => s'.delegate = s.getTargetValue := by
  obtain ⟨s', hstop, -, hempty⟩ := (stopWithin_maps (A := A) _ s).yields
    (LayerAnimator.stopWithin_yields _ h (lt_succ_self _))
  have htgt := (stopWithin_keeps _ hinv s' hstop).target
  rw [getTargetValue_eq, hempty] at htgt
  exact ⟨s', hstop, htgt⟩

/-- After every sequence of calls StopAnimating comes to an end, with the delegate at the values
that the GetTarget functions report. -/
theorem layerAnimator_targets_reached (A : Arithmetic T) (sequences : Nat → SequenceState T)
    (delegate : Values T) (calls : List (Call T)) :
    ∃ s, run (call A) calls (new sequences delegate) = some s ∧
      ∃ s', s.stopAnimating A = some s' ∧
        s.getTargetTransform = s'.delegate.transform ∧
        s.getTargetBounds = s'.delegate.bounds ∧
        s.getTargetOpacity = s'.delegate.opacity ∧
        s.getTargetVisibility = s'.delegate.visibility := by
  obtain ⟨s, hrun, hscheduled, hinv⟩ := run_call_yields (A := A) calls
    LayerAnimator.scheduled_new (inv_new sequences delegate)
  obtain ⟨s', hstop, hdelegate⟩ := stopAnimating_reaches (A := A) hscheduled hinv
  refine ⟨s, hrun, s', hstop, ?_⟩
  rw [hdelegate]
  exact ⟨rfl, rfl, rfl, rfl⟩

end AnimatedLayer

end ChromiumUI.Compositor
