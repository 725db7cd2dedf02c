import ChromiumUI.MessageLoopConservation

/-!
# The order of the tasks of a MessageLoop

The tasks that have left the first two queues were accepted before those that have not, and where
two tasks take different ways from there, the one that was posted later with no smaller delay is
never ahead, unless it passes by the queue of deferred tasks.
-/
namespace ChromiumUI.MessageLoop

open Base Runs List Nat State

variable {s t : State} {l l' : Loop} {timed : Bool} {runDepth now : Nat}

/-! ## Posts -/

/-- `b` is posted after `a` with an equal or larger delay, and `b` is non-nestable or `a` is
nestable. -/
def Precedes (a b : PendingTask) : Prop :=
  a.id < b.acceptedBefore ∧ a.delayMs ≤ b.delayMs ∧ (b.nestable = false ∨ a.nestable = true)

/-- What the queues make of it. -/
def Before (a b : PendingTask) : Prop := a.id < b.id ∧ a.delayedRunTime ≤ b.delayedRunTime

theorem calculateDelayedRuntime_mono {time time' : Nat} {delayMs delayMs' : Int}
    (htime : time ≤ time') (hdelay : delayMs ≤ delayMs') :
    calculateDelayedRuntime time delayMs ≤ calculateDelayedRuntime time' delayMs' := by
  unfold calculateDelayedRuntime
  split <;> split <;> omega

/-- The calls so far read the clock in the order of their posts. -/
structure Posted (s : State) : Prop where
  runTime : ∀ x ∈ s.accepted ++ s.posters,
    x.delayedRunTime = calculateDelayedRuntime x.postTime x.delayMs
  postTime : ∀ x ∈ s.accepted ++ s.posters, x.postTime ≤ s.now
  bound : ∀ x ∈ s.posters, x.acceptedBefore ≤ s.accepted.length
  before : ∀ x ∈ s.accepted, x.acceptedBefore ≤ x.id
  idBound : ∀ x ∈ s.accepted, x.id < s.accepted.length
  clock : ∀ x ∈ s.accepted, ∀ y ∈ s.accepted ++ s.posters, x.id < y.acceptedBefore →
    x.postTime ≤ y.postTime

theorem Posted.create (now : Nat) : Posted (.create now) where
  runTime := nofun
  postTime := nofun
  bound := nofun
  before := nofun
  idBound := nofun
  clock := nofun

theorem Posted.precedes (h : Posted s) {a b : PendingTask} (ha : a ∈ s.accepted)
    (hb : b ∈ s.accepted) (hab : Precedes a b) : Before a b := by
  obtain ⟨hafter, hdelay, -⟩ := hab
  refine ⟨lt_of_lt_of_le hafter (h.before b hb), ?_⟩
  rw [h.runTime a (mem_append_left _ ha), h.runTime b (mem_append_left _ hb)]
  exact calculateDelayedRuntime_mono (h.clock a ha b (mem_append_left _ hb) hafter) hdelay

/-- The posts do not depend on what the loop does. -/
theorem Posted.of_eq (h : Posted s) (hnow : s.now ≤ t.now) (hacc : t.accepted = s.accepted)
    (hposters : t.posters = s.posters) : Posted t := by
  constructor
  · rw [hacc, hposters]
    exact h.runTime
  · rw [hacc, hposters]
    exact fun x hx => le_trans (h.postTime x hx) hnow
  · rw [hacc, hposters]
    exact h.bound
  · rw [hacc]
    exact h.before
  · rw [hacc]
    exact h.idBound
  · rw [hacc, hposters]
    exact h.clock

theorem Posted.post (h : Posted s) (task : Nat) (nestable : Bool) (delayMs : Int) :
    Posted { s with posters := s.posters ++
      [⟨task, calculateDelayedRuntime s.now delayMs, nestable, 0, s.accepted.length, s.now,
        delayMs⟩] } := by
  have hold : ∀ x, x ∈ s.accepted ++ (s.posters ++ [⟨task, calculateDelayedRuntime s.now delayMs,
      nestable, 0, s.accepted.length, s.now, delayMs⟩]) → x ∈ s.accepted ++ s.posters ∨
      x = ⟨task, calculateDelayedRuntime s.now delayMs, nestable, 0, s.accepted.length, s.now,
        delayMs⟩ := by
    intro x hx
    rw [← append_assoc] at hx
    exact (mem_append.mp hx).imp id mem_singleton.mp
  refine ⟨fun x hx => ?_, fun x hx => ?_, fun x hx => ?_, h.before, h.idBound,
    fun x hx y hy hlt => ?_⟩
  · obtain hx | rfl := hold x hx
    · exact h.runTime x hx
    · rfl
  · obtain hx | rfl := hold x hx
    · exact h.postTime x hx
    · exact le_refl _
  · obtain hx | hx := mem_append.mp hx
    · exact h.bound x hx
    · rw [mem_singleton.mp hx]
  · obtain hy | rfl := hold y hy
    · exact h.clock x hx y hy hlt
    · exact h.postTime x (mem_append_left _ hx)

theorem Posted.addToIncomingQueue (h : Posted s) {k : Nat} {x : PendingTask}
    (hk : s.posters[k]? = some x) (l : Loop) :
    Posted { s with
      loop := l
      posters := s.posters.eraseIdx k
      accepted := s.accepted ++ [{ x with id := s.accepted.length }] } := by
  have hmem := mem_of_getElem? hk
  have hposter : ∀ y ∈ s.posters.eraseIdx k, y ∈ s.posters :=
    fun y hy => mem_of_mem_eraseIdx hy
  have hold : ∀ y, y ∈ (s.accepted ++ [{ x with id := s.accepted.length }]) ++
      s.posters.eraseIdx k → y ∈ s.accepted ++ s.posters ∨ y = { x with id := s.accepted.length } := by
    intro y hy
    simp only [mem_append, mem_singleton] at hy ⊢
    obtain (hy | hy) | hy := hy
    · exact .inl (Or.inl hy)
    · exact .inr hy
    · exact .inl (Or.inr (hposter y hy))
  refine ⟨fun y hy => ?_, fun y hy => ?_, fun y hy => ?_, fun y hy => ?_, fun y hy => ?_,
    fun y hy z hz hlt => ?_⟩
  · obtain hy | rfl := hold y hy
    · exact h.runTime y hy
    · exact h.runTime x (mem_append_right _ hmem)
  · obtain hy | rfl := hold y hy
    · exact h.postTime y hy
    · exact h.postTime x (mem_append_right _ hmem)
  · have := h.bound y (hposter y hy)
    rw [length_append]
    omega
  · obtain hy | hy := mem_append.mp hy
    · exact h.before y hy
    · rw [mem_singleton.mp hy]
      exact h.bound x hmem
  · dsimp only
    rw [length_append, length_singleton]
    obtain hy | hy := mem_append.mp hy
    · exact lt_succ_of_lt (h.idBound y hy)
    · rw [mem_singleton.mp hy]
      exact lt_succ_self _
  · -- the new task is accepted after every call that has begun
    have hz' : z.acceptedBefore ≤ s.accepted.length := by
      obtain hz | rfl := hold z hz
      · obtain hz | hz := mem_append.mp hz
        · exact le_of_lt (lt_of_le_of_lt (h.before z hz) (h.idBound z hz))
        · exact h.bound z hz
      · exact h.bound x hmem
    obtain hy | hy := mem_append.mp hy
    · obtain hz | rfl := hold z hz
      · exact h.clock y hy z hz hlt
      · exact h.clock y hy x (mem_append_right _ hmem) hlt
    · rw [mem_singleton.mp hy] at hlt
      dsimp only at hlt
      omega

theorem after_frame (s : State) (found : Option PendingTask) (l : Loop) :
    (s.after found l).now = s.now ∧ (s.after found l).accepted = s.accepted ∧
      (s.after found l).posters = s.posters ∧ (s.after found l).finished = s.finished := by
  cases found <;> exact ⟨rfl, rfl, rfl, rfl⟩

theorem Posted.after (h : Posted s) (found : Option PendingTask) (l : Loop) :
    Posted (s.after found l) := by
  obtain ⟨hnow, hacc, hposters, -⟩ := after_frame s found l
  exact h.of_eq hnow.ge hacc hposters

theorem Posted.step (h : Posted s) {a : State.Action} (hstep : s.step a = some t) : Posted t := by
  cases a with
  | tick ticks =>
    cases hstep
    exact h.of_eq (le_add_right _ _) rfl rfl
  | post task nestable delayMs =>
    cases hstep
    exact h.post task nestable delayMs
  | addToIncomingQueue k =>
    simp only [State.step] at hstep
    split at hstep
    · rename_i hk
      cases hstep
      exact h.addToIncomingQueue hk _
    · cases hstep
  | doWork =>
    obtain rfl | ⟨-, found, l', -, rfl⟩ := step_doWork hstep
    · exact h
    · exact h.after found l'
  | doDelayedWork =>
    obtain ⟨found, l', -, rfl, -⟩ := step_doDelayedWork hstep
    exact h.after found l'
  | doIdleWork =>
    obtain ⟨found, l', -, rfl⟩ := step_doIdleWork hstep
    exact h.after found l'
  | setNestableTasksAllowed allowed | run =>
    cases hstep
    exact h.of_eq (le_refl _) rfl rfl
  | _ =>
    simp only [State.step] at hstep
    split at hstep
    · cases hstep
      exact h.of_eq (le_refl _) rfl rfl
    · cases hstep

/-! ## The delayed queue -/

/-- Tasks of one time in the queue were numbered so close together that the roll-over of the
numbers does not show. -/
def NumbersClose (queue : List DelayedTask) : Prop :=
  ∀ a ∈ queue, ∀ b ∈ queue, a.pending.delayedRunTime = b.pending.delayedRunTime →
    b.sequenceNum < a.sequenceNum + 2 ^ 31

theorem less_of_lt {a b : DelayedTask} (htime : a.pending.delayedRunTime = b.pending.delayedRunTime)
    (hlt : a.sequenceNum < b.sequenceNum) (hclose : b.sequenceNum < a.sequenceNum + 2 ^ 31) :
    a.less b = false := by
  have hwrap : wrapInt (wrapInt a.sequenceNum - wrapInt b.sequenceNum) =
      (a.sequenceNum : Int) - b.sequenceNum := by
    unfold wrapInt
    rw [Int.bmod_sub_bmod, Int.sub_bmod_bmod]
    exact Int.bmod_eq_of_le (by omega) (by omega)
  rw [DelayedTask.less, if_neg (by omega), if_neg (by omega), hwrap]
  simp only [gt_iff_lt, decide_eq_false_iff_not]
  omega

variable {rest : List DelayedTask}

/-- The top is the first of the tasks of the earliest time. -/
theorem popTop_first {queue : List DelayedTask} {top : DelayedTask}
    (h : popTop queue = some (top, rest)) (hclose : NumbersClose queue)
    (hsort : queue.Pairwise fun a b => a.sequenceNum < b.sequenceNum) :
    ∀ a ∈ queue, top.pending.delayedRunTime = a.pending.delayedRunTime →
      top.sequenceNum ≤ a.sequenceNum := by
  induction queue generalizing top rest with
  | nil => cases h
  | cons a queue ih =>
    rw [popTop] at h
    split at h
    · rename_i hnone
      obtain ⟨rfl, rfl⟩ := Prod.mk.inj (Option.some.inj h)
      rw [popTop_eq_none hnone]
      intro b hb _
      rw [mem_singleton.mp hb]
    · rename_i top' rest' hsome
      obtain ⟨hhead, hsort⟩ := pairwise_cons.mp hsort
      have hclose' : NumbersClose queue := fun b hb c hc =>
        hclose b (mem_cons_of_mem _ hb) c (mem_cons_of_mem _ hc)
      have htop' : top' ∈ queue := (popTop_perm hsome).mem_iff.mpr mem_cons_self
      split at h
      · rename_i hless
        obtain ⟨rfl, rfl⟩ := Prod.mk.inj (Option.some.inj h)
        intro b hb htime
        obtain rfl | hb := mem_cons.mp hb
        · -- the head is older, so that it would be the top
          have := less_of_lt htime.symm (hhead _ htop')
            (hclose _ mem_cons_self _ (mem_cons_of_mem _ htop') htime.symm)
          rw [this] at hless
          cases hless
        · exact ih hsome hclose' hsort b hb htime
      · obtain ⟨rfl, rfl⟩ := Prod.mk.inj (Option.some.inj h)
        intro b hb _
        obtain rfl | hb := mem_cons.mp hb
        · exact le_refl _
        · exact le_of_lt (hhead b hb)

/-! ## The queues in order -/

/-- How the tasks of the queues stand to each other and to those that have started. -/
structure Ordered (l : Loop) (started : List PendingTask) : Prop where
  sorted : (l.workQueue ++ l.incomingQueue).Pairwise fun a b => a.id < b.id
  left : ∀ a ∈ l.delayedWorkQueue.map DelayedTask.pending ++ l.deferredNonNestableWorkQueue ++
    started, ∀ b ∈ l.workQueue ++ l.incomingQueue, a.id < b.id
  timed : ∀ a ∈ l.delayedWorkQueue, a.pending.delayedRunTime ≠ 0
  numbered : l.delayedWorkQueue.Pairwise fun a b => a.sequenceNum < b.sequenceNum
  numberBound : ∀ a ∈ l.delayedWorkQueue, a.sequenceNum < l.nextSequenceNum
  numberId : ∀ a ∈ l.delayedWorkQueue, ∀ b ∈ l.delayedWorkQueue, a.pending.id < b.pending.id →
    a.sequenceNum < b.sequenceNum
  nonNestable : ∀ a ∈ l.deferredNonNestableWorkQueue, a.nestable = false
  deferred : l.deferredNonNestableWorkQueue.Pairwise fun a b => ¬Before b a
  deferredDelayed : ∀ a ∈ l.delayedWorkQueue, ∀ b ∈ l.deferredNonNestableWorkQueue,
    ¬Before a.pending b
  startedDelayed : ∀ a ∈ l.delayedWorkQueue, ∀ b ∈ started, ¬Before a.pending b
  startedDeferred : ∀ a ∈ l.deferredNonNestableWorkQueue, ∀ b ∈ started, Before a b →
    ¬Precedes a b

theorem ordered_create : Ordered .create [] where
  sorted := .nil
  left := nofun
  timed := nofun
  numbered := .nil
  numberBound := nofun
  numberId := nofun
  nonNestable := nofun
  deferred := .nil
  deferredDelayed := nofun
  startedDelayed := nofun
  startedDeferred := nofun

variable {started : List PendingTask}

/-- A task that is not yet in one of the later queues is not before one that is. -/
theorem Ordered.not_before (h : Ordered l started) {a b : PendingTask}
    (ha : a ∈ l.workQueue ++ l.incomingQueue)
    (hb : b ∈ l.delayedWorkQueue.map DelayedTask.pending ++ l.deferredNonNestableWorkQueue ++
      started) : ¬Before a b := by
  rintro ⟨hlt, -⟩
  have := h.left b hb a ha
  omega

/-- No task of the delayed queue is before its top. -/
theorem Ordered.not_before_top (h : Ordered l started) {top a : DelayedTask}
    (htop : popTop l.delayedWorkQueue = some (top, rest)) (hclose : NumbersClose l.delayedWorkQueue)
    (ha : a ∈ l.delayedWorkQueue) : ¬Before a.pending top.pending := by
  rintro ⟨hid, htime⟩
  have hmem : top ∈ l.delayedWorkQueue := (popTop_perm htop).mem_iff.mpr mem_cons_self
  have hle := popTop_le htop a ha
  have hfirst := popTop_first htop hclose h.numbered a ha (by omega)
  have := h.numberId a ha top hmem hid
  omega

/-- What stays in a smaller delayed queue. -/
theorem Ordered.delayed_sublist (h : Ordered l started) (hrest : rest.Sublist l.delayedWorkQueue) :
    Ordered { l with delayedWorkQueue := rest } started :=
  { h with
    left := by
      intro a ha
      refine h.left a ?_
      simp only [mem_append, mem_map] at ha ⊢
      obtain (⟨x, hx, rfl⟩ | ha) | ha := ha
      · exact .inl (Or.inl ⟨x, hrest.subset hx, rfl⟩)
      · exact .inl (Or.inr ha)
      · exact .inr ha
    timed := fun a ha => h.timed a (hrest.subset ha)
    numbered := h.numbered.sublist hrest
    numberBound := fun a ha => h.numberBound a (hrest.subset ha)
    numberId := fun a ha b hb => h.numberId a (hrest.subset ha) b (hrest.subset hb)
    deferredDelayed := fun a ha => h.deferredDelayed a (hrest.subset ha)
    startedDelayed := fun a ha => h.startedDelayed a (hrest.subset ha) }

variable {task : PendingTask}

/-- What stays in a shorter work queue. -/
theorem Ordered.work_tail (h : Ordered l started) {rest : List PendingTask}
    (hwork : l.workQueue = task :: rest) : Ordered { l with workQueue := rest } started ∧
      ∀ b ∈ rest ++ l.incomingQueue, task.id < b.id := by
  have hsort := h.sorted
  rw [hwork, cons_append, pairwise_cons] at hsort
  refine ⟨{ h with sorted := hsort.2, left := fun a ha b hb => h.left a ha b ?_ }, hsort.1⟩
  rw [hwork]
  exact mem_cons_of_mem _ hb

theorem Ordered.delay (h : Ordered l started)
    (hleft : ∀ a ∈ l.delayedWorkQueue.map DelayedTask.pending ++ l.deferredNonNestableWorkQueue ++
      started, a.id < task.id) (hlt : ∀ b ∈ l.workQueue ++ l.incomingQueue, task.id < b.id)
    (htime : task.delayedRunTime ≠ 0) : Ordered (l.addToDelayedWorkQueue task) started := by
  have hmem : ∀ a ∈ l.delayedWorkQueue ++ [⟨task, l.nextSequenceNum⟩],
      a ∈ l.delayedWorkQueue ∨ a = ⟨task, l.nextSequenceNum⟩ :=
    fun a ha => (mem_append.mp ha).imp id mem_singleton.mp
  have hpend : ∀ a ∈ l.delayedWorkQueue, a.pending.id < task.id := by
    intro a ha
    refine hleft _ ?_
    simp only [mem_append, mem_map]
    exact .inl (Or.inl ⟨a, ha, rfl⟩)
  refine ⟨h.sorted, ?_, ?_, ?_, ?_, ?_, h.nonNestable, h.deferred, ?_, ?_, h.startedDeferred⟩
  · intro a ha b hb
    simp only [Loop.addToDelayedWorkQueue, map_append, map_singleton, mem_append,
      mem_singleton] at ha
    obtain ((ha | rfl) | ha) | ha := ha
    · exact h.left a (by simp only [mem_append]; exact .inl (Or.inl ha)) b hb
    · exact hlt b hb
    · exact h.left a (by simp only [mem_append]; exact .inl (Or.inr ha)) b hb
    · exact h.left a (by simp only [mem_append]; exact .inr ha) b hb
  · intro a ha
    obtain ha | rfl := hmem a ha
    · exact h.timed a ha
    · exact htime
  · refine pairwise_append.mpr ⟨h.numbered, pairwise_singleton _ _, fun a ha b hb => ?_⟩
    rw [mem_singleton.mp hb]
    exact h.numberBound a ha
  · intro a ha
    obtain ha | rfl := hmem a ha
    · exact lt_succ_of_lt (h.numberBound a ha)
    · exact lt_succ_self _
  · intro a ha b hb hid
    obtain ha | rfl := hmem a ha
    · obtain hb | rfl := hmem b hb
      · exact h.numberId a ha b hb hid
      · exact h.numberBound a ha
    · obtain hb | rfl := hmem b hb
      · have := hpend b hb
        dsimp only at hid
        omega
      · dsimp only at hid
        omega
  · intro a ha b hb
    obtain ha | rfl := hmem a ha
    · exact h.deferredDelayed a ha b hb
    · rintro ⟨hid, -⟩
      have := hleft b (by simp only [mem_append]; exact .inl (Or.inr hb))
      dsimp only at hid
      omega
  · intro a ha b hb
    obtain ha | rfl := hmem a ha
    · exact h.startedDelayed a ha b hb
    · rintro ⟨hid, -⟩
      have := hleft b (mem_append_right _ hb)
      dsimp only at hid
      omega

/-- A non-nestable task that no delayed task is before, and that is before none of those that have
left their queue already. -/
theorem Ordered.defer (h : Ordered l started)
    (hlt : ∀ b ∈ l.workQueue ++ l.incomingQueue, task.id < b.id) (hnested : task.nestable = false)
    (hdelayed : ∀ a ∈ l.delayedWorkQueue, ¬Before a.pending task)
    (hdefer : ∀ a ∈ l.deferredNonNestableWorkQueue, ¬Before task a)
    (hstart : ∀ a ∈ started, ¬Before task a) :
    Ordered { l with
      deferredNonNestableWorkQueue := l.deferredNonNestableWorkQueue ++ [task] } started := by
  have hmem : ∀ a ∈ l.deferredNonNestableWorkQueue ++ [task],
      a ∈ l.deferredNonNestableWorkQueue ∨ a = task :=
    fun a ha => (mem_append.mp ha).imp id mem_singleton.mp
  exact { h with
    left := by
      intro a ha b hb
      simp only [mem_append, mem_singleton] at ha
      obtain (ha | ha | rfl) | ha := ha
      · exact h.left a (by simp only [mem_append]; exact .inl (Or.inl ha)) b hb
      · exact h.left a (by simp only [mem_append]; exact .inl (Or.inr ha)) b hb
      · exact hlt b hb
      · exact h.left a (by simp only [mem_append]; exact .inr ha) b hb
    nonNestable := by
      intro a ha
      obtain ha | rfl := hmem a ha
      · exact h.nonNestable a ha
      · exact hnested
    deferred := by
      refine pairwise_append.mpr
        ⟨h.deferred, pairwise_singleton _ _, fun a ha b hb => ?_⟩
      rw [mem_singleton.mp hb]
      exact hdefer a ha
    deferredDelayed := by
      intro a ha b hb
      obtain hb | rfl := hmem b hb
      · exact h.deferredDelayed a ha b hb
      · exact hdelayed a ha
    startedDeferred := by
      intro a ha b hb hpre
      obtain ha | rfl := hmem a ha
      · exact h.startedDeferred a ha b hb hpre
      · exact absurd hpre (hstart b hb) }

theorem Ordered.move (h : Ordered l started) (hmove : Move timed runDepth now l l')
    (hclose : timed = true → NumbersClose l.delayedWorkQueue) : Ordered l' started := by
  cases hmove with
  | reload _ hempty =>
    exact { h with
      sorted := by
        have := h.sorted
        rw [hempty, nil_append] at this
        rwa [append_nil]
      left := by
        intro a ha b hb
        rw [append_nil] at hb
        exact h.left a ha b (mem_append_right _ hb) }
  | delay task rest _ hwork htime =>
    obtain ⟨htail, hlt⟩ := h.work_tail hwork
    refine htail.delay (fun a ha => h.left a ha task ?_) hlt htime
    rw [hwork]
    exact mem_cons_self
  | defer task rest _ _ hwork htime hnested =>
    obtain ⟨htail, hlt⟩ := h.work_tail hwork
    have hmem : task ∈ l.workQueue ++ l.incomingQueue := by
      rw [hwork]
      exact mem_cons_self
    refine htail.defer hlt hnested (fun a ha => ?_) (fun a ha => ?_) fun a ha => ?_
    · rintro ⟨-, hle⟩
      have := h.timed a ha
      omega
    · exact h.not_before hmem (by simp only [mem_append]; exact .inl (Or.inr ha))
    · exact h.not_before hmem (mem_append_right _ ha)
  | deferDelayed top rest htimed _ htop _ hnested =>
    have hmem : top ∈ l.delayedWorkQueue := (popTop_perm htop).mem_iff.mpr mem_cons_self
    have hrest := popTop_sublist htop
    refine (h.delayed_sublist hrest).defer (fun b hb => h.left top.pending ?_ b hb) hnested
      (fun a ha => h.not_before_top htop (hclose htimed) (hrest.subset ha))
      (fun a ha => h.deferredDelayed top hmem a ha) fun a ha => h.startedDelayed top hmem a ha
    simp only [mem_append, mem_map]
    exact .inl (Or.inl ⟨top, hmem, rfl⟩)
  | look time _ => exact { h with }

/-- A task starts that no delayed task is before, and that comes behind no deferred task. -/
theorem Ordered.start (h : Ordered l started)
    (hlt : ∀ b ∈ l.workQueue ++ l.incomingQueue, task.id < b.id)
    (hdelayed : ∀ a ∈ l.delayedWorkQueue, ¬Before a.pending task)
    (hdefer : ∀ a ∈ l.deferredNonNestableWorkQueue, Before a task → ¬Precedes a task) :
    Ordered l (started ++ [task]) :=
  { h with
    left := by
      intro a ha b hb
      simp only [mem_append, mem_singleton] at ha
      obtain (ha | ha) | ha | rfl := ha
      · exact h.left a (by simp only [mem_append]; exact .inl (Or.inl ha)) b hb
      · exact h.left a (by simp only [mem_append]; exact .inl (Or.inr ha)) b hb
      · exact h.left a (by simp only [mem_append]; exact .inr ha) b hb
      · exact hlt b hb
    startedDelayed := by
      intro a ha b hb
      obtain hb | hb := mem_append.mp hb
      · exact h.startedDelayed a ha b hb
      · rw [mem_singleton.mp hb]
        exact hdelayed a ha
    startedDeferred := by
      intro a ha b hb
      obtain hb | hb := mem_append.mp hb
      · exact h.startedDeferred a ha b hb
      · rw [mem_singleton.mp hb]
        exact hdefer a ha }

/-- No deferred task has to start before a non-nestable one. -/
def Behind (l : Loop) (task : PendingTask) : Prop :=
  task.nestable = false → ∀ a ∈ l.deferredNonNestableWorkQueue, ¬Precedes a task

theorem Ordered.not_precedes (h : Ordered l started) (hruns : task.nestable = true ∨ runDepth = 1)
    (hbehind : runDepth = 1 → Behind l task) :
    ∀ a ∈ l.deferredNonNestableWorkQueue, Before a task → ¬Precedes a task := by
  intro a ha _ hprecedes
  cases hnested : task.nestable with
  | true =>
    obtain ⟨-, -, hnested' | hnested'⟩ := hprecedes
    · rw [hnested] at hnested'
      cases hnested'
    · rw [h.nonNestable a ha] at hnested'
      cases hnested'
  | false =>
    rw [hnested] at hruns
    exact hbehind (hruns.resolve_left nofun) hnested a ha hprecedes

/-- The first deferred task starts. -/
theorem Ordered.takeDeferred (h : Ordered l started) {rest : List PendingTask}
    (heq : l.deferredNonNestableWorkQueue = task :: rest) :
    Ordered { l with deferredNonNestableWorkQueue := rest } (started ++ [task]) := by
  have hrest : rest.Sublist l.deferredNonNestableWorkQueue := heq ▸ sublist_cons_self _ _
  have hmem : task ∈ l.deferredNonNestableWorkQueue := heq ▸ mem_cons_self
  have hsort := h.deferred
  rw [heq, pairwise_cons] at hsort
  have hkept : Ordered { l with deferredNonNestableWorkQueue := rest } started :=
    { h with
      left := by
        intro a ha b hb
        simp only [mem_append] at ha
        obtain (ha | ha) | ha := ha
        · exact h.left a (by simp only [mem_append]; exact .inl (Or.inl ha)) b hb
        · exact h.left a
            (by simp only [mem_append]; exact .inl (Or.inr (hrest.subset ha))) b hb
        · exact h.left a (by simp only [mem_append]; exact .inr ha) b hb
      nonNestable := fun a ha => h.nonNestable a (hrest.subset ha)
      deferred := hsort.2
      deferredDelayed := fun a ha b hb => h.deferredDelayed a ha b (hrest.subset hb)
      startedDeferred := fun a ha => h.startedDeferred a (hrest.subset ha) }
  refine hkept.start (fun b hb => h.left task ?_ b hb) (fun a ha => h.deferredDelayed a ha task hmem)
    fun a ha hpre => absurd hpre (hsort.1 a ha)
  simp only [mem_append]
  exact .inl (Or.inr hmem)

theorem Ordered.take (h : Ordered l started) (htake : Take timed runDepth l task l')
    (hclose : timed = true → NumbersClose l.delayedWorkQueue)
    (hwork : runDepth = 1 → ∀ task rest, timed = false → l.nestableTasksAllowed = true →
      l.workQueue = task :: rest → task.delayedRunTime = 0 → Behind l task)
    (hdelayed : runDepth = 1 → ∀ top rest, timed = true → l.nestableTasksAllowed = true →
      popTop l.delayedWorkQueue = some (top, rest) → top.pending.delayedRunTime ≤ l.recentTime →
      Behind l top.pending) : Ordered l' (started ++ [task]) := by
  cases htake with
  | work task rest htimed hallow heq htime hruns =>
    obtain ⟨htail, hlt⟩ := h.work_tail heq
    refine htail.start hlt (fun a ha => ?_)
      (h.not_precedes hruns fun hdepth => hwork hdepth task rest htimed hallow heq htime)
    rintro ⟨-, hle⟩
    have := h.timed a ha
    omega
  | delayed top rest htimed hallow htop htime hruns =>
    have hmem : top ∈ l.delayedWorkQueue := (popTop_perm htop).mem_iff.mpr mem_cons_self
    have hrest := popTop_sublist htop
    refine (h.delayed_sublist hrest).start (fun b hb => h.left top.pending ?_ b hb)
      (fun a ha => h.not_before_top htop (hclose htimed) (hrest.subset ha))
      (h.not_precedes hruns fun hdepth => hdelayed hdepth top rest htimed hallow htop htime)
    simp only [mem_append, mem_map]
    exact .inl (Or.inl ⟨top, hmem, rfl⟩)
  | deferred task rest _ heq => exact h.takeDeferred heq

/-! ## Every step -/

/-- The oldest task without a delay, which DoWork comes to first. -/
def Loop.oldest (l : Loop) : Option PendingTask :=
  (l.workQueue ++ l.incomingQueue).find? fun task => task.delayedRunTime == 0

/-- When DoWork or DoDelayedWork comes to a task at depth 1, no task is deferred that it has to
start behind; and the roll-over of the sequence numbers does not show in DoDelayedWork. -/
def DeferredBehind (s : State) (a : State.Action) : Prop :=
  (a = .doWork → s.runDepth = 1 → s.loop.nestableTasksAllowed = true →
    ∀ task, s.loop.oldest = some task → Behind s.loop task) ∧
  (a = .doDelayedWork → NumbersClose s.loop.delayedWorkQueue ∧
    (s.runDepth = 1 → s.loop.nestableTasksAllowed = true →
      ∀ top rest, popTop s.loop.delayedWorkQueue = some (top, rest) →
        top.pending.delayedRunTime ≤ s.now → Behind s.loop top.pending))

/-- What moves at depth 1 leave alone. -/
theorem Move.outermost (h : Move timed 1 now l l') :
    l'.deferredNonNestableWorkQueue = l.deferredNonNestableWorkQueue ∧
      (timed = false → l'.oldest = l.oldest) ∧
      (timed = true → l'.delayedWorkQueue = l.delayedWorkQueue) := by
  cases h with
  | reload htimed hempty =>
    refine ⟨rfl, fun _ => ?_, fun _ => rfl⟩
    simp [Loop.oldest, hempty]
  | delay task rest htimed hwork htime =>
    refine ⟨rfl, fun _ => ?_, fun h => absurd (htimed.symm.trans h) nofun⟩
    simp [Loop.oldest, Loop.addToDelayedWorkQueue, hwork, htime]
  | defer task rest _ hdepth _ _ _ => exact absurd rfl hdepth
  | deferDelayed top rest _ hdepth _ _ _ => exact absurd rfl hdepth
  | look time _ => exact ⟨rfl, fun _ => rfl, fun _ => rfl⟩

theorem Move.numbersClose (h : Move true runDepth now l l')
    (hclose : NumbersClose l.delayedWorkQueue) : NumbersClose l'.delayedWorkQueue := by
  cases h with
  | reload htimed _ => cases htimed
  | delay task rest htimed _ _ => cases htimed
  | defer task rest htimed _ _ _ _ => cases htimed
  | deferDelayed top rest _ _ htop _ _ =>
    have hrest := (popTop_sublist htop).subset
    exact fun a ha b hb => hclose a (hrest ha) b (hrest hb)
  | look time _ => exact hclose

/-- The tasks that have started, in their order. -/
def State.starts (s : State) : List PendingTask := s.started.map Start.task

theorem Ordered.after (h : Ordered s.loop s.starts) {found : Option PendingTask}
    (hacts : Acts timed s.runDepth s.now s.loop found l') (hrecent : s.loop.recentTime ≤ s.now)
    (hclose : timed = true → NumbersClose s.loop.delayedWorkQueue)
    (hwork : timed = false → s.runDepth = 1 → s.loop.nestableTasksAllowed = true →
      ∀ task, s.loop.oldest = some task → Behind s.loop task)
    (hdelayed : timed = true → s.runDepth = 1 → s.loop.nestableTasksAllowed = true →
      ∀ top rest, popTop s.loop.delayedWorkQueue = some (top, rest) →
        top.pending.delayedRunTime ≤ s.now → Behind s.loop top.pending) :
    Ordered (s.after found l').loop (s.after found l').starts := by
  obtain ⟨l₁, hmoves, hend⟩ := hacts
  have hmoved : Ordered l₁ s.starts ∧ (timed = true → NumbersClose l₁.delayedWorkQueue) ∧
      l₁.recentTime ≤ s.now ∧ l₁.nestableTasksAllowed = s.loop.nestableTasksAllowed ∧
      (s.runDepth = 1 →
        l₁.deferredNonNestableWorkQueue = s.loop.deferredNonNestableWorkQueue ∧
        (timed = false → l₁.oldest = s.loop.oldest) ∧
        (timed = true → l₁.delayedWorkQueue = s.loop.delayedWorkQueue)) := by
    clear hend
    induction hmoves with
    | refl => exact ⟨h, hclose, hrecent, rfl, fun _ => ⟨rfl, fun _ => rfl, fun _ => rfl⟩⟩
    | tail _ hmove ih =>
      obtain ⟨hord, hclose, hrecent, hallow, hkept⟩ := ih
      refine ⟨hord.move hmove hclose, fun htimed => ?_, ?_, hmove.allowed.trans hallow,
        fun hdepth => ?_⟩
      · subst htimed
        exact hmove.numbersClose (hclose rfl)
      · cases hmove with
        | look time htime => exact htime
        | _ => exact hrecent
      · obtain ⟨hdefer, holdest, hqueue⟩ := hkept hdepth
        rw [hdepth] at hmove
        obtain ⟨hdefer', holdest', hqueue'⟩ := hmove.outermost
        exact ⟨hdefer'.trans hdefer, fun htimed => (holdest' htimed).trans (holdest htimed),
          fun htimed => (hqueue' htimed).trans (hqueue htimed)⟩
  obtain ⟨hord, hclose, hrecent, hallow, hkept⟩ := hmoved
  obtain ⟨rfl, rfl⟩ | ⟨task, rfl, htake⟩ := hend
  · exact hord
  · have htaken : Ordered l' (s.starts ++ [task]) := by
      refine hord.take htake hclose ?_ ?_
      · intro hdepth task rest htimed hflag heq htime
        obtain ⟨hdefer, holdest, -⟩ := hkept hdepth
        have hfirst : l₁.oldest = some task := by simp [Loop.oldest, heq, htime]
        rw [Behind, hdefer]
        exact hwork htimed hdepth (hallow ▸ hflag) task (holdest htimed ▸ hfirst)
      · intro hdepth top rest htimed hflag htop htime
        obtain ⟨hdefer, -, hqueue⟩ := hkept hdepth
        rw [Behind, hdefer]
        exact hdelayed htimed hdepth (hallow ▸ hflag) top rest (hqueue htimed ▸ htop)
          (le_trans htime hrecent)
    have hstarts : ({ s with loop := l' }.runTask task).starts = s.starts ++ [task] :=
      map_append
    show Ordered _ ({ s with loop := l' }.runTask task).starts
    rw [hstarts]
    exact { htaken with }

/-- A task accepted now comes behind all others. -/
theorem Ordered.addToIncomingQueue (h : Ordered l started)
    (hid : ∀ a ∈ l.queued ++ started, a.id < task.id) :
    Ordered (l.addToIncomingQueue task).2 started := by
  have hwork : ∀ a ∈ l.workQueue ++ l.incomingQueue, a.id < task.id := by
    intro a ha
    refine hid a ?_
    simp only [Loop.queued, mem_append] at ha ⊢
    obtain ha | ha := ha
    · exact .inl (Or.inl (Or.inl (Or.inr ha)))
    · exact .inl (Or.inl (Or.inl (Or.inl ha)))
  exact { h with
    sorted := by
      show (l.workQueue ++ (l.incomingQueue ++ [task])).Pairwise _
      rw [← append_assoc]
      refine pairwise_append.mpr ⟨h.sorted, pairwise_singleton _ _, fun a ha b hb => ?_⟩
      rw [mem_singleton.mp hb]
      exact hwork a ha
    left := by
      intro a ha b hb
      replace hb : b ∈ l.workQueue ++ (l.incomingQueue ++ [task]) := hb
      rw [← append_assoc] at hb
      obtain hb | hb := mem_append.mp hb
      · exact h.left a ha b hb
      · rw [mem_singleton.mp hb]
        refine hid a ?_
        simp only [Loop.queued, mem_append] at ha ⊢
        obtain (ha | ha) | ha := ha
        · exact .inl (Or.inl (Or.inr ha))
        · exact .inl (Or.inr ha)
        · exact .inr ha }

/-- A task that has started is finished or on the stack. -/
def StackHolds (s : State) : Prop :=
  ∀ x, s.starts.count x = s.finished.count x + s.stack.count (.task x)

/-- All that is needed to see the order of two tasks. -/
structure InOrder (s : State) : Prop where
  posted : Posted s
  conserved : Conserved s
  ordered : Ordered s.loop s.starts
  stack : StackHolds s

theorem InOrder.create (now : Nat) : InOrder (.create now) where
  posted := .create now
  conserved := .create now
  ordered := ordered_create
  stack _ := rfl

theorem count_run_cons (stack : List Frame) (x : PendingTask) :
    (Frame.run :: stack).count (.task x) = stack.count (.task x) := by
  simp

theorem StackHolds.after (h : StackHolds s) (found : Option PendingTask) (l : Loop) :
    StackHolds (s.after found l) := by
  cases found with
  | none => exact h
  | some task =>
    intro x
    have := h x
    show (map Start.task (s.started ++ [_])).count x =
      s.finished.count x + (Frame.task task :: s.stack).count (.task x)
    rw [map_append, count_append, map_singleton, count_singleton,
      count_cons]
    simp only [beq_iff_eq, Frame.task.injEq]
    unfold starts at this
    omega

theorem Conserved.queued_lt (h : Conserved s) (hposted : Posted s) :
    ∀ a ∈ s.loop.queued ++ s.starts, a.id < s.accepted.length := by
  intro a ha
  refine hposted.idBound a ?_
  have hcount := h.count a
  obtain ha | ha := mem_append.mp ha
  · have := count_pos_iff.mpr ha
    exact count_pos_iff.mp (by omega)
  · have := count_pos_iff.mpr ha
    unfold starts at this
    exact count_pos_iff.mp (by omega)

theorem InOrder.step (h : InOrder s) {a : State.Action} (hbehind : DeferredBehind s a)
    (hstep : s.step a = some t) : InOrder t := by
  refine ⟨h.posted.step hstep, h.conserved.step hstep, ?_, ?_⟩
  · cases a with
    | addToIncomingQueue k =>
      simp only [State.step] at hstep
      split at hstep
      · cases hstep
        exact h.ordered.addToIncomingQueue (h.conserved.queued_lt h.posted)
      · cases hstep
    | setNestableTasksAllowed allowed =>
      cases hstep
      exact { h.ordered with }
    | doWork =>
      obtain rfl | ⟨-, found, l', hacts, rfl⟩ := step_doWork hstep
      · exact h.ordered
      · exact h.ordered.after hacts h.conserved.recent (by rintro ⟨⟩) (fun _ => hbehind.1 rfl) (by rintro ⟨⟩)
    | doDelayedWork =>
      obtain ⟨found, l', hacts, rfl, -⟩ := step_doDelayedWork hstep
      obtain ⟨hclose, hbehind⟩ := hbehind.2 rfl
      exact h.ordered.after hacts h.conserved.recent (fun _ => hclose) (by rintro ⟨⟩) fun _ => hbehind
    | doIdleWork =>
      simp only [State.step] at hstep
      split at hstep
      · cases hstep
      · cases hstep
        unfold Loop.processNextDelayedNonNestableTask
        split
        · exact h.ordered
        · split
          · exact h.ordered
          · rename_i task rest heq
            have hstarts : ({ s with loop := { s.loop with
                deferredNonNestableWorkQueue := rest } }.runTask task).starts = s.starts ++ [task] :=
              map_append
            show Ordered _ ({ s with loop := { s.loop with
                deferredNonNestableWorkQueue := rest } }.runTask task).starts
            rw [hstarts]
            exact { h.ordered.takeDeferred heq with }
    | finishTask =>
      simp only [State.step] at hstep
      split at hstep
      · cases hstep
        exact { h.ordered with }
      · cases hstep
    | tick ticks | post task nestable delayMs | run =>
      cases hstep
      exact h.ordered
    | endRun =>
      simp only [State.step] at hstep
      split at hstep
      · cases hstep
        exact h.ordered
      · cases hstep
  · cases a with
    | doWork =>
      obtain rfl | ⟨-, found, l', -, rfl⟩ := step_doWork hstep
      · exact h.stack
      · exact h.stack.after found l'
    | doDelayedWork =>
      obtain ⟨found, l', -, rfl, -⟩ := step_doDelayedWork hstep
      exact h.stack.after found l'
    | doIdleWork =>
      obtain ⟨found, l', -, rfl⟩ := step_doIdleWork hstep
      exact h.stack.after found l'
    | finishTask =>
      simp only [State.step] at hstep
      split at hstep
      · rename_i task stack heq
        cases hstep
        intro x
        have := h.stack x
        rw [heq, count_cons] at this
        show s.starts.count x = (s.finished ++ [task]).count x + stack.count (.task x)
        rw [count_append, count_singleton]
        simp only [beq_iff_eq, Frame.task.injEq] at this ⊢
        omega
      · cases hstep
    | run =>
      cases hstep
      intro x
      have := h.stack x
      rw [count_run_cons]
      exact this
    | endRun =>
      simp only [State.step] at hstep
      split at hstep
      · rename_i stack heq
        cases hstep
        intro x
        have := h.stack x
        rw [heq, count_run_cons] at this
        exact this
      · cases hstep
    | addToIncomingQueue k =>
      simp only [State.step] at hstep
      split at hstep
      · cases hstep
        exact h.stack
      · cases hstep
    | tick ticks | post task nestable delayMs | setNestableTasksAllowed allowed =>
      cases hstep
      exact h.stack

/-- Where a task has started, so have those that precede it. -/
theorem InOrder.started_of_precedes (h : InOrder s) {a b : PendingTask} (ha : a ∈ s.accepted)
    (hb : b ∈ s.starts) (hab : Precedes a b) : a ∈ s.starts := by
  have hb' : b ∈ s.accepted := by
    have hcount := h.conserved.count b
    have := count_pos_iff.mpr hb
    unfold starts at this
    exact count_pos_iff.mp (by omega)
  have hpre := h.posted.precedes ha hb' hab
  have hpos := count_pos_iff.mpr ha
  rw [h.conserved.count] at hpos
  by_contra hnot
  have hqueue : a ∈ s.loop.queued := by
    have : s.starts.count a = 0 := count_eq_zero.mpr hnot
    unfold starts at this
    exact count_pos_iff.mp (by omega)
  simp only [Loop.queued, mem_append, mem_map] at hqueue
  obtain ((ha | ha) | ⟨x, hx, rfl⟩) | ha := hqueue
  · exact h.ordered.not_before (mem_append_right _ ha) (mem_append_right _ hb) hpre
  · exact h.ordered.not_before (mem_append_left _ ha) (mem_append_right _ hb) hpre
  · exact h.ordered.startedDelayed x hx b hb hpre
  · exact h.ordered.startedDeferred a ha b hb hpre hab

/-- In every run in which DoWork and DoDelayedWork come to no task at depth 1 while one is deferred
that it has to start behind, a task that is posted after another with an equal or larger delay
starts after it, and in the outermost loop after its end. -/
theorem sequenced_order {as : List State.Action} (h : run step as (.create now) = some s)
    (hbehind : EachStep step DeferredBehind as (.create now)) {a b : PendingTask}
    (ha : a ∈ s.accepted) (hb : b ∈ s.starts) (hab : Precedes a b) :
    a ∈ s.starts ∧ (s.stack = [.task b, .run] → a ∈ s.finished) := by
  have hinv : InOrder s :=
    run_invariant_of_each (fun _ _ _ hs hcond hstep => hs.step hcond hstep) h hbehind (.create now)
  have hstarted := hinv.started_of_precedes ha hb hab
  refine ⟨hstarted, fun hstack => ?_⟩
  have hcount := hinv.stack a
  have hpos := count_pos_iff.mpr hstarted
  have hne : a ≠ b := by
    rintro rfl
    have := hinv.posted.before a ha
    have := hab.1
    omega
  have hempty : [Frame.task b, .run].count (.task a) = 0 := by
    simp [hne.symm]
  rw [hstack, hempty] at hcount
  exact count_pos_iff.mp (by omega)

/-- Two non-nestable tasks are posted. -/
def twoPosts : List State.Action :=
  [.post 0 false 0, .addToIncomingQueue 0, .post 1 false 0, .addToIncomingQueue 0, .run]

theorem sequenced_order_two : ∃ s,
    run step (twoPosts ++ [.doWork, .finishTask, .doWork]) (.create 1) = some s ∧
    ⟨0, 0, false, 0, 0, 1, 0⟩ ∈ s.finished ∧ ⟨1, 0, false, 1, 1, 1, 0⟩ ∈ s.starts := by
  have hcalls : ∀ a ∈ twoPosts, ∀ s, DeferredBehind s a := by
    intro a ha s
    simp only [twoPosts, mem_cons, not_mem_nil, or_false] at ha
    obtain rfl | rfl | rfl | rfl | rfl := ha <;> exact ⟨nofun, nofun⟩
  have hbehind : EachStep step DeferredBehind (twoPosts ++ [.doWork, .finishTask, .doWork])
      (.create 1) := by
    refine eachStep_append (eachStep_of_forall hcalls _) fun s hs => ?_
    cases hs
    refine ⟨⟨fun _ _ _ _ _ _ => nofun, nofun⟩, fun t ht => ⟨⟨nofun, nofun⟩, fun u hu => ?_⟩⟩
    cases ht
    cases hu
    exact ⟨⟨fun _ _ _ _ _ _ => nofun, nofun⟩, fun _ _ => trivial⟩
  have horder := @sequenced_order _ 1 (twoPosts ++ [.doWork, .finishTask, .doWork]) rfl hbehind
    ⟨0, 0, false, 0, 0, 1, 0⟩ ⟨1, 0, false, 1, 1, 1, 0⟩ (by decide) (by decide)
    ⟨by decide, by decide, .inl rfl⟩
  exact ⟨_, rfl, horder.2 rfl, by decide⟩

/-- A non-nestable task is deferred in a nested loop, and one posted later starts before it. -/
theorem sequenced_disorder : ∃ s,
    run step [.post 0 true 0, .addToIncomingQueue 0, .run, .doWork,
      .setNestableTasksAllowed true, .run, .post 1 false 0, .addToIncomingQueue 0, .doWork, .endRun,
      .post 2 false 0, .addToIncomingQueue 0, .finishTask, .doWork] (.create 1) = some s ∧
    ∃ a ∈ s.accepted, ∃ b ∈ s.starts, Precedes a b ∧ a ∉ s.starts :=
  ⟨_, rfl, ⟨1, 0, false, 1, 1, 1, 0⟩, by decide, ⟨2, 0, false, 2, 2, 1, 0⟩, by decide,
    ⟨by decide, by decide, .inl rfl⟩, by decide⟩

end ChromiumUI.MessageLoop
