import ChromiumUI.SequencedWorkerPool

/-!
# Every step of the pool keeps its books

One lemma for each thing a thread does, and from them the books of every run.
-/
namespace ChromiumUI.WorkerPool

open Slots Runs List Nat Worker State

variable {s t : State}

variable {i : Nat} {w : Worker}

theorem Inv.created_pos (h : Inv s) (hi : s.workers[i]? = some w) (hw : w.makesThread = true) :
    s.inner.threadBeingCreated = true := by
  have := countP_pos_of_getElem? hi hw
  have hcreation := h.creation
  split at hcreation
  · assumption
  · omega

/-! ## A turn of the loop -/

variable {task : SequencedTask}

/-- The worker that has taken a task asks whether another thread helps. -/
theorem Inv.prepare (h : Inv s) (hi : s.workers[i]? = some (.claimed task 0)) :
    Inv { s.setWorker i
        (.claimed task s.inner.prepareToStartAdditionalThreadIfHelpful.1) with
      inner := s.inner.prepareToStartAdditionalThreadIfHelpful.2 } := by
  obtain ⟨hhelpful, heq⟩ | ⟨-, heq⟩ := s.inner.prepare_cases
  · obtain ⟨-, hcreated, hroom, -⟩ := hhelpful
    rw [heq]
    refine h.replace hi rfl rfl rfl ?_ hroom (fun _ _ => rfl) rfl (fun x => ?_)
    · rw [hcreated]
      rfl
    · simp
  · rw [heq]
    exact h.setWorker hi ⟨rfl, rfl, rfl, rfl, rfl, fun _ => Iff.rfl⟩

theorem getElem?_setWorker (hi : s.workers[i]? = some w) (w' : Worker) :
    (s.setWorker i w').workers[i]? = some w' := by
  obtain ⟨hlt, -⟩ := List.getElem?_eq_some_iff.mp hi
  exact getElem?_set_self hlt

theorem Inv.turn (h : Inv s) (hi : s.workers[i]? = some .exited) : Inv (s.turn i) := by
  rcases hscan : s.inner.scan s.inner.pendingTasks with ⟨found, kept, deleted⟩
  have heq := Inner.getWork_eq hscan
  unfold State.turn
  rw [heq]
  cases found with
  | some task =>
    have hclaim := h.claim hi hscan
    have hprepare := hclaim.prepare (getElem?_setWorker hi (.claimed task 0))
    simp only [State.setWorker, set_set] at hprepare
    exact hprepare
  | none =>
    have hwork := h.getWork hscan
    dsimp only [Option.toList_none, length_nil, countP_nil, Nat.sub_zero]
    split
    · exact hwork.setWorker hi ⟨rfl, rfl, rfl, rfl, rfl, fun _ => by simp⟩
    · exact hwork.replace hi rfl rfl rfl rfl hwork.max (fun _ _ => rfl) rfl (fun _ => by simp)

/-- A turn does not depend on the stage that it ends. -/
theorem turn_setWorker (i : Nat) (w : Worker) : (s.setWorker i w).turn i = s.turn i := by
  unfold turn setWorker
  simp only [set_set]

/-- The books in front of a turn of worker `i`: it has the lock, and no stage. -/
inductive AtLock (s : State) (i : Nat) : State → Prop
  | enter : s.workers[i]? = some .starting →
    AtLock s i ({ s with inner := { s.inner with
      threadBeingCreated := false, threads := s.inner.threads + 1 } }.setWorker i .exited)
  | resume : s.workers[i]? = some .woken →
    AtLock s i ({ s with inner := { s.inner with
      waitingThreadCount := s.inner.waitingThreadCount - 1 } }.setWorker i .exited)
  | didRunTask (task : SequencedTask) : s.workers[i]? = some (.ran task) →
    AtLock s i ({ s with inner := s.inner.didRunWorkerTask task }.setWorker i .exited)

/-- The token of a task that a worker holds is in use. -/
theorem Inv.mem_sequences (h : Inv s) (hi : s.workers[i]? = some w) (htask : w.task = some task)
    (hne : task.sequenceTokenId ≠ 0) : task.sequenceTokenId ∈ s.inner.currentSequences := by
  have hholds : w.holds task.sequenceTokenId = true := by simp [holds, htask]
  have := countP_pos_of_getElem? hi hholds
  have hseqs := h.sequences _ hne
  split at hseqs
  · assumption
  · omega

theorem Inv.didRunTask (h : Inv s) (hi : s.workers[i]? = some (.ran task)) :
    Inv ({ s with inner := s.inner.didRunWorkerTask task }.setWorker i .exited) := by
  have hblk : task.blocks = true → 0 < s.inner.blockingShutdownThreadCount := by
    intro hblk
    rw [h.threadBlocks]
    exact countP_pos_of_getElem? hi hblk
  have hmem := h.mem_sequences hi rfl
  refine h.replace hi ?_ rfl rfl rfl h.max (fun token htoken => ?_) rfl (fun _ => by simp)
  · show _ + (if task.blocks then 1 else 0) = s.inner.blockingShutdownThreadCount + 0
    split
    · have := hblk ‹_›
      omega
    · rfl
  · show _ + (if (task.sequenceTokenId == token) = true then 1 else 0) = _ + 0
    by_cases htask : task.sequenceTokenId = token
    · subst htask
      simp [htoken, hmem htoken]
    · have hmem : token ∈ (if task.sequenceTokenId ≠ 0 then
          s.inner.currentSequences.erase task.sequenceTokenId else s.inner.currentSequences) ↔
            token ∈ s.inner.currentSequences := by
        split
        · rw [Finset.mem_erase]
          exact and_iff_right (Ne.symm htask)
        · rfl
      simp only [hmem, beq_iff_eq, htask, if_false]

theorem Inv.atLock (h : Inv s) (hlock : AtLock s i t) : Inv t := by
  cases hlock with
  | enter hi =>
    have hcreated := h.created_pos hi rfl
    have hmax := h.max
    rw [hcreated] at hmax
    refine h.replace hi rfl rfl rfl ?_ hmax (fun _ _ => rfl) rfl (fun _ => by simp)
    rw [hcreated]
    rfl
  | resume hi =>
    have hpos : 0 < s.inner.waitingThreadCount := by
      rw [h.waiting]
      exact countP_pos_of_getElem? hi rfl
    refine h.replace hi rfl ?_ rfl rfl h.max (fun _ _ => rfl) rfl (fun _ => by simp)
    show s.inner.waitingThreadCount - 1 + 1 = s.inner.waitingThreadCount + 0
    omega
  | didRunTask task hi => exact h.didRunTask hi

theorem atLock_exited (hlock : AtLock s i t) : t.workers[i]? = some .exited := by
  cases hlock with
  | enter hi | resume hi | didRunTask _ hi => exact getElem?_setWorker hi _

theorem Inv.turnAtLock (h : Inv s) {u : State} (hlock : AtLock s i u) : Inv (u.turn i) :=
  (h.atLock hlock).turn (atLock_exited hlock)

/-! ## Around a task -/

/-- No two workers hold tasks of one token. -/
theorem Inv.holder_unique (h : Inv s) {j : Nat} {v : Worker} {a b : SequencedTask}
    (hi : s.workers[i]? = some v) (hj : s.workers[j]? = some w) (ha : v.task = some a)
    (hb : w.task = some b) (htoken : a.sequenceTokenId = b.sequenceTokenId)
    (hne : a.sequenceTokenId ≠ 0) : i = j := by
  refine index_unique (p := holds a.sequenceTokenId) ?_ hi hj ?_ ?_
  · rw [h.sequences _ hne]
    split <;> decide
  · simp [holds, ha]
  · simp [holds, hb, htoken]

theorem task_of_unstarted (h : w.unstarted = some task) : w.task = some task := by
  cases w <;> cases h <;> rfl

/-- What a stage and the next agree on is counted as before. -/
theorem countP_setWorker (hi : s.workers[i]? = some w) (w' : Worker) {p : Worker → Bool}
    (hp : p w = p w') : s.workers.countP p = (s.setWorker i w').workers.countP p :=
  (countP_set_of_eq hi hp).symm

theorem Inv.startTask (h : Inv s) {i : Nat} {task : SequencedTask}
    (hi : s.workers[i]? = some (.ready task)) :
    Inv { s.setWorker i (.running task) with started := s.started ++ [task] } := by
  have hnew := h.unstarted _ (mem_of_getElem? hi) task rfl
  exact { h with
    threadBlocks := h.threadBlocks.trans (countP_setWorker hi (running task) rfl)
    waiting := h.waiting.trans (countP_setWorker hi (running task) rfl)
    threads := h.threads.trans (countP_setWorker hi (running task) rfl)
    creation := by
      have := h.creation
      rwa [countP_setWorker hi (running task) rfl] at this
    sequences := fun token htoken =>
      (countP_setWorker hi (running task) rfl).symm.trans (h.sequences token htoken)
    conserved := by
      intro x
      have := h.conserved x
      have hset := @countP_set_lose _ _ i _ (running task)
        (fun w => w.unstarted == some x) hi rfl
      have hold : ((ready task).unstarted == some x) = (task == x) := rfl
      rw [hold] at hset
      unfold State.setWorker
      dsimp only
      rw [count_append, count_singleton]
      omega
    progress := by
      intro x
      have := h.progress x
      have hset := @countP_set_gain _ _ i _ (running task) (· == .running x) hi rfl
      have hnew : (running task == .running x) = (task == x) := by
        rw [Bool.eq_iff_iff, beq_iff_eq, beq_iff_eq]
        exact ⟨running.inj, congrArg _⟩
      rw [hnew] at hset
      unfold State.setWorker
      dsimp only
      rw [count_append, count_singleton]
      omega
    startedSorted := by
      refine pairwise_append.mpr ⟨h.startedSorted, pairwise_singleton _ _, ?_⟩
      intro a ha b hb
      obtain rfl := mem_singleton.mp hb
      exact hnew.1 a ha
    startedPending := by
      intro a ha b hb
      obtain ha | ha := mem_append.mp ha
      · exact h.startedPending a ha b hb
      · obtain rfl := mem_singleton.mp ha
        exact hnew.2 b hb
    unstarted := by
      intro w hw other hother
      obtain ⟨j, hj⟩ := mem_iff_getElem?.mp hw
      by_cases hij : i = j
      · subst hij
        rw [getElem?_setWorker hi] at hj
        cases hj
        cases hother
      · replace hj : s.workers[j]? = some w := by
          rwa [State.setWorker, getElem?_set_ne hij] at hj
        have hkept := h.unstarted w (mem_of_getElem? hj) other hother
        refine ⟨fun a ha => ?_, hkept.2⟩
        obtain ha | ha := mem_append.mp ha
        · exact hkept.1 a ha
        · -- the started task would share its token with another worker
          obtain rfl := mem_singleton.mp ha
          intro htoken hne
          exact absurd (h.holder_unique hi hj rfl (task_of_unstarted hother) htoken hne) hij }

theorem Inv.finishTask (h : Inv s) {i : Nat} {task : SequencedTask}
    (hi : s.workers[i]? = some (.running task)) :
    Inv { s.setWorker i (.ran task) with finished := s.finished ++ [task] } :=
  { h with
    threadBlocks := h.threadBlocks.trans (countP_setWorker hi (ran task) rfl)
    waiting := h.waiting.trans (countP_setWorker hi (ran task) rfl)
    threads := h.threads.trans (countP_setWorker hi (ran task) rfl)
    creation := by
      have := h.creation
      rwa [countP_setWorker hi (ran task) rfl] at this
    sequences := fun token htoken =>
      (countP_setWorker hi (ran task) rfl).symm.trans (h.sequences token htoken)
    conserved := by
      intro x
      have := h.conserved x
      rwa [countP_setWorker hi (ran task) rfl] at this
    progress := by
      intro x
      have := h.progress x
      have hset := @countP_set_lose _ _ i _ (ran task) (· == .running x) hi rfl
      have hold : (running task == .running x) = (task == x) := by
        rw [Bool.eq_iff_iff, beq_iff_eq, beq_iff_eq]
        exact ⟨running.inj, congrArg _⟩
      rw [hold] at hset
      unfold State.setWorker
      dsimp only
      rw [count_append, count_singleton]
      omega
    unstarted := forall_mem_set h.unstarted nofun }

/-! ## Posting -/

section

variable (h : Inv s)
include h

theorem mem_accepted_of_count
    (hpos : 0 < s.inner.pendingTasks.count task + s.workers.countP (·.unstarted == some task) +
      s.started.count task + s.deleted.count task) : task ∈ s.accepted := by
  rw [← h.conserved] at hpos
  exact count_pos_iff.mp hpos

theorem Inv.pending_lt (htask : task ∈ s.inner.pendingTasks) : task.id < s.posted := by
  have := count_pos_iff.mpr htask
  exact h.acceptedPosted task (mem_accepted_of_count h (by omega))

theorem Inv.started_lt (htask : task ∈ s.started) : task.id < s.posted := by
  have := count_pos_iff.mpr htask
  exact h.acceptedPosted task (mem_accepted_of_count h (by omega))

theorem Inv.unstarted_lt (hw : w ∈ s.workers) (htask : w.unstarted = some task) :
    task.id < s.posted := by
  have : 0 < s.workers.countP (·.unstarted == some task) :=
    countP_pos_iff.mpr ⟨w, hw, by simp [htask]⟩
  exact h.acceptedPosted task (mem_accepted_of_count h (by omega))

/-- The critical section of PostTask up to the question for another thread. -/
theorem Inv.push (hid : task.id = s.posted) :
    Inv { s with
      inner := { s.inner with
        pendingTasks := s.inner.pendingTasks ++ [task]
        pendingTaskCount := s.inner.pendingTaskCount + 1
        blockingShutdownPendingTaskCount :=
          if task.blocks then s.inner.blockingShutdownPendingTaskCount + 1
          else s.inner.blockingShutdownPendingTaskCount }
      posted := s.posted + 1
      accepted := s.accepted ++ [task] } :=
  { h with
    pendingCount := by
      have := h.pendingCount
      dsimp only
      rw [length_append, length_singleton]
      omega
    pendingBlocks := by
      have := h.pendingBlocks
      dsimp only
      rw [countP_append, countP_singleton]
      split <;> omega
    conserved := by
      intro x
      have := h.conserved x
      dsimp only
      rw [count_append, count_append]
      omega
    acceptedSorted := by
      refine pairwise_append.mpr ⟨h.acceptedSorted, pairwise_singleton _ _, ?_⟩
      intro a ha b hb
      obtain rfl := mem_singleton.mp hb
      rw [hid]
      exact h.acceptedPosted a ha
    acceptedPosted := by
      intro a ha
      obtain ha | ha := mem_append.mp ha
      · exact lt_succ_of_lt (h.acceptedPosted a ha)
      · obtain rfl := mem_singleton.mp ha
        exact hid ▸ lt_succ_self _
    rejectedPosted := by
      intro a ha
      obtain ⟨hlt, hother⟩ := h.rejectedPosted a ha
      refine ⟨lt_succ_of_lt hlt, fun b hb => ?_⟩
      obtain hb | hb := mem_append.mp hb
      · exact hother b hb
      · obtain rfl := mem_singleton.mp hb
        omega
    pendingSorted := by
      refine pairwise_append.mpr ⟨h.pendingSorted, pairwise_singleton _ _, ?_⟩
      intro a ha b hb
      obtain rfl := mem_singleton.mp hb
      rw [hid]
      exact h.pending_lt ha
    startedPending := by
      intro a ha b hb
      obtain hb | hb := mem_append.mp hb
      · exact h.startedPending a ha b hb
      · obtain rfl := mem_singleton.mp hb
        exact fun _ _ => hid ▸ h.started_lt ha
    unstarted := by
      intro w hw other hother
      refine ⟨(h.unstarted w hw other hother).1, fun b hb => ?_⟩
      obtain hb | hb := mem_append.mp hb
      · exact (h.unstarted w hw other hother).2 b hb
      · obtain rfl := mem_singleton.mp hb
        exact fun _ _ => hid ▸ h.unstarted_lt hw hother }

/-- The call of PostTask asks whether another thread helps. -/
theorem Inv.preparePoster :
    Inv { s with
      inner := s.inner.prepareToStartAdditionalThreadIfHelpful.2
      posters := s.posters ++
        [if s.inner.prepareToStartAdditionalThreadIfHelpful.1 ≠ 0 then .creating
          else .signalling] } := by
  have hcreation := h.creation
  obtain ⟨hhelpful, heq⟩ | ⟨-, heq⟩ := s.inner.prepare_cases
  · obtain ⟨-, hcreated, hroom, -⟩ := hhelpful
    rw [hcreated] at hcreation
    rw [heq]
    exact { h with
      creation := by
        simp only [ne_eq, add_one_ne_zero, not_false_eq_true, if_true, countP_append,
          countP_singleton, beq_self_eq_true]
        simp only [Bool.false_eq_true, if_false] at hcreation
        omega
      max := hroom }
  · rw [heq]
    exact { h with
      creation := by
        simp only [ne_eq, not_true_eq_false, if_false, countP_append, countP_singleton]
        exact hcreation }

end

/-- A new name changes nothing that the books speak of. -/
theorem lockedGetNamedTokenID_snd (p : Inner) (name : String) :
    ∃ number names, (p.lockedGetNamedTokenID name).2 =
      { p with lastSequenceNumber := number, namedSequenceTokens := names } := by
  unfold Inner.lockedGetNamedTokenID
  split <;> exact ⟨_, _, rfl⟩

theorem Inv.name (h : Inv s) (number : Int) (names : List (String × Int)) :
    Inv { s with inner := { s.inner with
      lastSequenceNumber := number, namedSequenceTokens := names } } :=
  { h with }

theorem Inv.accept (h : Inv s) {task : SequencedTask} (hid : task.id = s.posted) :
    Inv { s with
      inner := (s.inner.accept task).2
      posted := s.posted + 1
      accepted := s.accepted ++ [task]
      posters := s.posters ++
        [if (s.inner.accept task).1 ≠ 0 then .creating else .signalling] } :=
  (h.push hid).preparePoster

theorem Inv.reject (h : Inv s) (hid : task.id = s.posted) :
    Inv { s with posted := s.posted + 1, rejected := s.rejected ++ [task] } :=
  { h with
    acceptedPosted := fun a ha => lt_succ_of_lt (h.acceptedPosted a ha)
    rejectedPosted := by
      intro a ha
      obtain ha | ha := mem_append.mp ha
      · exact ⟨lt_succ_of_lt (h.rejectedPosted a ha).1, (h.rejectedPosted a ha).2⟩
      · obtain rfl := mem_singleton.mp ha
        refine ⟨hid ▸ lt_succ_self _, fun b hb => ?_⟩
        have := h.acceptedPosted b hb
        omega }

theorem Inv.postTask (h : Inv s) (optionalTokenName : Option String) (sequenceToken : Int)
    (shutdownBehavior : WorkerShutdown) :
    Inv (s.postTask optionalTokenName sequenceToken shutdownBehavior) := by
  unfold State.postTask
  split
  · exact h.reject rfl
  · cases optionalTokenName with
    | none => exact h.accept rfl
    | some name =>
      obtain ⟨number, names, heq⟩ := lockedGetNamedTokenID_snd s.inner name
      have haccept := @Inv.accept _ (h.name number names)
        ⟨s.posted, (s.inner.lockedGetNamedTokenID name).1, shutdownBehavior⟩ rfl
      rw [← heq] at haccept
      exact haccept

/-! ## New threads -/

/-- The one thread that was to be created stands in front of the lock. -/
theorem Inv.startThread (h : Inv s) {posters : List Poster} {workers : List Worker}
    (hmakes : posters.countP (· == .creating) + workers.countP Worker.makesThread + 1 =
      s.posters.countP (· == .creating) + s.workers.countP Worker.makesThread)
    (hcount : ∀ p : Worker → Bool, (∀ task, p (.creating task) = p (.ready task)) →
      workers.countP p = s.workers.countP p) :
    Inv { s with posters := posters, workers := workers ++ [.starting] } := by
  have happ : ∀ p : Worker → Bool, (∀ task, p (.creating task) = p (.ready task)) →
      p .starting = false → (workers ++ [starting]).countP p = s.workers.countP p := by
    intro p hp hstarting
    rw [countP_append, countP_singleton, hstarting, hcount p hp]
    rfl
  exact { h with
    threadBlocks := h.threadBlocks.trans (happ _ (fun _ => rfl) rfl).symm
    waiting := h.waiting.trans (happ _ (fun _ => rfl) rfl).symm
    threads := h.threads.trans (happ _ (fun _ => rfl) rfl).symm
    creation := by
      have := h.creation
      rw [countP_append, countP_singleton]
      simp only [makesThread, if_true]
      omega
    sequences := fun token htoken => (happ _ (fun _ => rfl) rfl).trans (h.sequences token htoken)
    conserved := by
      intro x
      have := happ (·.unstarted == some x) (fun _ => rfl) rfl
      have := h.conserved x
      dsimp only
      omega
    progress := by
      intro x
      have := happ (· == .running x) (fun _ => rfl) rfl
      have := h.progress x
      dsimp only
      omega
    unstarted := by
      intro w hw task htask
      have hpos : 0 < (workers ++ [starting]).countP (fun w => w.unstarted == some task) :=
        countP_pos_iff.mpr ⟨w, hw, beq_iff_eq.mpr htask⟩
      rw [happ (fun w => w.unstarted == some task) (fun _ => rfl) rfl] at hpos
      obtain ⟨v, hv, htask⟩ := countP_pos_iff.mp hpos
      exact h.unstarted v hv task (beq_iff_eq.mp htask) }

theorem Inv.posterStartsThread (h : Inv s) {k : Nat} (hk : s.posters[k]? = some .creating) :
    Inv { s with posters := s.posters.eraseIdx k, workers := s.workers ++ [.starting] } := by
  refine h.startThread ?_ fun _ _ => rfl
  have := countP_eraseIdx_add (· == .creating) hk
  simp only [beq_self_eq_true, if_true] at this
  omega

theorem Inv.workerStartsThread (h : Inv s) {i : Nat} {task : SequencedTask}
    (hi : s.workers[i]? = some (.creating task)) :
    Inv { s with workers := s.workers.set i (.ready task) ++ [.starting] } := by
  refine @Inv.startThread _ h s.posters _ ?_ fun p hp => countP_set_of_eq hi (hp task)
  have := @countP_set_lose _ _ i _ (ready task) makesThread hi rfl
  simp only [makesThread, if_true] at this
  omega

theorem Inv.posterSignals (h : Inv s) {k : Nat} (hk : s.posters[k]? = some .signalling) :
    Inv { s with posters := s.posters.eraseIdx k } :=
  { h with
    creation := by
      have := countP_eraseIdx_add (· == .creating) hk
      have hsignalling : (Poster.signalling == .creating) = false := rfl
      rw [hsignalling] at this
      have := h.creation
      simp only [Bool.false_eq_true, if_false] at *
      omega }

/-! ## Every step -/

/-- What a step does, guards included: one case for every branch of the step function. -/
inductive Moves (s : State) : State.Action → State → Prop
  | name {a : State.Action} (number : Int) (names : List (String × Int)) :
    Moves s a { s with inner := { s.inner with
      lastSequenceNumber := number, namedSequenceTokens := names } }
  | postTask (optionalTokenName : Option String) (sequenceToken : Int)
      (shutdownBehavior : WorkerShutdown) :
    Moves s (.postTask optionalTokenName sequenceToken shutdownBehavior)
      (s.postTask optionalTokenName sequenceToken shutdownBehavior)
  | posterStartsThread {k : Nat} {wake : Option Nat} : s.posters[k]? = some .creating →
    Moves s (.finishPostTask k wake)
      { s with posters := s.posters.eraseIdx k, workers := s.workers ++ [.starting] }
  | posterSignals {k : Nat} {wake : Option Nat} {t : State} : s.posters[k]? = some .signalling →
    { s with posters := s.posters.eraseIdx k }.signalHasWork wake = some t →
    Moves s (.finishPostTask k wake) t
  | turn {a : State.Action} {i : Nat} {u : State} : AtLock s i u → Moves s a (u.turn i)
  | wakeSpuriously {i : Nat} : s.workers[i]? = some .waiting →
    Moves s (.wakeSpuriously i) (s.setWorker i .woken)
  | signalHasWork {i newThreadId : Nat} {task : SequencedTask} {wake : Option Nat} {t : State} :
    s.workers[i]? = some (.claimed task newThreadId) →
    (s.setWorker i (if newThreadId ≠ 0 then .creating task else .ready task)).signalHasWork wake =
      some t →
    Moves s (.signalHasWork i wake) t
  | workerStartsThread {i : Nat} {task : SequencedTask} : s.workers[i]? = some (.creating task) →
    Moves s (.finishStartingAdditionalThread i)
      { s with workers := s.workers.set i (.ready task) ++ [.starting] }
  | startTask {i : Nat} {task : SequencedTask} : s.workers[i]? = some (.ready task) →
    Moves s (.startTask i) { s.setWorker i (.running task) with started := s.started ++ [task] }
  | finishTask {i : Nat} {task : SequencedTask} : s.workers[i]? = some (.running task) →
    Moves s (.finishTask i) { s.setWorker i (.ran task) with finished := s.finished ++ [task] }
  | signalExit {i : Nat} {wake : Option Nat} {t : State} : s.workers[i]? = some .exiting →
    (s.setWorker i .leaving).signalHasWork wake = some t → Moves s (.signalExit i wake) t
  | signalCanShutdown {i : Nat} : s.workers[i]? = some .leaving →
    Moves s (.signalCanShutdown i) { s.setWorker i .exited with
      shutdown := if s.shutdown = .waiting then .checking else s.shutdown }
  | shutdownAgain {wake : Option Nat} : s.inner.shutdownCalled = true → Moves s (.shutdown wake) s
  | shutdown {wake : Option Nat} {t : State} : ¬s.inner.shutdownCalled = true →
    { s with
      inner := { s.inner with shutdownCalled := true }
      shutdown := if s.inner.canShutdown then .returned else .checking }.signalHasWork wake =
        some t →
    Moves s (.shutdown wake) t
  | wakeShutdownSpuriously : s.shutdown = .waiting →
    Moves s .wakeShutdownSpuriously { s with shutdown := .checking }
  | checkShutdown : s.shutdown = .checking →
    Moves s .checkShutdown
      { s with shutdown := if s.inner.canShutdown then .returned else .waiting }

theorem moves_of_step {a : State.Action} (hstep : s.step a = some t) : Moves s a t := by
  cases a with
  | getSequenceToken =>
    cases hstep
    exact .name _ _
  | getNamedSequenceToken name =>
    cases hstep
    obtain ⟨number, names, heq⟩ := lockedGetNamedTokenID_snd s.inner name
    rw [heq]
    exact .name number names
  | postTask optionalTokenName sequenceToken shutdownBehavior =>
    cases hstep
    exact .postTask _ _ _
  | finishPostTask k wake =>
    simp only [step] at hstep
    split at hstep
    · cases hstep
      exact .posterStartsThread ‹_›
    · exact .posterSignals ‹_› hstep
    · cases hstep
  | shutdown wake =>
    simp only [step] at hstep
    split at hstep
    · cases hstep
      exact .shutdownAgain ‹_›
    · exact .shutdown ‹_› hstep
  | _ =>
    simp only [step] at hstep
    split at hstep
    · rename_i hguard
      -- a worker that takes the lock starts its turn there; the rest are cases of their own
      first
        | exact .signalHasWork hguard hstep
        | exact .signalExit hguard hstep
        | cases hstep
          first
            | exact turn_setWorker _ .exited ▸ .turn (.enter hguard)
            | exact turn_setWorker _ .exited ▸ .turn (.resume hguard)
            | exact turn_setWorker _ .exited ▸ .turn (.didRunTask _ hguard)
            | constructor
              exact hguard
    · cases hstep

/-- Shutdown, and what goes on around it, is not in the books. -/
theorem Inv.shutdown (h : Inv s) (called : Bool) (shutdown : ShutdownCall) :
    Inv { s with inner := { s.inner with shutdownCalled := called }, shutdown := shutdown } :=
  { h with }

theorem Inv.step (h : Inv s) {a : State.Action} (hstep : s.step a = some t) : Inv t := by
  cases moves_of_step hstep with
  | name number names => exact h.name number names
  | postTask => exact h.postTask _ _ _
  | posterStartsThread hk => exact h.posterStartsThread hk
  | posterSignals hk hsig => exact (h.posterSignals hk).signalHasWork hsig
  | turn hlock => exact h.turnAtLock hlock
  | wakeSpuriously hi => exact h.setWorker hi woken_same
  | signalHasWork hi hsig =>
    refine Inv.signalHasWork ?_ hsig
    split
    · rename_i hnew
      exact h.setWorker hi ⟨rfl, rfl, rfl, rfl, by simp [makesThread, hnew],
        fun _ => by simp⟩
    · rename_i hnew
      exact h.setWorker hi ⟨rfl, rfl, rfl, rfl, by simpa [makesThread] using hnew,
        fun _ => by simp⟩
  | workerStartsThread hi => exact h.workerStartsThread hi
  | startTask hi => exact h.startTask hi
  | finishTask hi => exact h.finishTask hi
  | signalExit hi hsig => exact (h.setWorker hi exiting_same).signalHasWork hsig
  | signalCanShutdown hi => exact (h.setWorker hi leaving_same).shutdown _ _
  | shutdownAgain => exact h
  | shutdown _ hsig => exact (h.shutdown true _).signalHasWork hsig
  | wakeShutdownSpuriously => exact h.shutdown _ _
  | checkShutdown => exact h.shutdown _ _

/-- The books of every run. -/
theorem inv_run {maxThreads : Nat} {as : List State.Action}
    (h : run step as (.create maxThreads) = some s) : Inv s :=
  run_invariant (fun _ _ _ hs hstep => hs.step hstep) h (.create maxThreads)

end ChromiumUI.WorkerPool
