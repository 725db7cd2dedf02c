import ChromiumUI.WorkerPoolWakeups

/-!
# The order in which the pool runs its tasks

What the books of a run say of the tasks: their order, how often they start, and where an
accepted task is.
-/
namespace ChromiumUI.WorkerPool

open Slots Runs List

variable {s t : State}

/-! ## Where an accepted task is -/

theorem Inv.accepted_nodup (h : Inv s) : s.accepted.Nodup :=
  h.acceptedSorted.imp fun hlt heq => by simp [heq] at hlt

theorem Inv.accepted_id_inj (h : Inv s) {a b : SequencedTask} (ha : a ∈ s.accepted)
    (hb : b ∈ s.accepted) (hid : a.id = b.id) : a = b := by
  have hnodup : (s.accepted.map SequencedTask.id).Nodup := by
    rw [List.Nodup, pairwise_map]
    exact h.acceptedSorted.imp Nat.ne_of_lt
  exact inj_on_of_nodup_map hnodup ha hb hid

theorem Inv.started_subset (h : Inv s) {task : SequencedTask} (htask : task ∈ s.started) :
    task ∈ s.accepted := by
  have := count_pos_iff.mpr htask
  exact mem_accepted_of_count h (by omega)

theorem Inv.started_nodup (h : Inv s) : (s.started.map SequencedTask.id).Nodup := by
  have hnodup : s.started.Nodup := by
    rw [nodup_iff_count_le_one]
    intro task
    have := nodup_iff_count_le_one.mp h.accepted_nodup task
    have := h.conserved task
    omega
  refine hnodup.map_on fun a ha b hb hid => ?_
  exact h.accepted_id_inj (h.started_subset ha) (h.started_subset hb) hid

/-- An accepted task that is not pending has been taken by a worker, or it has been deleted. -/
theorem Inv.accepted_cases (h : Inv s) {task : SequencedTask} (htask : task ∈ s.accepted) :
    task ∈ s.inner.pendingTasks ∨ (∃ w ∈ s.workers, w.unstarted = some task) ∨
      task ∈ s.started ∨ task ∈ s.deleted := by
  have hpos := count_pos_iff.mpr htask
  rw [h.conserved] at hpos
  by_cases hpend : task ∈ s.inner.pendingTasks
  · exact .inl hpend
  by_cases hstart : task ∈ s.started
  · exact .inr (Or.inr (Or.inl hstart))
  by_cases hdel : task ∈ s.deleted
  · exact .inr (Or.inr (Or.inr hdel))
  rw [count_eq_zero.mpr hpend, count_eq_zero.mpr hstart,
    count_eq_zero.mpr hdel, Nat.zero_add] at hpos
  obtain ⟨w, hw, htask⟩ := countP_pos_iff.mp hpos
  exact .inr (Or.inl ⟨w, hw, beq_iff_eq.mp htask⟩)

/-! ## Sequences -/

/-- In every run the tasks of one token start in the order of their posts and never two at a time,
no task starts twice, no rejected task starts, no accepted task that blocks the shutdown is
dropped, and there are never more threads than the pool may have. -/
theorem sequencing {maxThreads : Nat} {as : List State.Action}
    (h : run State.step as (.create maxThreads) = some s) :
    s.started.Pairwise (fun a b =>
      a.sequenceTokenId = b.sequenceTokenId → a.sequenceTokenId ≠ 0 → a.id < b.id) ∧
    (∀ (i j : Nat) a b, s.workers[i]? = some (Worker.running a) →
      s.workers[j]? = some (Worker.running b) →
      a.sequenceTokenId = b.sequenceTokenId → a.sequenceTokenId ≠ 0 → i = j) ∧
    (s.started.map SequencedTask.id).Nodup ∧
    (∀ a ∈ s.started, a ∈ s.accepted ∧ ∀ b ∈ s.rejected, a.id ≠ b.id) ∧
    (∀ task ∈ s.accepted, task.shutdownBehavior = .blockShutdown →
      task ∉ s.deleted ∧ (task ∈ s.inner.pendingTasks ∨
        (∃ w ∈ s.workers, w.unstarted = some task) ∨ task ∈ s.started)) ∧
    s.inner.threads + (if s.inner.threadBeingCreated then 1 else 0) ≤ s.inner.maxThreads ∧
    s.inner.threads = s.workers.countP Worker.entered := by
  have hinv := inv_run h
  refine ⟨hinv.startedSorted, fun i j a b hi hj htoken hne => ?_, hinv.started_nodup,
    fun a ha => ⟨hinv.started_subset ha, fun b hb => ?_⟩, fun task htask hblocks => ?_,
    hinv.max, hinv.threads⟩
  · exact hinv.holder_unique hi hj rfl rfl htoken hne
  · exact (hinv.rejectedPosted b hb).2 a (hinv.started_subset ha)
  · have hkept : task ∉ s.deleted := by
      intro hdeleted
      have hfree := hinv.deletedFree task hdeleted
      simp [SequencedTask.blocks, hblocks] at hfree
    obtain hpending | htaken | hstarted | hdeleted := hinv.accepted_cases htask
    · exact ⟨hkept, .inl hpending⟩
    · exact ⟨hkept, .inr (Or.inl htaken)⟩
    · exact ⟨hkept, .inr (Or.inr hstarted)⟩
    · exact absurd hdeleted hkept

/-- The first task of a named sequence runs while a second worker passes its second task over. -/
def namedRun : List State.Action :=
  [.postTask (some "a") 0 .blockShutdown, .postTask (some "a") 0 .skipOnShutdown,
    .finishPostTask 0 none, .enter 0, .signalHasWork 0 none, .startTask 0,
    .postTask none 0 .continueOnShutdown, .finishPostTask 1 none, .enter 1, .signalHasWork 1 none,
    .startTask 1]

theorem sequencing_named : ∃ s, run State.step namedRun (.create 2) = some s ∧
    s.started.map SequencedTask.id = [0, 2] ∧ s.started.Pairwise (fun a b =>
      a.sequenceTokenId = b.sequenceTokenId → a.sequenceTokenId ≠ 0 → a.id < b.id) :=
  ⟨_, rfl, rfl, (@sequencing _ 2 namedRun rfl).1⟩

/-! ## What Shutdown waits for

Every accepted task that blocks the shutdown has run when Shutdown returns. A task of
SKIP_ON_SHUTDOWN that has started is not waited for. -/

variable {s t u : State} {maxThreads : Nat}

/-! ## Tasks that block -/

variable {task : SequencedTask}

theorem Inv.finished_of_accepted (h : Inv s) (hcan : s.inner.canShutdown = true)
    (htask : task ∈ s.accepted) (hblk : task.blocks = true) : task ∈ s.finished := by
  obtain ⟨-, hthreads, -⟩ := canShutdown_iff.mp hcan
  have hfree : ∀ w ∈ s.workers, w.task ≠ some task := by
    intro w hw hheld
    rw [h.threadBlocks] at hthreads
    exact List.countP_eq_zero.mp hthreads w hw (by simp [Worker.holdsBlocking, hheld, hblk])
  obtain hpend | ⟨w, hw, htaken⟩ | hstart | hdel := h.accepted_cases htask
  · have := h.blocking_pending hpend hblk
    rw [hcan] at this
    cases this
  · exact absurd (task_of_unstarted htaken) (hfree w hw)
  · have hpos := List.count_pos_iff.mpr hstart
    rw [h.progress] at hpos
    by_contra hunfinished
    rw [List.count_eq_zero.mpr hunfinished, Nat.add_zero] at hpos
    obtain ⟨w, hw, hrun⟩ := List.countP_pos_iff.mp hpos
    rw [beq_iff_eq] at hrun
    exact hfree w hw (by rw [hrun]; rfl)
  · have := h.deletedFree task hdel
    rw [hblk] at this
    cases this

/-! ## Tasks to be skipped -/

/-- The task that the worker has taken and not finished. -/
def Worker.unfinished : Worker → Option SequencedTask
  | claimed task _ | creating task | ready task | running task => some task
  | _ => none

/-- Behind every task of SKIP_ON_SHUTDOWN that a worker has taken and not finished, a task of
its sequence that blocks the shutdown is pending. -/
def State.SkippedHeld (s : State) : Prop :=
  ∀ w ∈ s.workers, ∀ task ∈ w.unfinished, task.shutdownBehavior = .skipOnShutdown →
    task.sequenceTokenId ≠ 0 ∧ ∃ other ∈ s.inner.pendingTasks,
      other.blocks = true ∧ other.sequenceTokenId = task.sequenceTokenId

/-- The first call of Shutdown finds only such tasks taken. -/
def ShutdownHeld (s : State) (a : State.Action) : Prop :=
  (∃ wake, a = .shutdown wake) → s.inner.shutdownCalled = false → s.SkippedHeld

theorem scan_keeps {p : Inner} {tasks : List SequencedTask} (htask : task ∈ tasks)
    (hblocked : p.isSequenceTokenRunnable task.sequenceTokenId = false) :
    task ∈ (p.scan tasks).2.1 := by
  induction tasks with
  | nil => cases htask
  | cons head tasks ih =>
    rw [Inner.scan]
    dsimp only
    obtain rfl | htask := List.mem_cons.mp htask
    · rw [if_pos (by simp [hblocked])]
      exact List.mem_cons_self
    · split
      · exact List.mem_cons_of_mem _ (ih htask)
      · split
        · exact ih htask
        · exact htask

theorem turn_keeps {i : Nat} (htask : task ∈ s.inner.pendingTasks)
    (hblocked : s.inner.isSequenceTokenRunnable task.sequenceTokenId = false) :
    task ∈ (s.turn i).inner.pendingTasks := by
  have hkept := scan_keeps htask hblocked
  rcases hscan : s.inner.scan s.inner.pendingTasks with ⟨found, kept, deleted⟩
  rw [hscan] at hkept
  unfold State.turn
  rw [Inner.getWork_eq hscan]
  cases found with
  | some other =>
    dsimp only [Inner.willRunWorkerTask]
    obtain ⟨-, heq⟩ | ⟨-, heq⟩ := Inner.prepare_cases _ <;> rw [heq] <;> exact hkept
  | none =>
    dsimp only
    split <;> exact hkept

theorem SkippedHeld.setWorker (h : s.SkippedHeld) {i : Nat} {w w' : Worker}
    (hi : s.workers[i]? = some w)
    (hw' : ∀ task ∈ w'.unfinished, w.unfinished = some task) : (s.setWorker i w').SkippedHeld :=
  forall_mem_set h fun task htask => h w (List.mem_of_getElem? hi) task (hw' task htask)

variable {wake : Option Nat}

theorem SkippedHeld.signalHasWork (h : s.SkippedHeld) (hstep : s.signalHasWork wake = some t) :
    t.SkippedHeld := by
  obtain ⟨i, hi, rfl⟩ | ⟨-, rfl⟩ := signalHasWork_cases hstep
  · exact SkippedHeld.setWorker h hi nofun
  · exact h

theorem task_of_unfinished {w : Worker} (h : w.unfinished = some task) : w.task = some task := by
  cases w <;> cases h <;> rfl

/-- A turn after the call of Shutdown takes no task to be skipped, and none from behind one. -/
theorem SkippedHeld.turnAtLock (h : s.SkippedHeld) (hinv : Inv s)
    (hcall : s.inner.shutdownCalled = true) {i : Nat} (hlock : AtLock s i u) :
    (u.turn i).SkippedHeld := by
  have hinv' := hinv.atLock hlock
  obtain ⟨-, hkept, -, hpend, v, hwork⟩ := atLock_frame hlock
  obtain ⟨w', hset, hnew⟩ : ∃ w', (u.turn i).workers = u.workers.set i w' ∧
      ∀ task ∈ w'.unfinished, task.shutdownBehavior ≠ .skipOnShutdown := by
    obtain ⟨-, ⟨task, n, hset, -, -, hblk⟩ | ⟨w', hset, hw', -⟩⟩ := turn_cases u i
    · refine ⟨_, hset, ?_⟩
      rintro _ ⟨⟩
      have hblk := hblk (hkept.trans hcall)
      simp only [SequencedTask.blocks, decide_eq_true_eq] at hblk
      simp [hblk]
    · rw [hkept, if_pos hcall] at hw'
      subst hw'
      exact ⟨_, hset, nofun⟩
  intro w hw task htask hskip
  rw [hset] at hw
  obtain ⟨j, hj⟩ := List.mem_iff_getElem?.mp hw
  by_cases hij : i = j
  · subst hij
    obtain ⟨hlt, -⟩ := List.getElem?_eq_some_iff.mp (atLock_exited hlock)
    rw [List.getElem?_set_self hlt] at hj
    cases hj
    exact absurd hskip (hnew task htask)
  · rw [List.getElem?_set_ne hij] at hj
    have hj' := hj
    rw [hwork, List.getElem?_set_ne hij] at hj'
    obtain ⟨hne, other, hother, hblk, htoken⟩ :=
      h w (List.mem_of_getElem? hj') task htask hskip
    refine ⟨hne, other, turn_keeps (hpend ▸ hother) ?_, hblk, htoken⟩
    have hused := hinv'.mem_sequences hj (task_of_unfinished htask) hne
    rw [htoken]
    simp [Inner.isSequenceTokenRunnable, hne, hused]

theorem SkippedHeld.appendStarting (h : s.SkippedHeld) {posters : List Poster} :
    State.SkippedHeld { s with posters := posters, workers := s.workers ++ [.starting] } := by
  intro w hw task htask hskip
  obtain hw | hw := List.mem_append.mp hw
  · exact h w hw task htask hskip
  · obtain rfl := List.mem_singleton.mp hw
    cases htask

/-- After the call of Shutdown every step keeps the tasks to be skipped held. -/
theorem SkippedHeld.step (h : s.SkippedHeld) (hinv : Inv s)
    (hcall : s.inner.shutdownCalled = true) {a : State.Action} (hstep : s.step a = some t) :
    t.SkippedHeld := by
  cases moves_of_step hstep with
  | name | shutdownAgain | wakeShutdownSpuriously | checkShutdown => exact h
  | postTask optionalTokenName sequenceToken shutdownBehavior =>
    unfold State.postTask
    rw [if_pos hcall]
    exact h
  | posterStartsThread hk => exact SkippedHeld.appendStarting h
  | @posterSignals k _ _ hk hsig =>
    exact SkippedHeld.signalHasWork (s := { s with posters := s.posters.eraseIdx k }) h hsig
  | turn hlock => exact SkippedHeld.turnAtLock h hinv hcall hlock
  | wakeSpuriously hi => exact SkippedHeld.setWorker h hi nofun
  | signalHasWork hi hsig =>
    refine SkippedHeld.signalHasWork (SkippedHeld.setWorker h hi ?_) hsig
    split <;> exact fun _ htask => htask
  | @workerStartsThread i task hi =>
    have hready : (s.setWorker i (.ready task)).SkippedHeld :=
      SkippedHeld.setWorker h hi fun _ htask => htask
    exact SkippedHeld.appendStarting hready
  | @startTask i task hi =>
    have hrun : (s.setWorker i (.running task)).SkippedHeld :=
      SkippedHeld.setWorker h hi fun _ htask => htask
    exact hrun
  | @finishTask i task hi =>
    have hran : (s.setWorker i (.ran task)).SkippedHeld := SkippedHeld.setWorker h hi nofun
    exact hran
  | @signalExit i _ _ hi hsig =>
    have hleaving : (s.setWorker i .leaving).SkippedHeld := SkippedHeld.setWorker h hi nofun
    exact SkippedHeld.signalHasWork hleaving hsig
  | @signalCanShutdown i hi =>
    have hexited : (s.setWorker i .exited).SkippedHeld := SkippedHeld.setWorker h hi nofun
    exact hexited
  | shutdown huncalled => exact absurd hcall huncalled

/-! ## The return of Shutdown -/

/-- The first call of Shutdown leaves the workers their tasks. -/
theorem skippedHeld_shutdown (h : s.SkippedHeld) (hstep : s.step (.shutdown wake) = some t) :
    t.SkippedHeld := by
  simp only [State.step] at hstep
  split at hstep
  · cases hstep
    exact h
  · refine SkippedHeld.signalHasWork (s := { s with
      inner := { s.inner with shutdownCalled := true }
      shutdown := if s.inner.canShutdown then .returned else .checking }) h hstep

theorem signalHasWork_inner (hstep : s.signalHasWork wake = some t) : t.inner = s.inner := by
  obtain ⟨i, -, rfl⟩ | ⟨-, rfl⟩ := signalHasWork_cases hstep <;> rfl

theorem turnAtLock_shutdownCalled {i : Nat} (hlock : AtLock s i u) :
    (u.turn i).inner.shutdownCalled = s.inner.shutdownCalled := by
  obtain ⟨hframe, -⟩ := turn_cases u i
  obtain ⟨-, hkept, -⟩ := atLock_frame hlock
  exact hframe.shutdownCalled.trans hkept

/-- Only the call of Shutdown sets shutdown_called_. -/
theorem shutdownCalled_step {a : State.Action} (hstep : s.step a = some t) :
    t.inner.shutdownCalled = s.inner.shutdownCalled ∨ ∃ wake, a = .shutdown wake := by
  cases moves_of_step hstep with
  | postTask optionalTokenName sequenceToken shutdownBehavior =>
    exact .inl (postTask_frame s optionalTokenName sequenceToken shutdownBehavior).2.1
  | posterSignals _ hsig | signalHasWork _ hsig | signalExit _ hsig =>
    have hinner := signalHasWork_inner hsig
    exact .inl (congrArg Inner.shutdownCalled hinner)
  | turn hlock => exact .inl (turnAtLock_shutdownCalled hlock)
  | shutdown => exact .inr ⟨_, rfl⟩
  | _ => exact .inl rfl

/-- In every run the counters are right, and Shutdown returns when every accepted task that blocks
it has run; if the first call finds every task of SKIP_ON_SHUTDOWN that a worker has taken in front
of a pending one that blocks, none of them is running then. -/
theorem shutdown_complete {as : List State.Action}
    (h : run State.step as (.create maxThreads) = some s)
    (hheld : EachStep State.step ShutdownHeld as (.create maxThreads)) :
    (s.shutdown = .returned →
      (∀ task ∈ s.accepted, task.shutdownBehavior = .blockShutdown → task ∈ s.finished) ∧
      ∀ w ∈ s.workers, ∀ task, w = .running task → task.shutdownBehavior ≠ .skipOnShutdown) ∧
    s.inner.pendingTaskCount = s.inner.pendingTasks.length ∧
    s.inner.blockingShutdownPendingTaskCount =
      s.inner.pendingTasks.countP SequencedTask.blocks ∧
    s.inner.blockingShutdownThreadCount = s.workers.countP Worker.holdsBlocking := by
  have hinv := inv_run h
  have hclosing := closing_run h
  have hskipped : s.inner.shutdownCalled = true → s.SkippedHeld := by
    refine (run_invariant_of_each
      (P := fun s => Inv s ∧ (s.inner.shutdownCalled = true → s.SkippedHeld)) ?_ h hheld
      ⟨.create maxThreads, nofun⟩).2
    rintro s a t ⟨hinv, hskipped⟩ hmeets hstep
    refine ⟨hinv.step hstep, fun hafter => ?_⟩
    by_cases hcalled : s.inner.shutdownCalled = true
    · exact SkippedHeld.step (hskipped hcalled) hinv hcalled hstep
    · rw [Bool.not_eq_true] at hcalled
      obtain hkept | ⟨wake, rfl⟩ := shutdownCalled_step hstep
      · rw [hafter, hcalled] at hkept
        cases hkept
      · exact skippedHeld_shutdown (hmeets ⟨wake, rfl⟩ hcalled) hstep
  refine ⟨fun hreturned => ?_, hinv.pendingCount, hinv.pendingBlocks, hinv.threadBlocks⟩
  have hcan := hclosing.returned hreturned
  refine ⟨fun task htask hblocks => hinv.finished_of_accepted hcan htask ?_, ?_⟩
  · simp [SequencedTask.blocks, hblocks]
  · rintro _ hw task rfl hskip
    have hcalled := hclosing.called (by simp [hreturned])
    obtain ⟨-, other, hother, hblocks, -⟩ := hskipped hcalled _ hw task rfl hskip
    have hwaits := hinv.blocking_pending hother hblocks
    rw [hcan] at hwaits
    cases hwaits

/-- One thread runs a task of SKIP_ON_SHUTDOWN, and a task of its sequence is posted. -/
def heldStart : List State.Action :=
  [.postTask (some "a") 0 .skipOnShutdown, .finishPostTask 0 none, .enter 0,
    .signalHasWork 0 none, .startTask 0, .postTask (some "a") 0 .blockShutdown,
    .finishPostTask 0 none]

/-- Shutdown returns when the task behind it has run. -/
def heldEnd : List State.Action :=
  [.checkShutdown, .finishTask 0, .didRunTask 0, .signalHasWork 0 none, .startTask 0,
    .finishTask 0, .didRunTask 0, .signalExit 0 none, .signalCanShutdown 0, .checkShutdown]

theorem shutdown_complete_held : ∃ s,
    run State.step (heldStart ++ .shutdown none :: heldEnd) (.create 1) = some s ∧
    s.shutdown = .returned ∧ ∀ task ∈ s.accepted, task.shutdownBehavior = .blockShutdown →
      task ∈ s.finished := by
  have hstart : ∀ a ∈ heldStart, ∀ s, ShutdownHeld s a := by
    rintro a ha s ⟨wake, rfl⟩
    simp [heldStart] at ha
  have hend : ∀ a ∈ heldEnd, ∀ s, ShutdownHeld s a := by
    rintro a ha s ⟨wake, rfl⟩
    simp [heldEnd] at ha
  refine ⟨_, rfl, rfl, ((@shutdown_complete _ 1 (heldStart ++ .shutdown none :: heldEnd) rfl
    (eachStep_append (eachStep_of_forall hstart _) ?_)).1 rfl).1⟩
  intro t ht
  cases ht
  refine ⟨fun _ _ => ?_, fun u _ => eachStep_of_forall hend u⟩
  rintro w hw task htask -
  obtain rfl := List.mem_singleton.mp hw
  cases htask
  exact ⟨by decide, ⟨1, 1, .blockShutdown⟩, List.mem_singleton_self _, rfl, rfl⟩

/-- One thread runs a task of SKIP_ON_SHUTDOWN, and the first call of Shutdown returns. -/
theorem shutdown_incomplete : ∃ s,
    run State.step [.postTask none 0 .skipOnShutdown, .finishPostTask 0 none, .enter 0,
      .signalHasWork 0 none, .startTask 0, .shutdown none] (.create 1) = some s ∧
    s.shutdown = .returned ∧ s.workers = [.running ⟨0, 0, .skipOnShutdown⟩] :=
  ⟨_, rfl, rfl, rfl⟩

/-! ## Where the pool lets go of its closures

A closure is held by the pending list, by the local task of a worker, or by the vector
delete_these_outside_lock of one. A worker that leaves the loop destroys its vector while it still
has the lock. -/

open List

variable {s t : State} {a : State.Action} {i : Nat} {p : Inner} {task : SequencedTask}

namespace State

/-- The worker that comes to GetWork in a step, and the pool that it finds there. -/
def atGetWork (s : State) : Action → Option (Nat × Inner)
  | .enter i =>
    match s.workers[i]? with
    | some .starting => some (i, { s.inner with
        threadBeingCreated := false, threads := s.inner.threads + 1 })
    | _ => none
  | .resume i =>
    match s.workers[i]? with
    | some .woken => some (i, { s.inner with
        waitingThreadCount := s.inner.waitingThreadCount - 1 })
    | _ => none
  | .didRunTask i =>
    match s.workers[i]? with
    | some (.ran task) => some (i, s.inner.didRunWorkerTask task)
    | _ => none
  | _ => none

/-- The steps inside an AutoLock of lock_. SignalHasWork behind GetWork and the end of a task are
outside it, and with them the ends of the vector and of the task. -/
def Action.locked : Action → Bool
  | getNamedSequenceToken _ | postTask _ _ _ | enter _ | resume _ | didRunTask _ | shutdown _
  | checkShutdown => true
  | _ => false

/-- The vector where the lock is dropped. If GetWork has found nothing, its scope has ended by
then, at the break or behind the wait. -/
def deleteTheseOutsideLock (s : State) (a : Action) : List SequencedTask :=
  match s.atGetWork a with
  | some (_, p) =>
    match p.getWork with
    | (some _, deleted, _) => deleted
    | (none, _, _) => []
  | none => []

/-- A copy of the closure in the list, or in the hands of a worker. -/
def Holds (s : State) (task : SequencedTask) : Prop :=
  task ∈ s.inner.pendingTasks ∨ ∃ w ∈ s.workers, w.unfinished = some task

/-- Every closure that the pool holds in front of a step under the lock has a copy where the lock
is dropped. -/
def ReleasesUnlocked (s : State) (a : Action) : Prop :=
  ∀ t, s.step a = some t → a.locked = true → ∀ task, s.Holds task →
    t.Holds task ∨ task ∈ s.deleteTheseOutsideLock a

/-- A worker that comes to GetWork after the call of Shutdown finds a task to run if it finds one
to drop. -/
def FindsTask (s : State) (a : Action) : Prop :=
  ∀ i p, s.atGetWork a = some (i, p) → p.shutdownCalled = true →
    (∃ task ∈ p.pendingTasks, p.isSequenceTokenRunnable task.sequenceTokenId = true ∧
      task.blocks = false) →
    ∃ task ∈ p.pendingTasks, p.isSequenceTokenRunnable task.sequenceTokenId = true ∧
      task.blocks = true

end State

/-! ## A turn of the loop -/

theorem Inner.scan_deleted {tasks : List SequencedTask} (h : task ∈ (p.scan tasks).2.2) :
    p.shutdownCalled = true ∧ p.isSequenceTokenRunnable task.sequenceTokenId = true := by
  induction tasks with
  | nil => cases h
  | cons head tasks ih =>
    rw [Inner.scan] at h
    dsimp only at h
    split at h
    · exact ih h
    · rename_i hrun
      rw [Bool.not_eq_true, Bool.not_eq_false'] at hrun
      split at h
      · rename_i hdrops
        obtain rfl | h := mem_cons.mp h
        · rw [Bool.and_eq_true] at hdrops
          exact ⟨hdrops.1, hrun⟩
        · exact ih h
      · cases h

/-- A worker that comes to GetWork has nothing in its hands, and its turn begins. -/
theorem step_atGetWork (h : s.atGetWork a = some (i, p)) :
    a.locked = true ∧ s.step a = some (State.turn { s with inner := p } i) ∧
      p.pendingTasks = s.inner.pendingTasks ∧ ∃ v, s.workers[i]? = some v ∧ v.unfinished = none := by
  cases a with
  | enter j | resume j | didRunTask j =>
    simp only [State.atGetWork] at h
    split at h
    · rename_i hj
      cases h
      refine ⟨rfl, ?_, rfl, _, hj, rfl⟩
      simp only [State.step]
      rw [hj]
    · cases h
  | _ => cases h

/-- What a turn leaves: the task found in the hands of its worker, and what the scan of GetWork has
kept in the list. -/
theorem turn_scan {found : Option SequencedTask} {kept deleted : List SequencedTask}
    (hscan : s.inner.scan s.inner.pendingTasks = (found, kept, deleted)) (i : Nat) :
    (s.turn i).inner.pendingTasks = kept ∧
      ∃ w, (s.turn i).workers = s.workers.set i w ∧ w.unfinished = found := by
  unfold State.turn
  rw [Inner.getWork_eq hscan]
  cases found with
  | some task =>
    dsimp only [Inner.willRunWorkerTask]
    obtain ⟨-, heq⟩ | ⟨-, heq⟩ := Inner.prepare_cases _ <;> rw [heq] <;> exact ⟨rfl, _, rfl, rfl⟩
  | none =>
    dsimp only
    split <;> exact ⟨rfl, _, rfl, rfl⟩

/-- A pending task is in nobody's hands. -/
theorem Inv.pending_alone (h : Inv s) (htask : task ∈ s.inner.pendingTasks) :
    ∀ w ∈ s.workers, w.unfinished ≠ some task := by
  have hone := nodup_iff_count_le_one.mp h.accepted_nodup task
  have hpend := count_pos_iff.mpr htask
  have hconserved := h.conserved task
  have hprogress := h.progress task
  intro w hw hheld
  have hcases : w.unstarted = some task ∨ w = .running task := by
    cases w <;> cases hheld <;> simp [Worker.unstarted]
  obtain hunstarted | rfl := hcases
  · have : 0 < s.workers.countP (fun w => w.unstarted == some task) :=
      countP_pos_iff.mpr ⟨w, hw, beq_iff_eq.mpr hunstarted⟩
    omega
  · have : 0 < s.workers.countP (· == .running task) :=
      countP_pos_iff.mpr ⟨_, hw, beq_self_eq_true _⟩
    omega

/-! ## The last copy -/

/-- The other steps under the lock leave the list and what the workers hold. -/
theorem holds_else (hget : s.atGetWork a = none) (hlocked : a.locked = true)
    (hstep : s.step a = some t) (hholds : s.Holds task) : t.Holds task := by
  cases a with
  | enter j | resume j | didRunTask j =>
    simp only [State.step] at hstep
    split at hstep
    · rename_i hj
      simp [State.atGetWork, hj] at hget
    · cases hstep
  | getNamedSequenceToken name =>
    cases hstep
    obtain ⟨number, names, heq⟩ := lockedGetNamedTokenID_snd s.inner name
    rw [heq]
    exact hholds
  | postTask optionalTokenName sequenceToken shutdownBehavior =>
    cases hstep
    obtain ⟨-, -, hwork, -, hpend⟩ :=
      postTask_frame s optionalTokenName sequenceToken shutdownBehavior
    exact hholds.imp (fun hmem => hpend hmem) fun hheld => by rwa [hwork]
  | shutdown wake =>
    simp only [State.step] at hstep
    split at hstep
    · cases hstep
      exact hholds
    · obtain ⟨j, hj, rfl⟩ | ⟨-, rfl⟩ := signalHasWork_cases hstep
      · refine hholds.imp_right (Exists.imp fun w h => ⟨mem_set_of_ne hj h.1 ?_, h.2⟩)
        rintro rfl
        cases h.2
      · exact hholds
  | checkShutdown =>
    simp only [State.step] at hstep
    split at hstep
    · cases hstep
      exact hholds
    · cases hstep
  | _ => cases hlocked

/-- Behind a turn a task that the worker has not dropped has a copy. -/
theorem holds_turn {found : Option SequencedTask} {kept deleted : List SequencedTask} {v : Worker}
    (hscan : s.inner.scan s.inner.pendingTasks = (found, kept, deleted))
    (hv : s.workers[i]? = some v) (hfree : v.unfinished = none) (hholds : s.Holds task) :
    (s.turn i).Holds task ∨ task ∈ deleted := by
  obtain ⟨hkept, w, hwork, hw⟩ := turn_scan hscan i
  have hcount := (s.inner.scan_spec s.inner.pendingTasks).count task
  rw [hscan] at hcount
  obtain hmem | ⟨w', hw', hheld⟩ := hholds
  · by_cases hmemKept : task ∈ kept
    · exact Or.inl (Or.inl (hkept ▸ hmemKept))
    by_cases hfound : found = some task
    · exact Or.inl (Or.inr ⟨w, hwork ▸ mem_set_slot hv, hw.trans hfound⟩)
    · right
      have hother : found.toList.count task = 0 := by
        rw [count_eq_zero, Option.mem_toList]
        exact hfound
      rw [← count_pos_iff] at hmem ⊢
      dsimp only at hcount
      rw [hcount, count_eq_zero.mpr hmemKept, hother] at hmem
      omega
  · refine Or.inl (Or.inr ⟨w', hwork ▸ mem_set_of_ne hv hw' ?_, hheld⟩)
    rintro rfl
    rw [hfree] at hheld
    cases hheld

theorem releasesUnlocked_iff (hinv : Inv s) (a : State.Action) :
    s.ReleasesUnlocked a ↔ s.FindsTask a := by
  cases hget : s.atGetWork a with
  | none =>
    refine ⟨fun _ i p h => ?_, fun _ t hstep hlocked task hholds => ?_⟩
    · cases hget.symm.trans h
    · exact Or.inl (holds_else hget hlocked hstep hholds)
  | some place =>
    obtain ⟨i, p⟩ := place
    obtain ⟨hlocked, hturn, hpend, v, hv, hfree⟩ := step_atGetWork hget
    rcases hscan : p.scan p.pendingTasks with ⟨found, kept, deleted⟩
    have hspec := p.scan_spec p.pendingTasks
    rw [hscan] at hspec
    have hcount := hspec.count
    dsimp only at hcount
    have hvector : s.deleteTheseOutsideLock a = if found.isSome then deleted else [] := by
      unfold State.deleteTheseOutsideLock
      rw [hget]
      dsimp only
      rw [Inner.getWork_eq hscan]
      cases found <;> rfl
    constructor
    · intro hreleases i' p' hget' hcall ⟨task, htask, hrun, hblk⟩
      cases hget.symm.trans hget'
      cases found with
      | some other =>
        refine ⟨other, ?_, hspec.runnable other rfl, hspec.blocks hcall other rfl⟩
        have hother := hcount other
        rw [Option.toList_some, count_singleton_self] at hother
        exact count_pos_iff.mp (by omega)
      | none =>
        -- the task is neither kept nor in anyone's hands, and the vector is gone
        rw [hpend] at htask
        obtain ⟨hkept, w, hwork, hw⟩ := @turn_scan { s with inner := p } _ _ _ hscan i
        obtain (hmem | ⟨w', hw', hheld⟩) | hmem :=
          hreleases _ hturn hlocked task (Or.inl htask)
        · rw [hkept] at hmem
          have hblocked := hspec.none rfl task hmem
          rw [hrun] at hblocked
          cases hblocked
        · rw [hwork] at hw'
          refine absurd hheld (forall_mem_set (P := fun w => w.unfinished ≠ some task)
            (hinv.pending_alone htask) ?_ w' hw')
          rw [hw]
          exact nofun
        · rw [hvector] at hmem
          cases hmem
    · intro hfinds t hstep _ task hholds
      cases hturn.symm.trans hstep
      have hholds' : State.Holds { s with inner := p } task := by
        unfold State.Holds
        rw [hpend]
        exact hholds
      refine (holds_turn (s := { s with inner := p }) hscan hv hfree hholds').imp_right
        fun hdel => ?_
      rw [hvector]
      cases found with
      | some other => exact hdel
      | none =>
        obtain ⟨hcall, hrun⟩ := @Inner.scan_deleted p task p.pendingTasks (by rwa [hscan])
        have hpos := count_pos_iff.mpr hdel
        have htask := hcount task
        obtain ⟨other, hother, hruns, hblk⟩ := hfinds i p hget hcall
          ⟨task, count_pos_iff.mp (by omega), hrun, hspec.free task hdel⟩
        -- the task to be run is neither kept nor dropped
        have hnotKept : other ∉ kept := by
          intro hkept
          have := hspec.none rfl other hkept
          rw [hruns] at this
          cases this
        have hnotDropped : other ∉ deleted := by
          intro hdropped
          have := hspec.free other hdropped
          rw [hblk] at this
          cases this
        rw [← count_pos_iff, hcount, count_eq_zero.mpr hnotKept,
          count_eq_zero.mpr hnotDropped] at hother
        cases hother

/-- In every run no closure loses its last copy under the lock exactly if every worker that comes
to GetWork after the call of Shutdown and finds a task to drop finds one to run. -/
theorem closures_released_iff (maxThreads : Nat) (as : List State.Action) :
    EachStep State.step State.ReleasesUnlocked as (.create maxThreads) ↔
      EachStep State.step State.FindsTask as (.create maxThreads) :=
  eachStep_iff (P := Inv) (fun _ a hinv => releasesUnlocked_iff hinv a)
    (fun _ _ _ hinv _ hstep => hinv.step hstep) (.create maxThreads)

/-- While the one worker runs a task, another one that Shutdown does not wait for is posted, and
Shutdown is called. -/
def droppedRun : List State.Action :=
  [.postTask none 0 .blockShutdown, .finishPostTask 0 none, .enter 0, .signalHasWork 0 none,
    .startTask 0, .postTask none 0 .skipOnShutdown, .finishPostTask 0 none, .shutdown none,
    .finishTask 0, .didRunTask 0]

/-- The worker breaks out of its loop, and the closure that it has dropped dies under the lock. -/
theorem droppedRun_releases_locked :
    ¬EachStep State.step State.ReleasesUnlocked droppedRun (.create 1) := by
  intro h
  have hlast := (((((((((h.2 _ rfl).2 _ rfl).2 _ rfl).2 _ rfl).2 _ rfl).2 _ rfl).2 _ rfl).2 _
    rfl).2 _ rfl).1
  obtain (hpending | ⟨w, hw, hheld⟩) | hmem :=
    hlast _ rfl rfl ⟨1, 0, .skipOnShutdown⟩ (Or.inl (by decide))
  · cases hpending
  · obtain rfl := mem_singleton.mp hw
    cases hheld
  · cases hmem

end ChromiumUI.WorkerPool
