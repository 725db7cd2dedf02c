import ChromiumUI.WorkerPoolSteps

/-!
# No wake-up of the pool is lost

Whenever a task could run, a worker is awake, a signal is on its way to one that waits, or a
thread is being created. Whenever Shutdown could return, a worker is about to signal it.
-/
namespace ChromiumUI.WorkerPool

open Slots Runs List State

variable {s t u : State} {maxThreads : Nat}

/-! ## Where a turn and a signal end -/

namespace Worker

/-- Out of the loop. -/
def leaves : Worker → Bool
  | exiting | leaving | exited => true
  | _ => false

/-- Inside the loop and not blocked: GetWork comes again. -/
def awake : Worker → Bool
  | woken | claimed _ _ | creating _ | ready _ | running _ | ran _ => true
  | _ => false

/-- can_shutdown_cv_.Signal comes. -/
def signalsShutdown : Worker → Bool
  | exiting | leaving => true
  | _ => false

end Worker

theorem signalHasWork_cases {wake : Option Nat} (hstep : s.signalHasWork wake = some t) :
    (∃ i, s.workers[i]? = some .waiting ∧ t = s.setWorker i .woken) ∨
      (.waiting ∉ s.workers ∧ t = s) := by
  unfold signalHasWork at hstep
  split at hstep
  · rename_i i
    split at hstep
    · rename_i hi
      exact .inl ⟨i, hi, (Option.some.inj hstep).symm⟩
    · cases hstep
  · split at hstep
    · cases hstep
    · rename_i hwait
      exact .inr ⟨hwait, (Option.some.inj hstep).symm⟩

/-- The fields that a turn leaves alone. -/
structure TurnFrame (s t : State) : Prop where
  max : t.inner.maxThreads = s.inner.maxThreads
  shutdownCalled : t.inner.shutdownCalled = s.inner.shutdownCalled
  posters : t.posters = s.posters
  shutdown : t.shutdown = s.shutdown
  accepted : t.accepted = s.accepted
  started : t.started = s.started
  finished : t.finished = s.finished

/-- A turn ends with a task, or without one behind the loop or in front of a wait. -/
theorem turn_cases (s : State) (i : Nat) :
    TurnFrame s (s.turn i) ∧
      ((∃ task n, (s.turn i).workers = s.workers.set i (.claimed task n) ∧
        task ∈ s.inner.pendingTasks ∧
        s.inner.isSequenceTokenRunnable task.sequenceTokenId = true ∧
        (s.inner.shutdownCalled = true → task.blocks = true)) ∨
      (∃ w, (s.turn i).workers = s.workers.set i w ∧
        w = (if s.inner.shutdownCalled then .exiting else .waiting) ∧
        (s.turn i).inner.canShutdown = s.inner.canShutdown ∧
        ∀ task ∈ (s.turn i).inner.pendingTasks,
          (s.turn i).inner.isSequenceTokenRunnable task.sequenceTokenId = false)) := by
  rcases hscan : s.inner.scan s.inner.pendingTasks with ⟨found, kept, deleted⟩
  have hspec := s.inner.scan_spec s.inner.pendingTasks
  rw [hscan] at hspec
  unfold turn
  rw [Inner.getWork_eq hscan]
  cases found with
  | some task =>
    have hpend : task ∈ s.inner.pendingTasks := by
      have := hspec.count task
      simp only [Option.toList_some, count_singleton_self] at this
      exact count_pos_iff.mp (by omega)
    refine ⟨?_, .inl ⟨task, _, rfl, hpend, hspec.runnable task rfl,
      fun hcall => hspec.blocks hcall task rfl⟩⟩
    dsimp only [Inner.willRunWorkerTask]
    obtain ⟨-, heq⟩ | ⟨-, heq⟩ := Inner.prepare_cases _ <;> rw [heq] <;>
      exact ⟨rfl, rfl, rfl, rfl, rfl, rfl, rfl⟩
  | none =>
    dsimp only
    by_cases hcall : s.inner.shutdownCalled = true
    · rw [if_pos hcall, if_pos hcall]
      exact ⟨⟨rfl, rfl, rfl, rfl, rfl, rfl, rfl⟩, .inr ⟨_, rfl, rfl, rfl, hspec.none rfl⟩⟩
    · rw [if_neg hcall, if_neg hcall]
      exact ⟨⟨rfl, rfl, rfl, rfl, rfl, rfl, rfl⟩, .inr ⟨_, rfl, rfl, rfl, hspec.none rfl⟩⟩

/-! ## Leaving the loop -/

/-- Workers leave after the call of Shutdown only, and one of them signals when Shutdown waits for
nothing else. -/
structure Closing (maxThreads : Nat) (s : State) : Prop where
  max : s.inner.maxThreads = maxThreads
  exits : ∀ w ∈ s.workers, w.leaves = true → s.inner.shutdownCalled = true
  called : s.shutdown ≠ .notCalled → s.inner.shutdownCalled = true
  returned : s.shutdown = .returned → s.inner.canShutdown = true
  closing : s.shutdown = .waiting → s.inner.canShutdown = true →
    ∃ w ∈ s.workers, w.signalsShutdown = true

theorem Closing.create (maxThreads : Nat) : Closing maxThreads (.create maxThreads) where
  max := rfl
  exits := nofun
  called h := absurd rfl h
  returned := nofun
  closing := nofun

/-- A worker that goes on, and neither leaves nor signals. -/
theorem Closing.setWorker (h : Closing maxThreads s) {i : Nat} {w w' : Worker}
    (hi : s.workers[i]? = some w) (hleaves : w'.leaves = true → s.inner.shutdownCalled = true)
    (hsignals : w.signalsShutdown = true → w'.signalsShutdown = true) :
    Closing maxThreads (s.setWorker i w') :=
  { h with
    exits := forall_mem_set h.exits hleaves
    closing := by
      intro hwait hcan
      obtain ⟨v, hv, hsig⟩ := h.closing hwait hcan
      by_cases heq : w = v
      · subst heq
        exact ⟨w', mem_set_slot hi, hsignals hsig⟩
      · exact ⟨v, mem_set_of_ne hi hv heq, hsig⟩ }

theorem Closing.signalHasWork (h : Closing maxThreads s) {wake : Option Nat}
    (hstep : s.signalHasWork wake = some t) : Closing maxThreads t := by
  obtain ⟨i, hi, rfl⟩ | ⟨-, rfl⟩ := signalHasWork_cases hstep
  · exact h.setWorker hi nofun nofun
  · exact h

theorem canShutdown_eq_false_of_thread {p : Inner} (h : 0 < p.blockingShutdownThreadCount) :
    p.canShutdown = false := by
  have : p.blockingShutdownThreadCount ≠ 0 := Nat.ne_of_gt h
  simp [Inner.canShutdown, this]

theorem canShutdown_iff {p : Inner} : p.canShutdown = true ↔ p.threadBeingCreated = false ∧
    p.blockingShutdownThreadCount = 0 ∧ p.blockingShutdownPendingTaskCount = 0 := by
  simp [Inner.canShutdown, and_assoc]

/-- Where a worker takes a task while Shutdown is called, the task blocks it, and none could
before that. -/
theorem Inv.blocking_pending (h : Inv s) {task : SequencedTask}
    (htask : task ∈ s.inner.pendingTasks) (hblk : task.blocks = true) :
    s.inner.canShutdown = false := by
  have hpos : 0 < s.inner.pendingTasks.countP SequencedTask.blocks :=
    countP_pos_iff.mpr ⟨task, htask, hblk⟩
  rw [← h.pendingBlocks] at hpos
  have : s.inner.blockingShutdownPendingTaskCount ≠ 0 := Nat.ne_of_gt hpos
  simp [Inner.canShutdown, this]

theorem canShutdown_atLock {i : Nat} (hlock : AtLock s i u) (h : s.inner.canShutdown = true) :
    u.inner.canShutdown = true := by
  obtain ⟨hcreated, hthreads, hpend⟩ := canShutdown_iff.mp h
  refine canShutdown_iff.mpr ?_
  cases hlock with
  | enter _ => exact ⟨rfl, hthreads, hpend⟩
  | resume _ => exact ⟨hcreated, hthreads, hpend⟩
  | didRunTask task _ =>
    refine ⟨hcreated, ?_, hpend⟩
    show (if task.blocks then s.inner.blockingShutdownThreadCount - 1
      else s.inner.blockingShutdownThreadCount) = 0
    rw [hthreads]
    exact ite_self 0

/-- What the worker at the lock has done to the rest. -/
theorem atLock_frame {i : Nat} (hlock : AtLock s i u) :
    u.inner.maxThreads = s.inner.maxThreads ∧
      u.inner.shutdownCalled = s.inner.shutdownCalled ∧ u.shutdown = s.shutdown ∧
      u.inner.pendingTasks = s.inner.pendingTasks ∧ ∃ w, u.workers = s.workers.set i w := by
  cases hlock <;> exact ⟨rfl, rfl, rfl, rfl, _, rfl⟩

section

variable (h : Closing maxThreads s)
include h

theorem Closing.turnAtLock (hinv : Inv s) {i : Nat}
    (hlock : AtLock s i u) : Closing maxThreads (u.turn i) := by
  have hinv' := hinv.turnAtLock hlock
  obtain ⟨hmax, hcall, hshutdown, hpend, w, hwork⟩ := atLock_frame hlock
  obtain ⟨hframe, htask | hnone⟩ := turn_cases u i
  · obtain ⟨task, n, hset, htask, -, hblk⟩ := htask
    rw [hwork, set_set] at hset
    rw [hpend] at htask
    rw [hcall] at hblk
    refine ⟨hframe.max.trans (hmax.trans h.max), ?_, ?_, ?_, ?_⟩
    · rw [hset, hframe.shutdownCalled, hcall]
      exact forall_mem_set h.exits nofun
    · rw [hframe.shutdown, hshutdown, hframe.shutdownCalled, hcall]
      exact h.called
    · rw [hframe.shutdown, hshutdown]
      intro hret
      have hfree := hinv.blocking_pending htask (hblk (h.called (by simp [hret])))
      rw [h.returned hret] at hfree
      cases hfree
    · rw [hframe.shutdown, hshutdown]
      intro hwait hcan
      have hblk := hblk (h.called (by simp [hwait]))
      have hi : (u.turn i).workers[i]? = some (.claimed task n) := by
        obtain ⟨hlt, -⟩ := List.getElem?_eq_some_iff.mp (atLock_exited hlock)
        rw [hwork, length_set] at hlt
        rw [hset]
        exact getElem?_set_self hlt
      have hpos := countP_pos_of_getElem? (p := Worker.holdsBlocking) hi hblk
      rw [← hinv'.threadBlocks] at hpos
      rw [canShutdown_eq_false_of_thread hpos] at hcan
      cases hcan
  · obtain ⟨w', hset, hw', hcan, -⟩ := hnone
    rw [hwork, set_set] at hset
    rw [hcall] at hw'
    refine ⟨hframe.max.trans (hmax.trans h.max), ?_, ?_, ?_, ?_⟩
    · rw [hset, hframe.shutdownCalled, hcall]
      refine forall_mem_set h.exits fun hleaves => ?_
      by_contra hnot
      rw [if_neg hnot] at hw'
      subst hw'
      cases hleaves
    · rw [hframe.shutdown, hshutdown, hframe.shutdownCalled, hcall]
      exact h.called
    · rw [hframe.shutdown, hshutdown, hcan]
      exact fun hret => canShutdown_atLock hlock (h.returned hret)
    · rw [hframe.shutdown, hshutdown]
      intro hwait _
      rw [if_pos (h.called (by simp [hwait]))] at hw'
      subst hw'
      obtain ⟨hlt, -⟩ := List.getElem?_eq_some_iff.mp (atLock_exited hlock)
      rw [hwork, length_set] at hlt
      rw [hset]
      exact ⟨_, mem_set hlt _, rfl⟩

/-- Before the call of Shutdown nothing waits for a worker to leave. -/
theorem Closing.uncalled (hcall : s.inner.shutdownCalled = false)
    (hmax : t.inner.maxThreads = s.inner.maxThreads) (hwork : t.workers = s.workers)
    (hkept : t.inner.shutdownCalled = s.inner.shutdownCalled) (hshutdown : t.shutdown = s.shutdown) :
    Closing maxThreads t := by
  have hnotCalled : t.shutdown = .notCalled := by
    rw [hshutdown]
    by_contra hne
    rw [h.called hne] at hcall
    cases hcall
  refine ⟨hmax.trans h.max, ?_, ?_, ?_, ?_⟩
  · rw [hwork, hkept]
    exact h.exits
  · exact fun hne => absurd hnotCalled hne
  · rw [hnotCalled]
    exact nofun
  · rw [hnotCalled]
    exact nofun

theorem Closing.appendStarting (posters : List Poster) :
    Closing maxThreads { s with posters := posters, workers := s.workers ++ [.starting] } :=
  { h with
    exits := by
      intro w hw hleaves
      obtain hw | hw := mem_append.mp hw
      · exact h.exits w hw hleaves
      · obtain rfl := mem_singleton.mp hw
        cases hleaves
    closing := by
      intro hwait hcan
      obtain ⟨w, hw, hsignals⟩ := h.closing hwait hcan
      exact ⟨w, mem_append_left _ hw, hsignals⟩ }

end

/-- What PostTask leaves alone. -/
theorem postTask_frame (s : State) (optionalTokenName : Option String) (sequenceToken : Int)
    (shutdownBehavior : WorkerShutdown) :
    (s.postTask optionalTokenName sequenceToken shutdownBehavior).inner.maxThreads =
      s.inner.maxThreads ∧
    (s.postTask optionalTokenName sequenceToken shutdownBehavior).inner.shutdownCalled =
      s.inner.shutdownCalled ∧
    (s.postTask optionalTokenName sequenceToken shutdownBehavior).workers = s.workers ∧
    (s.postTask optionalTokenName sequenceToken shutdownBehavior).shutdown = s.shutdown ∧
    s.inner.pendingTasks ⊆
      (s.postTask optionalTokenName sequenceToken shutdownBehavior).inner.pendingTasks := by
  unfold postTask
  dsimp only
  split
  · exact ⟨rfl, rfl, rfl, rfl, Subset.refl _⟩
  · have haccept : ∀ (p : Inner) (task : SequencedTask), (p.accept task).2.maxThreads = p.maxThreads ∧
        (p.accept task).2.shutdownCalled = p.shutdownCalled ∧
        p.pendingTasks ⊆ (p.accept task).2.pendingTasks := by
      intro p task
      unfold Inner.accept
      obtain ⟨-, heq⟩ | ⟨-, heq⟩ := Inner.prepare_cases _ <;> rw [heq] <;>
        exact ⟨rfl, rfl, subset_append_left _ _⟩
    cases optionalTokenName with
    | none => exact ⟨(haccept _ _).1, (haccept _ _).2.1, rfl, rfl, (haccept _ _).2.2⟩
    | some name =>
      obtain ⟨number, names, heq⟩ := lockedGetNamedTokenID_snd s.inner name
      refine ⟨(haccept _ _).1.trans ?_, (haccept _ _).2.1.trans ?_, rfl, rfl,
        Subset.trans ?_ (haccept _ _).2.2⟩ <;> rw [heq]
      exact Subset.refl _

/-- Every step keeps what Shutdown relies on. -/
theorem Closing.step (h : Closing maxThreads s) (hinv : Inv s) {a : State.Action}
    (hstep : s.step a = some t) : Closing maxThreads t := by
  cases moves_of_step hstep with
  | name number names => exact { h with }
  | postTask optionalTokenName sequenceToken shutdownBehavior =>
    by_cases hcall : s.inner.shutdownCalled = true
    · unfold postTask
      rw [if_pos hcall]
      exact { h with }
    · obtain ⟨hmax, hkept, hwork, hshutdown, -⟩ :=
        postTask_frame s optionalTokenName sequenceToken shutdownBehavior
      exact h.uncalled (by simpa using hcall) hmax hwork hkept hshutdown
  | posterStartsThread hk => exact h.appendStarting _
  | @posterSignals k _ _ hk hsig =>
    have herase : Closing maxThreads { s with posters := s.posters.eraseIdx k } := { h with }
    exact herase.signalHasWork hsig
  | turn hlock => exact h.turnAtLock hinv hlock
  | wakeSpuriously hi => exact h.setWorker hi nofun nofun
  | signalHasWork hi hsig =>
    refine Closing.signalHasWork (h.setWorker hi ?_ nofun) hsig
    split <;> exact nofun
  | @workerStartsThread i task hi =>
    have hready : Closing maxThreads (s.setWorker i (.ready task)) := h.setWorker hi nofun nofun
    exact hready.appendStarting _
  | @startTask i task hi =>
    have hrun : Closing maxThreads (s.setWorker i (.running task)) :=
      h.setWorker hi nofun nofun
    exact { hrun with }
  | @finishTask i task hi =>
    have hran : Closing maxThreads (s.setWorker i (.ran task)) := h.setWorker hi nofun nofun
    exact { hran with }
  | signalExit hi hsig =>
    exact (h.setWorker hi (fun _ => h.exits _ (mem_of_getElem? hi) rfl)
      fun _ => rfl).signalHasWork hsig
  | signalCanShutdown hi =>
    have hcall := h.exits _ (mem_of_getElem? hi) rfl
    refine ⟨h.max, forall_mem_set h.exits fun _ => hcall, fun _ => hcall, ?_, ?_⟩
    · dsimp only
      split
      · exact nofun
      · exact h.returned
    · dsimp only
      split
      · exact nofun
      · exact fun hwait => absurd hwait ‹_›
  | shutdownAgain => exact h
  | shutdown _ hsig =>
    refine Closing.signalHasWork ?_ hsig
    refine ⟨h.max, fun _ _ _ => rfl, fun _ => rfl, ?_, ?_⟩
    · dsimp only
      split
      · exact fun _ => ‹_›
      · exact nofun
    · dsimp only
      split <;> exact nofun
  | wakeShutdownSpuriously hwait =>
    exact ⟨h.max, h.exits, fun _ => h.called (by simp [hwait]), nofun, nofun⟩
  | checkShutdown hchecking =>
    refine ⟨h.max, h.exits, fun _ => h.called (by simp [hchecking]), ?_, ?_⟩
    · dsimp only
      split
      · exact fun _ => ‹_›
      · exact nofun
    · dsimp only
      split
      · exact nofun
      · exact fun _ hcan => absurd hcan ‹_›

theorem closing_run {as : List State.Action} (h : run step as (.create maxThreads) = some s) :
    Closing maxThreads s := by
  refine (run_invariant (P := fun s => Inv s ∧ Closing maxThreads s) ?_ h
    ⟨.create maxThreads, .create maxThreads⟩).2
  exact fun _ _ _ hs hstep => ⟨hs.1.step hstep, hs.2.step hs.1 hstep⟩

/-! ## Work is attended to -/

/-- A pending task whose token is not in use. -/
def State.Runnable (s : State) : Prop :=
  ∃ task ∈ s.inner.pendingTasks, s.inner.isSequenceTokenRunnable task.sequenceTokenId = true

/-- If a task could run, a worker comes to GetWork, a signal comes to a waiting worker, or a
thread comes. -/
def Covered (s : State) : Prop :=
  s.Runnable → (∃ w ∈ s.workers, w.awake = true) ∨
    (.signalling ∈ s.posters ∧ .waiting ∈ s.workers) ∨ s.inner.threadBeingCreated = true

theorem covered_of_awake {w : Worker} (hw : w ∈ s.workers) (hawake : w.awake = true) : Covered s :=
  fun _ => .inl ⟨w, hw, hawake⟩

theorem Covered.keep (h : Covered s) (hrunnable : t.Runnable → s.Runnable)
    (hawake : ∀ w ∈ s.workers, w.awake = true → w ∈ t.workers)
    (hsignalling : .signalling ∈ s.posters → .waiting ∈ s.workers →
      .signalling ∈ t.posters ∧ .waiting ∈ t.workers)
    (hcreated : t.inner.threadBeingCreated = s.inner.threadBeingCreated) : Covered t := by
  intro hrun
  obtain ⟨w, hw, hawake'⟩ | ⟨hposter, hwait⟩ | hthread := h (hrunnable hrun)
  · exact .inl ⟨w, hawake w hw hawake', hawake'⟩
  · exact .inr (Or.inl (hsignalling hposter hwait))
  · exact .inr (Or.inr (hcreated.trans hthread))

/-- A signal that finds a waiter wakes it; one that finds none leaves the rest as it is. -/
theorem Covered.signal {wake : Option Nat} (hstep : u.signalHasWork wake = some t)
    (h : .waiting ∉ u.workers → Covered u) : Covered t := by
  obtain ⟨i, hi, rfl⟩ | ⟨hwait, rfl⟩ := signalHasWork_cases hstep
  · exact covered_of_awake (mem_set_slot hi) rfl
  · exact h hwait

theorem covered_turn (s : State) {i : Nat} (hi : s.workers[i]? = some .exited) :
    Covered (s.turn i) := by
  obtain ⟨-, ⟨task, n, hwork, -⟩ | ⟨w, -, -, -, hnone⟩⟩ := turn_cases s i
  · refine covered_of_awake (w := .claimed task n) ?_ rfl
    rw [hwork]
    exact mem_set_slot hi
  · rintro ⟨task, htask, hrun⟩
    rw [hnone task htask] at hrun
    cases hrun

/-- A pool that may have a thread attends to every task that it accepts. -/
theorem covered_accept (h : Closing maxThreads s) (hinv : Inv s) (hmax : 0 < maxThreads)
    (hcall : s.inner.shutdownCalled = false) (task : SequencedTask) (posted : Nat)
    (accepted : List SequencedTask) :
    Covered { s with
      inner := (s.inner.accept task).2
      posted := posted
      accepted := accepted
      posters := s.posters ++
        [if (s.inner.accept task).1 ≠ 0 then .creating else .signalling] } := by
  unfold Inner.accept
  obtain ⟨-, heq⟩ | ⟨hhelpful, heq⟩ := Inner.prepare_cases { s.inner with
    pendingTasks := s.inner.pendingTasks ++ [task]
    pendingTaskCount := s.inner.pendingTaskCount + 1
    blockingShutdownPendingTaskCount :=
      if task.blocks then s.inner.blockingShutdownPendingTaskCount + 1
      else s.inner.blockingShutdownPendingTaskCount }
  · rw [heq]
    exact fun _ => .inr (Or.inr rfl)
  · rw [heq]
    intro hrun
    by_cases hcreated : s.inner.threadBeingCreated = true
    · exact .inr (Or.inr hcreated)
    -- some worker is in the loop, as a waiting one or as one too many
    have hentered : ∃ w ∈ s.workers, w.entered = true := by
      have hcount : 0 < s.workers.countP Worker.entered := by
        by_contra hnone
        have hidle : s.workers.countP Worker.idle ≤ s.workers.countP Worker.entered :=
          countP_mono_left fun w _ => by cases w <;> simp [Worker.idle, Worker.entered]
        refine hhelpful ⟨hcall, by simpa using hcreated, ?_, ?_, hrun⟩
        · show s.inner.threads < s.inner.maxThreads
          rw [hinv.threads, h.max]
          omega
        · show s.inner.waitingThreadCount = 0
          rw [hinv.waiting]
          omega
      exact countP_pos_iff.mp hcount
    obtain ⟨w, hw, hentered⟩ := hentered
    have hstays := h.exits w hw
    rw [hcall] at hstays
    cases w with
    | starting => cases hentered
    | waiting => exact .inr (Or.inl ⟨by simp, hw⟩)
    | exiting => cases hstays rfl
    | leaving => cases hstays rfl
    | exited => cases hstays rfl
    | woken | claimed _ _ | creating _ | ready _ | running _ | ran _ => exact .inl ⟨_, hw, rfl⟩

theorem Covered.step (h : Covered s) (hclosing : Closing maxThreads s) (hinv : Inv s)
    (hmax : 0 < maxThreads) {a : State.Action} (hstep : s.step a = some t) : Covered t := by
  cases moves_of_step hstep with
  | name number names | wakeShutdownSpuriously | checkShutdown =>
    exact h.keep id (fun _ hw _ => hw) (fun hp hw => ⟨hp, hw⟩) rfl
  | postTask optionalTokenName sequenceToken shutdownBehavior =>
    unfold postTask
    dsimp only
    split
    · exact h.keep id (fun _ hw _ => hw) (fun hp hw => ⟨hp, hw⟩) rfl
    · rename_i hcall
      rw [Bool.not_eq_true] at hcall
      cases optionalTokenName with
      | none => exact covered_accept hclosing hinv hmax hcall _ _ _
      | some name =>
        obtain ⟨number, names, heq⟩ := lockedGetNamedTokenID_snd s.inner name
        have hnamed : Closing maxThreads { s with inner := { s.inner with
            lastSequenceNumber := number, namedSequenceTokens := names } } := { hclosing with }
        have haccept := covered_accept hnamed (hinv.name number names) hmax hcall
          ⟨s.posted, (s.inner.lockedGetNamedTokenID name).1, shutdownBehavior⟩
        rw [← heq] at haccept
        exact haccept _ _
  | posterStartsThread hk =>
    refine fun _ => .inr (Or.inr ?_)
    have hcreation := hinv.creation
    have := countP_pos_of_getElem? (p := (· == Poster.creating)) hk rfl
    dsimp only
    split at hcreation
    · assumption
    · omega
  | posterSignals hk hsig | shutdown _ hsig =>
    refine Covered.signal hsig fun hnone => ?_
    exact h.keep id (fun _ hw _ => hw) (fun _ hw => absurd hw hnone) rfl
  | turn hlock => exact covered_turn _ (atLock_exited hlock)
  | wakeSpuriously hi | startTask hi | finishTask hi => exact covered_of_awake (mem_set_slot hi) rfl
  | signalHasWork hi hsig =>
    refine Covered.signal hsig fun _ => covered_of_awake (mem_set_slot hi) ?_
    split <;> rfl
  | workerStartsThread hi => exact covered_of_awake (mem_append_left _ (mem_set_slot hi)) rfl
  | signalExit hi hsig =>
    refine Covered.signal hsig fun hnone => h.keep id ?_ ?_ rfl
    · rintro w hw hawake
      exact mem_set_of_ne hi hw (by rintro rfl; cases hawake)
    · exact fun _ hw => absurd (mem_set_of_ne hi hw nofun) hnone
  | signalCanShutdown hi =>
    refine h.keep id ?_ (fun hp hw => ⟨hp, mem_set_of_ne hi hw nofun⟩) rfl
    rintro w hw hawake
    exact mem_set_of_ne hi hw (by rintro rfl; cases hawake)
  | shutdownAgain => exact h

/-- In every run of a pool that may have a thread, a pending task whose token is not in use has a
worker in the loop and not blocked, a signal on its way to a blocked one, or a thread being
created; and where Shutdown is blocked although it could return, a worker is about to signal it. -/
theorem wakeups_reach (hmax : 0 < maxThreads) {as : List State.Action}
    (h : run step as (.create maxThreads) = some s) :
    (s.Runnable → (∃ w ∈ s.workers, w.awake = true) ∨
      (.signalling ∈ s.posters ∧ .waiting ∈ s.workers) ∨ s.inner.threadBeingCreated = true) ∧
    (s.shutdown = .waiting → s.inner.canShutdown = true →
      ∃ w ∈ s.workers, w = .exiting ∨ w = .leaving) := by
  have hinv : Inv s ∧ Closing maxThreads s ∧ Covered s := by
    refine run_invariant (P := fun s => Inv s ∧ Closing maxThreads s ∧ Covered s) ?_ h
      ⟨.create maxThreads, .create maxThreads, nofun⟩
    rintro _ _ _ ⟨hinv, hclosing, hcovered⟩ hstep
    exact ⟨hinv.step hstep, hclosing.step hinv hstep, hcovered.step hclosing hinv hmax hstep⟩
  refine ⟨hinv.2.2, fun hwaiting hcan => ?_⟩
  obtain ⟨w, hw, hsignals⟩ := hinv.2.1.closing hwaiting hcan
  refine ⟨w, hw, ?_⟩
  cases w with
  | exiting => exact .inl rfl
  | leaving => exact .inr rfl
  | _ => cases hsignals

/-- Two tasks are posted while the one thread that the pool may have is created; Shutdown comes
in between. -/
theorem wakeups_reach_one : ∃ s,
    run step [.postTask none 0 .blockShutdown, .postTask none 0 .blockShutdown,
      .finishPostTask 0 none, .finishPostTask 0 none, .enter 0, .shutdown none] (.create 1) =
        some s ∧
    s.Runnable ∧ ∃ w ∈ s.workers, w.awake = true := by
  have hrun : ∃ s, run step [.postTask none 0 .blockShutdown,
      .postTask none 0 .blockShutdown, .finishPostTask 0 none, .finishPostTask 0 none, .enter 0,
      .shutdown none] (.create 1) = some s ∧ s.Runnable ∧ s.inner.threadBeingCreated = false ∧
        s.posters = [] := ⟨_, rfl, ⟨⟨1, 0, .blockShutdown⟩, by decide, rfl⟩, rfl, rfl⟩
  obtain ⟨s, hrun, hrunnable, hcreated, hposters⟩ := hrun
  refine ⟨s, hrun, hrunnable, ?_⟩
  obtain hawake | ⟨hposter, -⟩ | hthread := (wakeups_reach (by decide) hrun).1 hrunnable
  · exact hawake
  · rw [hposters] at hposter
    cases hposter
  · rw [hcreated] at hthread
    cases hthread

/-- A pool that may have no thread accepts a task all the same, and nobody ever runs it. -/
theorem wakeups_unreached_none : ∃ s,
    run step [.postTask none 0 .blockShutdown, .finishPostTask 0 none] (.create 0) = some s ∧
    s.Runnable ∧ (∀ w ∈ s.workers, w = .waiting) ∧ s.posters = [] ∧
      s.inner.threadBeingCreated = false :=
  ⟨_, rfl, ⟨⟨0, 0, .blockShutdown⟩, by decide, rfl⟩, nofun, rfl, rfl⟩

end ChromiumUI.WorkerPool
