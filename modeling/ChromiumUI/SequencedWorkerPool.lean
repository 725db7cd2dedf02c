import ChromiumUI.NumberConversions
import ChromiumUI.Runs
import ChromiumUI.Slots

/-!
# SequencedWorkerPool

The pool's critical sections as functions on what its lock guards, and the steps that its threads
take between them. A step is what one thread does under the lock, or one thing it does without it.
-/
namespace ChromiumUI.WorkerPool

open Base

inductive WorkerShutdown
  | continueOnShutdown
  | skipOnShutdown
  | blockShutdown
  deriving DecidableEq, Repr

/-- A SequencedTask; `id` counts the calls of PostTask. -/
structure SequencedTask where
  id : Nat
  sequenceTokenId : Int
  shutdownBehavior : WorkerShutdown
  deriving DecidableEq, Repr

def SequencedTask.blocks (task : SequencedTask) : Bool :=
  task.shutdownBehavior = .blockShutdown

/-! ## What the lock guards -/

/-- SequencedWorkerPool::Inner. Of `threads_` the size matters. -/
structure Inner where
  maxThreads : Nat
  lastSequenceNumber : Int
  namedSequenceTokens : List (String × Int)
  threads : Nat
  threadBeingCreated : Bool
  waitingThreadCount : Nat
  blockingShutdownThreadCount : Nat
  pendingTasks : List SequencedTask
  pendingTaskCount : Nat
  blockingShutdownPendingTaskCount : Nat
  currentSequences : Finset Int
  shutdownCalled : Bool

namespace Inner

/-- The constructor. -/
def create (maxThreads : Nat) : Inner where
  maxThreads := maxThreads
  lastSequenceNumber := 0
  namedSequenceTokens := []
  threads := 0
  threadBeingCreated := false
  waitingThreadCount := 0
  blockingShutdownThreadCount := 0
  pendingTasks := []
  pendingTaskCount := 0
  blockingShutdownPendingTaskCount := 0
  currentSequences := ∅
  shutdownCalled := false

def getSequenceToken (p : Inner) : Int × Inner :=
  let result := wrapInt (p.lastSequenceNumber + 1)
  (result, { p with lastSequenceNumber := result })

def lockedGetNamedTokenID (p : Inner) (name : String) : Int × Inner :=
  match p.namedSequenceTokens.lookup name with
  | some id => (id, p)
  | none =>
    let (result, p) := p.getSequenceToken
    (result, { p with namedSequenceTokens := p.namedSequenceTokens ++ [(name, result)] })

def isSequenceTokenRunnable (p : Inner) (sequenceTokenId : Int) : Bool :=
  sequenceTokenId = 0 || sequenceTokenId ∉ p.currentSequences

def canShutdown (p : Inner) : Bool :=
  !p.threadBeingCreated && p.blockingShutdownThreadCount == 0 &&
    p.blockingShutdownPendingTaskCount == 0

/-- PrepareToStartAdditionalThreadIfHelpful: the number of the new thread, or 0. -/
def prepareToStartAdditionalThreadIfHelpful (p : Inner) : Nat × Inner :=
  if !p.shutdownCalled && !p.threadBeingCreated && p.threads < p.maxThreads &&
      p.waitingThreadCount == 0 &&
      p.pendingTasks.any fun task => p.isSequenceTokenRunnable task.sequenceTokenId then
    (p.threads + 1, { p with threadBeingCreated := true })
  else (0, p)

/-- The loop of GetWork: the task found, what stays in the list, and what is deleted. -/
def scan (p : Inner) : List SequencedTask →
    Option SequencedTask × List SequencedTask × List SequencedTask
  | [] => (none, [], [])
  | task :: tasks =>
    if !p.isSequenceTokenRunnable task.sequenceTokenId then
      let (found, kept, deleted) := scan p tasks
      (found, task :: kept, deleted)
    else if p.shutdownCalled && !task.blocks then
      let (found, kept, deleted) := scan p tasks
      (found, kept, task :: deleted)
    else (some task, tasks, [])

/-- GetWork: the task found, and the deleted ones. -/
def getWork (p : Inner) : Option SequencedTask × List SequencedTask × Inner :=
  let (found, kept, deleted) := p.scan p.pendingTasks
  let p := { p with
    pendingTasks := kept, pendingTaskCount := p.pendingTaskCount - deleted.length }
  match found with
  | none => (none, deleted, p)
  | some task =>
    (some task, deleted, { p with
      pendingTaskCount := p.pendingTaskCount - 1
      blockingShutdownPendingTaskCount :=
        if task.blocks then p.blockingShutdownPendingTaskCount - 1
        else p.blockingShutdownPendingTaskCount })

def willRunWorkerTask (p : Inner) (task : SequencedTask) : Nat × Inner :=
  prepareToStartAdditionalThreadIfHelpful { p with
    currentSequences :=
      if task.sequenceTokenId ≠ 0 then insert task.sequenceTokenId p.currentSequences
      else p.currentSequences
    blockingShutdownThreadCount :=
      if task.blocks then p.blockingShutdownThreadCount + 1 else p.blockingShutdownThreadCount }

def didRunWorkerTask (p : Inner) (task : SequencedTask) : Inner :=
  { p with
    blockingShutdownThreadCount :=
      if task.blocks then p.blockingShutdownThreadCount - 1 else p.blockingShutdownThreadCount
    currentSequences :=
      if task.sequenceTokenId ≠ 0 then p.currentSequences.erase task.sequenceTokenId
      else p.currentSequences }

/-- The critical section of PostTask that accepts a task: what PrepareToStart says. -/
def accept (p : Inner) (task : SequencedTask) : Nat × Inner :=
  prepareToStartAdditionalThreadIfHelpful { p with
    pendingTasks := p.pendingTasks ++ [task]
    pendingTaskCount := p.pendingTaskCount + 1
    blockingShutdownPendingTaskCount :=
      if task.blocks then p.blockingShutdownPendingTaskCount + 1
      else p.blockingShutdownPendingTaskCount }

end Inner

/-! ## Threads -/

/-- Where a worker thread stands in ThreadLoop. -/
inductive Worker
  /-- in front of the first lock -/
  | starting
  /-- blocked in has_work_cv_ -/
  | waiting
  /-- out of has_work_cv_, in front of the lock -/
  | woken
  /-- the lock dropped around a task: SignalHasWork comes, then a thread if a number is there -/
  | claimed (task : SequencedTask) (newThreadId : Nat)
  /-- FinishStartingAdditionalThread comes -/
  | creating (task : SequencedTask)
  /-- the task comes -/
  | ready (task : SequencedTask)
  | running (task : SequencedTask)
  /-- behind the task, in front of the lock -/
  | ran (task : SequencedTask)
  /-- out of the loop: SignalHasWork comes -/
  | exiting
  /-- can_shutdown_cv_.Signal comes -/
  | leaving
  | exited
  deriving DecidableEq, Repr

/-- What comes in a call of PostTask after its lock. -/
inductive Poster
  | creating
  | signalling
  deriving DecidableEq, Repr

/-- Where the first call of Shutdown stands. -/
inductive ShutdownCall
  | notCalled
  /-- in front of the lock and the test of CanShutdown -/
  | checking
  /-- blocked in can_shutdown_cv_ -/
  | waiting
  | returned
  deriving DecidableEq, Repr

/-- The pool with its threads, and what has become of the tasks so far. -/
structure State where
  inner : Inner
  workers : List Worker
  posters : List Poster
  shutdown : ShutdownCall
  posted : Nat
  accepted : List SequencedTask
  rejected : List SequencedTask
  started : List SequencedTask
  finished : List SequencedTask
  deleted : List SequencedTask

namespace State

def create (maxThreads : Nat) : State where
  inner := .create maxThreads
  workers := []
  posters := []
  shutdown := .notCalled
  posted := 0
  accepted := []
  rejected := []
  started := []
  finished := []
  deleted := []

/-- has_work_cv_.Signal wakes a waiter if there is one. Others that it wakes are woken
spuriously. -/
def signalHasWork (s : State) (wake : Option Nat) : Option State :=
  match wake with
  | some i =>
    if s.workers[i]? = some .waiting then some { s with workers := s.workers.set i .woken } else none
  | none => if .waiting ∈ s.workers then none else some s

def setWorker (s : State) (i : Nat) (worker : Worker) : State :=
  { s with workers := s.workers.set i worker }

/-- A turn of the loop of ThreadLoop from its beginning to where the lock is dropped. -/
def turn (s : State) (i : Nat) : State :=
  match s.inner.getWork with
  | (some task, deleted, p) =>
    let (newThreadId, p) := p.willRunWorkerTask task
    { s.setWorker i (.claimed task newThreadId) with inner := p, deleted := s.deleted ++ deleted }
  | (none, deleted, p) =>
    if p.shutdownCalled then
      { s.setWorker i .exiting with inner := p, deleted := s.deleted ++ deleted }
    else
      { s.setWorker i .waiting with
        inner := { p with waitingThreadCount := p.waitingThreadCount + 1 }
        deleted := s.deleted ++ deleted }

/-- What a thread does next. Workers and calls of PostTask are counted from 0 on; `wake` is the
waiter that a signal wakes. -/
inductive Action
  | getSequenceToken
  | getNamedSequenceToken (name : String)
  /-- PostTask up to the end of its critical section -/
  | postTask (optionalTokenName : Option String) (sequenceToken : Int)
      (shutdownBehavior : WorkerShutdown)
  /-- the rest of PostTask -/
  | finishPostTask (k : Nat) (wake : Option Nat)
  /-- a new worker takes the lock -/
  | enter (i : Nat)
  | wakeSpuriously (i : Nat)
  /-- a woken worker takes the lock -/
  | resume (i : Nat)
  | signalHasWork (i : Nat) (wake : Option Nat)
  | finishStartingAdditionalThread (i : Nat)
  | startTask (i : Nat)
  | finishTask (i : Nat)
  /-- a worker takes the lock after its task -/
  | didRunTask (i : Nat)
  | signalExit (i : Nat) (wake : Option Nat)
  | signalCanShutdown (i : Nat)
  /-- Shutdown up to the end of its first critical section -/
  | shutdown (wake : Option Nat)
  | wakeShutdownSpuriously
  /-- Shutdown tests CanShutdown under the lock -/
  | checkShutdown
  deriving DecidableEq, Repr

def postTask (s : State) (optionalTokenName : Option String) (sequenceToken : Int)
    (shutdownBehavior : WorkerShutdown) : State :=
  let task : SequencedTask := ⟨s.posted, sequenceToken, shutdownBehavior⟩
  if s.inner.shutdownCalled then
    { s with posted := s.posted + 1, rejected := s.rejected ++ [task] }
  else
    let (id, p) :=
      match optionalTokenName with
      | some name => s.inner.lockedGetNamedTokenID name
      | none => (sequenceToken, s.inner)
    let task := { task with sequenceTokenId := id }
    let (createThreadId, p) := p.accept task
    { s with
      inner := p
      posted := s.posted + 1
      accepted := s.accepted ++ [task]
      posters := s.posters ++ [if createThreadId ≠ 0 then .creating else .signalling] }

def step (s : State) : Action → Option State
  | .getSequenceToken => some { s with inner := s.inner.getSequenceToken.2 }
  | .getNamedSequenceToken name => some { s with inner := (s.inner.lockedGetNamedTokenID name).2 }
  | .postTask optionalTokenName sequenceToken shutdownBehavior =>
    some (s.postTask optionalTokenName sequenceToken shutdownBehavior)
  | .finishPostTask k wake =>
    match s.posters[k]? with
    | some .creating =>
      some { s with posters := s.posters.eraseIdx k, workers := s.workers ++ [.starting] }
    | some .signalling => { s with posters := s.posters.eraseIdx k }.signalHasWork wake
    | none => none
  | .enter i =>
    match s.workers[i]? with
    | some .starting =>
      some ({ s with inner := { s.inner with
        threadBeingCreated := false, threads := s.inner.threads + 1 } }.turn i)
    | _ => none
  | .wakeSpuriously i =>
    match s.workers[i]? with
    | some .waiting => some (s.setWorker i .woken)
    | _ => none
  | .resume i =>
    match s.workers[i]? with
    | some .woken =>
      some ({ s with inner := { s.inner with
        waitingThreadCount := s.inner.waitingThreadCount - 1 } }.turn i)
    | _ => none
  | .signalHasWork i wake =>
    match s.workers[i]? with
    | some (.claimed task newThreadId) =>
      (s.setWorker i (if newThreadId ≠ 0 then .creating task else .ready task)).signalHasWork wake
    | _ => none
  | .finishStartingAdditionalThread i =>
    match s.workers[i]? with
    | some (.creating task) =>
      some { s with workers := s.workers.set i (.ready task) ++ [.starting] }
    | _ => none
  | .startTask i =>
    match s.workers[i]? with
    | some (.ready task) =>
      some { s.setWorker i (.running task) with started := s.started ++ [task] }
    | _ => none
  | .finishTask i =>
    match s.workers[i]? with
    | some (.running task) =>
      some { s.setWorker i (.ran task) with finished := s.finished ++ [task] }
    | _ => none
  | .didRunTask i =>
    match s.workers[i]? with
    | some (.ran task) => some ({ s with inner := s.inner.didRunWorkerTask task }.turn i)
    | _ => none
  | .signalExit i wake =>
    match s.workers[i]? with
    | some .exiting => (s.setWorker i .leaving).signalHasWork wake
    | _ => none
  | .signalCanShutdown i =>
    match s.workers[i]? with
    | some .leaving =>
      some { s.setWorker i .exited with
        shutdown := if s.shutdown = .waiting then .checking else s.shutdown }
    | _ => none
  | .shutdown wake =>
    if s.inner.shutdownCalled then some s
    else
      { s with
        inner := { s.inner with shutdownCalled := true }
        shutdown := if s.inner.canShutdown then .returned else .checking }.signalHasWork wake
  | .wakeShutdownSpuriously =>
    if s.shutdown = .waiting then some { s with shutdown := .checking } else none
  | .checkShutdown =>
    if s.shutdown = .checking then
      some { s with shutdown := if s.inner.canShutdown then .returned else .waiting }
    else none

end State

/-! ## What the pool's counters count

The books that the lock guards agree with the threads and the tasks, in every state that the
threads can reach. -/

open Slots Runs List Option Worker State SequencedTask

/-! ## Stages of a worker -/

namespace Worker

/-- The task that the worker has taken out of the list. -/
def task : Worker → Option SequencedTask
  | claimed task _ | creating task | ready task | running task | ran task => some task
  | _ => none

/-- The task that the worker has taken and not started. -/
def unstarted : Worker → Option SequencedTask
  | claimed task _ | creating task | ready task => some task
  | _ => none

/-- Counted in waiting_thread_count_. -/
def idle : Worker → Bool
  | waiting | woken => true
  | _ => false

/-- Counted in threads_. -/
def entered : Worker → Bool
  | starting => false
  | _ => true

/-- A thread that is on its way, or one that will create it. -/
def makesThread : Worker → Bool
  | starting | creating _ => true
  | claimed _ newThreadId => newThreadId != 0
  | _ => false

def holds (token : Int) (worker : Worker) : Bool :=
  worker.task.any fun task => task.sequenceTokenId == token

def holdsBlocking (worker : Worker) : Bool := worker.task.any blocks

/-- All that the books say of a worker. -/
structure Same (w w' : Worker) : Prop where
  task : w.task = w'.task
  unstarted : w.unstarted = w'.unstarted
  idle : w.idle = w'.idle
  entered : w.entered = w'.entered
  makesThread : w.makesThread = w'.makesThread
  running : ∀ x, (w = running x ↔ w' = running x)

end Worker

/-! ## The scan of GetWork -/

variable {kept deleted : List SequencedTask}

namespace Inner

variable {p : Inner}

/-- What the loop of GetWork has done to a list of tasks. -/
structure Scanned (p : Inner) (tasks kept deleted : List SequencedTask)
    (found : Option SequencedTask) : Prop where
  count : ∀ x, tasks.count x = kept.count x + found.toList.count x + deleted.count x
  sublist : kept.Sublist tasks
  free : ∀ task ∈ deleted, task.blocks = false
  none : found = none → ∀ task ∈ kept, p.isSequenceTokenRunnable task.sequenceTokenId = false
  runnable : ∀ task ∈ found, p.isSequenceTokenRunnable task.sequenceTokenId = true
  blocks : p.shutdownCalled = true → ∀ task ∈ found, task.blocks = true
  first : tasks.Pairwise (fun a b => a.id < b.id) → ∀ task ∈ found, ∀ other ∈ kept,
    p.isSequenceTokenRunnable other.sequenceTokenId = true → task.id < other.id

theorem scan_spec (p : Inner) (tasks : List SequencedTask) :
    Scanned p tasks (p.scan tasks).2.1 (p.scan tasks).2.2 (p.scan tasks).1 := by
  induction tasks with
  | nil => exact ⟨fun _ => rfl, .slnil, nofun, nofun, nofun, nofun, nofun⟩
  | cons task tasks ih =>
    rcases hrest : p.scan tasks with ⟨found, kept, deleted⟩
    rw [hrest] at ih
    rw [scan, hrest]
    dsimp only at ih ⊢
    split
    · rename_i hblocked
      have hblocked : p.isSequenceTokenRunnable task.sequenceTokenId = false := by
        simpa using hblocked
      show Scanned p (task :: tasks) (task :: kept) deleted found
      refine ⟨fun x => ?_, ih.sublist.cons_cons _, ih.free, fun hnone => ?_, ih.runnable, ih.blocks,
        fun hsort found hfound other hother hother' => ?_⟩
      · have := ih.count x
        rw [count_cons, count_cons]
        omega
      · intro other hother
        obtain rfl | hother := mem_cons.mp hother
        · exact hblocked
        · exact ih.none hnone other hother
      · obtain rfl | hother := mem_cons.mp hother
        · rw [hblocked] at hother'
          cases hother'
        · exact ih.first (pairwise_cons.mp hsort).2 found hfound other hother hother'
    · rename_i hrun
      have hrun : p.isSequenceTokenRunnable task.sequenceTokenId = true := by
        simpa using hrun
      split
      · rename_i hdelete
        rw [Bool.and_eq_true, Bool.not_eq_true'] at hdelete
        show Scanned p (task :: tasks) kept (task :: deleted) found
        refine ⟨fun x => ?_, ih.sublist.cons _, ?_, ih.none, ih.runnable, ih.blocks,
          fun hsort => ih.first (pairwise_cons.mp hsort).2⟩
        · have := ih.count x
          rw [count_cons, count_cons]
          omega
        · intro other hother
          obtain rfl | hother := mem_cons.mp hother
          · exact hdelete.2
          · exact ih.free other hother
      · rename_i hkeep
        refine ⟨fun x => ?_, sublist_cons_self _ _, nofun, nofun, ?_, ?_, ?_⟩
        · simp only [toList_some, count_cons, count_nil]
          omega
        · intro found hfound
          obtain rfl := mem_some.mp hfound
          exact hrun
        · intro hshutdown found hfound
          obtain rfl := mem_some.mp hfound
          simpa [hshutdown] using hkeep
        · intro hsort found hfound other hother _
          obtain rfl := mem_some.mp hfound
          exact (pairwise_cons.mp hsort).1 other hother

theorem scan_length (p : Inner) (tasks : List SequencedTask) :
    tasks.length = (p.scan tasks).2.1.length + (p.scan tasks).1.toList.length +
      (p.scan tasks).2.2.length := by
  induction tasks with
  | nil => rfl
  | cons task tasks ih =>
    rcases hrest : p.scan tasks with ⟨found, kept, deleted⟩
    rw [hrest] at ih
    rw [scan, hrest]
    dsimp only at ih ⊢
    split
    · simp only [length_cons]
      omega
    · split
      · simp only [length_cons]
        omega
      · simp

theorem scan_blocks (p : Inner) (tasks : List SequencedTask) :
    tasks.countP blocks = (p.scan tasks).2.1.countP blocks +
      (p.scan tasks).1.toList.countP blocks := by
  induction tasks with
  | nil => rfl
  | cons task tasks ih =>
    rcases hrest : p.scan tasks with ⟨found, kept, deleted⟩
    rw [hrest] at ih
    rw [scan, hrest]
    dsimp only at ih ⊢
    split
    · simp only [countP_cons]
      omega
    · split
      · rename_i hdelete
        rw [Bool.and_eq_true, Bool.not_eq_true'] at hdelete
        simp only [countP_cons, hdelete.2]
        simpa using ih
      · simp only [toList_some, countP_cons, countP_nil]
        omega

/-- GetWork in terms of its scan. -/
theorem getWork_eq {found : Option SequencedTask}
    (h : p.scan p.pendingTasks = (found, kept, deleted)) :
    p.getWork = (found, deleted, { p with
      pendingTasks := kept
      pendingTaskCount := p.pendingTaskCount - deleted.length - found.toList.length
      blockingShutdownPendingTaskCount := p.blockingShutdownPendingTaskCount -
        found.toList.countP blocks }) := by
  unfold getWork
  rw [h]
  cases found with
  | none => rfl
  | some task =>
    dsimp only [toList_some, length_singleton]
    rw [countP_singleton]
    split <;> rfl

/-- Whether another thread is helpful. -/
def Helpful (p : Inner) : Prop :=
  p.shutdownCalled = false ∧ p.threadBeingCreated = false ∧ p.threads < p.maxThreads ∧
    p.waitingThreadCount = 0 ∧
    ∃ task ∈ p.pendingTasks, p.isSequenceTokenRunnable task.sequenceTokenId = true

theorem prepare_cases (p : Inner) :
    (p.Helpful ∧ p.prepareToStartAdditionalThreadIfHelpful =
      (p.threads + 1, { p with threadBeingCreated := true })) ∨
    (¬p.Helpful ∧ p.prepareToStartAdditionalThreadIfHelpful = (0, p)) := by
  have hiff : (!p.shutdownCalled && !p.threadBeingCreated && decide (p.threads < p.maxThreads) &&
      p.waitingThreadCount == 0 &&
      p.pendingTasks.any fun task => p.isSequenceTokenRunnable task.sequenceTokenId) = true ↔
        p.Helpful := by
    simp [Helpful, and_assoc]
  unfold prepareToStartAdditionalThreadIfHelpful
  by_cases h : p.Helpful
  · exact Or.inl ⟨h, if_pos (hiff.mpr h)⟩
  · exact Or.inr ⟨h, if_neg (mt hiff.mp h)⟩

end Inner

/-! ## The books -/

/-- Two tasks that one token orders. -/
def Ordered (a b : SequencedTask) : Prop :=
  a.sequenceTokenId = b.sequenceTokenId → a.sequenceTokenId ≠ 0 → a.id < b.id

/-- The counters count what they are to count, and the tasks are where they are to be. -/
structure Inv (s : State) : Prop where
  pendingCount : s.inner.pendingTaskCount = s.inner.pendingTasks.length
  pendingBlocks : s.inner.blockingShutdownPendingTaskCount =
    s.inner.pendingTasks.countP blocks
  threadBlocks : s.inner.blockingShutdownThreadCount = s.workers.countP Worker.holdsBlocking
  waiting : s.inner.waitingThreadCount = s.workers.countP Worker.idle
  threads : s.inner.threads = s.workers.countP Worker.entered
  creation : s.posters.countP (· == .creating) + s.workers.countP Worker.makesThread =
    if s.inner.threadBeingCreated then 1 else 0
  max : s.inner.threads + (if s.inner.threadBeingCreated then 1 else 0) ≤ s.inner.maxThreads
  sequences : ∀ token, token ≠ 0 → s.workers.countP (Worker.holds token) =
    if token ∈ s.inner.currentSequences then 1 else 0
  conserved : ∀ x, s.accepted.count x = s.inner.pendingTasks.count x +
    s.workers.countP (fun w => w.unstarted == some x) + s.started.count x + s.deleted.count x
  progress : ∀ x, s.started.count x =
    s.workers.countP (· == .running x) + s.finished.count x
  acceptedSorted : s.accepted.Pairwise fun a b => a.id < b.id
  acceptedPosted : ∀ task ∈ s.accepted, task.id < s.posted
  rejectedPosted : ∀ task ∈ s.rejected, task.id < s.posted ∧ ∀ other ∈ s.accepted, other.id ≠ task.id
  pendingSorted : s.inner.pendingTasks.Pairwise fun a b => a.id < b.id
  startedSorted : s.started.Pairwise Ordered
  startedPending : ∀ a ∈ s.started, ∀ b ∈ s.inner.pendingTasks, Ordered a b
  unstarted : ∀ w ∈ s.workers, ∀ task ∈ w.unstarted,
    (∀ a ∈ s.started, Ordered a task) ∧ ∀ b ∈ s.inner.pendingTasks, Ordered task b
  deletedFree : ∀ task ∈ s.deleted, task.blocks = false

theorem Inv.create (maxThreads : Nat) : Inv (.create maxThreads) where
  pendingCount := rfl
  pendingBlocks := rfl
  threadBlocks := rfl
  waiting := rfl
  threads := rfl
  creation := rfl
  max := Nat.zero_le _
  sequences _ _ := rfl
  conserved _ := rfl
  progress _ := rfl
  acceptedSorted := .nil
  acceptedPosted := nofun
  rejectedPosted := nofun
  pendingSorted := .nil
  startedSorted := .nil
  startedPending := nofun
  unstarted := nofun
  deletedFree := nofun

variable {s t : State}

/-- A worker goes on to a stage that tells of no other task, and the books follow it. -/
theorem Inv.replace (h : Inv s) {i : Nat} {w w' : Worker} (hi : s.workers[i]? = some w)
    {blocking waiting threads : Nat} {created : Bool} {sequences : Finset Int}
    (hblocking : blocking + (if w.holdsBlocking then 1 else 0) =
      s.inner.blockingShutdownThreadCount + if w'.holdsBlocking then 1 else 0)
    (hwait : waiting + (if w.idle then 1 else 0) =
      s.inner.waitingThreadCount + if w'.idle then 1 else 0)
    (hthreads : threads + (if w.entered then 1 else 0) =
      s.inner.threads + if w'.entered then 1 else 0)
    (hcreated : (if created then 1 else 0) + (if w.makesThread then 1 else 0) =
      (if s.inner.threadBeingCreated then 1 else 0) + if w'.makesThread then 1 else 0)
    (hmax : threads + (if created then 1 else 0) ≤ s.inner.maxThreads)
    (hseqs : ∀ token, token ≠ 0 →
      (if token ∈ sequences then 1 else 0) + (if w.holds token then 1 else 0) =
        (if token ∈ s.inner.currentSequences then 1 else 0) + if w'.holds token then 1 else 0)
    (hunstarted : w.unstarted = w'.unstarted) (hrun : ∀ x, w = .running x ↔ w' = .running x) :
    Inv { s.setWorker i w' with
      inner := { s.inner with
        blockingShutdownThreadCount := blocking
        waitingThreadCount := waiting
        threads := threads
        threadBeingCreated := created
        currentSequences := sequences } } :=
  { h with
    threadBlocks := by
      have := countP_set_add holdsBlocking w' hi
      have := h.threadBlocks
      unfold setWorker
      dsimp only
      omega
    waiting := by
      have := countP_set_add idle w' hi
      have := h.waiting
      unfold setWorker
      dsimp only
      omega
    threads := by
      have := countP_set_add entered w' hi
      have := h.threads
      unfold setWorker
      dsimp only
      omega
    creation := by
      have := countP_set_add makesThread w' hi
      have := h.creation
      unfold setWorker
      dsimp only
      omega
    max := hmax
    sequences := by
      intro token htoken
      have := countP_set_add (holds token) w' hi
      have := h.sequences token htoken
      have := hseqs token htoken
      unfold setWorker
      dsimp only
      omega
    conserved := by
      intro x
      have heq : (s.workers.set i w').countP (fun w => w.unstarted == some x) =
          s.workers.countP (fun w => w.unstarted == some x) := by
        refine countP_set_of_eq hi ?_
        rw [hunstarted]
      have := h.conserved x
      unfold setWorker
      dsimp only
      omega
    progress := by
      intro x
      have heq : (s.workers.set i w').countP (· == .running x) =
          s.workers.countP (· == .running x) := by
        refine countP_set_of_eq hi ?_
        rw [Bool.eq_iff_iff, beq_iff_eq, beq_iff_eq]
        exact hrun x
      have := h.progress x
      unfold setWorker
      dsimp only
      omega
    unstarted := by
      refine forall_mem_set h.unstarted ?_
      rw [← hunstarted]
      exact h.unstarted w (mem_of_getElem? hi) }

/-- A worker that goes on to a stage of which the books say the same. -/
theorem Inv.setWorker (h : Inv s) {i : Nat} {w w' : Worker} (hi : s.workers[i]? = some w)
    (hsame : w.Same w') : Inv (s.setWorker i w') := by
  refine h.replace hi ?_ ?_ ?_ ?_ h.max (fun token _ => ?_) hsame.unstarted hsame.running
  · rw [holdsBlocking, holdsBlocking, hsame.task]
  · rw [hsame.idle]
  · rw [hsame.entered]
  · rw [hsame.makesThread]
  · rw [holds, holds, hsame.task]

theorem woken_same : Worker.waiting.Same .woken :=
  ⟨rfl, rfl, rfl, rfl, rfl, fun _ => by simp⟩

theorem exiting_same : Worker.exiting.Same .leaving :=
  ⟨rfl, rfl, rfl, rfl, rfl, fun _ => by simp⟩

theorem leaving_same : Worker.leaving.Same .exited :=
  ⟨rfl, rfl, rfl, rfl, rfl, fun _ => by simp⟩

/-- A signal keeps the books. -/
theorem Inv.signalHasWork (h : Inv s) {wake : Option Nat} (hstep : s.signalHasWork wake = some t) :
    Inv t := by
  unfold State.signalHasWork at hstep
  split at hstep
  · split at hstep
    · rename_i hi
      cases hstep
      exact h.setWorker hi woken_same
    · cases hstep
  · split at hstep
    · cases hstep
    · cases hstep
      exact h

/-- The worker at the lock takes no task: what GetWork has deleted leaves the books. -/
theorem Inv.getWork (h : Inv s) (hscan : s.inner.scan s.inner.pendingTasks = (none, kept, deleted))
    :
    Inv { s with
      inner := { s.inner with
        pendingTasks := kept
        pendingTaskCount := s.inner.pendingTaskCount - deleted.length }
      deleted := s.deleted ++ deleted } := by
  have hspec := s.inner.scan_spec s.inner.pendingTasks
  have hlen := s.inner.scan_length s.inner.pendingTasks
  have hblk := s.inner.scan_blocks s.inner.pendingTasks
  rw [hscan] at hspec hlen hblk
  exact { h with
    pendingCount := by
      have := h.pendingCount
      simp only [toList_none, length_nil] at hlen
      dsimp only
      omega
    pendingBlocks := by
      have := h.pendingBlocks
      simp only [toList_none, countP_nil] at hblk
      dsimp only
      omega
    conserved := by
      intro x
      have := h.conserved x
      have := hspec.count x
      simp only [toList_none, count_nil] at this
      dsimp only
      rw [count_append]
      omega
    pendingSorted := h.pendingSorted.sublist hspec.sublist
    startedPending := fun a ha b hb => h.startedPending a ha b (hspec.sublist.subset hb)
    unstarted := fun w hw task htask =>
      ⟨(h.unstarted w hw task htask).1,
        fun b hb => (h.unstarted w hw task htask).2 b (hspec.sublist.subset hb)⟩
    deletedFree := by
      intro task htask
      obtain htask | htask := mem_append.mp htask
      · exact h.deletedFree task htask
      · exact hspec.free task htask }

/-- The worker at the lock takes a task. -/
theorem Inv.claim (h : Inv s) {i : Nat} (hi : s.workers[i]? = some .exited) {task : SequencedTask}
    (hscan : s.inner.scan s.inner.pendingTasks = (some task, kept, deleted)) :
    Inv { s.setWorker i (.claimed task 0) with
      inner := { s.inner with
        pendingTasks := kept
        pendingTaskCount := s.inner.pendingTaskCount - deleted.length - 1
        blockingShutdownPendingTaskCount := s.inner.blockingShutdownPendingTaskCount -
          [task].countP blocks
        currentSequences :=
          if task.sequenceTokenId ≠ 0 then insert task.sequenceTokenId s.inner.currentSequences
          else s.inner.currentSequences
        blockingShutdownThreadCount :=
          if task.blocks then s.inner.blockingShutdownThreadCount + 1
          else s.inner.blockingShutdownThreadCount }
      deleted := s.deleted ++ deleted } := by
  have hspec := s.inner.scan_spec s.inner.pendingTasks
  have hlen := s.inner.scan_length s.inner.pendingTasks
  have hblk := s.inner.scan_blocks s.inner.pendingTasks
  rw [hscan] at hspec hlen hblk
  have hrun := hspec.runnable task rfl
  have hpend : task ∈ s.inner.pendingTasks := by
    have := hspec.count task
    simp only [toList_some, count_singleton_self] at this
    exact count_pos_iff.mp (by omega)
  exact { h with
    pendingCount := by
      have := h.pendingCount
      simp only [toList_some, length_singleton] at hlen
      dsimp only
      omega
    pendingBlocks := by
      have := h.pendingBlocks
      simp only [toList_some] at hblk
      dsimp only
      omega
    threadBlocks := by
      have hset := @countP_set_gain _ _ i _ (claimed task 0) holdsBlocking hi rfl
      have hblocking : (claimed task 0).holdsBlocking = task.blocks := rfl
      rw [hblocking, ← h.threadBlocks] at hset
      unfold State.setWorker
      rw [hset]
      split <;> rfl
    waiting := h.waiting.trans
      (@countP_set_of_eq _ _ i _ (claimed task 0) idle hi rfl).symm
    threads := h.threads.trans
      (@countP_set_of_eq _ _ i _ (claimed task 0) entered hi rfl).symm
    creation := by
      have := @countP_set_of_eq _ _ i _ (claimed task 0) makesThread hi rfl
      have := h.creation
      unfold State.setWorker
      dsimp only
      omega
    sequences := by
      intro token htoken
      have hset := @countP_set_gain _ _ i _ (claimed task 0) (holds token) hi rfl
      have hold : (claimed task 0).holds token = (task.sequenceTokenId == token) := rfl
      rw [hold, h.sequences token htoken] at hset
      unfold State.setWorker
      rw [hset]
      by_cases htask : task.sequenceTokenId = token
      · subst htask
        have hfree : task.sequenceTokenId ∉ s.inner.currentSequences := by
          simpa [Inner.isSequenceTokenRunnable, htoken] using hrun
        simp [htoken, hfree]
      · have hmem : token ∈ (if task.sequenceTokenId ≠ 0 then
            insert task.sequenceTokenId s.inner.currentSequences else s.inner.currentSequences) ↔
              token ∈ s.inner.currentSequences := by
          split
          · rw [Finset.mem_insert]
            exact or_iff_right (Ne.symm htask)
          · rfl
        simp only [hmem, beq_iff_eq, htask, if_false, Nat.add_zero]
    conserved := by
      intro x
      have := h.conserved x
      have := hspec.count x
      have hset := @countP_set_gain _ _ i _ (claimed task 0)
        (fun w => w.unstarted == some x) hi rfl
      have hold : ((claimed task 0).unstarted == some x) = (task == x) := rfl
      rw [hold] at hset
      simp only [toList_some, count_singleton] at this
      unfold State.setWorker
      dsimp only
      rw [count_append]
      omega
    progress := by
      intro x
      have := @countP_set_of_eq _ _ i _ (claimed task 0) (· == .running x) hi rfl
      have := h.progress x
      unfold State.setWorker
      dsimp only
      omega
    pendingSorted := h.pendingSorted.sublist hspec.sublist
    startedPending := fun a ha b hb => h.startedPending a ha b (hspec.sublist.subset hb)
    unstarted := by
      refine forall_mem_set (fun w hw other hother => ⟨(h.unstarted w hw other hother).1,
        fun b hb => (h.unstarted w hw other hother).2 b (hspec.sublist.subset hb)⟩) ?_
      rintro _ ⟨⟩
      refine ⟨fun a ha => h.startedPending a ha task hpend, fun b hb htoken hne => ?_⟩
      refine hspec.first h.pendingSorted task rfl b hb ?_
      rwa [← htoken]
    deletedFree := by
      intro other hother
      obtain hother | hother := mem_append.mp hother
      · exact h.deletedFree other hother
      · exact hspec.free other hother }

end ChromiumUI.WorkerPool
