import ChromiumUI.NumberConversions
import ChromiumUI.Runs

/-!
# MessageLoop

The four queues of a MessageLoop and its three callbacks to the pump. Times are ticks of the
clock, and 0 is the null TimeTicks. A callback says which task it starts; what the task does
comes before the callback returns.
-/
namespace ChromiumUI.MessageLoop

open Base

/-- A PendingTask without its sequence_num. Copies of one Closure have the same `task`. What is
behind `nestable` records the call that posted it: how many tasks were accepted before its own,
how many had been when it began, when it began, and with which delay. -/
structure PendingTask where
  task : Nat
  delayedRunTime : Nat
  nestable : Bool
  id : Nat
  acceptedBefore : Nat
  postTime : Nat
  delayMs : Int
  deriving DecidableEq, Repr

/-- An entry of the delayed queue. `sequenceNum` counts on where the source's int rolls over. -/
structure DelayedTask where
  pending : PendingTask
  sequenceNum : Nat
  deriving DecidableEq, Repr

/-- operator<: the greatest is the next to run. -/
def DelayedTask.less (a b : DelayedTask) : Bool :=
  if a.pending.delayedRunTime < b.pending.delayedRunTime then false
  else if a.pending.delayedRunTime > b.pending.delayedRunTime then true
  else wrapInt (wrapInt a.sequenceNum - wrapInt b.sequenceNum) > 0

/-- top() of the priority queue, and what pop() leaves. -/
def popTop : List DelayedTask → Option (DelayedTask × List DelayedTask)
  | [] => none
  | a :: queue =>
    match popTop queue with
    | none => some (a, [])
    | some (top, rest) => if a.less top then some (top, a :: rest) else some (a, queue)

structure Loop where
  incomingQueue : List PendingTask
  workQueue : List PendingTask
  delayedWorkQueue : List DelayedTask
  deferredNonNestableWorkQueue : List PendingTask
  nextSequenceNum : Nat
  nestableTasksAllowed : Bool
  recentTime : Nat

/-- The run time of a task that is posted now. -/
def calculateDelayedRuntime (now : Nat) (delayMs : Int) : Nat :=
  if delayMs > 0 then now + 1000 * delayMs.toNat else 0

namespace Loop

/-- The constructor. -/
def create : Loop where
  incomingQueue := []
  workQueue := []
  delayedWorkQueue := []
  deferredNonNestableWorkQueue := []
  nextSequenceNum := 0
  nestableTasksAllowed := true
  recentTime := 0

/-- AddToIncomingQueue under the lock: whether ScheduleWork follows. -/
def addToIncomingQueue (l : Loop) (task : PendingTask) : Bool × Loop :=
  (l.incomingQueue.isEmpty, { l with incomingQueue := l.incomingQueue ++ [task] })

def addToDelayedWorkQueue (l : Loop) (task : PendingTask) : Loop :=
  { l with
    delayedWorkQueue := l.delayedWorkQueue ++ [⟨task, l.nextSequenceNum⟩]
    nextSequenceNum := l.nextSequenceNum + 1 }

def reloadWorkQueue (l : Loop) : Loop :=
  if l.workQueue.isEmpty then { l with incomingQueue := [], workQueue := l.incomingQueue } else l

/-- DeferOrRunPendingTask: the task that it runs, if it does. -/
def deferOrRunPendingTask (l : Loop) (runDepth : Nat) (task : PendingTask) :
    Option PendingTask × Loop :=
  if task.nestable || runDepth == 1 then (some task, l)
  else (none, { l with
    deferredNonNestableWorkQueue := l.deferredNonNestableWorkQueue ++ [task] })

/-- The inner loop of DoWork on what is in the work queue: the task that it runs, and the time of
the last call of ScheduleDelayedWork. -/
def executeOldest (runDepth : Nat) : List PendingTask → Loop → Option Nat →
    Option PendingTask × Loop × Option Nat
  | [], l, scheduled => (none, { l with workQueue := [] }, scheduled)
  | task :: rest, l, scheduled =>
    if task.delayedRunTime ≠ 0 then
      let l := l.addToDelayedWorkQueue task
      let scheduled := match popTop l.delayedWorkQueue with
        | some (top, _) =>
          if top.pending.task = task.task then some task.delayedRunTime else scheduled
        | none => scheduled
      executeOldest runDepth rest l scheduled
    else
      match l.deferOrRunPendingTask runDepth task with
      | (some task, l) => (some task, { l with workQueue := rest }, scheduled)
      | (none, l) => executeOldest runDepth rest l scheduled

/-- A turn of the outer loop of DoWork. -/
def doWorkTurn (l : Loop) (runDepth : Nat) : Option PendingTask × Loop × Option Nat :=
  executeOldest runDepth l.reloadWorkQueue.workQueue l.reloadWorkQueue none

/-- DoDelayedWork: the task that it runs, and what it sets next_delayed_work_time to. -/
def doDelayedWork (l : Loop) (runDepth now : Nat) : Option PendingTask × Loop × Option Nat :=
  if !l.nestableTasksAllowed then (none, { l with recentTime := 0 }, some 0)
  else
    match popTop l.delayedWorkQueue with
    | none => (none, { l with recentTime := 0 }, some 0)
    | some (top, rest) =>
      let nextRunTime := top.pending.delayedRunTime
      let l := if nextRunTime > l.recentTime then { l with recentTime := now } else l
      if nextRunTime > l.recentTime then (none, l, some nextRunTime)
      else
        let next := (popTop rest).map fun p => p.1.pending.delayedRunTime
        let (found, l) := { l with delayedWorkQueue := rest }.deferOrRunPendingTask runDepth
          top.pending
        (found, l, next)

/-- ProcessNextDelayedNonNestableTask: the task that it runs. -/
def processNextDelayedNonNestableTask (l : Loop) (runDepth : Nat) : Option PendingTask × Loop :=
  if runDepth ≠ 1 then (none, l)
  else
    match l.deferredNonNestableWorkQueue with
    | [] => (none, l)
    | task :: rest => (some task, { l with deferredNonNestableWorkQueue := rest })

end Loop

/-! ## A MessageLoop under any pump

What the thread of the loop and the threads that post do, with callbacks in any order: a pump
calls them from Run, and a native loop calls them from inside a task. -/

open Runs

/-- A call on the stack of the loop's thread. -/
inductive Frame
  /-- Run or RunAllPending with its RunState -/
  | run
  /-- RunTask with the task -/
  | task (task : PendingTask)
  deriving DecidableEq, Repr

def Frame.isRun : Frame → Bool
  | run => true
  | task _ => false

/-- What the start of a task found. -/
structure Start where
  task : PendingTask
  runDepth : Nat
  nestableTasksAllowed : Bool
  time : Nat
  deriving DecidableEq, Repr

/-- The loop and its thread, the calls that have read the clock and not the queue, and what has
become of the tasks so far. -/
structure State where
  loop : Loop
  now : Nat
  stack : List Frame
  posters : List PendingTask
  accepted : List PendingTask
  started : List Start
  finished : List PendingTask

namespace State

def create (now : Nat) : State where
  loop := .create
  now := now
  stack := []
  posters := []
  accepted := []
  started := []
  finished := []

/-- state_->run_depth -/
def runDepth (s : State) : Nat := s.stack.countP Frame.isRun

/-- RunTask up to the task's own code. -/
def runTask (s : State) (task : PendingTask) : State :=
  { s with
    loop := { s.loop with nestableTasksAllowed := false }
    stack := .task task :: s.stack
    started := s.started ++ [⟨task, s.runDepth, s.loop.nestableTasksAllowed, s.now⟩] }

/-- What a callback leaves, with the task that it runs. -/
def after (s : State) (found : Option PendingTask) (l : Loop) : State :=
  match found with
  | some task => { s with loop := l }.runTask task
  | none => { s with loop := l }

inductive Action
  /-- the clock goes on -/
  | tick (ticks : Nat)
  /-- a call of a Post function, up to the lock -/
  | post (task : Nat) (nestable : Bool) (delayMs : Int)
  /-- AddToIncomingQueue of the `k`-th such call -/
  | addToIncomingQueue (k : Nat)
  | setNestableTasksAllowed (allowed : Bool)
  | run
  /-- Run returns -/
  | endRun
  /-- a turn of the loop of DoWork -/
  | doWork
  | doDelayedWork
  | doIdleWork
  /-- the rest of RunTask -/
  | finishTask
  deriving DecidableEq, Repr

def step (s : State) : Action → Option State
  | .tick ticks => some { s with now := s.now + ticks }
  | .post task nestable delayMs =>
    some { s with
      posters := s.posters ++
        [⟨task, calculateDelayedRuntime s.now delayMs, nestable, 0, s.accepted.length, s.now,
          delayMs⟩] }
  | .addToIncomingQueue k =>
    match s.posters[k]? with
    | some task =>
      let task := { task with id := s.accepted.length }
      some { s with
        loop := (s.loop.addToIncomingQueue task).2
        posters := s.posters.eraseIdx k
        accepted := s.accepted ++ [task] }
    | none => none
  | .setNestableTasksAllowed allowed =>
    some { s with loop := { s.loop with nestableTasksAllowed := allowed } }
  | .run => some { s with stack := .run :: s.stack }
  | .endRun =>
    match s.stack with
    | .run :: stack => some { s with stack := stack }
    | _ => none
  | .doWork =>
    if s.runDepth = 0 then none
    else if !s.loop.nestableTasksAllowed then some s
    else
      let (found, l, _) := s.loop.doWorkTurn s.runDepth
      some (s.after found l)
  | .doDelayedWork =>
    if s.runDepth = 0 then none
    else
      let (found, l, _) := s.loop.doDelayedWork s.runDepth s.now
      some (s.after found l)
  | .doIdleWork =>
    if s.runDepth = 0 then none
    else
      let (found, l) := s.loop.processNextDelayedNonNestableTask s.runDepth
      some (s.after found l)
  | .finishTask =>
    match s.stack with
    | .task task :: stack =>
      some { s with
        loop := { s.loop with nestableTasksAllowed := true }
        stack := stack
        finished := s.finished ++ [task] }
    | _ => none

end State

/-! ## The delayed queue -/

variable {queue rest : List DelayedTask} {top : DelayedTask}

theorem popTop_perm (h : popTop queue = some (top, rest)) : queue.Perm (top :: rest) := by
  induction queue generalizing top rest with
  | nil => cases h
  | cons a queue ih =>
    rw [popTop] at h
    split at h
    · rename_i hnone
      obtain ⟨rfl, rfl⟩ := Prod.mk.inj (Option.some.inj h)
      cases queue with
      | nil => exact .refl _
      | cons b queue =>
        rw [popTop] at hnone
        split at hnone
        · cases hnone
        · split at hnone <;> cases hnone
    · rename_i top' rest' hsome
      split at h
      · obtain ⟨rfl, rfl⟩ := Prod.mk.inj (Option.some.inj h)
        exact (List.Perm.cons a (ih hsome)).trans (.swap _ _ _)
      · obtain ⟨rfl, rfl⟩ := Prod.mk.inj (Option.some.inj h)
        exact .refl _

theorem popTop_eq_none (h : popTop queue = none) : queue = [] := by
  cases queue with
  | nil => rfl
  | cons a queue =>
    rw [popTop] at h
    split at h
    · cases h
    · split at h <;> cases h

/-- No entry of the queue runs before its top. -/
theorem popTop_le (h : popTop queue = some (top, rest)) :
    ∀ a ∈ queue, top.pending.delayedRunTime ≤ a.pending.delayedRunTime := by
  induction queue generalizing top rest with
  | nil => cases h
  | cons a queue ih =>
    rw [popTop] at h
    split at h
    · rename_i hnone
      obtain ⟨rfl, rfl⟩ := Prod.mk.inj (Option.some.inj h)
      rw [popTop_eq_none hnone]
      intro b hb
      rw [List.mem_singleton.mp hb]
    · rename_i top' rest' hsome
      split at h
      · rename_i hless
        obtain ⟨rfl, rfl⟩ := Prod.mk.inj (Option.some.inj h)
        intro b hb
        obtain rfl | hb := List.mem_cons.mp hb
        · rw [DelayedTask.less] at hless
          split at hless
          · cases hless
          · omega
        · exact ih hsome b hb
      · rename_i hless
        obtain ⟨rfl, rfl⟩ := Prod.mk.inj (Option.some.inj h)
        intro b hb
        obtain rfl | hb := List.mem_cons.mp hb
        · exact Nat.le_refl _
        · refine Nat.le_trans ?_ (ih hsome b hb)
          rw [DelayedTask.less] at hless
          by_contra hlt
          rw [if_neg (by omega), if_pos (by omega)] at hless
          exact hless rfl

theorem popTop_sublist (h : popTop queue = some (top, rest)) : rest.Sublist queue := by
  induction queue generalizing top rest with
  | nil => cases h
  | cons a queue ih =>
    rw [popTop] at h
    split at h
    · obtain ⟨rfl, rfl⟩ := Prod.mk.inj (Option.some.inj h)
      exact List.nil_sublist _
    · rename_i top' rest' hsome
      split at h
      · obtain ⟨rfl, rfl⟩ := Prod.mk.inj (Option.some.inj h)
        exact (ih hsome).cons_cons a
      · obtain ⟨rfl, rfl⟩ := Prod.mk.inj (Option.some.inj h)
        exact List.sublist_cons_self _ _

/-! ## What a callback does to the queues -/

/-- One move inside a callback: a task changes its queue, or the cached clock is set. DoWork moves
the tasks of the first two queues, and DoDelayedWork (`timed`) those of the third. -/
inductive Move (timed : Bool) (runDepth now : Nat) : Loop → Loop → Prop
  | reload (l : Loop) : timed = false → l.workQueue = [] →
    Move timed runDepth now l { l with incomingQueue := [], workQueue := l.incomingQueue }
  | delay (l : Loop) (task : PendingTask) (rest : List PendingTask) : timed = false →
    l.workQueue = task :: rest → task.delayedRunTime ≠ 0 →
    Move timed runDepth now l ({ l with workQueue := rest }.addToDelayedWorkQueue task)
  | defer (l : Loop) (task : PendingTask) (rest : List PendingTask) : timed = false →
    runDepth ≠ 1 → l.workQueue = task :: rest → task.delayedRunTime = 0 → task.nestable = false →
    Move timed runDepth now l { l with
      workQueue := rest
      deferredNonNestableWorkQueue := l.deferredNonNestableWorkQueue ++ [task] }
  | deferDelayed (l : Loop) (top : DelayedTask) (rest : List DelayedTask) : timed = true →
    runDepth ≠ 1 → popTop l.delayedWorkQueue = some (top, rest) →
    top.pending.delayedRunTime ≤ l.recentTime → top.pending.nestable = false →
    Move timed runDepth now l { l with
      delayedWorkQueue := rest
      deferredNonNestableWorkQueue := l.deferredNonNestableWorkQueue ++ [top.pending] }
  | look (l : Loop) (time : Nat) : time ≤ now → Move timed runDepth now l { l with recentTime := time }

/-- A callback takes the task that it runs out of its queue. -/
inductive Take (timed : Bool) (runDepth : Nat) : Loop → PendingTask → Loop → Prop
  | work (l : Loop) (task : PendingTask) (rest : List PendingTask) : timed = false →
    l.nestableTasksAllowed = true → l.workQueue = task :: rest → task.delayedRunTime = 0 →
    task.nestable = true ∨ runDepth = 1 →
    Take timed runDepth l task { l with workQueue := rest }
  | delayed (l : Loop) (top : DelayedTask) (rest : List DelayedTask) : timed = true →
    l.nestableTasksAllowed = true → popTop l.delayedWorkQueue = some (top, rest) →
    top.pending.delayedRunTime ≤ l.recentTime → top.pending.nestable = true ∨ runDepth = 1 →
    Take timed runDepth l top.pending { l with delayedWorkQueue := rest }
  | deferred (l : Loop) (task : PendingTask) (rest : List PendingTask) : runDepth = 1 →
    l.deferredNonNestableWorkQueue = task :: rest →
    Take timed runDepth l task { l with deferredNonNestableWorkQueue := rest }

/-- What a callback does: some moves, and perhaps a task to run at their end. -/
def Acts (timed : Bool) (runDepth now : Nat) (l : Loop) (found : Option PendingTask) (l' : Loop) :
    Prop :=
  ∃ l₁, Relation.ReflTransGen (Move timed runDepth now) l l₁ ∧
    ((found = none ∧ l' = l₁) ∨ ∃ task, found = some task ∧ Take timed runDepth l₁ task l')

variable {timed : Bool} {runDepth now : Nat}

theorem Acts.head {l l₁ l' : Loop} {found : Option PendingTask}
    (hmove : Move timed runDepth now l l₁)
    (h : Acts timed runDepth now l₁ found l') : Acts timed runDepth now l found l' := by
  obtain ⟨l₂, hmoves, hend⟩ := h
  exact ⟨l₂, .head hmove hmoves, hend⟩

theorem acts_none (l : Loop) : Acts timed runDepth now l none l := ⟨l, .refl, Or.inl ⟨rfl, rfl⟩⟩

theorem Acts.take {l l' : Loop} {task : PendingTask} (h : Take timed runDepth l task l') :
    Acts timed runDepth now l (some task) l' :=
  ⟨l, .refl, Or.inr ⟨task, rfl, h⟩⟩

/-- What every move and every take keeps, a callback keeps. -/
theorem Acts.preserves {P : Loop → Prop} {l l' : Loop} {found : Option PendingTask}
    (h : Acts timed runDepth now l found l')
    (hmove : ∀ l l', P l → Move timed runDepth now l l' → P l')
    (htake : ∀ l task l', P l → Take timed runDepth l task l' → P l') (hl : P l) : P l' := by
  obtain ⟨l₁, hmoves, hend⟩ := h
  have hmoved : P l₁ := by
    clear hend
    induction hmoves with
    | refl => exact hl
    | tail _ hstep ih => exact hmove _ _ ih hstep
  obtain ⟨-, rfl⟩ | ⟨task, -, htaken⟩ := hend
  · exact hmoved
  · exact htake l₁ task l' hmoved htaken

theorem executeOldest_acts (tasks : List PendingTask) (l : Loop) (scheduled : Option Nat)
    (hallow : l.nestableTasksAllowed = true) :
    Acts false runDepth now { l with workQueue := tasks }
      (Loop.executeOldest runDepth tasks l scheduled).1
      (Loop.executeOldest runDepth tasks l scheduled).2.1 := by
  induction tasks generalizing l scheduled with
  | nil => exact acts_none _
  | cons task rest ih =>
    rw [Loop.executeOldest]
    split
    · rename_i hdelayed
      exact .head (.delay _ task rest rfl rfl hdelayed) (ih (l.addToDelayedWorkQueue task) _ hallow)
    · rename_i htime
      rw [not_not] at htime
      unfold Loop.deferOrRunPendingTask
      split
      · rename_i heq
        split at heq
        · rename_i hruns
          obtain ⟨h, rfl⟩ := Prod.mk.inj heq
          cases h
          rw [Bool.or_eq_true, beq_iff_eq] at hruns
          exact .take (.work { l with workQueue := task :: rest } task rest rfl hallow rfl htime hruns)
        · cases heq
      · rename_i heq
        split at heq
        · cases heq
        · rename_i hdefers
          obtain ⟨-, rfl⟩ := Prod.mk.inj heq
          rw [Bool.or_eq_true, not_or, Bool.not_eq_true, beq_iff_eq] at hdefers
          exact .head (.defer { l with workQueue := task :: rest } task rest rfl hdefers.2 rfl htime
            hdefers.1) (ih { l with
              deferredNonNestableWorkQueue := l.deferredNonNestableWorkQueue ++ [task] } _ hallow)

theorem doWorkTurn_acts (l : Loop) (hallow : l.nestableTasksAllowed = true) :
    Acts false runDepth now l (l.doWorkTurn runDepth).1 (l.doWorkTurn runDepth).2.1 := by
  unfold Loop.doWorkTurn Loop.reloadWorkQueue
  split
  · rename_i hempty
    exact .head (.reload l rfl (List.isEmpty_iff.mp hempty))
      (executeOldest_acts l.incomingQueue
        { l with incomingQueue := [], workQueue := l.incomingQueue } none hallow)
  · exact executeOldest_acts l.workQueue l none hallow

theorem doDelayedWork_acts (l : Loop) :
    Acts true runDepth now l (l.doDelayedWork runDepth now).1 (l.doDelayedWork runDepth now).2.1 := by
  unfold Loop.doDelayedWork
  split
  · exact .head (.look l 0 (Nat.zero_le _)) (acts_none _)
  · rename_i hallow
    rw [Bool.not_eq_true', Bool.not_eq_false] at hallow
    split
    · exact .head (.look l 0 (Nat.zero_le _)) (acts_none _)
    · rename_i top rest htop
      -- the clock is read, or its cached value says enough
      have hlook : ∀ l' : Loop, l'.nestableTasksAllowed = true →
          popTop l'.delayedWorkQueue = some (top, rest) →
          top.pending.delayedRunTime ≤ l'.recentTime →
          Acts true runDepth now l'
            ({ l' with delayedWorkQueue := rest }.deferOrRunPendingTask runDepth top.pending).1
            ({ l' with delayedWorkQueue := rest }.deferOrRunPendingTask runDepth top.pending).2 := by
        intro l' hallow htop htime
        unfold Loop.deferOrRunPendingTask
        split
        · rename_i hruns
          rw [Bool.or_eq_true, beq_iff_eq] at hruns
          exact .take (.delayed l' top rest rfl hallow htop htime hruns)
        · rename_i hdefers
          rw [Bool.or_eq_true, not_or, Bool.not_eq_true, beq_iff_eq] at hdefers
          exact .head (.deferDelayed l' top rest rfl hdefers.2 htop htime hdefers.1) (acts_none _)
      dsimp only
      by_cases hcached : top.pending.delayedRunTime > l.recentTime
      · rw [if_pos hcached]
        refine .head (.look l now (Nat.le_refl _)) ?_
        split
        · exact acts_none _
        · exact hlook { l with recentTime := now } hallow htop (Nat.le_of_not_gt ‹_›)
      · rw [if_neg hcached, if_neg hcached]
        exact hlook l hallow htop (Nat.le_of_not_gt hcached)

theorem processNextDelayedNonNestableTask_acts (l : Loop) :
    Acts timed runDepth now l (l.processNextDelayedNonNestableTask runDepth).1
      (l.processNextDelayedNonNestableTask runDepth).2 := by
  unfold Loop.processNextDelayedNonNestableTask
  split
  · exact acts_none l
  · rename_i hdepth
    rw [not_not] at hdepth
    split
    · exact acts_none l
    · rename_i task rest hdefer
      exact .take (.deferred l task rest hdepth hdefer)

end ChromiumUI.MessageLoop
