import ChromiumUI.NaiveTimers
import Mathlib.Data.List.Nodup
import ChromiumUI.Runs

/-!
# Timer

The timer and the tasks it has posted and the loop has not yet run. A call reads the clock at up to
three moments, one after the other. `id`s stand for the addresses of the posted tasks.
-/
namespace ChromiumUI.Base.Timers

open NaiveTimers

variable {U : Type}

/-- A BaseTimerTaskInternal in the queue of the loop: `timer` is whether timer_ is not NULL, and
the loop does not run it before `ready`. -/
structure PostedTask where
  id : Nat
  timer : Bool
  ready : Int
  deriving DecidableEq

structure Timer (U : Type) where
  scheduledTask : Option Nat
  delay : Int
  userTask : Option U
  scheduledRunTime : Int
  desiredRunTime : Int
  mode : Mode
  isRunning : Bool

/-- The times read during a call. -/
structure Clock where
  first : Int
  second : Int
  third : Int

/-- `alive` until the timer is destroyed; `history` are the events so far, the latest first. -/
structure State (U : Type) where
  now : Int
  tasks : List PostedTask
  nextId : Nat
  timer : Timer U
  alive : Bool
  history : List (Event U)

namespace State

def record (e : Event U) (s : State U) : State U := { s with history := e :: s.history }

/-- PostNewScheduledTask: the loop takes the task at `posted`, Now() is read at `read`. -/
def postNewScheduledTask (delay posted read : Int) (s : State U) : State U :=
  { s with
    tasks := s.tasks ++ [⟨s.nextId, true, posted + delay⟩]
    nextId := s.nextId + 1
    timer := { s.timer with
      isRunning := true
      scheduledTask := some s.nextId
      scheduledRunTime := read + delay
      desiredRunTime := read + delay } }

/-- Abandon of the task with this id. -/
def abandon (id : Nat) (tasks : List PostedTask) : List PostedTask :=
  tasks.map fun task => if task.id = id then { task with timer := false } else task

def abandonScheduledTask (s : State U) : State U :=
  match s.timer.scheduledTask with
  | none => s
  | some id =>
    { s with tasks := abandon id s.tasks, timer := { s.timer with scheduledTask := none } }

/-- Stop; the event is recorded by the callers of the timer. -/
def stop (s : State U) : State U :=
  { s with timer := { s.timer with
      isRunning := false
      userTask := if s.timer.mode.retainUserTask then s.timer.userTask else none } }

def stopAndAbandon (s : State U) : State U := s.stop.abandonScheduledTask

def reset (clock : Clock) (s : State U) : State U :=
  match s.timer.scheduledTask with
  | none => s.postNewScheduledTask s.timer.delay clock.first clock.second
  | some _ =>
    let s := { s with timer :=
      { s.timer with desiredRunTime := clock.first + s.timer.delay } }
    if s.timer.desiredRunTime > s.timer.scheduledRunTime then
      { s with timer := { s.timer with isRunning := true } }
    else
      s.abandonScheduledTask.postNewScheduledTask s.timer.delay clock.second clock.third

def setTaskInfo (delay : Int) (userTask : U) (s : State U) : State U :=
  { s with timer := { s.timer with delay := delay, userTask := some userTask } }

def start (delay : Int) (userTask : U) (clock : Clock) (s : State U) : State U :=
  (s.setTaskInfo delay userTask).reset clock

/-- RunScheduledTask; what the user task does is up to the steps that follow. -/
def runScheduledTask (clock : Clock) (s : State U) : State U :=
  if !s.timer.isRunning then s
  else if s.timer.desiredRunTime > s.timer.scheduledRunTime ∧
      s.timer.desiredRunTime > clock.first then
    s.postNewScheduledTask (s.timer.desiredRunTime - clock.first) clock.second clock.third
  else
    let task := s.timer.userTask
    let s := if s.timer.mode.isRepeating then
        s.postNewScheduledTask s.timer.delay clock.second clock.third
      else s.stop
    s.record (.ran clock.first task)

/-- BaseTimerTaskInternal::Run, of a task the loop has taken from its queue. -/
def runTask (task : PostedTask) (clock : Clock) (s : State U) : State U :=
  let s := { s with tasks := s.tasks.filter (·.id ≠ task.id) }
  if !task.timer then s
  else { s with timer := { s.timer with scheduledTask := none } }.runScheduledTask clock

/-- The loop deletes a task it has not run. -/
def discardTask (task : PostedTask) (s : State U) : State U :=
  let s := if task.timer then s.stopAndAbandon.record .stopped else s
  { s with tasks := s.tasks.filter (·.id ≠ task.id) }

end State

inductive Action (U : Type)
  | start (delay : Int) (userTask : U) (clock : Clock)
  | stop
  | reset (clock : Clock)
  | destroy
  | run (task : PostedTask) (clock : Clock)
  | discard (task : PostedTask)

/-- The clock does not go back. -/
def Clock.After (clock : Clock) (now : Int) : Prop :=
  now ≤ clock.first ∧ clock.first ≤ clock.second ∧ clock.second ≤ clock.third

instance (clock : Clock) (now : Int) : Decidable (clock.After now) :=
  inferInstanceAs (Decidable (_ ∧ _ ∧ _))

/-- A call on the timer, or what the loop does. Reset is called with a user task only (it checks
that), the timer is called until it is destroyed, and the loop runs no task before it is ready. -/
def step (s : State U) : Action U → Option (State U)
  | .start delay userTask clock =>
    if s.alive ∧ clock.After s.now then
      some { s.start delay userTask clock with
        now := clock.third, history := .started clock.first delay userTask :: s.history }
    else none
  | .stop => if s.alive then some (s.stop.record .stopped) else none
  | .reset clock =>
    if s.alive ∧ s.timer.userTask.isSome ∧ clock.After s.now then
      some { s.reset clock with now := clock.third, history := .reset clock.first :: s.history }
    else none
  | .destroy =>
    if s.alive then some { s.stopAndAbandon.record .stopped with alive := false } else none
  | .run task clock =>
    if task ∈ s.tasks ∧ clock.After s.now ∧ task.ready ≤ clock.first then
      some { s.runTask task clock with now := clock.third }
    else none
  | .discard task => if task ∈ s.tasks then some (s.discardTask task) else none

/-- A timer just made, with or without a task. -/
def create (mode : Mode) (delay : Int) (userTask : Option U) (now : Int) : State U where
  now := now
  tasks := []
  nextId := 0
  timer := ⟨none, delay, userTask, 0, 0, mode, false⟩
  alive := true
  history := []

/-! ## Every run is lawful

At most one posted task refers to the timer, the scheduled one. While the timer is running there is
such a task, it is ready by the desired time, and it runs the user task or posts the task that
will. -/

open NaiveTimers Runs List Int Bool State

/-! ## The queue -/

/-- The scheduled task is in the queue, and no other task refers to the timer. -/
structure Queued (s : State U) : Prop where
  nodup : (s.tasks.map PostedTask.id).Nodup
  fresh : ∀ task ∈ s.tasks, task.id < s.nextId
  timers : ∀ task ∈ s.tasks, task.timer = true ↔ s.timer.scheduledTask = some task.id
  scheduled : ∀ id, s.timer.scheduledTask = some id →
    ∃ task ∈ s.tasks, task.id = id ∧ task.ready ≤ s.timer.scheduledRunTime

/-- The user task is due at `due` or later, at which the scheduled task serves it: at once if it
is not early for it, and by a continuation if the desired time has been moved. -/
structure Timed (s : State U) (due : Int) : Prop where
  isSome : s.timer.scheduledTask.isSome
  ordered : s.timer.scheduledRunTime ≤ s.timer.desiredRunTime
  moved : s.timer.desiredRunTime > s.timer.scheduledRunTime → due ≤ s.timer.desiredRunTime
  kept : ¬s.timer.desiredRunTime > s.timer.scheduledRunTime →
    ∀ task ∈ s.tasks, task.timer = true → due ≤ task.ready

theorem unique_of_nodup {tasks : List PostedTask} (h : (tasks.map PostedTask.id).Nodup)
    {a b : PostedTask} (ha : a ∈ tasks) (hb : b ∈ tasks) (hid : a.id = b.id) : a = b :=
  inj_on_of_nodup_map h ha hb hid

variable {s : State U}

theorem Queued.no_timer (h : Queued s) (hnone : s.timer.scheduledTask = none) :
    ∀ task ∈ s.tasks, task.timer = false := by
  intro task htask
  have := h.timers task htask
  rw [hnone] at this
  simpa using this

theorem post_spec {delay posted read due : Int} (h : Queued s)
    (hnone : s.timer.scheduledTask = none) (hread : posted ≤ read) (hdue : due ≤ posted + delay) :
    Queued (s.postNewScheduledTask delay posted read) ∧
      Timed (s.postNewScheduledTask delay posted read) due := by
  have hold := h.no_timer hnone
  constructor
  · constructor
    · have hnew : s.nextId ∉ s.tasks.map PostedTask.id := by
        intro hmem
        obtain ⟨task, htask, hid⟩ := mem_map.mp hmem
        exact absurd (h.fresh task htask) (by omega)
      simpa [postNewScheduledTask, nodup_append, h.nodup] using
        fun task htask hid => hnew (mem_map.mpr ⟨task, htask, hid⟩)
    · intro task htask
      rcases mem_append.mp htask with htask | htask
      · exact Nat.lt_succ_of_lt (h.fresh task htask)
      · rw [mem_singleton.mp htask]
        exact Nat.lt_succ_self _
    · intro task htask
      rcases mem_append.mp htask with htask | htask
      · have hne := Nat.ne_of_lt (h.fresh task htask)
        simp [postNewScheduledTask, hold task htask, Ne.symm hne]
      · rw [mem_singleton.mp htask]
        simp [postNewScheduledTask]
    · rintro id ⟨⟩
      refine ⟨_, mem_append_right _ (mem_singleton_self _), rfl, ?_⟩
      exact Int.add_le_add_right hread delay
  · refine ⟨rfl, le_refl _, fun hmoved => absurd hmoved (lt_irrefl _), ?_⟩
    intro _ task htask htimer
    rcases mem_append.mp htask with htask | htask
    · rw [hold task htask] at htimer
      cases htimer
    · rw [mem_singleton.mp htask]
      exact hdue

theorem abandon_spec (h : Queued s) :
    Queued s.abandonScheduledTask ∧ s.abandonScheduledTask.timer.scheduledTask = none := by
  rw [abandonScheduledTask]
  split
  · rename_i hnone
    exact ⟨h, hnone⟩
  · rename_i id hsome
    have hids : (abandon id s.tasks).map PostedTask.id = s.tasks.map PostedTask.id := by
      rw [abandon, map_map]
      refine map_congr_left fun task _ => ?_
      simp only [Function.comp_apply]
      split_ifs <;> rfl
    refine ⟨⟨?_, ?_, ?_, nofun⟩, rfl⟩
    · rw [hids]
      exact h.nodup
    · intro task htask
      have hmem : task.id ∈ s.tasks.map PostedTask.id := hids ▸ mem_map_of_mem htask
      obtain ⟨old, hold, hid⟩ := mem_map.mp hmem
      exact hid ▸ h.fresh old hold
    · intro task htask
      obtain ⟨old, hold, rfl⟩ := mem_map.mp htask
      have htimers := h.timers old hold
      rw [hsome] at htimers
      split_ifs with hid
      · simp
      · have hne : id ≠ old.id := Ne.symm hid
        simp [htimers, hne]

variable {task : PostedTask}

/-- The task that is taken from the queue was the scheduled one if it refers to the timer. -/
theorem take_spec (h : Queued s) (htask : task ∈ s.tasks) :
    Queued { s with
      tasks := s.tasks.filter (·.id ≠ task.id)
      timer := { s.timer with
        scheduledTask := if task.timer then none else s.timer.scheduledTask } } := by
  have hmem : ∀ other ∈ s.tasks.filter (·.id ≠ task.id), other ∈ s.tasks ∧ other.id ≠ task.id := by
    simp
  have htimers := h.timers task htask
  constructor
  · exact h.nodup.sublist (filter_sublist.map _)
  · exact fun other hother => h.fresh other (hmem other hother).1
  · intro other hother
    obtain ⟨hother, hne⟩ := hmem other hother
    have hothers := h.timers other hother
    cases htimer : task.timer with
    | false => simpa [htimer] using hothers
    | true =>
      rw [htimers.mp htimer] at hothers
      simpa [Ne.symm hne] using hothers
  · intro id hid
    cases htimer : task.timer with
    | true => simp [htimer] at hid
    | false =>
      simp only [htimer, false_eq_true, if_false] at hid
      obtain ⟨other, hother, rfl, hready⟩ := h.scheduled id hid
      refine ⟨other, ?_, rfl, hready⟩
      have hne : other.id ≠ task.id := by
        intro heq
        rw [htimers.mpr (hid.trans (congrArg some heq))] at htimer
        cases htimer
      simpa using ⟨hother, hne⟩

theorem filter_spec (h : Queued s) (hnone : s.timer.scheduledTask = none) (p : PostedTask → Bool) :
    Queued { s with tasks := s.tasks.filter p } := by
  have hmem : ∀ task ∈ s.tasks.filter p, task ∈ s.tasks := fun task htask => (mem_filter.mp htask).1
  refine ⟨h.nodup.sublist (filter_sublist.map _), fun task htask => h.fresh task (hmem _ htask),
    fun task htask => h.timers task (hmem _ htask), fun id hid => ?_⟩
  cases hnone.symm.trans hid

/-! ## The calls -/

/-- What a call that arms or stops leaves alone. -/
structure Keeps (s s' : State U) : Prop where
  mode : s'.timer.mode = s.timer.mode
  delay : s'.timer.delay = s.timer.delay
  alive : s'.alive = s.alive
  history : s'.history = s.history

theorem abandon_keeps (s : State U) : Keeps s s.abandonScheduledTask ∧
    s.abandonScheduledTask.timer.userTask = s.timer.userTask ∧
    s.abandonScheduledTask.timer.isRunning = s.timer.isRunning := by
  rw [abandonScheduledTask]
  split <;> exact ⟨⟨rfl, rfl, rfl, rfl⟩, rfl, rfl⟩

variable {clock : Clock}

/-- Reset arms the timer for the time of the call and the delay. -/
theorem reset_spec {now : Int} (h : Queued s) (hclock : clock.After now) :
    Queued (s.reset clock) ∧ Timed (s.reset clock) (clock.first + s.timer.delay) ∧
      (s.reset clock).timer.isRunning = true ∧
      (s.reset clock).timer.userTask = s.timer.userTask ∧ Keeps s (s.reset clock) := by
  obtain ⟨-, hsecond, hthird⟩ := hclock
  rw [reset]
  split
  · rename_i hnone
    obtain ⟨hqueue, htimed⟩ := post_spec h hnone hsecond (le_refl _)
    exact ⟨hqueue, htimed, rfl, rfl, ⟨rfl, rfl, rfl, rfl⟩⟩
  · rename_i id hsome
    dsimp only
    split_ifs with hmoved
    · refine ⟨⟨h.nodup, h.fresh, h.timers, h.scheduled⟩, ?_, rfl, rfl, ⟨rfl, rfl, rfl, rfl⟩⟩
      exact ⟨by simp [hsome], le_of_lt hmoved, fun _ => le_refl _,
        fun hkept => absurd hmoved hkept⟩
    · have hqueue : Queued { s with timer :=
          { s.timer with desiredRunTime := clock.first + s.timer.delay } } :=
        ⟨h.nodup, h.fresh, h.timers, h.scheduled⟩
      obtain ⟨habandoned, hnone⟩ := abandon_spec hqueue
      obtain ⟨hkeeps, htask, -⟩ := abandon_keeps { s with timer :=
        { s.timer with desiredRunTime := clock.first + s.timer.delay } }
      obtain ⟨hposted, htimed⟩ := post_spec habandoned hnone hthird
        (Int.add_le_add_right hsecond s.timer.delay)
      exact ⟨hposted, htimed, rfl, htask,
        ⟨hkeeps.mode, hkeeps.delay, hkeeps.alive, hkeeps.history⟩⟩

theorem stopAndAbandon_spec (h : Queued s) :
    Queued s.stopAndAbandon ∧ s.stopAndAbandon.timer.scheduledTask = none ∧
      s.stopAndAbandon.timer.isRunning = false ∧
      s.stopAndAbandon.timer.userTask = s.stop.timer.userTask ∧ Keeps s s.stopAndAbandon := by
  have hstop : Queued s.stop := ⟨h.nodup, h.fresh, h.timers, h.scheduled⟩
  obtain ⟨hqueue, hnone⟩ := abandon_spec hstop
  obtain ⟨hkeeps, htask, hrun⟩ := abandon_keeps s.stop
  exact ⟨hqueue, hnone, hrun, htask,
    ⟨hkeeps.mode, hkeeps.delay, hkeeps.alive, hkeeps.history⟩⟩

/-! ## The invariant -/

/-- The naive timer of the history so far. -/
abbrev naive (n₀ : Naive U) (s : State U) : Naive U := n₀.after s.timer.mode s.history

structure Good (n₀ : Naive U) (s : State U) : Prop where
  lawful : n₀.Lawful s.timer.mode s.history
  queued : Queued s
  running : (naive n₀ s).running = s.timer.isRunning
  task : (naive n₀ s).task = s.timer.userTask
  delay : (naive n₀ s).delay = s.timer.delay
  armed : (naive n₀ s).armed ≤ s.now
  timed : s.timer.isRunning = true → Timed s (naive n₀ s).due ∧
    (naive n₀ s).armed + s.timer.delay ≤ (naive n₀ s).due ∧ s.timer.userTask.isSome
  dead : s.alive = false → s.timer.scheduledTask = none

variable {n₀ : Naive U}

/-- A call that arms the timer, with its event recorded. -/
theorem Good.arm {r : State U} (e : Event U) (time third : Int) (h : Good n₀ s) (hqueue : Queued r)
    (htimed : Timed r (time + r.timer.delay)) (hrun : r.timer.isRunning = true)
    (hsome : r.timer.userTask.isSome) (hmode : r.timer.mode = s.timer.mode)
    (hhist : r.history = s.history) (halive : r.alive = true) (htime : time ≤ third)
    (hallows : (naive n₀ s).Allows e) (hnext : (naive n₀ s).next s.timer.mode e =
      ⟨true, r.timer.userTask, r.timer.delay, time, time + r.timer.delay⟩) :
    Good n₀ { r with now := third, history := e :: r.history } := by
  have hnaive : naive n₀ { r with now := third, history := e :: r.history } =
      ⟨true, r.timer.userTask, r.timer.delay, time, time + r.timer.delay⟩ := by
    simp only [naive, Naive.after, hmode, hhist]
    exact hnext
  refine ⟨?_, ⟨hqueue.nodup, hqueue.fresh, hqueue.timers, hqueue.scheduled⟩, ?_, ?_, ?_, ?_,
    ?_, fun hdead => absurd (halive.symm.trans hdead) (by decide)⟩
  · refine ⟨?_, ?_⟩
    · rw [hmode, hhist]
      exact h.lawful
    · rw [hmode, hhist]
      exact hallows
  all_goals rw [hnaive]
  · exact hrun.symm
  · exact htime
  · exact fun _ => ⟨⟨htimed.isSome, htimed.ordered, htimed.moved, htimed.kept⟩, le_refl _,
      hsome⟩

variable {userTask : U}

theorem Good.start (h : Good n₀ s) {delay : Int} (halive : s.alive = true)
    (hclock : clock.After s.now) :
    Good n₀ { s.start delay userTask clock with
      now := clock.third, history := .started clock.first delay userTask :: s.history } := by
  have hset : Queued (s.setTaskInfo delay userTask) :=
    ⟨h.queued.nodup, h.queued.fresh, h.queued.timers, h.queued.scheduled⟩
  obtain ⟨hqueue, htimed, hrun, htask, hkeeps⟩ := reset_spec hset hclock
  have hdelay : ((s.setTaskInfo delay userTask).reset clock).timer.delay = delay := hkeeps.delay
  have hhist : ((s.setTaskInfo delay userTask).reset clock).history = s.history := hkeeps.history
  have hthird := le_trans hclock.2.1 hclock.2.2
  have hgood := h.arm (.started clock.first delay userTask) clock.first clock.third hqueue
    (by rw [hdelay]; exact htimed) hrun (by rw [htask]; rfl)
    hkeeps.mode hhist (hkeeps.alive.trans halive) hthird trivial (by rw [htask, hdelay]; rfl)
  rw [hhist] at hgood
  exact hgood

theorem Good.reset (h : Good n₀ s) (halive : s.alive = true) (hsome : s.timer.userTask.isSome)
    (hclock : clock.After s.now) :
    Good n₀ { s.reset clock with
      now := clock.third, history := .reset clock.first :: s.history } := by
  obtain ⟨hqueue, htimed, hrun, htask, hkeeps⟩ := reset_spec h.queued hclock
  have hthird := le_trans hclock.2.1 hclock.2.2
  have hgood := h.arm (.reset clock.first) clock.first clock.third hqueue
    (by rw [hkeeps.delay]; exact htimed) hrun (by rw [htask]; exact hsome) hkeeps.mode
    hkeeps.history (hkeeps.alive.trans halive) hthird (by rw [← h.task] at hsome; exact hsome)
    (by rw [htask, hkeeps.delay, ← h.task, ← h.delay]; rfl)
  rw [hkeeps.history] at hgood
  exact hgood

/-- A state in which the timer is stopped, with that recorded. -/
theorem Good.stopped {r : State U} (h : Good n₀ s) (hqueue : Queued r)
    (hrun : r.timer.isRunning = false) (htask : r.timer.userTask = s.stop.timer.userTask)
    (hkeeps : Keeps s r) (hnow : s.now = r.now)
    (hdead : r.alive = false → r.timer.scheduledTask = none) : Good n₀ (r.record .stopped) := by
  have hnaive : naive n₀ (r.record .stopped) = (naive n₀ s).stop s.timer.mode := by
    simp only [naive, record, Naive.after, hkeeps.mode, hkeeps.history]
    rfl
  refine ⟨?_, ⟨hqueue.nodup, hqueue.fresh, hqueue.timers, hqueue.scheduled⟩, ?_, ?_, ?_, ?_,
    fun hr => absurd (hrun.symm.trans hr) (by decide), hdead⟩
  · refine ⟨?_, trivial⟩
    simp only [record, hkeeps.mode, hkeeps.history]
    exact h.lawful
  all_goals rw [hnaive]
  · exact hrun.symm
  · exact (congrArg (if s.timer.mode.retainUserTask then · else none) h.task).trans htask.symm
  · exact h.delay.trans hkeeps.delay.symm
  · exact le_trans h.armed (le_of_eq hnow)

theorem abandonScheduledTask_now (s : State U) : s.abandonScheduledTask.now = s.now := by
  rw [abandonScheduledTask]
  split <;> rfl

theorem Good.stop (h : Good n₀ s) : Good n₀ (s.stop.record .stopped) :=
  h.stopped ⟨h.queued.nodup, h.queued.fresh, h.queued.timers, h.queued.scheduled⟩ rfl rfl
    ⟨rfl, rfl, rfl, rfl⟩ rfl h.dead

theorem Good.stopAndAbandon (h : Good n₀ s) : Good n₀ (s.stopAndAbandon.record .stopped) := by
  obtain ⟨hqueue, hnone, hrun, htask, hkeeps⟩ := stopAndAbandon_spec h.queued
  exact h.stopped hqueue hrun htask hkeeps (abandonScheduledTask_now s.stop).symm
    fun _ => hnone

/-- With the timer not running, nothing depends on the tasks in the queue. -/
theorem Good.of_not_running {r : State U} (h : Good n₀ s) (hqueue : Queued r)
    (hrun : s.timer.isRunning = false) (hsame : r.timer.isRunning = s.timer.isRunning)
    (htask : r.timer.userTask = s.timer.userTask) (hkeeps : Keeps s r) (hnow : s.now ≤ r.now)
    (hdead : r.alive = false → r.timer.scheduledTask = none) : Good n₀ r := by
  have hnaive : naive n₀ r = naive n₀ s := by
    simp only [naive, hkeeps.mode, hkeeps.history]
  refine ⟨?_, hqueue, ?_, ?_, ?_, ?_, ?_, hdead⟩
  · rw [hkeeps.mode, hkeeps.history]
    exact h.lawful
  · rw [hnaive, hsame]
    exact h.running
  · rw [hnaive, htask]
    exact h.task
  · rw [hnaive, hkeeps.delay]
    exact h.delay
  · rw [hnaive]
    exact le_trans h.armed hnow
  · exact fun hr => absurd (hrun.symm.trans (hsame.symm.trans hr)) (by decide)

/-- The task the timer is told of when it is run. -/
def taken (task : PostedTask) (s : State U) : State U :=
  { s with
    tasks := s.tasks.filter (·.id ≠ task.id)
    timer := { s.timer with scheduledTask := none } }

theorem taken_queued (h : Queued s) (htask : task ∈ s.tasks) (htimer : task.timer = true) :
    Queued (taken task s) := by
  have htake := take_spec h htask
  simp only [htimer, if_true] at htake
  exact htake

/-- Running the scheduled task: the user task is due and runs, or is put off by a new task. -/
theorem runScheduledTask_running (h : Good n₀ s) (htask : task ∈ s.tasks)
    (htimer : task.timer = true) (hready : task.ready ≤ clock.first)
    (hrun : s.timer.isRunning = true) :
    (s.timer.desiredRunTime > s.timer.scheduledRunTime ∧ s.timer.desiredRunTime > clock.first ∧
      (taken task s).runScheduledTask clock = (taken task s).postNewScheduledTask
        (s.timer.desiredRunTime - clock.first) clock.second clock.third ∧
      (naive n₀ s).due ≤ s.timer.desiredRunTime) ∨
    ((taken task s).runScheduledTask clock =
      (if s.timer.mode.isRepeating then
        (taken task s).postNewScheduledTask s.timer.delay clock.second clock.third
      else (taken task s).stop).record (.ran clock.first s.timer.userTask) ∧
      (naive n₀ s).due ≤ clock.first) := by
  obtain ⟨htimed, -, -⟩ := h.timed hrun
  by_cases hmoved : s.timer.desiredRunTime > s.timer.scheduledRunTime
  · by_cases hearly : s.timer.desiredRunTime > clock.first
    · left
      refine ⟨hmoved, hearly, ?_, htimed.moved hmoved⟩
      simp [runScheduledTask, taken, hrun, hmoved, hearly]
    · right
      refine ⟨?_, le_trans (htimed.moved hmoved) (not_lt.mp hearly)⟩
      simp [runScheduledTask, taken, hrun, hearly]
  · right
    refine ⟨?_, le_trans (htimed.kept hmoved task htask htimer) hready⟩
    simp [runScheduledTask, taken, hrun, hmoved]

/-- The continuation serves the same request. -/
theorem Good.continued (h : Good n₀ s) (htask : task ∈ s.tasks) (htimer : task.timer = true)
    (hclock : clock.After s.now) (hrun : s.timer.isRunning = true)
    (hdue : (naive n₀ s).due ≤ s.timer.desiredRunTime) :
    Good n₀ { (taken task s).postNewScheduledTask (s.timer.desiredRunTime - clock.first)
      clock.second clock.third with now := clock.third } := by
  obtain ⟨hfirst, hsecond, hthird⟩ := hclock
  have hserves : (naive n₀ s).due ≤
      clock.second + (s.timer.desiredRunTime - clock.first) := by omega
  obtain ⟨hqueue, htimed⟩ := post_spec (taken_queued h.queued htask htimer) rfl hthird hserves
  obtain ⟨-, harmed, hsome⟩ := h.timed hrun
  refine ⟨h.lawful, ⟨hqueue.nodup, hqueue.fresh, hqueue.timers, hqueue.scheduled⟩,
    h.running.trans hrun, h.task, h.delay, ?_, ?_, fun hdead => ?_⟩
  · exact le_trans h.armed (le_trans hfirst (le_trans hsecond hthird))
  · exact fun _ => ⟨⟨htimed.isSome, htimed.ordered, htimed.moved, htimed.kept⟩, harmed, hsome⟩
  · have hnone := h.dead hdead
    rw [(h.queued.timers task htask).mp htimer] at hnone
    cases hnone

/-- The user task runs lawfully. -/
theorem Good.ran (h : Good n₀ s) (htask : task ∈ s.tasks) (htimer : task.timer = true)
    (hclock : clock.After s.now) (hrun : s.timer.isRunning = true)
    (hdue : (naive n₀ s).due ≤ clock.first) :
    Good n₀ { (if s.timer.mode.isRepeating then
        (taken task s).postNewScheduledTask s.timer.delay clock.second clock.third
      else (taken task s).stop).record (.ran clock.first s.timer.userTask) with
      now := clock.third } := by
  obtain ⟨hfirst, hsecond, hthird⟩ := hclock
  obtain ⟨-, harmed, hsome⟩ := h.timed hrun
  have htaken := taken_queued h.queued htask htimer
  have hnow : (naive n₀ s).armed ≤ clock.first := le_trans h.armed hfirst
  have hallows : (naive n₀ s).Allows (.ran clock.first s.timer.userTask) := by
    refine ⟨h.running.trans hrun, h.task.symm, ?_, hdue, ?_⟩
    · rw [h.task]
      exact hsome
    · rw [h.delay]
      exact le_trans harmed hdue
  have halive : s.alive = true := by
    by_contra hdead
    have hnone := h.dead (eq_false_iff.mpr hdead)
    rw [(h.queued.timers task htask).mp htimer] at hnone
    cases hnone
  by_cases hrepeats : s.timer.mode.isRepeating = true
  · rw [if_pos hrepeats]
    obtain ⟨hqueue, htimed⟩ := post_spec htaken rfl hthird
      (Int.add_le_add_right hsecond s.timer.delay)
    have hnaive : naive n₀ { ((taken task s).postNewScheduledTask s.timer.delay clock.second
        clock.third).record (.ran clock.first s.timer.userTask) with now := clock.third } =
        { naive n₀ s with due := clock.first + (naive n₀ s).delay } := by
      have hmode : ((taken task s).postNewScheduledTask s.timer.delay clock.second
        clock.third).timer.mode = s.timer.mode := rfl
      simp only [naive, record, Naive.after, hmode, Naive.next, hrepeats, if_true]
      rfl
    refine ⟨⟨h.lawful, hallows⟩, ⟨hqueue.nodup, hqueue.fresh, hqueue.timers,
      hqueue.scheduled⟩, ?_, ?_, ?_, ?_, ?_, fun hdead => ?_⟩
    · rw [hnaive]
      exact h.running.trans hrun
    · rw [hnaive]
      exact h.task
    · rw [hnaive]
      exact h.delay
    · rw [hnaive]
      exact le_trans hnow (le_trans hsecond hthird)
    · intro _
      rw [hnaive]
      refine ⟨?_, ?_, hsome⟩
      · rw [h.delay]
        exact ⟨htimed.isSome, htimed.ordered, htimed.moved, htimed.kept⟩
      · rw [h.delay]
        exact Int.add_le_add_right hnow s.timer.delay
    · cases halive.symm.trans hdead
  · rw [if_neg hrepeats]
    have hnaive : naive n₀ { (taken task s).stop.record (.ran clock.first s.timer.userTask) with
        now := clock.third } = (naive n₀ s).stop s.timer.mode := by
      have hmode : (taken task s).stop.timer.mode = s.timer.mode := rfl
      simp only [naive, record, Naive.after, hmode, Naive.next, hrepeats]
      rfl
    refine ⟨⟨h.lawful, hallows⟩, ⟨htaken.nodup, htaken.fresh, htaken.timers, htaken.scheduled⟩,
      ?_, ?_, ?_, ?_, fun hr => absurd hr false_ne_true, fun _ => rfl⟩
    · rw [hnaive]
      rfl
    · rw [hnaive]
      exact congrArg (if s.timer.mode.retainUserTask then · else none) h.task
    · rw [hnaive]
      exact h.delay
    · rw [hnaive]
      exact le_trans hnow (le_trans hsecond hthird)

theorem Good.run (h : Good n₀ s) (htask : task ∈ s.tasks) (hclock : clock.After s.now)
    (hready : task.ready ≤ clock.first) :
    Good n₀ { s.runTask task clock with now := clock.third } := by
  have hnow : s.now ≤ clock.third :=
    le_trans hclock.1 (le_trans hclock.2.1 hclock.2.2)
  cases htimer : task.timer with
  | false =>
    have htake := take_spec h.queued htask
    simp only [htimer, false_eq_true, if_false] at htake
    have hrun : s.runTask task clock = { s with tasks := s.tasks.filter (·.id ≠ task.id) } := by
      simp [runTask, htimer]
    have hother : ∀ other ∈ s.tasks.filter (·.id ≠ task.id), other ∈ s.tasks := fun other hmem =>
      (mem_filter.mp hmem).1
    rw [hrun]
    refine ⟨h.lawful, ⟨htake.nodup, htake.fresh, htake.timers, htake.scheduled⟩, h.running, h.task,
      h.delay, le_trans h.armed hnow, fun hr => ?_, h.dead⟩
    obtain ⟨htimed, hrest⟩ := h.timed hr
    exact ⟨⟨htimed.isSome, htimed.ordered, htimed.moved,
      fun hkept other hmem => htimed.kept hkept other (hother other hmem)⟩, hrest⟩
  | true =>
    have hrun : s.runTask task clock = (taken task s).runScheduledTask clock := by
      simp [runTask, htimer, taken]
    rw [hrun]
    cases hrunning : s.timer.isRunning with
    | false =>
      have hquiet : (taken task s).runScheduledTask clock = taken task s := by
        simp [runScheduledTask, taken, hrunning]
      have htaken := taken_queued h.queued htask htimer
      rw [hquiet]
      exact h.of_not_running ⟨htaken.nodup, htaken.fresh, htaken.timers, htaken.scheduled⟩
        hrunning rfl rfl ⟨rfl, rfl, rfl, rfl⟩ hnow fun _ => rfl
    | true =>
      rcases runScheduledTask_running h htask htimer hready hrunning with
        ⟨-, -, hcontinued, hdue⟩ | ⟨hran, hdue⟩
      · rw [hcontinued]
        exact h.continued htask htimer hclock hrunning hdue
      · rw [hran]
        exact h.ran htask htimer hclock hrunning hdue

theorem Good.discard (h : Good n₀ s) (htask : task ∈ s.tasks) : Good n₀ (s.discardTask task) := by
  rw [discardTask]
  cases htimer : task.timer with
  | false =>
    have htake := take_spec h.queued htask
    simp only [htimer, false_eq_true, if_false] at htake ⊢
    have hother : ∀ other ∈ s.tasks.filter (·.id ≠ task.id), other ∈ s.tasks := fun other hmem =>
      (mem_filter.mp hmem).1
    refine ⟨h.lawful, htake, h.running, h.task, h.delay, h.armed, fun hr => ?_, h.dead⟩
    obtain ⟨htimed, hrest⟩ := h.timed hr
    exact ⟨⟨htimed.isSome, htimed.ordered, htimed.moved,
      fun hkept other hmem => htimed.kept hkept other (hother other hmem)⟩, hrest⟩
  | true =>
    obtain ⟨-, hnone, hrun, -, -⟩ := stopAndAbandon_spec h.queued
    have hgood := h.stopAndAbandon
    simp only [if_true]
    exact hgood.of_not_running (filter_spec hgood.queued hnone _) hrun rfl rfl
      ⟨rfl, rfl, rfl, rfl⟩ (le_refl _) fun _ => hnone

/-- Every step keeps the invariant. -/
theorem step_good {s' : State U} {a : Action U} (h : Good n₀ s) (hstep : step s a = some s') :
    Good n₀ s' := by
  cases a with
  | start delay userTask clock =>
    simp only [step] at hstep
    split_ifs at hstep with hallow
    cases hstep
    exact h.start hallow.1 hallow.2
  | stop =>
    simp only [step] at hstep
    split_ifs at hstep with hallow
    cases hstep
    exact h.stop
  | reset clock =>
    simp only [step] at hstep
    split_ifs at hstep with hallow
    cases hstep
    exact h.reset hallow.1 hallow.2.1 hallow.2.2
  | destroy =>
    simp only [step] at hstep
    split_ifs at hstep with hallow
    cases hstep
    obtain ⟨-, hnone, hrun, -, -⟩ := stopAndAbandon_spec h.queued
    have hgood := h.stopAndAbandon
    refine ⟨hgood.lawful, ⟨hgood.queued.nodup, hgood.queued.fresh, hgood.queued.timers,
      hgood.queued.scheduled⟩, hgood.running, hgood.task, hgood.delay, hgood.armed, fun hr => ?_,
      fun _ => hnone⟩
    cases hrun.symm.trans hr
  | run task clock =>
    simp only [step] at hstep
    split_ifs at hstep with hallow
    cases hstep
    exact h.run hallow.1 hallow.2.1 hallow.2.2
  | discard task =>
    simp only [step] at hstep
    split_ifs at hstep with hallow
    cases hstep
    exact h.discard hallow

/-- The naive timer of a timer just made. -/
def initial (delay : Int) (userTask : Option U) (now : Int) : Naive U :=
  ⟨false, userTask, delay, now, now⟩

theorem create_good (mode : Mode) (delay : Int) (userTask : Option U) (now : Int) :
    Good (initial delay userTask now) (create mode delay userTask now) :=
  ⟨trivial, ⟨nodup_nil, nofun, nofun, nofun⟩, rfl, rfl, rfl, le_refl _, nofun, nofun⟩

theorem reset_mode (s : State U) (clock : Clock) : (s.reset clock).timer.mode = s.timer.mode := by
  rw [reset]
  split
  · rfl
  · dsimp only
    split_ifs
    · rfl
    · exact (abandon_keeps _).1.mode

theorem runScheduledTask_mode (s : State U) (clock : Clock) :
    (s.runScheduledTask clock).timer.mode = s.timer.mode := by
  rw [runScheduledTask]
  split_ifs <;> rfl

theorem stopAndAbandon_mode (s : State U) : s.stopAndAbandon.timer.mode = s.timer.mode :=
  (abandon_keeps s.stop).1.mode

theorem step_mode {s' : State U} {a : Action U} (h : step s a = some s') :
    s'.timer.mode = s.timer.mode := by
  cases a with
  | start delay userTask clock =>
    simp only [step] at h
    split_ifs at h
    cases h
    exact reset_mode _ clock
  | stop =>
    simp only [step] at h
    split_ifs at h
    cases h
    rfl
  | reset clock =>
    simp only [step] at h
    split_ifs at h
    cases h
    exact reset_mode s clock
  | destroy =>
    simp only [step] at h
    split_ifs at h
    cases h
    exact stopAndAbandon_mode s
  | run task clock =>
    simp only [step] at h
    split_ifs at h
    cases h
    simp only [runTask]
    split_ifs
    · rfl
    · exact runScheduledTask_mode _ clock
  | discard task =>
    simp only [step] at h
    split_ifs at h
    cases h
    simp only [discardTask]
    split_ifs
    · exact stopAndAbandon_mode s
    · rfl

/-! ## What the scheduled task leads to -/

/-- The one task that refers to the timer. -/
def Sole (s : State U) (task : PostedTask) : Prop :=
  task ∈ s.tasks ∧ task.timer = true ∧ ∀ other ∈ s.tasks, other.timer = true → other = task

/-- Whenever the loop runs the task, the user task runs. -/
def Serves (s : State U) (task : PostedTask) (userTask : U) : Prop :=
  ∀ clock : Clock, clock.After s.now → task.ready ≤ clock.first →
    ∃ s', step s (.run task clock) = some s' ∧
      s'.history = .ran clock.first (some userTask) :: s.history

theorem Good.sole (h : Good n₀ s) (hrun : s.timer.isRunning = true) :
    ∃ task, Sole s task ∧ task.ready ≤ s.timer.desiredRunTime := by
  obtain ⟨htimed, -, -⟩ := h.timed hrun
  obtain ⟨id, hid⟩ := Option.isSome_iff_exists.mp htimed.isSome
  obtain ⟨task, htask, rfl, hready⟩ := h.queued.scheduled id hid
  refine ⟨task, ⟨htask, (h.queued.timers task htask).mpr hid, fun other hother htimer => ?_⟩,
    le_trans hready htimed.ordered⟩
  have hsame := (h.queued.timers other hother).mp htimer
  exact unique_of_nodup h.queued.nodup hother htask (Option.some.inj (hsame.symm.trans hid))

theorem step_run_eq (htask : task ∈ s.tasks) (htimer : task.timer = true)
    (hclock : clock.After s.now) (hready : task.ready ≤ clock.first) :
    step s (.run task clock) =
      some { (taken task s).runScheduledTask clock with now := clock.third } := by
  have hrun : s.runTask task clock = (taken task s).runScheduledTask clock := by
    simp [runTask, htimer, taken]
  rw [← hrun]
  exact if_pos ⟨htask, hclock, hready⟩

/-- Where the desired time has not been moved, the scheduled task serves. -/
theorem Good.serves (h : Good n₀ s) (hrun : s.timer.isRunning = true)
    (hkept : ¬s.timer.desiredRunTime > s.timer.scheduledRunTime) (hsole : Sole s task)
    (huser : s.timer.userTask = some userTask) : Serves s task userTask := by
  intro clock hclock hready
  obtain ⟨htask, htimer, -⟩ := hsole
  refine ⟨_, step_run_eq htask htimer hclock hready, ?_⟩
  rcases runScheduledTask_running h htask htimer hready hrun with ⟨hmoved, -⟩ | ⟨hran, -⟩
  · exact absurd hmoved hkept
  · rw [hran, ← huser]
    simp only [record]
    split_ifs <;> rfl

/-- The scheduled task runs the user task, or posts the one that will. -/
theorem Good.leads (h : Good n₀ s) (hrun : s.timer.isRunning = true) (hsole : Sole s task)
    (huser : s.timer.userTask = some userTask) (hclock : clock.After s.now)
    (hready : task.ready ≤ clock.first) :
    ∃ s', step s (.run task clock) = some s' ∧
      (s'.history = .ran clock.first (some userTask) :: s.history ∨
        s'.history = s.history ∧ s'.timer.isRunning = true ∧
          ∃ task', Sole s' task' ∧ Serves s' task' userTask) := by
  obtain ⟨htask, htimer, -⟩ := hsole
  have hstep := step_run_eq htask htimer hclock hready
  refine ⟨_, hstep, ?_⟩
  rcases runScheduledTask_running h htask htimer hready hrun with
    ⟨-, -, hcontinued, -⟩ | ⟨hran, -⟩
  · right
    have hgood := step_good h hstep
    rw [hcontinued] at hgood ⊢
    obtain ⟨task', hsole', -⟩ := hgood.sole rfl
    exact ⟨rfl, rfl, task', hsole',
      hgood.serves rfl (lt_irrefl _) hsole' huser⟩
  · left
    rw [hran, ← huser]
    simp only [record]
    split_ifs <;> rfl

theorem reset_eq_stop_start (clock : Clock) (huser : s.timer.userTask = some userTask) :
    s.reset clock = s.stop.start s.timer.delay userTask clock := by
  obtain ⟨now, tasks, nextId, timer, alive, history⟩ := s
  obtain ⟨scheduled, delay, task, scheduledRun, desiredRun, mode, running⟩ := timer
  obtain rfl : task = some userTask := huser
  cases scheduled with
  | none => rfl
  | some id =>
    simp only [start, setTaskInfo, stop, reset]
    split_ifs <;> rfl

/-- In every run of a timer its history is lawful: the user task runs only while the timer is
running, never before the delay has passed since the last Start or Reset, and it is the task last
set, once for an arming if the timer does not repeat. While the timer is running one task in the
queue refers to it, it is ready by the desired time, and it leads to the user task. Once the timer
is destroyed no task refers to it. Reset is Stop and Start with the same arguments. -/
theorem timer_meets_naive_spec (mode : Mode) (delay : Int) (userTask : Option U) (now : Int)
    (as : List (Action U)) (s : State U)
    (h : run step as (create mode delay userTask now) = some s) :
    (initial delay userTask now).Lawful mode s.history ∧
      (let n := (initial delay userTask now).after mode s.history;
        s.timer.isRunning = n.running ∧ s.timer.userTask = n.task ∧ s.timer.delay = n.delay) ∧
      (mode.isRepeating = false →
        s.history.countP Event.isRun ≤ s.history.countP Event.isArming) ∧
      (s.timer.isRunning = true → ∃ u task, s.timer.userTask = some u ∧ Sole s task ∧
        task.ready ≤ s.timer.desiredRunTime ∧
        ∀ clock : Clock, clock.After s.now → task.ready ≤ clock.first →
          ∃ s', step s (.run task clock) = some s' ∧
            (s'.history = .ran clock.first (some u) :: s.history ∨
              s'.history = s.history ∧ s'.timer.isRunning = true ∧
                ∃ task', Sole s' task' ∧ Serves s' task' u)) ∧
      (s.alive = false → ∀ task ∈ s.tasks, task.timer = false) ∧
      ∀ u clock, s.timer.userTask = some u → s.reset clock = s.stop.start s.timer.delay u clock := by
  have hgood : Good (initial delay userTask now) s :=
    run_invariant (fun _ _ _ => step_good) h (create_good mode delay userTask now)
  have hmode : s.timer.mode = mode := by
    refine run_invariant (P := fun t => t.timer.mode = mode) (fun _ _ _ hs hstep => ?_) h rfl
    exact (step_mode hstep).trans hs
  have hlawful := hgood.lawful
  rw [hmode] at hlawful
  refine ⟨hlawful, ?_, fun honce => ?_, fun hrunning => ?_, fun hdead => ?_, fun u clock =>
    reset_eq_stop_start clock⟩
  · rw [← hmode]
    exact ⟨hgood.running.symm, hgood.task.symm, hgood.delay.symm⟩
  · have hle := Naive.runs_le_armings honce rfl hlawful
    omega
  · obtain ⟨u, hu⟩ := Option.isSome_iff_exists.mp (hgood.timed hrunning).2.2
    obtain ⟨task, hsole, hready⟩ := hgood.sole hrunning
    exact ⟨u, task, hu, hsole, hready, fun clock hclock hearly =>
      hgood.leads hrunning hsole hu hclock hearly⟩
  · exact hgood.queued.no_timer (hgood.dead hdead)

/-- Started at 1 with a delay of 5, run at 7. -/
theorem timer_meets_naive_spec_once :
    ∃ s : State Bool, run step [.start 5 true ⟨1, 1, 1⟩, .run ⟨0, true, 6⟩ ⟨7, 7, 7⟩]
        (create ⟨false, false⟩ 0 none 0) = some s ∧
      s.history = [.ran 7 (some true), .started 1 5 true] ∧
      (initial 0 none 0).Lawful ⟨false, false⟩ s.history := by
  have hrun : ∃ s : State Bool, run step [.start 5 true ⟨1, 1, 1⟩, .run ⟨0, true, 6⟩ ⟨7, 7, 7⟩]
      (create ⟨false, false⟩ 0 none 0) = some s ∧
      s.history = [.ran 7 (some true), .started 1 5 true] := ⟨_, rfl, rfl⟩
  obtain ⟨s, hrun, hhistory⟩ := hrun
  exact ⟨s, hrun, hhistory, (timer_meets_naive_spec _ _ _ _ _ _ hrun).1⟩

end ChromiumUI.Base.Timers
