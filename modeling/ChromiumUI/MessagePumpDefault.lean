import ChromiumUI.MessageLoop
import ChromiumUI.Slots

/-!
# MessagePumpDefault with a MessageLoop as its delegate

The loop of Run step by step on the loop's thread, and the threads that post, with the event that
they signal. Nested loops run with nestable tasks allowed.
-/
namespace ChromiumUI.MessageLoop.Pump

open Runs

/-- Where a Run of the pump stands. `did` is did_work. -/
inductive Stage
  /-- DoWork comes -/
  | work
  /-- in DoWork, in front of ReloadWorkQueue -/
  | reload
  /-- DoWork has returned, or does so when its task is over -/
  | didWork (did : Bool)
  | didDelayedWork (did : Bool)
  | didIdleWork (did : Bool)
  /-- in event_.Wait, or in event_.TimedWait up to a time -/
  | waiting (timeout : Option Nat)
  deriving DecidableEq, Repr

inductive Frame
  /-- Run, with quit_received of its RunState -/
  | run (stage : Stage) (quitReceived : Bool)
  | task (task : PendingTask)
  deriving DecidableEq, Repr

def Frame.isRun : Frame → Bool
  | run _ _ => true
  | task _ => false

/-- A call of a Post function: in front of the lock of AddToIncomingQueue, or behind it and in
front of ScheduleWork. -/
inductive Poster
  | posting (task : PendingTask)
  | scheduling
  deriving DecidableEq, Repr

structure State where
  loop : Loop
  now : Nat
  stack : List Frame
  posters : List Poster
  /-- event_ is signalled -/
  event : Bool
  keepRunning : Bool
  delayedWorkTime : Nat

namespace State

def create (now : Nat) : State where
  loop := .create
  now := now
  stack := []
  posters := []
  event := false
  keepRunning := true
  delayedWorkTime := 0

section

variable (s : State)

def runDepth : Nat := s.stack.countP Frame.isRun

/-- The innermost Run goes on to `stage`. -/
def goTo (stage : Stage) : State :=
  match s.stack with
  | .run _ quitReceived :: stack => { s with stack := .run stage quitReceived :: stack }
  | _ => s

def runTask (task : PendingTask) : State :=
  { s with
    loop := { s.loop with nestableTasksAllowed := false }
    stack := .task task :: s.stack }

/-- ScheduleDelayedWork, or what DoDelayedWork sets. -/
def setDelayedWorkTime (time : Option Nat) : State :=
  { s with delayedWorkTime := time.getD s.delayedWorkTime }

/-- The pump's loop ends. -/
def leave : State := { s with stack := s.stack.tail, keepRunning := true }

/-- A turn of the loop of DoWork: it returns without a task when there is none to reload. -/
def reload : State :=
  if s.loop.reloadWorkQueue.workQueue.isEmpty then s.goTo (.didWork false)
  else
    let (found, l, scheduled) := s.loop.doWorkTurn s.runDepth
    let s := { s with loop := l }.setDelayedWorkTime scheduled
    match found with
    | some task => (s.goTo (.didWork true)).runTask task
    | none => s

/-- The call of DoDelayedWork. -/
def callDoDelayedWork (did : Bool) : State :=
  let (found, l, next) := s.loop.doDelayedWork s.runDepth s.now
  let s := { s with loop := l }.setDelayedWorkTime next
  match found with
  | some task => (s.goTo (.didDelayedWork true)).runTask task
  | none => s.goTo (.didDelayedWork did)

/-- The call of DoIdleWork, which quits the pump when quit was received. -/
def callDoIdleWork (quitReceived : Bool) : State :=
  match s.loop.processNextDelayedNonNestableTask s.runDepth with
  | (some task, l) => ({ s with loop := l }.goTo (.didIdleWork true)).runTask task
  | (none, l) =>
    { s with loop := l, keepRunning := s.keepRunning && !quitReceived }.goTo (.didIdleWork false)

/-- What the pump does when there is nothing to do. -/
def sleep : State :=
  if s.delayedWorkTime = 0 then s.goTo (.waiting none)
  else if s.delayedWorkTime > s.now then s.goTo (.waiting (some s.delayedWorkTime))
  else { s with delayedWorkTime := 0 }.goTo .work

end

inductive Action
  | tick (ticks : Nat)
  | post (task : Nat) (nestable : Bool) (delayMs : Int)
  | addToIncomingQueue (k : Nat)
  | scheduleWork (k : Nat)
  /-- Run or RunAllPending, from outside or in a task -/
  | run (allPending : Bool)
  | setNestableTasksAllowed (allowed : Bool)
  | quit
  | quitNow
  | finishTask
  /-- the pump goes on -/
  | pump
  /-- a wait ends because of the event -/
  | wake
  /-- a wait ends at its time -/
  | timeOut
  deriving DecidableEq, Repr

/-- Sets quit_received of the innermost RunState. -/
def receiveQuit : List Frame → List Frame
  | [] => []
  | .run stage _ :: stack => .run stage true :: stack
  | .task task :: stack => .task task :: receiveQuit stack

def step (s : State) : Action → Option State
  | .tick ticks => some { s with now := s.now + ticks }
  | .post task nestable delayMs =>
    some { s with
      posters := s.posters ++
        [.posting ⟨task, calculateDelayedRuntime s.now delayMs, nestable, 0, 0, s.now, delayMs⟩] }
  | .addToIncomingQueue k =>
    match s.posters[k]? with
    | some (.posting task) =>
      let (wasEmpty, l) := s.loop.addToIncomingQueue task
      some { s with
        loop := l
        posters := if wasEmpty then s.posters.set k .scheduling else s.posters.eraseIdx k }
    | _ => none
  | .scheduleWork k =>
    match s.posters[k]? with
    | some .scheduling => some { s with posters := s.posters.eraseIdx k, event := true }
    | _ => none
  | .run allPending =>
    match s.stack with
    | .run _ _ :: _ => none
    | _ =>
      if s.loop.nestableTasksAllowed then
        some { s with stack := .run .work allPending :: s.stack }
      else none
  | .setNestableTasksAllowed allowed =>
    match s.stack with
    | .task _ :: _ =>
      some { s with
        loop := { s.loop with nestableTasksAllowed := allowed }
        event := s.event || (allowed && !s.loop.nestableTasksAllowed) }
    | _ => none
  | .quit =>
    match s.stack with
    | .task _ :: _ => some { s with stack := receiveQuit s.stack }
    | _ => none
  | .quitNow =>
    match s.stack with
    | .task _ :: _ => some { s with keepRunning := false }
    | _ => none
  | .finishTask =>
    match s.stack with
    | .task _ :: stack =>
      some { s with loop := { s.loop with nestableTasksAllowed := true }, stack := stack }
    | _ => none
  | .pump =>
    match s.stack with
    | .run .work _ :: _ =>
      some (s.goTo (if s.loop.nestableTasksAllowed then .reload else .didWork false))
    | .run .reload _ :: _ => some s.reload
    | .run (.didWork did) _ :: _ =>
      some (if s.keepRunning then s.callDoDelayedWork did else s.leave)
    | .run (.didDelayedWork did) quitReceived :: _ =>
      some (if !s.keepRunning then s.leave
        else if did then s.goTo .work
        else s.callDoIdleWork quitReceived)
    | .run (.didIdleWork did) _ :: _ =>
      some (if !s.keepRunning then s.leave else if did then s.goTo .work else s.sleep)
    | _ => none
  | .wake =>
    match s.stack with
    | .run (.waiting _) _ :: _ =>
      if s.event then some ({ s with event := false }.goTo .work) else none
    | _ => none
  | .timeOut =>
    match s.stack with
    | .run (.waiting (some time)) _ :: _ => if time ≤ s.now then some (s.goTo .work) else none
    | _ => none

end State

/-! ## It does not sleep on work

From the return of DoWork without a task to the wait, nothing comes into the queues without the
event, and delayed_work_time_ is a lower bound for the delayed queue. -/

open Runs Slots List

variable {s t : State}

namespace Stage

/-- Behind a DoWork that found nothing. -/
def idle : Stage → Bool
  | didWork did | didDelayedWork did | didIdleWork did => !did
  | waiting _ => true
  | _ => false

/-- Between DoDelayedWork and the wait. -/
def timed : Stage → Bool
  | didDelayedWork did | didIdleWork did => !did
  | _ => false

/-- A callback runs a task. -/
def busy : Stage → Bool
  | didWork did | didDelayedWork did | didIdleWork did => did
  | _ => false

theorem not_idle_of_busy {stage : Stage} (h : stage.busy = true) : stage.idle = false := by
  cases stage <;> simp_all [busy, idle]

theorem not_timed_of_busy {stage : Stage} (h : stage.busy = true) : stage.timed = false := by
  cases stage <;> simp_all [busy, timed]

end Stage

/-- The stage of a Run in which the thread is. -/
def State.top (s : State) : Option Stage :=
  match s.stack with
  | .run stage _ :: _ => some stage
  | _ => none

/-- Under every task there is the Run whose callback runs it, and no Run is right under another. -/
def Shape : List Frame → Prop
  | [] => True
  | .run _ _ :: stack => (∀ stage quitReceived rest, stack ≠ .run stage quitReceived :: rest) ∧
    Shape stack
  | .task _ :: stack => (∃ stage quitReceived rest,
      stack = .run stage quitReceived :: rest ∧ stage.busy = true) ∧ Shape stack

/-- delayed_work_time_ is not behind the delayed queue, and null only if that is empty. -/
def Bounded (s : State) : Prop :=
  (s.delayedWorkTime = 0 → s.loop.delayedWorkQueue = []) ∧
    ∀ x ∈ s.loop.delayedWorkQueue, s.delayedWorkTime ≤ x.pending.delayedRunTime

/-- Nothing is in the first two queues without a signal. -/
def Signalled (s : State) : Prop :=
  s.loop.workQueue = [] ∧
    (s.loop.incomingQueue = [] ∨ s.event = true ∨ .scheduling ∈ s.posters)

structure Inv (s : State) : Prop where
  times : ∀ x ∈ s.loop.delayedWorkQueue, x.pending.delayedRunTime ≠ 0
  shape : Shape s.stack
  allowed : ∀ stage ∈ s.top, s.loop.nestableTasksAllowed = true
  signalled : ∀ stage ∈ s.top, stage.idle = true → Signalled s
  bounded : ∀ stage ∈ s.top, stage.timed = true → Bounded s
  untimed : s.top = some (.waiting none) → s.loop.delayedWorkQueue = []
  timed : ∀ time, s.top = some (.waiting (some time)) →
    ∀ x ∈ s.loop.delayedWorkQueue, time ≤ x.pending.delayedRunTime

theorem Inv.create (now : Nat) : Inv (.create now) where
  times := nofun
  shape := trivial
  allowed := nofun
  signalled := nofun
  bounded := nofun
  untimed := nofun
  timed := nofun

/-! ## Posts -/

/-- What the threads that post may do while the loop's thread stays where it is. -/
theorem Inv.post (h : Inv s) {l : Loop} {now : Nat} {posters : List Poster} {event : Bool}
    (hwork : l.workQueue = s.loop.workQueue) (hdelayed : l.delayedWorkQueue = s.loop.delayedWorkQueue)
    (hallow : l.nestableTasksAllowed = s.loop.nestableTasksAllowed)
    (hsignalled : (s.loop.incomingQueue = [] ∨ s.event = true ∨ .scheduling ∈ s.posters) →
      l.incomingQueue = [] ∨ event = true ∨ .scheduling ∈ posters) :
    Inv { s with loop := l, now := now, posters := posters, event := event } where
  times := by
    rw [hdelayed]
    exact h.times
  shape := h.shape
  allowed := by
    rw [hallow]
    exact h.allowed
  signalled stage hstage hidle := by
    obtain ⟨hempty, hincoming⟩ := h.signalled stage hstage hidle
    exact ⟨hwork.trans hempty, hsignalled hincoming⟩
  bounded stage hstage htimed := by
    have := h.bounded stage hstage htimed
    unfold Bounded at this ⊢
    rw [hdelayed]
    exact this
  untimed hstage := hdelayed.trans (h.untimed hstage)
  timed := by
    rw [hdelayed]
    exact h.timed

theorem mem_eraseIdx_of_ne {α : Type*} {l : List α} {k : Nat} {a b : α} (hk : l[k]? = some a)
    (hb : b ∈ l) (hne : a ≠ b) : b ∈ l.eraseIdx k := by
  obtain ⟨j, hj⟩ := mem_iff_getElem?.mp hb
  refine mem_eraseIdx_iff_getElem?.mpr ⟨j, ?_, hj⟩
  rintro rfl
  exact hne (Option.some.inj (hk.symm.trans hj))

theorem Inv.addToIncomingQueue (h : Inv s) {k : Nat} {task : PendingTask}
    (hk : s.posters[k]? = some (.posting task)) :
    Inv { s with
      loop := (s.loop.addToIncomingQueue task).2
      posters := if (s.loop.addToIncomingQueue task).1 then s.posters.set k .scheduling
        else s.posters.eraseIdx k } := by
  refine h.post rfl rfl rfl fun hsignalled => .inr ?_
  unfold Loop.addToIncomingQueue
  by_cases hempty : s.loop.incomingQueue = []
  · rw [if_pos (by simp [hempty])]
    exact .inr (mem_set_slot hk)
  · rw [if_neg (by simpa using hempty)]
    obtain hevent | hposter := hsignalled.resolve_left hempty
    · exact .inl hevent
    · exact .inr (mem_eraseIdx_of_ne hk hposter nofun)

/-! ## Moves of the pump -/

/-- A task starts: the Run under it is busy. -/
theorem inv_runTask {task : PendingTask} (htimes : ∀ x ∈ s.loop.delayedWorkQueue,
    x.pending.delayedRunTime ≠ 0) (hshape : Shape s.stack)
    (hbusy : ∃ stage ∈ s.top, stage.busy = true) : Inv (s.runTask task) where
  times := htimes
  shape := by
    obtain ⟨stage, hstage, hbusy⟩ := hbusy
    refine ⟨?_, hshape⟩
    unfold State.top at hstage
    split at hstage
    · rename_i quitReceived rest heq
      cases hstage
      exact ⟨_, quitReceived, rest, heq, hbusy⟩
    · cases hstage
  allowed := nofun
  signalled := nofun
  bounded := nofun
  untimed := nofun
  timed := nofun

variable {stage₀ : Stage} {quitReceived : Bool} {rest : List Frame}

section

variable (hstack : s.stack = .run stage₀ quitReceived :: rest)
include hstack

theorem goTo_eq (stage : Stage) :
    s.goTo stage = { s with stack := .run stage quitReceived :: rest } := by
  unfold State.goTo
  rw [hstack]

/-- A Run goes on to a stage of which all is known. -/
theorem inv_goTo (stage : Stage)
    (htimes : ∀ x ∈ s.loop.delayedWorkQueue, x.pending.delayedRunTime ≠ 0) (hshape : Shape s.stack)
    (hallow : s.loop.nestableTasksAllowed = true) (hidle : stage.idle = true → Signalled s)
    (htimed : stage.timed = true → Bounded s)
    (hnone : stage = .waiting none → s.loop.delayedWorkQueue = [])
    (hsome : ∀ time, stage = .waiting (some time) →
      ∀ x ∈ s.loop.delayedWorkQueue, time ≤ x.pending.delayedRunTime) : Inv (s.goTo stage) := by
  rw [hstack] at hshape
  rw [goTo_eq hstack]
  refine ⟨htimes, hshape, fun _ _ => hallow, ?_, ?_, ?_, ?_⟩
  · rintro _ ⟨⟩
    exact hidle
  · rintro _ ⟨⟩
    exact htimed
  · exact fun heq => hnone (Option.some.inj heq)
  · exact fun time heq => hsome time (Option.some.inj heq)

/-- A callback of a Run starts a task. -/
theorem inv_startTask {stage : Stage}
    (task : PendingTask) (htimes : ∀ x ∈ s.loop.delayedWorkQueue, x.pending.delayedRunTime ≠ 0)
    (hshape : Shape s.stack) (hbusy : stage.busy = true) : Inv ((s.goTo stage).runTask task) := by
  rw [hstack] at hshape
  rw [goTo_eq hstack]
  exact inv_runTask htimes hshape ⟨stage, rfl, hbusy⟩

end

theorem Inv.leave (h : Inv s) (hstack : s.stack = .run stage₀ quitReceived :: rest) :
    Inv s.leave := by
  have hshape := h.shape
  rw [hstack] at hshape
  have htop : s.leave.top = none := by
    unfold State.leave State.top
    rw [hstack]
    dsimp only [tail_cons]
    split
    · rename_i stage quitReceived rest
      exact absurd rfl (hshape.1 stage quitReceived rest)
    · rfl
  refine ⟨h.times, ?_, ?_, ?_, ?_, ?_, ?_⟩
  · show Shape s.stack.tail
    rw [hstack]
    exact hshape.2
  all_goals
    rw [htop]
    exact nofun

/-! ## What the callbacks keep -/

variable {found : Option PendingTask}

theorem times_acts {timed : Bool} {runDepth now : Nat} {l l' : Loop}
    (hacts : Acts timed runDepth now l found l')
    (h : ∀ x ∈ l.delayedWorkQueue, x.pending.delayedRunTime ≠ 0) :
    ∀ x ∈ l'.delayedWorkQueue, x.pending.delayedRunTime ≠ 0 := by
  refine hacts.preserves
    (P := fun l => ∀ x ∈ l.delayedWorkQueue, x.pending.delayedRunTime ≠ 0) ?_ ?_ h
  · intro l l' h hmove
    cases hmove with
    | delay task rest _ _ htime =>
      intro x hx
      obtain hx | hx := mem_append.mp hx
      · exact h x hx
      · rw [mem_singleton.mp hx]
        exact htime
    | deferDelayed top rest _ _ htop _ _ =>
      exact fun x hx => h x ((popTop_perm htop).mem_iff.mpr (mem_cons_of_mem _ hx))
    | _ => exact h
  · intro l task l' h htake
    cases htake with
    | delayed top rest _ _ htop _ _ =>
      exact fun x hx => h x ((popTop_perm htop).mem_iff.mpr (mem_cons_of_mem _ hx))
    | _ => exact h

theorem allowed_acts {timed : Bool} {runDepth now : Nat} {l l' : Loop}
    (hacts : Acts timed runDepth now l found l') :
    l'.nestableTasksAllowed = l.nestableTasksAllowed := by
  refine hacts.preserves (P := fun l' => l'.nestableTasksAllowed = l.nestableTasksAllowed) ?_ ?_ rfl
  · intro l l' h hmove
    cases hmove <;> exact h
  · intro l task l' h htake
    cases htake <;> exact h

/-- DoDelayedWork leaves the first two queues alone. -/
theorem queues_acts {runDepth now : Nat} {l l' : Loop} (hacts : Acts true runDepth now l found l') :
    l'.workQueue = l.workQueue ∧ l'.incomingQueue = l.incomingQueue := by
  refine hacts.preserves (P := fun l' => l'.workQueue = l.workQueue ∧
    l'.incomingQueue = l.incomingQueue) ?_ ?_ ⟨rfl, rfl⟩
  · intro l l' h hmove
    cases hmove with
    | reload htimed _ => cases htimed
    | delay task rest htimed _ _ => cases htimed
    | defer task rest htimed _ _ _ _ => cases htimed
    | _ => exact h
  · intro l task l' h htake
    cases htake with
    | work task rest htimed _ _ _ _ => cases htimed
    | _ => exact h

/-- The time of the top is a bound for the queue, and not null. -/
theorem top_bounded {queue : List DelayedTask}
    (htimes : ∀ x ∈ queue, x.pending.delayedRunTime ≠ 0) (time : Nat) :
    (((popTop queue).map fun p => p.1.pending.delayedRunTime).getD time = 0 → queue = []) ∧
    ∀ x ∈ queue, ((popTop queue).map fun p => p.1.pending.delayedRunTime).getD time ≤
      x.pending.delayedRunTime := by
  cases htop : popTop queue with
  | none =>
    rw [popTop_eq_none htop]
    exact ⟨fun _ => rfl, nofun⟩
  | some p =>
    obtain ⟨top, rest⟩ := p
    have hmem : top ∈ queue := (popTop_perm htop).mem_iff.mpr mem_cons_self
    exact ⟨fun hnull => absurd hnull (htimes top hmem), popTop_le htop⟩

/-- DoDelayedWork that runs nothing leaves a bound for the queue in next_delayed_work_time. -/
theorem doDelayedWork_bounded {runDepth now : Nat} {l : Loop}
    (hallow : l.nestableTasksAllowed = true)
    (htimes : ∀ x ∈ l.delayedWorkQueue, x.pending.delayedRunTime ≠ 0) (time : Nat)
    (hnone : (l.doDelayedWork runDepth now).1 = none) :
    ((l.doDelayedWork runDepth now).2.2.getD time = 0 →
      (l.doDelayedWork runDepth now).2.1.delayedWorkQueue = []) ∧
    ∀ x ∈ (l.doDelayedWork runDepth now).2.1.delayedWorkQueue,
      (l.doDelayedWork runDepth now).2.2.getD time ≤ x.pending.delayedRunTime := by
  unfold Loop.doDelayedWork at hnone ⊢
  rw [if_neg (by simp [hallow])] at hnone ⊢
  cases htop : popTop l.delayedWorkQueue with
  | none =>
    rw [popTop_eq_none htop]
    exact ⟨fun _ => rfl, nofun⟩
  | some p =>
    obtain ⟨top, rest⟩ := p
    have hmem : top ∈ l.delayedWorkQueue := (popTop_perm htop).mem_iff.mpr mem_cons_self
    have hrest : ∀ x ∈ rest, x.pending.delayedRunTime ≠ 0 :=
      fun x hx => htimes x ((popTop_sublist htop).subset hx)
    rw [htop] at hnone
    dsimp only at hnone ⊢
    -- the clock that is read is either the cached one or a new one
    generalize hl : (if top.pending.delayedRunTime > l.recentTime then { l with recentTime := now }
      else l) = l₁ at hnone ⊢
    have hqueue : l₁.delayedWorkQueue = l.delayedWorkQueue := by
      rw [← hl]
      split <;> rfl
    split at hnone
    · rename_i hlate
      rw [if_pos hlate]
      dsimp only [Option.getD_some]
      rw [hqueue]
      exact ⟨fun hnull => absurd hnull (htimes top hmem), popTop_le htop⟩
    · rename_i hlate
      rw [if_neg hlate]
      unfold Loop.deferOrRunPendingTask at hnone ⊢
      split at hnone
      · cases hnone
      · rename_i hdefers
        rw [if_neg hdefers]
        exact top_bounded hrest time

/-! ## Every step -/

section Pump

variable {stage₀ : Stage} {quitReceived : Bool} {rest : List Frame}

theorem top_of_stack (hstack : s.stack = .run stage₀ quitReceived :: rest) :
    s.top = some stage₀ := by
  unfold State.top
  rw [hstack]

theorem Inv.reload (h : Inv s) (hstack : s.stack = .run .reload quitReceived :: rest) :
    Inv s.reload := by
  have hallow := h.allowed _ (top_of_stack hstack)
  unfold State.reload
  split
  · rename_i hempty
    rw [List.isEmpty_iff] at hempty
    refine inv_goTo hstack _ h.times h.shape hallow (fun _ => ?_) nofun nofun nofun
    unfold Loop.reloadWorkQueue at hempty
    split at hempty
    · rename_i hwork
      exact ⟨isEmpty_iff.mp hwork, .inl hempty⟩
    · rename_i hwork
      exact absurd (isEmpty_iff.mpr hempty) hwork
  · have hacts := @doWorkTurn_acts s.runDepth s.now s.loop hallow
    have htimes := times_acts hacts h.times
    rcases hturn : s.loop.doWorkTurn s.runDepth with ⟨found, l, scheduled⟩
    rw [hturn] at htimes hacts
    cases found with
    | some task =>
      have hstart : Inv ((({ s with loop := l }.setDelayedWorkTime scheduled).goTo
          (.didWork true)).runTask task) :=
        inv_startTask (s := { s with loop := l }.setDelayedWorkTime scheduled) hstack task htimes
          h.shape rfl
      exact hstart
    | none =>
      have htop : s.top = some .reload := top_of_stack hstack
      refine ⟨htimes, h.shape, fun _ _ => (allowed_acts hacts).trans hallow, ?_, ?_, ?_, ?_⟩
      · intro stage hstage hidle
        cases htop.symm.trans hstage
        cases hidle
      · intro stage hstage htimed
        cases htop.symm.trans hstage
        cases htimed
      · exact fun hstage => nomatch htop.symm.trans hstage
      · exact fun time hstage => nomatch htop.symm.trans hstage

theorem Inv.callDoDelayedWork (h : Inv s) {did : Bool}
    (hstack : s.stack = .run (.didWork did) quitReceived :: rest) :
    Inv (s.callDoDelayedWork did) := by
  have hallow := h.allowed _ (top_of_stack hstack)
  have hacts := @doDelayedWork_acts s.runDepth s.now s.loop
  have htimes := times_acts hacts h.times
  have hbounded := @doDelayedWork_bounded s.runDepth s.now s.loop hallow h.times
    s.delayedWorkTime
  unfold State.callDoDelayedWork
  rcases hwork : s.loop.doDelayedWork s.runDepth s.now with ⟨found, l, next⟩
  rw [hwork] at htimes hacts hbounded
  cases found with
  | some task =>
    have hstart : Inv ((({ s with loop := l }.setDelayedWorkTime next).goTo
        (.didDelayedWork true)).runTask task) :=
      inv_startTask (s := { s with loop := l }.setDelayedWorkTime next) hstack task htimes
        h.shape rfl
    exact hstart
  | none =>
    have hsignalled : did = false → Signalled ({ s with loop := l }.setDelayedWorkTime next) := by
      rintro rfl
      obtain ⟨hempty, hincoming⟩ := h.signalled _ (top_of_stack hstack) rfl
      obtain ⟨hwork, hqueue⟩ := queues_acts hacts
      refine ⟨hwork.trans hempty, ?_⟩
      show l.incomingQueue = [] ∨ _
      rwa [hqueue]
    have hbounded : Bounded ({ s with loop := l }.setDelayedWorkTime next) := hbounded rfl
    have hnext : Inv (({ s with loop := l }.setDelayedWorkTime next).goTo (.didDelayedWork did)) := by
      refine inv_goTo (s := { s with loop := l }.setDelayedWorkTime next) hstack
        (.didDelayedWork did) htimes h.shape ((allowed_acts hacts).trans hallow)
        (fun hidle => hsignalled ?_) (fun _ => hbounded) nofun nofun
      simpa [Stage.idle] using hidle
    exact hnext

theorem Inv.callDoIdleWork (h : Inv s)
    (hstack : s.stack = .run (.didDelayedWork false) quitReceived :: rest) (quit : Bool) :
    Inv (s.callDoIdleWork quit) := by
  have hallow := h.allowed _ (top_of_stack hstack)
  have htop := top_of_stack hstack
  unfold State.callDoIdleWork Loop.processNextDelayedNonNestableTask
  split
  · rename_i task l heq
    split at heq
    · cases heq
    · split at heq
      · cases heq
      · rename_i first deferred _
        obtain ⟨-, rfl⟩ := Prod.mk.inj heq
        have hstart : Inv (({ s with loop := { s.loop with
            deferredNonNestableWorkQueue := deferred } }.goTo (.didIdleWork true)).runTask task) :=
          inv_startTask (s := { s with loop := { s.loop with
            deferredNonNestableWorkQueue := deferred } }) hstack task h.times h.shape rfl
        exact hstart
  · rename_i l heq
    have hkept : l = s.loop := by
      split at heq
      · exact (Prod.mk.inj heq).2.symm
      · split at heq
        · exact (Prod.mk.inj heq).2.symm
        · cases heq
    subst hkept
    exact inv_goTo (s := { s with keepRunning := s.keepRunning && !quit }) hstack _ h.times h.shape
      hallow (fun _ => h.signalled _ htop rfl) (fun _ => h.bounded _ htop rfl) nofun nofun

theorem Inv.sleep (h : Inv s) (hstack : s.stack = .run (.didIdleWork false) quitReceived :: rest) :
    Inv s.sleep := by
  have hallow := h.allowed _ (top_of_stack hstack)
  have htop := top_of_stack hstack
  have hbounded := h.bounded _ htop rfl
  unfold State.sleep
  split
  · rename_i hnull
    exact inv_goTo hstack _ h.times h.shape hallow (fun _ => h.signalled _ htop rfl) nofun
      (fun _ => hbounded.1 hnull) nofun
  · split
    · refine inv_goTo hstack _ h.times h.shape hallow (fun _ => h.signalled _ htop rfl) nofun nofun ?_
      rintro _ ⟨⟩
      exact hbounded.2
    · exact inv_goTo (s := { s with delayedWorkTime := 0 }) hstack _ h.times h.shape hallow nofun
        nofun nofun nofun

/-- The pump starts its loop again. -/
theorem Inv.again (h : Inv s) (hstack : s.stack = .run stage₀ quitReceived :: rest) (event : Bool) :
    Inv ({ s with event := event }.goTo .work) :=
  inv_goTo (s := { s with event := event }) hstack _ h.times h.shape
    (h.allowed _ (top_of_stack hstack)) nofun nofun nofun nofun

end Pump

theorem shape_receiveQuit {stack : List Frame} (h : Shape stack) :
    Shape (State.receiveQuit stack) := by
  induction stack with
  | nil => exact h
  | cons frame stack ih =>
    cases frame with
    | run stage quitReceived => exact h
    | task task =>
      obtain ⟨⟨stage, quitReceived, rest, rfl, hbusy⟩, hshape⟩ := h
      exact ⟨⟨stage, true, rest, rfl, hbusy⟩, hshape⟩

/-- While a task runs, nothing is known but the shape of the stack. -/
theorem inv_task {task : PendingTask} {stack : List Frame} (hstack : s.stack = .task task :: stack)
    (htimes : ∀ x ∈ s.loop.delayedWorkQueue, x.pending.delayedRunTime ≠ 0) (hshape : Shape s.stack) :
    Inv s := by
  have htop : s.top = none := by
    unfold State.top
    rw [hstack]
  refine ⟨htimes, hshape, ?_, ?_, ?_, ?_, ?_⟩ <;> rw [htop] <;> exact nofun

theorem Inv.step (h : Inv s) {a : State.Action} (hstep : s.step a = some t) : Inv t := by
  cases a with
  | tick ticks =>
    cases hstep
    exact h.post rfl rfl rfl id
  | post task nestable delayMs =>
    cases hstep
    refine h.post rfl rfl rfl ?_
    exact Or.imp_right (Or.imp_right (mem_append_left _))
  | addToIncomingQueue k =>
    simp only [State.step] at hstep
    split at hstep
    · rename_i hk
      cases hstep
      exact h.addToIncomingQueue hk
    · cases hstep
  | scheduleWork k =>
    simp only [State.step] at hstep
    split at hstep
    · cases hstep
      exact h.post rfl rfl rfl fun _ => .inr (Or.inl rfl)
    · cases hstep
  | run allPending =>
    simp only [State.step] at hstep
    split at hstep
    · cases hstep
    · rename_i hnotRun
      split at hstep
      · rename_i hallow
        cases hstep
        refine ⟨h.times, ⟨fun stage quitReceived rest => hnotRun stage quitReceived rest, h.shape⟩,
          fun _ _ => hallow, ?_, ?_, nofun, nofun⟩ <;> rintro _ ⟨⟩ <;> exact nofun
      · cases hstep
  | setNestableTasksAllowed allowed | quitNow =>
    simp only [State.step] at hstep
    split at hstep
    · rename_i hstack
      cases hstep
      exact inv_task hstack h.times h.shape
    · cases hstep
  | quit =>
    simp only [State.step] at hstep
    split at hstep
    · rename_i task stack hstack
      cases hstep
      refine @inv_task _ task (State.receiveQuit stack) ?_ h.times
        (shape_receiveQuit h.shape)
      rw [hstack]
      rfl
    · cases hstep
  | finishTask =>
    simp only [State.step] at hstep
    split at hstep
    · rename_i task stack hstack
      cases hstep
      have hshape := h.shape
      rw [hstack] at hshape
      obtain ⟨⟨stage, quitReceived, rest, rfl, hbusy⟩, hshape⟩ := hshape
      refine ⟨h.times, hshape, fun _ _ => rfl, ?_, ?_, ?_, ?_⟩
      · rintro _ ⟨⟩ hidle
        rw [Stage.not_idle_of_busy hbusy] at hidle
        cases hidle
      · rintro _ ⟨⟩ htimed
        rw [Stage.not_timed_of_busy hbusy] at htimed
        cases htimed
      · intro heq
        cases heq
        cases hbusy
      · intro time heq
        cases heq
        cases hbusy
    · cases hstep
  | pump =>
    simp only [State.step] at hstep
    split at hstep
    · rename_i hstack
      cases hstep
      have hallow := h.allowed _ (top_of_stack hstack)
      rw [if_pos hallow]
      exact inv_goTo hstack _ h.times h.shape hallow nofun nofun nofun nofun
    · rename_i hstack
      cases hstep
      exact h.reload hstack
    · rename_i hstack
      cases hstep
      split
      · exact h.callDoDelayedWork hstack
      · exact h.leave hstack
    · rename_i did quitReceived rest hstack
      cases hstep
      split
      · exact h.leave hstack
      · cases did with
        | true => exact h.again hstack s.event
        | false => exact h.callDoIdleWork hstack quitReceived
    · rename_i did quitReceived rest hstack
      cases hstep
      split
      · exact h.leave hstack
      · cases did with
        | true => exact h.again hstack s.event
        | false => exact h.sleep hstack
    · cases hstep
  | wake =>
    simp only [State.step] at hstep
    split at hstep
    · rename_i hstack
      split at hstep
      · cases hstep
        exact h.again hstack false
      · cases hstep
    · cases hstep
  | timeOut =>
    simp only [State.step] at hstep
    split at hstep
    · rename_i hstack
      split at hstep
      · cases hstep
        exact h.again hstack s.event
      · cases hstep
    · cases hstep

/-- In every run, while the pump waits and the event is not signalled, the first two queues are
empty or a poster is about to signal it; and the pump waits for the event alone only with an empty
delayed queue, and otherwise up to no later a time than that of the next delayed task. -/
theorem waits_without_work {now : Nat} {as : List State.Action}
    (h : run State.step as (.create now) = some s) {timeout : Option Nat} {quitReceived : Bool}
    {rest : List Frame} (hstack : s.stack = .run (.waiting timeout) quitReceived :: rest) :
    (s.event = false → (s.loop.incomingQueue = [] ∧ s.loop.workQueue = []) ∨
      .scheduling ∈ s.posters) ∧
    (timeout = none → s.loop.delayedWorkQueue = []) ∧
    ∀ time, timeout = some time →
      ∀ x ∈ s.loop.delayedWorkQueue, time ≤ x.pending.delayedRunTime := by
  have hinv : Inv s := run_invariant (fun _ _ _ hs hstep => hs.step hstep) h (.create now)
  have htop := top_of_stack hstack
  refine ⟨fun hevent => ?_, ?_, ?_⟩
  · obtain ⟨hwork, hincoming | hsignalled | hposter⟩ := hinv.signalled _ htop rfl
    · exact .inl ⟨hincoming, hwork⟩
    · rw [hevent] at hsignalled
      cases hsignalled
    · exact .inr hposter
  · rintro rfl
    exact hinv.untimed htop
  · rintro time rfl
    exact hinv.timed time htop

/-- The pump waits, and a thread has pushed a task and not signalled the event. -/
def waitingRun : List State.Action :=
  [.run false, .pump, .pump, .pump, .pump, .pump, .post 0 true 0, .addToIncomingQueue 0]

theorem waits_without_work_pushed : ∃ s, run State.step waitingRun (.create 1) = some s ∧
    s.loop.incomingQueue ≠ [] ∧ .scheduling ∈ s.posters ∧ s.loop.delayedWorkQueue = [] := by
  have hwaits := @waits_without_work _ 1 waitingRun rfl none false [] rfl
  refine ⟨_, rfl, by decide, ?_, hwaits.2.1 rfl⟩
  exact (hwaits.1 rfl).resolve_left fun h => absurd h.1 (by decide)

end ChromiumUI.MessageLoop.Pump
