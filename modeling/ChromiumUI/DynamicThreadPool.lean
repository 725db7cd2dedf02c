import ChromiumUI.Runs
import ChromiumUI.Slots

/-!
# PosixDynamicThreadPool

The pool at the granularity of its lock. A thread that AddTask creates starts at some time; what
a task does is left out.
-/
namespace ChromiumUI.ThreadPool

open Runs Slots List Nat Bool

/-- Where a worker thread is: `starting` and `running` are in front of the next WaitForTask,
`woken` is past the wait on the condition variable and not past the lock. -/
inductive Thread (α : Type) where
  | starting
  | running (task : α)
  | sleeping
  | woken
  | exited
  deriving DecidableEq, Repr

/-- The pool and its threads; `handed` is what WaitForTask has returned, in this order. -/
structure Pool (α : Type) where
  pendingTasks : List α
  numIdleThreads : Nat
  terminated : Bool
  threads : List (Thread α)
  handed : List α
  deriving DecidableEq, Repr

/-- One critical section, or the end of a wait. Signal wakes a sleeping thread if there is one;
`wake` is a time-out or a spurious wake-up. -/
inductive Action (α : Type) where
  | postTask (task : α) (signalled : Option Nat)
  | waitForTask (thread : Nat)
  | wake (thread : Nat)
  | reacquire (thread : Nat)
  | terminate
  deriving DecidableEq, Repr

namespace Thread
variable {α : Type}

def isSleeping : Thread α → Bool
  | sleeping => true
  | _ => false

/-- Counted by num_idle_threads_. -/
def isIdle : Thread α → Bool
  | sleeping => true
  | woken => true
  | _ => false

/-- On its way to the queue. -/
def isAwake : Thread α → Bool
  | starting => true
  | running _ => true
  | woken => true
  | _ => false

/-- Broadcast, to one thread. -/
def awaken : Thread α → Thread α
  | sleeping => woken
  | thread => thread

end Thread

namespace Pool
variable {α : Type}

def new : Pool α := ⟨[], 0, false, [], []⟩

section

variable (s : Pool α)

/-- The thread takes the front of the queue, or goes on as `idle` says. -/
def takeTask (thread : Nat) (idle : Pool α) : Pool α :=
  match s.pendingTasks with
  | [] => idle
  | task :: pending =>
    { s with
      pendingTasks := pending
      threads := s.threads.set thread (.running task)
      handed := s.handed ++ [task] }

def addTask (task : α) (signalled : Option Nat) : Option (Pool α) :=
  if s.terminated then none
  else
    let s := { s with pendingTasks := s.pendingTasks ++ [task] }
    if s.numIdleThreads ≥ s.pendingTasks.length then
      match signalled with
      | none => if s.threads.any Thread.isSleeping then none else some s
      | some thread =>
        match s.threads[thread]? with
        | some .sleeping => some { s with threads := s.threads.set thread .woken }
        | _ => none
    else some { s with threads := s.threads ++ [.starting] }

/-- WaitForTask up to the wait. -/
def waitForTask (thread : Nat) : Pool α :=
  if s.terminated then { s with threads := s.threads.set thread .exited }
  else s.takeTask thread
    { s with
      numIdleThreads := s.numIdleThreads + 1
      threads := s.threads.set thread .sleeping }

/-- WaitForTask after the wait. -/
def reacquire (thread : Nat) : Pool α :=
  let s := { s with numIdleThreads := s.numIdleThreads - 1 }
  s.takeTask thread { s with threads := s.threads.set thread .exited }

def terminate : Option (Pool α) :=
  if s.terminated then none
  else some { s with terminated := true, threads := s.threads.map Thread.awaken }

def step : Action α → Option (Pool α)
  | .postTask task signalled => s.addTask task signalled
  | .waitForTask thread =>
    match s.threads[thread]? with
    | some .starting => some (s.waitForTask thread)
    | some (.running _) => some (s.waitForTask thread)
    | _ => none
  | .wake thread =>
    match s.threads[thread]? with
    | some .sleeping => some { s with threads := s.threads.set thread .woken }
    | _ => none
  | .reacquire thread =>
    match s.threads[thread]? with
    | some .woken => some (s.reacquire thread)
    | _ => none
  | .terminate => s.terminate

end

end Pool

/-- The tasks of the PostTask calls. -/
def posted {α : Type} (actions : List (Action α)) : List α :=
  actions.filterMap fun
    | .postTask task _ => some task
    | _ => none

/-! ## The accounting -/

namespace Pool
variable {α : Type} {s s' : Pool α} {thread : Nat} {old : Thread α}

def awake (s : Pool α) : Nat := s.threads.countP Thread.isAwake

structure Inv (s : Pool α) : Prop where
  idle : s.numIdleThreads = s.threads.countP Thread.isIdle
  served : s.terminated = false → s.pendingTasks.length ≤ s.awake

theorem awaken_isIdle (thread : Thread α) : thread.awaken.isIdle = thread.isIdle := by
  cases thread <;> rfl

theorem isIdle_of_not_sleeping {thread : Thread α} (h : thread.isSleeping = false) :
    thread.isIdle = true → thread.isAwake = true := by
  cases thread <;> simp_all [Thread.isSleeping, Thread.isIdle, Thread.isAwake]

/-- Where nobody sleeps, every idle thread is on its way. -/
theorem idle_le_awake (h : s.threads.any Thread.isSleeping = false) :
    s.threads.countP Thread.isIdle ≤ s.awake := by
  apply countP_mono_left
  intro thread hthread
  exact isIdle_of_not_sleeping (any_eq_false.mp h thread hthread |> eq_false_iff.mpr)

theorem Inv.addTask (h : Inv s) {task : α} {signalled : Option Nat}
    (hstep : s.addTask task signalled = some s') : Inv s' := by
  rw [Pool.addTask] at hstep
  split at hstep
  · cases hstep
  · rename_i hlive
    have hserved := h.served (eq_false_iff.mpr hlive)
    have hidle := h.idle
    dsimp only at hstep
    split at hstep
    · rename_i henough
      rw [length_append, length_singleton] at henough
      cases signalled with
      | none =>
        dsimp only at hstep
        split at hstep
        · cases hstep
        · rename_i hnone
          cases hstep
          refine ⟨hidle, fun _ => ?_⟩
          -- The idle threads have all been woken, and there are enough of them.
          have hle := idle_le_awake (eq_false_iff.mpr hnone)
          change (s.pendingTasks ++ [task]).length ≤ s.awake
          rw [length_append, length_singleton]
          omega
      | some thread =>
        dsimp only at hstep
        split at hstep
        · rename_i hsleeping
          cases hstep
          have hsame : (s.threads.set thread .woken).countP Thread.isIdle =
            s.threads.countP Thread.isIdle := countP_set_of_eq hsleeping rfl
          refine ⟨hidle.trans hsame.symm, fun _ => ?_⟩
          change (s.pendingTasks ++ [task]).length ≤ List.countP _ (s.threads.set thread .woken)
          rw [countP_set_gain hsleeping rfl, length_append, length_singleton]
          exact succ_le_succ hserved
        · cases hstep
    · cases hstep
      refine ⟨?_, fun _ => ?_⟩
      · rw [countP_append]
        exact hidle
      · change (s.pendingTasks ++ [task]).length ≤ List.countP _ (s.threads ++ [.starting])
        rw [countP_append, length_append]
        exact succ_le_succ hserved

theorem Inv.waitForTask (h : Inv s) (hold : s.threads[thread]? = some old)
    (hidle : old.isIdle = false) (hawake : old.isAwake = true) : Inv (s.waitForTask thread) := by
  rw [Pool.waitForTask]
  split
  · rename_i hterminated
    refine ⟨h.idle.trans (countP_set_of_eq hold hidle).symm, fun hlive => ?_⟩
    exact absurd (hterminated.symm.trans hlive) true_eq_false.mp
  · rename_i hlive
    have hserved := h.served (eq_false_iff.mpr hlive)
    rw [takeTask]
    cases hpend : s.pendingTasks with
    | nil =>
      refine ⟨?_, fun _ => zero_le _⟩
      rw [countP_set_gain hold hidle, h.idle]
      rfl
    | cons task pending =>
      refine ⟨h.idle.trans (countP_set_of_eq hold hidle).symm, fun _ => ?_⟩
      change pending.length ≤ List.countP _ (s.threads.set thread (.running task))
      rw [countP_set_of_eq hold hawake]
      rw [hpend, length_cons, awake] at hserved
      omega

theorem Inv.reacquire (h : Inv s) (hwoken : s.threads[thread]? = some .woken) :
    Inv (s.reacquire thread) := by
  have hidle : ∀ new : Thread α, new.isIdle = false →
      s.numIdleThreads - 1 = (s.threads.set thread new).countP Thread.isIdle := by
    intro new hnew
    have hlose := countP_set_lose hwoken hnew
    have hwas : (Thread.woken : Thread α).isIdle = true := rfl
    rw [hwas, if_pos rfl, ← h.idle] at hlose
    omega
  rw [Pool.reacquire]
  rw [takeTask]
  cases hpend : s.pendingTasks with
  | nil =>
    exact ⟨hidle .exited rfl,
      fun _ => zero_le _⟩
  | cons task pending =>
    refine ⟨hidle (.running task) rfl, fun hlive => ?_⟩
    have hserved := h.served hlive
    change pending.length ≤ List.countP _ (s.threads.set thread (.running task))
    have hsame : (s.threads.set thread (.running task)).countP Thread.isAwake =
      s.threads.countP Thread.isAwake := countP_set_of_eq hwoken rfl
    rw [hpend, length_cons, awake] at hserved
    omega

theorem Inv.terminate (h : Inv s) (hstep : s.terminate = some s') : Inv s' := by
  rw [Pool.terminate] at hstep
  split at hstep
  · cases hstep
  · cases hstep
    refine ⟨?_, nofun⟩
    rw [countP_map]
    exact h.idle.trans (countP_congr fun thread _ => by
      rw [Function.comp_apply, awaken_isIdle])

/-- The step lemma. -/
theorem Inv.step (h : Inv s) {a : Action α} (hstep : s.step a = some s') : Inv s' := by
  cases a with
  | postTask task signalled => exact h.addTask hstep
  | waitForTask thread =>
    rw [Pool.step] at hstep
    split at hstep
    · rename_i hold
      cases hstep
      exact h.waitForTask hold rfl rfl
    · rename_i hold
      cases hstep
      exact h.waitForTask hold rfl rfl
    · cases hstep
  | wake thread =>
    rw [Pool.step] at hstep
    split at hstep
    · rename_i hsleeping
      cases hstep
      have hsame : (s.threads.set thread .woken).countP Thread.isIdle =
        s.threads.countP Thread.isIdle := countP_set_of_eq hsleeping rfl
      refine ⟨h.idle.trans hsame.symm, fun hlive => ?_⟩
      have hserved := h.served hlive
      change s.pendingTasks.length ≤ List.countP _ (s.threads.set thread .woken)
      rw [countP_set_gain hsleeping rfl]
      exact le_succ_of_le hserved
    · cases hstep
  | reacquire thread =>
    rw [Pool.step] at hstep
    split at hstep
    · rename_i hwoken
      cases hstep
      exact h.reacquire hwoken
    · cases hstep
  | terminate => exact h.terminate hstep

/-! ## The order of the tasks -/

/-- What has been handed out and what is left, together. -/
def tasks (s : Pool α) : List α := s.handed ++ s.pendingTasks

theorem tasks_takeTask {idle : Pool α} (hidle : idle.tasks = s.tasks) :
    (s.takeTask thread idle).tasks = s.tasks := by
  rw [takeTask]
  split
  · exact hidle
  · rename_i task pending hpend
    rw [tasks, tasks, hpend, append_assoc]
    rfl

theorem tasks_step {a : Action α} (hstep : s.step a = some s') :
    s'.tasks = s.tasks ++ posted [a] := by
  have hkept : ∀ {t : Pool α}, t.tasks = s.tasks → t.tasks = s.tasks ++ [] :=
    fun ht => ht.trans (append_nil _).symm
  cases a with
  | postTask task signalled =>
    rw [Pool.step, addTask] at hstep
    split at hstep
    · cases hstep
    · dsimp only at hstep
      split at hstep
      · split at hstep
        · split at hstep
          · cases hstep
          · cases hstep
            exact (append_assoc ..).symm
        · split at hstep
          · cases hstep
            exact (append_assoc ..).symm
          · cases hstep
      · cases hstep
        exact (append_assoc ..).symm
  | waitForTask thread =>
    have htasks : (s.waitForTask thread).tasks = s.tasks := by
      rw [waitForTask]
      split
      · rfl
      · exact tasks_takeTask rfl
    rw [Pool.step] at hstep
    split at hstep
    · cases hstep
      exact hkept htasks
    · cases hstep
      exact hkept htasks
    · cases hstep
  | wake thread =>
    rw [Pool.step] at hstep
    split at hstep
    · cases hstep
      exact hkept rfl
    · cases hstep
  | reacquire thread =>
    rw [Pool.step] at hstep
    split at hstep
    · cases hstep
      exact hkept (tasks_takeTask rfl)
    · cases hstep
  | terminate =>
    rw [Pool.step, terminate] at hstep
    split at hstep
    · cases hstep
    · cases hstep
      exact hkept rfl

theorem inv_new : Inv (new : Pool α) := ⟨rfl, fun _ => zero_le _⟩

/-- After every run the tasks handed out and the tasks pending are the tasks posted, in this
order, and before Terminate there is a thread on its way for every pending task. -/
theorem pool_strands_no_task {actions : List (Action α)} {s : Pool α}
    (hrun : run step actions new = some s) :
    s.handed ++ s.pendingTasks = posted actions ∧
      (s.terminated = false →
        s.pendingTasks.length ≤ s.threads.countP Thread.isAwake ∧
          (s.pendingTasks ≠ [] → ∃ thread ∈ s.threads, thread.isAwake = true)) := by
  have hinv : Inv s := run_invariant (fun _ _ _ h hstep => h.step hstep) hrun inv_new
  have htasks : s.tasks = posted actions := by
    refine run_history (P := fun actions (s : Pool α) => s.tasks = posted actions) rfl ?_ hrun
    intro actions t a u ht hstep
    rw [tasks_step hstep, ht, posted, posted, posted, filterMap_append]
  refine ⟨htasks, fun hlive => ⟨hinv.served hlive, fun hpending => ?_⟩⟩
  have hpos := length_pos_of_ne_nil hpending
  exact countP_pos_iff.mp (lt_of_lt_of_le hpos (hinv.served hlive))

/-- A busy thread takes the task that a sleeping one was signalled for. -/
theorem pool_strands_no_task_stolen :
    (run step [.postTask 7 none, .waitForTask 0, .waitForTask 0, .postTask 8 (some 0)]
        (new : Pool Nat)) =
      some ⟨[8], 1, false, [.woken], [7]⟩ ∧ [7] ++ [8] = [7, 8] :=
  have hrun : run step [.postTask 7 none, .waitForTask 0, .waitForTask 0, .postTask 8 (some 0)]
      (new : Pool Nat) = some ⟨[8], 1, false, [.woken], [7]⟩ := by decide
  ⟨hrun, (pool_strands_no_task hrun).1⟩

end Pool

end ChromiumUI.ThreadPool
