import Mathlib.Tactic.Common
import Mathlib.Algebra.Order.Group.Int

/-!
# What a timer is for

A timer as its history makes it: whether it is armed, with which task and delay, and from when on
it may fire. A history is lawful if the timer is armed whenever the task runs, the task is the one
last given, and the delay has passed.
-/
namespace ChromiumUI.NaiveTimers

variable {U : Type*}

/-- How a timer deals with its task. -/
structure Mode where
  isRepeating : Bool
  retainUserTask : Bool

/-- What happens to a timer, with the time at which it does. -/
inductive Event (U : Type*)
  | started (time delay : Int) (task : U)
  | reset (time : Int)
  | stopped
  | ran (time : Int) (task : Option U)

structure Naive (U : Type*) where
  running : Bool
  task : Option U
  delay : Int
  armed : Int
  due : Int

namespace Naive

variable (mode : Mode)

def stop (n : Naive U) : Naive U :=
  { n with running := false, task := if mode.retainUserTask then n.task else none }

def arm (n : Naive U) (time : Int) : Naive U :=
  { n with running := true, armed := time, due := time + n.delay }

/-- What an event leaves. -/
def next (n : Naive U) : Event U → Naive U
  | .started time delay task => { n with delay := delay, task := some task }.arm time
  | .reset time => n.arm time
  | .stopped => n.stop mode
  | .ran time _ => if mode.isRepeating then { n with due := time + n.delay } else n.stop mode

/-- Which events may be next. -/
def Allows (n : Naive U) : Event U → Prop
  | .started _ _ _ => True
  | .reset _ => n.task.isSome
  | .stopped => True
  | .ran time task =>
    n.running ∧ task = n.task ∧ n.task.isSome ∧ n.due ≤ time ∧ n.armed + n.delay ≤ time

/-- The timer after a history, the latest event first. -/
def after (n : Naive U) : List (Event U) → Naive U
  | [] => n
  | e :: es => (after n es).next mode e

def Lawful (n : Naive U) : List (Event U) → Prop
  | [] => True
  | e :: es => Lawful n es ∧ (n.after mode es).Allows e

end Naive

namespace Event

def isArming : Event U → Bool
  | .started _ _ _ | .reset _ => true
  | _ => false

def isRun : Event U → Bool
  | .ran _ _ => true
  | _ => false

end Event

/-- A timer that does not repeat runs its task once for each arming at most. -/
theorem Naive.runs_le_armings {mode : Mode} (hmode : mode.isRepeating = false) {n : Naive U}
    (hn : n.running = false) {es : List (Event U)} (h : n.Lawful mode es) :
    es.countP Event.isRun + (n.after mode es).running.toNat ≤ es.countP Event.isArming := by
  induction es with
  | nil => simp [Naive.after, hn]
  | cons e es ih =>
    obtain ⟨hes, hallows⟩ := h
    have hle := ih hes
    cases e with
    | started time delay task | reset time =>
      simp [Naive.after, Naive.next, Naive.arm, Event.isRun, Event.isArming, List.countP_cons]
      omega
    | stopped =>
      simp [Naive.after, Naive.next, Naive.stop, Event.isRun, Event.isArming]
      omega
    | ran time task =>
      have hrun : (n.after mode es).running = true := hallows.1
      simp [hrun, Naive.after, Naive.next, Naive.stop, hmode, Event.isRun, Event.isArming,
        List.countP_cons]
        at hle ⊢
      omega

end ChromiumUI.NaiveTimers
