import Mathlib
import ChromiumUI.Runs
import ChromiumUI.Slots

/-!
# WaitableEvent on POSIX

Events and the calls that wait on them. A step is a section under the lock of an event, or of
several of them in WaitMany, or under the lock of a SyncWaiter; the sections of Fire inside a
Signal belong to it. An event is its address.
-/
namespace ChromiumUI.WaitableEvents

open Runs List

/-- An event, and how often it was raised, how often Reset took a signal away and how often
IsSignaled consumed one. -/
structure Event where
  manualReset : Bool
  signaled : Bool
  waiters : List Nat
  raised : Nat
  lost : Nat
  polled : Nat
  deriving DecidableEq, Repr

inductive Kind where
  | timedWait (finite : Bool)
  | waitMany
  deriving DecidableEq, Repr

/-- Where a call that waits is: `dequeuing` in front of the last section of TimedWait,
`cleaning` in the loop at the end of WaitMany, with the events still to be looked at. A result
is the index of the event that was signaled; TimedWait that fails has none. -/
inductive Phase where
  | waiting
  | dequeuing (result : Bool)
  | cleaning (rest : List Nat) (signaledIndex : Nat)
  | returned (result : Option Nat)
  deriving DecidableEq, Repr

/-- A call that waits, with its SyncWaiter; `consumed` are the events whose signals it took. -/
structure Wait where
  kind : Kind
  raws : List Nat
  fired : Bool
  signalingEvent : Option Nat
  phase : Phase
  consumed : List Nat
  deriving DecidableEq, Repr

structure State where
  events : Nat → Event
  waits : List Wait

inductive Action where
  | signal (e : Nat)
  | reset (e : Nat)
  | isSignaled (e : Nat)
  | timedWait (e : Nat) (finite : Bool)
  | waitMany (raws : List Nat)
  | check (w : Nat) (expired : Bool)
  | finish (w : Nat)
  deriving DecidableEq, Repr

/-! ## The waiters -/

/-- Fire, of a waiter that has not fired. -/
def Wait.fire (wait : Wait) (e : Nat) : Wait :=
  { wait with fired := true, signalingEvent := some e, consumed := e :: wait.consumed }

/-- Fire; `none` for false. -/
def fire (e w : Nat) (waits : List Wait) : Option (List Wait) :=
  match waits[w]? with
  | none => none
  | some wait => if wait.fired then none else some (waits.set w (wait.fire e))

/-- SignalAll, with the waiters cleared afterwards. -/
def signalAll (e : Nat) : List Nat → List Wait → List Wait
  | [], waits => waits
  | w :: rest, waits => signalAll e rest ((fire e w waits).getD waits)

/-- SignalOne, and the waiters that are left. -/
def signalOne (e : Nat) : List Nat → List Wait → Bool × List Nat × List Wait
  | [], waits => (false, [], waits)
  | w :: rest, waits =>
    match fire e w waits with
    | some waits' => (true, rest, waits')
    | none => signalOne e rest waits

/-! ## The sections -/

namespace State

def setEvent (s : State) (e : Nat) (event : Event) : State :=
  { s with events := Function.update s.events e event }

@[simp] theorem setEvent_same (s : State) (e : Nat) (event : Event) :
    (s.setEvent e event).events e = event := Function.update_self ..

theorem setEvent_other (s : State) {e e' : Nat} (event : Event) (h : e' ≠ e) :
    (s.setEvent e event).events e' = s.events e' := Function.update_of_ne h _ _

section

variable (s : State)

@[simp] theorem setEvent_waits (s : State) (e : Nat) (event : Event) :
    (s.setEvent e event).waits = s.waits := rfl

def signal (e : Nat) : State :=
  let event := s.events e
  if event.signaled then s
  else
    let event := { event with raised := event.raised + 1 }
    if event.manualReset then
      { (s.setEvent e { event with waiters := [], signaled := true }) with
        waits := signalAll e event.waiters s.waits }
    else
      let r := signalOne e event.waiters s.waits
      { (s.setEvent e { event with waiters := r.2.1, signaled := !r.1 }) with waits := r.2.2 }

def reset (e : Nat) : State :=
  let event := s.events e
  s.setEvent e { event with
    signaled := false
    lost := event.lost + if event.signaled then 1 else 0 }

def isSignaled (e : Nat) : State :=
  let event := s.events e
  if event.signaled && !event.manualReset then
    s.setEvent e { event with signaled := false, polled := event.polled + 1 }
  else s

/-- The signal of an event is taken by a wait. -/
def takeSignal (e : Nat) : State :=
  s.setEvent e { s.events e with signaled := (s.events e).manualReset }

/-- A call that returns without waiting. -/
def addReturned (kind : Kind) (raws : List Nat) (e index : Nat) : State :=
  { s with waits := s.waits ++ [⟨kind, raws, false, none, .returned (some index), [e]⟩] }

/-- A new waiter in the lists of its events. -/
def enqueue (kind : Kind) (raws : List Nat) : State :=
  { events := fun e =>
      if e ∈ raws then { s.events e with waiters := (s.events e).waiters ++ [s.waits.length] }
      else s.events e
    waits := s.waits ++ [⟨kind, raws, false, none, .waiting, []⟩] }

def timedWait (e : Nat) (finite : Bool) : State :=
  if (s.events e).signaled then (s.takeSignal e).addReturned (.timedWait finite) [e] e 0
  else s.enqueue (.timedWait finite) [e]

/-- EnqueueMany looks at the events by their addresses. -/
def waitMany (raws : List Nat) : State :=
  match (raws.insertionSort (· ≤ ·)).find? fun e => (s.events e).signaled with
  | some e => (s.takeSignal e).addReturned .waitMany raws e (raws.idxOf e)
  | none => s.enqueue .waitMany raws

/-- The loop of the wait, under the lock of the SyncWaiter. -/
def check (w : Nat) (wait : Wait) (expired : Bool) : State :=
  match wait.kind with
  | .timedWait finite =>
    if wait.fired || (finite && expired) then
      let wait' := { wait with fired := true, phase := .dequeuing wait.fired }
      { s with waits := s.waits.set w wait' }
    else s
  | .waitMany =>
    if wait.fired then { s with waits := s.waits.set w { wait with phase := .cleaning wait.raws 0 } }
    else s

/-- Dequeue. -/
def dequeue (e w : Nat) : State :=
  s.setEvent e { s.events e with waiters := (s.events e).waiters.erase w }

def setPhase (w : Nat) (wait : Wait) (phase : Phase) : State :=
  { s with waits := s.waits.set w { wait with phase } }

/-- What follows the wait, one event at a time. -/
def finish (w : Nat) (wait : Wait) : Option State :=
  match wait.phase with
  | .dequeuing result =>
    match wait.raws with
    | [e] => some ((s.dequeue e w).setPhase w wait (.returned (if result then some 0 else none)))
    | _ => none
  | .cleaning [] signaledIndex => some (s.setPhase w wait (.returned (some signaledIndex)))
  | .cleaning (e :: rest) signaledIndex =>
    if some e ≠ wait.signalingEvent then
      some ((s.dequeue e w).setPhase w wait (.cleaning rest signaledIndex))
    else some (s.setPhase w wait (.cleaning rest (wait.raws.length - (rest.length + 1))))
  | _ => none

def step : Action → Option State
  | .signal e => some (s.signal e)
  | .reset e => some (s.reset e)
  | .isSignaled e => some (s.isSignaled e)
  | .timedWait e finite => some (s.timedWait e finite)
  | .waitMany raws => if raws ≠ [] ∧ raws.Nodup then some (s.waitMany raws) else none
  | .check w expired =>
    match s.waits[w]? with
    | some wait => if wait.phase = .waiting then some (s.check w wait expired) else none
    | none => none
  | .finish w =>
    match s.waits[w]? with
    | some wait => s.finish w wait
    | none => none

end

/-- Events of these kinds, signaled or not, and no waits. -/
def new (manualReset signaled : Nat → Bool) : State :=
  ⟨fun e => ⟨manualReset e, signaled e, [], if signaled e then 1 else 0, 0, 0⟩, []⟩

end State

/-! ## The invariant -/

/-- The events in whose lists a waiter may still be. -/
def Wait.left (wait : Wait) : List Nat :=
  match wait.phase with
  | .waiting => wait.raws
  | .dequeuing _ => wait.raws
  | .cleaning rest _ => rest
  | .returned _ => []

/-- What a call has consumed is what it reports. -/
def Wait.Outcome (wait : Wait) : Prop :=
  match wait.phase with
  | .waiting =>
    wait.fired = false ∧ wait.consumed = [] ∧ wait.signalingEvent = none ∨
      ∃ e ∈ wait.raws, wait.fired = true ∧ wait.consumed = [e] ∧ wait.signalingEvent = some e
  | .dequeuing result =>
    ∃ e, wait.raws = [e] ∧ wait.fired = true ∧ (wait.consumed = if result then [e] else []) ∧
      (result = false → wait.kind = .timedWait true)
  | .cleaning rest signaledIndex =>
    ∃ e ∈ wait.raws, wait.fired = true ∧ wait.consumed = [e] ∧ wait.signalingEvent = some e ∧
      rest <:+ wait.raws ∧ (e ∈ rest ∨ wait.raws[signaledIndex]? = some e)
  | .returned (some index) => ∃ e, wait.raws[index]? = some e ∧ wait.consumed = [e]
  | .returned none => wait.consumed = [] ∧ wait.kind = .timedWait true

/-- A call is made on distinct events, TimedWait on one. -/
structure Wait.Shape (wait : Wait) : Prop where
  nodup : wait.raws.Nodup
  single : ∀ finite, wait.kind = .timedWait finite → ∃ e, wait.raws = [e]

/-- The signals of an event that were consumed by waits. -/
def taken (e : Nat) (waits : List Wait) : Nat :=
  (waits.map fun wait => wait.consumed.count e).sum

structure Core (s : State) : Prop where
  empty : ∀ e, (s.events e).signaled = true → (s.events e).waiters = []
  nodup : ∀ e, (s.events e).waiters.Nodup
  listed : ∀ e, ∀ w ∈ (s.events e).waiters, ∃ wait, s.waits[w]? = some wait ∧ e ∈ wait.left
  fired : ∀ w wait e, s.waits[w]? = some wait → wait.signalingEvent = some e →
    w ∉ (s.events e).waiters
  outcome : ∀ wait ∈ s.waits, wait.Outcome
  shape : ∀ wait ∈ s.waits, wait.Shape

/-- Every signal of an auto-reset event was consumed, taken away or is still there. -/
def Balanced (s : State) : Prop :=
  ∀ e, (s.events e).manualReset = false →
    (s.events e).raised = taken e s.waits + (s.events e).polled + (s.events e).lost +
      if (s.events e).signaled then 1 else 0

/-! ## Lists of waits -/

theorem taken_set {waits : List Wait} {w : Nat} {wait : Wait} (h : waits[w]? = some wait)
    (wait' : Wait) (e : Nat) :
    taken e (waits.set w wait') + wait.consumed.count e =
      taken e waits + wait'.consumed.count e := by
  induction waits generalizing w with
  | nil => simp at h
  | cons first rest ih =>
    cases w with
    | zero =>
      cases h
      simp only [taken, set_cons_zero, map_cons, sum_cons]
      omega
    | succ w =>
      have := @ih w (by simpa using h)
      simp only [taken, set_cons_succ, map_cons, sum_cons] at this ⊢
      omega

theorem taken_append (e : Nat) (waits : List Wait) (wait : Wait) :
    taken e (waits ++ [wait]) = taken e waits + wait.consumed.count e := by
  simp [taken]

theorem taken_set_same {waits : List Wait} {w : Nat} {wait wait' : Wait}
    (h : waits[w]? = some wait) (hcons : wait'.consumed = wait.consumed) (e : Nat) :
    taken e (waits.set w wait') = taken e waits := by
  have := taken_set h wait' e
  rw [hcons] at this
  omega

/-! ## One change at a time -/

namespace Core
variable {s : State} {e w : Nat} {wait wait' : Wait}

/-- A change of an event that keeps some of its waiters. -/
theorem setEvent (h : Core s) {event : Event}
    (hsublist : event.waiters.Sublist (s.events e).waiters)
    (hempty : event.signaled = true → event.waiters = []) : Core (s.setEvent e event) := by
  have hwaiters : ∀ e', ((s.setEvent e event).events e').waiters.Sublist
      (s.events e').waiters := by
    intro e'
    by_cases he : e' = e
    · subst he
      rw [State.setEvent_same]
      exact hsublist
    · rw [State.setEvent_other _ _ he]
  refine ⟨?_, fun e' => (h.nodup e').sublist (hwaiters e'), ?_, ?_, h.outcome, h.shape⟩
  · intro e' hsig
    by_cases he : e' = e
    · subst he
      rw [State.setEvent_same] at hsig ⊢
      exact hempty hsig
    · rw [State.setEvent_other _ _ he] at hsig ⊢
      exact h.empty e' hsig
  · exact fun e' w hw => h.listed e' w ((hwaiters e').subset hw)
  · exact fun w wait e' hwait hevent hw => h.fired w wait e' hwait hevent ((hwaiters e').subset hw)

/-- A change of a wait. -/
theorem setWait (h : Core s) (hwait : s.waits[w]? = some wait)
    (hleft : ∀ e, w ∈ (s.events e).waiters → e ∈ wait.left → e ∈ wait'.left)
    (hfired : ∀ e, wait'.signalingEvent = some e → w ∉ (s.events e).waiters)
    (hout : wait'.Outcome) (hraws : wait'.raws = wait.raws) (hkind : wait'.kind = wait.kind) :
    Core { s with waits := s.waits.set w wait' } := by
  have hlt : w < s.waits.length := (List.getElem?_eq_some_iff.mp hwait).1
  have hget : ∀ w', (s.waits.set w wait')[w']? =
      if w = w' then some wait' else s.waits[w']? := by
    intro w'
    rw [getElem?_set]
    by_cases hw : w = w'
    · rw [if_pos hw, if_pos hw, if_pos (hw ▸ hlt)]
    · rw [if_neg hw, if_neg hw]
  refine ⟨h.empty, h.nodup, ?_, ?_, ?_, ?_⟩
  · intro e' w' hw'
    obtain ⟨other, hother, hmem⟩ := h.listed e' w' hw'
    rw [hget]
    by_cases hw : w = w'
    · subst hw
      rw [hwait] at hother
      cases hother
      exact ⟨wait', if_pos rfl, hleft e' hw' hmem⟩
    · rw [if_neg hw]
      exact ⟨other, hother, hmem⟩
  · intro w' other e' hother hevent
    rw [hget] at hother
    split at hother
    · rename_i hw
      subst hw
      cases hother
      exact hfired e' hevent
    · exact h.fired w' other e' hother hevent
  · exact Slots.forall_mem_set h.outcome hout
  · have hshape := h.shape wait (mem_of_getElem? hwait)
    refine Slots.forall_mem_set h.shape ⟨hraws ▸ hshape.nodup, ?_⟩
    rw [hraws, hkind]
    exact hshape.single

/-- Only a wait that has not gone on can fire. -/
theorem waiting_of_unfired (hout : wait.Outcome) (hlisted : e ∈ wait.left)
    (hunfired : wait.fired = false) :
    wait.phase = .waiting ∧ wait.consumed = [] ∧ e ∈ wait.raws := by
  rw [Wait.Outcome] at hout
  rw [Wait.left] at hlisted
  cases hphase : wait.phase with
  | waiting =>
    rw [hphase] at hout hlisted
    obtain ⟨-, hcons, -⟩ | ⟨_, _, hfired, -⟩ := hout
    · exact ⟨rfl, hcons, hlisted⟩
    · exact absurd (hunfired.symm.trans hfired) Bool.false_ne_true
  | dequeuing result =>
    rw [hphase] at hout
    obtain ⟨_, -, hfired, -, -⟩ := hout
    exact absurd (hunfired.symm.trans hfired) Bool.false_ne_true
  | cleaning rest index =>
    rw [hphase] at hout
    obtain ⟨_, -, hfired, -⟩ := hout
    exact absurd (hunfired.symm.trans hfired) Bool.false_ne_true
  | returned result =>
    rw [hphase] at hlisted
    cases hlisted

/-- The front waiter of an event is popped, and fired if it can be. -/
theorem pop (h : Core s) {rest : List Nat} (hwaiters : (s.events e).waiters = w :: rest) :
    ∃ wait, s.waits[w]? = some wait ∧
      (wait.fired = true ∧ fire e w s.waits = none ∧
          Core (s.setEvent e { s.events e with waiters := rest }) ∨
        wait.fired = false ∧ wait.phase = .waiting ∧ wait.consumed = [] ∧
          fire e w s.waits = some (s.waits.set w (wait.fire e)) ∧
          Core { (s.setEvent e { s.events e with waiters := rest }) with
            waits := s.waits.set w (wait.fire e) }) := by
  obtain ⟨wait, hwait, hlisted⟩ := h.listed e w (hwaiters ▸ mem_cons_self)
  have hpopped : Core (s.setEvent e { s.events e with waiters := rest }) := by
    apply h.setEvent
    · rw [hwaiters]
      exact sublist_cons_self _ _
    · intro hsig
      rw [h.empty e hsig] at hwaiters
      cases hwaiters
  refine ⟨wait, hwait, ?_⟩
  cases hfired : wait.fired with
  | true =>
    refine Or.inl ⟨rfl, ?_, hpopped⟩
    rw [fire, hwait]
    exact if_pos hfired
  | false =>
    obtain ⟨hphase, hcons, hraw⟩ :=
      waiting_of_unfired (h.outcome wait (mem_of_getElem? hwait)) hlisted hfired
    refine Or.inr ⟨rfl, hphase, hcons, ?_, ?_⟩
    · rw [fire, hwait]
      exact if_neg (by rw [hfired]; exact Bool.false_ne_true)
    · refine hpopped.setWait hwait (fun _ _ hmem => hmem) ?_ ?_ rfl rfl
      · intro e' hevent
        obtain rfl : e = e' := Option.some.inj hevent
        rw [State.setEvent_same]
        have hnodup := h.nodup e
        rw [hwaiters, nodup_cons] at hnodup
        exact hnodup.1
      · rw [Wait.Outcome]
        have hphase' : (wait.fire e).phase = .waiting := hphase
        rw [hphase']
        refine Or.inr ⟨e, hraw, rfl, ?_, rfl⟩
        change e :: wait.consumed = [e]
        rw [hcons]

end Core

/-! ## Signals are neither lost nor duplicated

Every section keeps the lists of waiters in order and the account of the signals balanced. -/

open State

variable {s s' : State} {e w : Nat} {wait : Wait}

/-! ## Signal -/

@[simp] theorem setEvent_setEvent (event event' : Event) :
    (s.setEvent e event).setEvent e event' = s.setEvent e event' := by
  rw [setEvent, setEvent, setEvent, Function.update_idem]

theorem signalOne_core (e : Nat) (ws : List Nat) {s : State} (h : Core s)
    (hws : (s.events e).waiters = ws) :
    Core { (s.setEvent e { s.events e with waiters := (signalOne e ws s.waits).2.1 }) with
        waits := (signalOne e ws s.waits).2.2 } ∧
      ((signalOne e ws s.waits).1 = false ∧ (signalOne e ws s.waits).2.1 = [] ∧
          (signalOne e ws s.waits).2.2 = s.waits ∨
        (signalOne e ws s.waits).1 = true ∧ ∃ w wait, s.waits[w]? = some wait ∧
          wait.fired = false ∧ wait.phase = .waiting ∧ wait.consumed = [] ∧
          (signalOne e ws s.waits).2.2 = s.waits.set w (wait.fire e)) := by
  induction ws generalizing s with
  | nil => exact ⟨h.setEvent (nil_sublist _) fun _ => rfl, .inl ⟨rfl, rfl, rfl⟩⟩
  | cons w rest ih =>
    obtain ⟨wait, hwait, ⟨-, hfire, hpopped⟩ | ⟨hfired, hphase, hcons, hfire, hpopped⟩⟩ :=
      h.pop hws
    · have hrest := @ih (s.setEvent e { s.events e with waiters := rest }) hpopped (by simp)
      rw [signalOne, hfire]
      simpa using hrest
    · rw [signalOne, hfire]
      exact ⟨hpopped, .inr ⟨rfl, w, wait, hwait, hfired, hphase, hcons, rfl⟩⟩

theorem signalAll_core (e : Nat) (ws : List Nat) {s : State} (h : Core s)
    (hws : (s.events e).waiters = ws) :
    Core { (s.setEvent e { s.events e with waiters := [] }) with
        waits := signalAll e ws s.waits } ∧
      ∀ e', e' ≠ e → taken e' (signalAll e ws s.waits) = taken e' s.waits := by
  induction ws generalizing s with
  | nil => exact ⟨h.setEvent (nil_sublist _) fun _ => rfl, fun _ _ => rfl⟩
  | cons w rest ih =>
    obtain ⟨wait, hwait, ⟨-, hfire, hpopped⟩ | ⟨-, -, -, hfire, hpopped⟩⟩ := h.pop hws
    · have hrest := @ih (s.setEvent e { s.events e with waiters := rest }) hpopped (by simp)
      rw [signalAll, hfire]
      simpa using hrest
    · obtain ⟨hcore, htaken⟩ := @ih { (s.setEvent e { s.events e with waiters := rest }) with
        waits := s.waits.set w (wait.fire e) } hpopped (by simp)
      rw [signalAll, hfire]
      refine ⟨by simpa [setEvent] using hcore, fun e' he' => ?_⟩
      have hset := taken_set hwait (wait.fire e) e'
      have hcount : (wait.fire e).consumed.count e' = wait.consumed.count e' := by
        exact count_cons_of_ne (Ne.symm he')
      have := htaken e' he'
      dsimp only at this ⊢
      rw [Option.getD_some]
      omega

/-- What a Signal of an auto-reset event does: it releases one call or leaves the event
signaled. -/
theorem signal_auto (h : Core s) (hman : (s.events e).manualReset = false)
    (hsig : (s.events e).signaled = false) :
    ((s.signal e).events e).signaled = true ∧ (s.signal e).waits = s.waits ∨
      ((s.signal e).events e).signaled = false ∧ ∃ w wait, s.waits[w]? = some wait ∧
        wait.fired = false ∧ wait.phase = .waiting ∧ wait.consumed = [] ∧
        (s.signal e).waits = s.waits.set w (wait.fire e) := by
  obtain ⟨-, ⟨hfailed, -, hwaits⟩ | ⟨hfired, w, wait, hwait, hrest⟩⟩ := signalOne_core e _ h rfl
  · left
    rw [signal]
    simp [hsig, hman, hfailed, hwaits]
  · right
    rw [signal]
    simp only [hsig, hman, hfired, Bool.false_eq_true, if_false, setEvent_same,
      Bool.not_true, true_and]
    exact ⟨w, wait, hwait, hrest⟩

theorem signal_core (h : Core s) : Core (s.signal e) := by
  rw [signal]
  dsimp only
  split
  · exact h
  · split
    · have hall := (signalAll_core e _ h rfl).1
      have := @Core.setEvent _ e hall { s.events e with
        waiters := [], signaled := true, raised := (s.events e).raised + 1 }
        (nil_sublist _) fun _ => rfl
      simpa [setEvent] using this
    · obtain ⟨hcore, hcases⟩ := signalOne_core e _ h rfl
      have := @Core.setEvent _ e hcore { s.events e with
        waiters := (signalOne e (s.events e).waiters s.waits).2.1
        signaled := !(signalOne e (s.events e).waiters s.waits).1
        raised := (s.events e).raised + 1 } (by simp) (by
          obtain ⟨-, hnil, -⟩ | ⟨hfired, -⟩ := hcases
          · exact fun _ => hnil
          · simp [hfired])
      simpa [setEvent] using this

theorem signal_balanced (h : Core s) (hbal : Balanced s) : Balanced (s.signal e) := by
  intro e' hman
  by_cases hsig : (s.events e).signaled = true
  · rw [signal]
    rw [signal] at hman
    simp only [hsig, if_true] at hman ⊢
    exact hbal e' hman
  · rw [Bool.not_eq_true] at hsig
    rw [signal] at hman ⊢
    simp only [hsig, Bool.false_eq_true, if_false] at hman ⊢
    by_cases hevent : (s.events e).manualReset = true
    · simp only [hevent, if_true] at hman ⊢
      have he : e' ≠ e := by
        rintro rfl
        rw [setEvent_same] at hman
        exact Bool.true_eq_false.mp hman
      rw [setEvent_other _ _ he] at hman ⊢
      rw [(signalAll_core e _ h rfl).2 e' he]
      exact hbal e' hman
    · rw [Bool.not_eq_true] at hevent
      simp only [hevent, Bool.false_eq_true, if_false] at hman ⊢
      obtain ⟨-, ⟨hfailed, -, hwaits⟩ | ⟨hfired, w, wait, hwait, -, -, hcons, hwaits⟩⟩ :=
        signalOne_core e _ h rfl
      · by_cases he : e' = e
        · subst he
          have := hbal e' hevent
          simp only [setEvent_same, hfailed, hwaits, hsig] at this ⊢
          simp at this ⊢
          omega
        · rw [setEvent_other _ _ he] at hman ⊢
          rw [hwaits]
          exact hbal e' hman
      · have htaken := taken_set hwait (wait.fire e) e'
        by_cases he : e' = e
        · subst he
          have := hbal e' hevent
          have hone : (wait.fire e').consumed.count e' = 1 := by
            change (e' :: wait.consumed).count e' = 1
            rw [hcons]
            simp
          rw [hone, hcons, count_nil] at htaken
          simp only [setEvent_same, hfired, hwaits, hsig] at this ⊢
          simp at this ⊢
          omega
        · have hzero : (wait.fire e).consumed.count e' = 0 := by
            change (e :: wait.consumed).count e' = 0
            rw [hcons, count_cons_of_ne (Ne.symm he), count_nil]
          rw [hzero, hcons, count_nil] at htaken
          rw [setEvent_other _ _ he] at hman ⊢
          rw [hwaits]
          have := hbal e' hman
          omega

/-! ## Waiting -/

section

variable (h : Core s)
include h

section

variable (hbal : Balanced s)
include hbal

theorem reset_keeps : Core (s.reset e) ∧ Balanced (s.reset e) := by
  refine ⟨h.setEvent (Sublist.refl _) nofun, fun e' hman => ?_⟩
  rw [reset] at hman ⊢
  by_cases he : e' = e
  · subst he
    rw [setEvent_same] at hman ⊢
    have := hbal e' hman
    dsimp only [setEvent_waits]
    simp only [Bool.false_eq_true, if_false]
    omega
  · rw [setEvent_other _ _ he] at hman ⊢
    exact hbal e' hman

theorem isSignaled_keeps : Core (s.isSignaled e) ∧ Balanced (s.isSignaled e) := by
  rw [isSignaled]
  split
  · rename_i hsig
    rw [Bool.and_eq_true] at hsig
    refine ⟨h.setEvent (Sublist.refl _) nofun, fun e' hman => ?_⟩
    by_cases he : e' = e
    · subst he
      rw [setEvent_same] at hman ⊢
      have := hbal e' hman
      simp only [hsig.1, if_true] at this
      dsimp only [setEvent_waits]
      simp only [Bool.false_eq_true, if_false]
      omega
    · rw [setEvent_other _ _ he] at hman ⊢
      exact hbal e' hman
  · exact ⟨h, hbal⟩

/-- A call that takes the signal of an event returns at once. -/
theorem taken_keeps {kind : Kind} {raws : List Nat}
    {index : Nat} (hsig : (s.events e).signaled = true) (hindex : raws[index]? = some e)
    (hshape : Wait.Shape ⟨kind, raws, false, none, .returned (some index), [e]⟩) :
    Core ((s.takeSignal e).addReturned kind raws e index) ∧
      Balanced ((s.takeSignal e).addReturned kind raws e index) := by
  have htaken : Core (s.takeSignal e) :=
    h.setEvent (Sublist.refl _) fun _ => h.empty e hsig
  have hlt : ∀ {w wait}, (s.takeSignal e).waits[w]? = some wait → w < (s.takeSignal e).waits.length :=
    fun hw => (List.getElem?_eq_some_iff.mp hw).1
  refine ⟨⟨htaken.empty, htaken.nodup, ?_, ?_, ?_, ?_⟩, fun e' hman => ?_⟩
  · intro e' w hw
    obtain ⟨wait, hwait, hmem⟩ := htaken.listed e' w hw
    exact ⟨wait, (getElem?_append_left (hlt hwait)).trans hwait, hmem⟩
  · intro w wait e' hwait hevent
    rw [addReturned] at hwait
    rw [getElem?_append] at hwait
    split at hwait
    · exact htaken.fired w wait e' hwait hevent
    · have := mem_of_getElem? hwait
      rw [mem_singleton.mp this] at hevent
      cases hevent
  · intro wait hwait
    obtain hwait | hwait := mem_append.mp hwait
    · exact htaken.outcome wait hwait
    · rw [mem_singleton.mp hwait]
      exact ⟨e, hindex, rfl⟩
  · intro wait hwait
    obtain hwait | hwait := mem_append.mp hwait
    · exact htaken.shape wait hwait
    · rw [mem_singleton.mp hwait]
      exact hshape
  · rw [addReturned, takeSignal] at hman ⊢
    rw [setEvent_waits, taken_append]
    by_cases he : e' = e
    · subst he
      rw [setEvent_same] at hman ⊢
      have hman' : (s.events e').manualReset = false := hman
      have := hbal e' hman'
      simp only [hsig, if_true] at this
      simp [hman']
      omega
    · rw [setEvent_other _ _ he] at hman ⊢
      rw [count_cons_of_ne (Ne.symm he), count_nil]
      exact hbal e' hman

/-- A new waiter is enqueued in events that are not signaled. -/
theorem enqueue_keeps {kind : Kind} {raws : List Nat}
    (hunsignaled : ∀ e ∈ raws, (s.events e).signaled = false)
    (hshape : Wait.Shape ⟨kind, raws, false, none, .waiting, []⟩) :
    Core (s.enqueue kind raws) ∧ Balanced (s.enqueue kind raws) := by
  have hnew : ∀ e, s.waits.length ∉ (s.events e).waiters := by
    intro e hmem
    obtain ⟨wait, hwait, -⟩ := h.listed e _ hmem
    exact Nat.lt_irrefl _ (List.getElem?_eq_some_iff.mp hwait).1
  have hsig : ∀ e, ((s.enqueue kind raws).events e).signaled = (s.events e).signaled := by
    intro e
    rw [enqueue]
    dsimp only
    split <;> rfl
  have hmem : ∀ e w, w ∈ ((s.enqueue kind raws).events e).waiters →
      w ∈ (s.events e).waiters ∨ w = s.waits.length ∧ e ∈ raws := by
    intro e w hw
    rw [enqueue] at hw
    dsimp only at hw
    split at hw
    · rename_i he
      obtain hw | hw := mem_append.mp hw
      · exact .inl hw
      · exact .inr ⟨mem_singleton.mp hw, he⟩
    · exact .inl hw
  refine ⟨⟨?_, ?_, ?_, ?_, ?_, ?_⟩, ?_⟩
  · intro e he
    rw [hsig] at he
    have hraw : e ∉ raws := fun hraw => Bool.false_ne_true ((hunsignaled e hraw).symm.trans he)
    rw [enqueue]
    dsimp only
    rw [if_neg hraw]
    exact h.empty e he
  · intro e
    rw [enqueue]
    dsimp only
    split
    · rw [nodup_append]
      refine ⟨h.nodup e, nodup_singleton _, ?_⟩
      rintro a ha b hb rfl
      rw [mem_singleton.mp hb] at ha
      exact hnew e ha
    · exact h.nodup e
  · intro e w hw
    obtain hw | ⟨rfl, he⟩ := hmem e w hw
    · obtain ⟨wait, hwait, hleft⟩ := h.listed e w hw
      have hlt := (List.getElem?_eq_some_iff.mp hwait).1
      exact ⟨wait, (getElem?_append_left hlt).trans hwait, hleft⟩
    · exact ⟨_, getElem?_concat_length, he⟩
  · intro w wait e hwait hevent hw
    rw [enqueue] at hwait
    rw [getElem?_append] at hwait
    split at hwait
    · rename_i hlt
      obtain hw | ⟨rfl, -⟩ := hmem e w hw
      · exact h.fired w wait e hwait hevent hw
      · exact Nat.lt_irrefl _ hlt
    · rw [mem_singleton.mp (mem_of_getElem? hwait)] at hevent
      cases hevent
  · intro wait hwait
    obtain hwait | hwait := mem_append.mp hwait
    · exact h.outcome wait hwait
    · rw [mem_singleton.mp hwait]
      exact .inl ⟨rfl, rfl, rfl⟩
  · intro wait hwait
    obtain hwait | hwait := mem_append.mp hwait
    · exact h.shape wait hwait
    · rw [mem_singleton.mp hwait]
      exact hshape
  · intro e hman
    have hsame : (s.enqueue kind raws).events e =
        { s.events e with waiters := ((s.enqueue kind raws).events e).waiters } := by
      rw [enqueue]
      dsimp only
      split <;> rfl
    have htaken : taken e (s.enqueue kind raws).waits = taken e s.waits := taken_append e _ _
    rw [hsame] at hman ⊢
    rw [htaken]
    exact hbal e hman

theorem waitMany_keeps {raws : List Nat}
    (hnodup : raws.Nodup) : Core (s.waitMany raws) ∧ Balanced (s.waitMany raws) := by
  rw [waitMany]
  cases hfind : (raws.insertionSort (· ≤ ·)).find? fun e => (s.events e).signaled with
  | none =>
    refine enqueue_keeps h hbal ?_ ⟨hnodup, nofun⟩
    intro e he
    have := find?_eq_none.mp hfind e ((mem_insertionSort _).mpr he)
    simpa using this
  | some e =>
    have he : e ∈ raws := (mem_insertionSort _).mp (mem_of_find?_eq_some hfind)
    have hsig := find?_some hfind
    exact taken_keeps h hbal hsig (getElem?_idxOf he) ⟨hnodup, nofun⟩

end

end

/-! ## Waking up -/

theorem setWait_balanced (hbal : Balanced s) {wait' : Wait} (hwait : s.waits[w]? = some wait)
    (hcons : wait'.consumed = wait.consumed) :
    Balanced { s with waits := s.waits.set w wait' } := by
  intro e hman
  rw [taken_set_same hwait hcons]
  exact hbal e hman

section

variable (h : Core s)
include h

theorem timedWait_keeps (hbal : Balanced s) (finite : Bool) :
    Core (s.timedWait e finite) ∧ Balanced (s.timedWait e finite) := by
  rw [timedWait]
  split
  · rename_i hsig
    exact taken_keeps h hbal hsig rfl
      ⟨nodup_singleton _, fun _ _ => ⟨e, rfl⟩⟩
  · rename_i hunsignaled
    refine enqueue_keeps h hbal ?_ ⟨nodup_singleton _, fun _ _ => ⟨e, rfl⟩⟩
    intro e' he'
    rw [mem_singleton.mp he']
    exact Bool.eq_false_iff.mpr hunsignaled

theorem check_keeps (hbal : Balanced s) (hwait : s.waits[w]? = some wait)
    (hphase : wait.phase = .waiting) (expired : Bool) :
    Core (s.check w wait expired) ∧ Balanced (s.check w wait expired) := by
  have hleft : wait.left = wait.raws := by rw [Wait.left, hphase]
  have hmem := mem_of_getElem? hwait
  have hout := h.outcome wait hmem
  have hfired := h.fired w wait
  rw [Wait.Outcome, hphase] at hout
  rw [check]
  cases hkind : wait.kind with
  | timedWait finite =>
    dsimp only
    split
    · rename_i hdone
      refine ⟨h.setWait hwait ?_ (fun e => hfired e hwait) ?_ rfl hkind.symm,
        setWait_balanced hbal hwait rfl⟩
      · intro e _ he
        rwa [hleft] at he
      · obtain ⟨e, hraws⟩ := (h.shape wait hmem).single finite hkind
        refine ⟨e, hraws, rfl, ?_, ?_⟩
        · obtain ⟨hunfired, hcons, -⟩ | ⟨e', he', hfired', hcons, -⟩ := hout
          · rw [hunfired]
            exact hcons
          · rw [hraws] at he'
            rw [hfired', mem_singleton.mp he'] at *
            exact hcons
        · intro hunfired
          rw [hunfired, Bool.false_or, Bool.and_eq_true] at hdone
          rw [hdone.1]
    · exact ⟨h, hbal⟩
  | waitMany =>
    dsimp only
    split
    · rename_i hdone
      refine ⟨h.setWait hwait ?_ (fun e => hfired e hwait) ?_ rfl hkind.symm,
        setWait_balanced hbal hwait rfl⟩
      · intro e _ he
        rwa [hleft] at he
      · obtain ⟨hunfired, -⟩ | ⟨e, he, hfired', hcons, hevent⟩ := hout
        · exact absurd (hunfired.symm.trans hdone) Bool.false_ne_true
        · exact ⟨e, he, hfired', hcons, hevent, suffix_refl _, .inl he⟩
    · exact ⟨h, hbal⟩

theorem dequeue_keeps (hbal : Balanced s) : Core (s.dequeue e w) ∧ Balanced (s.dequeue e w) := by
  refine ⟨h.setEvent erase_sublist fun hsig => ?_, fun e' hman => ?_⟩
  · dsimp only at hsig ⊢
    rw [h.empty e hsig]
    rfl
  · rw [dequeue] at hman ⊢
    by_cases he : e' = e
    · subst he
      rw [setEvent_same] at hman ⊢
      exact hbal e' hman
    · rw [setEvent_other _ _ he] at hman ⊢
      exact hbal e' hman

theorem mem_dequeue {e' : Nat} (hmem : w ∈ ((s.dequeue e w).events e').waiters) :
    e' ≠ e ∧ w ∈ (s.events e').waiters := by
  rw [dequeue] at hmem
  by_cases he : e' = e
  · subst he
    rw [setEvent_same] at hmem
    exact absurd hmem (h.nodup e').not_mem_erase
  · rw [setEvent_other _ _ he] at hmem
    exact ⟨he, hmem⟩

theorem finish_keeps (hbal : Balanced s) (hwait : s.waits[w]? = some wait)
    (hstep : s.finish w wait = some s') : Core s' ∧ Balanced s' := by
  have hmem := mem_of_getElem? hwait
  have hout := h.outcome wait hmem
  have hlisted : ∀ e, w ∈ (s.events e).waiters → e ∈ wait.left := by
    intro e he
    obtain ⟨other, hother, hleft⟩ := h.listed e w he
    rw [hwait] at hother
    cases hother
    exact hleft
  rw [Wait.Outcome] at hout
  rw [finish] at hstep
  split at hstep
  · rename_i result hphase
    rw [hphase] at hout
    obtain ⟨e, hraws, hfired, hcons, hfinite⟩ := hout
    rw [hraws] at hstep
    cases hstep
    obtain ⟨hcore, hbal'⟩ := @dequeue_keeps s e w h hbal
    refine ⟨hcore.setWait hwait ?_ ?_ ?_ rfl rfl, setWait_balanced hbal' hwait rfl⟩
    · intro e' he' _
      obtain ⟨hne, he'⟩ := mem_dequeue h he'
      have hleft := hlisted e' he'
      rw [Wait.left, hphase] at hleft
      rw [hraws] at hleft
      exact absurd (mem_singleton.mp hleft) hne
    · exact fun e' hevent => hcore.fired w wait e' hwait hevent
    · cases result with
      | true =>
        rw [Wait.Outcome]
        exact ⟨e, by rw [hraws]; rfl, hcons⟩
      | false =>
        rw [Wait.Outcome]
        exact ⟨hcons, hfinite rfl⟩
  · rename_i signaledIndex hphase
    rw [hphase] at hout
    obtain ⟨e, -, -, hcons, -, -, hrest | hindex⟩ := hout
    · cases hrest
    · cases hstep
      refine ⟨h.setWait hwait ?_ (fun e' => h.fired w wait e' hwait) ?_ rfl rfl,
        setWait_balanced hbal hwait rfl⟩
      · intro e' _ hleft
        rw [Wait.left, hphase] at hleft
        cases hleft
      · rw [Wait.Outcome]
        exact ⟨e, hindex, hcons⟩
  · rename_i e rest signaledIndex hphase
    rw [hphase] at hout
    obtain ⟨se, hraw, hfired, hcons, hevent, hsuf, hfound⟩ := hout
    have hsuf' : rest <:+ wait.raws := (suffix_cons e rest).trans hsuf
    have hleft : wait.left = e :: rest := by rw [Wait.left, hphase]
    split at hstep
    · rename_i hother
      cases hstep
      obtain ⟨hcore, hbal'⟩ := @dequeue_keeps s e w h hbal
      refine ⟨hcore.setWait hwait ?_ (fun e' => hcore.fired w wait e' hwait) ?_ rfl rfl,
        setWait_balanced hbal' hwait rfl⟩
      · intro e' he' hmem'
        rw [hleft] at hmem'
        exact (mem_cons.mp hmem').resolve_left (mem_dequeue h he').1
      · rw [Wait.Outcome]
        refine ⟨se, hraw, hfired, hcons, hevent, hsuf', ?_⟩
        refine hfound.imp_left fun hse => (mem_cons.mp hse).resolve_left ?_
        rintro rfl
        exact hother hevent.symm
    · rename_i hsame
      rw [not_not, hevent] at hsame
      cases hsame
      cases hstep
      refine ⟨h.setWait hwait ?_ (fun e' => h.fired w wait e' hwait) ?_ rfl rfl,
        setWait_balanced hbal hwait rfl⟩
      · intro e' he' hmem'
        rw [hleft] at hmem'
        refine (mem_cons.mp hmem').resolve_left ?_
        rintro rfl
        exact h.fired w wait _ hwait hevent he'
      · rw [Wait.Outcome]
        refine ⟨e, hraw, hfired, hcons, hevent, hsuf', .inr ?_⟩
        obtain ⟨before, hpre⟩ := hsuf
        have hindex : wait.raws.length - (rest.length + 1) = before.length := by
          rw [← hpre, length_append, length_cons]
          omega
        rw [hindex, ← hpre, getElem?_append_right (Nat.le_refl _), Nat.sub_self]
        rfl
  · cases hstep

end

/-! ## Runs -/

/-- The step lemma. -/
theorem step_keeps (h : Core s) (hbal : Balanced s) {a : Action}
    (hstep : s.step a = some s') : Core s' ∧ Balanced s' := by
  cases a with
  | signal e =>
    cases hstep
    exact ⟨signal_core h, signal_balanced h hbal⟩
  | reset e =>
    cases hstep
    exact reset_keeps h hbal
  | isSignaled e =>
    cases hstep
    exact isSignaled_keeps h hbal
  | timedWait e finite =>
    cases hstep
    exact timedWait_keeps h hbal finite
  | waitMany raws =>
    rw [step] at hstep
    split at hstep
    · rename_i hraws
      cases hstep
      exact waitMany_keeps h hbal hraws.2
    · cases hstep
  | check w expired =>
    rw [step] at hstep
    split at hstep
    · rename_i wait hwait
      split at hstep
      · rename_i hphase
        cases hstep
        exact check_keeps h hbal hwait hphase expired
      · cases hstep
    · cases hstep
  | finish w =>
    rw [step] at hstep
    split at hstep
    · rename_i wait hwait
      exact finish_keeps h hbal hwait hstep
    · cases hstep

theorem core_new (manualReset signaled : Nat → Bool) : Core (new manualReset signaled) :=
  ⟨fun _ _ => rfl, fun _ => nodup_nil, nofun, nofun, nofun, nofun⟩

theorem balanced_new (manualReset signaled : Nat → Bool) : Balanced (new manualReset signaled) := by
  intro e _
  cases hsig : signaled e <;> simp [new, taken, hsig]

end ChromiumUI.WaitableEvents
