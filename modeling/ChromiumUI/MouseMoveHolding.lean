import ChromiumUI.Runs

/-!
# Holding mouse moves

What a RootWindow keeps of the mouse moves that it withholds, the tasks that it posts, and what
becomes of each event. A handler that is given an event does not dispatch another one.
-/
namespace ChromiumUI.Aura.RootWindow

open Runs List Nat

inductive MouseType where
  | moved | dragged | other
  deriving DecidableEq, Repr

/-- A mouse event, with the number under which it arrived. -/
structure MouseEvent where
  arrival : Nat
  type : MouseType
  isSynthesized : Bool
  deriving DecidableEq, Repr

/-- The events that mouse-move holding is about, and any that stand for where the mouse is. -/
def MouseEvent.IsMove (event : MouseEvent) : Prop :=
  event.type = .moved ∨ event.type = .dragged ∨ event.isSynthesized = true

/-- What is done with an event. When one is dispatched a mouse move may be about to be synthesized,
and is not any more. -/
inductive Outcome where
  | mouse (event : MouseEvent) (pending : Bool)
  | scroll (arrival : Nat) (pending : Bool)
  | dropped (event : MouseEvent)
  deriving DecidableEq, Repr

inductive Task where
  | dispatchHeldMouseMove (factory : Nat)
  | synthesizeMouseMoveEvent
  deriving DecidableEq, Repr

structure State where
  mouseMoveHoldCount : Nat
  heldMouseMove : Option MouseEvent
  /-- The weak pointers with this number are valid; each InvalidateWeakPtrs starts another. -/
  heldMouseEventFactory : Nat
  synthesizeMouseMove : Bool
  /-- The tasks that have not run. -/
  tasks : List Task
  /-- The number of the next event. -/
  arrivals : Nat
  outcomes : List Outcome
  deriving DecidableEq, Repr

def new : State where
  mouseMoveHoldCount := 0
  heldMouseMove := none
  heldMouseEventFactory := 0
  synthesizeMouseMove := false
  tasks := []
  arrivals := 0
  outcomes := []

namespace State

/-- DispatchMouseEventImpl. -/
def dispatchMouseEventImpl (event : MouseEvent) (w : State) : State :=
  { w with
    synthesizeMouseMove := false
    outcomes := w.outcomes ++ [.mouse event w.synthesizeMouseMove] }

variable (w : State)

/-- held_mouse_move_.reset() for an event that is not dispatched. -/
def dropHeld : State :=
  match w.heldMouseMove with
  | none => w
  | some event => { w with heldMouseMove := none, outcomes := w.outcomes ++ [.dropped event] }

def dispatchHeldMouseMove : State :=
  match w.heldMouseMove with
  | none => w
  | some event =>
    -- The target location is suspect if a mouse move has been synthesized.
    if w.synthesizeMouseMove then w.dropHeld
    else { w.dispatchMouseEventImpl event with heldMouseMove := none }

def dispatchMouseEvent (event : MouseEvent) (w : State) : State :=
  if event.type = .dragged ∨ event.isSynthesized then
    if w.mouseMoveHoldCount ≠ 0 then { w.dropHeld with heldMouseMove := some event }
    else w.dropHeld.dispatchHeldMouseMove.dispatchMouseEventImpl event
  else w.dispatchHeldMouseMove.dispatchMouseEventImpl event

/-- A mouse event arrives. -/
def mouseArrives (type : MouseType) (isSynthesized : Bool) (w : State) : State :=
  { w with arrivals := w.arrivals + 1 }.dispatchMouseEvent ⟨w.arrivals, type, isSynthesized⟩

/-- DispatchScrollEvent. -/
def scrollArrives : State :=
  let w := w.dispatchHeldMouseMove
  { w with
    arrivals := w.arrivals + 1
    synthesizeMouseMove := false
    outcomes := w.outcomes ++ [.scroll w.arrivals w.synthesizeMouseMove] }

def holdMouseMoves : State :=
  { w with
    heldMouseEventFactory :=
      if w.mouseMoveHoldCount = 0 then w.heldMouseEventFactory + 1 else w.heldMouseEventFactory
    mouseMoveHoldCount := w.mouseMoveHoldCount + 1 }

/-- `none` where there is no hold to release. -/
def releaseMouseMoves : Option State :=
  if w.mouseMoveHoldCount = 0 then none
  else
    let w := { w with mouseMoveHoldCount := w.mouseMoveHoldCount - 1 }
    if w.mouseMoveHoldCount = 0 ∧ w.heldMouseMove.isSome then
      some { w with tasks := w.tasks ++ [.dispatchHeldMouseMove w.heldMouseEventFactory] }
    else some w

def postMouseMoveEventAfterWindowChange : State :=
  if w.synthesizeMouseMove then w
  else { w with synthesizeMouseMove := true, tasks := w.tasks ++ [.synthesizeMouseMoveEvent] }

def synthesizeMouseMoveEvent : State :=
  if w.synthesizeMouseMove then
    { w with synthesizeMouseMove := false }.mouseArrives .moved true
  else w

/-- Runs one of the tasks, or `none` if it is not there. -/
def runTask (i : Nat) (w : State) : Option State :=
  match w.tasks[i]? with
  | none => none
  | some (.dispatchHeldMouseMove factory) =>
    let w := { w with tasks := w.tasks.eraseIdx i }
    some (if factory = w.heldMouseEventFactory then w.dispatchHeldMouseMove else w)
  | some .synthesizeMouseMoveEvent =>
    some { w with tasks := w.tasks.eraseIdx i }.synthesizeMouseMoveEvent

end State

inductive Action where
  | holdMouseMoves
  | releaseMouseMoves
  | mouse (type : MouseType) (isSynthesized : Bool)
  | key
  | touch
  | scroll
  /-- A window changes under the mouse. -/
  | windowChange
  /-- UpdateCapture, with no new capture. -/
  | captureLost
  | runTask (i : Nat)
  deriving DecidableEq, Repr

def step (w : State) : Action → Option State
  | .holdMouseMoves => some w.holdMouseMoves
  | .releaseMouseMoves => w.releaseMouseMoves
  | .mouse type isSynthesized => some (w.mouseArrives type isSynthesized)
  | .key | .touch => some w.dispatchHeldMouseMove
  | .scroll => some w.scrollArrives
  | .windowChange => some w.postMouseMoveEventAfterWindowChange
  | .captureLost => some w.synthesizeMouseMoveEvent
  | .runTask i => w.runTask i

/-- The mouse event that is dispatched. -/
def Outcome.dispatched : Outcome → Option MouseEvent
  | .mouse event _ => some event
  | _ => none

/-- A mouse move is dispatched that arrived later, or another event that comes in the place of a
move about to be synthesized. -/
def Outcome.After (arrival : Nat) : Outcome → Prop
  | .mouse event pending => arrival < event.arrival ∧ (event.IsMove ∨ pending = true)
  | .scroll n pending => arrival < n ∧ pending = true
  | .dropped _ => False

/-- The mouse events dispatched, in order. -/
def State.dispatched (w : State) : List MouseEvent := w.outcomes.filterMap Outcome.dispatched

/-- Behind the outcome with index `i` one that arrived later is dispatched. -/
def State.Followed (w : State) (i arrival : Nat) : Prop :=
  ∃ j o, i < j ∧ w.outcomes[j]? = some o ∧ o.After arrival

/-- The events are dispatched in their order, and every one seen has its number. -/
structure Ordered (w : State) : Prop where
  sorted : w.dispatched.Pairwise fun e e' => e.arrival < e'.arrival
  dispatched_lt : ∀ e ∈ w.dispatched, e.arrival < w.arrivals
  held_lt : ∀ e ∈ w.heldMouseMove, e.arrival < w.arrivals
  held_move : ∀ e ∈ w.heldMouseMove, e.IsMove
  before_held : ∀ e ∈ w.heldMouseMove, ∀ e' ∈ w.dispatched, e'.arrival < e.arrival
  dropped_lt : ∀ (i : Nat) (m : MouseEvent), w.outcomes[i]? = some (.dropped m) →
    m.arrival < w.arrivals
  heldTask : w.mouseMoveHoldCount = 0 → w.heldMouseMove ≠ none →
    Task.dispatchHeldMouseMove w.heldMouseEventFactory ∈ w.tasks
  synthesizeTask : w.synthesizeMouseMove = true → Task.synthesizeMouseMoveEvent ∈ w.tasks

/-- What is to come for an event that was dropped. -/
def Awaited (w : State) (arrival : Nat) : Prop :=
  (∃ e ∈ w.heldMouseMove, arrival < e.arrival) ∨ w.synthesizeMouseMove = true

structure Inv (w : State) : Prop extends Ordered w where
  followed : ∀ (i : Nat) (m : MouseEvent), w.outcomes[i]? = some (.dropped m) →
    w.Followed i m.arrival ∨ Awaited w m.arrival

section
variable {w w' : State} {i : Nat} {event m : MouseEvent} {o : Outcome}

/-! ## Outcomes -/

theorem getElem?_concat {α : Type} {l : List α} {a b : α} {i : Nat}
    (h : (l ++ [a])[i]? = some b) : l[i]? = some b ∨ (i = l.length ∧ b = a) := by
  rw [getElem?_append] at h
  split at h
  · exact .inl h
  · rename_i hge
    obtain ⟨hlt, heq⟩ := List.getElem?_eq_some_iff.mp h
    rw [length_singleton] at hlt
    refine .inr ⟨by omega, ?_⟩
    rw [getElem_singleton] at heq
    exact heq.symm

theorem State.Followed.concat {arrival : Nat} (h : w.Followed i arrival)
    (hw' : w'.outcomes = w.outcomes ++ [o]) : w'.Followed i arrival := by
  obtain ⟨j, o', hij, hj, hafter⟩ := h
  refine ⟨j, o', hij, ?_, hafter⟩
  rw [hw', List.getElem?_append_left (List.getElem?_eq_some_iff.mp hj).1]
  exact hj

theorem followed_last {arrival : Nat} (hi : i < w.outcomes.length)
    (hw' : w'.outcomes = w.outcomes ++ [o]) (hafter : o.After arrival) : w'.Followed i arrival := by
  refine ⟨w.outcomes.length, o, hi, ?_, hafter⟩
  rw [hw', getElem?_append_right (Nat.le_refl _), Nat.sub_self]
  rfl

theorem dispatched_mouse {pending : Bool}
    (hw' : w'.outcomes = w.outcomes ++ [.mouse event pending]) :
    w'.dispatched = w.dispatched ++ [event] := by
  rw [State.dispatched, hw', filterMap_append]
  rfl

theorem dispatched_not (ho : o.dispatched = none) (hw' : w'.outcomes = w.outcomes ++ [o]) :
    w'.dispatched = w.dispatched := by
  rw [State.dispatched, hw', filterMap_append, filterMap_cons_none ho,
    filterMap_nil, append_nil]
  rfl

/-! ## The held move -/

@[simp] theorem held_dropHeld (w : State) : w.dropHeld.heldMouseMove = none := by
  rw [State.dropHeld]
  split
  · assumption
  · rfl

theorem Ordered.dropHeld (h : Ordered w) : Ordered w.dropHeld := by
  rw [State.dropHeld]
  split
  · exact h
  · rename_i e he
    have hdisp := @dispatched_not w
      { w with heldMouseMove := none, outcomes := w.outcomes ++ [.dropped e] } _ rfl rfl
    refine ⟨?_, ?_, nofun, nofun, nofun, fun i m hm => ?_, fun _ hno => absurd rfl hno,
      h.synthesizeTask⟩
    · rw [hdisp]
      exact h.sorted
    · rw [hdisp]
      exact h.dispatched_lt
    · obtain hm | ⟨-, hm⟩ := getElem?_concat hm
      · exact h.dropped_lt i m hm
      · cases hm
        exact h.held_lt e he

theorem held_dispatchHeldMouseMove (w : State) : w.dispatchHeldMouseMove.heldMouseMove = none := by
  rw [State.dispatchHeldMouseMove]
  split
  · assumption
  · split
    · exact held_dropHeld w
    · rfl

theorem Inv.dispatchHeldMouseMove (h : Inv w) : Inv w.dispatchHeldMouseMove := by
  rw [State.dispatchHeldMouseMove]
  split
  · exact h
  rename_i e he
  split
  · rename_i hsynth
    -- The event is dropped, but another one is to be synthesized.
    refine ⟨h.toOrdered.dropHeld, fun i m _ => .inr (Or.inr ?_)⟩
    rw [State.dropHeld, he]
    exact hsynth
  · rename_i hsynth
    have hdisp := @dispatched_mouse w
      { w.dispatchMouseEventImpl e with heldMouseMove := none } e _ rfl
    refine ⟨⟨?_, ?_, nofun, nofun, nofun, fun i m hm => ?_, fun _ hno => absurd rfl hno, nofun⟩,
      fun i m hm => .inl ?_⟩
    · rw [hdisp]
      refine pairwise_append.mpr ⟨h.sorted, pairwise_singleton _ _, fun e' he' x hx => ?_⟩
      obtain rfl := mem_singleton.mp hx
      exact h.before_held _ he e' he'
    · rw [hdisp]
      intro e' he'
      obtain he' | he' := mem_append.mp he'
      · exact h.dispatched_lt e' he'
      · obtain rfl := mem_singleton.mp he'
        exact h.held_lt _ he
    · obtain hm | ⟨-, hm⟩ := getElem?_concat hm
      · exact h.dropped_lt i m hm
      · cases hm
    · obtain hm | ⟨-, hm⟩ := getElem?_concat hm
      · obtain hfollowed | ⟨e', he', hlt⟩ | hno := h.followed i m hm
        · exact hfollowed.concat rfl
        · rw [he] at he'
          cases he'
          exact followed_last (List.getElem?_eq_some_iff.mp hm).1 rfl
            ⟨hlt, .inl (h.held_move _ he)⟩
        · exact absurd hno hsynth
      · cases hm

/-- With nothing held, only a move that is to be synthesized can be awaited. -/
theorem Inv.awaits (h : Inv w) (hheld : w.heldMouseMove = none)
    (hm : w.outcomes[i]? = some (.dropped m)) :
    w.Followed i m.arrival ∨ w.synthesizeMouseMove = true := by
  obtain hfollowed | ⟨e, he, -⟩ | hflag := h.followed i m hm
  · exact .inl hfollowed
  · rw [hheld] at he
    cases he
  · exact .inr hflag

/-! ## An event arrives -/

/-- An event that just arrived is dispatched, and whatever was dropped is followed by it. -/
theorem Ordered.dispatch (h : Ordered w) (hheld : w.heldMouseMove = none)
    (harrival : event.arrival = w.arrivals)
    (hfol : ∀ i m, w.outcomes[i]? = some (.dropped m) →
      w.Followed i m.arrival ∨ event.IsMove ∨ w.synthesizeMouseMove = true) :
    Inv ({ w with arrivals := w.arrivals + 1 }.dispatchMouseEventImpl event) := by
  have hdisp := @dispatched_mouse w
    ({ w with arrivals := w.arrivals + 1 }.dispatchMouseEventImpl event) event _ rfl
  have hnone : ∀ e, e ∉ w.heldMouseMove := fun e he => by
    rw [hheld] at he
    cases he
  refine ⟨⟨?_, ?_, fun e he => absurd he (hnone e), fun e he => absurd he (hnone e),
    fun e he => absurd he (hnone e), fun i m hm => ?_, fun _ hno => absurd hheld hno, nofun⟩,
    fun i m hm => .inl ?_⟩
  · rw [hdisp]
    refine pairwise_append.mpr ⟨h.sorted, pairwise_singleton _ _, fun e' he' x hx => ?_⟩
    obtain rfl := mem_singleton.mp hx
    rw [harrival]
    exact h.dispatched_lt e' he'
  · rw [hdisp]
    intro e' he'
    obtain he' | he' := mem_append.mp he'
    · exact lt_succ_of_lt (h.dispatched_lt e' he')
    · obtain rfl := mem_singleton.mp he'
      rw [harrival]
      exact lt_succ_self _
  · obtain hm | ⟨-, hm⟩ := getElem?_concat hm
    · exact lt_succ_of_lt (h.dropped_lt i m hm)
    · cases hm
  · obtain hm | ⟨-, hm⟩ := getElem?_concat hm
    · obtain hfollowed | hafter := hfol i m hm
      · exact hfollowed.concat rfl
      · refine followed_last (List.getElem?_eq_some_iff.mp hm).1 rfl ⟨?_, hafter⟩
        rw [harrival]
        exact h.dropped_lt i m hm
    · cases hm

/-- A move that just arrived is held, and whatever was dropped is awaiting it. -/
theorem Ordered.hold (h : Ordered w) (hcount : w.mouseMoveHoldCount ≠ 0)
    (hmove : event.IsMove) (harrival : event.arrival = w.arrivals) :
    Inv { w with arrivals := w.arrivals + 1, heldMouseMove := some event } := by
  refine ⟨⟨h.sorted, fun e he => lt_succ_of_lt (h.dispatched_lt e he), fun e he => ?_,
    fun e he => ?_, fun e he e' he' => ?_, fun i m hm => lt_succ_of_lt (h.dropped_lt i m hm),
    fun hzero => absurd hzero hcount, h.synthesizeTask⟩, fun i m hm => .inr (Or.inl ?_)⟩
  · cases he
    rw [harrival]
    exact lt_succ_self _
  · cases he
    exact hmove
  · cases he
    rw [harrival]
    exact h.dispatched_lt e' he'
  · refine ⟨event, rfl, ?_⟩
    rw [harrival]
    exact h.dropped_lt i m hm

theorem dropHeld_arrivals (w : State) (n : Nat) :
    { w with arrivals := n }.dropHeld = { w.dropHeld with arrivals := n } := by
  obtain ⟨_, held, _, _, _, _, _⟩ := w
  cases held <;> rfl

theorem dispatchHeldMouseMove_arrivals (w : State) (n : Nat) :
    { w with arrivals := n }.dispatchHeldMouseMove =
      { w.dispatchHeldMouseMove with arrivals := n } := by
  obtain ⟨_, held, _, synthesize, _, _, _⟩ := w
  cases held with
  | none => rfl
  | some e => cases synthesize <;> rfl

theorem arrivals_dropHeld (w : State) : w.dropHeld.arrivals = w.arrivals := by
  rw [State.dropHeld]
  split <;> rfl

theorem arrivals_dispatchHeldMouseMove (w : State) :
    w.dispatchHeldMouseMove.arrivals = w.arrivals := by
  rw [State.dispatchHeldMouseMove]
  split
  · rfl
  · split
    · exact arrivals_dropHeld w
    · rfl

theorem holdCount_dropHeld (w : State) : w.dropHeld.mouseMoveHoldCount = w.mouseMoveHoldCount := by
  rw [State.dropHeld]
  split <;> rfl

/-- With nothing held there is nothing to dispatch. -/
theorem dispatchHeldMouseMove_of_none (h : w.heldMouseMove = none) :
    w.dispatchHeldMouseMove = w := by
  rw [State.dispatchHeldMouseMove, h]

/-- A move that arrives is dispatched or held, and nothing else has to come. -/
theorem Ordered.moveArrives (h : Ordered w) {type : MouseType} {isSynthesized : Bool}
    (hmove : type = .dragged ∨ isSynthesized = true) : Inv (w.mouseArrives type isSynthesized) := by
  have hismove : MouseEvent.IsMove ⟨w.arrivals, type, isSynthesized⟩ := .inr hmove
  rw [State.mouseArrives, State.dispatchMouseEvent, if_pos hmove]
  split
  · rename_i hcount
    have hhold := @Ordered.hold w.dropHeld ⟨w.arrivals, type, isSynthesized⟩
      h.dropHeld (by rw [holdCount_dropHeld]; exact hcount) hismove (arrivals_dropHeld w).symm
    rw [arrivals_dropHeld] at hhold
    rw [dropHeld_arrivals]
    exact hhold
  · have hdisp := @Ordered.dispatch w.dropHeld ⟨w.arrivals, type, isSynthesized⟩
      h.dropHeld (held_dropHeld w) (arrivals_dropHeld w).symm
      fun _ _ _ => .inr (Or.inl hismove)
    rw [arrivals_dropHeld] at hdisp
    rw [dispatchHeldMouseMove_of_none (held_dropHeld _), dropHeld_arrivals]
    exact hdisp

theorem Inv.mouseArrives (h : Inv w) (type : MouseType) (isSynthesized : Bool) :
    Inv (w.mouseArrives type isSynthesized) := by
  by_cases hmove : type = .dragged ∨ isSynthesized = true
  · exact h.toOrdered.moveArrives hmove
  · have hdisp := @Ordered.dispatch w.dispatchHeldMouseMove ⟨w.arrivals, type, isSynthesized⟩
      h.dispatchHeldMouseMove.toOrdered (held_dispatchHeldMouseMove w)
      (arrivals_dispatchHeldMouseMove w).symm fun i m hm =>
        (h.dispatchHeldMouseMove.awaits (held_dispatchHeldMouseMove w) hm).imp_right .inr
    rw [arrivals_dispatchHeldMouseMove] at hdisp
    rw [State.mouseArrives, State.dispatchMouseEvent, if_neg hmove, dispatchHeldMouseMove_arrivals]
    exact hdisp

theorem Inv.scrollArrives (h : Inv w) : Inv w.scrollArrives := by
  have hinv := h.dispatchHeldMouseMove
  have hheld := held_dispatchHeldMouseMove w
  rw [State.scrollArrives]
  generalize w.dispatchHeldMouseMove = u at hinv hheld ⊢
  have hdisp := @dispatched_not u { u with
    arrivals := u.arrivals + 1
    synthesizeMouseMove := false
    outcomes := u.outcomes ++ [.scroll u.arrivals u.synthesizeMouseMove] } _ rfl rfl
  refine ⟨⟨?_, ?_, fun e he => ?_, hinv.held_move, fun e he => ?_, fun i m hm => ?_,
    fun _ hno => absurd hheld hno, nofun⟩, fun i m hm => .inl ?_⟩
  · rw [hdisp]
    exact hinv.sorted
  · rw [hdisp]
    exact fun e he => lt_succ_of_lt (hinv.dispatched_lt e he)
  · exact lt_succ_of_lt (hinv.held_lt e he)
  · rw [hdisp]
    exact hinv.before_held e he
  · obtain hm | ⟨-, hm⟩ := getElem?_concat hm
    · exact lt_succ_of_lt (hinv.dropped_lt i m hm)
    · cases hm
  · obtain hm | ⟨-, hm⟩ := getElem?_concat hm
    · obtain hfollowed | hflag := hinv.awaits hheld hm
      · exact hfollowed.concat rfl
      · exact followed_last (List.getElem?_eq_some_iff.mp hm).1 rfl
          ⟨hinv.dropped_lt i m hm, hflag⟩
    · cases hm

/-! ## Holding and the tasks -/

theorem Inv.holdMouseMoves (h : Inv w) : Inv w.holdMouseMoves :=
  ⟨⟨h.sorted, h.dispatched_lt, h.held_lt, h.held_move, h.before_held, h.dropped_lt,
    fun hzero => absurd hzero (succ_ne_zero _), h.synthesizeTask⟩, h.followed⟩

theorem Inv.releaseMouseMoves (h : Inv w) (hw : w.releaseMouseMoves = some w') : Inv w' := by
  rw [State.releaseMouseMoves] at hw
  split at hw
  · cases hw
  dsimp only at hw
  split at hw
  · cases hw
    exact ⟨⟨h.sorted, h.dispatched_lt, h.held_lt, h.held_move, h.before_held, h.dropped_lt,
      fun _ _ => mem_append_right _ (mem_singleton_self _),
      fun hsynth => mem_append_left _ (h.synthesizeTask hsynth)⟩, h.followed⟩
  · rename_i hnot
    cases hw
    refine ⟨⟨h.sorted, h.dispatched_lt, h.held_lt, h.held_move, h.before_held, h.dropped_lt,
      fun hzero hheld => ?_, h.synthesizeTask⟩, h.followed⟩
    exact absurd ⟨hzero, Option.isSome_iff_ne_none.mpr hheld⟩ hnot

theorem Inv.postMouseMoveEventAfterWindowChange (h : Inv w) :
    Inv w.postMouseMoveEventAfterWindowChange := by
  rw [State.postMouseMoveEventAfterWindowChange]
  split
  · exact h
  · exact ⟨⟨h.sorted, h.dispatched_lt, h.held_lt, h.held_move, h.before_held, h.dropped_lt,
      fun hzero hheld => mem_append_left _ (h.heldTask hzero hheld),
      fun _ => mem_append_right _ (mem_singleton_self _)⟩,
      fun i m hm => (h.followed i m hm).imp_right fun _ => .inr rfl⟩

/-- No mouse move is to be synthesized any more. -/
theorem Ordered.synthesized (h : Ordered w) {tasks : List Task}
    (hheld : w.mouseMoveHoldCount = 0 → w.heldMouseMove ≠ none →
      Task.dispatchHeldMouseMove w.heldMouseEventFactory ∈ tasks) :
    Ordered { w with synthesizeMouseMove := false, tasks } :=
  ⟨h.sorted, h.dispatched_lt, h.held_lt, h.held_move, h.before_held, h.dropped_lt, hheld, nofun⟩

theorem Inv.synthesizeMouseMoveEvent (h : Inv w) : Inv w.synthesizeMouseMoveEvent := by
  rw [State.synthesizeMouseMoveEvent]
  split
  · exact (h.synthesized h.heldTask).moveArrives (Or.inr rfl)
  · exact h

theorem mem_eraseIdx_of_ne {tasks : List Task} {task task' : Task} (h : task ∈ tasks)
    (hi : tasks[i]? = some task') (hne : task ≠ task') : task ∈ tasks.eraseIdx i := by
  obtain ⟨j, hj⟩ := mem_iff_getElem?.mp h
  refine mem_eraseIdx_iff_getElem?.mpr ⟨j, ?_, hj⟩
  rintro rfl
  exact hne (Option.some.inj (hj.symm.trans hi))

theorem Inv.setTasks (h : Inv w) {tasks : List Task}
    (hheld : w.mouseMoveHoldCount = 0 → w.heldMouseMove ≠ none →
      Task.dispatchHeldMouseMove w.heldMouseEventFactory ∈ tasks)
    (hsynth : w.synthesizeMouseMove = true → Task.synthesizeMouseMoveEvent ∈ tasks) :
    Inv { w with tasks } :=
  ⟨⟨h.sorted, h.dispatched_lt, h.held_lt, h.held_move, h.before_held, h.dropped_lt, hheld,
    hsynth⟩, h.followed⟩

theorem dispatchHeldMouseMove_tasks (w : State) (tasks : List Task) :
    { w with tasks }.dispatchHeldMouseMove = { w.dispatchHeldMouseMove with tasks } := by
  obtain ⟨_, held, _, synthesize, _, _, _⟩ := w
  cases held with
  | none => rfl
  | some e => cases synthesize <;> rfl

theorem tasks_dispatchHeldMouseMove (w : State) : w.dispatchHeldMouseMove.tasks = w.tasks := by
  obtain ⟨_, held, _, synthesize, _, _, _⟩ := w
  cases held with
  | none => rfl
  | some e => cases synthesize <;> rfl

theorem Inv.runTask (h : Inv w) (hw : w.runTask i = some w') : Inv w' := by
  rw [State.runTask] at hw
  split at hw
  · cases hw
  · rename_i factory hi
    cases hw
    have hsynth : ∀ v : State, v.tasks = w.tasks → Inv v → v.synthesizeMouseMove = true →
        Task.synthesizeMouseMoveEvent ∈ w.tasks.eraseIdx i := by
      intro v htasks hv hflag
      have hmem := hv.synthesizeTask hflag
      rw [htasks] at hmem
      exact mem_eraseIdx_of_ne hmem hi nofun
    split
    · rw [dispatchHeldMouseMove_tasks]
      exact h.dispatchHeldMouseMove.setTasks
        (fun _ hno => absurd (held_dispatchHeldMouseMove w) hno)
        (hsynth _ (tasks_dispatchHeldMouseMove w) h.dispatchHeldMouseMove)
    · rename_i hstale
      refine h.setTasks (fun hzero hheld => ?_) (hsynth w rfl h)
      refine mem_eraseIdx_of_ne (h.heldTask hzero hheld) hi fun hsame => ?_
      exact hstale (Task.dispatchHeldMouseMove.inj hsame).symm
  · rename_i hi
    cases hw
    have hheld : w.mouseMoveHoldCount = 0 → w.heldMouseMove ≠ none →
        Task.dispatchHeldMouseMove w.heldMouseEventFactory ∈ w.tasks.eraseIdx i :=
      fun hzero hheld => mem_eraseIdx_of_ne (h.heldTask hzero hheld) hi nofun
    rw [State.synthesizeMouseMoveEvent]
    split
    · exact (h.synthesized hheld).moveArrives (Or.inr rfl)
    · rename_i hflag
      exact h.setTasks hheld fun hno => absurd hno hflag

theorem Inv.step {a : Action} (h : Inv w) (hw : step w a = some w') : Inv w' := by
  cases a with
  | holdMouseMoves =>
    cases hw
    exact h.holdMouseMoves
  | releaseMouseMoves => exact h.releaseMouseMoves hw
  | mouse type isSynthesized =>
    cases hw
    exact h.mouseArrives type isSynthesized
  | key | touch =>
    cases hw
    exact h.dispatchHeldMouseMove
  | scroll =>
    cases hw
    exact h.scrollArrives
  | windowChange =>
    cases hw
    exact h.postMouseMoveEventAfterWindowChange
  | captureLost =>
    cases hw
    exact h.synthesizeMouseMoveEvent
  | runTask i => exact h.runTask hw

theorem inv_new : Inv new :=
  ⟨⟨.nil, nofun, nofun, nofun, nofun, nofun, fun _ hno => absurd rfl hno, nofun⟩, nofun⟩

/-- After every run the mouse events have been dispatched in the order in which they arrived, none
twice. Without a hold or a task no move is held, and behind every one that was dropped a move is
dispatched that arrived later, or another event that came in the place of one to be synthesized. -/
theorem moves_held {actions : List Action} (hrun : run step actions new = some w) :
    (w.dispatched.Pairwise fun e e' => e.arrival < e'.arrival) ∧
      (w.mouseMoveHoldCount = 0 → w.tasks = [] → w.heldMouseMove = none ∧
        ∀ (i : Nat) (m : MouseEvent), w.outcomes[i]? = some (.dropped m) →
          w.Followed i m.arrival) := by
  have hinv : Inv w := run_invariant (fun _ _ _ h hstep => h.step hstep) hrun inv_new
  refine ⟨hinv.sorted, fun hzero htasks => ?_⟩
  have hheld : w.heldMouseMove = none := by
    by_contra hheld
    have hmem := hinv.heldTask hzero hheld
    rw [htasks] at hmem
    cases hmem
  refine ⟨hheld, fun i m hm => ?_⟩
  obtain hfollowed | hflag := hinv.awaits hheld hm
  · exact hfollowed
  · have hmem := hinv.synthesizeTask hflag
    rw [htasks] at hmem
    cases hmem

end

/-! ## Two runs -/

/-- Two drags are held, and the later one is dispatched by the task. -/
theorem moves_held_drags : ∃ w, run step [.holdMouseMoves, .mouse .dragged false,
    .mouse .dragged false, .releaseMouseMoves, .runTask 0] new = some w ∧
      w.heldMouseMove = none ∧ w.dispatched = [⟨1, .dragged, false⟩] := by
  have hrun : run step [.holdMouseMoves, .mouse .dragged false, .mouse .dragged false,
      .releaseMouseMoves, .runTask 0] new = some ⟨0, none, 1, false, [], 2,
        [.dropped ⟨0, .dragged, false⟩, .mouse ⟨1, .dragged, false⟩ false]⟩ := by decide
  exact ⟨_, hrun, ((moves_held hrun).2 rfl rfl).1, rfl⟩

/-- A drag is held, a window changes under the mouse, and the button is released: the drag is
dropped for a move that is not synthesized any more. -/
theorem drag_lost : ∃ w, run step [.holdMouseMoves, .mouse .dragged false, .windowChange,
    .mouse .other false, .releaseMouseMoves, .runTask 0] new = some w ∧
      w.mouseMoveHoldCount = 0 ∧ w.tasks = [] ∧
        w.outcomes[0]? = some (.dropped ⟨0, .dragged, false⟩) ∧
          ∀ e ∈ w.dispatched, ¬ e.IsMove := by
  refine ⟨⟨0, none, 1, false, [], 2, [.dropped ⟨0, .dragged, false⟩,
    .mouse ⟨1, .other, false⟩ true]⟩, by decide, rfl, rfl, rfl, fun e he => ?_⟩
  obtain rfl := mem_singleton.mp he
  unfold MouseEvent.IsMove
  decide

end ChromiumUI.Aura.RootWindow
