import ChromiumUI.GesturePoint
import Std.Data.TreeMap.Lemmas
import ChromiumUI.GestureInvariant

/-!
# The gesture recognizer

`GestureRecognizerImpl`: which consumer a finger is locked to, and a touch queue and a gesture
sequence for each consumer. A NULL consumer is `none`.
-/
namespace ChromiumUI.Gestures

/-- A GestureConsumer*, whose NULL is a key of the maps like any other. -/
abbrev ConsumerPtr (C : Type) := Option C

/-- `std::map<int, GestureConsumer*>`: an entry may hold NULL. -/
abbrev TouchIdToConsumerMap (C : Type) := Std.TreeMap Nat (ConsumerPtr C)

structure GestureRecognizer (C F : Type) where
  eventQueue : ConsumerPtr C → Option (Option (List TouchEvent))
  consumerSequence : ConsumerPtr C → Option (GestureSequence F)
  touchIdTarget : TouchIdToConsumerMap C
  touchIdTargetForGestures : TouchIdToConsumerMap C

namespace GestureRecognizer

variable {C F : Type} [DecidableEq C]

def new : GestureRecognizer C F := ⟨fun _ => none, fun _ => none, ∅, ∅⟩

/-- An entry of one of the maps that are keyed by consumers. -/
def setEntry {T : Type} (map : ConsumerPtr C → Option T) (consumer : ConsumerPtr C)
    (value : Option T) : ConsumerPtr C → Option T :=
  fun c => if c = consumer then value else map c

/-! ## The touch queue -/

variable (r : GestureRecognizer C F)

def queueOf (consumer : ConsumerPtr C) : List TouchEvent :=
  ((r.eventQueue consumer).getD none).getD []

def queueTouchEventForGesture (consumer : ConsumerPtr C)
    (event : TouchEvent) : GestureRecognizer C F :=
  { r with
    eventQueue := setEntry r.eventQueue consumer (some (some (r.queueOf consumer ++ [event]))) }

theorem queueOf_queueTouchEvent (r : GestureRecognizer C F) (consumer : ConsumerPtr C)
    (event : TouchEvent) :
    (r.queueTouchEventForGesture consumer event).queueOf consumer =
      r.queueOf consumer ++ [event] := by
  simp [queueTouchEventForGesture, queueOf, setEntry]

/-- CancelledTouchEvent: the same touch with the type of a cancel. -/
def cancelled (event : TouchEvent) : TouchEvent := { event with type := .touchCancelled }

/-- What the sequence is given when the front of the queue is advanced. -/
def advanced (event : TouchEvent) (processed : Bool) : TouchEvent × TouchStatus :=
  if processed ∧ event.type = .touchReleased then (cancelled event, .unknown)
  else (event, if processed then .continue else .unknown)

variable [Zero F] [DecidableEq F] (m : Measures F)

/-- The sequence that GetGestureSequenceForConsumer finds or creates. -/
def sequenceOf (consumer : ConsumerPtr C) : GestureSequence F :=
  (r.consumerSequence consumer).getD .new

def setSequence (consumer : ConsumerPtr C) (s : GestureSequence F) :
    GestureRecognizer C F :=
  { r with consumerSequence := setEntry r.consumerSequence consumer (some s) }

def advanceTouchQueue (consumer : ConsumerPtr C) (processed : Bool) :
    Option (GestureRecognizer C F × Option (List GestureEvent)) :=
  match r.queueOf consumer with
  | [] =>
    -- The lookup leaves a NULL entry behind.
    let entry := (r.eventQueue consumer).getD none
    some ({ r with eventQueue := setEntry r.eventQueue consumer (some entry) }, none)
  | event :: events => do
    let given := advanced event processed
    let result ← (r.sequenceOf consumer).processTouchEventForGesture m given.1 given.2
    return ({ r.setSequence consumer result.1 with
      eventQueue := setEntry r.eventQueue consumer (some (some events)) }, result.2)

/-- AdvanceTouchQueue gives the sequence of the consumer the front of its queue. -/
theorem advanceTouchQueue_cons {r : GestureRecognizer C F} {consumer : ConsumerPtr C}
    {event : TouchEvent} {events : List TouchEvent} {processed : Bool}
    (h : r.queueOf consumer = event :: events) :
    ∃ next : GestureSequence F → GestureRecognizer C F,
      r.advanceTouchQueue m consumer processed =
        ((r.sequenceOf consumer).processTouchEventForGesture m
          (advanced event processed).1 (advanced event processed).2).map
            (fun result => (next result.1, result.2)) ∧
        ∀ s, (next s).queueOf consumer = events ∧ (next s).sequenceOf consumer = s := by
  refine ⟨fun s => { r.setSequence consumer s with
    eventQueue := setEntry r.eventQueue consumer (some (some events)) }, ?_, fun s => ⟨?_, ?_⟩⟩
  · rw [advanceTouchQueue, h]
    exact Option.map_eq_bind.symm
  · simp [queueOf, setEntry]
  · simp [sequenceOf, setSequence, setEntry]

/-! ## Targets -/

/-- GetTouchLockedTarget: the lookup creates a missing entry. -/
def getTouchLockedTarget (touchId : Nat) :
    ConsumerPtr C × GestureRecognizer C F :=
  match r.touchIdTarget[touchId]? with
  | some target => (target, r)
  | none => (none, { r with touchIdTarget := r.touchIdTarget.insert touchId none })

def processTouchEventForGesture (event : TouchEvent)
    (status : TouchStatus) (target : ConsumerPtr C) :
    Option (GestureRecognizer C F × Option (List GestureEvent)) := do
  let r' : GestureRecognizer C F :=
    if event.Lifts then
      { r with touchIdTarget := r.touchIdTarget.insert event.touchId none }
    else
      { r with
        touchIdTarget := r.touchIdTarget.insert event.touchId target
        touchIdTargetForGestures :=
          if target.isSome then r.touchIdTargetForGestures.insert event.touchId target
          else r.touchIdTargetForGestures }
  let result ← (r'.sequenceOf target).processTouchEventForGesture m event status
  return (r'.setSequence target result.1, result.2)

/-! ## TransferEventsTo -/

/-- TransferTouchIdToConsumerMap -/
def transferTouchIds (oldConsumer newConsumer : ConsumerPtr C) (map : TouchIdToConsumerMap C) :
    TouchIdToConsumerMap C :=
  map.map fun _ target => if target = oldConsumer then newConsumer else target

/-- TransferConsumer: what the new consumer had is overwritten. -/
def transferConsumer {T : Type} (currentConsumer newConsumer : ConsumerPtr C)
    (map : ConsumerPtr C → Option T) : ConsumerPtr C → Option T :=
  match map currentConsumer with
  | some value => setEntry (setEntry map newConsumer (some value)) currentConsumer none
  | none => map

/-- Whether TransferEventsTo cancels a finger with this target. -/
def cancels (ignorer currentConsumer newConsumer target : ConsumerPtr C) : Bool :=
  target ≠ newConsumer && (target ≠ currentConsumer || newConsumer = none) && target ≠ ignorer

/-- The second half of TransferEventsTo. -/
def transferConsumers (currentConsumer newConsumer : ConsumerPtr C)
    (r : GestureRecognizer C F) : GestureRecognizer C F :=
  if currentConsumer.isSome ∧ newConsumer.isSome then
    { r with
      touchIdTarget := transferTouchIds currentConsumer newConsumer r.touchIdTarget
      touchIdTargetForGestures :=
        transferTouchIds currentConsumer newConsumer r.touchIdTargetForGestures
      eventQueue := transferConsumer currentConsumer newConsumer r.eventQueue
      consumerSequence := transferConsumer currentConsumer newConsumer r.consumerSequence }
  else r

end GestureRecognizer

/-! ## The touch queue of a consumer

The touches of one consumer are queued and later advanced, each processed by the page or not.
A finger is left behind exactly when a cancel of it is advanced as processed while the finger
has its point. -/

open Outcomes Runs GestureRecognizer

/-! ## A touch the sequence is given -/

variable {down accepted : List Nat}

namespace GestureSequence

variable {F : Type} {s : GestureSequence F} {m : Measures F} {event : TouchEvent}

theorem downAfter_of_lifts (h : event.Lifts) :
    downAfter down event = down.filter (· ≠ event.touchId) := by
  have hnot : event.type ≠ .touchPressed := by
    obtain hty | hty := h <;> simp [hty]
  rw [downAfter, if_neg hnot, if_pos h]

/-- A finger that is down and not lifted stays down. -/
theorem mem_downAfter {id : Nat} (h : id ∈ down) (hne : event.Lifts → id ≠ event.touchId) :
    id ∈ downAfter down event := by
  unfold downAfter
  split
  · exact List.mem_cons_of_mem _ h
  · split
    · rename_i hlifts
      exact List.mem_filter.mpr ⟨h, by simpa using hne hlifts⟩
    · exact h

theorem downAfter_subset {down' : List Nat} (h : ∀ id ∈ down, id ∈ down') :
    ∀ id ∈ downAfter down event, id ∈ downAfter down' event := by
  intro id hid
  unfold downAfter at hid ⊢
  split
  · rename_i hty
    rw [if_pos hty, List.mem_cons] at hid
    exact List.mem_cons.mpr (hid.imp_right (h id))
  · rename_i hty
    rw [if_neg hty] at hid
    split
    · rename_i hlifts
      rw [if_pos hlifts, List.mem_filter] at hid
      exact List.mem_filter.mpr ⟨h id hid.1, hid.2⟩
    · rename_i hlifts
      rw [if_neg hlifts] at hid
      exact h id hid

variable [Zero F] [DecidableEq F]

/-- Among the fingers that are down some have a point; a touch in turn keeps it that way. -/
theorem process_inTurn (h : s.Invariant accepted) (hsub : ∀ id ∈ accepted, id ∈ down)
    (hlt : event.touchId < kMaxGesturePoints)
    (hturn : event.type = .touchPressed ↔ event.touchId ∉ down) :
    Yields (s.processTouchEventForGesture m event .unknown) fun r =>
      ∃ accepted', r.1.Invariant accepted' ∧ (∀ id ∈ accepted', id ∈ downAfter down event) ∧
        (event.type = .touchPressed → accepted' = event.touchId :: accepted) := by
  by_cases hty : event.type = .touchPressed
  · have hfree : event.touchId ∉ accepted := fun hmem => hturn.mp hty (hsub _ hmem)
    apply (process_pressed h hlt hty hfree).mono
    rintro r ⟨hinv, -⟩
    refine ⟨_, hinv, downAfter_subset hsub, fun _ => ?_⟩
    rw [downAfter, if_pos hty]
  · by_cases hmem : event.touchId ∈ accepted
    · apply (process_down h hlt hty hmem).mono
      rintro r ⟨hinv, -⟩
      exact ⟨_, hinv, downAfter_subset hsub, fun hpress => absurd hpress hty⟩
    · have hfree : (s.points ⟨event.touchId, hlt⟩).pointId < 0 := by
        have hunused := mt (h.inUse ⟨event.touchId, hlt⟩).mp hmem
        rw [inUse_iff] at hunused
        exact Int.not_le.mp hunused
      apply (process_ignored hlt hty hfree).mono
      rintro r ⟨hsame, hstate, htimer, -⟩
      refine ⟨_, h.of_sameIds hsame hstate htimer, fun id hid => ?_,
        fun hpress => absurd hpress hty⟩
      apply mem_downAfter (hsub id hid)
      rintro - rfl
      exact hmem hid

end GestureSequence

/-! ## Queueing and advancing -/

variable {C F : Type} [DecidableEq C] [Zero F] [DecidableEq F]

inductive QueueOp where
  | queue (event : TouchEvent)
  | advance (processed : Bool)
  deriving DecidableEq, Repr

/-- A recognizer with the fingers that are down by the touches queued so far, and by those
advanced. -/
structure QueueSession (C F : Type) where
  recognizer : GestureRecognizer C F
  queued : List Nat
  advanced : List Nat

def QueueSession.new : QueueSession C F := ⟨.new, [], []⟩

/-- Touches are queued in turn. -/
def QueueSession.step (m : Measures F) (consumer : ConsumerPtr C) (session : QueueSession C F) :
    QueueOp → Option (QueueSession C F)
  | .queue event => do
    let queued ← contact session.queued event
    return { session with
      recognizer := session.recognizer.queueTouchEventForGesture consumer event
      queued := queued }
  | .advance processed => do
    let result ← session.recognizer.advanceTouchQueue m consumer processed
    return { session with
      recognizer := result.1
      advanced := match session.recognizer.queueOf consumer with
        | [] => session.advanced
        | event :: _ => GestureSequence.downAfter session.advanced event }

/-- The finger has a point in the sequence of the consumer. -/
def QueueSession.hasPoint (consumer : ConsumerPtr C) (session : QueueSession C F)
    (touchId : Nat) : Bool :=
  if h : touchId < kMaxGesturePoints then
    ((session.recognizer.sequenceOf consumer).points ⟨touchId, h⟩).inUse
  else false

/-- A cancel is not advanced as processed while its finger has a point. -/
def QueueSession.meets (consumer : ConsumerPtr C) (session : QueueSession C F) : QueueOp → Bool
  | .queue _ => true
  | .advance processed =>
    match session.recognizer.queueOf consumer with
    | [] => true
    | event :: _ =>
      !(processed && event.type = .touchCancelled && session.hasPoint consumer event.touchId)

/-- A step of a run whose steps all meet the condition. -/
def QueueSession.meetingStep (m : Measures F) (consumer : ConsumerPtr C)
    (session : QueueSession C F) (op : QueueOp) : Option (QueueSession C F) :=
  if session.meets consumer op then session.step m consumer op else none

/-- A finger whose contact has ended has no point, and the touch that begins its next one is
given a point with an id of its own. -/
structure QueueSession.NoneLeft (m : Measures F) (consumer : ConsumerPtr C)
    (session : QueueSession C F) : Prop where
  ended : ∀ i : Slot, i.val ∉ session.advanced →
    ((session.recognizer.sequenceOf consumer).points i).inUse = false
  accepted : ∀ event events, session.recognizer.queueOf consumer = event :: events →
    event.type = .touchPressed → ∃ r gestures,
      session.recognizer.advanceTouchQueue m consumer false = some (r, gestures) ∧
        ∃ i : Slot, i.val = event.touchId ∧ ((r.sequenceOf consumer).points i).inUse = true ∧
          ∀ j, ((r.sequenceOf consumer).points j).pointId =
            ((r.sequenceOf consumer).points i).pointId → j = i

/-- The fingers with a point are among those that are down by the advanced touches, which the
queue continues. -/
structure QueueSession.Consistent (consumer : ConsumerPtr C) (session : QueueSession C F)
    (accepted : List Nat) : Prop where
  invariant : (session.recognizer.sequenceOf consumer).Invariant accepted
  subset : ∀ id ∈ accepted, id ∈ session.advanced
  queue : run contact (session.recognizer.queueOf consumer) session.advanced =
    some session.queued

variable {m : Measures F} {consumer : ConsumerPtr C} {session session' : QueueSession C F}

theorem contact_some {down' : List Nat} {event : TouchEvent} (h : contact down event = some down') :
    event.touchId < kMaxGesturePoints ∧
      (event.type = .touchPressed ↔ event.touchId ∉ down) ∧
      down' = GestureSequence.downAfter down event := by
  rw [contact] at h
  split at h
  · rename_i hturn
    exact ⟨hturn.1, hturn.2, (Option.some.inj h).symm⟩
  · cases h

theorem consistent_queue {event : TouchEvent} (h : session.Consistent consumer accepted)
    (hstep : session.step m consumer (.queue event) = some session') :
    session'.Consistent consumer accepted := by
  obtain ⟨queued, hqueue, hsession⟩ := Option.bind_eq_some_iff.mp hstep
  cases hsession
  refine ⟨h.invariant, h.subset, ?_⟩
  rw [queueOf_queueTouchEvent, run_concat, h.queue]
  exact hqueue

/-- What the sequence is given when the front of the queue is advanced: the touch, or a cancel
in its place. -/
theorem advanced_given (event : TouchEvent) (processed : Bool) :
    (∃ given : TouchEvent, advanced event processed = (given, .unknown) ∧
        given.touchId = event.touchId ∧ (given.type = .touchPressed ↔ event.type = .touchPressed) ∧
        ∀ down, GestureSequence.downAfter down given = GestureSequence.downAfter down event) ∨
      processed = true ∧ event.type ≠ .touchReleased ∧
        advanced event processed = (event, .continue) := by
  unfold advanced
  cases processed with
  | false => exact .inl ⟨event, rfl, rfl, Iff.rfl, fun _ => rfl⟩
  | true =>
    by_cases hty : event.type = .touchReleased
    · refine .inl ⟨cancelled event, by simp [hty], rfl, ?_, fun down => ?_⟩
      · simp [cancelled, hty]
      · rw [GestureSequence.downAfter_of_lifts (Or.inl hty),
          GestureSequence.downAfter_of_lifts (Or.inr rfl)]
        rfl
    · exact .inr ⟨rfl, hty, by simp [hty]⟩

theorem process_continue (s : GestureSequence F) (event : TouchEvent) :
    s.processTouchEventForGesture m event .continue = some (s, none) := by
  rw [GestureSequence.processTouchEventForGesture, if_pos (by decide)]

omit [DecidableEq C] [DecidableEq F] in
theorem hasPoint_iff {touchId : Nat} (hlt : touchId < kMaxGesturePoints) :
    session.hasPoint consumer touchId =
      ((session.recognizer.sequenceOf consumer).points ⟨touchId, hlt⟩).inUse :=
  dif_pos hlt

/-- Advancing in a run that meets the condition. -/
theorem consistent_advance {processed : Bool} (h : session.Consistent consumer accepted)
    (hmeets : session.meets consumer (.advance processed) = true) :
    Yields (session.step m consumer (.advance processed)) fun session' =>
      ∃ accepted', session'.Consistent consumer accepted' := by
  have hqueue := h.queue
  unfold QueueSession.step
  unfold QueueSession.meets at hmeets
  dsimp only at hmeets ⊢
  cases hfront : session.recognizer.queueOf consumer with
  | nil =>
    rw [advanceTouchQueue, hfront]
    refine .some ⟨accepted, h.invariant, h.subset, ?_⟩
    rw [hfront] at hqueue
    have hempty : (session.recognizer.eventQueue consumer).getD none = none ∨
        (session.recognizer.eventQueue consumer).getD none = some [] := by
      unfold queueOf at hfront
      cases hentry : (session.recognizer.eventQueue consumer).getD none with
      | none => exact .inl rfl
      | some events =>
        rw [hentry] at hfront
        exact .inr (congrArg some hfront)
    obtain hnone | hnil := hempty
    · simpa [queueOf, setEntry, hnone] using hqueue
    · simpa [queueOf, setEntry, hnil] using hqueue
  | cons event events =>
    rw [hfront] at hqueue hmeets
    obtain ⟨down', hcontact, hrest⟩ := run_cons_some hqueue
    obtain ⟨hlt, hturn, rfl⟩ := contact_some hcontact
    obtain ⟨next, hadvance, hnext⟩ :=
      @GestureRecognizer.advanceTouchQueue_cons C F _ _ _ m _ _ _ _ processed hfront
    rw [hadvance]
    obtain ⟨given, hgiven, hid, hpress, hdown⟩ | ⟨hproc, hty, hgiven⟩ :=
      advanced_given event processed
    · rw [hgiven, Option.bind_eq_bind, Option.bind_map]
      apply (GestureSequence.process_inTurn h.invariant h.subset (hid ▸ hlt)
        (by rw [hpress, hid]; exact hturn)).bind
      rintro r ⟨accepted', hinv, hsub, -⟩
      refine .some ⟨accepted', ?_, ?_, ?_⟩
      · rw [(hnext r.1).2]
        exact hinv
      · intro id hmem
        show id ∈ GestureSequence.downAfter session.advanced event
        rw [← hdown]
        exact hsub id hmem
      · rw [(hnext r.1).1]
        exact hrest
    · rw [hgiven, process_continue]
      refine .some ⟨accepted, ?_, ?_, ?_⟩
      · rw [(hnext _).2]
        exact h.invariant
      · intro id hmem
        apply GestureSequence.mem_downAfter (h.subset id hmem)
        rintro (hreleased | hcancelled) rfl
        · exact hty hreleased
        · have hused := (h.invariant.inUse ⟨event.touchId, hlt⟩).mpr hmem
          rw [← hasPoint_iff] at hused
          simp [hproc, hcancelled, hused] at hmeets
      · rw [(hnext _).1]
        exact hrest

theorem QueueSession.Consistent.noneLeft (h : session.Consistent consumer accepted) :
    session.NoneLeft m consumer where
  ended i hi := by
    rw [← Bool.not_eq_true, h.invariant.inUse]
    exact fun hmem => hi (h.subset _ hmem)
  accepted event events hfront hty := by
    have hqueue := h.queue
    rw [hfront] at hqueue
    obtain ⟨down', hcontact, -⟩ := run_cons_some hqueue
    obtain ⟨hlt, hturn, -⟩ := contact_some hcontact
    obtain ⟨next, hadvance, hnext⟩ :=
      @GestureRecognizer.advanceTouchQueue_cons C F _ _ _ m _ _ _ _ false hfront
    obtain ⟨r, hr, accepted', hinv, -, hacc⟩ :=
      GestureSequence.process_inTurn (m := m) h.invariant h.subset hlt hturn
    have hgiven : GestureRecognizer.advanced event false = (event, .unknown) := rfl
    refine ⟨next r.1, r.2, ?_, ⟨event.touchId, hlt⟩, rfl, ?_, ?_⟩
    · rw [hadvance, hgiven, hr]
      rfl
    · rw [(hnext _).2, hinv.inUse, hacc hty]
      exact List.mem_cons_self
    · rw [(hnext _).2]
      intro j hj
      have hused := (hinv.inUse ⟨event.touchId, hlt⟩).mpr
        (hacc hty ▸ List.mem_cons_self)
      exact (hinv.numbered.inj _ j (GestureSequence.inUse_iff.mp hused) hj.symm).symm

/-- A run whose steps all meet the condition stays consistent. -/
theorem run_meetingStep_consistent {ops : List QueueOp}
    (h : run (QueueSession.meetingStep m consumer) ops QueueSession.new = some session) :
    ∃ accepted, session.Consistent consumer accepted := by
  refine run_invariant (P := fun session => ∃ accepted, session.Consistent consumer accepted)
    ?_ h ⟨[], GestureSequence.invariant_new, nofun, rfl⟩
  rintro before op after ⟨accepted, hcons⟩ hstep
  rw [QueueSession.meetingStep] at hstep
  split at hstep
  · rename_i hmeets
    cases op with
    | queue event => exact ⟨accepted, consistent_queue hcons hstep⟩
    | advance processed => exact (consistent_advance hcons hmeets).of_eq hstep
  · cases hstep

/-- A cancel advanced as processed is dropped, and its finger keeps its point. -/
theorem not_noneLeft_of_not_meets {processed : Bool} (h : session.Consistent consumer accepted)
    (hmeets : session.meets consumer (.advance processed) = false) :
    Yields (session.step m consumer (.advance processed)) fun session' =>
      ¬session'.NoneLeft m consumer := by
  have hqueue := h.queue
  unfold QueueSession.step
  unfold QueueSession.meets at hmeets
  dsimp only at hmeets ⊢
  cases hfront : session.recognizer.queueOf consumer with
  | nil =>
    rw [hfront] at hmeets
    cases hmeets
  | cons event events =>
    rw [hfront] at hqueue hmeets
    simp only [Bool.not_eq_false', Bool.and_eq_true, decide_eq_true_eq] at hmeets
    obtain ⟨⟨hproc, hcancelled⟩, hpoint⟩ := hmeets
    obtain ⟨down', hcontact, -⟩ := run_cons_some hqueue
    obtain ⟨hlt, -, -⟩ := contact_some hcontact
    obtain ⟨next, hadvance, hnext⟩ :=
      @GestureRecognizer.advanceTouchQueue_cons C F _ _ _ m _ _ _ _ processed hfront
    have hgiven : advanced event processed = (event, .continue) := by
      simp [advanced, hproc, hcancelled]
    rw [hadvance, hgiven, process_continue]
    refine .some fun hnone => ?_
    have hfree := hnone.ended ⟨event.touchId, hlt⟩ (by
      dsimp only
      rw [GestureSequence.downAfter_of_lifts (Or.inr hcancelled)]
      simp)
    rw [(hnext _).2, ← hasPoint_iff, hpoint] at hfree
    cases hfree

/-- In a run whose steps all meet the condition no finger is left behind; the next advance
leaves one exactly when it does not meet the condition. -/
theorem queue_leaves_no_finger (m : Measures F) (consumer : ConsumerPtr C) {ops : List QueueOp}
    {session : QueueSession C F}
    (h : run (QueueSession.meetingStep m consumer) ops QueueSession.new = some session) :
    session.NoneLeft m consumer ∧ ∀ processed, ∃ session',
      session.step m consumer (.advance processed) = some session' ∧
        (session'.NoneLeft m consumer ↔ session.meets consumer (.advance processed) = true) := by
  obtain ⟨accepted, hconsistent⟩ := run_meetingStep_consistent h
  refine ⟨hconsistent.noneLeft, fun processed => ?_⟩
  cases hmeets : session.meets consumer (.advance processed) with
  | true =>
    obtain ⟨session', hstep, accepted', hconsistent'⟩ :=
      consistent_advance (m := m) hconsistent hmeets
    exact ⟨session', hstep, fun _ => rfl, fun _ => hconsistent'.noneLeft⟩
  | false =>
    obtain ⟨session', hstep, hleft⟩ := not_noneLeft_of_not_meets (m := m) hconsistent hmeets
    exact ⟨session', hstep, fun hnone => absurd hnone hleft, nofun⟩

/-- The touches of one finger, queued and advanced with one answer for the last of them. -/
def oneContact (last : EventType) (processed : Bool) : List QueueOp :=
  [.queue ⟨.touchPressed, ⟨10, 10⟩, 3, 0⟩, .advance false, .queue ⟨last, ⟨10, 10⟩, 3, 20000⟩,
    .advance processed]

theorem processed_release_leaves_none : ∃ session : QueueSession Unit Int,
    run (QueueSession.meetingStep wholeMeasures (some ())) (oneContact .touchReleased true)
        QueueSession.new = some session ∧
      session.NoneLeft wholeMeasures (some ()) := by
  have hruns : (run (QueueSession.meetingStep wholeMeasures (some ()))
      (oneContact .touchReleased true) (QueueSession.new : QueueSession Unit Int)).isSome := by
    decide
  obtain ⟨session, hrun⟩ := Option.isSome_iff_exists.mp hruns
  exact ⟨session, hrun, (queue_leaves_no_finger wholeMeasures (some ()) hrun).1⟩

/-- A cancel that is advanced as processed leaves the finger's point in use. -/
theorem processed_cancel_leaves_finger : ∃ session : QueueSession Unit Int,
    run (QueueSession.step wholeMeasures (some ())) (oneContact .touchCancelled true)
        QueueSession.new = some session ∧
      session.advanced = [] ∧ session.hasPoint (some ()) 3 = true ∧
        ¬session.NoneLeft wholeMeasures (some ()) := by
  have hruns : (run (QueueSession.step wholeMeasures (some ())) (oneContact .touchCancelled true)
      (QueueSession.new : QueueSession Unit Int)).map
        (fun session => (session.advanced, session.hasPoint (some ()) 3)) = some ([], true) := by
    decide
  obtain ⟨session, hrun, hpair⟩ := Option.map_eq_some_iff.mp hruns
  obtain ⟨hadvanced, hpoint⟩ := Prod.ext_iff.mp hpair
  refine ⟨session, hrun, hadvanced, hpoint, fun hnone => ?_⟩
  have hfree := hnone.ended 3 (by rw [show session.advanced = [] from hadvanced]; exact nofun)
  have hused : ((session.recognizer.sequenceOf (some ())).points 3).inUse = true := hpoint
  rw [hused] at hfree
  cases hfree

end ChromiumUI.Gestures
