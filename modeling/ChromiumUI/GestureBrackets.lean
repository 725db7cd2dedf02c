import ChromiumUI.GestureInvariant

/-!
# The brackets of the gesture stream

The gestures of a scroll lie between its SCROLL_BEGIN and SCROLL_END, and a pinch nests in a
scroll, when two habits of the sequence are taken into account: the scroll that is left when
a finger of a two-finger tap is lifted begins without a gesture, and a pinch that begins
together with its scroll is announced before it.
-/
namespace ChromiumUI.Gestures

open Outcomes Runs List Option GestureSequence GestureEvent Session Report

/-- The brackets that are open. -/
inductive Open where
  | nothing
  | scroll
  | pinch
  deriving DecidableEq, Repr

/-- Read one gesture; `none` where it is out of place. -/
def Open.step : Open → GestureEventType → Option Open
  | .nothing, .scrollBegin => some .scroll
  | .scroll, .scrollUpdate => some .scroll
  | .scroll, .scrollEnd => some .nothing
  | .scroll, .pinchBegin => some .pinch
  | .pinch, .scrollUpdate => some .pinch
  | .pinch, .pinchUpdate => some .pinch
  | .pinch, .pinchEnd => some .scroll
  | _, .scrollBegin | _, .scrollUpdate | _, .scrollEnd => none
  | _, .pinchBegin | _, .pinchUpdate | _, .pinchEnd => none
  | o, _ => some o

/-- What is open in a state of the sequence. -/
def GestureState.opened : GestureState → Open
  | .noGesture | .pendingSyntheticClick | .pendingTwoFingerTap => .nothing
  | .scroll => .scroll
  | .pinch => .pinch

/-- A finger is lifted from a two-finger tap. -/
def leavesTwoFingerTap (state : GestureState) (type : EventType) : Bool :=
  state = .pendingTwoFingerTap && (type = .touchReleased || type = .touchCancelled)

/-- The gestures of one touch as brackets: the scroll that begins unannounced, and a
SCROLL_BEGIN ahead of the PINCH_BEGIN it comes with. -/
def asBrackets (state : GestureState) (type : EventType) (gestures : List GestureEventType) :
    List GestureEventType :=
  (if leavesTwoFingerTap state type then [.scrollBegin] else []) ++
    gestures.filter (· = .scrollBegin) ++ gestures.filter (· ≠ .scrollBegin)

def Report.types (report : Report) : List GestureEventType := report.gestures.map type

def Report.brackets (report : Report) : List GestureEventType :=
  match report.input with
  | .touch event => asBrackets report.state event.type report.types
  | .timer => report.types

/-- GESTURE_BEGIN and GESTURE_END. -/
def GestureEvent.isContact (gesture : GestureEvent) : Bool :=
  gesture.type = .gestureBegin || gesture.type = .gestureEnd

/-- The gestures that a touch owes for the contact of its finger. -/
def contactGestures (event : TouchEvent) : List GestureEvent :=
  begins event ++ ends event

theorem Emits.types_contact {st st' : GestureState} {ty : EventType} {n : Int}
    {gs : List GestureEventType} (h : Emits st ty n gs st') :
    ∀ g ∈ gs, g ≠ .gestureBegin ∧ g ≠ .gestureEnd := by
  cases h with
  | click h | pinchMove h => obtain rfl | rfl | rfl := h <;> decide
  | scrollStart h | scrollMove h | scrollEnd _ h | twoFingerTouchReleased h | pinchLift _ _ h =>
    obtain rfl | rfl := h <;> decide
  | _ => decide

/-- Every edge leads from the brackets of its state to those of the next. -/
theorem Emits.brackets {st st' : GestureState} {ty : EventType} {n : Int}
    {gs : List GestureEventType} (h : Emits st ty n gs st') :
    run Open.step (asBrackets st ty gs) st.opened = some st'.opened := by
  cases h with
  | wait h | twoFingerStill h | pinchEnd h | scrollStart h | scrollMove h
  | twoFingerTouchReleased h => obtain rfl | rfl := h <;> rfl
  | click h | pinchMove h => obtain rfl | rfl | rfl := h <;> rfl
  | scrollEnd hty h | pinchLift hty _ h => obtain rfl | rfl := hty <;> obtain rfl | rfl := h <;> rfl
  | _ => rfl

/-- GESTURE_BEGIN and GESTURE_END around the gestures of an edge move no bracket. -/
theorem run_asBrackets_contact {st : GestureState} {ty : EventType} {o : Open}
    (pre gs post : List GestureEventType) (hpre : ∀ g ∈ pre, g = .gestureBegin)
    (hpost : ∀ g ∈ post, g = .gestureEnd) :
    run Open.step (asBrackets st ty (pre ++ gs ++ post)) o =
      run Open.step (asBrackets st ty gs) o := by
  have hneutral : ∀ (g : GestureEventType) (o : Open), g = .gestureBegin ∨ g = .gestureEnd →
      Open.step o g = some o := by
    rintro g o (rfl | rfl) <;> cases o <;> rfl
  have hskip : ∀ (l : List GestureEventType) (o : Open),
      (∀ g ∈ l, g = .gestureBegin ∨ g = .gestureEnd) → run Open.step l o = some o := by
    intro l o hl
    induction l with
    | nil => rfl
    | cons g l ih =>
      rw [run_cons, hneutral g o (hl g (by simp))]
      exact ih fun g' hg' => hl g' (by simp [hg'])
  have hbegin : ∀ l : List GestureEventType, (∀ g ∈ l, g = .gestureBegin ∨ g = .gestureEnd) →
      l.filter (· = .scrollBegin) = [] := by
    intro l hl
    rw [filter_eq_nil_iff]
    intro g hg
    obtain rfl | rfl := hl g hg <;> decide
  have hpre' := hbegin pre fun g hg => .inl (hpre g hg)
  have hpost' := hbegin post fun g hg => .inr (hpost g hg)
  unfold asBrackets
  rw [filter_append, filter_append, filter_append, filter_append, hpre',
    hpost', nil_append, append_nil]
  rw [run_append, run_append _ _ (gs.filter (· ≠ .scrollBegin))]
  congr 1
  funext o'
  rw [run_append, run_append, hskip _ o' fun g hg => .inl (hpre g (mem_of_mem_filter hg)),
    bind_some]
  cases run Open.step (gs.filter (· ≠ .scrollBegin)) o' with
  | none => rfl
  | some o'' => exact hskip _ o'' fun g hg => .inr (hpost g (mem_of_mem_filter hg))

variable {F : Type}

/-- What the reports of a stream add up to. -/
structure Reported (inputs : List Input) (session : Session F) : Prop where
  brackets : run Open.step (session.reports.flatMap brackets) .nothing =
    some session.sequence.state.opened
  contacts : (session.reports.flatMap gestures).filter isContact =
    (inputs.filterMap Input.touchEvent).flatMap contactGestures

theorem Takes.report {s : GestureSequence F} {event : TouchEvent}
    {r : GestureSequence F × Option (List GestureEvent)} (h : GestureSequence.Takes event s r) :
    run Open.step (brackets ⟨s.state, .touch event, r.2.getD []⟩) s.state.opened =
        some r.1.state.opened ∧
      (r.2.getD []).filter isContact = contactGestures event := by
  obtain ⟨n, gs, hemits, hgestures⟩ := h
  rw [hgestures, getD_some]
  constructor
  · rw [brackets, types]
    rw [map_append, map_append, run_asBrackets_contact]
    · exact hemits.brackets
    · unfold begins
      split <;> simp
    · unfold ends
      split <;> simp
  · have hinner : gs.filter isContact = [] := by
      rw [filter_eq_nil_iff]
      intro g hg
      obtain ⟨hbegin, hend⟩ := hemits.types_contact g.type (mem_map_of_mem hg)
      simp [isContact, hbegin, hend]
    rw [filter_append, filter_append, hinner, append_nil, contactGestures]
    unfold begins ends
    congr 1
    · split <;> rfl
    · split <;> rfl

variable [Zero F] [DecidableEq F] {m : Measures F}

theorem run_advance_reported {inputs : List Input} {down : List Nat}
    (h : contacts inputs = some down) :
    Yields (run (advance m) inputs new) fun session =>
      session.sequence.Invariant down ∧ Reported inputs session := by
  induction inputs using reverseRecOn generalizing down with
  | nil =>
    obtain rfl : [] = down := some.inj h
    exact .some ⟨invariant_new, rfl, rfl⟩
  | append_singleton inputs input ih =>
    rw [run_concat]
    rw [contacts, filterMap_append] at h
    cases input with
    | touch event =>
      obtain ⟨before, hpre, hcontact⟩ := run_concat_some h
      apply (ih hpre).bind
      rintro session ⟨hinv, hreported⟩
      apply (process_contact hinv hcontact).bind
      rintro r ⟨hinv', htakes⟩
      obtain ⟨hbrackets, hcontacts⟩ := Takes.report htakes
      refine .some ⟨hinv', ?_, ?_⟩
      · rw [flatMap_append, run_append, hreported.brackets, bind_some,
          flatMap_singleton]
        exact hbrackets
      · rw [flatMap_append, filter_append, hreported.contacts, filterMap_append,
          flatMap_append, flatMap_singleton]
        congr 1
        simpa [Input.touchEvent] using hcontacts
    | timer =>
      simp only [Input.touchEvent, filterMap_cons, filterMap_nil, append_nil] at h
      apply (ih h).bind
      rintro session ⟨hinv, hreported⟩
      unfold advance
      dsimp only
      split
      · rename_i hrun
        apply (appendLongPressGestureEvent_yields hinv hrun).bind
        rintro r ⟨hinv', hstate, htypes⟩
        refine .some ⟨hinv', ?_, ?_⟩
        · rw [flatMap_append, run_append, hreported.brackets, bind_some,
            flatMap_singleton]
          show run Open.step (r.2.map type) _ = some r.1.state.opened
          rw [htypes, hstate]
          cases session.sequence.state <;> rfl
        · rw [flatMap_append, filter_append, hreported.contacts, filterMap_append,
            flatMap_singleton]
          obtain ⟨g, hg, htype⟩ := map_eq_singleton_iff.mp htypes
          simp [hg, isContact, htype, Input.touchEvent]
      · refine .some ⟨hinv, hreported.brackets, ?_⟩
        rw [hreported.contacts, filterMap_append]
        simp [Input.touchEvent]

/-- After every stream of touches in which each finger alternates, whenever the timer fires, no
lookup of a point id has failed and the invariant holds. -/
theorem gestureSequence_sound (m : Measures F) {inputs : List Input} {down : List Nat}
    (h : contacts inputs = some down) :
    ∃ session, run (advance m) inputs new = some session ∧
      session.sequence.Sound ∧
      ∀ i : Slot, (session.sequence.points i).inUse = true ↔ i.val ∈ down := by
  obtain ⟨session, hrun, hinvariant, -⟩ := @run_advance_reported F _ _ m _ _ h
  exact ⟨session, hrun, hinvariant.sound, hinvariant.inUse⟩

theorem two_fingers_sound :
    ∃ session, run (advance wholeMeasures)
        [.touch ⟨.touchPressed, ⟨10, 10⟩, 4, 0⟩, .timer,
          .touch ⟨.touchPressed, ⟨20, 10⟩, 7, 1000⟩,
          .touch ⟨.touchReleased, ⟨10, 10⟩, 4, 2000⟩] new = some session ∧
      session.sequence.Sound ∧
      ∀ i : Slot, (session.sequence.points i).inUse = true ↔ i.val ∈ [7] :=
  gestureSequence_sound wholeMeasures (by decide)

def pressed (touchId : Nat) (x : Int) (timestamp : Int) : Input :=
  .touch ⟨.touchPressed, ⟨x, 10⟩, touchId, timestamp⟩

def released (touchId : Nat) (x : Int) (timestamp : Int) : Input :=
  .touch ⟨.touchReleased, ⟨x, 10⟩, touchId, timestamp⟩

/-- The types of the gestures that a stream makes the sequence report. -/
def reportedTypes (inputs : List Input) : Option (List GestureEventType) :=
  (run (advance wholeMeasures) inputs new).map fun session =>
    session.reports.flatMap types

end ChromiumUI.Gestures
