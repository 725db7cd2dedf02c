import ChromiumUI.Runs
import Mathlib.Data.List.Nodup

/-!
# TraceLog::AddTraceEvent and Flush

The log at the granularity of its lock. Of an event, its phase and its time are kept, with the
number of the call that it comes from.
-/
namespace ChromiumUI.Tracing

open Runs List Nat

inductive Phase where
  | begin
  | end
  | instant
  deriving DecidableEq, Repr

structure TraceEvent where
  call : Nat
  phase : Phase
  timestamp : Int
  deriving DecidableEq, Repr

abbrev LoggedEvents := List TraceEvent

def kTraceEventBufferSize : Nat := 500000

def kNoThresholdBeginId : Int := -1

/-- The id that is returned, and the log. -/
def addTraceEvent (loggedEvents : LoggedEvents) (event : TraceEvent) (categoryEnabled : Bool)
    (thresholdBeginId threshold : Int) : Int × LoggedEvents :=
  if !categoryEnabled then (-1, loggedEvents)
  else if loggedEvents.length ≥ kTraceEventBufferSize then (-1, loggedEvents)
  else if thresholdBeginId > -1 then
    match loggedEvents[thresholdBeginId.toNat]? with
    | none => (-1, loggedEvents)
    | some beginEvent =>
      if event.timestamp - beginEvent.timestamp < threshold then
        (-1, loggedEvents.eraseIdx thresholdBeginId.toNat)
      else (loggedEvents.length, loggedEvents ++ [event])
  else (loggedEvents.length, loggedEvents ++ [event])

/-- The log and, for each call of AddTraceEvent, its phase and what it returned. -/
structure TraceLog where
  loggedEvents : LoggedEvents
  calls : List (Phase × Int)
  deriving DecidableEq, Repr

/-- `endPair` is an END with a threshold, for the BEGIN of an earlier call. -/
inductive Action where
  | add (phase : Phase) (categoryEnabled : Bool) (now : Int)
  | endPair (beginCall : Nat) (categoryEnabled : Bool) (now threshold : Int)
  | flush
  deriving DecidableEq, Repr

namespace TraceLog

def new : TraceLog := ⟨[], []⟩

/-- A call of AddTraceEvent. -/
def record (s : TraceLog) (phase : Phase) (categoryEnabled : Bool)
    (now thresholdBeginId threshold : Int) : TraceLog :=
  let r := addTraceEvent s.loggedEvents ⟨s.calls.length, phase, now⟩ categoryEnabled
    thresholdBeginId threshold
  ⟨r.2, s.calls ++ [(phase, r.1)]⟩

def step (s : TraceLog) : Action → Option TraceLog
  | .add phase categoryEnabled now =>
    some (s.record phase categoryEnabled now kNoThresholdBeginId 0)
  | .endPair beginCall categoryEnabled now threshold =>
    match s.calls[beginCall]? with
    | some (.begin, id) => some (s.record .end categoryEnabled now id threshold)
    | _ => none
  | .flush => some { s with loggedEvents := [] }

/-! ## Pairs -/

/-- The event of a call, as long as it is in the log. -/
def eventOf (s : TraceLog) (call : Nat) : Option TraceEvent :=
  s.loggedEvents.find? fun event => event.call == call

/-- What an action leaves of the log: an END with a threshold removes its own BEGIN or stays
behind it, and does nothing where its BEGIN is gone; other calls remove nothing. -/
def Pairs (s s' : TraceLog) : Action → Prop
  | .add phase _ now =>
    s'.loggedEvents = s.loggedEvents ∨
      s'.loggedEvents = s.loggedEvents ++ [⟨s.calls.length, phase, now⟩]
  | .endPair beginCall _ now threshold =>
    match s.eventOf beginCall with
    | some beginEvent =>
      if now - beginEvent.timestamp < threshold then
        s'.loggedEvents = s.loggedEvents.filter fun event => event.call != beginCall
      else s'.loggedEvents = s.loggedEvents ++ [⟨s.calls.length, .end, now⟩]
    | none => s'.loggedEvents = s.loggedEvents
  | .flush => s'.loggedEvents = []

/-- The id that the BEGIN of a call was given. -/
def beginId (s : TraceLog) (call : Nat) : Int :=
  match s.calls[call]? with
  | some (_, id) => id
  | none => -1

/-- An END with a threshold whose BEGIN is in the log comes while the category is enabled and
the log has room, and its id stands for the BEGIN or for an event that is, as the BEGIN is, long
ago. An END whose BEGIN is gone comes while the category is disabled or the log is full, or its
id is past the end. -/
def Indexed (s : TraceLog) : Action → Prop
  | .add .. => True
  | .endPair beginCall categoryEnabled now threshold =>
    match s.eventOf beginCall with
    | some beginEvent =>
      categoryEnabled = true ∧ s.loggedEvents.length < kTraceEventBufferSize ∧
        ∃ event, s.loggedEvents[(s.beginId beginCall).toNat]? = some event ∧
          (event = beginEvent ∨ threshold ≤ now - event.timestamp ∧
            threshold ≤ now - beginEvent.timestamp)
    | none =>
      categoryEnabled = false ∨ kTraceEventBufferSize ≤ s.loggedEvents.length ∨
        -1 < s.beginId beginCall ∧ (s.loggedEvents.length : Int) ≤ s.beginId beginCall
  | .flush => True

/-! ## The log -/

/-- Every event is that of a call of its own, which was given an id. -/
structure Inv (s : TraceLog) : Prop where
  distinct : (s.loggedEvents.map TraceEvent.call).Nodup
  given : ∀ event ∈ s.loggedEvents, event.call < s.calls.length ∧ -1 < s.beginId event.call

variable {s s' : TraceLog}

theorem addTraceEvent_cases (loggedEvents : LoggedEvents) (event : TraceEvent) (enabled : Bool)
    (id threshold : Int) :
    (addTraceEvent loggedEvents event enabled id threshold).2.Sublist loggedEvents ∨
      addTraceEvent loggedEvents event enabled id threshold =
        ((loggedEvents.length : Int), loggedEvents ++ [event]) := by
  rw [addTraceEvent]
  split
  · exact .inl (Sublist.refl _)
  · split
    · exact .inl (Sublist.refl _)
    · split
      · split
        · exact .inl (Sublist.refl _)
        · split
          · exact .inl (eraseIdx_sublist _ _)
          · exact .inr rfl
      · exact .inr rfl

theorem beginId_append {calls : List (Phase × Int)} {loggedEvents loggedEvents' : LoggedEvents}
    {call : Nat} {c : Phase × Int} (h : call < calls.length) :
    (TraceLog.mk loggedEvents' (calls ++ [c])).beginId call =
      (TraceLog.mk loggedEvents calls).beginId call := by
  rw [beginId, beginId]
  rw [getElem?_append_left h]

theorem beginId_last {calls : List (Phase × Int)} {loggedEvents : LoggedEvents} (phase : Phase)
    (id : Int) : (TraceLog.mk loggedEvents (calls ++ [(phase, id)])).beginId calls.length = id := by
  rw [beginId]
  rw [getElem?_concat_length]

theorem Inv.record (h : Inv s) (phase : Phase) (enabled : Bool) (now id threshold : Int) :
    Inv (s.record phase enabled now id threshold) := by
  rw [TraceLog.record]
  obtain hsublist | happ :=
    addTraceEvent_cases s.loggedEvents ⟨s.calls.length, phase, now⟩ enabled id threshold
  · refine ⟨h.distinct.sublist (hsublist.map _), ?_⟩
    intro event hevent
    obtain ⟨hlt, hid⟩ := h.given event (hsublist.subset hevent)
    refine ⟨?_, ?_⟩
    · rw [length_append]
      omega
    · rw [beginId_append hlt]
      exact hid
  · rw [happ]
    refine ⟨?_, ?_⟩
    · rw [map_append, nodup_append]
      refine ⟨h.distinct, nodup_singleton _, ?_⟩
      rintro a ha b hb rfl
      obtain ⟨event, hevent, hcall⟩ := mem_map.mp ha
      have hlt := (h.given event hevent).1
      rw [hcall, mem_singleton.mp hb] at hlt
      exact lt_irrefl _ hlt
    · intro event hevent
      rw [length_append]
      obtain hevent | hevent := mem_append.mp hevent
      · obtain ⟨hlt, hid⟩ := h.given event hevent
        refine ⟨Nat.lt_add_right _ hlt, ?_⟩
        rw [beginId_append hlt]
        exact hid
      · rw [mem_singleton.mp hevent]
        refine ⟨lt_succ_self _, ?_⟩
        rw [beginId_last]
        omega

theorem Inv.step (h : Inv s) {a : Action} (hstep : s.step a = some s') : Inv s' := by
  cases a with
  | add phase enabled now =>
    cases hstep
    exact h.record ..
  | endPair beginCall enabled now threshold =>
    rw [TraceLog.step] at hstep
    split at hstep
    · cases hstep
      exact h.record ..
    · cases hstep
  | flush =>
    cases hstep
    exact ⟨nodup_nil, nofun⟩

/-- An event is removed by its place. -/
theorem eraseIdx_eq_filter {loggedEvents : LoggedEvents}
    (hdist : (loggedEvents.map TraceEvent.call).Nodup) {i : Nat} {event : TraceEvent}
    (h : loggedEvents[i]? = some event) :
    loggedEvents.eraseIdx i = loggedEvents.filter fun other => other.call != event.call := by
  induction loggedEvents generalizing i with
  | nil => simp at h
  | cons first rest ih =>
    rw [map_cons, nodup_cons] at hdist
    cases i with
    | zero =>
      cases h
      rw [eraseIdx_zero, tail_cons, filter_cons_of_neg (by simp)]
      refine (filter_eq_self.mpr ?_).symm
      intro other hother
      rw [bne_iff_ne]
      intro hsame
      exact hdist.1 (mem_map.mpr ⟨other, hother, hsame⟩)
    | succ i =>
      rw [getElem?_cons_succ] at h
      have hne : first.call ≠ event.call := fun hsame =>
        hdist.1 (mem_map.mpr ⟨event, mem_of_getElem? h, hsame.symm⟩)
      rw [eraseIdx_cons_succ, filter_cons_of_pos (by simpa using hne),
        ih hdist.2 h]

theorem ne_append_singleton (l : LoggedEvents) (event : TraceEvent) : l ≠ l ++ [event] := by
  intro h
  have := congrArg length h
  rw [length_append, length_singleton] at this
  omega

theorem filter_ne_append (l : LoggedEvents) (p : TraceEvent → Bool) (event : TraceEvent) :
    l ++ [event] ≠ l.filter p := by
  intro h
  have := congrArg length h
  have hle := length_filter_le p l
  rw [length_append, length_singleton] at this
  omega

theorem eraseIdx_ne {l : LoggedEvents} {i : Nat} {event : TraceEvent} (h : l[i]? = some event)
    (other : LoggedEvents) (hle : l.length ≤ other.length) : l.eraseIdx i ≠ other := by
  intro heq
  have hlt : i < l.length := (List.getElem?_eq_some_iff.mp h).1
  have := congrArg length heq
  rw [length_eraseIdx_of_lt hlt] at this
  omega

section
variable {events : LoggedEvents} {event : TraceEvent} {enabled : Bool} {id threshold : Int}

theorem log_of_dropped (h : enabled = false ∨ kTraceEventBufferSize ≤ events.length) :
    (addTraceEvent events event enabled id threshold).2 = events := by
  rw [addTraceEvent]
  cases enabled with
  | false => rfl
  | true =>
    obtain h | h := h
    · cases h
    · rw [if_neg (by simp), if_pos h]

theorem log_of_id (henabled : enabled = true) (hroom : events.length < kTraceEventBufferSize)
    (hid : -1 < id) :
    (addTraceEvent events event enabled id threshold).2 =
      match events[id.toNat]? with
      | none => events
      | some found =>
        if event.timestamp - found.timestamp < threshold then events.eraseIdx id.toNat
        else events ++ [event] := by
  rw [addTraceEvent, henabled, if_neg (by simp), if_neg (not_le.mpr hroom), if_pos hid]
  cases events[id.toNat]? with
  | none => rfl
  | some found =>
    dsimp only
    split <;> rfl

theorem log_of_no_id (henabled : enabled = true) (hroom : events.length < kTraceEventBufferSize)
    (hid : ¬-1 < id) : (addTraceEvent events event enabled id threshold).2 = events ++ [event] := by
  rw [addTraceEvent, henabled, if_neg (by simp), if_neg (not_le.mpr hroom), if_neg hid]

/-- A log that an END with its BEGIN at hand may leave. -/
def Paired (events : LoggedEvents) (event beginEvent : TraceEvent) (threshold : Int)
    (events' : LoggedEvents) : Prop :=
  if event.timestamp - beginEvent.timestamp < threshold then
    events' = events.filter fun other => other.call != beginEvent.call
  else events' = events ++ [event]

variable {beginEvent : TraceEvent}

theorem not_paired_self (hmem : beginEvent ∈ events) :
    ¬Paired events event beginEvent threshold events := by
  rw [Paired]
  split
  · intro heq
    have hkept := filter_eq_self.mp heq.symm beginEvent hmem
    simp at hkept
  · exact ne_append_singleton _ _

theorem paired_erased (hdist : (events.map TraceEvent.call).Nodup)
    (hmem : beginEvent ∈ events) {i : Nat} {found : TraceEvent} (hfound : events[i]? = some found)
    (hshort : event.timestamp - found.timestamp < threshold) :
    Paired events event beginEvent threshold (events.eraseIdx i) ↔ found = beginEvent := by
  rw [Paired]
  constructor
  · intro h
    split at h
    · have hgone : beginEvent ∉ events.eraseIdx i := by
        rw [h, mem_filter]
        exact fun hkept => by simp at hkept
      rw [eraseIdx_eq_filter hdist hfound, mem_filter] at hgone
      have hcall : beginEvent.call = found.call := by
        by_contra hne
        exact hgone ⟨hmem, by simpa using hne⟩
      exact (inj_on_of_nodup_map hdist hmem (mem_of_getElem? hfound) hcall).symm
    · refine absurd h (eraseIdx_ne hfound _ ?_)
      rw [length_append]
      exact le_add_right _ _
  · rintro rfl
    rw [if_pos hshort]
    exact eraseIdx_eq_filter hdist hfound

theorem paired_appended :
    Paired events event beginEvent threshold (events ++ [event]) ↔
      threshold ≤ event.timestamp - beginEvent.timestamp := by
  rw [Paired]
  split
  · rename_i hshort
    exact iff_of_false (filter_ne_append _ _ _) (Int.not_le.mpr hshort)
  · rename_i hlong
    exact iff_of_true rfl (Int.not_lt.mp hlong)

/-- An END that finds its BEGIN in the log keeps the pair together exactly when it comes while
events are logged and its id leads to an event that decides as the BEGIN does. -/
theorem endPair_found (hdist : (events.map TraceEvent.call).Nodup)
    (hmem : beginEvent ∈ events) (hid : -1 < id) :
    Paired events event beginEvent threshold
        (addTraceEvent events event enabled id threshold).2 ↔
      enabled = true ∧ events.length < kTraceEventBufferSize ∧
        ∃ found, events[id.toNat]? = some found ∧
          (found = beginEvent ∨ threshold ≤ event.timestamp - found.timestamp ∧
            threshold ≤ event.timestamp - beginEvent.timestamp) := by
  by_cases hlogged : enabled = true ∧ events.length < kTraceEventBufferSize
  · obtain ⟨henabled, hroom⟩ := hlogged
    rw [log_of_id henabled hroom hid]
    cases hfound : events[id.toNat]? with
    | none => exact iff_of_false (not_paired_self hmem) fun ⟨_, _, _, hnone, _⟩ => nomatch hnone
    | some found =>
      have hright : (enabled = true ∧ events.length < kTraceEventBufferSize ∧
          ∃ other, some found = some other ∧
            (other = beginEvent ∨ threshold ≤ event.timestamp - other.timestamp ∧
              threshold ≤ event.timestamp - beginEvent.timestamp)) ↔
          (found = beginEvent ∨ threshold ≤ event.timestamp - found.timestamp ∧
            threshold ≤ event.timestamp - beginEvent.timestamp) := by
        constructor
        · rintro ⟨-, -, other, hother, h⟩
          cases hother
          exact h
        · exact fun h => ⟨henabled, hroom, found, rfl, h⟩
      rw [hright]
      dsimp only
      by_cases hshort : event.timestamp - found.timestamp < threshold
      · rw [if_pos hshort, paired_erased hdist hmem hfound hshort]
        exact (or_iff_left fun h => absurd hshort (Int.not_lt.mpr h.1)).symm
      · rw [if_neg hshort, paired_appended]
        constructor
        · exact fun hlong => .inr ⟨Int.not_lt.mp hshort, hlong⟩
        · rintro (rfl | ⟨-, hlong⟩)
          · exact Int.not_lt.mp hshort
          · exact hlong
  · have hdropped : enabled = false ∨ kTraceEventBufferSize ≤ events.length := by
      rw [not_and_or, Bool.not_eq_true, not_lt] at hlogged
      exact hlogged
    rw [log_of_dropped hdropped]
    exact iff_of_false (not_paired_self hmem) fun h => hlogged ⟨h.1, h.2.1⟩

/-- An END whose BEGIN is gone does nothing exactly when nothing is logged or its id leads past
the end. -/
theorem endPair_gone :
    (addTraceEvent events event enabled id threshold).2 = events ↔
      enabled = false ∨ kTraceEventBufferSize ≤ events.length ∨
        -1 < id ∧ (events.length : Int) ≤ id := by
  by_cases hlogged : enabled = true ∧ events.length < kTraceEventBufferSize
  · obtain ⟨henabled, hroom⟩ := hlogged
    have hfalse : ¬(enabled = false ∨ kTraceEventBufferSize ≤ events.length) := by
      rintro (h | h)
      · exact Bool.false_ne_true (h.symm.trans henabled)
      · exact not_lt.mpr h hroom
    rw [← or_assoc, or_iff_right hfalse]
    by_cases hid : -1 < id
    · rw [log_of_id henabled hroom hid]
      cases hfound : events[id.toNat]? with
      | none =>
        have hle := getElem?_eq_none_iff.mp hfound
        exact iff_of_true rfl ⟨hid, by omega⟩
      | some found =>
        have hlt : id.toNat < events.length := (List.getElem?_eq_some_iff.mp hfound).1
        refine iff_of_false ?_ fun h => by omega
        dsimp only
        split
        · exact eraseIdx_ne hfound _ (le_refl _)
        · exact (ne_append_singleton _ _).symm
    · rw [log_of_no_id henabled hroom hid]
      exact iff_of_false (ne_append_singleton _ _).symm fun h => hid h.1
  · have hdropped : enabled = false ∨ kTraceEventBufferSize ≤ events.length := by
      rw [not_and_or, Bool.not_eq_true, not_lt] at hlogged
      exact hlogged
    exact iff_of_true (log_of_dropped hdropped) (or_assoc.mp (Or.inl hdropped))

end

/-- The step lemma. -/
theorem pairs_iff_indexed (h : Inv s) (a : Action) :
    (∀ s', s.step a = some s' → Pairs s s' a) ↔ (s.step a = none ∨ Indexed s a) := by
  cases a with
  | add phase enabled now =>
    refine iff_of_true ?_ (Or.inr trivial)
    rintro s' hstep
    cases hstep
    rw [Pairs, record]
    rw [addTraceEvent]
    split
    · exact .inl rfl
    · split
      · exact .inl rfl
      · rw [if_neg (by decide)]
        exact .inr rfl
  | endPair beginCall enabled now threshold =>
    rw [step]
    cases hcall : s.calls[beginCall]? with
    | none => exact iff_of_true nofun (Or.inl rfl)
    | some c =>
      obtain ⟨phase, id⟩ := c
      have hid : s.beginId beginCall = id := by rw [beginId, hcall]
      cases phase with
      | «begin» =>
        have hleft : (∀ s', some (s.record .end enabled now id threshold) = some s' →
            Pairs s s' (.endPair beginCall enabled now threshold)) ↔
            Pairs s (s.record .end enabled now id threshold)
              (.endPair beginCall enabled now threshold) := by
          constructor
          · exact fun hall => hall _ rfl
          · rintro hpairs s' hs'
            cases hs'
            exact hpairs
        rw [hleft, or_iff_right (by simp), Pairs, Indexed, hid]
        cases hevent : s.eventOf beginCall with
        | none => exact endPair_gone
        | some beginEvent =>
          have hmem : beginEvent ∈ s.loggedEvents := mem_of_find?_eq_some hevent
          have hown : beginEvent.call = beginCall := by
            simpa using find?_some hevent
          have hgiven := (h.given beginEvent hmem).2
          rw [hown, hid] at hgiven
          have hfound := @endPair_found s.loggedEvents ⟨s.calls.length, .end, now⟩ enabled id
            threshold beginEvent h.distinct hmem hgiven
          rw [Paired, hown] at hfound
          exact hfound
      | «end» | instant => exact iff_of_true nofun (Or.inl rfl)
  | flush =>
    refine iff_of_true ?_ (Or.inr trivial)
    rintro s' hstep
    cases hstep
    rfl

theorem inv_new : Inv new := ⟨nodup_nil, nofun⟩

/-- In every history, every END with a threshold keeps to its own BEGIN exactly when every such
END comes while events are logged and its id leads where it should. -/
theorem threshold_pairs_iff (actions : List Action) :
    EachStep step (fun s a => ∀ s', s.step a = some s' → Pairs s s' a) actions new ↔
      EachStep step (fun s a => s.step a = none ∨ Indexed s a) actions new :=
  eachStep_iff (fun _ a h => pairs_iff_indexed h a) (fun _ _ _ h _ hstep => h.step hstep) inv_new

/-- Once the pair before it is gone, a BEGIN is not found any more: its END is dropped. -/
theorem threshold_pairs_shifted :
    ¬EachStep step (fun s a => ∀ s', s.step a = some s' → Pairs s s' a)
      [.add .begin true 0, .add .begin true 0, .endPair 0 true 1 10, .endPair 1 true 20 10]
      new := by
  intro h
  have hdropped : ([⟨1, .begin, 0⟩] : LoggedEvents) = [⟨1, .begin, 0⟩, ⟨3, .end, 20⟩] :=
    (((h.2 _ rfl).2 _ rfl).2 _ rfl).1 _ rfl
  exact absurd hdropped (by decide)

end TraceLog

end ChromiumUI.Tracing
