import ChromiumUI.ObserverListThreadSafe
import ChromiumUI.ObserverList

/-!
# Every event keeps the contexts in order
-/
namespace ChromiumUI.ObserverListThreadSafe

open Runs ObserverList List Nat

variable {type : NotificationType} {t t' : Thread} {c obs n : Nat}
  {list : ObserverListBase Nat}

theorem iterating_cons (f : Frame) (frames : List Frame) (c : Nat) :
    iterating (f :: frames) c = iterating frames c + if f.context = c then 1 else 0 := by
  simp [iterating, countP_cons]

theorem inBounds_new (list : ObserverListBase Nat) :
    InBounds list.newIterator.1 list.newIterator.2 := by
  unfold ObserverListBase.newIterator
  refine ⟨zero_le _, fun m hm => ?_⟩
  split_ifs at hm
  · cases hm
  · cases hm
    exact le_refl _

theorem setList_same (h : t.contexts c = some list) : t.setList c list = t := by
  have hsame : Function.update t.contexts c (some list) = t.contexts := by
    rw [← h]
    exact Function.update_eq_self ..
  rw [Thread.setList, hsame]

section

variable (h : Good type t)
include h

/-- The frame at the top moves on. -/
theorem Good.moveFrame {f : Frame} {frames : List Frame} {it : Iterator}
    (hframe : t.frames = f :: frames) (hlist : t.contexts f.context = some list)
    (hit : InBounds it list) :
    Good type { t with frames := { f with iterator := it } :: frames } := by
  have hlive := h.live _ list hlist
  have hcount : ∀ c, iterating ({ f with iterator := it } :: frames) c = iterating t.frames c := by
    intro c
    rw [hframe, iterating_cons, iterating_cons]
  have hmoved := @Good.setFrames type t f.context list h list ({ f with iterator := it } :: frames)
    hlist hlive.good (hlive.depth.trans (hcount _).symm) (fun c _ => hcount c) ?_ hlive.held
  · rwa [setList_same hlist] at hmoved
  · intro g hg
    rcases mem_cons.mp hg with rfl | hg
    · rw [if_pos rfl]
      exact hit
    · have hmem : g ∈ t.frames := by simp [hframe, hg]
      split_ifs with heq
      · obtain ⟨l, hl, hbounds⟩ := h.frames g hmem
        rw [heq] at hl
        cases hl.symm.trans hlist
        exact hbounds
      · exact hmem

theorem endIterator_held {f : Frame} (hlist : t.contexts f.context = some list)
    (hsize : list.endIterator.size ≠ 0) : t.current = some f.context ∨
      0 < list.endIterator.notifyDepth ∧ list.endIterator.observers.reduceOption = [] := by
  have hlive := h.live _ list hlist
  refine hlive.held.imp_right fun hempty => ⟨?_, endIterator_observers.trans hempty.2⟩
  by_contra hzero
  have hdepth : list.endIterator.notifyDepth = 0 := Nat.eq_zero_of_not_pos hzero
  obtain ⟨slot, hslot⟩ := exists_mem_of_length_pos (Nat.pos_of_ne_zero hsize)
  cases slot with
  | none => exact (endIterator_good hlive.good hsize).full hdepth hslot
  | some o =>
    have hmem := reduceOption_mem_iff.mpr hslot
    rw [endIterator_observers, hempty.2] at hmem
    cases hmem

/-- The frame at the top is done: the slots without an observer may go. -/
theorem Good.endFrame {f : Frame} {frames : List Frame}
    (hframe : t.frames = f :: frames) (hlist : t.contexts f.context = some list)
    (hsize : list.endIterator.size ≠ 0) :
    Good type { t.setList f.context list.endIterator with frames := frames } := by
  have hlive := h.live _ list hlist
  have hcount := iterating_cons f frames
  have hdepth : list.notifyDepth = iterating frames f.context + 1 := by
    rw [hlive.depth, hframe, hcount, if_pos rfl]
  refine h.setFrames hlist (endIterator_good hlive.good hsize) ?_ (fun c hc => ?_)
    (fun g hg => ?_) (endIterator_held h hlist hsize)
  · rw [endIterator_depth, hdepth, Nat.add_sub_cancel]
  · rw [hframe, hcount, if_neg (Ne.symm hc), Nat.add_zero]
  · have hmem : g ∈ t.frames := by simp [hframe, hg]
    split_ifs with heq
    · obtain ⟨l, hl, hbounds⟩ := h.frames g hmem
      rw [heq] at hl
      cases hl.symm.trans hlist
      have hpos : 0 < iterating frames f.context :=
        countP_pos_iff.mpr ⟨g, hg, beq_iff_eq.mpr heq⟩
      refine inBounds_mono (le_of_eq ?_) hbounds
      unfold ObserverListBase.size
      rw [endIterator_keeps (by omega)]
    · exact hmem

/-- The frame at the top is done, and with it its context. -/
theorem Good.endContext {f : Frame} {frames : List Frame}
    (hframe : t.frames = f :: frames) (hlist : t.contexts f.context = some list)
    (hsize : list.endIterator.size = 0) :
    Good type { t.deleteContext f.context with
      frames := frames
      current := if t.current = some f.context then none else t.current } := by
  have hlive := h.live _ list hlist
  have hcount := iterating_cons f frames
  have hdepth : list.notifyDepth = iterating frames f.context + 1 := by
    rw [hlive.depth, hframe, hcount, if_pos rfl]
  refine h.deleteContext hlist (fun g hg => by simp [hframe, hg]) ?_ (fun c hc => ?_)
    fun c => ?_
  · by_contra hmore
    have hkept : list.endIterator.size = list.size := by
      unfold ObserverListBase.size
      rw [endIterator_keeps (by omega)]
    have := hlive.good.nonempty
    omega
  · rw [hframe, hcount, if_neg (Ne.symm hc), Nat.add_zero]
  · split_ifs with hcurr
    · rw [hcurr]
      constructor
      · nofun
      · rintro ⟨heq, hne⟩
        exact absurd (Option.some.inj heq).symm hne
    · refine ⟨fun hc => ⟨hc, ?_⟩, fun hc => hc.1⟩
      rintro rfl
      exact hcurr hc

end

/-! ## Every event -/

theorem handle_good (h : Good type t) {event : Event} (hstep : handle type t event = some t') :
    Good type t' := by
  cases event with
  | addObserver obs =>
    rcases addObserver_cases h hstep with ⟨c, list, hcurr, hlist, rfl⟩ | ⟨hcurr, rfl⟩
    · have hlive := h.live c list hlist
      refine h.setList hlist (addObserver_good hlive.good obs) ?_ (fun _ => ?_) (Or.inl hcurr)
      · unfold ObserverListBase.addObserver
        split_ifs <;> rfl
      · unfold ObserverListBase.addObserver ObserverListBase.size
        split_ifs <;> simp
    · refine h.newContext hcurr ⟨rfl, Nat.zero_lt_one, ?_, ?_⟩ rfl
      · simp
      · simp
  | removeObserver obs =>
    rcases removeObserver_cases h hstep with ⟨-, rfl⟩ | ⟨c, list, hcurr, hlist, hcases⟩
    · exact h
    · have hlive := h.live c list hlist
      rcases hcases with ⟨hone, hdepth, rfl⟩ | ⟨hone, hdepth, rfl⟩ | ⟨-, hsize, rfl⟩
      · refine @Good.deleteContext type t c list h t.frames none hlist (fun f hf => hf)
          (hlive.depth.symm.trans hdepth) (fun _ _ => rfl) fun c' => ⟨nofun, ?_⟩
        rintro ⟨heq, hne⟩
        exact absurd (Option.some.inj (hcurr.symm.trans heq)).symm hne
      · have hremoved : (list.removeObserver obs).observers = [none] := by
          unfold ObserverListBase.removeObserver
          rw [if_pos (ne_of_gt hdepth), hone]
          simp
        have hsize : (list.removeObserver obs).size ≠ 0 := by
          rw [ObserverListBase.size, hremoved]
          exact Nat.one_ne_zero
        have hempty : 0 < (list.removeObserver obs).notifyDepth ∧
            (list.removeObserver obs).observers.reduceOption = [] :=
          ⟨removeObserver_depth.symm ▸ hdepth, by simp [hremoved]⟩
        have hset := h.setList hlist (removeObserver_good hlive.good hsize) removeObserver_depth
          (fun _ => by simp [ObserverListBase.size, hremoved, hone]) (Or.inr hempty)
        exact hset.leaveMap (setList_self t c _) hcurr hempty
      · refine h.setList hlist (removeObserver_good hlive.good hsize) removeObserver_depth
          (fun hdepth => ?_) (Or.inl hcurr)
        rw [removeObserver_size, if_neg (fun hboth => hdepth hboth.1)]
  | notify =>
    cases hstep
    refine ⟨h.current, h.frames, fun c l hl => ?_, h.dead, h.deleted, fun task htask => ?_⟩
    · have hlive := h.live c l hl
      exact ⟨hlive.created, hlive.good, hlive.depth, hlive.held⟩
    · unfold Thread.notify at htask
      cases hcurr : t.current with
      | none =>
        rw [hcurr] at htask
        exact h.tasks task htask
      | some c =>
        rw [hcurr] at htask
        rcases mem_append.mp htask with htask | htask
        · exact h.tasks task htask
        · obtain ⟨l, hl⟩ := h.current c hcurr
          rw [mem_singleton.mp htask]
          exact (h.live c l hl).created
  | runTask =>
    obtain ⟨task, queue, hqueue, ⟨-, rfl⟩ | ⟨hcurr, list, hlist, rfl⟩⟩ := runTask_cases h hstep
    · refine ⟨h.current, h.frames, fun c l hl => ?_, h.dead, h.deleted, fun task' htask => ?_⟩
      · have hlive := h.live c l hl
        exact ⟨hlive.created, hlive.good, hlive.depth, hlive.held⟩
      · exact h.tasks task' (by rw [hqueue]; exact mem_cons_of_mem _ htask)
    · have hlive := h.live _ list hlist
      have hcount := iterating_cons ⟨task.context, task.notification, list.newIterator.1⟩ t.frames
      have hgood := @Good.setFrames type t task.context list h list.newIterator.2
        (⟨task.context, task.notification, list.newIterator.1⟩ :: t.frames) hlist
        (newIterator_good hlive.good) ?_ (fun c hc => ?_) ?_ (Or.inl hcurr)
      · refine ⟨hgood.current, hgood.frames, fun c l hl => ?_, hgood.dead, hgood.deleted,
          fun task' htask => ?_⟩
        · have hlive' := hgood.live c l hl
          exact ⟨hlive'.created, hlive'.good, hlive'.depth, hlive'.held⟩
        · exact h.tasks task' (by rw [hqueue]; exact mem_cons_of_mem _ htask)
      · rw [hcount, if_pos rfl, ← hlive.depth]
        rfl
      · rw [hcount, if_neg (Ne.symm hc), Nat.add_zero]
      · intro g hg
        rcases mem_cons.mp hg with rfl | hg
        · rw [if_pos rfl]
          exact inBounds_new list
        · split_ifs with heq
          · obtain ⟨l, hl, hbounds⟩ := h.frames g hg
            rw [heq] at hl
            cases hl.symm.trans hlist
            exact inBounds_mono (le_refl _) hbounds
          · exact hg
  | next =>
    obtain ⟨f, frames, list, hframe, hlist, hcases⟩ := next_cases h hstep
    rcases hcases with ⟨k, o, -, hk, -, -, rfl⟩ | ⟨-, ⟨hsize, rfl⟩ | ⟨hsize, rfl⟩⟩
    · obtain ⟨l, hl, -, hmax⟩ := h.frames f (by simp [hframe])
      cases hl.symm.trans hlist
      have hmoved := @Good.moveFrame type t _ h f frames { f.iterator with index := k + 1 }
        hframe hlist ⟨hk, hmax⟩
      refine ⟨hmoved.current, hmoved.frames, fun c l hl => ?_, hmoved.dead, hmoved.deleted,
        hmoved.tasks⟩
      have hlive := hmoved.live c l hl
      exact ⟨hlive.created, hlive.good, hlive.depth, hlive.held⟩
    · exact h.endContext hframe hlist hsize
    · exact h.endFrame hframe hlist hsize

theorem create_good : Good type .create :=
  ⟨nofun, nofun, nofun, nofun, ⟨nodup_nil, nofun⟩, nofun⟩

/-! ## Registered observers and their notifications

The observers in the context of the map are those that were added and not removed, and only they
are called. The notifications of a thread wait in the order of the Notify calls, and those it is in
are nested, the latest at the top. So what becomes of a notification for an observer that stays is
that it waits, is in progress before the slot of the observer or behind it, or is done. -/

/-! ## Who is registered -/

/-- The observer is in the context of the map. -/
def Registered (t : Thread) (obs : Nat) : Prop :=
  ∃ c list, t.current = some c ∧ t.contexts c = some list ∧ some obs ∈ list.observers

/-- Whether an observer is registered after an event, given whether it was before. -/
def registers (obs : Nat) (was : Bool) : Event → Bool
  | .addObserver o => if o = obs then true else was
  | .removeObserver o => if o = obs then false else was
  | _ => was

/-- Whether an observer has been added and not removed since. -/
def registeredAfter (obs : Nat) (events : List Event) : Bool := events.foldl (registers obs) false

theorem registered_iff (hcurr : t.current = some c) (hlist : t.contexts c = some list) :
    Registered t obs ↔ some obs ∈ list.observers := by
  constructor
  · rintro ⟨c', l, hc', hl, hmem⟩
    cases hcurr.symm.trans hc'
    cases hlist.symm.trans hl
    exact hmem
  · exact fun hmem => ⟨c, list, hcurr, hlist, hmem⟩

theorem not_registered (hcurr : t.current = none) : ¬ Registered t obs := by
  rintro ⟨c, l, hc, -⟩
  cases hcurr.symm.trans hc

theorem mem_addObserver {o : Nat} :
    some obs ∈ (list.addObserver o).observers ↔ o = obs ∨ some obs ∈ list.observers := by
  unfold ObserverListBase.addObserver
  split_ifs with hmem
  · constructor
    · exact Or.inr
    · rintro (rfl | h)
      · exact hmem
      · exact h
  · simp [or_comm, eq_comm]

/-- A change of one context, seen from the map. -/
theorem registered_setList (h : Good type t) {list' : ObserverListBase Nat} {frames : List Frame}
    (hlist : t.contexts c = some list)
    (hmem : some obs ∈ list'.observers ↔ some obs ∈ list.observers) :
    Registered { t.setList c list' with frames := frames } obs ↔ Registered t obs := by
  cases hcurr : t.current with
  | none => exact iff_of_false (not_registered hcurr) (not_registered hcurr)
  | some c' =>
    by_cases heq : c' = c
    · subst heq
      rw [registered_iff hcurr hlist, @registered_iff
        { t.setList c' list' with frames := frames } c' obs list' hcurr
        (setList_self t c' list')]
      exact hmem
    · obtain ⟨l, hl⟩ := h.current c' hcurr
      rw [registered_iff hcurr hl, @registered_iff
        { t.setList c list' with frames := frames } c' obs l hcurr
        ((setList_other heq).trans hl)]

theorem handle_registered (h : Good type t) {event : Event} {was : Bool}
    (hwas : Registered t obs ↔ was = true) (hstep : handle type t event = some t') :
    Registered t' obs ↔ registers obs was event = true := by
  cases event with
  | addObserver o =>
    have hadded : Registered t' obs ↔ o = obs ∨ Registered t obs := by
      rcases addObserver_cases h hstep with ⟨c, list, hcurr, hlist, rfl⟩ | ⟨hcurr, rfl⟩
      · rw [registered_iff hcurr hlist,
          @registered_iff (t.setList c (list.addObserver o)) c obs _ hcurr (setList_self t c _)]
        exact mem_addObserver
      · rw [@registered_iff ((t.newContext type).setList t.created ⟨[some o], 0, type⟩) t.created
          obs _ rfl (setList_self _ t.created _)]
        simp [not_registered hcurr, eq_comm]
    rw [hadded, hwas, registers]
    split_ifs with heq <;> simp [heq]
  | removeObserver o =>
    have hremoved : Registered t' obs ↔ o ≠ obs ∧ Registered t obs := by
      rcases removeObserver_cases h hstep with ⟨hcurr, rfl⟩ | ⟨c, list, hcurr, hlist, hcases⟩
      · exact iff_of_false (not_registered hcurr) fun hboth => not_registered hcurr hboth.2
      · have hnodup := (h.live c list hlist).good.nodup
        rw [registered_iff hcurr hlist]
        rcases hcases with ⟨hone, -, rfl⟩ | ⟨hone, -, rfl⟩ | ⟨-, -, rfl⟩
        · refine iff_of_false (not_registered rfl) ?_
          rintro ⟨hne, hmem⟩
          rw [hone, List.mem_singleton] at hmem
          exact hne (Option.some.inj hmem).symm
        · refine iff_of_false (not_registered rfl) ?_
          rintro ⟨hne, hmem⟩
          rw [hone, List.mem_singleton] at hmem
          exact hne (Option.some.inj hmem).symm
        · rw [@registered_iff (t.setList c (list.removeObserver o)) c obs _ hcurr
            (setList_self t c _), mem_removeObserver hnodup, and_comm, ne_comm]
    rw [hremoved, hwas, registers]
    split_ifs with heq <;> simp [heq]
  | notify =>
    cases hstep
    exact hwas
  | runTask =>
    rw [← hwas.trans (Iff.refl (registers obs was .runTask = true))]
    obtain ⟨task, queue, -, ⟨-, rfl⟩ | ⟨-, list, hlist, rfl⟩⟩ := runTask_cases h hstep
    · exact Iff.rfl
    · exact @registered_setList type t task.context obs list h list.newIterator.2
        (⟨task.context, task.notification, list.newIterator.1⟩ :: t.frames) hlist Iff.rfl
  | next =>
    rw [← hwas.trans (Iff.refl (registers obs was .next = true))]
    obtain ⟨f, frames, list, -, hlist, hcases⟩ := next_cases h hstep
    rcases hcases with ⟨k, o, -, -, -, -, rfl⟩ | ⟨-, ⟨hsize, rfl⟩ | ⟨-, rfl⟩⟩
    · exact Iff.rfl
    · have hnone : ¬ some obs ∈ list.observers := fun hmem => endIterator_size_pos hmem hsize
      by_cases hcurr : t.current = some f.context
      · refine iff_of_false (not_registered (if_pos hcurr)) ?_
        rw [registered_iff hcurr hlist]
        exact hnone
      · have hstays : (if t.current = some f.context then none else t.current) = t.current :=
          if_neg hcurr
        rw [hstays]
        cases hcurr' : t.current with
        | none => exact iff_of_false (not_registered rfl) (not_registered hcurr')
        | some c' =>
          obtain ⟨l, hl⟩ := h.current c' hcurr'
          have hne : c' ≠ f.context := by
            rintro rfl
            exact hcurr hcurr'
          rw [registered_iff hcurr' hl]
          exact registered_iff rfl ((Function.update_of_ne hne _ _).trans hl)
    · exact registered_setList h hlist mem_endIterator

/-- Who is called is registered. -/
theorem next_registered (h : Good type t) (hstep : t.next = some t') {run : Run}
    (hrun : t'.runs = t.runs ++ [run]) : Registered t run.observer ∧
      ∃ f frames, t.frames = f :: frames ∧ run.notification = f.notification := by
  obtain ⟨f, frames, list, hframe, hlist, hcases⟩ := next_cases h hstep
  rcases hcases with ⟨k, o, -, -, -, ho, rfl⟩ | ⟨-, ⟨-, rfl⟩ | ⟨-, rfl⟩⟩
  · obtain rfl : ⟨o, f.notification⟩ = run :=
      List.singleton_inj.mp (List.append_cancel_left hrun)
    refine ⟨?_, f, frames, hframe, rfl⟩
    have hmem : some o ∈ list.observers := List.mem_of_getElem? ho
    rcases (h.live _ list hlist).held with hcurr | ⟨-, hempty⟩
    · exact (registered_iff hcurr hlist).mpr hmem
    · rw [← List.reduceOption_mem_iff, hempty] at hmem
      cases hmem
  · exact absurd (congrArg List.length hrun) (by simp [Thread.deleteContext])
  · exact absurd (congrArg List.length hrun) (by simp [Thread.setList])

/-! ## The order of the notifications -/

/-- Those that wait are later than those in progress, which are nested. -/
structure Ordered (t : Thread) : Prop where
  queue : (t.queue.map Task.notification).Pairwise (· < ·)
  frames : (t.frames.map Frame.notification).Pairwise (· > ·)
  apart : ∀ f ∈ t.frames, ∀ task ∈ t.queue, f.notification < task.notification
  posted : (∀ task ∈ t.queue, task.notification < t.notifications) ∧
    ∀ f ∈ t.frames, f.notification < t.notifications

/-- An event that leaves the notifications where they are, but for one that may be done. -/
theorem Ordered.keep (h : Ordered t) (hqueue : t'.queue = t.queue)
    (hframe : (t'.frames.map Frame.notification).Sublist (t.frames.map Frame.notification))
    (hnotifications : t'.notifications = t.notifications) : Ordered t' := by
  have hmem : ∀ f ∈ t'.frames, ∃ g ∈ t.frames, g.notification = f.notification := fun f hf =>
    List.mem_map.mp (hframe.subset (List.mem_map_of_mem hf))
  refine ⟨by rw [hqueue]; exact h.queue, h.frames.sublist hframe, fun f hf task htask => ?_,
    by rw [hqueue, hnotifications]; exact h.posted.1, fun f hf => ?_⟩
  · obtain ⟨g, hg, heq⟩ := hmem f hf
    rw [← heq]
    exact h.apart g hg task (hqueue ▸ htask)
  · obtain ⟨g, hg, heq⟩ := hmem f hf
    rw [← heq, hnotifications]
    exact h.posted.2 g hg

theorem Ordered.sameTasks (h : Ordered t) (hsame : SameTasks t t') : Ordered t' := by
  refine h.keep hsame.queue ?_ hsame.notifications
  rw [hsame.frames]

theorem handle_ordered (hgood : Good type t) (h : Ordered t) {event : Event}
    (hstep : handle type t event = some t') : Ordered t' := by
  cases event with
  | addObserver o => exact h.sameTasks (addObserver_sameTasks hgood hstep)
  | removeObserver o => exact h.sameTasks (removeObserver_sameTasks hgood hstep)
  | notify =>
    cases hstep
    obtain ⟨hqueue, hframe⟩ := h.posted
    unfold Thread.notify
    cases t.current with
    | none =>
      exact ⟨h.queue, h.frames, h.apart, fun task htask => Nat.lt_succ_of_lt (hqueue task htask),
        fun f hf => Nat.lt_succ_of_lt (hframe f hf)⟩
    | some c =>
      refine ⟨?_, h.frames, fun f hf task htask => ?_, fun task htask => ?_,
        fun f hf => Nat.lt_succ_of_lt (hframe f hf)⟩
      · simp only [List.map_append, List.map_cons, List.map_nil]
        refine List.pairwise_append.mpr ⟨h.queue, List.pairwise_singleton _ _, ?_⟩
        intro a ha b hb
        obtain ⟨task, htask, rfl⟩ := List.mem_map.mp ha
        rw [List.mem_singleton.mp hb]
        exact hqueue task htask
      · rcases List.mem_append.mp htask with htask | htask
        · exact h.apart f hf task htask
        · rw [List.mem_singleton.mp htask]
          exact hframe f hf
      · rcases List.mem_append.mp htask with htask | htask
        · exact Nat.lt_succ_of_lt (hqueue task htask)
        · rw [List.mem_singleton.mp htask]
          exact Nat.lt_succ_self _
  | runTask =>
    obtain ⟨task, queue, hqueue, hcases⟩ := runTask_cases hgood hstep
    have hsort := h.queue
    rw [hqueue, List.map_cons, List.pairwise_cons] at hsort
    have hrest : ∀ task' ∈ queue, task' ∈ t.queue := fun task' htask => by
      rw [hqueue]
      exact List.mem_cons_of_mem _ htask
    have hfirst : task ∈ t.queue := by simp [hqueue]
    rcases hcases with ⟨-, rfl⟩ | ⟨-, list, -, rfl⟩
    · exact ⟨hsort.2, h.frames, fun f hf task' htask => h.apart f hf task' (hrest task' htask),
        fun task' htask => h.posted.1 task' (hrest task' htask), h.posted.2⟩
    · refine ⟨hsort.2, ?_, fun f hf task' htask => ?_,
        fun task' htask => h.posted.1 task' (hrest task' htask), fun f hf => ?_⟩
      · refine List.pairwise_cons.mpr ⟨fun m hm => ?_, h.frames⟩
        obtain ⟨g, hg, rfl⟩ := List.mem_map.mp hm
        exact h.apart g hg task hfirst
      · rcases List.mem_cons.mp hf with rfl | hf
        · exact hsort.1 _ (List.mem_map_of_mem htask)
        · exact h.apart f hf task' (hrest task' htask)
      · rcases List.mem_cons.mp hf with rfl | hf
        · exact h.posted.1 task hfirst
        · exact h.posted.2 f hf
  | next =>
    obtain ⟨f, frames, list, hframe, -, hcases⟩ := next_cases hgood hstep
    rcases hcases with ⟨k, o, -, -, -, -, rfl⟩ | ⟨-, ⟨-, rfl⟩ | ⟨-, rfl⟩⟩
    · refine h.keep rfl ?_ rfl
      rw [hframe]
      exact List.Sublist.refl _
    · refine h.keep rfl ?_ rfl
      rw [hframe]
      exact List.sublist_cons_self _ _
    · refine h.keep rfl ?_ rfl
      rw [hframe]
      exact List.sublist_cons_self _ _

theorem create_ordered : Ordered .create :=
  ⟨List.Pairwise.nil, List.Pairwise.nil, nofun, nofun, nofun⟩

/-! ## What becomes of a notification

For an observer that stays in the list a notification waits, or is in progress before the slot of
the observer or behind it, or is done; and its one call comes when the iterator passes the slot. -/

open List Nat

/-- How often the observer was called for the notification. -/
def callsFor (t : Thread) (obs n : Nat) : Nat := t.runs.count ⟨obs, n⟩

/-- The notification has left the queue, and its NotifyWrapper has returned. -/
def Processed (t : Thread) (n : Nat) : Prop :=
  (∀ task ∈ t.queue, task.notification ≠ n) ∧ ∀ f ∈ t.frames, f.notification ≠ n

/-- The iterator has passed the slot of the observer, with its call, or is going to. -/
def Passing (list : ObserverListBase Nat) (it : Iterator) (obs calls : Nat) : Prop :=
  ∃ k, list.observers[k]? = some (some obs) ∧
    (k < it.index ∧ calls = 1 ∨ it.index ≤ k ∧ k < it.bound list.size ∧ calls = 0)

/-- Where a notification for the observer is. -/
def Stage (t : Thread) (c : Nat) (list : ObserverListBase Nat) (obs n : Nat) : Prop :=
  (⟨c, n⟩ ∈ t.queue ∧ callsFor t obs n = 0) ∨
  (∃ f ∈ t.frames, f.context = c ∧ f.notification = n ∧
    Passing list f.iterator obs (callsFor t obs n)) ∨
  Processed t n ∧ callsFor t obs n = 1

/-- An observer is registered, and the notification is somewhere. -/
def Notified (t : Thread) (obs n : Nat) : Prop :=
  n < t.notifications ∧ ∃ c list, t.current = some c ∧ t.contexts c = some list ∧
    some obs ∈ list.observers ∧ Stage t c list obs n

theorem Passing.change {list' : ObserverListBase Nat} {it : Iterator} {calls : Nat}
    (h : Passing list it obs calls)
    (hslots : ∀ k : Nat,
      list.observers[k]? = some (some obs) → list'.observers[k]? = some (some obs))
    (hsize : list.size ≤ list'.size) : Passing list' it obs calls := by
  obtain ⟨k, hk, hcalls⟩ := h
  refine ⟨k, hslots k hk, hcalls.imp_right fun hahead => ⟨hahead.1, ?_, hahead.2.2⟩⟩
  refine lt_of_lt_of_le hahead.2.1 ?_
  unfold Iterator.bound
  cases it.maxIndex with
  | none => exact hsize
  | some m => exact Nat.le_min.mpr ⟨Nat.min_le_left _ _, Nat.le_trans (Nat.min_le_right _ _) hsize⟩

/-- The list of the context changes. -/
theorem Stage.change {list' : ObserverListBase Nat} (h : Stage t c list obs n)
    (hslots : (∃ f ∈ t.frames, f.context = c) →
      (∀ k : Nat, list.observers[k]? = some (some obs) → list'.observers[k]? = some (some obs)) ∧
        list.size ≤ list'.size) : Stage t c list' obs n := by
  rcases h with hwaits | ⟨f, hf, hctx, hn, hpassing⟩ | hdone
  · exact .inl hwaits
  · obtain ⟨hkept, hsize⟩ := hslots ⟨f, hf, hctx⟩
    exact .inr (Or.inl ⟨f, hf, hctx, hn, hpassing.change hkept hsize⟩)
  · exact .inr (Or.inr hdone)

theorem Live.depth_pos (h : Live type t c list) (hframe : ∃ f ∈ t.frames, f.context = c) :
    list.notifyDepth ≠ 0 := by
  obtain ⟨f, hf, hctx⟩ := hframe
  have hpos : 0 < iterating t.frames c :=
    countP_pos_iff.mpr ⟨f, hf, beq_iff_eq.mpr hctx⟩
  rw [h.depth]
  exact ne_of_gt hpos

theorem addObserver_slot {o k : Nat} (hk : list.observers[k]? = some (some obs)) :
    (list.addObserver o).observers[k]? = some (some obs) := by
  unfold ObserverListBase.addObserver
  split_ifs
  · exact hk
  · exact (List.getElem?_append_left (List.getElem?_eq_some_iff.mp hk).1).trans hk

/-! ## AddObserver and RemoveObserver -/

theorem addObserver_notified (hgood : Good type t) (h : Notified t obs n) {o : Nat}
    (hstep : t.addObserver type o = some t') : Notified t' obs n := by
  obtain ⟨hposted, c, list, hcurr, hlist, hmem, hstage⟩ := h
  rcases addObserver_cases hgood hstep with ⟨c', list', hcurr', hlist', rfl⟩ | ⟨hnone, -⟩
  · cases hcurr.symm.trans hcurr'
    cases hlist.symm.trans hlist'
    refine ⟨hposted, c, _, hcurr, setList_self t c _, mem_addObserver.mpr (Or.inr hmem), ?_⟩
    refine Stage.change (t := t) hstage fun _ => ⟨fun k => addObserver_slot, ?_⟩
    unfold ObserverListBase.addObserver ObserverListBase.size
    split_ifs <;> simp
  · cases hnone.symm.trans hcurr

theorem removeObserver_notified (hgood : Good type t) (h : Notified t obs n) {o : Nat}
    (ho : o ≠ obs) (hstep : t.removeObserver o = some t') : Notified t' obs n := by
  obtain ⟨hposted, c, list, hcurr, hlist, hmem, hstage⟩ := h
  rcases removeObserver_cases hgood hstep with ⟨hnone, -⟩ | ⟨c', list', hcurr', hlist', hcases⟩
  · cases hnone.symm.trans hcurr
  · cases hcurr.symm.trans hcurr'
    cases hlist.symm.trans hlist'
    have hlive := hgood.live c list hlist
    have hmore : list.observers ≠ [some o] := by
      intro hone
      rw [hone, mem_singleton] at hmem
      exact ho (Option.some.inj hmem).symm
    rcases hcases with ⟨hone, -⟩ | ⟨hone, -⟩ | ⟨-, -, rfl⟩
    · exact absurd hone hmore
    · exact absurd hone hmore
    · refine ⟨hposted, c, _, hcurr, setList_self t c _,
        (mem_removeObserver hlive.good.nodup).mpr ⟨hmem, ho.symm⟩, ?_⟩
      refine Stage.change (t := t) hstage fun hframe => ?_
      have hdepth := hlive.depth_pos hframe
      refine ⟨fun k hk => ?_, ?_⟩
      · rw [ObserverListBase.removeObserver, if_pos hdepth]
        exact (getElem?_replace_none hlive.good.nodup o obs k).mpr ⟨hk, ho⟩
      · rw [removeObserver_size, if_neg (fun hboth => hdepth hboth.1)]

/-! ## Notify and the start of a NotifyWrapper -/

theorem notify_notified (h : Notified t obs n) : Notified t.notify obs n := by
  obtain ⟨hposted, c, list, hcurr, hlist, hmem, hstage⟩ := h
  have hqueue : t.notify.queue = t.queue ++ [⟨c, t.notifications⟩] := by
    rw [Thread.notify, hcurr]
  refine ⟨lt_succ_of_lt hposted, c, list, hcurr, hlist, hmem, ?_⟩
  rcases hstage with ⟨hwaits, hcalls⟩ | hpassing | ⟨⟨hout, hframe⟩, hcalls⟩
  · refine .inl ⟨?_, hcalls⟩
    rw [hqueue]
    exact mem_append_left _ hwaits
  · exact .inr (Or.inl hpassing)
  · refine .inr (Or.inr ⟨⟨fun task htask => ?_, hframe⟩, hcalls⟩)
    rw [hqueue] at htask
    rcases mem_append.mp htask with htask | htask
    · exact hout task htask
    · rw [mem_singleton.mp htask]
      exact ne_of_gt hposted

theorem runTask_notified (hgood : Good type t) (h : Notified t obs n)
    (hstep : t.runTask = some t') : Notified t' obs n := by
  obtain ⟨hposted, c, list, hcurr, hlist, hmem, hstage⟩ := h
  obtain ⟨task, queue, hqueue, hcases⟩ := runTask_cases hgood hstep
  have hrest : ∀ task' ∈ queue, task' ∈ t.queue := fun task' htask => by
    rw [hqueue]
    exact mem_cons_of_mem _ htask
  rcases hcases with ⟨hother, rfl⟩ | ⟨hsame, list', hlist', rfl⟩
  · refine ⟨hposted, c, list, hcurr, hlist, hmem, ?_⟩
    rcases hstage with ⟨hwaits, hcalls⟩ | hpassing | ⟨⟨hout, hframe⟩, hcalls⟩
    · rw [hqueue] at hwaits
      rcases mem_cons.mp hwaits with rfl | hwaits
      · exact absurd hcurr hother
      · exact .inl ⟨hwaits, hcalls⟩
    · exact .inr (Or.inl hpassing)
    · exact .inr (Or.inr ⟨⟨fun task' htask => hout task' (hrest task' htask), hframe⟩, hcalls⟩)
  · cases hcurr.symm.trans hsame
    cases hlist.symm.trans hlist'
    refine ⟨hposted, task.context, list.newIterator.2, hcurr, setList_self t _ _, hmem, ?_⟩
    rcases hstage with ⟨hwaits, hcalls⟩ | ⟨f, hf, hctx, hn, hpassing⟩ |
      ⟨⟨hout, hframe⟩, hcalls⟩
    · rw [hqueue] at hwaits
      rcases mem_cons.mp hwaits with heq | hwaits
      · obtain ⟨k, hk⟩ := mem_iff_getElem?.mp hmem
        refine .inr (Or.inl ⟨_, mem_cons_self, rfl, (congrArg Task.notification heq).symm, k,
          hk, .inr ⟨zero_le k, ?_, hcalls⟩⟩)
        have hlt : k < list.size := (List.getElem?_eq_some_iff.mp hk).1
        unfold ObserverListBase.newIterator Iterator.bound
        split_ifs
        · exact hlt
        · exact Nat.lt_min.mpr ⟨hlt, hlt⟩
      · exact .inl ⟨hwaits, hcalls⟩
    · exact .inr (Or.inl ⟨f, mem_cons_of_mem _ hf, hctx, hn, hpassing⟩)
    · refine .inr (Or.inr ⟨⟨fun task' htask => hout task' (hrest task' htask),
        fun f hf => ?_⟩, hcalls⟩)
      rcases mem_cons.mp hf with rfl | hf
      · exact hout task (by simp [hqueue])
      · exact hframe f hf

/-! ## GetNext -/

theorem callsFor_other {runs : List Run} {run : Run} (h : run ≠ ⟨obs, n⟩) :
    (runs ++ [run]).count (⟨obs, n⟩ : Run) = runs.count (⟨obs, n⟩ : Run) := by
  rw [count_append, count_singleton, if_neg (by simpa using h), Nat.add_zero]

theorem callsFor_self {runs : List Run} :
    (runs ++ [(⟨obs, n⟩ : Run)]).count (⟨obs, n⟩ : Run) = runs.count (⟨obs, n⟩ : Run) + 1 := by
  rw [count_append, count_singleton_self]

/-- The frames under the top are of other notifications. -/
theorem Ordered.below (h : Ordered t) {f : Frame} {frames : List Frame}
    (hframe : t.frames = f :: frames) : ∀ g ∈ frames, g.notification ≠ f.notification := by
  have hsort := h.frames
  rw [hframe, map_cons, pairwise_cons] at hsort
  exact fun g hg => Nat.ne_of_lt (hsort.1 _ (mem_map_of_mem hg))

/-- GetNext passes the slot of an observer only with a call. -/
theorem Passing.advance {it : Iterator} {calls k o : Nat} (hgood : ListGood type list)
    (h : Passing list it obs calls) (hle : it.index ≤ k)
    (hnulls : ∀ i, it.index ≤ i → i < k → list.observers[i]? = some none)
    (ho : list.observers[k]? = some (some o)) :
    Passing list { it with index := k + 1 } obs (calls + if o = obs then 1 else 0) := by
  obtain ⟨j, hj, hcalls⟩ := h
  refine ⟨j, hj, ?_⟩
  rcases hcalls with ⟨hpast, rfl⟩ | ⟨hahead, hbound, rfl⟩
  · have hne : o ≠ obs := by
      rintro rfl
      have := slot_unique hgood.nodup hj ho
      omega
    rw [if_neg hne]
    exact .inl ⟨lt_succ_of_lt (lt_of_lt_of_le hpast hle), rfl⟩
  · have hjk : ¬ j < k := fun hlt => by
      cases hj.symm.trans (hnulls j hahead hlt)
    by_cases heq : o = obs
    · subst heq
      obtain rfl := slot_unique hgood.nodup hj ho
      rw [if_pos rfl]
      exact .inl ⟨lt_succ_self _, rfl⟩
    · have hne : j ≠ k := by
        rintro rfl
        exact heq (Option.some.inj (Option.some.inj (hj.symm.trans ho))).symm
      rw [if_neg heq]
      exact .inr ⟨by show k + 1 ≤ j; omega, hbound, rfl⟩

/-- When only slots without an observer are left, the call was made. -/
theorem Passing.finish {it : Iterator} {calls : Nat} (h : Passing list it obs calls)
    (hnulls : ∀ i, it.index ≤ i → i < it.bound list.size → list.observers[i]? = some none) :
    calls = 1 := by
  obtain ⟨k, hk, ⟨-, hcalls⟩ | ⟨hahead, hbound, -⟩⟩ := h
  · exact hcalls
  · cases hk.symm.trans (hnulls k hahead hbound)

theorem next_notified (hgood : Good type t) (hord : Ordered t) (h : Notified t obs n)
    (hstep : t.next = some t') : Notified t' obs n := by
  obtain ⟨hposted, c, list, hcurr, hlist, hmem, hstage⟩ := h
  obtain ⟨f, frames, list', hframe, hlist', hcases⟩ := next_cases hgood hstep
  have htop : f ∈ t.frames := by simp [hframe]
  have hbelow := hord.below hframe
  have hrest : ∀ g ∈ frames, g ∈ t.frames := fun g hg => by
    rw [hframe]
    exact mem_cons_of_mem _ hg
  rcases hcases with ⟨k, o, hle, -, hnulls, ho, rfl⟩ | ⟨hnulls, hend⟩
  · refine ⟨hposted, c, list, hcurr, hlist, hmem, ?_⟩
    rcases hstage with ⟨hwaits, hcalls⟩ | ⟨g, hg, hctx, hn, hpassing⟩ |
      ⟨⟨hout, hdone⟩, hcalls⟩
    · refine .inl ⟨hwaits, (callsFor_other fun heq => ?_).trans hcalls⟩
      have hlt := hord.apart f htop _ hwaits
      exact Nat.ne_of_lt hlt (congrArg Run.notification heq)
    · rw [hframe] at hg
      rcases mem_cons.mp hg with rfl | hg
      · -- the notification itself goes on
        rw [hctx] at hlist'
        cases hlist.symm.trans hlist'
        have hmoved := hpassing.advance (hgood.live c list hlist).good hle hnulls ho
        refine .inr (Or.inl ⟨_, mem_cons_self, hctx, hn, ?_⟩)
        have hcount : callsFor t obs n + (if o = obs then 1 else 0) =
            (t.runs ++ [(⟨o, g.notification⟩ : Run)]).count (⟨obs, n⟩ : Run) := by
          split_ifs with heq
          · rw [heq, hn, callsFor_self]
            rfl
          · rw [callsFor_other fun hrun => heq (congrArg Run.observer hrun)]
            rfl
        rw [hcount] at hmoved
        exact hmoved
      · refine .inr (Or.inl ⟨g, mem_cons_of_mem _ hg, hctx, hn, ?_⟩)
        have hother : (⟨o, f.notification⟩ : Run) ≠ ⟨obs, n⟩ := fun heq =>
          hbelow g hg (hn.trans (congrArg Run.notification heq).symm)
        have hcount : (t.runs ++ [(⟨o, f.notification⟩ : Run)]).count (⟨obs, n⟩ : Run) =
            callsFor t obs n := callsFor_other hother
        rw [← hcount] at hpassing
        exact hpassing
    · refine .inr (Or.inr ⟨⟨hout, fun g hg => ?_⟩, (callsFor_other fun heq => ?_).trans hcalls⟩)
      · rcases mem_cons.mp hg with rfl | hg
        · exact hdone f htop
        · exact hdone g (hrest g hg)
      · exact hdone f htop (congrArg Run.notification heq)
  · -- the NotifyWrapper at the top returns
    have hret : ∀ {l : ObserverListBase Nat} {s : Thread}, s.queue = t.queue →
        s.frames = frames → s.runs = t.runs →
        ((∃ g ∈ frames, g.context = c) → l.observers = list.observers) → Stage s c l obs n := by
      intro l s hqueue hs hruns hkept
      have hcount : callsFor s obs n = callsFor t obs n := by rw [callsFor, hruns]; rfl
      rcases hstage with ⟨hwaits, hcalls⟩ | ⟨g, hg, hctx, hn, hpassing⟩ |
        ⟨⟨hout, hdone⟩, hcalls⟩
      · exact .inl ⟨hqueue.symm ▸ hwaits, hcount.trans hcalls⟩
      · rw [hframe] at hg
        rcases mem_cons.mp hg with rfl | hg
        · rw [hctx] at hlist'
          cases hlist.symm.trans hlist'
          refine .inr (Or.inr ⟨⟨fun task htask => ?_, fun g' hg' => ?_⟩,
            hcount.trans (hpassing.finish hnulls)⟩)
          · rw [hqueue] at htask
            have hlt := hord.apart g htop task htask
            omega
          · rw [hs] at hg'
            rw [← hn]
            exact hbelow g' hg'
        · have hsame := hkept ⟨g, hg, hctx⟩
          refine .inr (Or.inl ⟨g, by rw [hs]; exact hg, hctx, hn, ?_⟩)
          rw [hcount]
          exact hpassing.change (fun k hk => hsame.symm ▸ hk)
            (le_of_eq (congrArg length hsame.symm))
      · refine .inr (Or.inr ⟨⟨fun task htask => hout task (hqueue ▸ htask), fun g hg => ?_⟩,
          hcount.trans hcalls⟩)
        rw [hs] at hg
        exact hdone g (hrest g hg)
    have hdepth := iterating_cons f frames f.context
    rw [if_pos rfl] at hdepth
    rcases hend with ⟨hsize, rfl⟩ | ⟨hsize, rfl⟩
    · have hne : c ≠ f.context := by
        intro heq
        rw [← heq] at hlist'
        cases hlist.symm.trans hlist'
        exact endIterator_size_pos hmem hsize
      have hstays : (if t.current = some f.context then none else t.current) = some c := by
        rw [hcurr, if_neg (fun heq => hne (Option.some.inj heq))]
      exact ⟨hposted, c, list, hstays, (Function.update_of_ne hne _ _).trans hlist, hmem,
        hret rfl rfl rfl fun _ => rfl⟩
    · by_cases heq : c = f.context
      · subst heq
        cases hlist.symm.trans hlist'
        refine ⟨hposted, f.context, list.endIterator, hcurr, setList_self t _ _,
          mem_endIterator.mpr hmem, hret rfl rfl rfl ?_⟩
        rintro ⟨g, hg, hctx⟩
        have hpos : 0 < iterating frames f.context :=
          countP_pos_iff.mpr ⟨g, hg, beq_iff_eq.mpr hctx⟩
        refine endIterator_keeps ?_
        rw [(hgood.live _ list hlist).depth, hframe, hdepth]
        omega
      · exact ⟨hposted, c, list, hcurr, (setList_other heq).trans hlist, hmem,
          hret rfl rfl rfl fun _ => rfl⟩

/-! ## Every event -/

theorem handle_notified (hgood : Good type t) (hord : Ordered t) (h : Notified t obs n)
    {event : Event} (hevent : event ≠ .removeObserver obs)
    (hstep : handle type t event = some t') : Notified t' obs n := by
  cases event with
  | addObserver o => exact addObserver_notified hgood h hstep
  | removeObserver o =>
    exact removeObserver_notified hgood h (fun heq => hevent (congrArg _ heq)) hstep
  | notify =>
    cases hstep
    exact notify_notified h
  | runTask => exact runTask_notified hgood h hstep
  | next => exact next_notified hgood hord h hstep

theorem Notified.once (h : Notified t obs n) (hproc : Processed t n) : callsFor t obs n = 1 := by
  obtain ⟨-, c, list, -, -, -, ⟨hwaits, -⟩ | ⟨f, hf, -, hn, -⟩ | ⟨-, hcalls⟩⟩ := h
  · exact absurd rfl (hproc.1 _ hwaits)
  · exact absurd hn (hproc.2 f hf)
  · exact hcalls

end ChromiumUI.ObserverListThreadSafe
