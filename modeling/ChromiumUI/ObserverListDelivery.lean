import ChromiumUI.ObserverListEvents

/-!
# Threads together

What a run does on one thread is a run of the events of this thread, so what holds of one thread
holds of all of them.
-/
namespace ChromiumUI.ObserverListThreadSafe

open Runs ObserverList List Nat Function

variable {type : NotificationType} {env : Threads} {t t' : Thread} {obs n : Nat}

/-! ## The events of a thread -/

/-- What the events so far have made of a thread. -/
structure After (type : NotificationType) (events : List Event) (t : Thread) : Prop where
  good : Good type t
  ordered : Ordered t
  runs : ∀ run ∈ t.runs, run.notification < t.notifications
  count : t.notifications = events.count .notify
  registered : ∀ obs, Registered t obs ↔ registeredAfter obs events = true

theorem handle_runs (hgood : Good type t) (hord : Ordered t)
    (h : ∀ run ∈ t.runs, run.notification < t.notifications) {event : Event}
    (hstep : handle type t event = some t') :
    (∀ run ∈ t'.runs, run.notification < t'.notifications) ∧
      t'.notifications = t.notifications + if event = .notify then 1 else 0 := by
  cases event with
  | addObserver o =>
    have hsame := addObserver_sameTasks hgood hstep
    rw [hsame.runs, hsame.notifications]
    exact ⟨h, rfl⟩
  | removeObserver o =>
    have hsame := removeObserver_sameTasks hgood hstep
    rw [hsame.runs, hsame.notifications]
    exact ⟨h, rfl⟩
  | notify =>
    cases hstep
    exact ⟨fun run hrun => lt_succ_of_lt (h run hrun), rfl⟩
  | runTask =>
    obtain ⟨task, queue, -, ⟨-, rfl⟩ | ⟨-, list, -, rfl⟩⟩ := runTask_cases hgood hstep <;>
      exact ⟨h, rfl⟩
  | next =>
    obtain ⟨f, frames, list, hframe, -, hcases⟩ := next_cases hgood hstep
    rcases hcases with ⟨k, o, -, -, -, -, rfl⟩ | ⟨-, ⟨-, rfl⟩ | ⟨-, rfl⟩⟩
    · refine ⟨fun run hrun => ?_, rfl⟩
      rcases mem_append.mp hrun with hrun | hrun
      · exact h run hrun
      · rw [mem_singleton.mp hrun]
        exact hord.posted.2 f (by simp [hframe])
    · exact ⟨h, rfl⟩
    · exact ⟨h, rfl⟩

variable {events : List Event}

theorem run_after (h : run (handle type) events .create = some t) : After type events t := by
  refine run_history (P := After type) ?_ ?_ h
  · exact ⟨create_good, create_ordered, nofun, rfl, fun obs =>
      iff_of_false (not_registered rfl) Bool.false_ne_true⟩
  · intro events t event t' hafter hstep
    obtain ⟨hruns, hcount⟩ := handle_runs hafter.good hafter.ordered hafter.runs hstep
    refine ⟨handle_good hafter.good hstep, handle_ordered hafter.good hafter.ordered hstep, hruns,
      ?_, fun obs => ?_⟩
    · rw [hcount, hafter.count, count_append, count_singleton]
      simp only [beq_iff_eq]
    · have hfold : registeredAfter obs (events ++ [event]) =
          registers obs (registeredAfter obs events) event := by
        rw [registeredAfter, foldl_append]
        rfl
      rw [hfold]
      exact handle_registered hafter.good (hafter.registered obs) hstep

/-- From a Notify call on, an observer that stays is notified. -/
theorem notified_notify (h : After type events t) (hregistered : registeredAfter obs events = true)
    :
    Notified t.notify obs (events.count .notify) := by
  obtain ⟨c, list, hcurr, hlist, hmem⟩ := (h.registered obs).mpr hregistered
  rw [← h.count]
  refine ⟨lt_succ_self _, c, list, hcurr, hlist, hmem, .inl ⟨?_, ?_⟩⟩
  · rw [Thread.notify, hcurr]
    exact mem_append_right _ (mem_singleton_self _)
  · refine count_eq_zero.mpr fun hrun => ?_
    exact lt_irrefl _ (h.runs _ hrun)

theorem run_notified (hgood : Good type t) (hord : Ordered t) (h : Notified t obs n)
    (hstays : Event.removeObserver obs ∉ events) (hrun : run (handle type) events t = some t') :
    Notified t' obs n := by
  have hrule : ∀ t event t', (Good type t ∧ Ordered t ∧ Notified t obs n) →
      event ≠ .removeObserver obs → handle type t event = some t' →
      Good type t' ∧ Ordered t' ∧ Notified t' obs n := by
    rintro t event t' ⟨hgood, hord, h⟩ hevent hstep
    exact ⟨handle_good hgood hstep, handle_ordered hgood hord hstep,
      handle_notified hgood hord h hevent hstep⟩
  refine (run_invariant_of_each hrule hrun (eachStep_of_forall ?_ t) ⟨hgood, hord, h⟩).2.2
  rintro event hevent - rfl
  exact hstays hevent

/-! ## Calls in order -/

/-- No NotifyWrapper inside of another, and the calls in the order of the notifications. -/
structure Flat (t : Thread) : Prop where
  frames : t.frames.length ≤ 1
  runs : (t.runs.map Run.notification).Pairwise (· ≤ ·)
  behind : ∀ run ∈ t.runs, (∀ f ∈ t.frames, run.notification ≤ f.notification) ∧
    (∀ task ∈ t.queue, run.notification ≤ task.notification) ∧ run.notification < t.notifications

theorem Flat.keep (h : Flat t) (hruns : t'.runs = t.runs) (hqueue : t'.queue = t.queue)
    (hframe : t'.frames.Sublist t.frames) (hnotifications : t'.notifications = t.notifications) :
    Flat t' := by
  refine ⟨le_trans hframe.length_le h.frames, by rw [hruns]; exact h.runs, ?_⟩
  rw [hruns, hqueue, hnotifications]
  intro run hrun
  obtain ⟨hpre, hrest⟩ := h.behind run hrun
  exact ⟨fun f hf => hpre f (hframe.subset hf), hrest⟩

theorem Flat.sameTasks (h : Flat t) (hsame : SameTasks t t') : Flat t' := by
  refine h.keep hsame.runs hsame.queue ?_ hsame.notifications
  rw [hsame.frames]

theorem handle_flat (hgood : Good type t) (hord : Ordered t) (h : Flat t) {event : Event}
    (hevent : event = .runTask → t.frames = []) (hstep : handle type t event = some t') :
    Flat t' := by
  cases event with
  | addObserver o => exact h.sameTasks (addObserver_sameTasks hgood hstep)
  | removeObserver o => exact h.sameTasks (removeObserver_sameTasks hgood hstep)
  | notify =>
    cases hstep
    refine ⟨h.frames, h.runs, fun run hrun => ?_⟩
    obtain ⟨hframe, hqueue, hlt⟩ := h.behind run hrun
    refine ⟨hframe, fun task htask => ?_, lt_succ_of_lt hlt⟩
    unfold Thread.notify at htask
    cases hcurr : t.current with
    | none =>
      rw [hcurr] at htask
      exact hqueue task htask
    | some c =>
      rw [hcurr] at htask
      rcases mem_append.mp htask with htask | htask
      · exact hqueue task htask
      · rw [mem_singleton.mp htask]
        exact le_of_lt hlt
  | runTask =>
    have hnone := hevent rfl
    obtain ⟨task, queue, hqueue, hcases⟩ := runTask_cases hgood hstep
    have hbehind : ∀ run ∈ t.runs, run.notification ≤ task.notification ∧
        (∀ task' ∈ queue, run.notification ≤ task'.notification) ∧
        run.notification < t.notifications := by
      intro run hrun
      obtain ⟨-, htasks, hlt⟩ := h.behind run hrun
      rw [hqueue] at htasks
      exact ⟨htasks task mem_cons_self, fun task' htask =>
        htasks task' (mem_cons_of_mem _ htask), hlt⟩
    rcases hcases with ⟨-, rfl⟩ | ⟨-, list, -, rfl⟩
    · refine ⟨h.frames, h.runs, fun run hrun => ?_⟩
      obtain ⟨-, hrest, hlt⟩ := hbehind run hrun
      exact ⟨(h.behind run hrun).1, hrest, hlt⟩
    · refine ⟨by simp [hnone], h.runs, fun run hrun => ?_⟩
      obtain ⟨htask, hrest, hlt⟩ := hbehind run hrun
      refine ⟨fun f hf => ?_, hrest, hlt⟩
      simp only [hnone, mem_singleton] at hf
      rw [hf]
      exact htask
  | next =>
    obtain ⟨f, frames, list, hframe, -, hcases⟩ := next_cases hgood hstep
    have htop : f ∈ t.frames := by simp [hframe]
    have hsub : frames.Sublist t.frames := by
      rw [hframe]
      exact sublist_cons_self _ _
    rcases hcases with ⟨k, o, -, -, -, -, rfl⟩ | ⟨-, ⟨-, rfl⟩ | ⟨-, rfl⟩⟩
    · have hone : frames = [] := by
        have hlen := h.frames
        rw [hframe, length_cons] at hlen
        exact length_eq_zero_iff.mp (by omega)
      subst hone
      refine ⟨by simp, ?_, fun run hrun => ?_⟩
      · simp only [map_append, map_cons, map_nil]
        refine pairwise_append.mpr ⟨h.runs, pairwise_singleton _ _, ?_⟩
        intro a ha b hb
        obtain ⟨run, hrun, rfl⟩ := mem_map.mp ha
        rw [mem_singleton.mp hb]
        exact (h.behind run hrun).1 f htop
      · have hsame : ∀ run : Run, run.notification ≤ f.notification →
            ∀ g ∈ [{ f with iterator := { f.iterator with index := k + 1 } }],
              run.notification ≤ g.notification := by
          intro run hle g hg
          rw [mem_singleton.mp hg]
          exact hle
        rcases mem_append.mp hrun with hrun | hrun
        · obtain ⟨hpre, hrest⟩ := h.behind run hrun
          exact ⟨hsame run (hpre f htop), hrest⟩
        · rw [mem_singleton.mp hrun]
          exact ⟨hsame _ (le_refl _), fun task htask =>
            le_of_lt (hord.apart f htop task htask), hord.posted.2 f htop⟩
    · exact h.keep rfl rfl hsub rfl
    · exact h.keep rfl rfl hsub rfl

/-! ## All threads -/

variable {th : Nat}

theorem map_update {s s' : State} {f : Option Thread} (h : f.map (update s th) = some s') :
    ∃ t, f = some t ∧ s' = update s th t := by
  obtain ⟨t, ht, rfl⟩ := Option.map_eq_some_iff.mp h
  exact ⟨t, ht, rfl⟩

theorem run_single {event : Event} (h : handle type t event = some t') :
    run (handle type) [event] t = some t' := by
  rw [run_cons, h]
  rfl

/-- What an action does to a thread, the events of the thread do. -/
theorem step_thread {s s' : State} {action : Action} (h : step env type s action = some s')
    (th : Nat) : run (handle type) (eventsOn env th action) (s th) = some (s' th) := by
  have hupdate : ∀ {th' : Nat} {t : Thread} {event : Event},
      handle type (s th') event = some t → s' = update s th' t →
      run (handle type) (if th' = th then [event] else []) (s th) = some (s' th) := by
    rintro th' t event hevent rfl
    by_cases hth : th' = th
    · subst hth
      rw [if_pos rfl, update_self]
      exact run_single hevent
    · rw [if_neg hth, update_of_ne (Ne.symm hth)]
      rfl
  cases action with
  | addObserver obs =>
    rw [step] at h
    split_ifs at h with hloop
    · obtain ⟨t, ht, hs⟩ := map_update h
      have hboth : (env.thread obs = th ∧ env.messageLoop th = true) ↔ env.thread obs = th :=
        ⟨And.left, fun heq => ⟨heq, heq ▸ hloop⟩⟩
      simp only [eventsOn, hboth]
      exact @hupdate _ _ (.addObserver obs) ht hs
    · cases h
      have hnone : ¬ (env.thread obs = th ∧ env.messageLoop th = true) := by
        rintro ⟨rfl, htrue⟩
        exact hloop htrue
      rw [eventsOn, if_neg hnone]
      rfl
  | removeObserver obs =>
    obtain ⟨t, ht, hs⟩ := map_update h
    exact @hupdate _ _ (.removeObserver obs) ht hs
  | notify =>
    cases h
    rfl
  | runTask th' =>
    obtain ⟨t, ht, hs⟩ := map_update h
    exact @hupdate _ _ .runTask ht hs
  | next th' =>
    obtain ⟨t, ht, hs⟩ := map_update h
    exact @hupdate _ _ .next ht hs

variable {actions : List Action}

theorem run_thread {s s' : State} (h : run (step env type) actions s = some s') (th : Nat) :
    run (handle type) (actions.flatMap (eventsOn env th)) (s th) = some (s' th) := by
  induction actions generalizing s with
  | nil =>
    cases h
    rfl
  | cons action actions ih =>
    obtain ⟨s₁, hstep, hrest⟩ := run_cons_some h
    rw [flatMap_cons, run_append, step_thread hstep th]
    exact ih hrest

/-- Whether an observer has been added, on a thread with a MessageLoop, and not removed since. -/
def registeredBy (env : Threads) (obs : Nat) (actions : List Action) : Bool :=
  registeredAfter obs (actions.flatMap (eventsOn env (env.thread obs)))

theorem count_notify (th : Nat) (actions : List Action) :
    (actions.flatMap (eventsOn env th)).count .notify = actions.count .notify := by
  induction actions with
  | nil => rfl
  | cons action actions ih =>
    rw [flatMap_cons, count_append, ih, count_cons]
    have hone : (eventsOn env th action).count .notify = if action == .notify then 1 else 0 := by
      cases action with
      | addObserver obs =>
        by_cases h : env.thread obs = th ∧ env.messageLoop th = true <;> simp [eventsOn, h]
      | removeObserver obs => by_cases h : env.thread obs = th <;> simp [eventsOn, h]
      | notify => rfl
      | runTask t | next t => by_cases h : t = th <;> simp [eventsOn, h]
    rw [hone, Nat.add_comm]

theorem eventsOn_removeObserver {action : Action}
    (h : Event.removeObserver obs ∈ eventsOn env th action) : action = .removeObserver obs := by
  cases action with
  | addObserver o =>
    by_cases hth : env.thread o = th ∧ env.messageLoop th = true <;> simp [eventsOn, hth] at h
  | removeObserver o =>
    by_cases hth : env.thread o = th
    · rw [eventsOn, if_pos hth, mem_singleton] at h
      cases h
      rfl
    · simp [eventsOn, hth] at h
  | notify => simp [eventsOn] at h
  | runTask t | next t => by_cases hth : t = th <;> simp [eventsOn, hth] at h

theorem eventsOn_addObserver {action : Action}
    (h : Event.addObserver obs ∈ eventsOn env th action) : env.thread obs = th := by
  cases action with
  | addObserver o =>
    by_cases hth : env.thread o = th ∧ env.messageLoop th = true
    · rw [eventsOn, if_pos hth, mem_singleton] at h
      cases h
      exact hth.1
    · simp [eventsOn, hth] at h
  | removeObserver o => by_cases hth : env.thread o = th <;> simp [eventsOn, hth] at h
  | notify => simp [eventsOn] at h
  | runTask t | next t => by_cases hth : t = th <;> simp [eventsOn, hth] at h

/-- An action is one event of a thread, or none. -/
theorem eventsOn_single (env : Threads) (th : Nat) (action : Action) :
    eventsOn env th action = [] ∨ ∃ event, eventsOn env th action = [event] ∧
      (event = .runTask → action = .runTask th) := by
  cases action with
  | addObserver o =>
    by_cases hth : env.thread o = th ∧ env.messageLoop th = true
    · exact .inr ⟨.addObserver o, if_pos hth, nofun⟩
    · exact .inl (if_neg hth)
  | removeObserver o =>
    by_cases hth : env.thread o = th
    · exact .inr ⟨.removeObserver o, if_pos hth, nofun⟩
    · exact .inl (if_neg hth)
  | notify => exact .inr ⟨.notify, rfl, nofun⟩
  | runTask t =>
    by_cases hth : t = th
    · exact .inr ⟨.runTask, if_pos hth, fun _ => by rw [hth]⟩
    · exact .inl (if_neg hth)
  | next t =>
    by_cases hth : t = th
    · exact .inr ⟨.next, if_pos hth, nofun⟩
    · exact .inl (if_neg hth)

theorem removeObserver_mem (h : Event.removeObserver obs ∈ actions.flatMap (eventsOn env th)) :
    Action.removeObserver obs ∈ actions := by
  obtain ⟨action, haction, hevent⟩ := mem_flatMap.mp h
  rw [← eventsOn_removeObserver hevent]
  exact haction

/-- An observer is not registered on a thread where it is not added. -/
theorem registeredAfter_other (h : Event.addObserver obs ∉ events) :
    registeredAfter obs events = false := by
  induction events using reverseRecOn with
  | nil => rfl
  | append_singleton events event ih =>
    have hrest := ih fun hmem => h (mem_append_left _ hmem)
    rw [registeredAfter, foldl_append] at *
    rw [hrest]
    cases event with
    | addObserver o =>
      have hne : o ≠ obs := by
        rintro rfl
        exact h (by simp)
      simp [registers, hne]
    | removeObserver o => simp [registers]
    | notify => rfl
    | runTask => rfl
    | next => rfl

theorem registered_thread (h : registeredAfter obs (actions.flatMap (eventsOn env th)) = true) :
    env.thread obs = th := by
  by_contra hne
  have hnot : Event.addObserver obs ∉ actions.flatMap (eventsOn env th) := by
    intro hmem
    obtain ⟨action, -, hevent⟩ := mem_flatMap.mp hmem
    exact hne (eventsOn_addObserver hevent)
  rw [registeredAfter_other hnot] at h
  cases h

/-! ## What ObserverListThreadSafe delivers -/

variable {type : NotificationType} {env : Threads} {obs n : Nat}

theorem run_thread_after {actions : List Action} {s : State}
    (h : run (step env type) actions create = some s) (th : Nat) :
    After type (actions.flatMap (eventsOn env th)) (s th) := run_after (run_thread h th)

/-- An observer that is registered at a Notify call, and stays until its thread has processed the
notification, is called for it once. -/
theorem called_once {before after : List Action} {s : State}
    (h : run (step env type) (before ++ .notify :: after) create = some s)
    (hregistered : registeredBy env obs before = true) (hstays : Action.removeObserver obs ∉ after)
    (hproc : Processed (s (env.thread obs)) (before.count .notify)) :
    callsFor (s (env.thread obs)) obs (before.count .notify) = 1 := by
  obtain ⟨s₁, s₂, hpre, hnotify, hafter⟩ := run_append_cons_some h
  cases hnotify
  have hthread := run_thread_after hpre (env.thread obs)
  have hnotified := notified_notify hthread hregistered
  rw [count_notify] at hnotified
  have hstep : handle type (s₁ (env.thread obs)) .notify = some (s₁ (env.thread obs)).notify := rfl
  have hgood := handle_good hthread.good hstep
  have hord := handle_ordered hthread.good hthread.ordered hstep
  exact (run_notified hgood hord hnotified (fun hmem => hstays (removeObserver_mem hmem))
    (run_thread hafter (env.thread obs))).once hproc

theorem next_thread {s s' : State} {th : Nat} (h : step env type s (.next th) = some s') :
    (s th).next = some (s' th) := by
  obtain ⟨t, ht, rfl⟩ := map_update h
  rw [Function.update_self]
  exact ht

theorem contexts_of_good {t : Thread} (h : Good type t) :
    t.deleted.Nodup ∧ (∀ c ∈ t.deleted, c < t.created) ∧
      (∀ c, t.current = some c ∨ (∃ f ∈ t.frames, f.context = c) → c ∉ t.deleted) ∧
      ∀ c < t.created, c ∉ t.deleted →
        t.current = some c ∨ ∃ f ∈ t.frames, f.context = c := by
  refine ⟨h.deleted.1, fun c hc => (h.deleted.2 c hc).1, fun c hused hc => ?_,
    fun c hlt hkept => ?_⟩
  · have hnone := (h.deleted.2 c hc).2
    rcases hused with hcurr | ⟨f, hf, rfl⟩
    · obtain ⟨list, hlist⟩ := h.current c hcurr
      cases hlist.symm.trans hnone
    · obtain ⟨list, hlist, -⟩ := h.frames f hf
      cases hlist.symm.trans hnone
  · cases hc : t.contexts c with
    | none => exact absurd (h.dead c hlt hc) hkept
    | some list =>
      have hlive := h.live c list hc
      refine hlive.held.imp_right fun hempty => ?_
      have hpos := hempty.1
      rw [hlive.depth] at hpos
      obtain ⟨f, hf, heq⟩ := List.countP_pos_iff.mp hpos
      exact ⟨f, hf, beq_iff_eq.mp heq⟩

/-- The calls of a thread that runs no nested loop are in the order of the Notify calls. -/
theorem calls_in_order {actions : List Action} {s : State} {th : Nat}
    (h : run (step env type) actions create = some s)
    (hflat : EachStep (step env type) (fun s action => action = .runTask th → (s th).frames = [])
      actions create) : ((s th).runs.map Run.notification).Pairwise (· ≤ ·) := by
  have hrule : ∀ s action s', (Good type (s th) ∧ Ordered (s th) ∧ Flat (s th)) →
      (action = .runTask th → (s th).frames = []) → step env type s action = some s' →
      Good type (s' th) ∧ Ordered (s' th) ∧ Flat (s' th) := by
    rintro s action s' ⟨hgood, hord, hflat⟩ hcond hstep
    have hevents := step_thread hstep th
    rcases eventsOn_single env th action with hnone | ⟨event, hone, hloop⟩
    · rw [hnone] at hevents
      obtain hsame := Option.some.inj hevents
      rw [← hsame]
      exact ⟨hgood, hord, hflat⟩
    · rw [hone] at hevents
      obtain ⟨t, hevent, hrest⟩ := run_cons_some hevents
      cases hrest
      exact ⟨handle_good hgood hevent, handle_ordered hgood hord hevent,
        handle_flat hgood hord hflat (fun heq => hcond (hloop heq)) hevent⟩
  have hcreate : Flat .create := ⟨Nat.zero_le _, List.Pairwise.nil, nofun⟩
  exact (run_invariant_of_each hrule h hflat ⟨create_good, create_ordered, hcreate⟩).2.2.runs

/-- Over every run of the threads: who stays registered is called once for each notification, no
one else is called, a thread takes up its notifications in the order of the Notify calls and calls
for one before its later ones unless a callback of it runs a nested loop, and every context is
deleted once, and not before the map and the NotifyWrappers are done with it. -/
theorem notifications_delivered (env : Threads) (type : NotificationType) (actions : List Action)
    (s : State) (h : run (step env type) actions create = some s) :
    (∀ before after obs, actions = before ++ .notify :: after →
      registeredBy env obs before = true → Action.removeObserver obs ∉ after →
      Processed (s (env.thread obs)) (before.count .notify) →
      callsFor (s (env.thread obs)) obs (before.count .notify) = 1) ∧
    (∀ th s' call, step env type s (.next th) = some s' → (s' th).runs = (s th).runs ++ [call] →
      (env.thread call.observer = th ∧ registeredBy env call.observer actions = true) ∧
      (∀ task ∈ (s th).queue, call.notification < task.notification) ∧
      ∃ f frames, (s th).frames = f :: frames ∧ f.notification = call.notification ∧
        ∀ g ∈ frames, g.notification < call.notification) ∧
    (∀ th, EachStep (step env type) (fun s action => action = .runTask th → (s th).frames = [])
      actions create → ((s th).runs.map Run.notification).Pairwise (· ≤ ·)) ∧
    ∀ th, (s th).deleted.Nodup ∧ (∀ c ∈ (s th).deleted, c < (s th).created) ∧
      (∀ c, (s th).current = some c ∨ (∃ f ∈ (s th).frames, f.context = c) →
        c ∉ (s th).deleted) ∧
      ∀ c < (s th).created, c ∉ (s th).deleted →
        (s th).current = some c ∨ ∃ f ∈ (s th).frames, f.context = c := by
  refine ⟨?_, ?_, fun th => calls_in_order h,
    fun th => contexts_of_good (run_thread_after h th).good⟩
  · rintro before after obs rfl hregistered hstays hprocessed
    exact called_once h hregistered hstays hprocessed
  · intro th s' call hstep hruns
    have hafter := run_thread_after h th
    obtain ⟨hregistered, f, frames, hframes, hnotification⟩ :=
      next_registered hafter.good (next_thread hstep) hruns
    have hevents := (hafter.registered call.observer).mp hregistered
    have hthread := registered_thread hevents
    have htop : f ∈ (s th).frames := by simp [hframes]
    have hsorted := hafter.ordered.frames
    rw [hframes, List.map_cons, List.pairwise_cons] at hsorted
    refine ⟨⟨hthread, ?_⟩, fun task htask => ?_, f, frames, hframes, hnotification.symm,
      fun g hg => ?_⟩
    · rw [registeredBy, hthread]
      exact hevents
    · rw [hnotification]
      exact hafter.ordered.apart f htop task htask
    · rw [hnotification]
      exact hsorted.1 _ (List.mem_map_of_mem hg)

/-- One thread with two observers. -/
def oneThread : Threads where
  thread := fun _ => 0
  messageLoop := fun _ => true

/-- Two observers are notified, and one of them is called. -/
theorem notifications_delivered_one :
    ∃ s, run (step oneThread .notifyAll)
      [.addObserver 0, .notify, .runTask 0, .next 0, .next 0] create = some s ∧
      callsFor (s 0) 0 0 = 1 := by
  have hrun : ∃ s, run (step oneThread .notifyAll)
      [.addObserver 0, .notify, .runTask 0, .next 0, .next 0] create = some s ∧
      (s 0).queue = [] ∧ (s 0).frames = [] := ⟨_, rfl, rfl, rfl⟩
  obtain ⟨s, hs, hqueue, hframes⟩ := hrun
  obtain ⟨honce, -⟩ := notifications_delivered oneThread .notifyAll _ s hs
  refine ⟨s, hs, honce [.addObserver 0] [.runTask 0, .next 0, .next 0] 0 rfl rfl (by decide) ?_⟩
  refine ⟨fun task htask => ?_, fun f hf => ?_⟩
  · rw [show oneThread.thread 0 = 0 from rfl, hqueue] at htask
    cases htask
  · rw [show oneThread.thread 0 = 0 from rfl, hframes] at hf
    cases hf

/-- In its callback for the first notification the first observer runs a nested loop, which
processes the second one: the second observer is called for the second notification first. -/
theorem nested_loop_overtakes :
    ∃ s, run (step oneThread .notifyAll)
      [.addObserver 0, .addObserver 1, .notify, .notify, .runTask 0, .next 0, .runTask 0, .next 0,
        .next 0, .next 0, .next 0] create = some s ∧
      (s 0).runs = [⟨0, 0⟩, ⟨0, 1⟩, ⟨1, 1⟩, ⟨1, 0⟩] ∧
      ¬ ((s 0).runs.map Run.notification).Pairwise (· ≤ ·) := by
  have hrun : ∃ s, run (step oneThread .notifyAll)
      [.addObserver 0, .addObserver 1, .notify, .notify, .runTask 0, .next 0, .runTask 0, .next 0,
        .next 0, .next 0, .next 0] create = some s ∧
      (s 0).runs = [⟨0, 0⟩, ⟨0, 1⟩, ⟨1, 1⟩, ⟨1, 0⟩] := ⟨_, rfl, rfl⟩
  obtain ⟨s, hs, hruns⟩ := hrun
  refine ⟨s, hs, hruns, ?_⟩
  rw [hruns]
  decide

end ChromiumUI.ObserverListThreadSafe
