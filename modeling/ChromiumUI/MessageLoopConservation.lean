import ChromiumUI.MessageLoop

/-!
# No task of a MessageLoop is lost, doubled or early

Every callback moves tasks between the queues and takes at most one out, for every schedule of
the callbacks and of the threads that post.
-/
namespace ChromiumUI.MessageLoop

open Runs List Nat State

variable {s t : State} {l l' : Loop} {timed : Bool} {runDepth now : Nat}

/-! ## Counting the queues -/

/-- The tasks in the four queues. -/
def Loop.queued (l : Loop) : List PendingTask :=
  l.incomingQueue ++ l.workQueue ++ l.delayedWorkQueue.map DelayedTask.pending ++
    l.deferredNonNestableWorkQueue

theorem count_queued (l : Loop) (x : PendingTask) : l.queued.count x =
    l.incomingQueue.count x + l.workQueue.count x +
      (l.delayedWorkQueue.map DelayedTask.pending).count x +
      l.deferredNonNestableWorkQueue.count x := by
  rw [Loop.queued, count_append, count_append, count_append]

theorem count_popTop {queue rest : List DelayedTask} {top : DelayedTask}
    (h : popTop queue = some (top, rest)) (x : PendingTask) :
    (queue.map DelayedTask.pending).count x =
      (if top.pending = x then 1 else 0) + (rest.map DelayedTask.pending).count x := by
  rw [((popTop_perm h).map DelayedTask.pending).count_eq, map_cons, count_cons]
  simp only [beq_iff_eq]
  omega

theorem Move.count (h : Move timed runDepth now l l') (x : PendingTask) :
    l'.queued.count x = l.queued.count x := by
  rw [count_queued, count_queued]
  cases h with
  | reload _ hempty =>
    rw [hempty]
    simp only [count_nil]
    omega
  | delay task rest _ hwork _ =>
    rw [hwork]
    simp only [Loop.addToDelayedWorkQueue, map_append, map_cons, map_nil,
      count_append, count_cons, count_nil]
    omega
  | defer task rest _ _ hwork _ _ =>
    rw [hwork]
    simp only [count_append, count_cons, count_nil]
    omega
  | deferDelayed top rest _ _ htop _ _ =>
    rw [count_popTop htop]
    simp only [count_append, count_cons, count_nil, beq_iff_eq]
    omega
  | look time _ => rfl

theorem Take.count {task : PendingTask} (h : Take timed runDepth l task l') (x : PendingTask) :
    l.queued.count x = (if task = x then 1 else 0) + l'.queued.count x := by
  rw [count_queued, count_queued]
  cases h with
  | work task rest _ _ hwork _ _ =>
    rw [hwork, count_cons]
    simp only [beq_iff_eq]
    omega
  | delayed top rest _ _ htop _ _ =>
    rw [count_popTop htop]
    dsimp only
    omega
  | deferred task rest _ hdefer =>
    rw [hdefer, count_cons]
    simp only [beq_iff_eq]
    omega

/-! ## The invariant -/

/-- Each accepted task is in one queue or has started, and none has started too early or too
deep. -/
structure Conserved (s : State) : Prop where
  count : ∀ x, s.accepted.count x =
    s.loop.queued.count x + (s.started.map Start.task).count x
  ids : s.accepted.map PendingTask.id = range s.accepted.length
  recent : s.loop.recentTime ≤ s.now
  deferred : ∀ x ∈ s.loop.deferredNonNestableWorkQueue, x.delayedRunTime ≤ s.now
  time : ∀ x ∈ s.started, x.task.delayedRunTime ≤ x.time
  depth : ∀ x ∈ s.started, x.task.nestable = true ∨ x.runDepth = 1

theorem Conserved.create (now : Nat) : Conserved (.create now) where
  count _ := rfl
  ids := rfl
  recent := zero_le _
  deferred := nofun
  time := nofun
  depth := nofun

theorem Conserved.move (h : Conserved s) (hmove : Move timed s.runDepth s.now s.loop l') :
    Conserved { s with loop := l' } :=
  { h with
    count := by
      intro x
      rw [h.count, hmove.count]
    recent := by
      cases hmove with
      | look time htime => exact htime
      | _ => exact h.recent
    deferred := by
      cases hmove with
      | defer task rest _ _ _ htime _ =>
        intro x hx
        obtain hx | hx := mem_append.mp hx
        · exact h.deferred x hx
        · obtain rfl := mem_singleton.mp hx
          exact htime ▸ zero_le _
      | deferDelayed top rest _ _ _ htime _ =>
        intro x hx
        obtain hx | hx := mem_append.mp hx
        · exact h.deferred x hx
        · obtain rfl := mem_singleton.mp hx
          exact le_trans htime h.recent
      | _ => exact h.deferred }

theorem Conserved.take (h : Conserved s) {task : PendingTask}
    (htake : Take timed s.runDepth s.loop task l') : Conserved ({ s with loop := l' }.runTask task) where
  count x := by
    have := h.count x
    have := htake.count x
    show s.accepted.count x = l'.queued.count x + ((s.started ++ [_]).map Start.task).count x
    rw [map_append, count_append, map_singleton, count_singleton]
    simp only [beq_iff_eq]
    omega
  ids := h.ids
  recent := by
    cases htake <;> exact h.recent
  deferred := by
    cases htake with
    | deferred task rest _ hdefer =>
      intro x hx
      exact h.deferred x (hdefer ▸ mem_cons_of_mem _ hx)
    | _ => exact h.deferred
  time := by
    intro x hx
    obtain hx | hx := mem_append.mp hx
    · exact h.time x hx
    · obtain rfl := mem_singleton.mp hx
      cases htake with
      | work task rest _ _ _ htime _ => exact htime ▸ zero_le _
      | delayed top rest _ _ _ htime _ => exact le_trans htime h.recent
      | deferred task rest _ hdefer => exact h.deferred _ (hdefer ▸ mem_cons_self)
  depth := by
    intro x hx
    obtain hx | hx := mem_append.mp hx
    · exact h.depth x hx
    · obtain rfl := mem_singleton.mp hx
      cases htake with
      | work task rest _ _ _ _ hruns => exact hruns
      | delayed top rest _ _ _ _ hruns => exact hruns
      | deferred task rest hdepth _ => exact .inr hdepth

theorem Conserved.after (h : Conserved s) {found : Option PendingTask}
    (hacts : Acts timed s.runDepth s.now s.loop found l') : Conserved (s.after found l') := by
  obtain ⟨l₁, hmoves, hend⟩ := hacts
  have hmoved : Conserved { s with loop := l₁ } := by
    clear hend
    induction hmoves with
    | refl => exact h
    | tail _ hmove ih => exact ih.move hmove
  obtain ⟨rfl, rfl⟩ | ⟨task, rfl, htake⟩ := hend
  · exact hmoved
  · exact hmoved.take htake

/-- The steps in which a callback is called. -/
theorem step_doWork (hstep : s.step .doWork = some t) :
    t = s ∨ s.loop.nestableTasksAllowed = true ∧
      ∃ found l', Acts false s.runDepth s.now s.loop found l' ∧ t = s.after found l' := by
  simp only [step] at hstep
  split at hstep
  · cases hstep
  · split at hstep
    · exact .inl (Option.some.inj hstep).symm
    · rename_i hallow
      rw [Bool.not_eq_true', Bool.not_eq_false] at hallow
      exact .inr ⟨hallow, _, _, doWorkTurn_acts s.loop hallow, (Option.some.inj hstep).symm⟩

theorem step_doDelayedWork (hstep : s.step .doDelayedWork = some t) :
    ∃ found l', Acts true s.runDepth s.now s.loop found l' ∧ t = s.after found l' ∧
      (found = none ∨ s.loop.nestableTasksAllowed = true) := by
  simp only [step] at hstep
  split at hstep
  · cases hstep
  · refine ⟨_, _, doDelayedWork_acts s.loop, (Option.some.inj hstep).symm, ?_⟩
    by_cases hallow : s.loop.nestableTasksAllowed = true
    · exact .inr hallow
    · rw [Bool.not_eq_true] at hallow
      simp [Loop.doDelayedWork, hallow]

theorem step_doIdleWork (hstep : s.step .doIdleWork = some t) :
    ∃ found l', Acts false s.runDepth s.now s.loop found l' ∧ t = s.after found l' := by
  simp only [step] at hstep
  split at hstep
  · cases hstep
  · exact ⟨_, _, processNextDelayedNonNestableTask_acts s.loop, (Option.some.inj hstep).symm⟩

theorem Conserved.addToIncomingQueue (h : Conserved s) (k : Nat) (task : PendingTask)
    (hid : task.id = s.accepted.length) :
    Conserved { s with
      loop := (s.loop.addToIncomingQueue task).2
      posters := s.posters.eraseIdx k
      accepted := s.accepted ++ [task] } :=
  { h with
    count := by
      intro x
      have := h.count x
      rw [count_queued] at this
      rw [count_queued]
      simp only [Loop.addToIncomingQueue, count_append]
      omega
    ids := by
      rw [map_append, map_singleton, h.ids, hid, length_append,
        length_singleton, range_succ] }

theorem Conserved.step (h : Conserved s) {a : State.Action} (hstep : s.step a = some t) :
    Conserved t := by
  cases a with
  | tick ticks =>
    cases hstep
    exact { h with
      recent := le_add_right_of_le h.recent
      deferred := fun x hx => le_add_right_of_le (h.deferred x hx) }
  | post task nestable delayMs | setNestableTasksAllowed allowed | run =>
    cases hstep
    exact { h with }
  | addToIncomingQueue k =>
    simp only [State.step] at hstep
    split at hstep
    · cases hstep
      exact h.addToIncomingQueue k _ rfl
    · cases hstep
  | endRun | finishTask =>
    simp only [State.step] at hstep
    split at hstep
    · cases hstep
      exact { h with }
    · cases hstep
  | doWork =>
    obtain rfl | ⟨-, found, l', hacts, rfl⟩ := step_doWork hstep
    · exact h
    · exact h.after hacts
  | doDelayedWork =>
    obtain ⟨found, l', hacts, rfl, -⟩ := step_doDelayedWork hstep
    exact h.after hacts
  | doIdleWork =>
    obtain ⟨found, l', hacts, rfl⟩ := step_doIdleWork hstep
    exact h.after hacts

theorem conserved_run {as : List State.Action} (h : run step as (.create now) = some s) :
    Conserved s :=
  run_invariant (fun _ _ _ hs hstep => hs.step hstep) h (.create now)

theorem Conserved.accepted_nodup (h : Conserved s) : s.accepted.Nodup := by
  refine Nodup.of_map PendingTask.id ?_
  rw [h.ids]
  exact nodup_range

/-! ## Nestable tasks -/

theorem Move.allowed (h : Move timed runDepth now l l') :
    l'.nestableTasksAllowed = l.nestableTasksAllowed := by
  cases h <;> rfl

theorem Take.allowed {task : PendingTask} (h : Take timed runDepth l task l') :
    l'.nestableTasksAllowed = l.nestableTasksAllowed := by
  cases h <;> rfl

/-- What a callback adds to the tasks that have started. -/
theorem after_started {found : Option PendingTask}
    (hacts : Acts timed s.runDepth s.now s.loop found l') :
    (s.after found l').started = s.started ++
      found.toList.map fun task => ⟨task, s.runDepth, s.loop.nestableTasksAllowed, s.now⟩ := by
  obtain ⟨l₁, hmoves, hend⟩ := hacts
  have hkept : l₁.nestableTasksAllowed = s.loop.nestableTasksAllowed := by
    clear hend
    induction hmoves with
    | refl => rfl
    | tail _ hmove ih => exact hmove.allowed.trans ih
  obtain ⟨rfl, -⟩ | ⟨task, rfl, htake⟩ := hend
  · exact (append_nil _).symm
  · rw [← hkept, ← htake.allowed]
    rfl

/-- DoIdleWork that has a task to start comes while nestable tasks are allowed. -/
def IdleAllowed (s : State) (a : State.Action) : Prop :=
  a = .doIdleWork → s.runDepth = 1 → s.loop.deferredNonNestableWorkQueue ≠ [] →
    s.loop.nestableTasksAllowed = true

/-- Every task that has started found nestable tasks allowed. -/
def State.StartedAllowed (s : State) : Prop :=
  ∀ x ∈ s.started, x.nestableTasksAllowed = true

theorem startedAllowed_append {x : Start} (h : t.started = s.started ++ [x]) :
    t.StartedAllowed ↔ s.StartedAllowed ∧ x.nestableTasksAllowed = true := by
  simp [State.StartedAllowed, h, or_imp, forall_and]

theorem startedAllowed_step {a : State.Action} (hstep : s.step a = some t) :
    t.StartedAllowed ↔ s.StartedAllowed ∧ IdleAllowed s a := by
  -- only the callbacks start tasks
  have hkept : a ≠ .doIdleWork → t.started = s.started →
      (t.StartedAllowed ↔ s.StartedAllowed ∧ IdleAllowed s a) := by
    intro hidle hstart
    rw [State.StartedAllowed, hstart]
    exact (and_iff_left fun h => absurd h hidle).symm
  have hchecked : a ≠ .doIdleWork → s.loop.nestableTasksAllowed = true →
      (∃ timed found l', Acts timed s.runDepth s.now s.loop found l' ∧ t = s.after found l') →
      (t.StartedAllowed ↔ s.StartedAllowed ∧ IdleAllowed s a) := by
    rintro hidle hallow ⟨timed, found, l', hacts, rfl⟩
    have hstart := after_started hacts
    cases found with
    | none => exact hkept hidle (by simpa using hstart)
    | some task =>
      rw [startedAllowed_append hstart]
      exact and_congr_right fun _ => ⟨fun _ h => absurd h hidle, fun _ => hallow⟩
  cases a with
  | doWork =>
    obtain rfl | ⟨hallow, hacts⟩ := step_doWork hstep
    · exact hkept nofun rfl
    · exact hchecked nofun hallow ⟨false, hacts⟩
  | doDelayedWork =>
    obtain ⟨found, l', hacts, rfl, rfl | hallow⟩ := step_doDelayedWork hstep
    · exact hkept nofun rfl
    · exact hchecked nofun hallow ⟨true, found, l', hacts, rfl⟩
  | doIdleWork =>
    simp only [step] at hstep
    split at hstep
    · cases hstep
    · cases hstep
      have hstart := after_started
        (@processNextDelayedNonNestableTask_acts false s.runDepth s.now s.loop)
      by_cases htaken : s.runDepth = 1 ∧ s.loop.deferredNonNestableWorkQueue ≠ []
      · obtain ⟨hdepth, hdefer⟩ := htaken
        obtain ⟨task, rest, heq⟩ := exists_cons_of_ne_nil hdefer
        have hfound : (s.loop.processNextDelayedNonNestableTask s.runDepth).1 = some task := by
          simp [Loop.processNextDelayedNonNestableTask, hdepth, heq]
        rw [hfound] at hstart
        rw [hfound, startedAllowed_append hstart]
        exact and_congr_right fun _ => ⟨fun h _ _ _ => h, fun h => h rfl hdepth hdefer⟩
      · have hfound : (s.loop.processNextDelayedNonNestableTask s.runDepth).1 = none := by
          unfold Loop.processNextDelayedNonNestableTask
          split
          · rfl
          · rename_i hdepth
            rw [not_not] at hdepth
            split
            · rfl
            · rename_i heq
              exact absurd ⟨hdepth, by simp [heq]⟩ htaken
        rw [hfound] at hstart
        rw [hfound, State.StartedAllowed, hstart, Option.toList_none,
          map_nil, append_nil]
        exact (and_iff_left fun _ hdepth hdefer => absurd ⟨hdepth, hdefer⟩ htaken).symm
  | tick ticks | post task nestable delayMs | setNestableTasksAllowed allowed | run =>
    cases hstep
    exact hkept nofun rfl
  | _ =>
    simp only [step] at hstep
    split at hstep
    · cases hstep
      exact hkept nofun rfl
    · cases hstep

theorem startedAllowed_run {as : List State.Action} {u : State} (h : run step as s = some u) :
    u.StartedAllowed ↔ s.StartedAllowed ∧ EachStep step IdleAllowed as s := by
  induction as generalizing s with
  | nil =>
    cases h
    exact (and_iff_left trivial).symm
  | cons a as ih =>
    obtain ⟨t, ht, hu⟩ := run_cons_some h
    rw [ih hu, startedAllowed_step ht, and_assoc]
    refine and_congr_right fun _ => and_congr_right fun _ => ⟨fun heach t' ht' => ?_, fun heach => ?_⟩
    · cases ht.symm.trans ht'
      exact heach
    · exact heach t ht

/-- In every run each accepted task is in one of the four queues or has started, once; none starts
before its time, and one that is not nestable starts at depth 1. All of them start while nestable
tasks are allowed iff DoIdleWork never takes a task while they are not. -/
theorem conservation {as : List State.Action} (h : run step as (.create now) = some s) :
    (∀ task ∈ s.accepted,
      s.loop.incomingQueue.count task + s.loop.workQueue.count task +
        (s.loop.delayedWorkQueue.map DelayedTask.pending).count task +
        s.loop.deferredNonNestableWorkQueue.count task + (s.started.map Start.task).count task = 1) ∧
    (∀ x ∈ s.started, x.task ∈ s.accepted ∧ (x.task.nestable = true ∨ x.runDepth = 1) ∧
      x.task.delayedRunTime ≤ x.time) ∧
    ((∀ x ∈ s.started, x.nestableTasksAllowed = true) ↔
      EachStep step IdleAllowed as (.create now)) := by
  have hinv := conserved_run h
  refine ⟨fun task htask => ?_, fun x hx => ⟨?_, hinv.depth x hx, hinv.time x hx⟩, ?_⟩
  · rw [← count_queued, ← hinv.count]
    exact count_eq_one_of_mem hinv.accepted_nodup htask
  · have hpos := count_pos_iff.mpr (mem_map_of_mem (f := Start.task) hx)
    have := hinv.count x.task
    exact count_pos_iff.mp (by omega)
  · refine (startedAllowed_run h).trans (and_iff_right ?_)
    exact nofun

/-- A task of 5 ms goes through three queues and starts when its time has come. -/
theorem conservation_delayed : ∃ s,
    run step [.post 0 true 5, .addToIncomingQueue 0, .run, .doWork, .doDelayedWork,
      .tick 5000, .doDelayedWork] (.create 1) = some s ∧
    s.started.map Start.time = [5001] ∧ ∀ x ∈ s.started, x.task.delayedRunTime ≤ x.time :=
  ⟨_, rfl, rfl, fun x hx => ((@conservation _ 1 [.post 0 true 5, .addToIncomingQueue 0, .run,
    .doWork, .doDelayedWork, .tick 5000, .doDelayedWork] rfl).2.1 x hx).2.2⟩

/-- A task that allows nestable tasks around a nested Run leaves a deferred task behind, and a
native loop inside it calls DoIdleWork. -/
theorem conservation_idle : ∃ s,
    run step [.post 0 true 0, .addToIncomingQueue 0, .run, .doWork,
      .setNestableTasksAllowed true, .run, .post 1 false 0, .addToIncomingQueue 0, .doWork, .endRun,
      .setNestableTasksAllowed false, .doIdleWork] (.create 1) = some s ∧
    s.started.map Start.nestableTasksAllowed = [true, false] ∧
    s.stack.map Frame.isRun = [false, false, true] :=
  ⟨_, rfl, rfl, rfl⟩

end ChromiumUI.MessageLoop
