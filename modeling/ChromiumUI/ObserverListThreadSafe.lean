import ChromiumUI.ObserverList

/-!
# ObserverListThreadSafe

The threads meet in Notify only, which posts to the loop of every context that is in the map; a
context is made on the thread it is filed under, with the loop of that thread, and its list is used
on this thread alone. So the state is what every thread has, and a context is known by its number
among those of its thread. Numbers, like the addresses of the source, are not used again. A call is
one step: what it does without list_lock_ no other thread reads, so that a Notify in between is one
before or after it.

A thread inside a callback may do anything: its frames are the NotifyWrappers it is in.
-/
namespace ChromiumUI.ObserverListThreadSafe

open Runs ObserverList Function

/-- A NotifyWrapper that was posted, by its context and the number of the Notify call. -/
structure Task where
  context : Nat
  notification : Nat
  deriving DecidableEq

/-- A NotifyWrapper that is iterating. -/
structure Frame where
  context : Nat
  notification : Nat
  iterator : Iterator
  deriving DecidableEq

/-- method.Run(obs), for the notification. -/
structure Run where
  observer : Nat
  notification : Nat
  deriving DecidableEq

/-- What a thread has. `current` is its entry in observer_lists_, `contexts` are those of its
contexts that are not deleted, and `notifications` counts the Notify calls of all threads. -/
structure Thread where
  current : Option Nat
  contexts : Nat → Option (ObserverListBase Nat)
  created : Nat
  deleted : List Nat
  queue : List Task
  frames : List Frame
  runs : List Run
  notifications : Nat

namespace Thread

def setList (c : Nat) (list : ObserverListBase Nat) (t : Thread) : Thread :=
  { t with contexts := update t.contexts c (some list) }

/-- delete context; -/
def deleteContext (c : Nat) (t : Thread) : Thread :=
  { t with
    contexts := update t.contexts c none
    deleted := t.deleted ++ [c] }

/-- observer_lists_[thread_id] = new ObserverListContext(type_) -/
def newContext (type : NotificationType) (t : Thread) : Thread :=
  { t with
    current := some t.created
    contexts := update t.contexts t.created (some ⟨[], 0, type⟩)
    created := t.created + 1 }

/-- AddObserver on a thread with a MessageLoop. -/
def addObserver (type : NotificationType) (obs : Nat) (t : Thread) : Option Thread :=
  let t := if t.current.isNone then t.newContext type else t
  t.current.bind fun c => (t.contexts c).map fun list => t.setList c (list.addObserver obs)

def removeObserver (obs : Nat) (t : Thread) : Option Thread :=
  match t.current with
  | none => some t
  | some c => (t.contexts c).map fun list =>
    let t := if list.hasObserver obs && list.size == 1 then { t with current := none } else t
    let list := list.removeObserver obs
    if list.size = 0 then t.deleteContext c else t.setList c list

/-- What a Notify call does for this thread. -/
def notify (t : Thread) : Thread :=
  { t with
    queue := match t.current with
      | none => t.queue
      | some c => t.queue ++ [⟨c, t.notifications⟩]
    notifications := t.notifications + 1 }

/-- The loop of the thread, possibly a nested one, starts its next NotifyWrapper. -/
def runTask (t : Thread) : Option Thread :=
  match t.queue with
  | [] => none
  | task :: queue =>
    let t := { t with queue := queue }
    if t.current = some task.context then
      (t.contexts task.context).map fun list =>
        { t.setList task.context list.newIterator.2 with
          frames := ⟨task.context, task.notification, list.newIterator.1⟩ :: t.frames }
    else some t

/-- The innermost NotifyWrapper calls GetNext, and the observer it gets; when there is none it is
done. -/
def next (t : Thread) : Option Thread :=
  match t.frames with
  | [] => none
  | frame :: frames => (t.contexts frame.context).map fun list =>
    match frame.iterator.getNext (some list) with
    | (some obs, it) =>
      { t with
        frames := { frame with iterator := it } :: frames
        runs := t.runs ++ [⟨obs, frame.notification⟩] }
    | (none, _) =>
      let t := { t with frames := frames }
      let list := list.endIterator
      if list.size = 0 then
        let current := if t.current = some frame.context then none else t.current
        { t with current := current }.deleteContext frame.context
      else t.setList frame.context list

/-- Before any call. -/
def create : Thread where
  current := none
  contexts := fun _ => none
  created := 0
  deleted := []
  queue := []
  frames := []
  runs := []
  notifications := 0

end Thread

/-- What happens on a thread. -/
inductive Event
  | addObserver (obs : Nat)
  | removeObserver (obs : Nat)
  | notify
  | runTask
  | next
  deriving DecidableEq

def handle (type : NotificationType) (t : Thread) : Event → Option Thread
  | .addObserver obs => t.addObserver type obs
  | .removeObserver obs => t.removeObserver obs
  | .notify => some t.notify
  | .runTask => t.runTask
  | .next => t.next

/-- What the threads do; each observer is added and removed on a thread of its own. -/
inductive Action
  | addObserver (obs : Nat)
  | removeObserver (obs : Nat)
  | notify
  | runTask (t : Nat)
  | next (t : Nat)
  deriving DecidableEq

abbrev State := Nat → Thread

/-- The threads of the observers, and whether a thread has a MessageLoop. -/
structure Threads where
  thread : Nat → Nat
  messageLoop : Nat → Bool

/-- The events of an action on this thread. -/
def eventsOn (env : Threads) (t : Nat) : Action → List Event
  | .addObserver obs =>
    if env.thread obs = t ∧ env.messageLoop t = true then [.addObserver obs] else []
  | .removeObserver obs => if env.thread obs = t then [.removeObserver obs] else []
  | .notify => [.notify]
  | .runTask t' => if t' = t then [.runTask] else []
  | .next t' => if t' = t then [.next] else []

def step (env : Threads) (type : NotificationType) (s : State) : Action → Option State
  | .addObserver obs =>
    -- without a MessageLoop it is impossible to notify, and the observer is not added
    if env.messageLoop (env.thread obs) then
      ((s (env.thread obs)).addObserver type obs).map (update s (env.thread obs))
    else some s
  | .removeObserver obs => ((s (env.thread obs)).removeObserver obs).map (update s (env.thread obs))
  | .notify => some fun t => (s t).notify
  | .runTask t => (s t).runTask.map (update s t)
  | .next t => (s t).next.map (update s t)

def create : State := fun _ => .create

/-! ## The contexts of a thread

A context that is not deleted has a slot at least, is iterated over by as many NotifyWrappers as
its list says, and is the one in the map unless it is empty and some NotifyWrapper will delete it. -/

open List Option Nat ObserverListBase

variable {type : NotificationType} {t t' : Thread} {c obs n : Nat}
  {list : ObserverListBase Nat}

/-! ## One list -/

/-- How many NotifyWrappers iterate over the context. -/
def iterating (frames : List Frame) (c : Nat) : Nat := frames.countP fun f => f.context == c

structure ListGood (type : NotificationType) (list : ObserverListBase Nat) : Prop where
  type_eq : list.type = type
  nonempty : 0 < list.size
  nodup : list.observers.reduceOption.Nodup
  full : list.notifyDepth = 0 → none ∉ list.observers

theorem hasObserver_iff : list.hasObserver obs = true ↔ some obs ∈ list.observers := by
  simp [hasObserver]

theorem newIterator_good (h : ListGood type list) : ListGood type list.newIterator.2 :=
  ⟨h.type_eq, h.nonempty, h.nodup, nofun⟩

theorem addObserver_good (h : ListGood type list) (obs : Nat) :
    ListGood type (list.addObserver obs) := by
  unfold addObserver
  split_ifs with hmem
  · exact h
  · refine ⟨h.type_eq, ?_, ?_, fun hdepth => ?_⟩
    · simp [ObserverListBase.size]
    · rw [reduceOption_append]
      refine nodup_append.mpr ⟨h.nodup, by simp, ?_⟩
      intro a ha b hb
      have hab : b = obs := by simpa using hb
      rintro rfl
      rw [hab] at ha
      exact hmem (reduceOption_mem_iff.mp ha)
    · simpa using h.full hdepth

/-- Which observers a list has after RemoveObserver. -/
theorem mem_removeObserver (hnodup : list.observers.reduceOption.Nodup) {o : Nat} :
    some o ∈ (list.removeObserver obs).observers ↔ some o ∈ list.observers ∧ o ≠ obs := by
  have hobservers : (list.removeObserver obs).observers.reduceOption =
      list.observers.reduceOption.erase obs := by
    unfold removeObserver
    split_ifs
    · exact reduceOption_replace _ _
    · exact reduceOption_erase _ _
  rw [← reduceOption_mem_iff, hobservers, hnodup.mem_erase_iff, reduceOption_mem_iff,
    and_comm]

theorem removeObserver_size : (list.removeObserver obs).size =
    if list.notifyDepth = 0 ∧ some obs ∈ list.observers then list.size - 1 else list.size := by
  unfold ObserverListBase.removeObserver ObserverListBase.size
  by_cases hdepth : list.notifyDepth = 0
  · by_cases hmem : some obs ∈ list.observers
    · simp [hdepth, hmem, length_erase_of_mem]
    · simp [hdepth, hmem, erase_of_not_mem]
  · simp [hdepth]

theorem removeObserver_depth : (list.removeObserver obs).notifyDepth = list.notifyDepth := by
  unfold removeObserver
  split_ifs <;> rfl

theorem removeObserver_good (h : ListGood type list) (hsize : (list.removeObserver obs).size ≠ 0) :
    ListGood type (list.removeObserver obs) := by
  refine ⟨?_, Nat.pos_of_ne_zero hsize, ?_, fun hdepth => ?_⟩
  · unfold removeObserver
    split_ifs <;> exact h.type_eq
  · unfold removeObserver
    split_ifs
    · rw [reduceOption_replace]
      exact h.nodup.erase obs
    · rw [reduceOption_erase]
      exact h.nodup.erase obs
  · rw [removeObserver_depth] at hdepth
    unfold removeObserver
    rw [if_neg (not_not.mpr hdepth)]
    exact fun hmem => h.full hdepth (mem_of_mem_erase hmem)

theorem endIterator_observers : list.endIterator.observers.reduceOption =
    list.observers.reduceOption := by
  unfold endIterator
  dsimp only
  split_ifs
  · exact reduceOption_filter_isSome _
  · rfl

theorem mem_endIterator {o : Nat} :
    some o ∈ list.endIterator.observers ↔ some o ∈ list.observers := by
  rw [← reduceOption_mem_iff, endIterator_observers, reduceOption_mem_iff]

theorem endIterator_depth : list.endIterator.notifyDepth = list.notifyDepth - 1 := by
  unfold endIterator compact
  dsimp only
  split_ifs <;> rfl

theorem endIterator_good (h : ListGood type list) (hsize : list.endIterator.size ≠ 0) :
    ListGood type list.endIterator := by
  refine ⟨?_, Nat.pos_of_ne_zero hsize, ?_, fun hdepth => ?_⟩
  · unfold endIterator compact
    dsimp only
    split_ifs <;> exact h.type_eq
  · rw [endIterator_observers]
    exact h.nodup
  · rw [endIterator_depth] at hdepth
    unfold endIterator compact
    rw [if_pos hdepth]
    simp

/-- An iterator that others stay around is not the last: the slots are kept. -/
theorem endIterator_keeps (hdepth : 1 < list.notifyDepth) :
    list.endIterator.observers = list.observers := by
  unfold endIterator
  dsimp only
  rw [if_neg (by omega)]

theorem endIterator_size_pos (hmem : some obs ∈ list.observers) : list.endIterator.size ≠ 0 := by
  have hpos := length_pos_of_mem (mem_endIterator.mpr hmem)
  exact ne_of_gt hpos

/-! ## One thread -/

/-- The index of an iterator is in bounds. -/
def InBounds (it : Iterator) (list : ObserverListBase Nat) : Prop :=
  it.index ≤ it.bound list.size ∧ ∀ m ∈ it.maxIndex, m ≤ list.size

structure Live (type : NotificationType) (t : Thread) (c : Nat) (list : ObserverListBase Nat) :
    Prop where
  created : c < t.created
  good : ListGood type list
  depth : list.notifyDepth = iterating t.frames c
  held : t.current = some c ∨ 0 < list.notifyDepth ∧ list.observers.reduceOption = []

structure Good (type : NotificationType) (t : Thread) : Prop where
  current : ∀ c, t.current = some c → ∃ list, t.contexts c = some list
  frames : ∀ f ∈ t.frames, ∃ list, t.contexts f.context = some list ∧ InBounds f.iterator list
  live : ∀ c list, t.contexts c = some list → Live type t c list
  dead : ∀ c, c < t.created → t.contexts c = none → c ∈ t.deleted
  deleted : t.deleted.Nodup ∧ ∀ c ∈ t.deleted, c < t.created ∧ t.contexts c = none
  tasks : ∀ task ∈ t.queue, task.context < t.created

theorem setList_self (t : Thread) (c : Nat) (list : ObserverListBase Nat) :
    (t.setList c list).contexts c = some list := update_self ..

theorem setList_other {c' : Nat} (h : c' ≠ c) : (t.setList c list).contexts c' = t.contexts c' :=
  update_of_ne h _ _

theorem inBounds_mono {it : Iterator} {list list' : ObserverListBase Nat}
    (hsize : list.size ≤ list'.size) (h : InBounds it list) : InBounds it list' := by
  obtain ⟨hindex, hmax⟩ := h
  refine ⟨?_, fun m hm => le_trans (hmax m hm) hsize⟩
  unfold Iterator.bound at *
  cases hm : it.maxIndex with
  | none =>
    rw [hm] at hindex
    exact le_trans hindex hsize
  | some m =>
    rw [hm] at hindex
    obtain ⟨hm', hsize'⟩ := Nat.le_min.mp hindex
    exact Nat.le_min.mpr ⟨hm', Nat.le_trans hsize' hsize⟩

section

variable (h : Good type t)
include h

/-- A list changes, and with it the frames that iterate over it. -/
theorem Good.setFrames {list' : ObserverListBase Nat} {frames : List Frame}
    (hlist : t.contexts c = some list) (hgood : ListGood type list')
    (hdepth : list'.notifyDepth = iterating frames c)
    (hsame : ∀ c', c' ≠ c → iterating frames c' = iterating t.frames c')
    (hframe : ∀ f ∈ frames, if f.context = c then InBounds f.iterator list' else f ∈ t.frames)
    (hheld : t.current = some c ∨ 0 < list'.notifyDepth ∧ list'.observers.reduceOption = []) :
    Good type { t.setList c list' with frames := frames } := by
  have hlive := h.live c list hlist
  refine ⟨fun c' hc' => ?_, fun f hf => ?_, fun c' l hl => ?_, fun c' hc' hnone => ?_,
    ⟨h.deleted.1, fun c' hc' => ?_⟩, h.tasks⟩
  · by_cases heq : c' = c
    · subst heq
      exact ⟨list', setList_self ..⟩
    · obtain ⟨l, hl⟩ := h.current c' hc'
      exact ⟨l, (setList_other heq).trans hl⟩
  · have hbounds := hframe f hf
    by_cases heq : f.context = c
    · rw [if_pos heq] at hbounds
      exact ⟨list', by rw [heq]; exact setList_self .., hbounds⟩
    · rw [if_neg heq] at hbounds
      obtain ⟨l, hl, hin⟩ := h.frames f hbounds
      exact ⟨l, (setList_other heq).trans hl, hin⟩
  · by_cases heq : c' = c
    · subst heq
      have hl' : some list' = some l := (setList_self t c' list').symm.trans hl
      cases hl'
      exact ⟨hlive.created, hgood, hdepth, hheld⟩
    · have hold := h.live c' l ((setList_other heq).symm.trans hl)
      exact ⟨hold.created, hold.good, hold.depth.trans (hsame c' heq).symm, hold.held⟩
  · by_cases heq : c' = c
    · subst heq
      cases (setList_self t c' list').symm.trans hnone
    · exact h.dead c' hc' ((setList_other heq).symm.trans hnone)
  · obtain ⟨hlt, hnone⟩ := h.deleted.2 c' hc'
    have heq : c' ≠ c := by
      rintro rfl
      cases hlist.symm.trans hnone
    exact ⟨hlt, (setList_other heq).trans hnone⟩

/-- The frames stay. -/
theorem Good.setList {list' : ObserverListBase Nat}
    (hlist : t.contexts c = some list) (hgood : ListGood type list')
    (hdepth : list'.notifyDepth = list.notifyDepth)
    (hsize : list.notifyDepth ≠ 0 → list.size ≤ list'.size)
    (hheld : t.current = some c ∨ 0 < list'.notifyDepth ∧ list'.observers.reduceOption = []) :
    Good type (t.setList c list') := by
  have hlive := h.live c list hlist
  refine @Good.setFrames type t c list h list' t.frames hlist hgood (hdepth.trans hlive.depth)
    (fun _ _ => rfl) (fun f hf => ?_) hheld
  split_ifs with heq
  · obtain ⟨l, hl, hbounds⟩ := h.frames f hf
    rw [heq] at hl
    cases hl.symm.trans hlist
    refine inBounds_mono (hsize ?_) hbounds
    have hpos : 0 < iterating t.frames c := countP_pos_iff.mpr ⟨f, hf, beq_iff_eq.mpr heq⟩
    rw [hlive.depth]
    exact ne_of_gt hpos
  · exact hf

/-- A context is deleted when no frame iterates over it, and it leaves the map. -/
theorem Good.deleteContext {frames : List Frame} {current : Option Nat}
    (hlist : t.contexts c = some list) (hframe : ∀ f ∈ frames, f ∈ t.frames)
    (hnone : iterating frames c = 0)
    (hsame : ∀ c', c' ≠ c → iterating frames c' = iterating t.frames c')
    (hcurr : ∀ c', current = some c' ↔ t.current = some c' ∧ c' ≠ c) :
    Good type { t.deleteContext c with frames := frames, current := current } := by
  have hlive := h.live c list hlist
  have hother : ∀ {c'}, c' ≠ c → (t.deleteContext c).contexts c' = t.contexts c' := fun hne =>
    update_of_ne hne _ _
  have hself : (t.deleteContext c).contexts c = none := update_self ..
  refine ⟨fun c' hc' => ?_, fun f hf => ?_, fun c' l hl => ?_, fun c' hc' hnone => ?_,
    ⟨?_, fun c' hc' => ?_⟩, h.tasks⟩
  · obtain ⟨hold, hne⟩ := (hcurr c').mp hc'
    obtain ⟨l, hl⟩ := h.current c' hold
    exact ⟨l, (hother hne).trans hl⟩
  · obtain ⟨l, hl, hbounds⟩ := h.frames f (hframe f hf)
    have hne : f.context ≠ c := by
      intro heq
      have hpos : 0 < iterating frames c := countP_pos_iff.mpr ⟨f, hf, beq_iff_eq.mpr heq⟩
      omega
    exact ⟨l, (hother hne).trans hl, hbounds⟩
  · have hne : c' ≠ c := by
      rintro rfl
      cases hself.symm.trans hl
    have hold := h.live c' l ((hother hne).symm.trans hl)
    refine ⟨hold.created, hold.good, hold.depth.trans (hsame c' hne).symm, ?_⟩
    exact hold.held.imp_left fun hheld => (hcurr c').mpr ⟨hheld, hne⟩
  · by_cases heq : c' = c
    · exact mem_append_right _ (by simp [heq])
    · exact mem_append_left _ (h.dead c' hc' ((hother heq).symm.trans hnone))
  · refine nodup_append.mpr ⟨h.deleted.1, by simp, ?_⟩
    intro a ha b hb
    rintro rfl
    rw [mem_singleton.mp hb] at ha
    cases hlist.symm.trans (h.deleted.2 c ha).2
  · rcases mem_append.mp hc' with hc' | hc'
    · obtain ⟨hlt, hgone⟩ := h.deleted.2 c' hc'
      have hne : c' ≠ c := by
        rintro rfl
        cases hlist.symm.trans hgone
      exact ⟨hlt, (hother hne).trans hgone⟩
    · rw [mem_singleton.mp hc']
      exact ⟨hlive.created, hself⟩

/-- The entry of an empty context leaves the map. -/
theorem Good.leaveMap (hlist : t.contexts c = some list) (hcurr : t.current = some c)
    (hempty : 0 < list.notifyDepth ∧ list.observers.reduceOption = []) :
    Good type { t with current := none } := by
  refine ⟨nofun, h.frames, fun c' l hl => ?_, h.dead, h.deleted, h.tasks⟩
  have hold := h.live c' l hl
  refine ⟨hold.created, hold.good, hold.depth, .inr ?_⟩
  rcases hold.held with hheld | hheld
  · cases hcurr.symm.trans hheld
    cases hlist.symm.trans hl
    exact hempty
  · exact hheld

/-- A new context takes the entry of the thread. -/
theorem Good.newContext (hcurr : t.current = none)
    (hgood : ListGood type list) (hdepth : list.notifyDepth = 0) :
    Good type ((t.newContext type).setList t.created list) := by
  have hother : ∀ {c'}, c' ≠ t.created →
      ((t.newContext type).setList t.created list).contexts c' = t.contexts c' := by
    intro c' hne
    rw [setList_other hne]
    exact update_of_ne hne _ _
  have hself := setList_self (t.newContext type) t.created list
  have hold : ∀ c' l, t.contexts c' = some l → c' ≠ t.created := by
    rintro c' l hl rfl
    exact absurd (h.live _ l hl).created (lt_irrefl _)
  refine ⟨fun c' hc' => ?_, fun f hf => ?_, fun c' l hl => ?_, fun c' hc' hnone => ?_,
    ⟨h.deleted.1, fun c' hc' => ?_⟩, fun task htask => lt_succ_of_lt (h.tasks task htask)⟩
  · cases hc'
    exact ⟨list, hself⟩
  · obtain ⟨l, hl, hbounds⟩ := h.frames f hf
    exact ⟨l, (hother (hold _ l hl)).trans hl, hbounds⟩
  · by_cases heq : c' = t.created
    · subst heq
      cases hself.symm.trans hl
      refine ⟨lt_succ_self _, hgood, hdepth.trans ?_, .inl rfl⟩
      refine (countP_eq_zero.mpr fun f hf hctx => ?_).symm
      obtain ⟨l, hl, -⟩ := h.frames f hf
      exact hold _ l hl (beq_iff_eq.mp hctx)
    · have hlive := h.live c' l ((hother heq).symm.trans hl)
      refine ⟨lt_succ_of_lt hlive.created, hlive.good, hlive.depth, .inr ?_⟩
      rcases hlive.held with hheld | hheld
      · cases hcurr.symm.trans hheld
      · exact hheld
  · by_cases heq : c' = t.created
    · subst heq
      cases hself.symm.trans hnone
    · have hlt : c' < t.created := by
        have hsucc : c' < t.created + 1 := hc'
        omega
      exact h.dead c' hlt ((hother heq).symm.trans hnone)
  · obtain ⟨hlt, hnone⟩ := h.deleted.2 c' hc'
    exact ⟨Nat.lt_succ_of_lt hlt, (hother (Nat.ne_of_lt hlt)).trans hnone⟩

end

/-! ## What an event does -/

theorem addObserver_cases (h : Good type t) (hstep : t.addObserver type obs = some t') :
    (∃ c list, t.current = some c ∧ t.contexts c = some list ∧
        t' = t.setList c (list.addObserver obs)) ∨
      t.current = none ∧ t' = (t.newContext type).setList t.created ⟨[some obs], 0, type⟩ := by
  unfold Thread.addObserver at hstep
  cases hcurr : t.current with
  | none =>
    refine .inr ⟨rfl, ?_⟩
    simp only [hcurr, isNone_none, if_true] at hstep
    simp only [Thread.newContext, bind_some, update_self, map_some,
      some.injEq] at hstep
    exact hstep.symm
  | some c =>
    obtain ⟨list, hlist⟩ := h.current c hcurr
    refine .inl ⟨c, list, rfl, hlist, ?_⟩
    simp only [hcurr, isNone_some, Bool.false_eq_true, if_false, bind_some, hlist,
      map_some, some.injEq] at hstep
    exact hstep.symm

theorem removeObserver_cases (h : Good type t) (hstep : t.removeObserver obs = some t') :
    t.current = none ∧ t' = t ∨ ∃ c list, t.current = some c ∧ t.contexts c = some list ∧
      (list.observers = [some obs] ∧ list.notifyDepth = 0 ∧
          t' = { t.deleteContext c with current := none } ∨
        list.observers = [some obs] ∧ 0 < list.notifyDepth ∧
          t' = { t.setList c (list.removeObserver obs) with current := none } ∨
        list.observers ≠ [some obs] ∧ (list.removeObserver obs).size ≠ 0 ∧
          t' = t.setList c (list.removeObserver obs)) := by
  unfold Thread.removeObserver at hstep
  cases hcurr : t.current with
  | none =>
    rw [hcurr] at hstep
    exact .inl ⟨rfl, (some.inj hstep).symm⟩
  | some c =>
    obtain ⟨list, hlist⟩ := h.current c hcurr
    have hlive := h.live c list hlist
    refine .inr ⟨c, list, rfl, hlist, ?_⟩
    simp only [hcurr, hlist, map_some, some.injEq] at hstep
    have hsize := @removeObserver_size obs list
    by_cases hsingle : list.observers = [some obs]
    · have hlast : (list.hasObserver obs && list.size == 1) = true := by
        simp [ObserverListBase.hasObserver, ObserverListBase.size, hsingle]
      rw [if_pos hlast] at hstep
      by_cases hdepth : list.notifyDepth = 0
      · have hzero : (list.removeObserver obs).size = 0 := by
          rw [hsize, if_pos ⟨hdepth, by simp [hsingle]⟩]
          simp [ObserverListBase.size, hsingle]
        rw [if_pos hzero] at hstep
        exact .inl ⟨hsingle, hdepth, hstep.symm⟩
      · have hone : (list.removeObserver obs).size ≠ 0 := by
          rw [hsize, if_neg (fun hboth => hdepth hboth.1)]
          exact ne_of_gt hlive.good.nonempty
        rw [if_neg hone] at hstep
        exact Or.inr (Or.inl ⟨hsingle, Nat.pos_of_ne_zero hdepth, hstep.symm⟩)
    · have hmore : (list.hasObserver obs && list.size == 1) = false := by
        rw [Bool.eq_false_iff]
        intro hboth
        simp only [Bool.and_eq_true, beq_iff_eq] at hboth
        obtain ⟨hhas, hone⟩ := hboth
        obtain ⟨slot, hslot⟩ := length_eq_one_iff.mp hone
        have hmem := hasObserver_iff.mp hhas
        rw [hslot, mem_singleton] at hmem
        exact hsingle (by rw [hslot, hmem])
      have hrest : (list.removeObserver obs).size ≠ 0 := by
        rw [hsize]
        split_ifs with hboth
        · have hhas := hasObserver_iff.mpr hboth.2
          rw [hhas, Bool.true_and, beq_eq_false_iff_ne] at hmore
          have := hlive.good.nonempty
          omega
        · exact ne_of_gt hlive.good.nonempty
      rw [hmore, if_neg Bool.false_ne_true, if_neg hrest] at hstep
      exact .inr (Or.inr ⟨hsingle, hrest, hstep.symm⟩)

/-- Only the lists of the thread may differ, not what it has to do or has done. -/
structure SameTasks (t t' : Thread) : Prop where
  queue : t'.queue = t.queue
  frames : t'.frames = t.frames
  runs : t'.runs = t.runs
  notifications : t'.notifications = t.notifications

section

variable (h : Good type t)
include h

theorem addObserver_sameTasks (hstep : t.addObserver type obs = some t') : SameTasks t t' := by
  rcases addObserver_cases h hstep with ⟨c, list, -, -, rfl⟩ | ⟨-, rfl⟩ <;>
    exact ⟨rfl, rfl, rfl, rfl⟩

theorem removeObserver_sameTasks (hstep : t.removeObserver obs = some t') : SameTasks t t' := by
  rcases removeObserver_cases h hstep with ⟨-, rfl⟩ | ⟨c, list, -, -, hcases⟩
  · exact ⟨rfl, rfl, rfl, rfl⟩
  · rcases hcases with ⟨-, -, rfl⟩ | ⟨-, -, rfl⟩ | ⟨-, -, rfl⟩ <;> exact ⟨rfl, rfl, rfl, rfl⟩

theorem runTask_cases (hstep : t.runTask = some t') :
    ∃ task queue, t.queue = task :: queue ∧
      (t.current ≠ some task.context ∧ t' = { t with queue := queue } ∨
        t.current = some task.context ∧ ∃ list, t.contexts task.context = some list ∧
          t' = { t.setList task.context list.newIterator.2 with
            queue := queue
            frames := ⟨task.context, task.notification, list.newIterator.1⟩ :: t.frames }) := by
  unfold Thread.runTask at hstep
  cases hqueue : t.queue with
  | nil => simp [hqueue] at hstep
  | cons task queue =>
    refine ⟨task, queue, rfl, ?_⟩
    simp only [hqueue] at hstep
    split_ifs at hstep with hcurr
    · obtain ⟨list, hlist⟩ := h.current _ hcurr
      simp only [hlist, map_some, some.injEq] at hstep
      exact .inr ⟨hcurr, list, hlist, hstep.symm⟩
    · exact .inl ⟨hcurr, (some.inj hstep).symm⟩

theorem next_cases (hstep : t.next = some t') :
    ∃ f frames list, t.frames = f :: frames ∧ t.contexts f.context = some list ∧
      ((∃ k o, f.iterator.index ≤ k ∧ k < f.iterator.bound list.size ∧
          (∀ i, f.iterator.index ≤ i → i < k → list.observers[i]? = some none) ∧
          list.observers[k]? = some (some o) ∧
          t' = { t with
            frames := { f with iterator := { f.iterator with index := k + 1 } } :: frames
            runs := t.runs ++ [⟨o, f.notification⟩] }) ∨
        (∀ i, f.iterator.index ≤ i → i < f.iterator.bound list.size →
            list.observers[i]? = some none) ∧
          (list.endIterator.size = 0 ∧
              t' = { t.deleteContext f.context with
                frames := frames
                current := if t.current = some f.context then none else t.current } ∨
            list.endIterator.size ≠ 0 ∧
              t' = { t.setList f.context list.endIterator with frames := frames })) := by
  unfold Thread.next at hstep
  cases hframe : t.frames with
  | nil => simp [hframe] at hstep
  | cons f frames =>
    obtain ⟨list, hlist, hindex, -⟩ := h.frames f (by simp [hframe])
    refine ⟨f, frames, list, rfl, hlist, ?_⟩
    simp only [hframe, hlist, map_some, some.injEq] at hstep
    obtain ⟨k, hle, hkle, hnulls, hget⟩ := getNext_cases hindex
    rcases hget with ⟨o, ho, hlt, hget⟩ | ⟨hk, hget⟩
    · simp only [hget] at hstep
      exact .inl ⟨k, o, hle, hlt, hnulls, ho, hstep.symm⟩
    · simp only [hget] at hstep
      subst hk
      refine .inr ⟨hnulls, ?_⟩
      by_cases hsize : list.endIterator.size = 0
      · rw [if_pos hsize] at hstep
        exact .inl ⟨hsize, hstep.symm⟩
      · rw [if_neg hsize] at hstep
        exact .inr ⟨hsize, hstep.symm⟩

end

end ChromiumUI.ObserverListThreadSafe
