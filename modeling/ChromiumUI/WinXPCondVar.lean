import ChromiumUI.LinkedRings
import ChromiumUI.Runs
import Mathlib.Data.List.Perm.Subperm

/-!
# WinXPCondVar

Events are numbered as they are allocated, behind the two list heads, and the handle of an event is
its number. What a thread does with internal_lock_ held is one step; the handles it has taken it
signals one by one afterwards. An event is an auto-reset one: who waits on it takes the signal.
-/
namespace ChromiumUI.Base.WinXPCondVar

open LinkedRings Runs Function

/-- The holder of waiting_list_. -/
def waitingList : Nat := 0

/-- The holder of recycling_list_. -/
def recyclingList : Nat := 1

/-- The event that was allocated as the `n`th. -/
def eventAt (n : Nat) : Nat := n + 2

/-- Where a thread is: in TimedWait with its event, before the wait or behind it, or in Signal or
Broadcast with the stack of handles that are still to be set. -/
inductive Phase
  | outside
  | waiting (event : Nat) (timed : Bool)
  | woken (event : Nat)
  | signalling (handles : List Nat)
  deriving DecidableEq

/-- `returned` counts the waits of each thread that are over. -/
structure State where
  links : Links Nat
  signaled : Nat → Bool
  recyclingListSize : Nat
  allocationCounter : Nat
  phase : Nat → Phase
  returned : Nat → Nat

def isEmpty (list : Nat) (links : Links Nat) : Bool := links.next list = list

/-- Extract, possibly of an event that is in no list. -/
def extract (event : Nat) (links : Links Nat) : Links Nat :=
  if links.next event = event then links else links.extract event

def popFront (list : Nat) (links : Links Nat) : Nat × Links Nat :=
  (links.next list, extract (links.next list) links)

def popBack (list : Nat) (links : Links Nat) : Nat × Links Nat :=
  (links.prev list, extract (links.prev list) links)

namespace State

/-- new Event(), and InitListElement. -/
def newEvent (s : State) : Nat × State :=
  let event := eventAt s.allocationCounter
  (event, { s with
    links := ⟨update s.links.next event event, update s.links.prev event event⟩
    signaled := update s.signaled event false
    allocationCounter := s.allocationCounter + 1 })

/-- The event GetEventForWaiting takes, which it puts on the waiting list. -/
def takeEvent (s : State) : Nat × State :=
  if s.recyclingListSize = 0 then s.newEvent
  else
    let (event, links) := popFront recyclingList s.links
    (event, { s with links := links, recyclingListSize := s.recyclingListSize - 1 })

def getEventForWaiting (s : State) : Nat × State :=
  let (event, s) := s.takeEvent
  (event, { s with links := s.links.pushBack waitingList event })

def recycleEvent (usedEvent : Nat) (s : State) : State :=
  { s with
    links := (extract usedEvent s.links).pushBack recyclingList usedEvent
    recyclingListSize := s.recyclingListSize + 1 }

def setPhase (t : Nat) (phase : Phase) (s : State) : State :=
  { s with phase := update s.phase t phase }

/-- SetEvent. -/
def setEvent (handle : Nat) (s : State) : State :=
  { s with signaled := update s.signaled handle true }

/-- Signal with internal_lock_ held: the handles that are to be set. -/
def signal (s : State) : List Nat × State :=
  if isEmpty waitingList s.links then ([], s)
  else
    let (event, links) := popBack waitingList s.links
    ([event], { s with links := links })

/-- The loop of Broadcast with internal_lock_ held. -/
def popAll : Nat → List Nat → Links Nat → List Nat × Links Nat
  | 0, handles, links => (handles, links)
  | fuel + 1, handles, links =>
    if isEmpty waitingList links then (handles, links)
    else
      let (event, links) := popBack waitingList links
      popAll fuel (event :: handles) links

def broadcast (s : State) : List Nat × State :=
  let (handles, links) := popAll s.allocationCounter [] s.links
  (handles, { s with links := links })

end State

inductive Action
  /-- The first block of TimedWait. -/
  | wait (t : Nat) (timed : Bool)
  /-- WaitForSingleObject returns, the time being over. -/
  | timeOut (t : Nat)
  /-- WaitForSingleObject returns, with the signal. -/
  | wake (t : Nat)
  /-- The last block of TimedWait. -/
  | recycle (t : Nat)
  | signal (t : Nat)
  | broadcast (t : Nat)
  /-- The SetEvent of Signal, or the next one of Broadcast. -/
  | setEvent (t : Nat)
  deriving DecidableEq

def step (s : State) : Action → Option State
  | .wait t timed =>
    match s.phase t with
    | .outside =>
      let (event, s) := s.getEventForWaiting
      some (s.setPhase t (.waiting event timed))
    | _ => none
  | .timeOut t =>
    match s.phase t with
    | .waiting event true => some (s.setPhase t (.woken event))
    | _ => none
  | .wake t =>
    match s.phase t with
    | .waiting event _ =>
      if s.signaled event then
        some ({ s with signaled := update s.signaled event false }.setPhase t
          (.woken event))
      else none
    | _ => none
  | .recycle t =>
    match s.phase t with
    | .woken event =>
      some ({ s.recycleEvent event with
        returned := update s.returned t (s.returned t + 1) }.setPhase t .outside)
    | _ => none
  | .signal t =>
    match s.phase t with
    | .outside =>
      let (handles, s) := s.signal
      some (s.setPhase t (.signalling handles))
    | _ => none
  | .broadcast t =>
    match s.phase t with
    | .outside =>
      let (handles, s) := s.broadcast
      some (s.setPhase t (.signalling handles))
    | _ => none
  | .setEvent t =>
    match s.phase t with
    | .signalling [] => some (s.setPhase t .outside)
    | .signalling (handle :: handles) => some ((s.setEvent handle).setPhase t (.signalling handles))
    | _ => none

/-- No thread in the condition variable, and no event yet. -/
def create : State where
  links := ⟨id, id⟩
  signaled := fun _ => false
  recyclingListSize := 0
  allocationCounter := 0
  phase := fun _ => .outside
  returned := fun _ => 0

/-- The event of a thread in this phase. -/
def heldIn : Phase → Option Nat
  | .waiting event _ => some event
  | .woken event => some event
  | _ => none

/-- The event a thread in TimedWait has. -/
def held (s : State) (t : Nat) : Option Nat := heldIn (s.phase t)

/-- Someone is about to set the event. -/
def InFlight (s : State) (event : Nat) : Prop :=
  ∃ t handles, s.phase t = .signalling handles ∧ event ∈ handles

/-! ## The lists of a condition variable

Both lists are rings without a common event, and an event that is on neither list is linked with
itself. Which list an operation is on makes no difference. -/

def Allocated (n event : Nat) : Prop := 2 ≤ event ∧ event < eventAt n

/-- The lists of the two heads, of the events allocated so far. -/
structure Lists (head head' : Nat) (l : Links Nat) (n : Nat) (xs ys : List Nat) : Prop where
  heads : head < 2 ∧ head' < 2
  ring : Ring l head xs
  ring' : Ring l head' ys
  disjoint : ∀ e ∈ head :: xs, e ∉ head' :: ys
  allocated : ∀ e, e ∈ xs ∨ e ∈ ys → Allocated n e
  alone : ∀ e, Allocated n e → e ∉ xs → e ∉ ys → Ring l e []

variable {head head' n e : Nat} {l : Links Nat} {xs ys us vs : List Nat}

section

variable (h : Lists head head' l n xs ys)
include h

theorem Lists.swap : Lists head' head l n ys xs :=
  ⟨h.heads.symm, h.ring', h.ring, fun e he he' => h.disjoint e he' he,
    fun e he => h.allocated e he.symm, fun e ha hy hx => h.alone e ha hx hy⟩

theorem Lists.ne_heads (he : Allocated n e) : e ≠ head ∧ e ≠ head' := by
  obtain ⟨hhead, hhead'⟩ := h.heads
  obtain ⟨htwo, -⟩ := he
  exact ⟨by omega, by omega⟩

/-- An event on no list goes to the back of one. -/
theorem Lists.push (he : Allocated n e) (hx : e ∉ xs)
    (hy : e ∉ ys) : Lists head head' (l.pushBack head e) n (xs ++ [e]) ys := by
  obtain ⟨hhead, hhead'⟩ := h.ne_heads he
  refine ⟨h.heads, h.ring.pushBack (by simp [hhead, hx]),
    h.ring'.pushBack_other h.ring (fun z hz hz' => h.disjoint z hz' hz) (by simp [hhead', hy]),
    ?_, ?_, ?_⟩
  · intro z hz
    rcases List.mem_append.mp (List.cons_append .. ▸ hz : z ∈ (head :: xs) ++ [e]) with hz | hz
    · exact h.disjoint z hz
    · rw [List.mem_singleton.mp hz]
      simp [hhead', hy]
  · intro z hz
    rcases hz with hz | hz
    · rcases List.mem_append.mp hz with hz | hz
      · exact h.allocated z (Or.inl hz)
      · rwa [List.mem_singleton.mp hz]
    · exact h.allocated z (Or.inr hz)
  · intro z hz hzx hzy
    simp only [List.mem_append, List.mem_singleton, not_or] at hzx
    obtain ⟨hzhead, -⟩ := h.ne_heads hz
    exact (h.alone z hz hzx.1 hzy).pushBack_other h.ring
      (fun y hy' => by rw [List.mem_singleton.mp hy']; simp [hzhead, hzx.1])
      (by simpa using Ne.symm hzx.2)

end

/-- Extract of an event that is on the list. -/
theorem Lists.take (h : Lists head head' l n (us ++ e :: vs) ys) :
    Lists head head' (extract e l) n (us ++ vs) ys := by
  have he : Allocated n e := h.allocated e (Or.inl (by simp))
  have hmem : e ∈ head :: (us ++ e :: vs) := by simp
  have hnext : l.next e ≠ e := by
    intro heq
    have hin := (path_append.mp h.ring.path).2.next_mem
    rw [heq] at hin
    obtain ⟨hhead, hnodup⟩ := List.nodup_cons.mp h.ring.nodup
    rcases List.mem_append.mp hin with hin | hin
    · exact (List.nodup_cons.mp (List.nodup_append.mp hnodup).2.1).1 hin
    · exact hhead (by rw [← List.mem_singleton.mp hin]; simp)
  rw [extract, if_neg hnext]
  obtain ⟨hring, halone⟩ := h.ring.extract
  have hsub : ∀ z ∈ us ++ vs, z ∈ us ++ e :: vs := by
    intro z hz
    simp only [List.mem_append, List.mem_cons] at hz ⊢
    tauto
  refine ⟨h.heads, hring,
    h.ring'.extract_other h.ring fun z hz hz' => h.disjoint z hz' hz, ?_, ?_, ?_⟩
  · intro z hz
    refine h.disjoint z ?_
    rcases List.mem_cons.mp hz with rfl | hz
    · simp
    · exact List.mem_cons_of_mem head (hsub z hz)
  · exact fun z hz => h.allocated z (hz.imp_left (hsub z))
  · intro z hz hzx hzy
    by_cases hze : z = e
    · rw [hze]
      exact halone
    · have hzx' : z ∉ us ++ e :: vs := by
        simp only [List.mem_append, List.mem_cons, not_or] at hzx ⊢
        tauto
      obtain ⟨hzhead, -⟩ := h.ne_heads hz
      exact (h.alone z hz hzx' hzy).extract_other h.ring
        fun y hy => by rw [List.mem_singleton.mp hy]; simpa [hzhead] using hzx'

section

variable (h : Lists head head' l n xs ys)
include h

/-- Extract of an event that is on no list does nothing. -/
theorem Lists.extract_alone (he : Allocated n e) (hx : e ∉ xs) (hy : e ∉ ys) : extract e l = l := by
  rw [extract, extract_singleton (h.alone e he hx hy), ite_self]

/-- A new event is on no list. -/
theorem Lists.new :
    Lists head head' ⟨Function.update l.next (eventAt n) (eventAt n),
      Function.update l.prev (eventAt n) (eventAt n)⟩ (n + 1) xs ys ∧
      Allocated (n + 1) (eventAt n) ∧ eventAt n ∉ xs ∧ eventAt n ∉ ys := by
  have hnot : ∀ z, z ∈ xs ∨ z ∈ ys → z ≠ eventAt n := by
    rintro z hz rfl
    exact absurd (h.allocated _ hz).2 (Nat.lt_irrefl _)
  have hhead : ∀ z, z < 2 → z ≠ eventAt n := by
    rintro z hz rfl
    unfold eventAt at hz
    omega
  have hsame : ∀ z, z ≠ eventAt n →
      (Function.update l.next (eventAt n) (eventAt n) z = l.next z ∧
        Function.update l.prev (eventAt n) (eventAt n) z = l.prev z) := by
    intro z hz
    simp [hz]
  refine ⟨⟨h.heads, h.ring.congr fun z hz => hsame z ?_, h.ring'.congr fun z hz => hsame z ?_,
    h.disjoint, fun z hz => ?_, fun z hz hzx hzy => ?_⟩, ⟨?_, ?_⟩,
    fun hmem => hnot _ (Or.inl hmem) rfl, fun hmem => hnot _ (Or.inr hmem) rfl⟩
  · rcases List.mem_cons.mp hz with rfl | hz
    · exact hhead _ h.heads.1
    · exact hnot z (Or.inl hz)
  · rcases List.mem_cons.mp hz with rfl | hz
    · exact hhead _ h.heads.2
    · exact hnot z (Or.inr hz)
  · obtain ⟨htwo, hlt⟩ := h.allocated z hz
    exact ⟨htwo, Nat.lt_succ_of_lt hlt⟩
  · by_cases hnew : z = eventAt n
    · subst hnew
      exact ⟨⟨by simp, by simp⟩, List.nodup_singleton _⟩
    · obtain ⟨htwo, hlt⟩ := hz
      have hold : Allocated n z := ⟨htwo, by unfold eventAt at *; omega⟩
      exact (h.alone z hold hzx hzy).congr fun y hy => hsame y (by rwa [List.mem_singleton.mp hy])
  · unfold eventAt
    omega
  · unfold eventAt
    omega

theorem Lists.isEmpty_iff : isEmpty head l = true ↔ xs = [] := by
  rw [isEmpty, decide_eq_true_iff]
  exact h.ring.isEmpty_iff

end

theorem Lists.popBack (h : Lists head head' l n (us ++ [e]) ys) :
    (popBack head l).1 = e ∧ Lists head head' (popBack head l).2 n us ys := by
  have hback : l.prev head = e := h.ring.back
  have htake := h.take
  rw [WinXPCondVar.popBack, hback]
  rw [List.append_nil] at htake
  exact ⟨rfl, htake⟩

theorem Lists.popFront (h : Lists head head' l n (e :: vs) ys) :
    (popFront head l).1 = e ∧ Lists head head' (popFront head l).2 n vs ys := by
  have hfront : l.next head = e := h.ring.front
  rw [WinXPCondVar.popFront, hfront]
  exact ⟨rfl, Lists.take (show Lists head head' l n ([] ++ e :: vs) ys from h)⟩

theorem Lists.length_le (h : Lists head head' l n xs ys) : xs.length ≤ n := by
  have hnodup := (List.nodup_cons.mp h.ring.nodup).2
  have hsub : xs ⊆ (List.range n).map (· + 2) := by
    intro e he
    obtain ⟨htwo, hlt⟩ := h.allocated e (Or.inl he)
    refine List.mem_map.mpr ⟨e - 2, List.mem_range.mpr ?_, by omega⟩
    unfold eventAt at hlt
    omega
  simpa using (List.Nodup.subperm hnodup hsub).length_le

/-- Broadcast takes the whole list. -/
theorem Lists.popAll {fuel : Nat} (hs : List Nat) (h : Lists waitingList head' l n xs ys)
    (hfuel : xs.length ≤ fuel) :
    (State.popAll fuel hs l).1 = xs ++ hs ∧
      Lists waitingList head' (State.popAll fuel hs l).2 n [] ys := by
  induction fuel generalizing xs hs l with
  | zero =>
    obtain rfl := List.length_eq_zero_iff.mp (Nat.le_zero.mp hfuel)
    exact ⟨rfl, h⟩
  | succ fuel ih =>
    rw [State.popAll]
    rcases List.eq_nil_or_concat xs with rfl | ⟨us, e, rfl⟩
    · rw [if_pos (h.isEmpty_iff.mpr rfl)]
      exact ⟨rfl, h⟩
    · rw [List.concat_eq_append] at h hfuel ⊢
      obtain ⟨he, hpop⟩ := h.popBack
      rw [if_neg (fun hempty => by simpa using h.isEmpty_iff.mp hempty)]
      dsimp only
      rw [he]
      have hrest : us.length ≤ fuel := by
        simp only [List.length_append, List.length_singleton] at hfuel
        omega
      rw [List.append_assoc]
      exact ih (e :: hs) hpop hrest

end ChromiumUI.Base.WinXPCondVar
