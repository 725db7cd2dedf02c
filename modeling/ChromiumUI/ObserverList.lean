import Mathlib.Data.List.Nodup
import Mathlib.Data.List.ReduceOption
import ChromiumUI.Runs
import ChromiumUI.LiveCursors

/-!
# ObserverList and its iterators

The vector of slots with its notification depth, the cursors that walk over it,
and the calls a client can interleave. A call of GetNext carries the answer it got.
-/
namespace ChromiumUI.ObserverList

set_option linter.unusedSectionVars false

open Runs List Nat

inductive NotificationType where
  | notifyAll | notifyExistingOnly
  deriving DecidableEq, Repr

/-- The slots in order; `none` is a NULL slot. -/
structure ObserverListBase (α : Type*) where
  observers : List (Option α)
  notifyDepth : Nat
  type : NotificationType

/-- `maxIndex = none` is numeric_limits<size_t>::max(), which no vector size exceeds. -/
structure Iterator where
  index : Nat
  maxIndex : Option Nat
  deriving DecidableEq, Repr

variable {α ι : Type*} [DecidableEq α] [DecidableEq ι]

namespace ObserverListBase

def addObserver (obs : α) (list : ObserverListBase α) : ObserverListBase α :=
  if some obs ∈ list.observers then list
  else { list with observers := list.observers ++ [some obs] }

def removeObserver (obs : α) (list : ObserverListBase α) : ObserverListBase α :=
  if list.notifyDepth ≠ 0 then
    { list with observers := list.observers.replace (some obs) none }
  else { list with observers := list.observers.erase (some obs) }

def hasObserver (obs : α) (list : ObserverListBase α) : Bool :=
  list.observers.contains (some obs)

section

variable (list : ObserverListBase α)

def clear : ObserverListBase α :=
  if list.notifyDepth ≠ 0 then
    { list with observers := list.observers.map (fun _ => none) }
  else { list with observers := [] }

def compact : ObserverListBase α :=
  { list with observers := list.observers.filter Option.isSome }

def size : Nat := list.observers.length

/-- The constructor of an Iterator. -/
def newIterator : Iterator × ObserverListBase α :=
  (⟨0, if list.type = .notifyAll then none else some list.size⟩,
    { list with notifyDepth := list.notifyDepth + 1 })

/-- The destructor of an Iterator whose list is still there. -/
def endIterator : ObserverListBase α :=
  let list := { list with notifyDepth := list.notifyDepth - 1 }
  if list.notifyDepth = 0 then list.compact else list

end

end ObserverListBase

/-- min(max_index_, observers.size()) -/
def Iterator.bound (it : Iterator) (size : Nat) : Nat :=
  match it.maxIndex with
  | none => size
  | some maxIndex => min maxIndex size

/-- The index after the NULL slots at the head of `slots`, which start at `index`. -/
def skipNulls : List (Option α) → Nat → Nat
  | none :: slots, index => skipNulls slots (index + 1)
  | _, index => index

/-- GetNext; the list is `none` once it was destroyed under the iterator. -/
def Iterator.getNext (list : Option (ObserverListBase α)) (it : Iterator) :
    Option α × Iterator :=
  match list with
  | none => (none, it)
  | some list =>
    let maxIndex := it.bound list.size
    let index := skipNulls ((list.observers.take maxIndex).drop it.index) it.index
    if index < maxIndex then
      (list.observers[index]?.join, { it with index := index + 1 })
    else (none, { it with index := index })

/-- One list and the live iterators over it, under the client's names for them. -/
structure World (α ι : Type*) where
  list : Option (ObserverListBase α)
  iterators : ι → Option Iterator

/-- What a client does; `getNext it result` is a call that answered `result`. -/
inductive Call (α ι : Type*) where
  | addObserver (obs : α)
  | removeObserver (obs : α)
  | clear
  | iterator (it : ι)
  | getNext (it : ι) (result : Option α)
  | endIterator (it : ι)
  | endList
  deriving DecidableEq, Repr

def initial (type : NotificationType) : World α ι :=
  ⟨some ⟨[], 0, type⟩, fun _ => none⟩

def step (w : World α ι) : Call α ι → Option (World α ι)
  | .addObserver obs => w.list.map fun list => { w with list := some (list.addObserver obs) }
  | .removeObserver obs => w.list.map fun list => { w with list := some (list.removeObserver obs) }
  | .clear => w.list.map fun list => { w with list := some list.clear }
  | .iterator it =>
    if (w.iterators it).isSome then none
    else w.list.map fun list =>
      ⟨some list.newIterator.2, Function.update w.iterators it (some list.newIterator.1)⟩
  | .getNext it result =>
    (w.iterators it).bind fun cursor =>
      if (cursor.getNext w.list).1 = result then
        some { w with iterators := Function.update w.iterators it (cursor.getNext w.list).2 }
      else none
  | .endIterator it =>
    (w.iterators it).map fun _ =>
      ⟨w.list.map ObserverListBase.endIterator, Function.update w.iterators it none⟩
  | .endList => w.list.map fun _ => { w with list := none }

/-! ## The slots as a list of observers -/

section

variable (slots : List (Option α))
include slots

theorem reduceOption_replace (o : α) :
    (slots.replace (some o) none).reduceOption = slots.reduceOption.erase o := by
  induction slots with
  | nil => rfl
  | cons slot slots ih =>
    cases slot with
    | none => simpa [replace_cons] using ih
    | some a =>
      by_cases h : a = o
      · simp [h]
      · have hne : (o == a) = false := by simpa using Ne.symm h
        simp [replace_cons, h, hne, ih]

theorem reduceOption_erase (o : α) :
    (slots.erase (some o)).reduceOption = slots.reduceOption.erase o := by
  induction slots with
  | nil => rfl
  | cons slot slots ih =>
    cases slot with
    | none => simpa [erase_cons] using ih
    | some a =>
      by_cases h : a = o
      · simp [h]
      · simp [h, ih]

theorem reduceOption_filter_isSome :
    (slots.filter Option.isSome).reduceOption = slots.reduceOption := by
  induction slots with
  | nil => rfl
  | cons slot slots ih => cases slot <;> simp [ih]

theorem reduceOption_map_none : (slots.map fun _ => (none : Option α)).reduceOption = [] := by
  induction slots with
  | nil => rfl
  | cons slot slots ih => simp

end

/-- Slots in order hold observers in list order. -/
theorem sublist_of_slots {slots : List (Option α)} {j k : Nat} {o₁ o₂ : α} (hjk : j < k)
    (h₁ : slots[j]? = some (some o₁)) (h₂ : slots[k]? = some (some o₂)) :
    [o₁, o₂].Sublist slots.reduceOption := by
  induction slots generalizing j k with
  | nil => simp at h₁
  | cons slot slots ih =>
    cases k with
    | zero => omega
    | succ k =>
      rw [getElem?_cons_succ] at h₂
      cases j with
      | zero =>
        obtain rfl : slot = some o₁ := by simpa using h₁
        have hmem : o₂ ∈ slots.reduceOption :=
          reduceOption_mem_iff.mpr (mem_of_getElem? h₂)
        simpa using hmem
      | succ j =>
        rw [getElem?_cons_succ] at h₁
        have h := ih (by omega) h₁ h₂
        cases slot with
        | none => simpa using h
        | some a => simpa using h.cons a

/-- In a list without repetitions an order between two members is not also the other way. -/
theorem not_sublist_swap {l : List α} (hl : l.Nodup) {a b : α} (hab : [a, b].Sublist l) :
    ¬ [b, a].Sublist l := by
  induction l with
  | nil => simp at hab
  | cons x l ih =>
    obtain ⟨hx, hnodup⟩ := nodup_cons.mp hl
    intro hba
    cases hab with
    | cons _ hab =>
      cases hba with
      | cons _ hba => exact ih hnodup hab hba
      | cons_cons _ hba => exact hx (hab.subset (by simp))
    | cons_cons _ hab =>
      cases hba with
      | cons _ hba | cons_cons _ hba => exact hx (hba.subset (by simp))

/-- No observer occupies two slots. -/
theorem slot_unique {slots : List (Option α)} (hn : slots.reduceOption.Nodup) {j k : Nat} {o : α}
    (hj : slots[j]? = some (some o)) (hk : slots[k]? = some (some o)) : j = k := by
  by_contra hne
  rcases lt_or_gt_of_ne hne with h | h
  · exact nodup_iff_sublist.mp hn o (sublist_of_slots h hj hk)
  · exact nodup_iff_sublist.mp hn o (sublist_of_slots h hk hj)

/-- List order is the order of the slots. -/
theorem slot_lt_of_sublist {slots : List (Option α)} (hn : slots.reduceOption.Nodup) {j k : Nat}
    {o₁ o₂ : α} (h₁ : slots[j]? = some (some o₁)) (h₂ : slots[k]? = some (some o₂))
    (h : [o₁, o₂].Sublist slots.reduceOption) : j < k := by
  by_contra hle
  rcases Nat.lt_or_eq_of_le (Nat.le_of_not_lt hle) with hlt | rfl
  · exact not_sublist_swap hn h (sublist_of_slots hlt h₂ h₁)
  · obtain rfl : o₂ = o₁ := by simpa using h₂.symm.trans h₁
    exact nodup_iff_sublist.mp hn _ h

/-! ## What one GetNext does -/

theorem skipNulls_spec (slots : List (Option α)) (index : Nat) :
    index ≤ skipNulls slots index ∧
      (∀ i, index ≤ i → i < skipNulls slots index → slots[i - index]? = some none) ∧
      (slots[skipNulls slots index - index]? = none ∨
        ∃ o, slots[skipNulls slots index - index]? = some (some o)) := by
  induction slots generalizing index with
  | nil => exact ⟨le_refl _, fun i h₁ h₂ => absurd h₂ (not_lt.mpr h₁), .inl rfl⟩
  | cons slot slots ih =>
    cases slot with
    | some o =>
      refine ⟨le_refl _, fun i h₁ h₂ => absurd h₂ (not_lt.mpr h₁), .inr ⟨o, ?_⟩⟩
      simp [skipNulls]
    | none =>
      obtain ⟨hle, hnull, hstop⟩ := ih (index + 1)
      have hsub : skipNulls slots (index + 1) - index =
          skipNulls slots (index + 1) - (index + 1) + 1 := by omega
      refine ⟨by simp only [skipNulls]; omega, ?_, ?_⟩
      · intro i h₁ h₂
        rcases lt_or_eq_of_le h₁ with hlt | rfl
        · rw [show i - index = i - (index + 1) + 1 by omega, getElem?_cons_succ]
          exact hnull i hlt h₂
        · simp
      · simp only [skipNulls]
        rw [hsub, getElem?_cons_succ]
        exact hstop

/-- GetNext passes NULL slots only, and stops at an observer or at the bound. -/
theorem getNext_cases {list : ObserverListBase α} {cursor : Iterator}
    (hindex : cursor.index ≤ cursor.bound list.size) :
    ∃ k, cursor.index ≤ k ∧ k ≤ cursor.bound list.size ∧
      (∀ i, cursor.index ≤ i → i < k → list.observers[i]? = some none) ∧
      ((∃ o, list.observers[k]? = some (some o) ∧ k < cursor.bound list.size ∧
          cursor.getNext (some list) = (some o, { cursor with index := k + 1 })) ∨
        (k = cursor.bound list.size ∧
          cursor.getNext (some list) = (none, { cursor with index := k }))) := by
  have hsize : cursor.bound list.size ≤ list.observers.length := by
    unfold Iterator.bound ObserverListBase.size
    cases cursor.maxIndex with
    | none => exact le_refl _
    | some m => exact min_le_right _ _
  obtain ⟨hle, hnull, hstop⟩ := skipNulls_spec
    ((list.observers.take (cursor.bound list.size)).drop cursor.index) cursor.index
  generalize hk : skipNulls ((list.observers.take (cursor.bound list.size)).drop cursor.index)
    cursor.index = k at hle hnull hstop
  have hslot : ∀ i, cursor.index ≤ i → i < cursor.bound list.size →
      ((list.observers.take (cursor.bound list.size)).drop cursor.index)[i - cursor.index]? =
        list.observers[i]? := by
    intro i h₁ h₂
    rw [getElem?_drop, show cursor.index + (i - cursor.index) = i by omega,
      getElem?_take_of_lt h₂]
  have hpast : ∀ i, cursor.index ≤ i → cursor.bound list.size ≤ i →
      ((list.observers.take (cursor.bound list.size)).drop cursor.index)[i - cursor.index]? =
        none := by
    intro i h₁ h₂
    rw [getElem?_drop, getElem?_eq_none]
    simp only [length_take]
    omega
  have hkle : k ≤ cursor.bound list.size := by
    by_contra hgt
    have h := hnull (cursor.bound list.size) hindex (by omega)
    rw [hpast _ hindex (le_refl _)] at h
    cases h
  refine ⟨k, hle, hkle, ?_, ?_⟩
  · intro i h₁ h₂
    rw [← hslot i h₁ (by omega)]
    exact hnull i h₁ h₂
  · rcases lt_or_eq_of_le hkle with hlt | heq
    · left
      rw [hslot k hle hlt] at hstop
      rcases hstop with h | ⟨o, ho⟩
      · rw [getElem?_eq_none_iff] at h
        omega
      · refine ⟨o, ho, hlt, ?_⟩
        simp [Iterator.getNext, hk, hlt, ho]
    · right
      refine ⟨heq, ?_⟩
      simp [Iterator.getNext, hk, heq]

/-! ## Notification while the list changes

What the live cursors know about the slots, kept by every call; and what a
client sees of it: who is returned by which iterator, in which order, how often. -/

open LiveCursors Option Function ObserverListBase

/-! ## The list a client has in mind -/

def afterCall (members : List α) : Call α ι → List α
  | .addObserver obs => if obs ∈ members then members else members ++ [obs]
  | .removeObserver obs => members.erase obs
  | .clear => []
  | .endList => []
  | _ => members

/-- The observers in the list after these calls, in list order. -/
def members (calls : List (Call α ι)) : List α :=
  calls.foldl afterCall []

@[simp] theorem members_nil : members ([] : List (Call α ι)) = [] := rfl

@[simp] theorem members_concat (calls : List (Call α ι)) (call : Call α ι) :
    members (calls ++ [call]) = afterCall (members calls) call := by
  simp [members]

/-- None of these calls takes the observer out of the list. -/
def Stays (o : α) (calls : List (Call α ι)) : Prop :=
  .removeObserver o ∉ calls ∧ .clear ∉ calls ∧ .endList ∉ calls

variable {call : Call α ι} {calls : List (Call α ι)}

theorem stays_cons {o : α} : Stays o (call :: calls) ↔ Stays o [call] ∧ Stays o calls := by
  simp only [Stays, mem_cons, not_mem_nil, or_false, not_or]
  tauto

def answer (it : ι) : Call α ι → Option α
  | .getNext it' result => if it' = it then result else none
  | _ => none

/-- What the calls of GetNext on this iterator returned, in the order of the calls. -/
def returnedBy (it : ι) (calls : List (Call α ι)) : List α :=
  calls.filterMap (answer it)

theorem count_returnedBy_cons (it : ι) (o : α) (call : Call α ι) (calls : List (Call α ι)) :
    (returnedBy it (call :: calls)).count o =
      (if answer it call = some o then 1 else 0) + (returnedBy it calls).count o := by
  unfold returnedBy
  cases h : answer it call with
  | none => simp [h]
  | some a =>
    rw [filterMap_cons, h]
    simp only [count_cons, beq_iff_eq, some.injEq]
    omega

/-! ## The invariant of the slots and the cursors -/

/-- The depth counts the live iterators, every cursor is inside the vector, no
observer has two slots, and NULL slots only exist while someone iterates. -/
structure ListOk (list : ObserverListBase α) (iterators : ι → Option Iterator) : Prop where
  counted : Counts iterators list.notifyDepth
  inBounds : ∀ it cursor, iterators it = some cursor → cursor.index ≤ cursor.bound list.size ∧
    ∀ maxIndex ∈ cursor.maxIndex, maxIndex ≤ list.size
  nodup : list.observers.reduceOption.Nodup
  nullSlots : none ∈ list.observers → 0 < list.notifyDepth

/-- Growing the vector keeps cursors in bounds. -/
theorem Iterator.inBounds_mono {cursor : Iterator} {m n : Nat} (hmn : m ≤ n)
    (h : cursor.index ≤ cursor.bound m ∧ ∀ maxIndex ∈ cursor.maxIndex, maxIndex ≤ m) :
    cursor.index ≤ cursor.bound n ∧ ∀ maxIndex ∈ cursor.maxIndex, maxIndex ≤ n := by
  obtain ⟨hindex, hmax⟩ := h
  refine ⟨?_, fun maxIndex hm => le_trans (hmax maxIndex hm) hmn⟩
  unfold Iterator.bound at *
  cases hc : cursor.maxIndex with
  | none =>
    rw [hc] at hindex
    exact le_trans hindex hmn
  | some maxIndex =>
    rw [hc] at hindex
    simp only at hindex ⊢
    omega

variable {list : ObserverListBase α} {iterators : ι → Option Iterator}

section

variable (h : ListOk list iterators)
include h

theorem addObserver_ok (obs : α) : ListOk (list.addObserver obs) iterators := by
  unfold addObserver
  split_ifs with hmem
  · exact h
  · refine ⟨h.counted, fun it cursor hit => ?_, ?_, ?_⟩
    · exact Iterator.inBounds_mono (by simp [ObserverListBase.size]) (h.inBounds it cursor hit)
    · rw [reduceOption_append]
      refine nodup_append'.mpr ⟨h.nodup, by simp, ?_⟩
      simpa [reduceOption_mem_iff] using hmem
    · intro hnull
      exact h.nullSlots (by simpa using hnull)

theorem removeObserver_ok (obs : α) : ListOk (list.removeObserver obs) iterators := by
  unfold removeObserver
  split_ifs with hdepth
  · refine ⟨h.counted, fun it cursor hit => ?_, ?_, fun _ => Nat.pos_of_ne_zero hdepth⟩
    · exact Iterator.inBounds_mono (by simp [ObserverListBase.size]) (h.inBounds it cursor hit)
    · rw [reduceOption_replace]
      exact h.nodup.erase obs
  · refine ⟨h.counted, fun it cursor hit => ?_, ?_, ?_⟩
    · rw [(show Counts iterators 0 by simpa [not_not.mp hdepth] using h.counted).eq_none it] at hit
      cases hit
    · rw [reduceOption_erase]
      exact h.nodup.erase obs
    · intro hnull
      exact h.nullSlots (mem_of_mem_erase hnull)

theorem clear_ok : ListOk list.clear iterators := by
  unfold clear
  split_ifs with hdepth
  · refine ⟨h.counted, fun it cursor hit => ?_, ?_, fun _ => Nat.pos_of_ne_zero hdepth⟩
    · exact Iterator.inBounds_mono (by simp [ObserverListBase.size]) (h.inBounds it cursor hit)
    · rw [reduceOption_map_none]
      exact nodup_nil
  · refine ⟨h.counted, fun it cursor hit => ?_, nodup_nil, by simp⟩
    rw [(show Counts iterators 0 by simpa [not_not.mp hdepth] using h.counted).eq_none it] at hit
    cases hit

end

variable {it : ι}

theorem newIterator_ok (h : ListOk list iterators) (hit : iterators it = none) :
    ListOk list.newIterator.2 (update iterators it (some list.newIterator.1)) := by
  refine ⟨h.counted.create hit _, fun it' cursor hcur => ?_, h.nodup, fun _ => succ_pos _⟩
  by_cases heq : it' = it
  · subst heq
    rw [update_self] at hcur
    cases hcur
    unfold newIterator Iterator.bound
    split_ifs <;> simp [ObserverListBase.size]
  · rw [update_of_ne heq] at hcur
    exact h.inBounds it' cursor hcur

theorem endIterator_ok (h : ListOk list iterators) (hit : (iterators it).isSome) :
    ListOk list.endIterator (update iterators it none) := by
  have hcounted := h.counted.destroy hit
  simp only [endIterator]
  split_ifs with hzero
  · refine ⟨hcounted, fun it' cursor hcur => ?_, ?_, fun hnull => ?_⟩
    · rw [hzero] at hcounted
      rw [hcounted.eq_none it'] at hcur
      cases hcur
    · simpa only [compact, reduceOption_filter_isSome] using h.nodup
    · simp [compact] at hnull
  · refine ⟨hcounted, fun it' cursor hcur => ?_, h.nodup, fun _ => Nat.pos_of_ne_zero hzero⟩
    by_cases heq : it' = it
    · simp [heq] at hcur
    · rw [update_of_ne heq] at hcur
      exact h.inBounds it' cursor hcur

def WellFormed (w : World α ι) : Prop :=
  ∀ list, w.list = some list → ListOk list w.iterators

theorem wellFormed_initial (type : NotificationType) : WellFormed (initial type : World α ι) := by
  intro list hlist
  cases hlist
  exact ⟨counts_none, by simp [initial], by simp, by simp⟩

variable {w w' : World α ι}

/-- What a call of GetNext on a list that is still there does to its cursor. -/
theorem step_getNext {result : Option α} (hw : WellFormed w) (hlist : w.list = some list)
    (hstep : step w (.getNext it result) = some w') :
    ∃ cursor k, w.iterators it = some cursor ∧ cursor.index ≤ k ∧
      k ≤ cursor.bound list.size ∧
      (∀ i, cursor.index ≤ i → i < k → list.observers[i]? = some none) ∧
      ((∃ o, result = some o ∧ list.observers[k]? = some (some o) ∧
          k < cursor.bound list.size ∧
          w' = { w with iterators :=
            Function.update w.iterators it (some { cursor with index := k + 1 }) }) ∨
        (result = none ∧ k = cursor.bound list.size ∧
          w' = { w with iterators :=
            Function.update w.iterators it (some { cursor with index := k }) })) := by
  obtain ⟨cursor, hit, hnext⟩ := bind_eq_some_iff.mp hstep
  have hindex := ((hw list hlist).inBounds it cursor hit).1
  obtain ⟨k, hle, hbound, hnull, h⟩ := getNext_cases hindex
  refine ⟨cursor, k, hit, hle, hbound, hnull, ?_⟩
  rw [hlist] at hnext
  rcases h with ⟨o, ho, hk, hget⟩ | ⟨hk, hget⟩
  · left
    rw [hget] at hnext
    split_ifs at hnext with hres
    cases hnext
    exact ⟨o, hres.symm, ho, hk, by simp [hlist]⟩
  · right
    rw [hget] at hnext
    split_ifs at hnext with hres
    cases hnext
    exact ⟨hres.symm, hk, by simp [hlist]⟩

/-- Moving one cursor inside the vector keeps the invariant. -/
theorem moveCursor_ok (h : ListOk list iterators) {cursor : Iterator}
    (hit : iterators it = some cursor) {k : Nat} (hk : k ≤ cursor.bound list.size) :
    ListOk list (update iterators it (some { cursor with index := k })) := by
  refine ⟨h.counted.move (by simp [hit]) _, fun it' cursor' hcur => ?_, h.nodup, h.nullSlots⟩
  by_cases heq : it' = it
  · subst heq
    rw [update_self] at hcur
    cases hcur
    exact ⟨hk, (h.inBounds it' cursor hit).2⟩
  · rw [update_of_ne heq] at hcur
    exact h.inBounds it' cursor' hcur

theorem step_wellFormed (w : World α ι) (call : Call α ι) (w' : World α ι) (hw : WellFormed w)
    (hstep : step w call = some w') : WellFormed w' := by
  intro list' hlist'
  cases call with
  | addObserver obs =>
    obtain ⟨list, hlist, rfl⟩ := map_eq_some_iff.mp hstep
    cases hlist'
    exact addObserver_ok (hw list hlist) obs
  | removeObserver obs =>
    obtain ⟨list, hlist, rfl⟩ := map_eq_some_iff.mp hstep
    cases hlist'
    exact removeObserver_ok (hw list hlist) obs
  | clear =>
    obtain ⟨list, hlist, rfl⟩ := map_eq_some_iff.mp hstep
    cases hlist'
    exact clear_ok (hw list hlist)
  | iterator it =>
    simp only [step] at hstep
    split_ifs at hstep with hit
    obtain ⟨list, hlist, rfl⟩ := map_eq_some_iff.mp hstep
    cases hlist'
    exact newIterator_ok (hw list hlist) (by simpa using hit)
  | getNext it result =>
    cases hlist : w.list with
    | none =>
      obtain ⟨cursor, hit, hnext⟩ := bind_eq_some_iff.mp hstep
      split_ifs at hnext
      cases hnext
      simp [hlist] at hlist'
    | some list =>
      obtain ⟨cursor, k, hit, hle, hbound, hnull, h⟩ := step_getNext hw hlist hstep
      rcases h with ⟨o, -, -, hk, rfl⟩ | ⟨-, -, rfl⟩
      · obtain rfl : list = list' := by simpa [hlist] using hlist'
        exact moveCursor_ok (hw list hlist) hit hk
      · obtain rfl : list = list' := by simpa [hlist] using hlist'
        exact moveCursor_ok (hw list hlist) hit hbound
  | endIterator it =>
    obtain ⟨cursor, hit, rfl⟩ := map_eq_some_iff.mp hstep
    obtain ⟨list, hlist, rfl⟩ := map_eq_some_iff.mp hlist'
    exact endIterator_ok (hw list hlist) (by simp [hit])
  | endList =>
    obtain ⟨list, hlist, rfl⟩ := map_eq_some_iff.mp hstep
    cases hlist'

/-- The slots hold the members in list order, and the type never changes. -/
def Represents (type : NotificationType) (calls : List (Call α ι)) (w : World α ι) : Prop :=
  ∀ list, w.list = some list →
    list.type = type ∧ list.observers.reduceOption = members calls

theorem step_represents {type : NotificationType} (h : Represents type calls w)
    (hstep : step w call = some w') : Represents type (calls ++ [call]) w' := by
  intro list' hlist'
  rw [members_concat]
  cases call with
  | addObserver obs =>
    obtain ⟨list, hlist, rfl⟩ := map_eq_some_iff.mp hstep
    cases hlist'
    obtain ⟨htype, hmem⟩ := h list hlist
    unfold addObserver
    simp only [afterCall, ← hmem, reduceOption_mem_iff]
    split_ifs
    · exact ⟨htype, rfl⟩
    · exact ⟨htype, by simp [reduceOption_append]⟩
  | removeObserver obs =>
    obtain ⟨list, hlist, rfl⟩ := map_eq_some_iff.mp hstep
    cases hlist'
    obtain ⟨htype, hmem⟩ := h list hlist
    unfold removeObserver
    simp only [afterCall, ← hmem]
    split_ifs
    · exact ⟨htype, reduceOption_replace _ _⟩
    · exact ⟨htype, reduceOption_erase _ _⟩
  | clear =>
    obtain ⟨list, hlist, rfl⟩ := map_eq_some_iff.mp hstep
    cases hlist'
    obtain ⟨htype, -⟩ := h list hlist
    unfold clear
    split_ifs
    · exact ⟨htype, reduceOption_map_none _⟩
    · exact ⟨htype, rfl⟩
  | iterator it =>
    simp only [step] at hstep
    split_ifs at hstep
    obtain ⟨list, hlist, rfl⟩ := map_eq_some_iff.mp hstep
    cases hlist'
    exact h list hlist
  | getNext it result =>
    obtain ⟨cursor, -, hnext⟩ := bind_eq_some_iff.mp hstep
    split_ifs at hnext
    cases hnext
    exact h list' hlist'
  | endIterator it =>
    obtain ⟨cursor, -, rfl⟩ := map_eq_some_iff.mp hstep
    obtain ⟨list, hlist, rfl⟩ := map_eq_some_iff.mp hlist'
    obtain ⟨htype, hmem⟩ := h list hlist
    simp only [endIterator]
    split_ifs
    · exact ⟨htype, (reduceOption_filter_isSome _).trans hmem⟩
    · exact ⟨htype, hmem⟩
  | endList =>
    obtain ⟨list, hlist, rfl⟩ := map_eq_some_iff.mp hstep
    cases hlist'

theorem run_represents {type : NotificationType} (h : run step calls (initial type) = some w) :
    Represents type calls w := by
  refine run_history (P := Represents type) ?_ (fun _ _ _ _ hP hstep => step_represents hP hstep) h
  intro list hlist
  cases hlist
  exact ⟨rfl, rfl⟩

/-! ## What a live cursor sees of the other calls -/

theorem getElem?_replace_none {slots : List (Option α)} (hn : slots.reduceOption.Nodup)
    (b o : α) (k : Nat) :
    (slots.replace (some b) none)[k]? = some (some o) ↔ slots[k]? = some (some o) ∧ b ≠ o := by
  induction slots generalizing k with
  | nil => simp
  | cons slot slots ih =>
    cases slot with
    | none =>
      have hreplace : (none :: slots).replace (some b) none =
          none :: slots.replace (some b) none := by simp [replace_cons]
      rw [hreplace]
      cases k with
      | zero => simp
      | succ k => exact ih hn k
    | some a =>
      rw [reduceOption_cons_of_some, nodup_cons] at hn
      by_cases hab : b = a
      · subst hab
        rw [replace_cons_self]
        cases k with
        | zero => simp
        | succ k =>
          simp only [getElem?_cons_succ]
          refine ⟨fun h => ⟨h, ?_⟩, fun h => h.1⟩
          rintro rfl
          exact hn.1 (reduceOption_mem_iff.mpr (mem_of_getElem? h))
      · have hne : (b == a) = false := by simpa using hab
        have hreplace : (some a :: slots).replace (some b) none =
            some a :: slots.replace (some b) none := by simp [replace_cons, hne]
        rw [hreplace]
        cases k with
        | zero =>
          simp only [getElem?_cons_zero, some.injEq]
          refine ⟨?_, fun h => h.1⟩
          rintro rfl
          exact ⟨rfl, hab⟩
        | succ k => exact ih hn.2 k

/-- While an iterator lives, a slot keeps its observer until a call takes it out,
and no slot changes in another way. -/
theorem step_slots {list' : ObserverListBase α} (hw : WellFormed w) (hstep : step w call = some w')
    (hnew : call ≠ .iterator it) (hlive : (w'.iterators it).isSome) (hlist' : w'.list = some list')
    :
    ∃ list, w.list = some list ∧ list.size ≤ list'.size ∧
      ∀ k, k < list.size → ∀ o, list'.observers[k]? = some (some o) ↔
        list.observers[k]? = some (some o) ∧ Stays o [call] := by
  cases call with
  | addObserver obs =>
    obtain ⟨list, hlist, rfl⟩ := map_eq_some_iff.mp hstep
    cases hlist'
    refine ⟨list, hlist, ?_⟩
    unfold addObserver
    split_ifs with hmem
    · exact ⟨le_refl _, by simp [Stays]⟩
    · refine ⟨by simp [ObserverListBase.size], fun k hk o => ?_⟩
      rw [getElem?_append_left hk]
      simp [Stays]
  | removeObserver obs =>
    obtain ⟨list, hlist, rfl⟩ := map_eq_some_iff.mp hstep
    cases hlist'
    refine ⟨list, hlist, ?_⟩
    unfold removeObserver
    rw [if_pos ((hw list hlist).counted.depth_ne_zero hlive)]
    refine ⟨by simp [ObserverListBase.size], fun k _ o => ?_⟩
    rw [getElem?_replace_none (hw list hlist).nodup]
    simp [Stays, eq_comm]
  | clear =>
    obtain ⟨list, hlist, rfl⟩ := map_eq_some_iff.mp hstep
    cases hlist'
    refine ⟨list, hlist, ?_⟩
    unfold clear
    rw [if_pos ((hw list hlist).counted.depth_ne_zero hlive)]
    refine ⟨by simp [ObserverListBase.size], fun k _ o => ?_⟩
    simp [Stays, getElem?_replicate]
  | iterator it' =>
    simp only [step] at hstep
    split_ifs at hstep
    obtain ⟨list, hlist, rfl⟩ := map_eq_some_iff.mp hstep
    cases hlist'
    exact ⟨list, hlist, le_refl _, by simp [Stays, newIterator]⟩
  | getNext it' result =>
    obtain ⟨cursor, -, hnext⟩ := bind_eq_some_iff.mp hstep
    split_ifs at hnext
    cases hnext
    exact ⟨list', hlist', le_refl _, by simp [Stays]⟩
  | endIterator it' =>
    obtain ⟨cursor, hcur, rfl⟩ := map_eq_some_iff.mp hstep
    obtain ⟨list, hlist, rfl⟩ := map_eq_some_iff.mp hlist'
    refine ⟨list, hlist, ?_⟩
    have hok := endIterator_ok (hw list hlist) (show (w.iterators it').isSome by simp [hcur])
    have hdepth := hok.counted.depth_ne_zero hlive
    simp only [endIterator] at hdepth ⊢
    split_ifs at hdepth ⊢ with hzero
    · exact absurd hzero hdepth
    · exact ⟨le_refl _, by simp [Stays]⟩
  | endList =>
    obtain ⟨list, hlist, rfl⟩ := map_eq_some_iff.mp hstep
    cases hlist'

/-- The list is there until its own destruction. -/
theorem step_list (hstep : step w call = some w') :
    w'.list.isSome ↔ w.list.isSome ∧ call ≠ .endList := by
  cases call with
  | iterator it =>
    simp only [step] at hstep
    split_ifs at hstep
    obtain ⟨list, hlist, rfl⟩ := map_eq_some_iff.mp hstep
    simp [hlist]
  | getNext it result =>
    obtain ⟨cursor, -, hnext⟩ := bind_eq_some_iff.mp hstep
    split_ifs at hnext
    cases hnext
    simp
  | endIterator it =>
    obtain ⟨cursor, -, rfl⟩ := map_eq_some_iff.mp hstep
    simp
  | _ =>
    obtain ⟨list, hlist, rfl⟩ := map_eq_some_iff.mp hstep
    simp [hlist]

/-- Only the calls on an iterator itself move its cursor. -/
theorem step_cursor (hstep : step w call = some w') (hnew : call ≠ .iterator it)
    (hlive : (w'.iterators it).isSome) :
    (w.iterators it).isSome ∧
      ((∀ result, call ≠ .getNext it result) → w'.iterators it = w.iterators it) := by
  cases call with
  | addObserver obs | removeObserver obs | clear | endList =>
    obtain ⟨list, -, rfl⟩ := map_eq_some_iff.mp hstep
    exact ⟨hlive, fun _ => rfl⟩
  | iterator it' =>
    have hne : it ≠ it' := fun h => hnew (by rw [h])
    simp only [step] at hstep
    split_ifs at hstep
    obtain ⟨list, -, rfl⟩ := map_eq_some_iff.mp hstep
    simp only [update_of_ne hne] at hlive ⊢
    exact ⟨hlive, fun _ => trivial⟩
  | getNext it' result =>
    obtain ⟨cursor, hcur, hnext⟩ := bind_eq_some_iff.mp hstep
    split_ifs at hnext
    cases hnext
    by_cases hne : it = it'
    · subst hne
      exact ⟨by simp [hcur], fun h => absurd rfl (h result)⟩
    · simp only [update_of_ne hne] at hlive ⊢
      exact ⟨hlive, fun _ => trivial⟩
  | endIterator it' =>
    obtain ⟨cursor, -, rfl⟩ := map_eq_some_iff.mp hstep
    by_cases hne : it = it'
    · simp [hne] at hlive
    · simp only [update_of_ne hne] at hlive ⊢
      exact ⟨hlive, fun _ => trivial⟩

end ChromiumUI.ObserverList
