import ChromiumUI.ObserverList

/-!
# Who is notified

An observer that stays keeps its slot while an iterator lives, so the iterator has
returned it exactly when its cursor is past that slot. The guarantees of
notification under mutation follow, over every interleaving of calls.
-/
namespace ChromiumUI.ObserverList

set_option linter.unusedSectionVars false

open Runs List Option Nat ObserverListBase

variable {α ι : Type*} [DecidableEq α] [DecidableEq ι]

/-- The observer sits in slot `j` and the iterator has this cursor. -/
structure Tracks (w : World α ι) (it : ι) (o : α) (j : Nat) (cursor : Iterator) : Prop where
  live : w.iterators it = some cursor
  slot : ∃ list, w.list = some list ∧ list.observers[j]? = some (some o)

/-- Past the slot: 1 return; not there yet: none. -/
def passed (j index : Nat) : Nat :=
  if j < index then 1 else 0

variable {w w' : World α ι} {it : ι} {o : α} {cursor : Iterator}

/-- One call adds a return of `o` exactly when it moves the cursor past the slot of `o`. -/
theorem step_tracks {call : Call α ι} {j : Nat} (hw : WellFormed w) (ht : Tracks w it o j cursor)
    (hstep : step w call = some w') (hnew : call ≠ .iterator it) (hstays : Stays o [call])
    (hlive : (w'.iterators it).isSome) :
    ∃ cursor', Tracks w' it o j cursor' ∧ cursor'.maxIndex = cursor.maxIndex ∧
      cursor.index ≤ cursor'.index ∧
      (if answer it call = some o then 1 else 0) + passed j cursor.index =
        passed j cursor'.index := by
  obtain ⟨hcur, list, hlist, hslot⟩ := ht
  have hlist' : w'.list.isSome := by
    refine (step_list hstep).mpr ⟨by simp [hlist], ?_⟩
    rintro rfl
    exact hstays.2.2 (mem_singleton_self _)
  obtain ⟨list', hlist'⟩ := isSome_iff_exists.mp hlist'
  obtain ⟨list₀, hlist₀, hsize, hkeep⟩ := step_slots hw hstep hnew hlive hlist'
  obtain rfl : list = list₀ := by simpa [hlist] using hlist₀
  have hj : j < list.size := (List.getElem?_eq_some_iff.mp hslot).1
  have hslot' : list'.observers[j]? = some (some o) := (hkeep j hj o).mpr ⟨hslot, hstays⟩
  by_cases hget : ∃ result, call = .getNext it result
  · obtain ⟨result, rfl⟩ := hget
    obtain ⟨cursor₀, k, hcur₀, hle, -, hnull, hmove⟩ := step_getNext hw hlist hstep
    obtain rfl : cursor = cursor₀ := by simpa [hcur] using hcur₀
    have hskip : ¬ (cursor.index ≤ j ∧ j < k) := by
      rintro ⟨h₁, h₂⟩
      have h := hnull j h₁ h₂
      rw [hslot] at h
      cases h
    rcases hmove with ⟨a, rfl, ha, -, rfl⟩ | ⟨rfl, -, rfl⟩
    · refine ⟨{ cursor with index := k + 1 }, ⟨by simp, list, hlist, hslot⟩, rfl,
        le_succ_of_le hle, ?_⟩
      simp only [answer, if_true, Option.some.injEq, passed]
      by_cases hao : a = o
      · subst hao
        have hjk : j = k := slot_unique (hw list hlist).nodup hslot ha
        rw [if_pos rfl, if_neg (by omega), if_pos (by omega)]
      · have hjk : j ≠ k := by
          rintro rfl
          rw [hslot] at ha
          exact hao (by simpa using ha.symm)
        rw [if_neg hao]
        split_ifs <;> omega
    · refine ⟨{ cursor with index := k }, ⟨by simp, list, hlist, hslot⟩, rfl, hle, ?_⟩
      simp only [answer, if_true, passed]
      split_ifs <;> first | omega | simp_all
  · have hsame : w'.iterators it = w.iterators it :=
      (step_cursor hstep hnew hlive).2 (fun result h => hget ⟨result, h⟩)
    have hans : answer it call = none := by
      cases call with
      | getNext it' result =>
        simp only [answer]
        by_cases h : it' = it
        · exact absurd ⟨result, by rw [h]⟩ hget
        · rw [if_neg h]
      | _ => rfl
    refine ⟨cursor, ⟨hsame.trans hcur, list', hlist', hslot'⟩, rfl, le_refl _, ?_⟩
    simp [hans]

variable {calls : List (Call α ι)}

/-- An iterator that is live at the end of a run, and was not created in it, was live throughout. -/
theorem run_live (h : run step calls w = some w') (hnew : .iterator it ∉ calls)
    (hlive : (w'.iterators it).isSome) : (w.iterators it).isSome := by
  induction calls generalizing w with
  | nil =>
    cases h
    exact hlive
  | cons call calls ih =>
    obtain ⟨u, hu, hrest⟩ := run_cons_some h
    rw [mem_cons, not_or] at hnew
    exact (step_cursor hu (Ne.symm hnew.1) (ih hrest hnew.2)).1

theorem run_list (h : run step calls w = some w') (hlist : w'.list.isSome) : w.list.isSome := by
  induction calls generalizing w with
  | nil =>
    cases h
    exact hlist
  | cons call calls ih =>
    obtain ⟨u, hu, hrest⟩ := run_cons_some h
    exact ((step_list hu).mp (ih hrest)).1

/-- Over a run in which `o` stays: it was returned once if its slot was passed, else never. -/
theorem run_tracks {j : Nat} (hw : WellFormed w) (ht : Tracks w it o j cursor)
    (h : run step calls w = some w') (hnew : .iterator it ∉ calls) (hstays : Stays o calls)
    (hlive : (w'.iterators it).isSome) :
    ∃ cursor', Tracks w' it o j cursor' ∧ cursor'.maxIndex = cursor.maxIndex ∧
      cursor.index ≤ cursor'.index ∧
      (returnedBy it calls).count o + passed j cursor.index = passed j cursor'.index := by
  induction calls generalizing w cursor with
  | nil =>
    cases h
    exact ⟨cursor, ht, rfl, le_refl _, by simp [returnedBy]⟩
  | cons call calls ih =>
    obtain ⟨u, hu, hrest⟩ := run_cons_some h
    rw [mem_cons, not_or] at hnew
    rw [stays_cons] at hstays
    have hliveu := run_live hrest hnew.2 hlive
    obtain ⟨cursor₁, ht₁, hmax₁, hle₁, hcount₁⟩ :=
      step_tracks hw ht hu (Ne.symm hnew.1) hstays.1 hliveu
    obtain ⟨cursor₂, ht₂, hmax₂, hle₂, hcount₂⟩ :=
      ih (step_wellFormed w call u hw hu) ht₁ hrest hnew.2 hstays.2
    refine ⟨cursor₂, ht₂, hmax₂.trans hmax₁, le_trans hle₁ hle₂, ?_⟩
    rw [count_returnedBy_cons]
    omega

theorem getNext_maxIndex (list : Option (ObserverListBase α)) (cursor : Iterator) :
    (cursor.getNext list).2.maxIndex = cursor.maxIndex := by
  unfold Iterator.getNext
  cases list with
  | none => rfl
  | some list =>
    simp only
    split_ifs <;> rfl

/-- The bound an iterator was created with stays. -/
theorem run_maxIndex {cursor' : Iterator} (h : run step calls w = some w')
    (hnew : .iterator it ∉ calls) (hcur : w.iterators it = some cursor)
    (hcur' : w'.iterators it = some cursor') : cursor'.maxIndex = cursor.maxIndex := by
  induction calls generalizing w cursor with
  | nil =>
    cases h
    rw [hcur] at hcur'
    cases hcur'
    rfl
  | cons call calls ih =>
    obtain ⟨u, hu, hrest⟩ := run_cons_some h
    rw [mem_cons, not_or] at hnew
    have hliveu := run_live hrest hnew.2 (by simp [hcur'])
    obtain ⟨cursoru, hcursoru⟩ := isSome_iff_exists.mp hliveu
    rw [ih hrest hnew.2 hcursoru]
    by_cases hget : ∃ result, call = .getNext it result
    · obtain ⟨result, rfl⟩ := hget
      obtain ⟨cursor₀, hcur₀, hnext⟩ := bind_eq_some_iff.mp hu
      split_ifs at hnext
      cases hnext
      obtain rfl : cursor = cursor₀ := by simpa [hcur] using hcur₀
      obtain rfl : (cursor.getNext w.list).2 = cursoru := by simpa using hcursoru
      exact getNext_maxIndex w.list cursor
    · rw [(step_cursor hu (Ne.symm hnew.1) hliveu).2 (fun result h => hget ⟨result, h⟩),
        hcur] at hcursoru
      cases hcursoru
      rfl

/-- Looking back: what an old slot holds under a live iterator it always held. -/
theorem run_slots_back {k : Nat} {list list' : ObserverListBase α} (hw : WellFormed w)
    (h : run step calls w = some w') (hnew : .iterator it ∉ calls)
    (hlive : (w'.iterators it).isSome) (hlist : w.list = some list) (hlist' : w'.list = some list')
    (hk : k < list.size) (hslot : list'.observers[k]? = some (some o)) :
    list.observers[k]? = some (some o) ∧ Stays o calls := by
  induction calls generalizing w list with
  | nil =>
    cases h
    obtain rfl : list = list' := by simpa [hlist] using hlist'
    exact ⟨hslot, by simp [Stays]⟩
  | cons call calls ih =>
    obtain ⟨u, hu, hrest⟩ := run_cons_some h
    rw [mem_cons, not_or] at hnew
    have hliveu := run_live hrest hnew.2 hlive
    obtain ⟨listu, hlistu⟩ :=
      isSome_iff_exists.mp (run_list hrest (by simp [hlist']))
    obtain ⟨list₀, hlist₀, hsize, hkeep⟩ := step_slots hw hu (Ne.symm hnew.1) hliveu hlistu
    obtain rfl : list = list₀ := by simpa [hlist] using hlist₀
    obtain ⟨hslotu, hstays⟩ := ih (step_wellFormed w call u hw hu) hrest hnew.2 hlistu
      (lt_of_lt_of_le hk hsize)
    obtain ⟨h₀, hstays₀⟩ := (hkeep k hk o).mp hslotu
    exact ⟨h₀, stays_cons.mpr ⟨hstays₀, hstays⟩⟩

/-! ## The guarantees -/

/-- What the clients of a list of this type can rely on, after any calls. -/
structure Notifies (type : NotificationType) (calls : List (Call α ι)) : Prop where
  /-- Only observers that are in the list at that moment are returned. -/
  present : ∀ pre it o, pre ++ [.getNext it (some o)] <+: calls → o ∈ members pre
  /-- Of two returned observers the one that stayed in between comes first in the list. -/
  inOrder : ∀ pre mid it o₁ o₂,
    pre ++ .getNext it (some o₁) :: mid ++ [.getNext it (some o₂)] <+: calls →
    .iterator it ∉ mid → Stays o₁ mid →
    [o₁, o₂].Sublist (members (pre ++ .getNext it (some o₁) :: mid))
  /-- An observer that stays since the iterator's creation is returned at most once. -/
  atMostOnce : ∀ pre mid it o, pre ++ .iterator it :: mid <+: calls → .iterator it ∉ mid →
    .endIterator it ∉ mid → o ∈ members pre → Stays o mid → (returnedBy it mid).count o ≤ 1
  /-- It was returned exactly once when GetNext answers NULL, or a later observer. -/
  exactlyOnce : ∀ pre mid it result o,
    pre ++ .iterator it :: mid ++ [.getNext it result] <+: calls → .iterator it ∉ mid →
    o ∈ members pre → Stays o mid →
    (∀ o' ∈ result, [o, o'].Sublist (members (pre ++ .iterator it :: mid))) →
    (returnedBy it mid).count o = 1
  /-- NOTIFY_EXISTING_ONLY: what is returned was there at the creation, and stayed. -/
  existingOnly : type = .notifyExistingOnly → ∀ pre mid it o,
    pre ++ .iterator it :: mid ++ [.getNext it (some o)] <+: calls → .iterator it ∉ mid →
    o ∈ members pre ∧ Stays o mid
  /-- NOTIFY_ALL: also an observer added after the creation, once it is reached. -/
  notifyAll : type = .notifyAll → ∀ pre mid₁ mid₂ it result o,
    pre ++ .iterator it :: (mid₁ ++ .addObserver o :: mid₂) ++ [.getNext it result] <+: calls →
    .iterator it ∉ mid₁ → .iterator it ∉ mid₂ →
    o ∉ members (pre ++ .iterator it :: mid₁) → Stays o mid₂ →
    (∀ o' ∈ result,
      [o, o'].Sublist (members (pre ++ .iterator it :: (mid₁ ++ .addObserver o :: mid₂)))) →
    (returnedBy it mid₂).count o = 1

variable {type : NotificationType}

theorem run_wellFormed (h : run step calls (initial type) = some w) : WellFormed w :=
  run_invariant step_wellFormed h (wellFormed_initial type)

variable {result : Option α}

/-- An answer that is NULL, or an observer behind `o`, means the slot of `o` was passed. -/
theorem tracks_reached {j : Nat} (hw : WellFormed w) (ht : Tracks w it o j cursor)
    (hstep : step w (.getNext it result) = some w') (hbound : ∀ m ∈ cursor.maxIndex, j < m)
    (hpre : ∀ o' ∈ result, ∀ list, w.list = some list →
      [o, o'].Sublist list.observers.reduceOption) : passed j cursor.index = 1 := by
  obtain ⟨hcur, list, hlist, hslot⟩ := ht
  obtain ⟨cursor₀, k, hcur₀, hle, -, hnull, hmove⟩ := step_getNext hw hlist hstep
  obtain rfl : cursor = cursor₀ := by simpa [hcur] using hcur₀
  have hjk : j < k := by
    rcases hmove with ⟨a, rfl, ha, -, -⟩ | ⟨-, rfl, -⟩
    · exact slot_lt_of_sublist (hw list hlist).nodup hslot ha (hpre a rfl list hlist)
    · have hj : j < list.size := (List.getElem?_eq_some_iff.mp hslot).1
      unfold Iterator.bound
      cases hm : cursor.maxIndex with
      | none => exact hj
      | some m => exact Nat.lt_min.mpr ⟨hbound m hm, hj⟩
  unfold passed
  rw [if_pos]
  by_contra hge
  have h := hnull j (by omega) hjk
  rw [hslot] at h
  cases h

/-- The slot of a member. -/
theorem Represents.slot (h : Represents type calls w) {list : ObserverListBase α}
    (hlist : w.list = some list) (ho : o ∈ members calls) :
    ∃ j : Nat, list.observers[j]? = some (some o) := by
  rw [← (h list hlist).2, reduceOption_mem_iff] at ho
  exact mem_iff_getElem?.mp ho

variable {pre : List (Call α ι)}

/-- A new iterator tracks every member from the front of the list. -/
theorem newIterator_tracks (hpre : Represents type pre w) (hstep : step w (.iterator it) = some w')
    (ho : o ∈ members pre) :
    ∃ j cursor, Tracks w' it o j cursor ∧ cursor.index = 0 ∧ ∀ m ∈ cursor.maxIndex, j < m := by
  simp only [step] at hstep
  split_ifs at hstep
  obtain ⟨list, hlist, rfl⟩ := map_eq_some_iff.mp hstep
  obtain ⟨j, hj⟩ := hpre.slot hlist ho
  refine ⟨j, list.newIterator.1, ⟨by simp, _, rfl, hj⟩, rfl, ?_⟩
  unfold newIterator
  split_ifs
  · simp
  · have hlt := (List.getElem?_eq_some_iff.mp hj).1
    simpa [ObserverListBase.size] using hlt

/-- A returned observer: the list is there, and the cursor moved behind its slot. -/
theorem step_returned (hw : WellFormed w) (hstep : step w (.getNext it (some o)) = some w') :
    ∃ list cursor k, w.list = some list ∧ w.iterators it = some cursor ∧ cursor.index ≤ k ∧
      k < cursor.bound list.size ∧ list.observers[k]? = some (some o) ∧
      w' = { w with iterators :=
        Function.update w.iterators it (some { cursor with index := k + 1 }) } := by
  cases hlist : w.list with
  | none =>
    obtain ⟨cursor, -, hnext⟩ := bind_eq_some_iff.mp hstep
    rw [hlist] at hnext
    simp [Iterator.getNext] at hnext
  | some list =>
    obtain ⟨cursor, k, hcur, hle, -, -, hmove⟩ := step_getNext hw hlist hstep
    rcases hmove with ⟨a, ha, hslot, hk, hw'⟩ | ⟨hnone, -, -⟩
    · cases ha
      exact ⟨list, cursor, k, rfl, hcur, hle, hk, hslot, by rw [hw', hlist]⟩
    · cases hnone

theorem returned_present (h : run step (pre ++ [.getNext it (some o)]) (initial type) = some w) :
    o ∈ members pre := by
  obtain ⟨u, hu, hstep⟩ := run_concat_some h
  obtain ⟨list, cursor, k, hlist, -, -, -, hslot, -⟩ := step_returned (run_wellFormed hu) hstep
  rw [← (run_represents hu list hlist).2, reduceOption_mem_iff]
  exact mem_of_getElem? hslot

variable {mid : List (Call α ι)}

theorem returned_inOrder {o₁ o₂ : α}
    (h : run step (pre ++ .getNext it (some o₁) :: mid ++ [.getNext it (some o₂)])
      (initial type) = some w) (hnew : .iterator it ∉ mid) (hstays : Stays o₁ mid) :
    [o₁, o₂].Sublist (members (pre ++ .getNext it (some o₁) :: mid)) := by
  obtain ⟨w₂, hmid, hlast⟩ := run_concat_some h
  obtain ⟨w₀, w₁, hpre, hfirst, hrun⟩ := run_append_cons_some hmid
  have hw₀ := run_wellFormed hpre
  have hw₁ := step_wellFormed _ _ _ hw₀ hfirst
  have hw₂ := run_wellFormed hmid
  obtain ⟨list₂, cursor₂, k, hlist₂, hcur₂, hk, -, hslotk, -⟩ := step_returned hw₂ hlast
  obtain ⟨list₀, cursor₀, j, hlist₀, -, -, -, hslotj, rfl⟩ := step_returned hw₀ hfirst
  -- the first return left the cursor just behind slot j
  have ht : Tracks ⟨w₀.list, Function.update w₀.iterators it (some ⟨j + 1, cursor₀.maxIndex⟩)⟩
      it o₁ j ⟨j + 1, cursor₀.maxIndex⟩ := ⟨by simp, list₀, hlist₀, hslotj⟩
  obtain ⟨cursor, ⟨hcur, list, hlist, hslot⟩, -, hle, -⟩ :=
    run_tracks hw₁ ht hrun hnew hstays (by simp [hcur₂])
  obtain rfl : list₂ = list := by simpa [hlist₂] using hlist
  obtain rfl : cursor₂ = cursor := by simpa [hcur₂] using hcur
  have hjk : j < k := by
    simp only at hle
    omega
  rw [← (run_represents hmid list₂ hlist₂).2]
  exact sublist_of_slots hjk hslot hslotk

/-- The cursor of an iterator created in front of `mid`, for a member that stays. -/
theorem created_tracks (h : run step (pre ++ .iterator it :: mid) (initial type) = some w)
    (hlive : (w.iterators it).isSome) (hnew : .iterator it ∉ mid) (ho : o ∈ members pre)
    (hstays : Stays o mid) :
    ∃ j cursor, Tracks w it o j cursor ∧ (∀ m ∈ cursor.maxIndex, j < m) ∧
      (returnedBy it mid).count o = passed j cursor.index := by
  obtain ⟨w₀, w₁, hpre, hcreate, hrun⟩ := run_append_cons_some h
  obtain ⟨j, cursor, ht, hzero, hmax⟩ := newIterator_tracks (run_represents hpre) hcreate ho
  have hw₁ := step_wellFormed _ _ _ (run_wellFormed hpre) hcreate
  obtain ⟨cursor', ht', hmax', -, hcount⟩ := run_tracks hw₁ ht hrun hnew hstays hlive
  refine ⟨j, cursor', ht', by rwa [hmax'], ?_⟩
  rw [hzero] at hcount
  simpa [passed] using hcount

theorem live_of_getNext (hstep : step w (.getNext it result) = some w') :
    (w.iterators it).isSome := by
  obtain ⟨cursor, hcur, -⟩ := bind_eq_some_iff.mp hstep
  simp [hcur]

theorem returned_exactlyOnce
    (h : run step (pre ++ .iterator it :: mid ++ [.getNext it result]) (initial type) = some w)
    (hnew : .iterator it ∉ mid) (ho : o ∈ members pre) (hstays : Stays o mid)
    (hpre : ∀ o' ∈ result, [o, o'].Sublist (members (pre ++ .iterator it :: mid))) :
    (returnedBy it mid).count o = 1 := by
  obtain ⟨w₂, hmid, hlast⟩ := run_concat_some h
  obtain ⟨j, cursor, ht, hmax, hcount⟩ :=
    created_tracks hmid (live_of_getNext hlast) hnew ho hstays
  rw [hcount]
  refine tracks_reached (run_wellFormed hmid) ht hlast hmax ?_
  intro o' ho' list hlist
  rw [(run_represents hmid list hlist).2]
  exact hpre o' ho'

/-- An iterator not ended in a run stays live. -/
theorem run_still_live (h : run step calls w = some w') (hend : .endIterator it ∉ calls)
    (hlive : (w.iterators it).isSome) : (w'.iterators it).isSome := by
  induction calls generalizing w with
  | nil =>
    cases h
    exact hlive
  | cons call calls ih =>
    obtain ⟨u, hu, hrest⟩ := run_cons_some h
    rw [mem_cons, not_or] at hend
    refine ih hrest hend.2 ?_
    cases call with
    | iterator it' =>
      simp only [step] at hu
      split_ifs at hu
      obtain ⟨list, -, rfl⟩ := map_eq_some_iff.mp hu
      by_cases heq : it = it'
      · simp [heq]
      · simpa [heq] using hlive
    | getNext it' result =>
      obtain ⟨cursor, -, hnext⟩ := bind_eq_some_iff.mp hu
      split_ifs at hnext
      cases hnext
      by_cases heq : it = it'
      · simp [heq]
      · simpa [heq] using hlive
    | endIterator it' =>
      have hne : it ≠ it' := fun heq => hend.1 (by rw [heq])
      obtain ⟨cursor, -, rfl⟩ := map_eq_some_iff.mp hu
      simpa [hne] using hlive
    | _ =>
      obtain ⟨list, -, rfl⟩ := map_eq_some_iff.mp hu
      exact hlive

theorem returned_atMostOnce (h : run step (pre ++ .iterator it :: mid) (initial type) = some w)
    (hnew : .iterator it ∉ mid) (hend : .endIterator it ∉ mid) (ho : o ∈ members pre)
    (hstays : Stays o mid) : (returnedBy it mid).count o ≤ 1 := by
  obtain ⟨w₀, w₁, hpre, hcreate, hrun⟩ := run_append_cons_some h
  have hlive₁ : (w₁.iterators it).isSome := by
    simp only [step] at hcreate
    split_ifs at hcreate
    obtain ⟨list, -, rfl⟩ := map_eq_some_iff.mp hcreate
    simp
  obtain ⟨j, cursor, -, -, hcount⟩ :=
    created_tracks h (run_still_live hrun hend hlive₁) hnew ho hstays
  rw [hcount]
  unfold passed
  split_ifs <;> omega

theorem returned_existing (h : run step (pre ++ .iterator it :: mid ++ [.getNext it (some o)])
      (initial .notifyExistingOnly) = some w) (hnew : .iterator it ∉ mid) :
    o ∈ members pre ∧ Stays o mid := by
  obtain ⟨w₂, hmid, hlast⟩ := run_concat_some h
  obtain ⟨w₀, w₁, hpre, hcreate, hrun⟩ := run_append_cons_some hmid
  have hw₁ := step_wellFormed _ _ _ (run_wellFormed hpre) hcreate
  have hw₂ := run_wellFormed hmid
  obtain ⟨list₂, cursor₂, k, hlist₂, hcur₂, -, hk, hslot, -⟩ := step_returned hw₂ hlast
  simp only [step] at hcreate
  split_ifs at hcreate
  obtain ⟨list₀, hlist₀, rfl⟩ := map_eq_some_iff.mp hcreate
  obtain ⟨htype, hmem⟩ := run_represents hpre list₀ hlist₀
  have hmax := run_maxIndex hrun hnew (Function.update_self it _ _) hcur₂
  have hk₀ : k < list₀.size := by
    simp only [newIterator, htype, if_neg (show
      NotificationType.notifyExistingOnly ≠ .notifyAll by decide)] at hmax
    simp only [Iterator.bound, hmax] at hk
    omega
  obtain ⟨hslot₀, hstays⟩ :=
    run_slots_back hw₁ hrun hnew (by simp [hcur₂]) rfl hlist₂ hk₀ hslot
  refine ⟨?_, hstays⟩
  rw [← hmem, reduceOption_mem_iff]
  exact mem_of_getElem? hslot₀

theorem returned_added {mid₁ mid₂ : List (Call α ι)}
    (h : run step (pre ++ .iterator it :: (mid₁ ++ .addObserver o :: mid₂) ++
      [.getNext it result]) (initial .notifyAll) = some w) (hnew₁ : .iterator it ∉ mid₁)
    (hnew₂ : .iterator it ∉ mid₂) (hfresh : o ∉ members (pre ++ .iterator it :: mid₁))
    (hstays : Stays o mid₂) (hbefore : ∀ o' ∈ result,
      [o, o'].Sublist (members (pre ++ .iterator it :: (mid₁ ++ .addObserver o :: mid₂)))) :
    (returnedBy it mid₂).count o = 1 := by
  obtain ⟨w₄, hall, hlast⟩ := run_concat_some h
  have hall' := hall
  rw [show pre ++ Call.iterator it :: (mid₁ ++ .addObserver o :: mid₂) =
    (pre ++ .iterator it :: mid₁) ++ .addObserver o :: mid₂ by simp] at hall'
  obtain ⟨w₂, w₃, hmid₁, hadd, hrun₂⟩ := run_append_cons_some hall'
  obtain ⟨w₀, w₁, hpre, hcreate, hrun₁⟩ := run_append_cons_some hmid₁
  have hw₃ := step_wellFormed _ _ _ (run_wellFormed hmid₁) hadd
  have hlive₄ := live_of_getNext hlast
  have hlive₃ := run_live hrun₂ hnew₂ hlive₄
  obtain ⟨list₂, hlist₂, rfl⟩ := map_eq_some_iff.mp hadd
  obtain ⟨cursor₂, hcur₂⟩ := isSome_iff_exists.mp hlive₃
  have hmax₂ : cursor₂.maxIndex = none := by
    simp only [step] at hcreate
    split_ifs at hcreate
    obtain ⟨list₀, hlist₀, rfl⟩ := map_eq_some_iff.mp hcreate
    rw [run_maxIndex hrun₁ hnew₁ (Function.update_self it _ _) hcur₂]
    simp [newIterator, (run_represents hpre list₀ hlist₀).1]
  have hindex : cursor₂.index ≤ list₂.observers.length := by
    have hle := ((run_wellFormed hmid₁ list₂ hlist₂).inBounds it cursor₂ hcur₂).1
    simpa [Iterator.bound, hmax₂, ObserverListBase.size] using hle
  have hslots : (list₂.addObserver o).observers = list₂.observers ++ [some o] := by
    rw [← (run_represents hmid₁ list₂ hlist₂).2, reduceOption_mem_iff] at hfresh
    simp [addObserver, hfresh]
  have ht : Tracks ⟨some (list₂.addObserver o), w₂.iterators⟩ it o list₂.observers.length
      cursor₂ := ⟨hcur₂, _, rfl, by simp [hslots]⟩
  obtain ⟨cursor₄, ht₄, hmax₄, -, hcount⟩ := run_tracks hw₃ ht hrun₂ hnew₂ hstays hlive₄
  have hreached := tracks_reached (run_wellFormed hall) ht₄ hlast (by simp [hmax₄, hmax₂])
    (fun o' ho' list hlist => by
      rw [(run_represents hall list hlist).2]
      exact hbefore o' ho')
  have hzero : passed list₂.observers.length cursor₂.index = 0 :=
    if_neg (not_lt.mpr hindex)
  omega

/-- Notification under mutation: every interleaving of changes, iterators and their
answers gives the guarantees of the list's type, and NULL slots only while someone iterates. -/
theorem observers_notified {type : NotificationType} {calls : List (Call α ι)} {w : World α ι}
    (h : run step calls (initial type) = some w) :
    Notifies type calls ∧
      ∀ list, w.list = some list → none ∈ list.observers → 0 < list.notifyDepth := by
  refine ⟨⟨?_, ?_, ?_, ?_, ?_, ?_⟩, fun list hlist => (run_wellFormed h list hlist).nullSlots⟩
  · intro pre it o hp
    obtain ⟨t, ht⟩ := run_prefix h hp
    exact returned_present ht
  · intro pre mid it o₁ o₂ hp hnew hstays
    obtain ⟨t, ht⟩ := run_prefix h hp
    exact returned_inOrder ht hnew hstays
  · intro pre mid it o hp hnew hend ho hstays
    obtain ⟨t, ht⟩ := run_prefix h hp
    exact returned_atMostOnce ht hnew hend ho hstays
  · intro pre mid it result o hp hnew ho hstays hbefore
    obtain ⟨t, ht⟩ := run_prefix h hp
    exact returned_exactlyOnce ht hnew ho hstays hbefore
  · rintro rfl pre mid it o hp hnew
    obtain ⟨t, ht⟩ := run_prefix h hp
    exact returned_existing ht hnew
  · rintro rfl pre mid₁ mid₂ it result o hp hnew₁ hnew₂ hfresh hstays hbefore
    obtain ⟨t, ht⟩ := run_prefix h hp
    exact returned_added ht hnew₁ hnew₂ hfresh hstays hbefore

/-- Two nested iterators; one observer removes itself, another one is added meanwhile. -/
def nestedNotification : List (Call Nat Nat) :=
  [.addObserver 1, .addObserver 2, .iterator 0, .getNext 0 (some 1), .removeObserver 1,
    .addObserver 3, .iterator 1, .getNext 1 (some 2), .getNext 1 (some 3), .getNext 1 none,
    .endIterator 1, .getNext 0 (some 2), .getNext 0 (some 3), .getNext 0 none, .endIterator 0]

theorem observers_notified_nested : Notifies .notifyAll nestedNotification :=
  (observers_notified
    (show run step nestedNotification (initial .notifyAll) = some _ from rfl)).1

end ChromiumUI.ObserverList
