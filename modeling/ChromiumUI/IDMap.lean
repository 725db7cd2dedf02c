import ChromiumUI.LiveCursors
import ChromiumUI.Runs
import Mathlib.Data.Set.Card

/-!
# IDMap and its iterators

The hash table is the list of its entries in iteration order. What an insertion
does to that order is up to the hash table, so a call of Add carries the table
it left; a call that moves an iterator carries the key it landed on.
-/
namespace ChromiumUI.IdMap

set_option linter.unusedSectionVars false

open Runs LiveCursors List Option

/-- Values are pointers: `none` is NULL. -/
abbrev HashTable (V : Type*) := List (Int × Option V)

/-- `removedIds` lists a std::set: it has no order that matters. -/
structure IDMap (V : Type*) where
  iterationDepth : Nat
  removedIds : List Int
  nextId : Int
  data : HashTable V
  checkOnNullData : Bool

variable {V ι : Type*} [DecidableEq V] [DecidableEq ι]

namespace IDMap

section

variable (map : IDMap V)

/-- What data_.find(id) points at; `none` is data_.end(). -/
def find (id : Int) : Option (Option V) :=
  map.data.lookup id

def remove (id : Int) : IDMap V :=
  match map.find id with
  | none => map
  | some _ =>
    if map.iterationDepth = 0 then { map with data := map.data.eraseP (fun i => i.1 == id) }
    else { map with removedIds := map.removedIds.insert id }

def lookup (id : Int) : Option V :=
  match map.find id with
  | none => none
  | some data => data

def size : Nat := map.data.length - map.removedIds.length

def isEmpty : Bool := map.size == 0

def compact : IDMap V :=
  { map.removedIds.foldl remove map with removedIds := [] }

/-- The destructor of an Iterator. -/
def endIterator : IDMap V :=
  let map := { map with iterationDepth := map.iterationDepth - 1 }
  if map.iterationDepth = 0 then map.compact else map

end

/-- The insertion data_[id] = data may leave the entries in any order. The DCHECK
asks that the id has no entry yet, the CHECK that the data is not NULL if so set. -/
def insert (map : IDMap V) (data : Option V) (id : Int) (table : HashTable V) : Option (IDMap V) :=
  if (map.find id).isNone ∧ (map.checkOnNullData → data.isSome) ∧
      table.Perm ((id, data) :: map.data) then
    some { map with data := table }
  else none

end IDMap

/-- From this entry on, the key of the first one that was not removed. -/
def skipRemovedEntries (removedIds : List Int) : HashTable V → Option Int
  | [] => none
  | i :: rest => if i.1 ∈ removedIds then skipRemovedEntries removedIds rest else some i.1

/-- ++iter_ for an iterator at `key`. -/
def entriesAfter (key : Int) : HashTable V → HashTable V
  | [] => []
  | i :: rest => if i.1 = key then rest else entriesAfter key rest

/-- The map and its live iterators: at a key, or at the end (`none`). -/
structure World (V ι : Type*) where
  map : IDMap V
  iterators : ι → Option (Option Int)

inductive Call (V ι : Type*) where
  | add (data : Option V) (id : Int) (table : HashTable V)
  | addWithID (data : Option V) (id : Int) (table : HashTable V)
  | remove (id : Int)
  | iterator (it : ι) (landed : Option Int)
  | advance (it : ι) (landed : Option Int)
  | endIterator (it : ι)
  deriving DecidableEq

def initial (checkOnNullData : Bool) : World V ι :=
  ⟨⟨0, [], 1, [], checkOnNullData⟩, fun _ => none⟩

def step (w : World V ι) : Call V ι → Option (World V ι)
  | .add data id table =>
    if id = w.map.nextId then
      (w.map.insert data id table).map fun map =>
        { w with map := { map with nextId := map.nextId + 1 } }
    else none
  | .addWithID data id table => (w.map.insert data id table).map fun map => { w with map := map }
  | .remove id => some { w with map := w.map.remove id }
  | .iterator it landed =>
    if w.iterators it = none ∧ landed = skipRemovedEntries w.map.removedIds w.map.data then
      some ⟨{ w.map with iterationDepth := w.map.iterationDepth + 1 },
        Function.update w.iterators it (some landed)⟩
    else none
  | .advance it landed =>
    match w.iterators it with
    | some (some key) =>
      if landed = skipRemovedEntries w.map.removedIds (entriesAfter key w.map.data) then
        some { w with iterators := Function.update w.iterators it (some landed) }
      else none
    | _ => none
  | .endIterator it =>
    (w.iterators it).map fun _ => ⟨w.map.endIterator, Function.update w.iterators it none⟩

/-! ## The hash table as a finite map -/

def keys (table : HashTable V) : List Int :=
  table.map Prod.fst

@[simp] theorem keys_nil : keys ([] : HashTable V) = [] := rfl

@[simp] theorem keys_cons (i : Int × Option V) (table : HashTable V) :
    keys (i :: table) = i.1 :: keys table := rfl

variable {table : HashTable V}

theorem lookup_eq_none_iff {id : Int} : table.lookup id = none ↔ id ∉ keys table := by
  induction table with
  | nil => simp
  | cons i table ih =>
    rw [lookup_cons, keys_cons, mem_cons]
    by_cases h : id = i.1
    · simp [h]
    · have hne : (id == i.1) = false := by simpa using h
      simp [hne, h, ih]

theorem lookup_isSome_iff {id : Int} : (table.lookup id).isSome ↔ id ∈ keys table := by
  rw [isSome_iff_ne_none, Ne, lookup_eq_none_iff, not_not]

theorem lookup_eq_some_iff (hn : (keys table).Nodup) {id : Int} {data : Option V} :
    table.lookup id = some data ↔ (id, data) ∈ table := by
  induction table with
  | nil => simp
  | cons i table ih =>
    rw [keys_cons, nodup_cons] at hn
    rw [lookup_cons, mem_cons]
    by_cases h : id = i.1
    · subst h
      have hnot : (i.1, data) ∉ table := fun hmem => hn.1 (mem_map.mpr ⟨_, hmem, rfl⟩)
      simp [hnot, Prod.ext_iff, eq_comm]
    · have hne : (id == i.1) = false := by simpa using h
      simp [hne, ih hn.2, Prod.ext_iff, h]

/-- The order of the entries does not matter for lookups. -/
theorem lookup_perm {table' : HashTable V} (hn : (keys table').Nodup) (hp : table.Perm table')
    (id : Int) : table.lookup id = table'.lookup id := by
  have hn' : (keys table).Nodup := ((hp.map Prod.fst).nodup_iff).mpr hn
  ext data
  rw [lookup_eq_some_iff hn, lookup_eq_some_iff hn', hp.mem_iff]

theorem eraseP_eq_filter (hn : (keys table).Nodup) (id : Int) :
    table.eraseP (fun i => i.1 == id) = table.filter (fun i => i.1 ≠ id) := by
  induction table with
  | nil => rfl
  | cons i table ih =>
    rw [keys_cons, nodup_cons] at hn
    by_cases h : i.1 = id
    · have hall : ∀ j ∈ table, decide (j.1 ≠ id) = true := by
        intro j hj
        have hne : j.1 ≠ id := fun heq => hn.1 (by rw [h, ← heq]; exact mem_map_of_mem hj)
        simpa using hne
      rw [filter_cons_of_neg (by simpa using h), filter_eq_self.mpr hall]
      simp [h]
    · rw [filter_cons_of_pos (by simpa using h), eraseP_cons_of_neg (by simpa using h),
        ih hn.2]

theorem keys_filter_sublist (table : HashTable V) (p : Int × Option V → Bool) :
    (keys (table.filter p)).Sublist (keys table) :=
  filter_sublist.map Prod.fst

theorem lookup_filter (hn : (keys table).Nodup) (p : Int → Bool) (id : Int) :
    (table.filter (fun i => p i.1)).lookup id = if p id then table.lookup id else none := by
  have hn' : (keys (table.filter (fun i => p i.1))).Nodup := (keys_filter_sublist _ _).nodup hn
  ext data
  rw [lookup_eq_some_iff hn']
  split_ifs with h
  · simp [lookup_eq_some_iff hn, h]
  · simp [h]

theorem skipRemovedEntries_split {removedIds : List Int} {key : Int}
    (h : skipRemovedEntries removedIds table = some key) :
    key ∉ removedIds ∧ ∃ before after, keys table = before ++ key :: after := by
  induction table with
  | nil => cases h
  | cons i table ih =>
    simp only [skipRemovedEntries] at h
    split_ifs at h with hremoved
    · obtain ⟨hkey, before, after, heq⟩ := ih h
      exact ⟨hkey, i.1 :: before, after, by rw [keys_cons, heq]; rfl⟩
    · cases h
      exact ⟨hremoved, [], keys table, rfl⟩

theorem keys_entriesAfter (hn : (keys table).Nodup) {key : Int} {before after : List Int}
    (h : keys table = before ++ key :: after) : keys (entriesAfter key table) = after := by
  induction table generalizing before with
  | nil => simp at h
  | cons i table ih =>
    rw [keys_cons, nodup_cons] at hn
    rw [keys_cons] at h
    simp only [entriesAfter]
    cases before with
    | nil =>
      simp only [nil_append, List.cons.injEq] at h
      rw [if_pos h.1, h.2]
    | cons b before =>
      simp only [cons_append, List.cons.injEq] at h
      have hne : i.1 ≠ key := by
        intro heq
        exact hn.1 (by rw [h.2, heq]; simp)
      rw [if_neg hne]
      exact ih hn.2 h.2

theorem entriesAfter_subset (key : Int) (table : HashTable V) :
    ∀ k ∈ keys (entriesAfter key table), k ∈ keys table := by
  induction table with
  | nil => simp [entriesAfter]
  | cons i table ih =>
    intro k hk
    simp only [entriesAfter] at hk
    split_ifs at hk with h
    · exact mem_cons_of_mem i.1 hk
    · exact mem_cons_of_mem i.1 (ih k hk)

/-! ## IDMap refines a finite map

The ids pending removal stay in the hash table until the outermost iterator
ends; the present ids are the others. What a client can observe is compared with
the finite map it has in mind. -/

/-! ## The finite map a client has in mind -/

def afterCall (contents : Int → Option (Option V)) : Call V ι → Int → Option (Option V)
  | .add data id _ => Function.update contents id (some data)
  | .addWithID data id _ => Function.update contents id (some data)
  | .remove id => Function.update contents id none
  | _ => contents

/-- The ids added and not removed by these calls, with their data. -/
def contents (calls : List (Call V ι)) : Int → Option (Option V) :=
  calls.foldl afterCall fun _ => none

@[simp] theorem contents_nil (id : Int) : contents ([] : List (Call V ι)) id = none := rfl

@[simp] theorem contents_concat (calls : List (Call V ι)) (call : Call V ι) :
    contents (calls ++ [call]) = afterCall (contents calls) call := by
  simp [contents]

def presentIds (calls : List (Call V ι)) : Set Int :=
  {id | (contents calls id).isSome}

/-- The key this call moved the iterator to. -/
def landing (it : ι) : Call V ι → Option Int
  | .iterator it' landed => if it' = it then landed else none
  | .advance it' landed => if it' = it then landed else none
  | _ => none

def landings (it : ι) (calls : List (Call V ι)) : List Int :=
  calls.filterMap (landing it)

/-- The insertions of these calls leave the entries the table had in their order. -/
def KeepsOrder : List (Call V ι) → World V ι → Prop
  | [], _ => True
  | call :: calls, w =>
    (match call with
      | .add _ _ table => (keys w.map.data).Sublist (keys table)
      | .addWithID _ _ table => (keys w.map.data).Sublist (keys table)
      | _ => True) ∧
    ∀ w', step w call = some w' → KeepsOrder calls w'

/-! ## The invariant -/

/-- Every id pending removal has an entry, and only while someone iterates. -/
structure MapOk (map : IDMap V) (iterators : ι → Option (Option Int)) : Prop where
  counted : Counts iterators map.iterationDepth
  nodup : (keys map.data).Nodup
  removedNodup : map.removedIds.Nodup
  removedHere : ∀ id ∈ map.removedIds, id ∈ keys map.data
  idle : map.iterationDepth = 0 → map.removedIds = []

/-- Present are the ids with an entry that is not pending removal. -/
def Represents (calls : List (Call V ι)) (w : World V ι) : Prop :=
  ∀ id, contents calls id = if id ∈ w.map.removedIds then none else w.map.find id

variable {map map' : IDMap V} {data : Option V} {table : HashTable V}

theorem insert_spec {id : Int} (h : map.insert data id table = some map') :
    id ∉ keys map.data ∧ table.Perm ((id, data) :: map.data) ∧
      map' = { map with data := table } := by
  unfold IDMap.insert at h
  split_ifs at h with hc
  cases h
  obtain ⟨hfind, -, hp⟩ := hc
  exact ⟨lookup_eq_none_iff.mp (by simpa [IDMap.find] using hfind), hp, rfl⟩

variable {iterators : ι → Option (Option Int)}

theorem insert_ok {id : Int} (hok : MapOk map iterators)
    (h : map.insert data id table = some map') : MapOk map' iterators := by
  obtain ⟨hnew, hp, rfl⟩ := insert_spec h
  have hkeys : (keys table).Perm (id :: keys map.data) := hp.map Prod.fst
  refine ⟨hok.counted, ?_, hok.removedNodup, fun id' hid' => ?_, hok.idle⟩
  · exact hkeys.nodup_iff.mpr (List.nodup_cons.mpr ⟨hnew, hok.nodup⟩)
  · exact hkeys.mem_iff.mpr (List.mem_cons_of_mem id (hok.removedHere id' hid'))

theorem find_insert {id : Int} (hok : MapOk map iterators)
    (h : map.insert data id table = some map') (id' : Int) :
    map'.find id' = if id' = id then some data else map.find id' := by
  obtain ⟨hnew, hp, rfl⟩ := insert_spec h
  have hn : (keys ((id, data) :: map.data)).Nodup := List.nodup_cons.mpr ⟨hnew, hok.nodup⟩
  unfold IDMap.find
  rw [lookup_perm hn hp, List.lookup_cons]
  by_cases heq : id' = id
  · simp [heq]
  · have hne : (id' == id) = false := by simpa using heq
    simp [hne, heq]

/-- At depth 0 an id is erased at once, during an iteration it only becomes pending. -/
theorem remove_data (hn : (keys map.data).Nodup) (id : Int) :
    map.remove id =
      if map.iterationDepth = 0 then { map with data := map.data.filter (fun i => i.1 ≠ id) }
      else if id ∈ keys map.data then { map with removedIds := map.removedIds.insert id }
      else map := by
  unfold IDMap.remove
  cases hfind : map.find id with
  | none =>
    have hnot : id ∉ keys map.data := lookup_eq_none_iff.mp hfind
    have hall : map.data.filter (fun i => i.1 ≠ id) = map.data := by
      refine List.filter_eq_self.mpr fun i hi => ?_
      have hne : i.1 ≠ id := fun heq => hnot (by rw [← heq]; exact List.mem_map_of_mem hi)
      simpa using hne
    rw [hall, if_neg hnot, ite_self]
  | some data =>
    have hmem : id ∈ keys map.data := by
      by_contra hnot
      rw [IDMap.find, lookup_eq_none_iff.mpr hnot] at hfind
      cases hfind
    rw [eraseP_eq_filter hn, if_pos hmem]

theorem remove_ok (hok : MapOk map iterators) (id : Int) : MapOk (map.remove id) iterators := by
  rw [remove_data hok.nodup]
  split_ifs with hdepth hmem
  · refine ⟨hok.counted, (keys_filter_sublist _ _).nodup hok.nodup, hok.removedNodup, ?_, hok.idle⟩
    simp [hok.idle hdepth]
  · refine ⟨hok.counted, hok.nodup, hok.removedNodup.insert, fun id' hid' => ?_, fun h => ?_⟩
    · rcases List.mem_insert_iff.mp hid' with rfl | h
      · exact hmem
      · exact hok.removedHere id' h
    · exact absurd h hdepth
  · exact hok

variable {calls : List (Call V ι)} {w : World V ι}

theorem represents_remove (hok : MapOk w.map w.iterators) (h : Represents calls w) (id : Int) :
    Represents (calls ++ [.remove id]) { w with map := w.map.remove id } := by
  intro id'
  rw [contents_concat]
  simp only [afterCall, Function.update_apply, h id', remove_data hok.nodup, IDMap.find]
  by_cases hdepth : w.map.iterationDepth = 0
  · rw [if_pos hdepth]
    simp only [lookup_filter hok.nodup (fun k => decide (k ≠ id)), hok.idle hdepth]
    by_cases heq : id' = id <;> simp [heq]
  · rw [if_neg hdepth]
    by_cases hmem : id ∈ keys w.map.data
    · rw [if_pos hmem]
      by_cases heq : id' = id <;> simp [heq]
    · rw [if_neg hmem]
      by_cases heq : id' = id
      · simp [heq, lookup_eq_none_iff.mpr hmem]
      · simp [heq]

theorem represents_insert {id : Int} (hok : MapOk w.map w.iterators) (h : Represents calls w)
    (hins : w.map.insert data id table = some map') (id' : Int) :
    Function.update (contents calls) id (some data) id' =
      if id' ∈ map'.removedIds then none else map'.find id' := by
  rw [find_insert hok hins, Function.update_apply, h id']
  obtain ⟨hnew, -, rfl⟩ := insert_spec hins
  by_cases heq : id' = id
  · have hnot : id ∉ w.map.removedIds := fun hmem => hnew (hok.removedHere id hmem)
    simp [heq, hnot]
  · simp [heq]

/-- Compact at depth 0 leaves the entries that were not pending removal. -/
theorem foldl_remove (hn : (keys map.data).Nodup) (hdepth : map.iterationDepth = 0) (ids : List Int)
    :
    ids.foldl IDMap.remove map = { map with data := map.data.filter (fun i => i.1 ∉ ids) } := by
  induction ids generalizing map with
  | nil => simp
  | cons id ids ih =>
    have hn' := (keys_filter_sublist map.data fun i => i.1 ≠ id).nodup hn
    rw [List.foldl_cons, remove_data hn, if_pos hdepth, ih]
    · simp [List.filter_filter, Bool.and_comm]
    · exact hn'
    · exact hdepth

theorem endIterator_data (hn : (keys map.data).Nodup) :
    map.endIterator =
      if map.iterationDepth - 1 = 0 then
        { map with
          iterationDepth := 0
          removedIds := []
          data := map.data.filter (fun i => i.1 ∉ map.removedIds) }
      else { map with iterationDepth := map.iterationDepth - 1 } := by
  simp only [IDMap.endIterator]
  by_cases hzero : map.iterationDepth - 1 = 0
  · rw [if_pos hzero, if_pos hzero, IDMap.compact, foldl_remove]
    · simp [hzero]
    · exact hn
    · exact hzero
  · rw [if_neg hzero, if_neg hzero]

theorem step_ok (w : World V ι) (call : Call V ι) (w' : World V ι)
    (hok : MapOk w.map w.iterators) (hstep : step w call = some w') :
    MapOk w'.map w'.iterators := by
  cases call with
  | add data id table =>
    simp only [step] at hstep
    split_ifs at hstep
    obtain ⟨map, hmap, rfl⟩ := Option.map_eq_some_iff.mp hstep
    have h := insert_ok hok hmap
    exact ⟨h.counted, h.nodup, h.removedNodup, h.removedHere, h.idle⟩
  | addWithID data id table =>
    obtain ⟨map, hmap, rfl⟩ := Option.map_eq_some_iff.mp hstep
    exact insert_ok hok hmap
  | remove id =>
    cases hstep
    exact remove_ok hok id
  | iterator it landed =>
    simp only [step] at hstep
    split_ifs at hstep with hc
    cases hstep
    exact ⟨hok.counted.create hc.1 _, hok.nodup, hok.removedNodup, hok.removedHere,
      fun h => absurd h (Nat.succ_ne_zero _)⟩
  | advance it landed =>
    simp only [step] at hstep
    split at hstep
    next key hkey =>
      split_ifs at hstep
      cases hstep
      exact ⟨hok.counted.move (by simp [hkey]) _, hok.nodup, hok.removedNodup, hok.removedHere,
        hok.idle⟩
    next => cases hstep
  | endIterator it =>
    obtain ⟨cursor, hcur, rfl⟩ := Option.map_eq_some_iff.mp hstep
    have hcounted := hok.counted.destroy (show (w.iterators it).isSome by simp [hcur])
    rw [endIterator_data hok.nodup]
    by_cases hzero : w.map.iterationDepth - 1 = 0
    · rw [hzero] at hcounted
      rw [if_pos hzero]
      exact ⟨hcounted, (keys_filter_sublist _ _).nodup hok.nodup, List.nodup_nil, by simp,
        fun _ => rfl⟩
    · rw [if_neg hzero]
      exact ⟨hcounted, hok.nodup, hok.removedNodup, hok.removedHere, fun h => absurd h hzero⟩

theorem step_represents {w' : World V ι} {call : Call V ι} (hok : MapOk w.map w.iterators)
    (h : Represents calls w) (hstep : step w call = some w') : Represents (calls ++ [call]) w' := by
  cases call with
  | add data id table =>
    simp only [step] at hstep
    split_ifs at hstep
    obtain ⟨map, hmap, rfl⟩ := Option.map_eq_some_iff.mp hstep
    intro id'
    rw [contents_concat]
    exact represents_insert hok h hmap id'
  | addWithID data id table =>
    obtain ⟨map, hmap, rfl⟩ := Option.map_eq_some_iff.mp hstep
    intro id'
    rw [contents_concat]
    exact represents_insert hok h hmap id'
  | remove id =>
    cases hstep
    exact represents_remove hok h id
  | iterator it landed =>
    simp only [step] at hstep
    split_ifs at hstep
    cases hstep
    intro id'
    rw [contents_concat]
    exact h id'
  | advance it landed =>
    simp only [step] at hstep
    split at hstep
    next key hkey =>
      split_ifs at hstep
      cases hstep
      intro id'
      rw [contents_concat]
      exact h id'
    next => cases hstep
  | endIterator it =>
    obtain ⟨cursor, -, rfl⟩ := Option.map_eq_some_iff.mp hstep
    intro id'
    rw [contents_concat, endIterator_data hok.nodup]
    by_cases hzero : w.map.iterationDepth - 1 = 0
    · rw [if_pos hzero]
      simp only [afterCall, IDMap.find, lookup_filter hok.nodup (fun k => decide (k ∉ w.map.removedIds)), h id']
      by_cases hmem : id' ∈ w.map.removedIds <;> simp [hmem]
    · rw [if_neg hzero]
      exact h id'

theorem initial_ok (checkOnNullData : Bool) :
    MapOk (initial checkOnNullData : World V ι).map (initial checkOnNullData : World V ι).iterators :=
  ⟨counts_none, List.nodup_nil, List.nodup_nil, by simp [initial], fun _ => rfl⟩

theorem run_ok {checkOnNullData : Bool} (h : run step calls (initial checkOnNullData) = some w) :
    MapOk w.map w.iterators :=
  run_invariant (P := fun w => MapOk w.map w.iterators) step_ok h (initial_ok checkOnNullData)

theorem run_represents {checkOnNullData : Bool}
    (h : run step calls (initial checkOnNullData) = some w) : Represents calls w := by
  have hboth : MapOk w.map w.iterators ∧ Represents calls w := by
    refine run_history (P := fun calls w => MapOk w.map w.iterators ∧ Represents calls w) ?_ ?_ h
    · exact ⟨initial_ok checkOnNullData, fun id => by simp [initial, IDMap.find]⟩
    · intro calls w call w' hP hstep
      exact ⟨step_ok w call w' hP.1 hstep, step_represents hP.1 hP.2 hstep⟩
  exact hboth.2

/-! ## Iterating an IDMap

A live iterator has visited a sublist of the keys in front of it, so no key is
visited twice while the hash table keeps its order; and what every client can
rely on. -/

open List Option Function

/-- The iterator has visited some keys in table order, the last one being where it stands. -/
def Visited (w : World V ι) (it : ι) (visited : List Int) : Prop :=
  ∃ position before after, w.iterators it = some position ∧
    keys w.map.data = before ++ after ∧ visited.Sublist before ∧
    ∀ key, position = some key → ∃ passed, before = passed ++ [key]

variable {it : ι} {visited : List Int}

theorem Visited.nodup (h : Visited w it visited) (hn : (keys w.map.data).Nodup) :
    visited.Nodup := by
  obtain ⟨position, before, after, -, hkeys, hsub, -⟩ := h
  rw [hkeys] at hn
  exact hsub.nodup (Nodup.of_append_left hn)

/-- Landing behind `before`: the next key that is not removed joins the visited ones. -/
theorem visited_landed {table : HashTable V} {before : List Int} {landed : Option Int}
    (hit : w.iterators it = some landed) (hkeys : keys w.map.data = before ++ keys table)
    (hsub : visited.Sublist before) (hlanded : landed = skipRemovedEntries w.map.removedIds table) :
    Visited w it (visited ++ landed.toList) := by
  cases hl : landed with
  | none => exact ⟨none, before, keys table, by rw [hit, hl], hkeys, by simpa using hsub, by simp⟩
  | some key =>
    rw [hl] at hlanded
    obtain ⟨-, skipped, after, hsplit⟩ := skipRemovedEntries_split hlanded.symm
    refine ⟨some key, before ++ (skipped ++ [key]), after, by rw [hit, hl], ?_, ?_, ?_⟩
    · rw [hkeys, hsplit]
      simp
    · exact hsub.append ((sublist_append_right skipped [key]))
    · intro key' hkey'
      cases hkey'
      exact ⟨before ++ skipped, by simp⟩

variable {w' : World V ι}

/-- An insertion that keeps the order keeps what was visited in front of the iterator. -/
theorem visited_insert (h : Visited w it visited) (hit : w'.iterators it = w.iterators it)
    (hsub : (keys w.map.data).Sublist (keys w'.map.data)) : Visited w' it visited := by
  obtain ⟨position, before, after, hpos, hkeys, hvisited, hend⟩ := h
  cases hp : position with
  | none =>
    refine ⟨none, keys w'.map.data, [], by rw [hit, hpos, hp], by simp, ?_, by simp⟩
    rw [hkeys] at hsub
    exact hvisited.trans ((sublist_append_left before after).trans hsub)
  | some key =>
    obtain ⟨passed, rfl⟩ := hend key hp
    rw [hkeys, append_sublist_iff] at hsub
    obtain ⟨front, back, hfront, hpre, -⟩ := hsub
    rw [append_sublist_iff] at hpre
    obtain ⟨front₁, front₂, rfl, hpassed, hkey⟩ := hpre
    obtain ⟨mid, rest, rfl⟩ := append_of_mem (singleton_sublist.mp hkey)
    refine ⟨some key, front₁ ++ mid ++ [key], rest ++ back, by rw [hit, hpos, hp], ?_, ?_, ?_⟩
    · rw [hfront]
      simp
    · refine hvisited.trans (Sublist.append_right ?_ [key])
      exact hpassed.trans (sublist_append_left front₁ mid)
    · intro key' hkey'
      cases hkey'
      exact ⟨front₁ ++ mid, rfl⟩

variable {calls : List (Call V ι)}

/-- The calls of others and insertions in order move no live iterator. -/
theorem step_visited {call : Call V ι} (hok : MapOk w.map w.iterators) (h : Visited w it visited)
    (hstep : step w call = some w') (horder : KeepsOrder (call :: calls) w)
    (hlive : (w'.iterators it).isSome) : Visited w' it (visited ++ (landing it call).toList) := by
  have hlive₀ : (w.iterators it).isSome := by
    obtain ⟨position, -, -, hpos, -⟩ := h
    simp [hpos]
  cases call with
  | add data id table =>
    simp only [step] at hstep
    split_ifs at hstep
    obtain ⟨map, hmap, rfl⟩ := map_eq_some_iff.mp hstep
    obtain ⟨-, -, rfl⟩ := insert_spec hmap
    simp only [landing, toList_none, append_nil]
    exact visited_insert h rfl horder.1
  | addWithID data id table =>
    obtain ⟨map, hmap, rfl⟩ := map_eq_some_iff.mp hstep
    obtain ⟨-, -, rfl⟩ := insert_spec hmap
    simp only [landing, toList_none, append_nil]
    exact visited_insert h rfl horder.1
  | remove id =>
    cases hstep
    simp only [landing, toList_none, append_nil]
    have hdata : (w.map.remove id).data = w.map.data := by
      rw [remove_data hok.nodup, if_neg (hok.counted.depth_ne_zero hlive₀)]
      split_ifs <;> rfl
    exact visited_insert h rfl (by simp [hdata])
  | iterator it' landed =>
    simp only [step] at hstep
    split_ifs at hstep with hc
    cases hstep
    have hne : it ≠ it' := by
      rintro rfl
      simp [hc.1] at hlive₀
    simp only [landing, if_neg (Ne.symm hne), toList_none, append_nil]
    exact visited_insert h (update_of_ne hne _ _) (Sublist.refl _)
  | advance it' landed =>
    simp only [step] at hstep
    split at hstep
    next key hkey =>
      split_ifs at hstep with hlanded
      cases hstep
      by_cases heq : it' = it
      · subst heq
        obtain ⟨position, before, after, hpos, hkeys, hvisited, hend⟩ := h
        obtain rfl : position = some key := by simpa [hkey] using hpos.symm
        obtain ⟨passed, rfl⟩ := hend key rfl
        have hsplit : keys w.map.data = passed ++ key :: after := by simpa using hkeys
        have hafter := keys_entriesAfter hok.nodup hsplit
        simp only [landing, if_true]
        exact visited_landed (update_self _ _ _) (by rw [hafter]; exact hkeys) hvisited
          hlanded
      · simp only [landing, if_neg heq, toList_none, append_nil]
        exact visited_insert h (update_of_ne (Ne.symm heq) _ _) (Sublist.refl _)
    next => cases hstep
  | endIterator it' =>
    obtain ⟨cursor, hcur, rfl⟩ := map_eq_some_iff.mp hstep
    have hne : it ≠ it' := by
      rintro rfl
      simp at hlive
    have hdepth : w.map.iterationDepth - 1 ≠ 0 :=
      (hok.counted.destroy (show (w.iterators it').isSome by simp [hcur])).depth_ne_zero hlive
    simp only [landing, toList_none, append_nil]
    refine visited_insert h (update_of_ne hne _ _) ?_
    rw [endIterator_data hok.nodup, if_neg hdepth]

theorem landing_eq_none {call : Call V ι} (hstep : step w call = some w')
    (hdead : w'.iterators it = none) : landing it call = none := by
  cases call with
  | iterator it' landed =>
    simp only [step] at hstep
    split_ifs at hstep
    cases hstep
    refine if_neg ?_
    rintro rfl
    simp at hdead
  | advance it' landed =>
    simp only [step] at hstep
    split at hstep
    next key hkey =>
      split_ifs at hstep
      cases hstep
      refine if_neg ?_
      rintro rfl
      simp at hdead
    next => cases hstep
  | _ => rfl

/-- Nothing is visited by an iterator that is not live and not created again. -/
theorem landings_dead (h : run step calls w = some w')
    (hnew : ∀ landed, .iterator it landed ∉ calls) (hdead : w.iterators it = none) :
    landings it calls = [] := by
  induction calls generalizing w with
  | nil => rfl
  | cons call calls ih =>
    obtain ⟨u, hu, hrest⟩ := run_cons_some h
    have hnew' : ∀ landed, .iterator it landed ∉ calls :=
      fun landed hmem => hnew landed (mem_cons_of_mem call hmem)
    have hdeadu : u.iterators it = none := by
      cases call with
      | add data id table =>
        simp only [step] at hu
        split_ifs at hu
        obtain ⟨map, -, rfl⟩ := map_eq_some_iff.mp hu
        exact hdead
      | addWithID data id table =>
        obtain ⟨map, -, rfl⟩ := map_eq_some_iff.mp hu
        exact hdead
      | remove id =>
        cases hu
        exact hdead
      | iterator it' landed =>
        have hne : it ≠ it' := by
          rintro rfl
          exact hnew landed mem_cons_self
        simp only [step] at hu
        split_ifs at hu
        cases hu
        exact (update_of_ne hne _ _).trans hdead
      | advance it' landed =>
        simp only [step] at hu
        split at hu
        next key hkey =>
          split_ifs at hu
          cases hu
          have hne : it ≠ it' := by
            rintro rfl
            simp [hdead] at hkey
          exact (update_of_ne hne _ _).trans hdead
        next => cases hu
      | endIterator it' =>
        obtain ⟨cursor, -, rfl⟩ := map_eq_some_iff.mp hu
        by_cases heq : it = it'
        · simp [heq]
        · exact (update_of_ne heq _ _).trans hdead
    have hrest' := ih hrest hnew' hdeadu
    unfold landings at hrest' ⊢
    rw [filterMap_cons, landing_eq_none hu hdeadu, hrest']

theorem run_visited (hok : MapOk w.map w.iterators) (h : Visited w it visited)
    (hrun : run step calls w = some w') (hnew : ∀ landed, .iterator it landed ∉ calls)
    (horder : KeepsOrder calls w) : (visited ++ landings it calls).Nodup := by
  induction calls generalizing w visited with
  | nil => simpa [landings] using h.nodup hok.nodup
  | cons call calls ih =>
    obtain ⟨u, hu, hrest⟩ := run_cons_some hrun
    have hnew' : ∀ landed, .iterator it landed ∉ calls :=
      fun landed hmem => hnew landed (mem_cons_of_mem call hmem)
    have hcons : landings it (call :: calls) = (landing it call).toList ++ landings it calls := by
      unfold landings
      rw [filterMap_cons]
      cases landing it call <;> rfl
    rw [hcons, ← append_assoc]
    cases hlive : u.iterators it with
    | some position =>
      have hu' := step_visited hok h hu horder (by simp [hlive])
      exact ih (step_ok w call u hok hu) hu' hrest hnew' (horder.2 u hu)
    | none =>
      rw [landing_eq_none hu hlive, landings_dead hrest hnew' hlive]
      simpa using h.nodup hok.nodup

/-! ## What a client can rely on -/

theorem Represents.mem_presentIds (h : Represents calls w) {id : Int} :
    id ∈ presentIds calls ↔ id ∉ w.map.removedIds ∧ id ∈ keys w.map.data := by
  rw [presentIds, Set.mem_ofPred_eq, h id]
  by_cases hmem : id ∈ w.map.removedIds
  · simp [hmem]
  · rw [if_neg hmem, IDMap.find, lookup_isSome_iff]
    simp [hmem]

/-- A call that lands on a key lands on a present one. -/
theorem landing_present {call : Call V ι} {key : Int} (h : Represents calls w)
    (hstep : step w call = some w') (hland : landing it call = some key) :
    key ∈ presentIds calls := by
  have hkept : ∀ table : HashTable V, skipRemovedEntries w.map.removedIds table = some key →
      (∀ k ∈ keys table, k ∈ keys w.map.data) → key ∈ presentIds calls := by
    intro table hskip hsub
    obtain ⟨hnot, before, after, hsplit⟩ := skipRemovedEntries_split hskip
    exact h.mem_presentIds.mpr ⟨hnot, hsub key (by rw [hsplit]; simp)⟩
  cases call with
  | iterator it' landed =>
    simp only [landing] at hland
    split_ifs at hland
    subst hland
    simp only [step] at hstep
    split_ifs at hstep with hc
    exact hkept w.map.data hc.2.symm (fun k hk => hk)
  | advance it' landed =>
    simp only [landing] at hland
    split_ifs at hland
    subst hland
    simp only [step] at hstep
    split at hstep
    next key' hkey' =>
      split_ifs at hstep with hc
      exact hkept _ hc.symm (entriesAfter_subset key' w.map.data)
    next => cases hstep
  | _ => cases hland

/-- A new iterator has visited where it stands. -/
theorem created_visited {landed : Option Int} (hstep : step w (.iterator it landed) = some w') :
    Visited w' it landed.toList := by
  simp only [step] at hstep
  split_ifs at hstep with hc
  cases hstep
  have hvisited : Visited ⟨{ w.map with iterationDepth := w.map.iterationDepth + 1 },
      update w.iterators it (some landed)⟩ it ([] ++ landed.toList) :=
    visited_landed (update_self _ _ _) rfl Sublist.slnil hc.2
  exact hvisited

theorem size_eq_ncard (hok : MapOk w.map w.iterators) (h : Represents calls w) :
    w.map.size = (presentIds calls).ncard := by
  have hset : presentIds calls =
      ((keys w.map.data).toFinset \ w.map.removedIds.toFinset : Finset Int) := by
    ext id
    rw [h.mem_presentIds]
    simp [and_comm]
  have hsub : w.map.removedIds.toFinset ⊆ (keys w.map.data).toFinset := by
    intro id hid
    simpa using hok.removedHere id (by simpa using hid)
  rw [hset, Set.ncard_coe_finset, Finset.card_sdiff_of_subset hsub,
    toFinset_card_of_nodup hok.nodup, toFinset_card_of_nodup hok.removedNodup,
    IDMap.size, keys, length_map]

/-- What holds after any calls: present ids are found, size and IsEmpty count them, iterators
stand on present ids only and on none twice, and without iterators nothing else is left. -/
structure Refines (checkOnNullData : Bool) (calls : List (Call V ι)) (w : World V ι) : Prop where
  lookup : ∀ id data, contents calls id = some data → w.map.lookup id = data
  lookupRemoved : (∀ it, w.iterators it = none) → ∀ id, contents calls id = none →
    w.map.lookup id = none
  size : w.map.size = (presentIds calls).ncard
  isEmpty : w.map.isEmpty ↔ presentIds calls = ∅
  lands : ∀ pre call it key, pre ++ [call] <+: calls → landing it call = some key →
    key ∈ presentIds pre
  visitsOnce : ∀ pre it landed mid w₀, pre ++ .iterator it landed :: mid <+: calls →
    run step pre (initial checkOnNullData) = some w₀ →
    KeepsOrder (.iterator it landed :: mid) w₀ → (∀ landed', .iterator it landed' ∉ mid) →
    (landings it (.iterator it landed :: mid)).Nodup
  compacted : (∀ it, w.iterators it = none) →
    w.map.removedIds = [] ∧ (keys w.map.data).Nodup ∧ ∀ id, w.map.find id = contents calls id

/-- Remove of the entry an iterator stands on, a nested iterator, and the map in between. -/
def removalDuringIteration : List (Call Nat Nat) :=
  [.add (some 10) 1 [(1, some 10)], .add (some 20) 2 [(1, some 10), (2, some 20)],
    .iterator 0 (some 1), .remove 1, .iterator 1 (some 2), .advance 1 none, .endIterator 1,
    .advance 0 (some 2), .endIterator 0]

def lookupAfterRemove : List (Call Nat Nat) :=
  [.add (some 10) 1 [(1, some 10)], .iterator 0 (some 1), .remove 1]

/-- The third insertion makes the table grow, and the two entries change places. -/
def growthDuringIteration : List (Call Nat Nat) :=
  [.addWithID (some 10) 200 [(200, some 10)],
    .addWithID (some 20) 100 [(200, some 10), (100, some 20)],
    .iterator 0 (some 200), .advance 0 (some 100),
    .addWithID (some 30) 1 [(1, some 30), (100, some 20), (200, some 10)],
    .advance 0 (some 200)]

end ChromiumUI.IdMap
