import Mathlib.Data.Finset.Card
import Mathlib.Data.List.TakeWhile

/-!
# StatsTable, the rows of the counters

The table of names that all objects share, and the map that each of them keeps of what it found.
-/
namespace ChromiumUI.StatsTables

open List Function

abbrev Name := List UInt8

def kMaxCounterNameLength : Nat := 64

def kUnknownName : Name := [0x3c, 0x75, 0x6e, 0x6b, 0x6e, 0x6f, 0x77, 0x6e, 0x3e]

/-- Up to the first zero byte. -/
def cStr (name : Name) : Name := name.takeWhile (· != 0)

/-- What `strlcpy` leaves in a row. -/
def strlcpy (name : Name) : Name := (cStr name).take (kMaxCounterNameLength - 1)

/-- `!strncmp(row_name, name.c_str(), kMaxCounterNameLength)` -/
def sameName (row name : Name) : Bool :=
  row.take kMaxCounterNameLength == (cStr name).take kMaxCounterNameLength

/-- The objects of all processes, over one segment. -/
structure StatsTable (object : Type) where
  counterNames : List Name
  counters : object × Name → Option Nat

namespace StatsTable

def findCounterOrEmptyRow (name : Name) : Nat → Nat → List Name → Nat
  | freeSlot, _, [] => freeSlot
  | freeSlot, index, row :: rows =>
    if row = [] ∧ freeSlot = 0 then findCounterOrEmptyRow name index (index + 1) rows
    else if sameName row name then index
    else findCounterOrEmptyRow name freeSlot (index + 1) rows

variable {object : Type} [DecidableEq object]

def addCounter (t : StatsTable object) (o : object) (name : Name) : Nat × StatsTable object :=
  let counterId := findCounterOrEmptyRow name 0 1 t.counterNames
  if counterId = 0 then (0, t)
  else
    (counterId,
      { counterNames := t.counterNames.set (counterId - 1)
          (strlcpy (if name = [] then kUnknownName else name))
        counters := update t.counters (o, name) counterId })

def findCounter (t : StatsTable object) (o : object) (name : Name) : Nat × StatsTable object :=
  match t.counters (o, name) with
  | some counterId => (counterId, t)
  | none => t.addCounter o name

/-- What a sequence of calls returns. -/
def rows (t : StatsTable object) : List (object × Name) → List Nat
  | [] => []
  | (o, name) :: calls => (t.findCounter o name).1 :: rows (t.findCounter o name).2 calls

def fresh (maxCounters : Nat) : StatsTable object := ⟨replicate maxCounters [], fun _ => none⟩

def Identifies (calls : List (object × Name)) (rows : List Nat) : Prop :=
  ∀ a ∈ calls.zip rows, 0 < a.2 ∧ ∀ b ∈ calls.zip rows, a.1.2 = b.1.2 ↔ a.2 = b.2

/-- What a row holds of the name is the name. -/
structure Kept (name : Name) : Prop where
  ne : name ≠ []
  zero : 0 ∉ name
  length : name.length < kMaxCounterNameLength

variable {name : Name}

theorem Kept.cStr (h : Kept name) : cStr name = name :=
  takeWhile_eq_self_iff.mpr fun _ hc => bne_iff_ne.mpr fun h0 => h.zero (h0 ▸ hc)

theorem Kept.stored (h : Kept name) :
    strlcpy (if name = [] then kUnknownName else name) = name := by
  rw [if_neg h.ne, strlcpy, h.cStr]
  exact take_of_length_le (Nat.le_sub_one_of_lt h.length)

theorem Kept.sameName_iff (h : Kept name) {row : Name} (hrow : row.length < kMaxCounterNameLength) :
    sameName row name ↔ row = name := by
  rw [sameName, h.cStr, take_of_length_le hrow.le, take_of_length_le h.length.le, beq_iff_eq]

/-- Free rows behind the first one are passed. -/
theorem find_free (h : Kept name) {freeSlot : Nat} (hfree : freeSlot ≠ 0) (index k : Nat) :
    findCounterOrEmptyRow name freeSlot index (replicate k []) = freeSlot := by
  induction k generalizing index with
  | zero => rfl
  | succ k ih =>
    have hne : ¬sameName [] name := fun heq => h.ne ((h.sameName_iff (by decide)).mp heq).symm
    rw [replicate_succ, findCounterOrEmptyRow, if_neg fun hc => hfree hc.2, if_neg hne, ih]

variable {used used' : List Name} {maxCounters : Nat}

theorem find_row (h : Kept name) (hused : ∀ row ∈ used, Kept row) {k : Nat}
    (hroom : name ∈ used ∨ 0 < k) (index : Nat) :
    findCounterOrEmptyRow name 0 (index + 1) (used ++ replicate k []) =
      used.idxOf name + (index + 1) := by
  induction used generalizing index with
  | nil =>
    obtain ⟨k, rfl⟩ := Nat.exists_eq_succ_of_ne_zero (hroom.resolve_left not_mem_nil).ne'
    rw [nil_append, replicate_succ, findCounterOrEmptyRow, if_pos ⟨rfl, rfl⟩,
      find_free h (Nat.succ_ne_zero index), idxOf_nil, Nat.zero_add]
  | cons row used ih =>
    obtain ⟨hrow, hused⟩ := forall_mem_cons.mp hused
    have hsame := h.sameName_iff hrow.length
    rw [cons_append, findCounterOrEmptyRow, if_neg fun hc => hrow.ne hc.1]
    by_cases heq : row = name
    · rw [if_pos (hsame.mpr heq), heq, idxOf_cons_self, Nat.zero_add]
    · rw [if_neg fun hs => heq (hsame.mp hs), idxOf_cons_ne used heq,
        ih hused (hroom.imp_left fun hm => (mem_cons.mp hm).resolve_left (Ne.symm heq))]
      omega

/-- The row of `name`, which is among those in use. -/
def RowOf (used : List Name) (name : Name) (row : Nat) : Prop :=
  name ∈ used ∧ row = used.idxOf name + 1

theorem RowOf.mono {row : Nat} (h : RowOf used name row) (hmore : used <+: used') :
    RowOf used' name row := by
  obtain ⟨more, rfl⟩ := hmore
  exact ⟨mem_append_left more h.1, by rw [idxOf_append_of_mem h.1]; exact h.2⟩

/-- The names in use stand in front, and what an object remembers is true. -/
structure Inv (t : StatsTable object) (names : Finset Name) (used : List Name) (maxCounters : Nat) :
    Prop where
  nodup : used.Nodup
  known : ∀ name ∈ used, name ∈ names
  rows : t.counterNames = used ++ replicate (maxCounters - used.length) []
  found : ∀ key row, t.counters key = some row → RowOf used key.2 row

variable {t : StatsTable object} {names : Finset Name} (hkept : ∀ name ∈ names, Kept name)
  (hrows : names.card ≤ maxCounters)
include hkept hrows

theorem Inv.findCounter (h : Inv t names used maxCounters) (hname : name ∈ names) (o : object) :
    ∃ used', used <+: used' ∧ Inv (t.findCounter o name).2 names used' maxCounters ∧
      RowOf used' name (t.findCounter o name).1 := by
  unfold StatsTable.findCounter
  cases hc : t.counters (o, name) with
  | some row => exact ⟨used, prefix_rfl, h, h.found (o, name) row hc⟩
  | none =>
    have hroom : name ∈ used ∨ 0 < maxCounters - used.length := by
      refine or_iff_not_imp_left.mpr fun hmem => Nat.sub_pos_of_lt (lt_of_lt_of_le ?_ hrows)
      rw [← toFinset_card_of_nodup h.nodup]
      exact Finset.card_lt_card ⟨fun n hn => h.known n (mem_toFinset.mp hn),
        fun hsub => hmem (mem_toFinset.mp (hsub hname))⟩
    have hfind := find_row (hkept name hname) (fun n hn => hkept n (h.known n hn)) hroom 0
    rw [← h.rows, Nat.zero_add] at hfind
    simp only [addCounter, hfind, Nat.succ_ne_zero, if_false, (hkept name hname).stored,
      Nat.add_sub_cancel]
    have hfound {used' : List Name} (hmore : used <+: used')
        (hrow : RowOf used' name (used.idxOf name + 1)) (key : object × Name) (row : Nat)
        (hsome : update t.counters (o, name) (some (used.idxOf name + 1)) key = some row) :
        RowOf used' key.2 row := by
      by_cases heq : key = (o, name)
      · subst heq
        rw [update_self] at hsome
        exact Option.some.inj hsome ▸ hrow
      · rw [update_of_ne heq] at hsome
        exact (h.found key row hsome).mono hmore
    by_cases hmem : name ∈ used
    · have hlt := idxOf_lt_length_of_mem hmem
      have hself := set_getElem_self hlt
      rw [getElem_idxOf] at hself
      refine ⟨used, prefix_rfl, ⟨h.nodup, h.known, ?_, hfound prefix_rfl ⟨hmem, rfl⟩⟩, hmem, rfl⟩
      rw [h.rows, set_append_left _ _ hlt, hself]
    · have hidx := idxOf_eq_length hmem
      have hrow : RowOf (used ++ [name]) name (used.idxOf name + 1) :=
        ⟨mem_append_right used (mem_singleton_self name), by
          rw [idxOf_append_of_notMem hmem, idxOf_cons_self, hidx, Nat.add_zero]⟩
      have hmore := prefix_append used [name]
      refine ⟨used ++ [name], hmore, ⟨?_, ?_, ?_, hfound hmore hrow⟩, hrow⟩
      · exact nodup_append_comm.mp (nodup_cons.mpr ⟨hmem, h.nodup⟩)
      · exact forall_mem_append.mpr ⟨h.known, forall_mem_singleton.mpr hname⟩
      · obtain ⟨k, hk⟩ := Nat.exists_eq_succ_of_ne_zero (hroom.resolve_left hmem).ne'
        rw [h.rows, hidx, set_append_right _ _ le_rfl, Nat.sub_self, hk, replicate_succ,
          set_cons_zero, append_assoc, length_append, length_singleton, Nat.sub_add_eq, hk]
        rfl

/-- All calls read their rows off one list of names. -/
theorem Inv.calls (h : Inv t names used maxCounters) (calls : List (object × Name))
    (hcalls : ∀ call ∈ calls, call.2 ∈ names) :
    ∃ used', used <+: used' ∧ ∀ a ∈ calls.zip (t.rows calls), RowOf used' a.1.2 a.2 := by
  induction calls generalizing t used with
  | nil => exact ⟨used, prefix_rfl, nofun⟩
  | cons call calls ih =>
    obtain ⟨hname, hcalls⟩ := forall_mem_cons.mp hcalls
    obtain ⟨one, hone, hinv, hrow⟩ := h.findCounter hkept hrows hname call.1
    obtain ⟨used', hmore, hrest⟩ := ih hinv hcalls
    exact ⟨used', hone.trans hmore, forall_mem_cons.mpr ⟨hrow.mono hmore, hrest⟩⟩

omit hkept hrows

/-- Calls with names that are kept whole return one row for each name. -/
theorem counters_identified (calls : List (object × Name)) (maxCounters : Nat)
    (hrows : (calls.map Prod.snd).toFinset.card ≤ maxCounters) (hkept : ∀ call ∈ calls, Kept call.2) :
    Identifies calls ((fresh maxCounters).rows calls) := by
  have hinv : Inv (fresh maxCounters : StatsTable object) (calls.map Prod.snd).toFinset []
      maxCounters := ⟨nodup_nil, nofun, rfl, nofun⟩
  obtain ⟨used, -, hused⟩ := hinv.calls (fun name hname => by
    obtain ⟨call, hcall, rfl⟩ := mem_map.mp (mem_toFinset.mp hname)
    exact hkept call hcall) hrows calls fun call hcall => mem_toFinset.mpr (mem_map_of_mem hcall)
  intro a ha
  obtain ⟨hmem, hrow⟩ := hused a ha
  refine ⟨hrow ▸ Nat.succ_pos _, fun b hb => ?_⟩
  rw [hrow, (hused b hb).2, Nat.add_right_cancel_iff, idxOf_inj hmem]

/-- One name in two objects. -/
theorem counters_identified_shared :
    Identifies [(false, [1]), (true, [1])] ((fresh 1).rows [(false, [1]), (true, [1])]) :=
  have hkept : Kept [1] := ⟨by decide, by decide, by decide⟩
  counters_identified _ 1 (by decide) (forall_mem_cons.mpr ⟨hkept, forall_mem_singleton.mpr hkept⟩)

/-- A name of 64 bytes. -/
theorem counters_doubled :
    ¬Identifies [(false, replicate 64 1), (true, replicate 64 1)]
      ((fresh 2).rows [(false, replicate 64 1), (true, replicate 64 1)]) := by
  have hrows : (fresh 2).rows [(false, replicate 64 1), (true, replicate 64 1)] = [1, 2] := by
    decide
  rw [hrows]
  intro h
  exact absurd (((h _ mem_cons_self).2 _ (mem_cons_of_mem _ mem_cons_self)).mp rfl) (by decide)

end StatsTable

end ChromiumUI.StatsTables
