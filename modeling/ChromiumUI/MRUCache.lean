import ChromiumUI.Runs
import ChromiumUI.RecencyLists
import Mathlib.Data.List.Perm.Basic

/-!
# MRUCacheBase

The payload list has nodes, and an iterator is the name of a node; names are not used again. The
index leads from the keys to the nodes. What the deletor was called with is kept.
-/
namespace ChromiumUI.Base.MruCache

/-- A node of the list, with its key and payload. -/
structure Node (κ π : Type) where
  id : Nat
  key : κ
  payload : π
  deriving DecidableEq, Repr

/-- `created` nodes were made; `deleted` is what the deletor was called on. -/
structure MRUCacheBase (κ π : Type) where
  ordering : List (Node κ π)
  index : List (κ × Nat)
  maxSize : Nat
  created : Nat
  deleted : List (Node κ π)

def noAutoEvict : Nat := 0

namespace MRUCacheBase

variable {κ π : Type} [DecidableEq κ] (c : MRUCacheBase κ π)

def new (κ π : Type) (maxSize : Nat) : MRUCacheBase κ π := ⟨[], [], maxSize, 0, []⟩

def size : Nat := c.index.length

/-- index_.find. -/
def find (key : κ) : Option Nat := (c.index.find? fun e => e.1 = key).map Prod.snd

/-- index_.insert, which changes nothing where the key is there already. -/
def indexInsert (key : κ) (id : Nat) : List (κ × Nat) :=
  if (c.find key).isSome then c.index else (key, id) :: c.index

/-- Erase; `none` if the iterator is not one of a node in the list. -/
def erase (pos : Nat) : Option (MRUCacheBase κ π) :=
  (c.ordering.find? fun n => n.id = pos).map fun n =>
    { c with
      deleted := c.deleted ++ [n]
      index := c.index.filter fun e => e.1 ≠ n.key
      ordering := c.ordering.filter fun m => m.id ≠ pos }

/-- Erase(rbegin()). -/
def eraseBack : Option (MRUCacheBase κ π) := c.ordering.getLast?.bind fun n => c.erase n.id

/-- The loop of ShrinkToSize, of so many turns. -/
def eraseBacks : Nat → MRUCacheBase κ π → Option (MRUCacheBase κ π)
  | 0, c => some c
  | n + 1, c => c.eraseBack.bind (eraseBacks n)

def shrinkToSize (newSize : Nat) : Option (MRUCacheBase κ π) :=
  eraseBacks (c.size - newSize) c

/-- ordering_.push_front and index_.insert. -/
def pushFront (key : κ) (payload : π) : MRUCacheBase κ π :=
  { c with
    ordering := ⟨c.created, key, payload⟩ :: c.ordering
    index := c.indexInsert key c.created
    created := c.created + 1 }

def put (key : κ) (payload : π) : Option (MRUCacheBase κ π) :=
  let prepared :=
    match c.find key with
    | some pos => c.erase pos
    | none => if c.maxSize ≠ noAutoEvict then c.shrinkToSize (c.maxSize - 1) else some c
  prepared.map fun c => c.pushFront key payload

/-- The cache, and the iterator that is returned; `none` for end(). -/
def get (key : κ) : Option (MRUCacheBase κ π × Option Nat) :=
  match c.find key with
  | none => some (c, none)
  | some pos =>
    -- ordering_.splice
    (c.ordering.find? fun n => n.id = pos).map fun n =>
      ({ c with ordering := n :: c.ordering.filter fun m => m.id ≠ pos }, some n.id)

def peek (key : κ) : Option Nat := c.find key

def clear : MRUCacheBase κ π :=
  { c with deleted := c.deleted ++ c.ordering, index := [], ordering := [] }

/-- The loop of the destructor, which erases the front. -/
def eraseFronts : Nat → MRUCacheBase κ π → Option (MRUCacheBase κ π)
  | 0, c => if c.ordering = [] then some c else none
  | n + 1, c =>
    match c.ordering with
    | [] => some c
    | node :: _ => (c.erase node.id).bind (eraseFronts n)

/-- The destructor; the list gets shorter with each turn. -/
def destroy : Option (MRUCacheBase κ π) := eraseFronts c.ordering.length c

end MRUCacheBase

inductive Op (κ π : Type) where
  | put (key : κ) (payload : π)
  | get (key : κ)
  | peek (key : κ)
  | erase (pos : Nat)
  | shrinkToSize (newSize : Nat)
  | clear
  deriving Repr

open MRUCacheBase

variable {κ π : Type} [DecidableEq κ]

/-- One call; refused where an iterator is not one of a node in the list. -/
def step (c : MRUCacheBase κ π) : Op κ π → Option (MRUCacheBase κ π)
  | .put key payload => c.put key payload
  | .get key => (c.get key).map Prod.fst
  | .peek _ => some c
  | .erase pos => c.erase pos
  | .shrinkToSize newSize => c.shrinkToSize newSize
  | .clear => some c.clear

/-! ## A bounded recency list

The index and the list agree after every call, each call does to the entries what the recency list
does, and every node is in the list or was given to the deletor, once. -/

open Runs RecencyLists List Option Nat

variable {κ π : Type} [DecidableEq κ]

namespace MRUCacheBase

/-- What the list holds, the node names left out. -/
def entries (c : MRUCacheBase κ π) : RecencyList κ π := c.ordering.map fun n => (n.key, n.payload)

/-- The bound of the recency list. -/
def bound (c : MRUCacheBase κ π) : Option Nat :=
  if c.maxSize ≠ noAutoEvict then some c.maxSize else none

/-- The index has the same keys as the list, each once, and leads to the nodes. -/
structure Good (c : MRUCacheBase κ π) : Prop where
  index : c.index.Perm (c.ordering.map fun n => (n.key, n.id))
  keys : (c.ordering.map Node.key).Nodup
  ids : (c.ordering.map Node.id).Nodup
  created : ∀ n ∈ c.ordering, n.id < c.created

variable {c c' : MRUCacheBase κ π} {n m : Node κ π} {key : κ} {pos : Nat}

omit [DecidableEq κ] in
theorem Good.size_eq (h : Good c) : c.size = c.ordering.length := by
  rw [size, h.index.length_eq, length_map]

omit [DecidableEq κ] in
theorem Good.eq_of_key (h : Good c) (hn : n ∈ c.ordering) (hm : m ∈ c.ordering)
    (hkey : n.key = m.key) : n = m := inj_on_of_nodup_map h.keys hn hm hkey

omit [DecidableEq κ] in
theorem Good.eq_of_id (h : Good c) (hn : n ∈ c.ordering) (hm : m ∈ c.ordering)
    (hid : n.id = m.id) : n = m := inj_on_of_nodup_map h.ids hn hm hid

theorem Good.find_some (h : Good c) (hfind : c.find key = some pos) :
    ∃ n ∈ c.ordering, n.key = key ∧ n.id = pos := by
  obtain ⟨e, he, rfl⟩ := map_eq_some_iff.mp hfind
  have hkey : e.1 = key := by simpa using find?_some he
  obtain ⟨n, hn, rfl⟩ := mem_map.mp (h.index.mem_iff.mp (mem_of_find?_eq_some he))
  exact ⟨n, hn, hkey, rfl⟩

theorem Good.find_none (h : Good c) (hfind : c.find key = none) :
    key ∉ c.ordering.map Node.key := by
  intro hkey
  obtain ⟨n, hn, rfl⟩ := mem_map.mp hkey
  have hmem : (n.key, n.id) ∈ c.index := h.index.mem_iff.mpr (mem_map_of_mem hn)
  have hnone := find?_eq_none.mp (map_eq_none_iff.mp hfind) _ hmem
  simp at hnone

theorem Good.find_of_mem (h : Good c) (hn : n ∈ c.ordering) : c.find n.key = some n.id := by
  cases hfind : c.find n.key with
  | none => exact absurd (mem_map_of_mem hn) (h.find_none hfind)
  | some pos =>
    obtain ⟨m, hm, hkey, rfl⟩ := h.find_some hfind
    rw [h.eq_of_key hm hn hkey]

theorem Good.find_of_not_mem (h : Good c) (hkey : key ∉ c.ordering.map Node.key) :
    c.find key = none := by
  cases hfind : c.find key with
  | none => rfl
  | some pos =>
    obtain ⟨n, hn, rfl, -⟩ := h.find_some hfind
    exact absurd (mem_map_of_mem hn) hkey

omit [DecidableEq κ] in
theorem Good.node_at (h : Good c) (hn : n ∈ c.ordering) :
    c.ordering.find? (fun m => m.id = n.id) = some n := by
  cases hfind : c.ordering.find? fun m => m.id = n.id with
  | none =>
    have hnone := find?_eq_none.mp hfind n hn
    simp at hnone
  | some m =>
    have hid : m.id = n.id := by simpa using find?_some hfind
    rw [h.eq_of_id (mem_of_find?_eq_some hfind) hn hid]

/-! ## Erasing -/

/-- The cache without a node of it. -/
def erased (c : MRUCacheBase κ π) (n : Node κ π) : MRUCacheBase κ π :=
  { c with
    deleted := c.deleted ++ [n]
    index := c.index.filter fun e => e.1 ≠ n.key
    ordering := c.ordering.filter fun m => m.id ≠ n.id }

theorem Good.erase_of_mem (h : Good c) (hn : n ∈ c.ordering) :
    c.erase n.id = some (c.erased n) := by
  rw [erase, h.node_at hn]
  rfl

theorem Good.filter_id (h : Good c) (hn : n ∈ c.ordering) :
    (c.ordering.filter fun m => m.id ≠ n.id) = c.ordering.filter fun m => m.key ≠ n.key := by
  refine filter_congr fun m hm => ?_
  by_cases heq : m = n
  · simp [heq]
  · have hid : m.id ≠ n.id := fun hid => heq (h.eq_of_id hm hn hid)
    have hkey : m.key ≠ n.key := fun hkey => heq (h.eq_of_key hm hn hkey)
    simp [hid, hkey]

theorem Good.erased (h : Good c) (hn : n ∈ c.ordering) : Good (c.erased n) := by
  have hsub : (c.erased n).ordering.Sublist c.ordering := filter_sublist
  refine ⟨?_, h.keys.sublist (hsub.map _), h.ids.sublist (hsub.map _),
    fun m hm => h.created m (hsub.subset hm)⟩
  show (c.index.filter _).Perm ((c.ordering.filter _).map _)
  rw [h.filter_id hn]
  refine (h.index.filter _).trans ?_
  rw [List.filter_map]
  exact Perm.of_eq rfl

theorem Good.entries_erased (h : Good c) (hn : n ∈ c.ordering) :
    (c.erased n).entries = without n.key c.entries := by
  show (c.ordering.filter _).map _ = (c.ordering.map _).filter _
  rw [h.filter_id hn, List.filter_map]
  rfl

omit [DecidableEq κ] in
/-- The nodes that stay, and the one that goes. -/
theorem Good.perm_filter (h : Good c) (hn : n ∈ c.ordering) :
    (n :: c.ordering.filter fun m => m.id ≠ n.id).Perm c.ordering := by
  obtain ⟨front, back, hsplit⟩ := append_of_mem hn
  have hids := h.ids
  rw [hsplit, map_append, map_cons] at hids
  have hothers : ∀ m ∈ front ++ back, m.id ≠ n.id := by
    intro m hm heq
    have hnot : n.id ∉ (front ++ back).map Node.id := by
      rw [map_append]
      exact (nodup_middle.mp hids).notMem
    exact hnot (heq ▸ mem_map_of_mem hm)
  have hfil : (c.ordering.filter fun m => m.id ≠ n.id) = front ++ back := by
    rw [hsplit, filter_append, filter_cons_of_neg (by simp), ← filter_append,
      filter_eq_self.mpr fun m hm => by simpa using hothers m hm]
  rw [hfil, hsplit]
  exact perm_middle.symm

omit [DecidableEq κ] in
theorem Good.filter_last {front : List (Node κ π)} (h : Good c)
    (hsplit : c.ordering = front ++ [n]) : (c.ordering.filter fun m => m.id ≠ n.id) = front := by
  have hids := h.ids
  rw [hsplit, map_append, nodup_append] at hids
  rw [hsplit, filter_append, filter_cons_of_neg (by simp), filter_nil,
    append_nil, filter_eq_self]
  intro m hm
  simpa using hids.2.2 m.id (mem_map_of_mem hm) n.id (by simp)

/-- So many turns of the loop of ShrinkToSize take as many nodes off the end. -/
theorem Good.eraseBacks (h : Good c) {turns : Nat} (hturns : turns ≤ c.ordering.length) :
    ∃ c', MRUCacheBase.eraseBacks turns c = some c' ∧ Good c' ∧
      c'.ordering = c.ordering.take (c.ordering.length - turns) ∧
      c'.deleted = c.deleted ++ (c.ordering.drop (c.ordering.length - turns)).reverse ∧
      c'.maxSize = c.maxSize ∧ c'.created = c.created := by
  induction turns generalizing c with
  | zero =>
    refine ⟨c, rfl, h, ?_, ?_, rfl, rfl⟩
    · rw [Nat.sub_zero, take_length]
    · rw [Nat.sub_zero, drop_length, reverse_nil, append_nil]
  | succ turns ih =>
    obtain ⟨front, last, hsplit⟩ : ∃ front last, c.ordering = front ++ [last] := by
      refine ⟨_, _, (dropLast_append_getLast (l := c.ordering) ?_).symm⟩
      rintro hnil
      rw [hnil] at hturns
      simp at hturns
    have hlast : last ∈ c.ordering := by simp [hsplit]
    have hback : c.eraseBack = some (c.erased last) := by
      rw [eraseBack, hsplit, getLast?_concat, bind_some, h.erase_of_mem hlast]
    have horder : (c.erased last).ordering = front := h.filter_last hsplit
    have hlen : c.ordering.length = front.length + 1 := by simp [hsplit]
    obtain ⟨c', hrun, hgood, hkept, hdel, hmax, hcreated⟩ :=
      ih (h.erased hlast) (by
        rw [horder]
        omega)
    refine ⟨c', ?_, hgood, ?_, ?_, hmax, hcreated⟩
    · rw [MRUCacheBase.eraseBacks, hback, bind_some, hrun]
    · rw [hkept, horder, hlen, hsplit, take_append_of_le_length (by omega),
        Nat.add_sub_add_right]
    · rw [hdel, horder, hlen, hsplit, drop_append_of_le_length (by omega),
        reverse_append, Nat.add_sub_add_right]
      show c.deleted ++ [last] ++ _ = _
      rw [append_assoc, reverse_singleton]

theorem Good.shrinkToSize (h : Good c) (newSize : Nat) :
    ∃ c', c.shrinkToSize newSize = some c' ∧ Good c' ∧
      c'.ordering = c.ordering.take newSize ∧
      c'.deleted = c.deleted ++ (c.ordering.drop newSize).reverse ∧
      c'.maxSize = c.maxSize ∧ c'.created = c.created := by
  obtain ⟨c', hrun, hgood, hkept, hdel, hrest⟩ :=
    h.eraseBacks (sub_le c.ordering.length newSize)
  have htake : c.ordering.length - (c.ordering.length - newSize) =
      min newSize c.ordering.length := by
    omega
  rw [htake, ← take_eq_take_min] at hkept
  refine ⟨c', ?_, hgood, hkept, ?_, hrest⟩
  · rw [MRUCacheBase.shrinkToSize, h.size_eq, hrun]
  · rw [hdel, htake]
    rcases le_total newSize c.ordering.length with hle | hle
    · rw [min_eq_left hle]
    · rw [min_eq_right hle, drop_length, drop_eq_nil_of_le hle]

/-! ## The other operations -/

theorem Good.pushFront (h : Good c) (hkey : key ∉ c.ordering.map Node.key) (payload : π) :
    Good (c.pushFront key payload) := by
  have hinsert : c.indexInsert key c.created = (key, c.created) :: c.index := by
    rw [indexInsert, h.find_of_not_mem hkey]
    rfl
  refine ⟨?_, ?_, ?_, fun n hn => ?_⟩
  · show (c.indexInsert key c.created).Perm _
    rw [hinsert]
    exact h.index.cons _
  · exact nodup_cons.mpr ⟨hkey, h.keys⟩
  · refine nodup_cons.mpr ⟨fun hid => ?_, h.ids⟩
    obtain ⟨n, hn, heq⟩ := mem_map.mp hid
    exact absurd heq (Nat.ne_of_lt (h.created n hn))
  · rcases mem_cons.mp hn with rfl | hn
    · exact lt_succ_self _
    · exact lt_succ_of_lt (h.created n hn)

/-- What Put has done: the nodes it kept behind the new one, and those it gave to the deletor. -/
structure Inserted (c : MRUCacheBase κ π) (key : κ) (payload : π) (kept gone : List (Node κ π))
    (c' : MRUCacheBase κ π) : Prop where
  good : Good c'
  ordering : c'.ordering = ⟨c.created, key, payload⟩ :: kept
  deleted : c'.deleted = c.deleted ++ gone
  perm : (gone ++ kept).Perm c.ordering
  maxSize : c'.maxSize = c.maxSize
  created : c'.created = c.created + 1

omit [DecidableEq κ] in
theorem mem_keys_entries : key ∈ c.entries.map Prod.fst ↔ key ∈ c.ordering.map Node.key := by
  rw [entries, List.map_map]
  rfl

section

variable (h : Good c)
include h

/-- Put of a key that is there already. -/
theorem Good.put_existing (hn : n ∈ c.ordering) (payload : π) :
    ∃ c', c.put n.key payload = some c' ∧
      Inserted c n.key payload (c.ordering.filter fun m => m.id ≠ n.id) [n] c' := by
  refine ⟨(c.erased n).pushFront n.key payload, ?_, ?_, rfl, rfl, h.perm_filter hn, rfl, rfl⟩
  · rw [put, h.find_of_mem hn]
    simp only [h.erase_of_mem hn, map_some]
  · refine (h.erased hn).pushFront ?_ payload
    rw [← mem_keys_entries, h.entries_erased hn]
    exact not_mem_without _ _

/-- Put of a new key into a cache with a bound. -/
theorem Good.put_new (hkey : key ∉ c.ordering.map Node.key)
    (hmax : c.maxSize ≠ noAutoEvict) (payload : π) :
    ∃ c', c.put key payload = some c' ∧
      Inserted c key payload (c.ordering.take (c.maxSize - 1))
        (c.ordering.drop (c.maxSize - 1)).reverse c' := by
  obtain ⟨shrunk, hshrink, hgood, horder, hdel, hmaxSize, hcreated⟩ :=
    h.shrinkToSize (c.maxSize - 1)
  refine ⟨shrunk.pushFront key payload, ?_, ?_, ?_, hdel, ?_, hmaxSize, ?_⟩
  · rw [put, h.find_of_not_mem hkey]
    simp only [if_pos hmax, hshrink, map_some]
  · refine hgood.pushFront (fun hmem => hkey ?_) payload
    rw [horder] at hmem
    exact ((take_sublist _ _).map _).subset hmem
  · show ⟨shrunk.created, key, payload⟩ :: shrunk.ordering = _
    rw [hcreated, horder]
  · have hperm := @perm_append_comm _ (c.ordering.drop (c.maxSize - 1)).reverse
      (c.ordering.take (c.maxSize - 1))
    refine hperm.trans (((reverse_perm _).append_left _).trans ?_)
    rw [take_append_drop]
  · show shrunk.created + 1 = _
    rw [hcreated]

/-- Put of a new key into a cache without a bound. -/
theorem Good.put_unbounded (hkey : key ∉ c.ordering.map Node.key)
    (hmax : c.maxSize = noAutoEvict) (payload : π) :
    ∃ c', c.put key payload = some c' ∧ Inserted c key payload c.ordering [] c' := by
  refine ⟨c.pushFront key payload, ?_, h.pushFront hkey payload, rfl, (append_nil _).symm,
    Perm.refl _, rfl, rfl⟩
  rw [put, h.find_of_not_mem hkey]
  simp only [if_neg (not_not.mpr hmax), map_some]

/-- Put never fails, and does to the entries what the recency list does. -/
theorem Good.put (key : κ) (payload : π) :
    ∃ kept gone c', c.put key payload = some c' ∧ Inserted c key payload kept gone c' ∧
      c'.entries = RecencyLists.put c.bound key payload c.entries := by
  by_cases hkey : key ∈ c.ordering.map Node.key
  · obtain ⟨n, hn, rfl⟩ := mem_map.mp hkey
    obtain ⟨c', hput, hins⟩ := h.put_existing hn payload
    refine ⟨_, _, c', hput, hins, ?_⟩
    rw [RecencyLists.put.eq_def, if_pos (mem_keys_entries.mpr hkey), ← h.entries_erased hn, entries,
      hins.ordering]
    rfl
  · have hents := fun hmem => hkey (mem_keys_entries.mp hmem)
    by_cases hmax : c.maxSize = noAutoEvict
    · obtain ⟨c', hput, hins⟩ := h.put_unbounded hkey hmax payload
      refine ⟨_, _, c', hput, hins, ?_⟩
      rw [RecencyLists.put.eq_def, if_neg hents, bound, if_neg (not_not.mpr hmax), entries,
        hins.ordering]
      rfl
    · obtain ⟨c', hput, hins⟩ := h.put_new hkey hmax payload
      refine ⟨_, _, c', hput, hins, ?_⟩
      rw [RecencyLists.put.eq_def, if_neg hents, bound, if_pos hmax, entries,
        hins.ordering, map_cons, map_take]
      rfl

/-- Get never fails; it changes the order and nothing else. -/
theorem Good.get (key : κ) :
    ∃ c', (c.get key).map Prod.fst = some c' ∧ Good c' ∧ c'.ordering.Perm c.ordering ∧
      c'.deleted = c.deleted ∧ c'.maxSize = c.maxSize ∧ c'.created = c.created ∧
      c'.entries = touch key c.entries := by
  by_cases hkey : key ∈ c.ordering.map Node.key
  · obtain ⟨n, hn, rfl⟩ := mem_map.mp hkey
    have hperm := h.perm_filter hn
    refine ⟨{ c with ordering := n :: c.ordering.filter fun m => m.id ≠ n.id }, ?_,
      ⟨h.index.trans (hperm.symm.map _), (hperm.map _).nodup_iff.mpr h.keys,
        (hperm.map _).nodup_iff.mpr h.ids, fun m hm => h.created m (hperm.mem_iff.mp hm)⟩,
      hperm, rfl, rfl, rfl, ?_⟩
    · rw [MRUCacheBase.get, h.find_of_mem hn]
      simp only [h.node_at hn, map_some]
    · have hfind : c.entries.find? (fun e => e.1 = n.key) = some (n.key, n.payload) := by
        rw [entries, find?_map]
        have hnode : c.ordering.find? (fun m => m.key = n.key) = some n := by
          cases hfind : c.ordering.find? fun m => m.key = n.key with
          | none =>
            have hnone := find?_eq_none.mp hfind n hn
            simp at hnone
          | some m =>
            have hsame : m.key = n.key := by simpa using find?_some hfind
            rw [h.eq_of_key (mem_of_find?_eq_some hfind) hn hsame]
        exact congrArg (Option.map _) hnode
      rw [touch, hfind]
      rw [← h.entries_erased hn]
      rfl
  · refine ⟨c, ?_, h, Perm.refl _, rfl, rfl, rfl, ?_⟩
    · rw [MRUCacheBase.get, h.find_of_not_mem hkey]
      rfl
    · have hnone : c.entries.find? (fun e => e.1 = key) = none := by
        rw [find?_eq_none]
        intro e he heq
        refine hkey (mem_keys_entries.mp (mem_map.mpr ⟨e, he, ?_⟩))
        simpa using heq
      rw [touch, hnone]

end

omit [DecidableEq κ] in
theorem good_clear (c : MRUCacheBase κ π) : Good c.clear :=
  ⟨Perm.refl _, nodup_nil, nodup_nil, nofun⟩

/-- The destructor gives every node that is left to the deletor. -/
theorem Good.destroy (h : Good c) :
    ∃ d, c.destroy = some d ∧ d.ordering = [] ∧ d.index = [] ∧
      d.deleted = c.deleted ++ c.ordering := by
  rw [MRUCacheBase.destroy]
  generalize hlen : c.ordering.length = turns
  induction turns generalizing c with
  | zero =>
    have hnil := length_eq_zero_iff.mp hlen
    refine ⟨c, if_pos hnil, hnil, ?_, ?_⟩
    · have hindex := h.index
      rw [hnil, map_nil] at hindex
      exact hindex.eq_nil
    · rw [hnil, append_nil]
  | succ turns ih =>
    obtain ⟨node, rest, hsplit⟩ := exists_cons_of_length_eq_add_one hlen
    have hnode : node ∈ c.ordering := by simp [hsplit]
    have hrest : (c.erased node).ordering = rest := by
      have hids := h.ids
      rw [hsplit, map_cons, nodup_cons] at hids
      show (c.ordering.filter _) = rest
      rw [hsplit, filter_cons_of_neg (by simp), filter_eq_self]
      intro m hm
      simp only [ne_eq, decide_eq_true_eq]
      exact fun heq => hids.1 (heq ▸ mem_map_of_mem hm)
    obtain ⟨d, hrun, horder, hindex, hdel⟩ := ih (h.erased hnode) (by
      rw [hrest]
      rw [hsplit, length_cons] at hlen
      omega)
    refine ⟨d, ?_, horder, hindex, ?_⟩
    · rw [eraseFronts, hsplit]
      simp only
      rw [h.erase_of_mem hnode]
      exact hrun
    · rw [hdel, hrest, hsplit]
      exact append_assoc ..

end MRUCacheBase

open MRUCacheBase

/-! ## Histories -/

/-- The key that a call uses. -/
def Op.used : Op κ π → Option κ
  | .put key _ => some key
  | .get key => some key
  | _ => none

/-- The place in the history of the last call that used the key, counted from 1. -/
def lastUse (ops : List (Op κ π)) (key : κ) : Nat :=
  match ops.reverse.findIdx? fun op => op.used = some key with
  | some i => ops.length - i
  | none => 0

/-- The node that a call makes. -/
def madeNodes (id : Nat) : Op κ π → List (Node κ π)
  | .put key payload => [⟨id, key, payload⟩]
  | _ => []

/-- The nodes that the calls of a history made. -/
def putNodes (ops : List (Op κ π)) : List (Node κ π) :=
  (ops.filterMap fun | .put key payload => some (key, payload) | _ => none).zipIdx.map
    fun e => ⟨e.2, e.1.1, e.1.2⟩

theorem lastUse_concat (ops : List (Op κ π)) (op : Op κ π) :
    lastUse (ops ++ [op]) = match op.used with
      | some key => Function.update (lastUse ops) key (ops.length + 1)
      | none => lastUse ops := by
  funext k
  rw [lastUse, reverse_append, reverse_singleton, singleton_append,
    findIdx?_cons, length_append, length_singleton]
  have hlater : op.used ≠ some k → (match
      (if decide (op.used = some k) = true then some 0 else
        Option.map (fun i => i + 1) (ops.reverse.findIdx? fun op => op.used = some k)) with
      | some i => ops.length + 1 - i
      | none => 0) = lastUse ops k := by
    intro hne
    rw [if_neg (by simpa using hne), lastUse]
    cases ops.reverse.findIdx? fun op => op.used = some k with
    | none => rfl
    | some i => exact Nat.add_sub_add_right ..
  cases hused : op.used with
  | none =>
    rw [hused] at hlater
    exact hlater nofun
  | some key =>
    by_cases hkey : key = k
    · subst hkey
      simp
    · rw [hused] at hlater
      rw [hlater (by simpa using hkey)]
      exact (Function.update_of_ne (Ne.symm hkey) _ _).symm

omit [DecidableEq κ] in
theorem putNodes_concat (ops : List (Op κ π)) (op : Op κ π) :
    putNodes (ops ++ [op]) = putNodes ops ++ madeNodes (putNodes ops).length op := by
  unfold putNodes
  rw [filterMap_append, zipIdx_append, map_append, length_map,
    length_zipIdx]
  cases op <;> simp [madeNodes]

omit [DecidableEq κ] in
theorem putNodes_ids (ops : List (Op κ π)) : ((putNodes ops).map Node.id).Nodup := by
  have hids : (putNodes ops).map Node.id = range (putNodes ops).length := by
    unfold putNodes
    rw [List.map_map, List.length_map, List.length_zipIdx, List.range_eq_range']
    exact zipIdx_map_snd 0 _
  rw [hids]
  exact nodup_range

/-- What a call does to the recency list; an iterator stands for the key of its node. -/
def recencyStep (c : MRUCacheBase κ π) (op : Op κ π) (l : RecencyList κ π) : RecencyList κ π :=
  match op with
  | .put key payload => RecencyLists.put c.bound key payload l
  | .get key => touch key l
  | .peek _ => l
  | .erase pos => (c.ordering.find? fun n => n.id = pos).elim l fun n => without n.key l
  | .shrinkToSize newSize => l.take newSize
  | .clear => []

/-- What holds of a cache after a history. -/
structure After (maxSize : Nat) (ops : List (Op κ π)) (c : MRUCacheBase κ π) : Prop where
  good : Good c
  sameMax : c.maxSize = maxSize
  recent : Recent (lastUse ops) ops.length c.entries
  bounded : maxSize ≠ noAutoEvict → c.ordering.length ≤ maxSize
  nodes : (c.deleted ++ c.ordering).Perm (putNodes ops)
  created : c.created = (putNodes ops).length

/-- One call: what it does to the entries, to the nodes and to the size. -/
structure Stepped (c : MRUCacheBase κ π) (op : Op κ π) (c' : MRUCacheBase κ π) : Prop where
  good : Good c'
  maxSize : c'.maxSize = c.maxSize
  entries : c'.entries = recencyStep c op c.entries
  nodes : (c'.deleted ++ c'.ordering).Perm (c.deleted ++ c.ordering ++ madeNodes c.created op)
  created : c'.created = c.created + (madeNodes c.created op).length

variable {c : MRUCacheBase κ π}

theorem put_stepped (h : Good c) (key : κ) (payload : π) :
    ∃ c', c.put key payload = some c' ∧ Stepped c (.put key payload) c' := by
  obtain ⟨kept, gone, c', hput, hins, hents⟩ := h.put key payload
  refine ⟨c', hput, hins.good, hins.maxSize, hents, ?_, hins.created⟩
  rw [hins.deleted, hins.ordering, append_assoc, append_assoc]
  refine Perm.append_left _ ?_
  exact perm_middle.trans ((hins.perm.cons _).trans (perm_append_singleton _ _).symm)

/-- Every call but Erase of an iterator that is none of a node has an outcome. -/
theorem step_total (h : Good c) (op : Op κ π) :
    (∃ c', step c op = some c' ∧ Stepped c op c') ∨
      ∃ pos, op = .erase pos ∧ pos ∉ c.ordering.map Node.id ∧ step c op = none := by
  cases op with
  | put key payload => exact .inl (put_stepped h key payload)
  | get key =>
    obtain ⟨c', hget, hgood, hperm, hdel, hmax, hcreated, hents⟩ := h.get key
    refine .inl ⟨c', hget, hgood, hmax, hents, ?_, hcreated⟩
    simp only [hdel, madeNodes, append_nil]
    exact hperm.append_left _
  | peek key =>
    refine .inl ⟨c, rfl, h, rfl, rfl, ?_, rfl⟩
    simp only [madeNodes, append_nil, Perm.refl]
  | erase pos =>
    by_cases hpos : pos ∈ c.ordering.map Node.id
    · obtain ⟨n, hn, rfl⟩ := mem_map.mp hpos
      refine .inl ⟨c.erased n, h.erase_of_mem hn, h.erased hn, rfl, ?_, ?_, rfl⟩
      · rw [h.entries_erased hn, recencyStep, h.node_at hn]
        rfl
      · simp only [madeNodes, append_nil]
        show (c.deleted ++ [n] ++ _).Perm _
        rw [append_assoc]
        exact (h.perm_filter hn).append_left _
    · refine .inr ⟨pos, rfl, hpos, ?_⟩
      refine map_eq_none_iff.mpr (find?_eq_none.mpr fun n hn heq => hpos ?_)
      exact mem_map.mpr ⟨n, hn, by simpa using heq⟩
  | shrinkToSize newSize =>
    obtain ⟨c', hshrink, hgood, horder, hdel, hmax, hcreated⟩ := h.shrinkToSize newSize
    refine .inl ⟨c', hshrink, hgood, hmax, ?_, ?_, hcreated⟩
    · rw [MRUCacheBase.entries, horder, map_take]
      rfl
    · simp only [hdel, horder, madeNodes, append_nil, append_assoc]
      refine Perm.append_left _ ?_
      refine ((reverse_perm _).append_right _).trans (perm_append_comm.trans ?_)
      rw [take_append_drop]
  | clear =>
    refine .inl ⟨c.clear, rfl, good_clear c, rfl, rfl, ?_, rfl⟩
    exact Perm.refl _

theorem step_stepped {c' : MRUCacheBase κ π} {op : Op κ π} (h : Good c)
    (hstep : step c op = some c') : Stepped c op c' := by
  rcases step_total h op with ⟨d, hd, hstepped⟩ | ⟨pos, -, -, hnone⟩
  · rw [hd] at hstep
    cases hstep
    exact hstepped
  · rw [hnone] at hstep
    cases hstep

omit [DecidableEq κ] in
theorem length_entries (c : MRUCacheBase κ π) : c.entries.length = c.ordering.length :=
  length_map _

/-- A call keeps the order of the keys that of their last uses. -/
theorem recent_step {ops : List (Op κ π)} {op : Op κ π}
    (h : Recent (lastUse ops) ops.length c.entries) :
    Recent (lastUse (ops ++ [op])) (ops.length + 1) (recencyStep c op c.entries) := by
  rw [lastUse_concat]
  cases op with
  | put key payload => exact recent_put h _ key payload
  | get key => exact recent_touch h key
  | peek key => exact h.wait
  | erase pos =>
    refine h.wait.sublist ?_
    rw [recencyStep]
    cases c.ordering.find? fun n => n.id = pos with
    | none => exact Sublist.refl _
    | some n => exact without_sublist _ _
  | shrinkToSize newSize => exact h.wait.sublist (take_sublist _ _)
  | clear => exact h.wait.sublist (nil_sublist _)

/-- A call keeps the size within the bound. -/
theorem length_recencyStep_le {op : Op κ π} (hmax : c.maxSize ≠ noAutoEvict)
    (h : c.entries.length ≤ c.maxSize) : (recencyStep c op c.entries).length ≤ c.maxSize := by
  cases op with
  | put key payload =>
    rw [recencyStep, bound, if_pos hmax]
    exact length_put_le (Nat.pos_of_ne_zero hmax) h
  | get key => exact length_touch_le.trans h
  | peek key => exact h
  | erase pos =>
    rw [recencyStep]
    cases c.ordering.find? fun n => n.id = pos with
    | none => exact h
    | some n => exact (without_sublist _ _).length_le.trans h
  | shrinkToSize newSize => exact (take_sublist _ _).length_le.trans h
  | clear => exact zero_le _

theorem run_after {maxSize : Nat} {ops : List (Op κ π)}
    (h : run step ops (new κ π maxSize) = some c) : After maxSize ops c := by
  refine run_history (P := After maxSize) ?_ ?_ h
  · exact ⟨⟨Perm.refl _, nodup_nil, nodup_nil, nofun⟩, rfl,
      ⟨Pairwise.nil, nofun⟩, fun _ => zero_le _, Perm.refl _, rfl⟩
  · intro ops c op c' hafter hstep
    have hstepped := step_stepped hafter.good hstep
    refine ⟨hstepped.good, hstepped.maxSize.trans hafter.sameMax, ?_, fun hmax => ?_, ?_, ?_⟩
    · rw [hstepped.entries, length_append, length_singleton]
      exact recent_step hafter.recent
    · rw [← length_entries, hstepped.entries, ← hafter.sameMax]
      refine length_recencyStep_le (hafter.sameMax ▸ hmax) ?_
      rw [length_entries, hafter.sameMax]
      exact hafter.bounded hmax
    · rw [putNodes_concat, ← hafter.created]
      exact hstepped.nodes.trans (hafter.nodes.append_right _)
    · rw [putNodes_concat, length_append, ← hafter.created]
      exact hstepped.created

/-- After every history the index and the list have the same keys, each once and leading to its own
node, in the order of the last uses and within the bound; a new key takes the place of the last
node of a full cache, a known key that of its own node; calls are refused for foreign iterators
only, and do what the recency list does; and each node that was made is in the list or was given to
the deletor, and not both or twice. -/
theorem mruCache_refines (maxSize : Nat) (ops : List (Op κ π)) (c : MRUCacheBase κ π)
    (h : run step ops (new κ π maxSize) = some c) :
    (c.index.Perm (c.ordering.map fun n => (n.key, n.id)) ∧
      (c.ordering.map Node.key).Nodup ∧ (c.ordering.map Node.id).Nodup) ∧
    ((c.ordering.map Node.key).Pairwise fun k k' => lastUse ops k' < lastUse ops k) ∧
    (maxSize ≠ noAutoEvict → c.size ≤ maxSize) ∧
    (∀ key payload, key ∉ c.ordering.map Node.key → maxSize ≠ noAutoEvict → c.size = maxSize →
      ∃ front last c', c.ordering = front ++ [last] ∧ c.put key payload = some c' ∧
        c'.ordering = ⟨c.created, key, payload⟩ :: front ∧ c'.deleted = c.deleted ++ [last]) ∧
    (∀ n ∈ c.ordering, ∀ payload, ∃ c', c.put n.key payload = some c' ∧
      c'.ordering = ⟨c.created, n.key, payload⟩ :: (c.ordering.filter fun m => m.id ≠ n.id) ∧
        c'.deleted = c.deleted ++ [n]) ∧
    (∀ op, (∃ c', step c op = some c' ∧ c'.entries = recencyStep c op c.entries) ∨
      ∃ pos, op = .erase pos ∧ pos ∉ c.ordering.map Node.id) ∧
    ((c.deleted ++ c.ordering).Perm (putNodes ops) ∧
      ((c.deleted ++ c.ordering).map Node.id).Nodup) ∧
    ∃ d, c.destroy = some d ∧ d.ordering = [] ∧ d.deleted.Perm (putNodes ops) := by
  have hafter := run_after h
  have hgood := hafter.good
  refine ⟨⟨hgood.index, hgood.keys, hgood.ids⟩, ?_, fun hmax => ?_, ?_, ?_, ?_,
    ⟨hafter.nodes, (hafter.nodes.map _).nodup_iff.mpr (putNodes_ids ops)⟩, ?_⟩
  · have hsorted := hafter.recent.sorted
    rwa [entries, List.map_map] at hsorted
  · rw [hgood.size_eq]
    exact hafter.bounded hmax
  · intro key payload hkey hmax hfull
    rw [hgood.size_eq] at hfull
    obtain ⟨c', hput, hinserted⟩ :=
      hgood.put_new hkey (by rw [hafter.sameMax]; exact hmax) payload
    rw [hafter.sameMax] at hinserted
    obtain ⟨front, last, hsplit⟩ : ∃ front last, c.ordering = front ++ [last] := by
      refine ⟨_, _, (dropLast_append_getLast (l := c.ordering) ?_).symm⟩
      rintro hnil
      rw [hnil] at hfull
      exact hmax hfull.symm
    have hfront : maxSize - 1 = front.length := by
      rw [hsplit, length_append, length_singleton] at hfull
      omega
    refine ⟨front, last, c', hsplit, hput, ?_, ?_⟩
    · rw [hinserted.ordering, hfront, hsplit, take_left]
    · rw [hinserted.deleted, hfront, hsplit, drop_left, reverse_singleton]
  · intro n hn payload
    obtain ⟨c', hput, hinserted⟩ := hgood.put_existing hn payload
    exact ⟨c', hput, hinserted.ordering, hinserted.deleted⟩
  · intro op
    rcases step_total hgood op with ⟨c', hstep, hstepped⟩ | ⟨pos, hop, hpos, -⟩
    · exact .inl ⟨c', hstep, hstepped.entries⟩
    · exact .inr ⟨pos, hop, hpos⟩
  · obtain ⟨d, hdestroy, hordering, -, hdeleted⟩ := hgood.destroy
    refine ⟨d, hdestroy, hordering, ?_⟩
    rw [hdeleted]
    exact hafter.nodes

/-- Two entries at most: the second of three is evicted once the first was read again. -/
theorem mruCache_refines_three :
    ∃ c : MRUCacheBase Nat Nat, run step [.put 1 10, .put 2 20, .get 1, .put 3 30] (new Nat Nat 2) =
      some c ∧ c.deleted = [⟨1, 2, 20⟩] ∧ c.size ≤ 2 :=
  ⟨_, rfl, rfl,
    (mruCache_refines 2 [.put 1 10, .put 2 20, .get 1, .put 3 30] _ rfl).2.2.1 (by decide)⟩

end ChromiumUI.Base.MruCache
