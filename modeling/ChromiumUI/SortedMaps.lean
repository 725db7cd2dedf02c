import Mathlib

/-!
# Maps that keep their keys in order

The entries stand in the order of their keys, each key once, so two maps with the same values are
the same.
-/
namespace ChromiumUI.SortedMaps

open List Option

variable {K V : Type*} [LinearOrder K]

/-- A map as the list of its entries. -/
structure SortedMap (K V : Type*) [LinearOrder K] where
  entries : List (K × V)
  sorted : entries.Pairwise (fun a b => a.1 < b.1)

/-- The entries with `v` at `k`. -/
def putEntry (k : K) (v : V) : List (K × V) → List (K × V)
  | [] => [(k, v)]
  | e :: es =>
    match cmp k e.1 with
    | .lt => (k, v) :: e :: es
    | .eq => (k, v) :: es
    | .gt => e :: putEntry k v es

variable {k : K} {es : List (K × V)}

theorem mem_putEntry {v : V} {a : K × V} (h : a ∈ putEntry k v es) : a = (k, v) ∨ a ∈ es := by
  induction es with
  | nil => exact Or.inl (mem_singleton.mp h)
  | cons e es ih =>
    rw [putEntry] at h
    cases hcmp : cmp k e.1 with
    | lt => simpa [hcmp] using h
    | eq =>
      rw [hcmp] at h
      exact (mem_cons.mp h).imp id (mem_cons_of_mem e)
    | gt =>
      rw [hcmp] at h
      rcases mem_cons.mp h with rfl | h
      · exact Or.inr (by simp)
      · exact (ih h).imp id (mem_cons_of_mem e)

theorem putEntry_sorted (k : K) (v : V) (h : es.Pairwise (fun a b => a.1 < b.1)) :
    (putEntry k v es).Pairwise (fun a b => a.1 < b.1) := by
  induction es with
  | nil => exact pairwise_singleton _ _
  | cons e es ih =>
    obtain ⟨hhead, htail⟩ := pairwise_cons.mp h
    rw [putEntry]
    cases hcmp : cmp k e.1 with
    | lt =>
      have hk := (cmp_eq_lt_iff ..).mp hcmp
      refine pairwise_cons.mpr ⟨fun a ha => ?_, h⟩
      rcases mem_cons.mp ha with rfl | ha
      · exact hk
      · exact hk.trans (hhead a ha)
    | eq =>
      have hk := (cmp_eq_eq_iff ..).mp hcmp
      exact pairwise_cons.mpr ⟨fun a ha => hk ▸ hhead a ha, htail⟩
    | gt =>
      have hk := (cmp_eq_gt_iff ..).mp hcmp
      refine pairwise_cons.mpr ⟨fun a ha => ?_, ih htail⟩
      rcases mem_putEntry ha with rfl | ha
      · exact hk
      · exact hhead a ha

/-- The first value listed for a key. -/
def firstOf (k : K) : List (K × V) → Option V
  | [] => none
  | e :: es => if k = e.1 then some e.2 else firstOf k es

/-- The last value listed for a key. -/
def lastOf (k : K) (es : List (K × V)) : Option V := firstOf k es.reverse

theorem firstOf_append (k : K) (es es' : List (K × V)) :
    firstOf k (es ++ es') = (firstOf k es).or (firstOf k es') := by
  induction es with
  | nil => rfl
  | cons e es ih => by_cases h : k = e.1 <;> simp [firstOf, h, ih]

theorem lastOf_cons (k : K) (e : K × V) (es : List (K × V)) :
    lastOf k (e :: es) = (lastOf k es).or (if k = e.1 then some e.2 else none) := by
  rw [lastOf, reverse_cons, firstOf_append]
  rfl

theorem firstOf_isSome_iff : (firstOf k es).isSome ↔ k ∈ es.map Prod.fst := by
  induction es with
  | nil => simp [firstOf]
  | cons e es ih => by_cases h : k = e.1 <;> simp [firstOf, h, ← ih]

theorem lastOf_isSome_iff : (lastOf k es).isSome ↔ k ∈ es.map Prod.fst := by
  rw [lastOf, firstOf_isSome_iff, map_reverse, mem_reverse]

theorem mem_of_firstOf {v : V} (h : firstOf k es = some v) : (k, v) ∈ es := by
  induction es with
  | nil => cases h
  | cons e es ih =>
    rw [firstOf] at h
    split_ifs at h with hk
    · cases h
      simp [hk]
    · exact mem_cons_of_mem e (ih h)

/-- The first and the last value of a key are the same if all of them are. -/
theorem lastOf_eq_firstOf (h : ∀ v w, (k, v) ∈ es → (k, w) ∈ es → v = w) :
    lastOf k es = firstOf k es := by
  by_cases hk : k ∈ es.map Prod.fst
  · obtain ⟨v, hv⟩ := isSome_iff_exists.mp (firstOf_isSome_iff.mpr hk)
    obtain ⟨w, hw⟩ := isSome_iff_exists.mp (lastOf_isSome_iff.mpr hk)
    rw [hv, hw, h v w (mem_of_firstOf hv) (mem_reverse.mp (mem_of_firstOf hw))]
  · rw [not_isSome_iff_eq_none.mp (mt lastOf_isSome_iff.mp hk),
      not_isSome_iff_eq_none.mp (mt firstOf_isSome_iff.mp hk)]

theorem firstOf_putEntry (k k' : K) (v : V) (es : List (K × V)) :
    firstOf k' (putEntry k v es) = if k' = k then some v else firstOf k' es := by
  induction es with
  | nil => rfl
  | cons e es ih =>
    rw [putEntry, firstOf]
    cases hcmp : cmp k e.1 with
    | lt => rfl
    | eq =>
      have hk : k = e.1 := (cmp_eq_eq_iff ..).mp hcmp
      rw [firstOf, hk]
      by_cases h : k' = e.1 <;> simp [h]
    | gt =>
      have hk : e.1 < k := (cmp_eq_gt_iff ..).mp hcmp
      rw [firstOf, ih]
      by_cases h : k' = k
      · simp [h, hk.ne']
      · simp [h]

/-- With every key once, an entry is what its key finds. -/
theorem firstOf_eq_some_iff_mem {v : V} (h : es.Pairwise (fun a b => a.1 ≠ b.1)) :
    firstOf k es = some v ↔ (k, v) ∈ es := by
  induction es with
  | nil => simp [firstOf]
  | cons e es ih =>
    obtain ⟨hhead, htail⟩ := pairwise_cons.mp h
    rw [firstOf]
    by_cases hk : k = e.1
    · subst hk
      have hnot : (e.1, v) ∉ es := fun hmem => hhead _ hmem rfl
      simp [hnot, Prod.ext_iff, eq_comm]
    · simp [hk, ih htail, Prod.ext_iff]

namespace SortedMap

def empty : SortedMap K V := ⟨[], List.Pairwise.nil⟩

def find (m : SortedMap K V) (k : K) : Option V := firstOf k m.entries

def keys (m : SortedMap K V) : List K := m.entries.map Prod.fst

def put (m : SortedMap K V) (k : K) (v : V) : SortedMap K V :=
  ⟨putEntry k v m.entries, putEntry_sorted k v m.sorted⟩

/-- The entries of a list put into the map one after the other. -/
def putAll (es : List (K × V)) (m : SortedMap K V) : SortedMap K V :=
  es.foldl (fun m e => m.put e.1 e.2) m

@[simp] theorem find_empty (k : K) : (empty : SortedMap K V).find k = none := rfl

@[simp] theorem find_put (m : SortedMap K V) (k k' : K) (v : V) :
    (m.put k v).find k' = if k' = k then some v else m.find k' :=
  firstOf_putEntry k k' v m.entries

theorem distinct (m : SortedMap K V) : m.entries.Pairwise (fun a b => a.1 ≠ b.1) :=
  m.sorted.imp ne_of_lt

theorem find_eq_some_iff (m : SortedMap K V) {v : V} :
    m.find k = some v ↔ (k, v) ∈ m.entries := firstOf_eq_some_iff_mem m.distinct

theorem mem_keys_iff (m : SortedMap K V) : k ∈ m.keys ↔ (m.find k).isSome := by
  rw [Option.isSome_iff_exists, keys, List.mem_map]
  constructor
  · rintro ⟨⟨k', v⟩, hmem, rfl⟩
    exact ⟨v, m.find_eq_some_iff.mpr hmem⟩
  · rintro ⟨v, hv⟩
    exact ⟨(k, v), m.find_eq_some_iff.mp hv, rfl⟩

/-- What is found in it makes the map. -/
theorem ext_find {m m' : SortedMap K V} (h : ∀ k, m.find k = m'.find k) : m = m' := by
  have hnodup : ∀ m : SortedMap K V, m.entries.Nodup := fun m =>
    m.distinct.imp fun hab heq => hab (congrArg Prod.fst heq)
  have hperm : m.entries.Perm m'.entries := by
    rw [perm_ext_iff_of_nodup (hnodup m) (hnodup m')]
    rintro ⟨k, v⟩
    rw [← find_eq_some_iff, ← find_eq_some_iff, h]
  have hents := hperm.eq_of_pairwise
    (fun a b _ _ hab hba => absurd (hab.trans hba) (lt_irrefl _)) m.sorted m'.sorted
  cases m
  cases m'
  cases hents
  rfl

/-- The last value put at a key is the one that is found. -/
theorem find_putAll (es : List (K × V)) (m : SortedMap K V) (k : K) :
    (putAll es m).find k = (lastOf k es).or (m.find k) := by
  induction es generalizing m with
  | nil => rfl
  | cons e es ih =>
    have h := ih (m.put e.1 e.2)
    rw [putAll, List.foldl_cons, ← putAll, h, lastOf_cons, find_put, Option.or_assoc]
    congr 1
    by_cases hk : k = e.1 <;> simp [hk]

theorem putAll_entries (m : SortedMap K V) : putAll m.entries empty = m := by
  refine ext_find fun k => Option.ext fun v => ?_
  have hreverse : m.entries.reverse.Pairwise (fun a b => a.1 ≠ b.1) :=
    pairwise_reverse.mpr (m.distinct.imp Ne.symm)
  rw [find_putAll, find_empty, or_none, lastOf, firstOf_eq_some_iff_mem hreverse, mem_reverse,
    find_eq_some_iff]

end SortedMap

end ChromiumUI.SortedMaps
