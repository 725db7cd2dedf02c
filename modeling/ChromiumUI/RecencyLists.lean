import Mathlib.Data.List.Nodup

/-!
# Recency lists

Entries with distinct keys, the one that was used last in front. A bounded list drops entries from
its end before it takes a new key. The order is that of the moments at which the keys were used.
-/
namespace ChromiumUI.RecencyLists

open List Function

variable {κ π : Type*}

abbrev RecencyList (κ π : Type*) := List (κ × π)

/-- The keys are distinct, and the later a key was used the further it is in front. -/
structure Recent (stamp : κ → Nat) (now : Nat) (l : RecencyList κ π) : Prop where
  sorted : (l.map Prod.fst).Pairwise fun k k' => stamp k' < stamp k
  past : ∀ k ∈ l.map Prod.fst, stamp k ≤ now

variable {stamp : κ → Nat} {now : Nat} {l l' : RecencyList κ π} {k : κ} {p : π}

theorem Recent.sublist (h : Recent stamp now l) (hsub : l'.Sublist l) : Recent stamp now l' :=
  ⟨h.sorted.sublist (hsub.map _), fun k hk => h.past k ((hsub.map _).subset hk)⟩

/-- The next moment passes without a use of a key. -/
theorem Recent.wait (h : Recent stamp now l) : Recent stamp (now + 1) l :=
  ⟨h.sorted, fun k hk => Nat.le_succ_of_le (h.past k hk)⟩

variable [DecidableEq κ]

def without (k : κ) (l : RecencyList κ π) : RecencyList κ π := l.filter fun e => e.1 ≠ k

/-- Move the entry of the key to the front, if there is one. -/
def touch (k : κ) (l : RecencyList κ π) : RecencyList κ π :=
  match l.find? fun e => e.1 = k with
  | some e => e :: without k l
  | none => l

/-- Put an entry in front, in the place of the one with its key or, when the list is full, of the
last one. No bound is a bound of `none`. -/
def put (bound : Option Nat) (k : κ) (p : π) (l : RecencyList κ π) : RecencyList κ π :=
  (k, p) :: if k ∈ l.map Prod.fst then without k l else
    match bound with
    | some n => l.take (n - 1)
    | none => l

theorem without_sublist (k : κ) (l : RecencyList κ π) : (without k l).Sublist l :=
  filter_sublist

theorem not_mem_without (k : κ) (l : RecencyList κ π) : k ∉ (without k l).map Prod.fst := by
  intro hk
  obtain ⟨e, he, rfl⟩ := mem_map.mp hk
  simpa using (mem_filter.mp he).2

theorem update_of_mem {now : Nat} (hk : k ∉ l.map Prod.fst) :
    ∀ k' ∈ l.map Prod.fst, update stamp k now k' = stamp k' := by
  intro k' hk'
  refine update_of_ne ?_ _ _
  rintro rfl
  exact hk hk'

section

variable (h : Recent stamp now l)
include h

/-- A use of a key that is not there changes nothing. -/
theorem Recent.miss (hk : k ∉ l.map Prod.fst) : Recent (update stamp k (now + 1)) (now + 1) l := by
  have hother := @update_of_mem _ _ stamp l k _ (now + 1) hk
  constructor
  · refine h.sorted.imp_of_mem fun {a b} ha hb hab => ?_
    rwa [hother a ha, hother b hb]
  · intro k' hk'
    rw [hother k' hk']
    exact Nat.le_succ_of_le (h.past k' hk')

/-- A key that is used in the next moment comes in front. -/
theorem Recent.cons (hk : k ∉ l.map Prod.fst) :
    Recent (update stamp k (now + 1)) (now + 1) ((k, p) :: l) := by
  have hmiss := h.miss hk
  constructor
  · refine pairwise_cons.mpr ⟨fun k' hk' => ?_, hmiss.sorted⟩
    rw [update_of_mem hk k' hk', update_self]
    exact Nat.lt_succ_of_le (h.past k' hk')
  · intro k' hk'
    rcases mem_cons.mp hk' with rfl | hk'
    · exact Nat.le_of_eq (update_self ..)
    · exact hmiss.past k' hk'

theorem recent_touch (k : κ) : Recent (update stamp k (now + 1)) (now + 1) (touch k l) := by
  rw [touch]
  cases hfind : l.find? fun e => e.1 = k with
  | none =>
    refine h.miss fun hk => ?_
    obtain ⟨e, he, rfl⟩ := mem_map.mp hk
    simpa using find?_eq_none.mp hfind e he
  | some e =>
    have hkey : e.1 = k := by simpa using find?_some hfind
    subst hkey
    exact (h.sublist (without_sublist _ _)).cons (not_mem_without _ _)

theorem recent_put (bound : Option Nat) (k : κ) (p : π) :
    Recent (update stamp k (now + 1)) (now + 1) (put bound k p l) := by
  unfold put
  split_ifs with hk
  · exact (h.sublist (without_sublist _ _)).cons (not_mem_without _ _)
  · cases bound with
    | none => exact h.cons hk
    | some n =>
      have hsub : (l.take (n - 1)).Sublist l := take_sublist _ _
      exact (h.sublist hsub).cons fun hmem => hk ((hsub.map _).subset hmem)

end

theorem length_without_lt (hk : k ∈ l.map Prod.fst) : (without k l).length < l.length := by
  obtain ⟨e, he, rfl⟩ := mem_map.mp hk
  exact length_filter_lt_length_iff_exists.mpr ⟨e, he, by simp⟩

theorem length_touch_le : (touch k l).length ≤ l.length := by
  rw [touch]
  cases hfind : l.find? fun e => e.1 = k with
  | none => exact Nat.le_refl _
  | some e =>
    have hkey : e.1 = k := by simpa using find?_some hfind
    subst hkey
    exact length_without_lt (mem_map_of_mem (mem_of_find?_eq_some hfind))

/-- A list within its bound stays within it. -/
theorem length_put_le {n : Nat} (hn : 0 < n) (h : l.length ≤ n) :
    (put (some n) k p l).length ≤ n := by
  unfold put
  rw [length_cons]
  split_ifs with hk
  · have hlt := length_without_lt hk
    omega
  · simp only [length_take]
    omega

end ChromiumUI.RecencyLists
