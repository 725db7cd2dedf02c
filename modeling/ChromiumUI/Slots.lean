import Mathlib.Data.List.Basic

/-!
# One slot of a list

How many entries of a list have a property, when one entry is replaced; where an entry stands that is
put in.
-/
namespace ChromiumUI.Slots

open List

variable {α : Type*}

theorem insertIdx_append (l l' : List α) (a : α) :
    (l ++ l').insertIdx l.length a = l ++ a :: l' := by
  induction l with
  | nil => rfl
  | cons b l ih =>
    rw [cons_append, length_cons, insertIdx_succ_cons, ih]
    rfl

variable {l : List α} {i : Nat} {a : α}

theorem countP_set_add (p : α → Bool) (b : α) (h : l[i]? = some a) :
    (l.set i b).countP p + (if p a then 1 else 0) = l.countP p + (if p b then 1 else 0) := by
  induction l generalizing i with
  | nil => simp at h
  | cons c l ih =>
    cases i with
    | zero =>
      cases h
      simp only [set_cons_zero, countP_cons]
      omega
    | succ i =>
      have := @ih i (by simpa using h)
      simp only [set_cons_succ, countP_cons]
      omega

/-- The entry that goes did not have the property. -/
theorem countP_set_gain {l : List α} {i : Nat} {a b : α} {p : α → Bool} (h : l[i]? = some a)
    (ha : p a = false) : (l.set i b).countP p = l.countP p + if p b then 1 else 0 := by
  have := countP_set_add p b h
  rw [ha] at this
  simpa using this

/-- The entry that comes does not have the property. -/
theorem countP_set_lose {l : List α} {i : Nat} {a b : α} {p : α → Bool} (h : l[i]? = some a)
    (hb : p b = false) : (l.set i b).countP p + (if p a then 1 else 0) = l.countP p := by
  have := countP_set_add p b h
  rw [hb] at this
  simpa using this

/-- A property that both entries have, or neither. -/
theorem countP_set_of_eq {l : List α} {i : Nat} {a b : α} {p : α → Bool} (h : l[i]? = some a)
    (hp : p a = p b) : (l.set i b).countP p = l.countP p := by
  have := countP_set_add p b h
  rw [hp] at this
  omega

theorem countP_pos_of_getElem? {p : α → Bool} (h : l[i]? = some a) (hp : p a = true) :
    0 < l.countP p :=
  countP_pos_iff.mpr ⟨a, mem_of_getElem? h, hp⟩

/-- Where at most one entry has the property, it has one place. -/
theorem index_unique {j : Nat} {b : α} {p : α → Bool} (h : l.countP p ≤ 1) (hi : l[i]? = some a)
    (hj : l[j]? = some b) (ha : p a = true) (hb : p b = true) : i = j := by
  induction l generalizing i j with
  | nil => simp at hi
  | cons c l ih =>
    rw [countP_cons] at h
    cases i with
    | zero =>
      cases hi
      rw [if_pos ha] at h
      cases j with
      | zero => rfl
      | succ j =>
        have := countP_pos_of_getElem? (by simpa using hj : l[j]? = some b) hb
        omega
    | succ i =>
      have hpos := countP_pos_of_getElem? (by simpa using hi : l[i]? = some a) ha
      cases j with
      | zero =>
        cases hj
        rw [if_pos hb] at h
        omega
      | succ j => exact congrArg _ (ih (by omega) (by simpa using hi) (by simpa using hj))

theorem forall_mem_set {b : α} {P : α → Prop} (h : ∀ c ∈ l, P c) (hb : P b) :
    ∀ c ∈ l.set i b, P c := by
  intro c hc
  obtain hc | rfl := mem_or_eq_of_mem_set hc
  · exact h c hc
  · exact hb

/-- What is not in the slot stays. -/
theorem mem_set_of_ne {b c : α} (h : l[i]? = some a) (hc : c ∈ l) (hne : a ≠ c) :
    c ∈ l.set i b := by
  obtain ⟨j, hj⟩ := mem_iff_getElem?.mp hc
  have hij : i ≠ j := by
    rintro rfl
    exact hne (Option.some.inj (h.symm.trans hj))
  rw [← List.getElem?_set_ne hij] at hj
  exact mem_of_getElem? hj

theorem mem_set_slot {b : α} (h : l[i]? = some a) : b ∈ l.set i b := by
  obtain ⟨hlt, -⟩ := List.getElem?_eq_some_iff.mp h
  exact mem_set hlt b

theorem countP_eraseIdx_add (p : α → Bool) (h : l[i]? = some a) :
    (l.eraseIdx i).countP p + (if p a then 1 else 0) = l.countP p := by
  induction l generalizing i with
  | nil => simp at h
  | cons c l ih =>
    cases i with
    | zero =>
      cases h
      simp only [eraseIdx_cons_zero, countP_cons]
    | succ i =>
      have := @ih i (by simpa using h)
      simp only [eraseIdx_cons_succ, countP_cons]
      omega

end ChromiumUI.Slots
