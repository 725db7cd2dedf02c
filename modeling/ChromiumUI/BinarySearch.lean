import Mathlib.Tactic.Common

/-!
# Binary search

The loop of bsearch over positions; `compare k` says how the key stands to the element at `k`.
-/
namespace ChromiumUI.BinarySearch

variable {compare : Nat → Ordering}

def search (compare : Nat → Ordering) : Nat → Nat → Nat → Option Nat
  | 0, _, _ => none
  | fuel + 1, low, high =>
    if low < high then
      let middle := (low + high) / 2
      match compare middle with
      | .lt => search compare fuel low middle
      | .gt => search compare fuel (middle + 1) high
      | .eq => some middle
    else none

/-- bsearch over the first `n` elements. -/
def bsearch (compare : Nat → Ordering) (n : Nat) : Option Nat := search compare n 0 n

theorem search_sound {fuel low high k : Nat} (h : search compare fuel low high = some k) :
    low ≤ k ∧ k < high ∧ compare k = .eq := by
  induction fuel generalizing low high with
  | zero => cases h
  | succ fuel ih =>
    rw [search] at h
    split at h
    · dsimp only at h
      split at h
      · obtain ⟨hlow, hhigh, heq⟩ := ih h
        exact ⟨hlow, by omega, heq⟩
      · obtain ⟨hlow, hhigh, heq⟩ := ih h
        exact ⟨by omega, hhigh, heq⟩
      · rename_i heq
        cases h
        exact ⟨by omega, by omega, heq⟩
    · cases h

theorem bsearch_sound {n k : Nat} (h : bsearch compare n = some k) : k < n ∧ compare k = .eq :=
  (search_sound h).2

/-- In ascending order, the element that compares equal is found. -/
theorem search_complete {fuel low high k : Nat} (hfuel : high ≤ fuel + low) (hlow : low ≤ k)
    (hhigh : k < high) (heq : compare k = .eq) (hbelow : ∀ i, i < k → compare i = .gt)
    (habove : ∀ i, k < i → i < high → compare i = .lt) : search compare fuel low high = some k := by
  induction fuel generalizing low high with
  | zero => omega
  | succ fuel ih =>
    rw [search, if_pos (by omega)]
    dsimp only
    rcases Nat.lt_trichotomy ((low + high) / 2) k with hlt | rfl | hgt
    · rw [hbelow _ hlt]
      exact ih (by omega) (by omega) hhigh habove
    · rw [heq]
    · rw [habove _ hgt (by omega)]
      exact ih (by omega) hlow hgt fun i hi hi' => habove i hi (by omega)

theorem bsearch_complete {n k : Nat} (hk : k < n) (heq : compare k = .eq)
    (hbelow : ∀ i, i < k → compare i = .gt) (habove : ∀ i, k < i → i < n → compare i = .lt) :
    bsearch compare n = some k :=
  search_complete (Nat.le_refl n) (Nat.zero_le k) hk heq hbelow habove

end ChromiumUI.BinarySearch
