import Mathlib.Tactic.Common

/-!
# Loops of a counted number of turns

A turn goes on with another state, or returns. A turn that goes on and takes from a budget bounds
the number of turns by the budget.
-/
namespace ChromiumUI.CountedLoops

variable {σ ρ : Type*}

/-- How a loop of at most so many turns ends, and the turns it took. -/
def countedLoop (turn : σ → Except ρ σ) : Nat → σ → Except ρ σ × Nat
  | 0, s => (.ok s, 0)
  | n + 1, s =>
    match turn s with
    | .error r => (.error r, 1)
    | .ok s' => ((countedLoop turn n s').1, (countedLoop turn n s').2 + 1)

/-- What a function is left with behind its loop: what a turn returned, or what the last state
has. -/
def afterLoop (value : σ → ρ) : Except ρ σ × Nat → ρ × Nat
  | (.error r, turns) => (r, turns)
  | (.ok s, turns) => (value s, turns)

theorem afterLoop_error {value : σ → ρ} {ended : Except ρ σ × Nat} {r : ρ}
    (h : ended.1 = .error r) : (afterLoop value ended).1 = r := by
  obtain ⟨outcome, turns⟩ := ended
  cases h
  rfl

theorem afterLoop_ok {value : σ → ρ} {ended : Except ρ σ × Nat} {s : σ}
    (h : ended.1 = .ok s) : (afterLoop value ended).1 = value s := by
  obtain ⟨outcome, turns⟩ := ended
  cases h
  rfl

@[simp] theorem afterLoop_turns (value : σ → ρ) (ended : Except ρ σ × Nat) :
    (afterLoop value ended).2 = ended.2 := by
  obtain ⟨_ | _, turns⟩ := ended <;> rfl

theorem countedLoop_error {turn : σ → Except ρ σ} {s : σ} {r : ρ} (h : turn s = .error r)
    (n : Nat) : countedLoop turn (n + 1) s = (.error r, 1) := by
  simp [countedLoop, h]

theorem countedLoop_ok {turn : σ → Except ρ σ} {s s' : σ} (h : turn s = .ok s') (n : Nat) :
    countedLoop turn (n + 1) s = ((countedLoop turn n s').1, (countedLoop turn n s').2 + 1) := by
  simp [countedLoop, h]

/-- Every turn that goes on takes `d` from the budget. -/
theorem countedLoop_turns_le {turn : σ → Except ρ σ} {budget : σ → Nat} {d : Nat} (hd : 0 < d)
    (hturn : ∀ s s', turn s = .ok s' → budget s' + d ≤ budget s) (n : Nat) (s : σ) :
    (countedLoop turn n s).2 ≤ budget s / d + 1 := by
  induction n generalizing s with
  | zero => simp [countedLoop]
  | succ n ih =>
    cases h : turn s with
    | error r => simp [countedLoop_error h]
    | ok s' =>
      have hpaid := Nat.div_le_div_right (c := d) (hturn s s' h)
      rw [Nat.add_div_right _ hd] at hpaid
      have hrest := ih s'
      rw [countedLoop_ok h]
      omega

end ChromiumUI.CountedLoops
