import Mathlib.Tactic.Common

/-!
# Functions that run on fuel

`Computes f r`: given enough fuel, `f` ends, and with `r`.
-/
namespace ChromiumUI.Fuel

variable {α β : Type*}

def Computes (f : Nat → Option α) (r : α) : Prop := ∃ enough, ∀ fuel, enough ≤ fuel → f fuel = some r

namespace Computes

theorem pure (r : α) : Computes (fun _ => some r) r := ⟨0, fun _ _ => rfl⟩

/-- A function that spends one unit and goes on as `f`. -/
theorem succ {f g : Nat → Option α} {r : α} (h : Computes f r)
    (hg : ∀ fuel, g (fuel + 1) = f fuel) : Computes g r := by
  obtain ⟨enough, henough⟩ := h
  refine ⟨enough + 1, fun fuel hfuel => ?_⟩
  obtain _ | fuel := fuel
  · omega
  rw [hg, henough fuel (by omega)]

theorem congr {f g : Nat → Option α} {r : α} (h : Computes f r) (hg : ∀ fuel, g fuel = f fuel) :
    Computes g r := by
  have hfun : g = f := funext hg
  rwa [hfun]

theorem bind {f : Nat → Option α} {g : Nat → α → Option β} {a : α} {b : β} (hf : Computes f a)
    (hg : Computes (fun fuel => g fuel a) b) : Computes (fun fuel => (f fuel).bind (g fuel)) b := by
  obtain ⟨m, hm⟩ := hf
  obtain ⟨n, hn⟩ := hg
  refine ⟨max m n, fun fuel hfuel => ?_⟩
  have hmf : m ≤ fuel := Nat.le_trans (Nat.le_max_left m n) hfuel
  have hnf : n ≤ fuel := Nat.le_trans (Nat.le_max_right m n) hfuel
  change (f fuel).bind (g fuel) = some b
  rw [hm fuel hmf]
  exact hn fuel hnf

theorem map {f : Nat → Option α} (g : α → β) {a : α} (hf : Computes f a) :
    Computes (fun fuel => (f fuel).map g) (g a) := by
  obtain ⟨n, hn⟩ := hf
  exact ⟨n, fun fuel hfuel => congrArg (Option.map g) (hn fuel hfuel)⟩

theorem unique {f : Nat → Option α} {r s : α} (hr : Computes f r) (hs : Computes f s) : r = s := by
  obtain ⟨m, hm⟩ := hr
  obtain ⟨n, hn⟩ := hs
  have h := (hm (max m n) (Nat.le_max_left m n)).symm.trans (hn (max m n) (Nat.le_max_right m n))
  exact Option.some.inj h

end Computes

end ChromiumUI.Fuel
