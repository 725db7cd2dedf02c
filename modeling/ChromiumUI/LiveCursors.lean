import Mathlib.Data.Finset.Card

/-!
# Counting live cursors

A container that defers its clean-up keeps a depth: the number of cursors alive.
The cursors are a finite partial map from names; the depth follows every change.
-/
namespace ChromiumUI.LiveCursors

variable {ι : Type*} {κ : Type*}

/-- Exactly `depth` names have a live cursor. -/
def Counts (live : ι → Option κ) (depth : Nat) : Prop :=
  ∃ ids : Finset ι, (∀ it, it ∈ ids ↔ (live it).isSome) ∧ ids.card = depth

theorem counts_none : Counts (fun _ : ι => (none : Option κ)) 0 :=
  ⟨∅, by simp, rfl⟩

variable {live : ι → Option κ} {depth : Nat}

theorem Counts.depth_ne_zero (h : Counts live depth) {it : ι} (hit : (live it).isSome) :
    depth ≠ 0 := by
  obtain ⟨ids, hids, hcard⟩ := h
  have hpos := Finset.card_pos.mpr ⟨it, (hids it).mpr hit⟩
  omega

theorem Counts.eq_none (h : Counts live 0) (it : ι) : live it = none := by
  by_contra hne
  exact h.depth_ne_zero (Option.isSome_iff_ne_none.mpr hne) rfl

variable [DecidableEq ι]

theorem Counts.create (h : Counts live depth) {it : ι} (hit : live it = none) (cursor : κ) :
    Counts (Function.update live it (some cursor)) (depth + 1) := by
  obtain ⟨ids, hids, hcard⟩ := h
  have hnew : it ∉ ids := by simp [hids, hit]
  refine ⟨insert it ids, fun it' => ?_, ?_⟩
  · by_cases heq : it' = it
    · simp [heq]
    · simp [heq, hids]
  · rw [Finset.card_insert_of_notMem hnew, hcard]

theorem Counts.move (h : Counts live depth) {it : ι} (hit : (live it).isSome) (cursor : κ) :
    Counts (Function.update live it (some cursor)) depth := by
  obtain ⟨ids, hids, hcard⟩ := h
  refine ⟨ids, fun it' => ?_, hcard⟩
  by_cases heq : it' = it
  · simp [heq, hids, hit]
  · simp [heq, hids]

theorem Counts.destroy (h : Counts live depth) {it : ι} (hit : (live it).isSome) :
    Counts (Function.update live it none) (depth - 1) := by
  obtain ⟨ids, hids, hcard⟩ := h
  refine ⟨ids.erase it, fun it' => ?_, ?_⟩
  · by_cases heq : it' = it
    · simp [heq]
    · simp [heq, hids]
  · rw [Finset.card_erase_of_mem ((hids it).mpr hit), hcard]

end ChromiumUI.LiveCursors
