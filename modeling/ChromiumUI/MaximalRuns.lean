import Mathlib.Data.List.Basic

/-!
# Maximal runs

The stretches of a list between the elements at which it is cut, without the empty ones.
-/
namespace ChromiumUI.MaximalRuns

variable {α : Type*} (cut : α → Bool)

def maximalRuns (l : List α) : List (List α) :=
  (l.splitOnP cut).filter fun run => !run.isEmpty

@[simp] theorem maximalRuns_nil : maximalRuns cut [] = [] := rfl

theorem maximalRuns_cut {a : α} (h : cut a = true) (rest : List α) :
    maximalRuns cut (a :: rest) = maximalRuns cut rest := by
  have hsplit := @List.splitOnP_append_cons_of_forall_mem _ cut [] (by simp) a h rest
  rw [List.nil_append] at hsplit
  rw [maximalRuns, hsplit]
  simp [maximalRuns]

theorem maximalRuns_cuts {front : List α} (h : ∀ a ∈ front, cut a = true) (rest : List α) :
    maximalRuns cut (front ++ rest) = maximalRuns cut rest := by
  induction front with
  | nil => rfl
  | cons a front ih =>
    rw [List.cons_append, maximalRuns_cut cut (h a List.mem_cons_self),
      ih fun b hb => h b (List.mem_cons_of_mem _ hb)]

/-- A run in front of a cut, or of the end. -/
theorem maximalRuns_run {run : List α} (hne : run ≠ []) (hrun : ∀ a ∈ run, cut a = false)
    {rest : List α} (hrest : ∀ a ∈ rest.head?, cut a = true) :
    maximalRuns cut (run ++ rest) = run :: maximalRuns cut rest := by
  cases rest with
  | nil =>
    rw [List.append_nil, maximalRuns, List.splitOnP_eq_singleton hrun]
    simp [hne]
  | cons a rest =>
    have ha := hrest a rfl
    rw [maximalRuns_cut cut ha, maximalRuns, List.splitOnP_append_cons_of_forall_mem hrun a ha]
    simp [maximalRuns, hne]

end ChromiumUI.MaximalRuns
