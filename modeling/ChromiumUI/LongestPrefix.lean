import Mathlib.Data.List.TakeWhile

/-!
# The longest prefix of a kind

A scanner takes what comes next as long as a test holds. A list that is of such elements up to a
place where the test fails is divided there.
-/
namespace ChromiumUI.LongestPrefix

variable {α : Type*} {p : α → Bool} {front rest : List α}

theorem takeWhile_append (hfront : ∀ a ∈ front, p a = true)
    (hrest : ∀ a ∈ rest.head?, p a = false) : (front ++ rest).takeWhile p = front := by
  rw [List.takeWhile_append_of_pos hfront]
  cases rest with
  | nil => rw [List.takeWhile_nil, List.append_nil]
  | cons a rest => simp [hrest a rfl]

theorem dropWhile_append (hfront : ∀ a ∈ front, p a = true)
    (hrest : ∀ a ∈ rest.head?, p a = false) : (front ++ rest).dropWhile p = rest := by
  rw [List.dropWhile_append_of_pos hfront]
  cases rest with
  | nil => rfl
  | cons a rest => simp [hrest a rfl]

/-- What is left does not go on. -/
theorem head?_dropWhile (p : α → Bool) (l : List α) : ∀ a ∈ (l.dropWhile p).head?, p a = false := by
  intro a ha
  have hnot := List.head?_dropWhile_not p l
  rw [Option.mem_def.mp ha] at hnot
  simpa using hnot

end ChromiumUI.LongestPrefix
