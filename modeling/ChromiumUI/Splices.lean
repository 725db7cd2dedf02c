import Mathlib.Data.List.Basic

/-!
# Splices of a list

Erasing a block of a list and inserting one at a position, as the erase and insert of a
string do: a position past the end is an error (`none`).
-/
namespace ChromiumUI.Splices

open List

variable {α : Type*}

/-- The list with `xs` put in before position `pos`. -/
def insertAt (l : List α) (pos : Nat) (xs : List α) : List α :=
  l.take pos ++ xs ++ l.drop pos

/-- The list without the `n` elements from position `pos` on. -/
def eraseAt (l : List α) (pos n : Nat) : List α :=
  l.take pos ++ l.drop (pos + n)

def insert? (l : List α) (pos : Nat) (xs : List α) : Option (List α) :=
  if pos ≤ l.length then some (insertAt l pos xs) else none

def erase? (l : List α) (pos n : Nat) : Option (List α) :=
  if pos ≤ l.length then some (eraseAt l pos n) else none

def substr? (l : List α) (pos n : Nat) : Option (List α) :=
  if pos ≤ l.length then some ((l.drop pos).take n) else none

variable {l : List α} {pos : Nat}

@[simp] theorem insert?_eq (h : pos ≤ l.length) (xs : List α) :
    insert? l pos xs = some (insertAt l pos xs) := if_pos h

@[simp] theorem erase?_eq (h : pos ≤ l.length) (n : Nat) :
    erase? l pos n = some (eraseAt l pos n) := if_pos h

@[simp] theorem substr?_eq (h : pos ≤ l.length) (n : Nat) :
    substr? l pos n = some ((l.drop pos).take n) := if_pos h

@[simp] theorem insertAt_nil (l : List α) (pos : Nat) : insertAt l pos [] = l := by
  simp [insertAt]

@[simp] theorem eraseAt_zero (l : List α) (pos : Nat) : eraseAt l pos 0 = l := by
  simp [eraseAt]

@[simp] theorem length_insertAt (l : List α) (pos : Nat) (xs : List α) :
    (insertAt l pos xs).length = l.length + xs.length := by
  simp only [insertAt, length_append, length_take, length_drop]
  omega

theorem length_eraseAt {n : Nat} (h : pos + n ≤ l.length) :
    (eraseAt l pos n).length = l.length - n := by
  simp only [eraseAt, length_append, length_take, length_drop]
  omega

theorem insertAt_append {a b : List α} (h : a.length = pos) (xs : List α) :
    insertAt (a ++ b) pos xs = a ++ xs ++ b := by
  subst h
  simp [insertAt]

theorem eraseAt_append {a xs b : List α} (h : a.length = pos) :
    eraseAt (a ++ xs ++ b) pos xs.length = a ++ b := by
  subst h
  simp [eraseAt, drop_append]

/-- A list cut at a position. -/
theorem exists_split (h : pos ≤ l.length) : ∃ a b, l = a ++ b ∧ a.length = pos :=
  ⟨l.take pos, l.drop pos, (take_append_drop pos l).symm, by simp [h]⟩

theorem eraseAt_insertAt (h : pos ≤ l.length) (xs : List α) :
    eraseAt (insertAt l pos xs) pos xs.length = l := by
  obtain ⟨a, b, rfl, ha⟩ := exists_split h
  rw [insertAt_append ha, eraseAt_append ha]

/-- Erasing a block and inserting it back. -/
theorem insertAt_eraseAt {n : Nat} (h : pos + n ≤ l.length) :
    insertAt (eraseAt l pos n) pos ((l.drop pos).take n) = l := by
  have hlen : (l.take pos).length = pos := by
    rw [length_take]
    omega
  rw [eraseAt, insertAt_append hlen, append_assoc, ← drop_drop,
    take_append_drop, take_append_drop]

/-- Inserting next to what was inserted. -/
theorem insertAt_insertAt (h : pos ≤ l.length) (xs ys : List α) :
    insertAt (insertAt l pos xs) (pos + xs.length) ys = insertAt l pos (xs ++ ys) := by
  obtain ⟨a, b, rfl, ha⟩ := exists_split h
  have hlen : (a ++ xs).length = pos + xs.length := by rw [length_append, ha]
  rw [insertAt_append ha, insertAt_append hlen, insertAt_append ha]
  simp

end ChromiumUI.Splices
