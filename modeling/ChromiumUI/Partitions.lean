import Mathlib.Logic.Relation

/-!
# Partitions

Items and the class of each. Classes that are joined are the classes of the relation with one more
pair.
-/
namespace ChromiumUI.Partitions

variable {α β : Type*} {cls : α → β} {R : α → α → Prop} {a b x y : α}

/-- Two items are of one class when the relation connects them. -/
def Classifies (cls : α → β) (R : α → α → Prop) : Prop :=
  ∀ x y, cls x = cls y ↔ Relation.EqvGen R x y

/-- The relation with one more pair. -/
def With (R : α → α → Prop) (a b : α) (x y : α) : Prop := R x y ∨ (x = a ∧ y = b)

/-- Each item in the class of `b` is put into the class of `a`. -/
def join [DecidableEq β] (cls : α → β) (a b : α) (x : α) : β :=
  if cls x = cls b then cls a else cls x

namespace Classifies

theorem refl : Classifies id (fun _ _ : α => False) := by
  intro x y
  constructor
  · rintro rfl
    exact .refl x
  · intro h
    induction h with
    | rel x y h => exact h.elim
    | refl x => rfl
    | symm x y _ ih => exact ih.symm
    | trans x y z _ _ ih ih' => exact ih.trans ih'

theorem rel (h : Classifies cls R) (hR : R x y) : cls x = cls y := (h x y).mpr (.rel x y hR)

theorem congr_rel {R' : α → α → Prop} (h : Classifies cls R) (hsame : ∀ x y, R' x y ↔ R x y) :
    Classifies cls R' := by
  obtain rfl : R' = R := by
    funext x y
    exact propext (hsame x y)
  exact h

theorem eqvGen_with (h : Relation.EqvGen R x y) : Relation.EqvGen (With R a b) x y :=
  h.mono fun _ _ hR => Or.inl hR

/-- Joining two classes is adding a pair. -/
theorem join [DecidableEq β] (h : Classifies cls R) (a b : α) :
    Classifies (join cls a b) (With R a b) := by
  have hpair : Relation.EqvGen (With R a b) a b := .rel a b (Or.inr ⟨rfl, rfl⟩)
  have hold : ∀ {x y}, cls x = cls y → Relation.EqvGen (With R a b) x y := fun heq =>
    eqvGen_with ((h _ _).mp heq)
  intro x y
  constructor
  · intro heq
    unfold Partitions.join at heq
    split at heq <;> rename_i hx <;> split at heq <;> rename_i hy
    · exact hold (hx.trans hy.symm)
    · exact .trans x b y (hold hx) (.trans b a y hpair.symm (hold heq))
    · exact .trans x a y (hold heq) (.trans a b y hpair (hold hy.symm))
    · exact hold heq
  · intro hxy
    induction hxy with
    | rel x y hR =>
      unfold Partitions.join
      obtain hR | ⟨rfl, rfl⟩ := hR
      · rw [h.rel hR]
      · rw [if_pos (rfl : cls y = cls y)]
        split <;> rfl
    | refl x => rfl
    | symm x y _ ih => exact ih.symm
    | trans x y z _ _ ih ih' => exact ih.trans ih'

theorem eqvGen_with_symm (h : Relation.EqvGen (With R a b) x y) :
    Relation.EqvGen (With R b a) x y := by
  induction h with
  | rel x y hR =>
    obtain hR | ⟨rfl, rfl⟩ := hR
    · exact .rel x y (Or.inl hR)
    · exact .symm y x (.rel y x (Or.inr ⟨rfl, rfl⟩))
  | refl x => exact .refl x
  | symm x y _ ih => exact .symm x y ih
  | trans x y z _ _ ih ih' => exact .trans x y z ih ih'

/-- It does not matter which of the two the pair starts from. -/
theorem join_symm [DecidableEq β] (h : Classifies cls R) (a b : α) :
    Classifies (Partitions.join cls b a) (With R a b) := fun x y =>
  (h.join b a x y).trans ⟨eqvGen_with_symm, eqvGen_with_symm⟩

/-- A pair that is connected already changes nothing. -/
theorem with_of_eq (h : Classifies cls R) (hab : cls a = cls b) : Classifies cls (With R a b) := by
  intro x y
  constructor
  · intro heq
    exact eqvGen_with ((h x y).mp heq)
  · intro hxy
    induction hxy with
    | rel x y hR =>
      obtain hR | ⟨rfl, rfl⟩ := hR
      · exact h.rel hR
      · exact hab
    | refl x => rfl
    | symm x y _ ih => exact ih.symm
    | trans x y z _ _ ih ih' => exact ih.trans ih'

end Classifies

end ChromiumUI.Partitions
