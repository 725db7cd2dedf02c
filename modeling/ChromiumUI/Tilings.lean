import Mathlib.Data.List.Chain
import Mathlib.Data.List.TakeWhile

/-!
# Tilings of an interval of naturals

A list of pieces, each with a lower and an upper end, tiles `[a, b)` when the
pieces are non-empty, the first starts at `a`, each starts where the one before
it ends and the last ends at `b`.
-/
namespace ChromiumUI.Tilings

variable {β : Type*} {lo hi : β → Nat}

/-- The pieces cover `[a, b)` from left to right, without gap or overlap. -/
def Tiles (lo hi : β → Nat) (b : Nat) : Nat → List β → Prop
  | a, [] => a = b
  | a, r :: rs => lo r = a ∧ a < hi r ∧ Tiles lo hi b (hi r) rs

variable {a b : Nat}

@[simp] theorem tiles_nil : Tiles lo hi b a [] ↔ a = b := Iff.rfl

variable {rs : List β}

@[simp] theorem tiles_cons {r : β} :
    Tiles lo hi b a (r :: rs) ↔ lo r = a ∧ a < hi r ∧ Tiles lo hi b (hi r) rs := Iff.rfl

theorem Tiles.le (h : Tiles lo hi b a rs) : a ≤ b := by
  induction rs generalizing a with
  | nil => exact Nat.le_of_eq h
  | cons r rs ih =>
    obtain ⟨-, hlt, hrest⟩ := h
    exact Nat.le_trans (Nat.le_of_lt hlt) (ih hrest)

/-- Only the empty interval is tiled by no piece. -/
theorem Tiles.eq_nil_iff (h : Tiles lo hi b a rs) : rs = [] ↔ a = b := by
  constructor
  · rintro rfl
    exact h
  · rintro rfl
    cases rs with
    | nil => rfl
    | cons r rs =>
      obtain ⟨-, hlt, hrest⟩ := h
      have := hrest.le
      omega

/-- A tiling of `[a, c)` and one of `[c, b)` are together one of `[a, b)`. -/
theorem tiles_append {xs ys : List β} :
    Tiles lo hi b a (xs ++ ys) ↔ ∃ c, Tiles lo hi c a xs ∧ Tiles lo hi b c ys := by
  induction xs generalizing a with
  | nil => simp
  | cons r xs ih => simp [ih, and_assoc]

theorem Tiles.lo_lt (h : Tiles lo hi b a rs) {r : β} (hr : r ∈ rs) : lo r < hi r := by
  induction rs generalizing a with
  | nil => cases hr
  | cons q rs ih =>
    obtain ⟨hlo, hlt, hrest⟩ := h
    rcases List.mem_cons.mp hr with rfl | hr
    · rwa [hlo]
    · exact ih hrest hr

theorem Tiles.hi_le (h : Tiles lo hi b a rs) {r : β} (hr : r ∈ rs) : hi r ≤ b := by
  induction rs generalizing a with
  | nil => cases hr
  | cons q rs ih =>
    obtain ⟨-, -, hrest⟩ := h
    rcases List.mem_cons.mp hr with rfl | hr
    · exact hrest.le
    · exact ih hrest hr

/-- The same thing said about neighbours, the first piece and the last one. -/
theorem tiles_iff :
    Tiles lo hi b a rs ↔
      (rs = [] → a = b) ∧ (∀ r ∈ rs, lo r < hi r) ∧ (∀ r ∈ rs.head?, lo r = a) ∧
        rs.IsChain (fun former latter => hi former = lo latter) ∧ (∀ r ∈ rs.getLast?, hi r = b) := by
  induction rs generalizing a with
  | nil => simp
  | cons q rs ih =>
    rw [tiles_cons, ih]
    cases rs with
    | nil =>
      simp
      omega
    | cons r rs =>
      simp only [List.head?_cons, Option.mem_def, Option.some.injEq, List.getLast?_cons_cons,
        List.isChain_cons_cons, List.mem_cons, forall_eq_or_imp, forall_eq', reduceCtorEq,
        false_implies, true_and]
      constructor
      · rintro ⟨hq, hlt, hall, hr, hchain, hlast⟩
        exact ⟨⟨by omega, hall⟩, hq, ⟨hr.symm, hchain⟩, hlast⟩
      · rintro ⟨⟨hlt, hall⟩, hq, ⟨hr, hchain⟩, hlast⟩
        exact ⟨hq, by omega, hall, hr.symm, hchain, hlast⟩

end ChromiumUI.Tilings
