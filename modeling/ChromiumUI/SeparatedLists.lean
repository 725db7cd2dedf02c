import Mathlib.Data.List.Basic

/-!
# Lists written with separators

A loop writes the elements of a list and a separator before each but the first, and leaves some
elements out. Whether an element is the first one is told by its place in the whole list.
-/
namespace ChromiumUI.SeparatedLists

open List

variable {α β γ : Type*}

/-- The loop from an element on; whether it is the first one of the list. -/
def joined (sep : List γ) (skip : α → Bool) (write : α → List γ) : Bool → List α → List γ
  | _, [] => []
  | first, x :: xs =>
    if skip x then joined sep skip write false xs
    else (if first then [] else sep) ++ (write x ++ joined sep skip write false xs)

/-- The list begins with an element that is left out, and has one that is not. -/
def LosesFirst (skip : α → Bool) (xs : List α) : Prop :=
  (∃ x ∈ xs.head?, skip x = true) ∧ ∃ x ∈ xs, skip x = false

variable {sep : List γ} {skip : α → Bool} {write : α → List γ} {write' : β → List γ} {tr : α → β}
  {xs : List α}

theorem joined_skip {first : Bool} {x : α} (h : skip x = true) :
    joined sep skip write first (x :: xs) = joined sep skip write false xs := by
  rw [joined, if_pos h]

theorem joined_write {first : Bool} {x : α} (h : skip x = false) :
    joined sep skip write first (x :: xs) =
      (if first then [] else sep) ++ (write x ++ joined sep skip write false xs) := by
  rw [joined, if_neg (by simp [h])]

/-- The elements that are not left out. -/
def kept (skip : α → Bool) (tr : α → β) (xs : List α) : List β :=
  (xs.filter fun x => !skip x).map tr

theorem kept_cons_skip {x : α} (h : skip x = true) : kept skip tr (x :: xs) = kept skip tr xs := by
  rw [kept, filter_cons_of_neg (by simp [h]), kept]

theorem kept_cons {x : α} (h : skip x = false) :
    kept skip tr (x :: xs) = tr x :: kept skip tr xs := by
  rw [kept, filter_cons_of_pos (by simp [h]), kept, map_cons]

variable (sep) in
/-- Behind the first element it makes no difference whether elements are skipped or missing. -/
theorem joined_false (h : ∀ x ∈ xs, skip x = false → write x = write' (tr x)) :
    joined sep skip write false xs =
      joined sep (fun _ => false) write' false (kept skip tr xs) := by
  induction xs with
  | nil => rfl
  | cons x xs ih =>
    have hrest := ih fun y hy => h y (mem_cons_of_mem _ hy)
    cases hskip : skip x with
    | true => rw [joined_skip hskip, kept_cons_skip hskip, hrest]
    | false =>
      rw [joined_write hskip, kept_cons hskip, joined_write rfl, hrest,
        h x mem_cons_self hskip]

variable (sep) in
theorem length_joined_false
    (h : ∀ x ∈ xs, skip x = false → (write' (tr x)).length ≤ (write x).length) :
    (joined sep (fun _ => false) write' false (kept skip tr xs)).length ≤
      (joined sep skip write false xs).length := by
  induction xs with
  | nil => exact Nat.le_refl _
  | cons x xs ih =>
    have hrest := ih fun y hy => h y (mem_cons_of_mem _ hy)
    cases hskip : skip x with
    | true => rwa [kept_cons_skip hskip, joined_skip hskip]
    | false =>
      have hx := h x mem_cons_self hskip
      rw [kept_cons hskip, joined_write rfl, joined_write hskip]
      simp only [length_append, Bool.false_eq_true, if_false]
      omega

variable (sep) in
/-- One longer element makes the whole longer. -/
theorem length_joined_false_lt
    (h : ∀ x ∈ xs, skip x = false → (write' (tr x)).length ≤ (write x).length)
    (hlt : ∃ x ∈ xs, skip x = false ∧ (write' (tr x)).length < (write x).length) :
    (joined sep (fun _ => false) write' false (kept skip tr xs)).length <
      (joined sep skip write false xs).length := by
  induction xs with
  | nil =>
    obtain ⟨x, hx, -⟩ := hlt
    cases hx
  | cons x xs ih =>
    have hrest : ∀ y ∈ xs, skip y = false → (write' (tr y)).length ≤ (write y).length :=
      fun y hy => h y (mem_cons_of_mem _ hy)
    have hle := length_joined_false sep hrest
    obtain ⟨y, hy, hyskip, hylt⟩ := hlt
    cases hskip : skip x with
    | true =>
      rw [kept_cons_skip hskip, joined_skip hskip]
      rcases mem_cons.mp hy with rfl | hy
      · rw [hskip] at hyskip
        cases hyskip
      · exact ih hrest ⟨y, hy, hyskip, hylt⟩
    | false =>
      have hx := h x mem_cons_self hskip
      rw [kept_cons hskip, joined_write rfl, joined_write hskip]
      simp only [length_append, Bool.false_eq_true, if_false]
      rcases mem_cons.mp hy with rfl | hy
      · omega
      · have := ih hrest ⟨y, hy, hyskip, hylt⟩
        omega

/-- In front, a separator that is not asked for is the only difference. -/
theorem joined_first {y : β} {ys : List β} :
    joined sep (fun _ => false) write' false (y :: ys) =
      sep ++ joined sep (fun _ => false) write' true (y :: ys) := by
  rw [joined_write rfl, joined_write rfl]
  rfl

theorem kept_eq_nil (h : ∀ x ∈ xs, skip x = true) : kept skip tr xs = [] := by
  rw [kept, map_eq_nil_iff, filter_eq_nil_iff]
  intro x hx
  simp [h x hx]

/-- A list that does not lose its first element is written as the list of those that are kept. -/
theorem joined_eq (h : ∀ x ∈ xs, skip x = false → write x = write' (tr x))
    (hfirst : ¬ LosesFirst skip xs) :
    joined sep skip write true xs = joined sep (fun _ => false) write' true (kept skip tr xs) := by
  cases xs with
  | nil => rfl
  | cons x xs =>
    have hrest := joined_false sep fun y hy => h y (mem_cons_of_mem _ hy)
    cases hskip : skip x with
    | false =>
      rw [kept_cons hskip, joined_write hskip, joined_write rfl, hrest,
        h x mem_cons_self hskip]
    | true =>
      have hall : ∀ y ∈ xs, skip y = true := by
        intro y hy
        by_contra hy'
        exact hfirst ⟨⟨x, rfl, hskip⟩, y, mem_cons_of_mem _ hy, by simpa using hy'⟩
      rw [kept_cons_skip hskip, kept_eq_nil hall, joined_skip hskip, hrest, kept_eq_nil hall]
      rfl

/-- A list that loses its first element, or has an element that is written longer, is longer. -/
theorem length_joined_lt (hsep : sep ≠ [])
    (h : ∀ x ∈ xs, skip x = false → (write' (tr x)).length ≤ (write x).length)
    (hlonger : LosesFirst skip xs ∨
      ∃ x ∈ xs, skip x = false ∧ (write' (tr x)).length < (write x).length) :
    (joined sep (fun _ => false) write' true (kept skip tr xs)).length <
      (joined sep skip write true xs).length := by
  cases xs with
  | nil => rcases hlonger with ⟨-, x, hx, -⟩ | ⟨x, hx, -⟩ <;> cases hx
  | cons x xs =>
    have hrest : ∀ y ∈ xs, skip y = false → (write' (tr y)).length ≤ (write y).length :=
      fun y hy => h y (mem_cons_of_mem _ hy)
    have hle := length_joined_false sep hrest
    cases hskip : skip x with
    | true =>
      rw [kept_cons_skip hskip, joined_skip hskip]
      -- some element is kept, and it gets a separator that the other list has not
      obtain ⟨y, hy, hykept⟩ : ∃ y ∈ xs, skip y = false := by
        have hsome : ∃ y ∈ x :: xs, skip y = false := by
          rcases hlonger with ⟨-, hsome⟩ | ⟨y, hy, hyskip, -⟩
          · exact hsome
          · exact ⟨y, hy, hyskip⟩
        obtain ⟨y, hy, hyskip⟩ := hsome
        rcases mem_cons.mp hy with rfl | hy
        · rw [hskip] at hyskip
          cases hyskip
        · exact ⟨y, hy, hyskip⟩
      obtain ⟨z, zs, hkept⟩ : ∃ z zs, kept skip tr xs = z :: zs := by
        refine exists_cons_of_ne_nil fun hnil => ?_
        have hmem : tr y ∈ kept skip tr xs :=
          mem_map_of_mem (mem_filter.mpr ⟨hy, by simp [hykept]⟩)
        rw [hnil] at hmem
        cases hmem
      have hpos := length_pos_of_ne_nil hsep
      rw [hkept] at hle ⊢
      rw [joined_first, length_append] at hle
      omega
    | false =>
      have hx := h x mem_cons_self hskip
      rw [kept_cons hskip, joined_write rfl, joined_write hskip]
      simp only [length_append, if_true, nil_append]
      rcases hlonger with ⟨⟨y, hy, hyskip⟩, -⟩ | ⟨y, hy, hyskip, hylt⟩
      · cases hy
        rw [hskip] at hyskip
        cases hyskip
      · rcases mem_cons.mp hy with rfl | hy
        · omega
        · have := length_joined_false_lt sep hrest ⟨y, hy, hyskip, hylt⟩
          omega

end ChromiumUI.SeparatedLists
