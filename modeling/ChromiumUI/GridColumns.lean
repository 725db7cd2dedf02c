import ChromiumUI.GridElements

/-!
# Elements while they are sized

Sizing changes nothing of columns but their sizes, and once they are reset it makes none of them
narrower. How much the two loops give that share out a width or a height.
-/
namespace ChromiumUI.Views.Grid

open List Option Int

/-- An element with another size. -/
def Resized {T : Type} [Element T] (e e' : T) : Prop := e' = setSize (size e') e

/-- Elements with other sizes. -/
def SizesOnly {T : Type} [Element T] : List T → List T → Prop := List.Forall₂ Resized

/-- Elements with sizes that are not smaller. -/
def Grown {T : Type} [Element T] : List T → List T → Prop :=
  List.Forall₂ fun e e' => Resized e e' ∧ size e ≤ size e'

section
variable {T : Type} [Element T] {e e' e'' : T} {elements elements' elements'' : List T} {i : Nat}

@[simp] theorem setSize_setSize (m n : Int) (e : T) : setSize n (setSize m e) = setSize n e := by
  rw [setSize, setSize, Element.set_set, Element.element_set, setSize]

namespace Resized

theorem refl (e : T) : Resized e e := (setSize_size e).symm

theorem setSize (n : Int) (e : T) : Resized e (setSize n e) := by
  rw [Resized, size_setSize]

theorem trans (h : Resized e e') (h' : Resized e' e'') : Resized e e'' := by
  have heq : e'' = Grid.setSize (size e'') (Grid.setSize (size e') e) := by
    rw [← h]
    exact h'
  rw [setSize_setSize] at heq
  exact heq

end Resized

namespace SizesOnly

theorem refl (elements : List T) : SizesOnly elements elements :=
  forall₂_same.mpr fun e _ => Resized.refl e

theorem trans (h : SizesOnly elements elements') (h' : SizesOnly elements' elements'') :
    SizesOnly elements elements'' := by
  induction h generalizing elements'' with
  | nil => exact h'
  | cons he _ ih =>
    cases h' with
    | cons he' hrest' => exact .cons (he.trans he') (ih hrest')

theorem length_eq (h : SizesOnly elements elements') : elements'.length = elements.length :=
  (Forall₂.length_eq h).symm

theorem map (f : T → T) (hf : ∀ e, Resized e (f e)) (elements : List T) :
    SizesOnly elements (elements.map f) := by
  induction elements with
  | nil => exact .nil
  | cons e elements ih => exact .cons (hf e) ih

/-- What does not depend on the size. -/
theorem get {β : Type*} (h : SizesOnly elements elements') (f : T → β)
    (hf : ∀ n e, f (setSize n e) = f e) (i : Nat) : elements'[i]?.map f = elements[i]?.map f := by
  induction h generalizing i with
  | nil => rfl
  | @cons e e' _ _ he _ ih =>
    cases i with
    | zero =>
      rw [getElem?_cons_zero, getElem?_cons_zero, map_some, map_some, he,
        hf]
    | succ i => exact ih i

end SizesOnly

namespace Grown

theorem refl (elements : List T) : Grown elements elements :=
  forall₂_same.mpr fun e _ => ⟨Resized.refl e, le_refl _⟩

section

variable (h : Grown elements elements')
include h

theorem trans (h' : Grown elements' elements'') : Grown elements elements'' := by
  induction h generalizing elements'' with
  | nil => exact h'
  | cons he _ ih =>
    cases h' with
    | cons he' hrest' => exact .cons ⟨he.1.trans he'.1, le_trans he.2 he'.2⟩ (ih hrest')

theorem sizesOnly : SizesOnly elements elements' :=
  h.imp fun _ _ h => h.1

theorem append {others others' : List T} (h' : Grown others others') : Grown (elements ++ others)
    (elements' ++ others') :=
  rel_append h h'

end

theorem modify {f : T → T} (hf : ∀ e, Resized e (f e) ∧ size e ≤ size (f e)) (i : Nat)
    (elements : List T) : Grown elements (elements.modify i f) := by
  induction elements generalizing i with
  | nil =>
    rw [modify_nil]
    exact .nil
  | cons e elements ih =>
    cases i with
    | zero =>
      rw [modify_zero_cons]
      exact .cons (hf e) (refl elements)
    | succ i =>
      rw [modify_succ_cons]
      exact .cons ⟨Resized.refl e, le_refl _⟩ (ih i)

theorem onSpan {f : List T → List T} (start length : Nat)
    (h : Grown ((elements.drop start).take length) (f ((elements.drop start).take length))) :
    Grown elements (onSpan start length f elements) := by
  have hsplit : elements = elements.take start ++ (elements.drop start).take length ++
      elements.drop (start + length) := by
    rw [append_assoc, ← drop_drop, take_append_drop, take_append_drop]
  conv_lhs => rw [hsplit]
  exact ((refl _).append h).append (refl _)

section

variable (h : Grown elements elements')
include h

theorem totalSize_le : totalSize elements ≤ totalSize elements' := by
  induction h with
  | nil => exact le_refl _
  | cons he _ ih =>
    rw [totalSize_cons, totalSize_cons]
    omega

theorem take (n : Nat) : Grown (elements.take n) (elements'.take n) := forall₂_take n h

theorem drop (n : Nat) : Grown (elements.drop n) (elements'.drop n) := forall₂_drop n h

theorem totalSizeOf_le (start length : Nat) :
    totalSizeOf start length elements ≤ totalSizeOf start length elements' :=
  ((h.drop start).take length).totalSize_le

end

end Grown

/-- The elements of a span after it is changed. -/
theorem totalSizeOf_onSpan {f : List T → List T} {start length : Nat}
    (hspan : start + length ≤ elements.length)
    (hlen : (f ((elements.drop start).take length)).length = length) :
    totalSizeOf start length (onSpan start length f elements) =
      totalSize (f ((elements.drop start).take length)) := by
  have hstart : (elements.take start).length = start := by
    rw [length_take]
    omega
  rw [totalSizeOf, onSpan, append_assoc, drop_left' hstart, take_left' hlen]

end

/-! ## What is given -/

section
variable {T : Type} [Element T] {p : T → Prop} [DecidablePred p] {elements : List T}
  {left each : Int}

/-- How many of the elements are given something. -/
def countOf {α : Type} (p : α → Prop) [DecidablePred p] (l : List α) : Nat :=
  (l.filter (p ·)).length

theorem countOf_cons_of_pos {α : Type} {p : α → Prop} [DecidablePred p] {a : α} {l : List α}
    (h : p a) : countOf p (a :: l) = countOf p l + 1 := by
  unfold countOf
  rw [filter_cons_of_pos (by simpa using h), length_cons]

theorem countOf_cons_of_neg {α : Type} {p : α → Prop} [DecidablePred p] {a : α} {l : List α}
    (h : ¬ p a) : countOf p (a :: l) = countOf p l := by
  unfold countOf
  rw [filter_cons_of_neg (by simpa using h)]

theorem giveEach_none (h : countOf p elements = 0) : giveEach p left each elements = elements := by
  induction elements generalizing left each with
  | nil => rfl
  | cons e elements ih =>
    by_cases hp : p e
    · rw [countOf_cons_of_pos hp] at h
      cases h
    · rw [countOf_cons_of_neg hp] at h
      rw [giveEach, if_neg hp, ih h]

/-- Each is given the same; the last one the rest too, if that is less. -/
theorem giveEach_grown {rest : Int} (heach : 0 ≤ each) (hrest : 0 ≤ rest)
    (hleft : left = countOf p elements * each + rest) :
    Grown elements (giveEach p left each elements) ∧
      totalSize (giveEach p left each elements) = totalSize elements + countOf p elements * each +
        (if 0 < countOf p elements ∧ rest < each then rest else 0) := by
  induction elements generalizing left with
  | nil =>
    refine ⟨.nil, ?_⟩
    simp [giveEach, countOf]
  | cons e elements ih =>
    by_cases hp : p e
    · rw [countOf_cons_of_pos hp] at hleft ⊢
      have hexpand : ((countOf p elements + 1 : Nat) : Int) * each =
          countOf p elements * each + each := by
        push_cast
        ring
      rw [hexpand] at hleft ⊢
      rw [giveEach, if_pos hp]
      dsimp only
      by_cases hlast : countOf p elements = 0
      · have hzero : (countOf p elements : Int) * each = 0 := by
          rw [hlast]
          simp
        rw [giveEach_none hlast, totalSize_cons, totalSize_cons, size_setSize]
        refine ⟨.cons ⟨Resized.setSize _ _, ?_⟩ (Grown.refl _), ?_⟩
        · rw [size_setSize]
          split <;> omega
        · rw [hlast]
          split <;> split <;> omega
      · have hmore : each ≤ countOf p elements * each := by
          have hone : (1 : Int) ≤ countOf p elements := by omega
          have hmul := mul_le_mul_of_nonneg_right hone heach
          rwa [one_mul] at hmul
        rw [if_neg (by omega)]
        obtain ⟨hgrown, htotal⟩ := @ih (left - each) (by omega)
        refine ⟨.cons ⟨Resized.setSize _ _, by rw [size_setSize]; omega⟩ hgrown, ?_⟩
        rw [totalSize_cons, totalSize_cons, size_setSize, htotal]
        split <;> split <;> omega
    · rw [countOf_cons_of_neg hp] at hleft ⊢
      rw [giveEach, if_neg hp]
      obtain ⟨hgrown, htotal⟩ := ih hleft
      refine ⟨.cons ⟨Resized.refl e, le_refl _⟩ hgrown, ?_⟩
      rw [totalSize_cons, totalSize_cons, htotal]
      omega

/-- The whole of a width or a height is given out. -/
def DividesWell (whole : Int) (n : Nat) : Prop := whole % n = 0 ∨ whole % n < whole / n

instance (whole : Int) (n : Nat) : Decidable (DividesWell whole n) := by
  unfold DividesWell
  infer_instance

/-- What giveEach gives, as far as it fills what was missing. -/
theorem giveEach_fills {whole : Int} (hwhole : 0 < whole) (hcount : 0 < countOf p elements) :
    Grown elements (giveEach p whole (whole.tdiv (countOf p elements)) elements) ∧
      (totalSize elements + whole ≤
          totalSize (giveEach p whole (whole.tdiv (countOf p elements)) elements) ↔
        DividesWell whole (countOf p elements)) := by
  have hpos : (0 : Int) < countOf p elements := by exact_mod_cast hcount
  have hdiv : whole.tdiv (countOf p elements) = whole / countOf p elements :=
    tdiv_eq_ediv_of_nonneg (le_of_lt hwhole)
  have hsplit := mul_ediv_add_emod whole (countOf p elements)
  have hrest := emod_nonneg whole (ne_of_gt hpos)
  obtain ⟨hgrown, htotal⟩ := @giveEach_grown T _ p _ elements whole
    (whole / countOf p elements) (whole % countOf p elements)
    (ediv_nonneg (le_of_lt hwhole) (le_of_lt hpos)) hrest hsplit.symm
  rw [hdiv]
  refine ⟨hgrown, ?_⟩
  rw [htotal, DividesWell]
  split <;> omega

end

/-! ## Columns -/

namespace ColumnSet

section
variable {columns columns' : List Column} {width remaining : Int} {total : ℚ} {n k i : Nat}

/-- What the percents of some columns are worth. -/
def worth (width : Int) (total : ℚ) (columns : List Column) : ℚ :=
  width * totalPercent (resizable columns) / total

theorem worth_cons_of_pos {c : Column} (h : IsResizable c) : worth width total (c :: columns) =
    width * resizePercent c / total + worth width total columns := by
  rw [worth, resizable_cons_of_pos h, totalPercent, map_cons, sum_cons, worth,
    totalPercent]
  ring

theorem worth_cons_of_neg {c : Column} (h : ¬ IsResizable c) :
    worth width total (c :: columns) = worth width total columns := by
  rw [worth, resizable_cons_of_neg h, worth]

theorem worth_nonneg (hwidth : 0 ≤ width) (htotal : 0 ≤ total) (columns : List Column) :
    0 ≤ worth width total columns := by
  have hpercent : 0 ≤ totalPercent (resizable columns) := by
    apply sum_nonneg
    intro q hq
    obtain ⟨c, -, rfl⟩ := mem_map.mp hq
    exact resizePercent_nonneg c
  exact div_nonneg (mul_nonneg (by exact_mod_cast hwidth) hpercent) htotal

/-- The resizable columns are given all that remains; what they are worth does not exceed it. -/
theorem giveResizable_grown (hwidth : 0 ≤ width) (htotal : 0 ≤ total)
    (hcount : k + countOf IsResizable columns = n)
    (hrem : worth width total columns ≤ remaining) :
    Grown columns (giveResizable width total n remaining k columns) ∧
      (0 < countOf IsResizable columns →
        totalSize (giveResizable width total n remaining k columns) =
          totalSize columns + remaining) := by
  induction columns generalizing remaining k with
  | nil => exact ⟨.nil, fun hno => absurd hno (by simp [countOf])⟩
  | cons c columns ih =>
    by_cases hc : IsResizable c
    · rw [countOf_cons_of_pos hc] at hcount
      rw [worth_cons_of_pos hc] at hrem
      have hrest := worth_nonneg hwidth htotal columns
      have hshare : (0 : ℚ) ≤ width * resizePercent c / total :=
        div_nonneg (mul_nonneg (by exact_mod_cast hwidth) (resizePercent_nonneg c)) htotal
      rw [giveResizable, if_pos hc]
      dsimp only
      by_cases hlast : k + 1 = n
      · have hnone : countOf IsResizable columns = 0 := by omega
        have hall : ∀ (w : Int) (m : Nat), giveResizable width total n w m columns = columns := by
          clear ih hrem hrest hcount
          induction columns with
          | nil => exact fun _ _ => rfl
          | cons c' columns ih' =>
            intro w m
            by_cases hc' : IsResizable c'
            · rw [countOf_cons_of_pos hc'] at hnone
              cases hnone
            · rw [countOf_cons_of_neg hc'] at hnone
              rw [giveResizable, if_neg hc', ih' hnone]
        have hpos : (0 : Int) ≤ remaining := by
          have : (0 : ℚ) ≤ remaining := by linarith
          exact_mod_cast this
        rw [if_pos hlast, hall]
        refine ⟨.cons ⟨Resized.setSize _ _, by rw [size_setSize]; omega⟩ (Grown.refl _),
          fun _ => ?_⟩
        rw [totalSize_cons, totalSize_cons, size_setSize]
        omega
      · have hsome : 0 < countOf IsResizable columns := by omega
        rw [if_neg hlast]
        have hle := toInt_le hshare
        have hpos : (0 : Int) ≤ toInt (width * resizePercent c / total) := by
          rw [toInt, if_pos hshare]
          exact floor_nonneg.mpr hshare
        obtain ⟨hgrown, hgiven⟩ :=
          @ih (remaining - toInt (width * resizePercent c / total)) (k + 1) (by omega) (by
            push_cast
            linarith)
        refine ⟨.cons ⟨Resized.setSize _ _, by rw [size_setSize]; omega⟩ hgrown, fun _ => ?_⟩
        rw [totalSize_cons, totalSize_cons, size_setSize, hgiven hsome]
        omega
    · rw [countOf_cons_of_neg hc] at hcount
      rw [worth_cons_of_neg hc] at hrem
      rw [countOf_cons_of_neg hc, giveResizable, if_neg hc]
      obtain ⟨hgrown, hgiven⟩ := ih hcount hrem
      refine ⟨.cons ⟨Resized.refl c, le_refl _⟩ hgrown, fun hsome => ?_⟩
      rw [totalSize_cons, totalSize_cons, hgiven hsome]
      omega

/-! ### Linked columns -/

theorem sameSizeColumnsOf_of_sizesOnly (h : SizesOnly columns columns') :
    sameSizeColumnsOf columns' = sameSizeColumnsOf columns := by
  funext i
  rw [sameSizeColumnsOf, h.get Column.sameSizeColumns (fun _ _ => rfl) i, sameSizeColumnsOf]

theorem widthOf_le (h : Grown columns columns') (i : Nat) :
    widthOf columns i ≤ widthOf columns' i := by
  induction h generalizing i with
  | nil => exact le_refl _
  | cons he _ ih =>
    cases i with
    | zero => exact he.2
    | succ i => exact ih i

theorem widthOf_modify (f : Column → Column) (j : Nat) :
    widthOf (columns.modify i f) j =
      if i = j then (columns[j]?.map fun c => size (f c)).getD 0 else widthOf columns j := by
  rw [widthOf, getElem?_modify_if]
  split
  · rw [Option.map_map]
    rfl
  · rfl

theorem setSizes_sizesOnly (width : Int) (columns : List Column) (list : List Nat) :
    SizesOnly columns (setSizes width columns list) := by
  induction list generalizing columns with
  | nil => exact .refl _
  | cons i list ih =>
    refine SizesOnly.trans ?_ (ih _)
    induction columns generalizing i with
    | nil =>
      rw [modify_nil]
      exact .nil
    | cons c columns ih' =>
      cases i with
      | zero =>
        rw [modify_zero_cons]
        exact .cons (Resized.setSize _ _) (SizesOnly.refl columns)
      | succ i =>
        rw [modify_succ_cons]
        exact .cons (Resized.refl c) (ih' i)

theorem widthOf_setSizes (width : Int) (columns : List Column) (list : List Nat) (i : Nat) :
    widthOf (setSizes width columns list) i =
      if i ∈ list ∧ i < columns.length then width else widthOf columns i := by
  induction list generalizing columns with
  | nil =>
    rw [if_neg (fun hno => not_mem_nil hno.1)]
    rfl
  | cons j list ih =>
    rw [setSizes, ih, length_modify, widthOf_modify]
    simp only [mem_cons]
    by_cases hi : i < columns.length
    · by_cases hmem : i ∈ list
      · rw [if_pos ⟨hmem, hi⟩, if_pos ⟨Or.inr hmem, hi⟩]
      · rw [if_neg (fun hno => hmem hno.1)]
        by_cases hij : i = j
        · subst hij
          rw [if_pos rfl, if_pos ⟨Or.inl rfl, hi⟩, getElem?_eq_getElem hi, map_some,
            getD_some, size_setSize]
        · rw [if_neg (Ne.symm hij), if_neg (by tauto)]
    · have hnone : columns[i]? = none := getElem?_eq_none (Nat.not_lt.mp hi)
      have hout : ∀ {q : Prop}, ¬ (q ∧ i < columns.length) := fun hno => hi hno.2
      rw [if_neg hout, if_neg hout, widthOf, hnone]
      split <;> rfl

theorem le_foldl_max (numbers : List Int) (start : Int) :
    start ≤ numbers.foldl max start ∧ ∀ m ∈ numbers, m ≤ numbers.foldl max start := by
  induction numbers generalizing start with
  | nil => exact ⟨le_refl _, fun m hm => absurd hm not_mem_nil⟩
  | cons m numbers ih =>
    obtain ⟨hstart, hall⟩ := ih (max start m)
    rw [foldl_cons]
    refine ⟨by omega, fun m' hm' => ?_⟩
    obtain rfl | hm' := mem_cons.mp hm'
    · omega
    · exact hall m' hm'

theorem grown_of_sizesOnly (h : SizesOnly columns columns')
    (hle : ∀ i, widthOf columns i ≤ widthOf columns' i) : Grown columns columns' := by
  induction h with
  | nil => exact .nil
  | cons he _ ih => exact .cons ⟨he, hle 0⟩ (ih fun i => hle (i + 1))

theorem unifyColumns_grown (columns : List Column) (list : List Nat) :
    Grown columns (unifyColumns columns list) := by
  refine grown_of_sizesOnly (setSizes_sizesOnly _ _ _) fun i => ?_
  rw [unifyColumns, widthOf_setSizes]
  split
  · rename_i hi
    exact (le_foldl_max _ 0).2 _ (mem_map_of_mem hi.1)
  · exact le_refl _

theorem unifySameSizedColumnSizes_grown (columns : List Column) (masterColumns : List Nat) :
    Grown columns (unifySameSizedColumnSizes columns masterColumns) := by
  induction masterColumns generalizing columns with
  | nil => exact Grown.refl _
  | cons m masterColumns ih => exact (unifyColumns_grown columns _).trans (ih _)

/-- Columns in no list keep their widths. -/
theorem widthOf_unify_of_notMem {masterColumns : List Nat}
    (h : ∀ m ∈ masterColumns, i ∉ sameSizeColumnsOf columns m) :
    widthOf (unifySameSizedColumnSizes columns masterColumns) i = widthOf columns i := by
  induction masterColumns generalizing columns with
  | nil => rfl
  | cons m masterColumns ih =>
    have hsizes := (unifyColumns_grown columns (sameSizeColumnsOf columns m)).sizesOnly
    rw [unifySameSizedColumnSizes, ih, unifyColumns, widthOf_setSizes,
      if_neg fun hno => h m mem_cons_self hno.1]
    intro m' hm'
    rw [sameSizeColumnsOf_of_sizesOnly hsizes]
    exact h m' (mem_cons_of_mem _ hm')

/-- The columns of one list are given the largest of their widths. -/
theorem widthOf_unify_of_mem {masterColumns : List Nat} {m : Nat} (hm : m ∈ masterColumns)
    (hdisj : ∀ m m' x, x ∈ sameSizeColumnsOf columns m → x ∈ sameSizeColumnsOf columns m' →
      m = m')
    (hnodup : masterColumns.Nodup) (hi : i ∈ sameSizeColumnsOf columns m)
    (hlt : i < columns.length) :
    widthOf (unifySameSizedColumnSizes columns masterColumns) i =
      ((sameSizeColumnsOf columns m).map (widthOf columns)).foldl max 0 := by
  induction masterColumns generalizing columns with
  | nil => cases hm
  | cons m' masterColumns ih =>
    obtain ⟨hnot, hnodup'⟩ := nodup_cons.mp hnodup
    have hsizes := (unifyColumns_grown columns (sameSizeColumnsOf columns m')).sizesOnly
    have hlists := sameSizeColumnsOf_of_sizesOnly hsizes
    rw [unifySameSizedColumnSizes]
    by_cases hmm : m = m'
    · subst hmm
      have hout : ∀ m' ∈ masterColumns,
          i ∉ sameSizeColumnsOf (unifyColumns columns (sameSizeColumnsOf columns m)) m' := by
        intro m' hm' hi'
        rw [hlists] at hi'
        obtain rfl := hdisj m m' i hi hi'
        exact hnot hm'
      rw [widthOf_unify_of_notMem hout, unifyColumns, widthOf_setSizes, if_pos ⟨hi, hlt⟩]
    · rw [ih ((mem_cons.mp hm).resolve_left hmm) (by rw [hlists]; exact hdisj) hnodup'
        (by rwa [hlists]) (by rwa [hsizes.length_eq]), hlists]
      refine congrArg (foldl max 0) (map_congr_left fun x hx => ?_)
      rw [unifyColumns, widthOf_setSizes, if_neg]
      exact fun hno => hmm (hdisj m m' x hx hno.1)

theorem foldl_max_le {numbers : List Int} {start bound : Int} (hstart : start ≤ bound)
    (h : ∀ m ∈ numbers, m ≤ bound) : numbers.foldl max start ≤ bound := by
  induction numbers generalizing start with
  | nil => exact hstart
  | cons m numbers ih =>
    have hm := h m mem_cons_self
    exact ih (by omega) fun m' hm' => h m' (mem_cons_of_mem _ hm')

theorem eq_of_widthOf (h : SizesOnly columns columns')
    (hwidth : ∀ i, widthOf columns' i = widthOf columns i) : columns' = columns := by
  induction h with
  | nil => rfl
  | @cons c c' _ _ hc _ ih =>
    have hsize : size c' = size c := hwidth 0
    rw [ih fun i => hwidth (i + 1), hc, hsize, setSize_size]

/-- Columns that have one width already are left. -/
theorem unify_unify {masterColumns : List Nat}
    (hdisj : ∀ m m' x, x ∈ sameSizeColumnsOf columns m → x ∈ sameSizeColumnsOf columns m' →
      m = m')
    (hnodup : masterColumns.Nodup) :
    unifySameSizedColumnSizes (unifySameSizedColumnSizes columns masterColumns) masterColumns =
      unifySameSizedColumnSizes columns masterColumns := by
  have hsizes := (unifySameSizedColumnSizes_grown columns masterColumns).sizesOnly
  have hlists := sameSizeColumnsOf_of_sizesOnly hsizes
  have hgrown := unifySameSizedColumnSizes_grown
    (unifySameSizedColumnSizes columns masterColumns) masterColumns
  refine eq_of_widthOf hgrown.sizesOnly fun i => le_antisymm ?_ (widthOf_le hgrown i)
  by_cases hlisted : ∃ m ∈ masterColumns, i ∈ sameSizeColumnsOf columns m ∧ i < columns.length
  · obtain ⟨m, hm, hi, hlt⟩ := hlisted
    rw [widthOf_unify_of_mem hm (by rw [hlists]; exact hdisj) hnodup (by rwa [hlists])
      (by rwa [hsizes.length_eq]), widthOf_unify_of_mem hm hdisj hnodup hi hlt, hlists]
    refine foldl_max_le (le_foldl_max _ 0).1 fun w hw => ?_
    obtain ⟨x, hx, rfl⟩ := mem_map.mp hw
    by_cases hxlt : x < columns.length
    · exact le_of_eq (widthOf_unify_of_mem hm hdisj hnodup hx hxlt)
    · have hnone : (unifySameSizedColumnSizes columns masterColumns)[x]? = none := by
        rw [getElem?_eq_none]
        rw [hsizes.length_eq]
        exact Nat.not_lt.mp hxlt
      rw [widthOf, hnone]
      exact (le_foldl_max _ 0).1
  · by_cases hlt : i < columns.length
    · refine le_of_eq (widthOf_unify_of_notMem fun m hm hi => hlisted ⟨m, hm, ?_, hlt⟩)
      rwa [hlists] at hi
    · rw [widthOf, widthOf, getElem?_eq_none, getElem?_eq_none]
      · rw [hsizes.length_eq]
        exact Nat.not_lt.mp hlt
      · rw [hgrown.sizesOnly.length_eq, hsizes.length_eq]
        exact Nat.not_lt.mp hlt

end

end ColumnSet

/-! ## The sizes of the columns

What CalculateSize makes of the columns of a set, view by view. -/

variable {viewStates : List ViewState}

/-- The views of span 1 come first. -/
theorem mem_takeWhile_of_sorted {v : ViewState} {span : ViewState → Nat}
    (hsort : viewStates.Pairwise fun v w => span v ≤ span w) (hpos : ∀ v ∈ viewStates, 0 < span v)
    (hv : v ∈ viewStates) (hone : span v = 1) : v ∈ viewStates.takeWhile (span · = 1) := by
  induction viewStates with
  | nil => cases hv
  | cons w viewStates ih =>
    obtain ⟨hfirst, hrest⟩ := pairwise_cons.mp hsort
    have hw : span w = 1 := by
      have hwpos := hpos w mem_cons_self
      obtain rfl | hmem := mem_cons.mp hv
      · exact hone
      · have hle := hfirst v hmem
        omega
    rw [takeWhile_cons_of_pos (by simpa using hw)]
    obtain rfl | hmem := mem_cons.mp hv
    · exact mem_cons_self
    · exact mem_cons_of_mem _
        (ih hrest (fun v hv => hpos v (mem_cons_of_mem _ hv)) hmem)

namespace ColumnSet

/-- The columns that a view is in. -/
def span (v : ViewState) (columns : List Column) : List Column :=
  (columns.drop v.startCol).take v.colSpan

/-- What DistributeRemainingWidth gives to the columns of a view. -/
def given (columns : List Column) (v : ViewState) : Int :=
  if v.remainingWidth ≤ 0 then 0
  else if 0 < countOf IsResizable (span v columns) then v.remainingWidth
  else if 0 < countOf IsPref (span v columns) then
    if DividesWell v.remainingWidth (countOf IsPref (span v columns)) then v.remainingWidth
    else v.remainingWidth - v.remainingWidth % countOf IsPref (span v columns)
  else 0

section
variable {columns columns' : List Column} {v : ViewState} {masterColumns : List Nat}

/-! ## One view -/

theorem countOf_usePref (h : ¬ 0 < countOf IsResizable columns) :
    countOf (fun c : Column => c.sizeType = .usePref) columns = countOf IsPref columns := by
  induction columns with
  | nil => rfl
  | cons c columns ih =>
    by_cases hc : IsResizable c
    · rw [countOf_cons_of_pos hc] at h
      exact absurd (Nat.succ_pos _) h
    · rw [countOf_cons_of_neg hc] at h
      by_cases hp : c.sizeType = .usePref
      · rw [@countOf_cons_of_pos _ (fun c : Column => c.sizeType = .usePref) _ _ _ hp, ih h]
        exact (countOf_cons_of_pos ⟨hc, hp⟩).symm
      · rw [@countOf_cons_of_neg _ (fun c : Column => c.sizeType = .usePref) _ _ _ hp, ih h]
        exact (countOf_cons_of_neg fun hno => hp hno.2).symm

theorem giveEach_length {T : Type} [Element T] (p : T → Prop) [DecidablePred p] (left each : Int)
    (elements : List T) : (giveEach p left each elements).length = elements.length := by
  induction elements generalizing left each with
  | nil => rfl
  | cons e elements ih =>
    rw [giveEach]
    split <;> rw [length_cons, ih, length_cons]

theorem span_length (hspan : v.startCol + v.colSpan ≤ columns.length) :
    (span v columns).length = v.colSpan := by
  rw [span, length_take, length_drop]
  omega

theorem worth_span (width : Int) (hsome : 0 < countOf IsResizable columns) :
    0 < totalPercent (resizable columns) ∧
      worth width (totalPercent (resizable columns)) columns = width := by
  have hpos : 0 < totalPercent (resizable columns) := by
    apply totalPercent_pos
    obtain ⟨c, hc⟩ := exists_mem_of_length_pos hsome
    exact ⟨c, hc, by simpa using (mem_filter.mp hc).2⟩
  exact ⟨hpos, mul_div_cancel_right₀ _ (ne_of_gt hpos)⟩

/-- Each USE_PREF column is given the same. -/
theorem giveEach_pref {width : Int} (hwidth : 0 < width)
    (hnone : ¬ 0 < countOf IsResizable columns) (hsome : 0 < countOf IsPref columns) :
    Grown columns (giveEach (fun c => c.sizeType = .usePref) width
        (width.tdiv (countOf IsPref columns)) columns) ∧
      totalSize (giveEach (fun c => c.sizeType = .usePref) width
        (width.tdiv (countOf IsPref columns)) columns) = totalSize columns +
          if DividesWell width (countOf IsPref columns) then width
          else width - width % countOf IsPref columns := by
  have hcount := countOf_usePref hnone
  have hpos : (0 : Int) < countOf IsPref columns := by exact_mod_cast hsome
  have hdiv : width.tdiv (countOf IsPref columns) = width / countOf IsPref columns :=
    tdiv_eq_ediv_of_nonneg (le_of_lt hwidth)
  have hsplit := mul_ediv_add_emod width (countOf IsPref columns)
  have hrest := emod_nonneg width (ne_of_gt hpos)
  obtain ⟨hgrown, htotal⟩ := @giveEach_grown Column _ (fun c => c.sizeType = .usePref) _ columns
    width (width / countOf IsPref columns) (width % countOf IsPref columns)
    (ediv_nonneg (le_of_lt hwidth) (le_of_lt hpos)) hrest
    (by rw [hcount]; exact hsplit.symm)
  rw [hdiv]
  refine ⟨hgrown, ?_⟩
  rw [htotal, hcount]
  by_cases hwell : DividesWell width (countOf IsPref columns)
  · rw [if_pos hwell]
    unfold DividesWell at hwell
    split <;> omega
  · rw [if_neg hwell]
    unfold DividesWell at hwell
    split <;> omega

/-- The columns of the view grow by what is given, and no column shrinks. -/
theorem distributeRemainingWidth_spec (hspan : v.startCol + v.colSpan ≤ columns.length) :
    Grown columns (distributeRemainingWidth columns v) ∧
      totalSizeOf v.startCol v.colSpan (distributeRemainingWidth columns v) =
        totalSizeOf v.startCol v.colSpan columns + given columns v := by
  have hlen := span_length hspan
  have hwhole : ∀ f : List Column → List Column, Grown (span v columns) (f (span v columns)) →
      Grown columns (onSpan v.startCol v.colSpan f columns) ∧
        totalSizeOf v.startCol v.colSpan (onSpan v.startCol v.colSpan f columns) =
          totalSize (f (span v columns)) := fun f hf =>
    ⟨Grown.onSpan _ _ hf, totalSizeOf_onSpan hspan (hf.sizesOnly.length_eq.trans hlen)⟩
  rw [distributeRemainingWidth, given]
  by_cases hwidth : v.remainingWidth ≤ 0
  · rw [if_pos hwidth, if_pos hwidth]
    exact ⟨Grown.refl _, by omega⟩
  rw [if_neg hwidth, if_neg hwidth]
  by_cases hresize : 0 < countOf IsResizable (span v columns)
  · have hresize' : 0 < (resizable ((columns.drop v.startCol).take v.colSpan)).length :=
      hresize
    obtain ⟨hpos, hworth⟩ := worth_span v.remainingWidth hresize
    obtain ⟨hgrown, htotal⟩ := @giveResizable_grown (span v columns) v.remainingWidth
      v.remainingWidth (totalPercent (resizable (span v columns)))
      (countOf IsResizable (span v columns)) 0 (by omega) (le_of_lt hpos) (Nat.zero_add _)
      (le_of_eq hworth)
    obtain ⟨hall, hsum⟩ := hwhole _ hgrown
    rw [if_pos hresize', if_pos hresize]
    exact ⟨hall, hsum.trans (htotal hresize)⟩
  · have hresize' : ¬ 0 < (resizable ((columns.drop v.startCol).take v.colSpan)).length :=
      hresize
    rw [if_neg hresize', if_neg hresize]
    by_cases hpref : 0 < countOf IsPref (span v columns)
    · have hpref' : 0 < (((columns.drop v.startCol).take v.colSpan).filter (IsPref ·)).length :=
        hpref
      obtain ⟨hgrown, htotal⟩ := giveEach_pref (not_le.mp hwidth) hresize hpref
      obtain ⟨hall, hsum⟩ := hwhole _ hgrown
      rw [if_pos hpref', if_pos hpref]
      exact ⟨hall, hsum.trans htotal⟩
    · have hpref' : ¬ 0 < (((columns.drop v.startCol).take v.colSpan).filter (IsPref ·)).length :=
        hpref
      rw [if_neg hpref', if_neg hpref]
      exact ⟨Grown.refl _, by omega⟩

theorem given_nonneg (columns : List Column) (v : ViewState) : 0 ≤ given columns v := by
  unfold given
  split
  · exact le_refl 0
  · split
    · omega
    · split
      · rename_i hpref
        split
        · omega
        · have hle := emod_add_mul_ediv v.remainingWidth (countOf IsPref (span v columns))
          have hdiv : 0 ≤ v.remainingWidth / (countOf IsPref (span v columns) : Int) :=
            ediv_nonneg (by omega) (by omega)
          have hmul : 0 ≤ (countOf IsPref (span v columns) : Int) *
              (v.remainingWidth / (countOf IsPref (span v columns) : Int)) :=
            mul_nonneg (by omega) hdiv
          omega
      · exact le_refl 0

/-! ## The pass -/

/-- The view is in columns of the set. -/
def Inside (columns : List Column) (v : ViewState) : Prop :=
  0 < v.colSpan ∧ v.startCol + v.colSpan ≤ columns.length

theorem Inside.congr (h : Inside columns v) (hsizes : SizesOnly columns columns') :
    Inside columns' v := by
  rw [Inside, hsizes.length_eq]
  exact h

theorem adjustSize_grown (width : Int) (c : Column) :
    Resized c (c.adjustSize width) ∧ size c ≤ size (c.adjustSize width) := by
  rw [Column.adjustSize]
  split
  · refine ⟨Resized.setSize _ _, ?_⟩
    rw [size_setSize]
    exact le_max_left _ _
  · exact ⟨Resized.refl c, le_refl _⟩

theorem distributeSingle_grown (columns : List Column) (v : ViewState) :
    Grown columns (distributeSingle columns v).1 := Grown.modify (adjustSize_grown _) _ _

/-- A view in several columns, with the width that is counted as missing. -/
def counted (columns : List Column) (v : ViewState) : ViewState :=
  { v with remainingWidth := updateRemainingWidth columns v }

theorem distributeSpanning_grown (hin : Inside columns v) :
    Grown columns (distributeSpanning masterColumns columns v).1 :=
  (@distributeRemainingWidth_spec columns (counted columns v) hin.2).1.trans
    (unifySameSizedColumnSizes_grown _ _)

theorem passOver_grown {f : List Column → ViewState → List Column × ViewState}
    (hall : ∀ v ∈ viewStates, Inside columns v)
    (hf : ∀ columns, ∀ v ∈ viewStates, Inside columns v → Grown columns (f columns v).1) :
    Grown columns (passOver f columns viewStates).1 := by
  induction viewStates generalizing columns with
  | nil => exact Grown.refl _
  | cons v viewStates ih =>
    have hfirst := hf columns v mem_cons_self (hall v mem_cons_self)
    refine hfirst.trans (ih (fun w hw => ?_) fun columns w hw => ?_)
    · exact (hall w (mem_cons_of_mem _ hw)).congr hfirst.sizesOnly
    · exact hf columns w (mem_cons_of_mem _ hw)

theorem resetSizes_sizesOnly (columns : List Column) : SizesOnly columns (resetSizes columns) := by
  refine SizesOnly.map _ (fun c => ?_) columns
  rfl

/-- Where the views are, and whether their sizes are fixed, is not reset. -/
theorem mem_resetPreferred {pref : Int × Int} (h : v ∈ resetPreferred pref viewStates) :
    ∃ w ∈ viewStates, v.startCol = w.startCol ∧ v.colSpan = w.colSpan := by
  induction viewStates generalizing pref with
  | nil => cases h
  | cons w viewStates ih =>
    obtain rfl | h := mem_cons.mp h
    · exact ⟨w, mem_cons_self, rfl, rfl⟩
    · obtain ⟨w', hw', hsame⟩ := ih h
      exact ⟨w', mem_cons_of_mem _ hw', hsame⟩

theorem inside_resetPreferred {pref : Int × Int} (h : ∀ v ∈ viewStates, Inside columns v) :
    ∀ v ∈ resetPreferred pref viewStates, Inside columns v := by
  intro v hv
  obtain ⟨w, hw, hstart, hspan⟩ := mem_resetPreferred hv
  rw [Inside, hstart, hspan]
  exact h w hw

/-- The columns of the set once they are reset and the views in one column are done. -/
def singlesDone (s : ColumnSet) : List Column :=
  unifySameSizedColumnSizes (passOver distributeSingle (resetSizes s.columns)
    ((resetPreferred (0, 0) s.viewStates).takeWhile (·.colSpan = 1))).1 s.masterColumns

/-- The views in several columns. -/
def spanning (s : ColumnSet) : List ViewState :=
  (resetPreferred (0, 0) s.viewStates).dropWhile (·.colSpan = 1)

variable {s : ColumnSet}

section

variable (h : ∀ v ∈ s.viewStates, Inside s.columns v)
include h

theorem inside_of_takeWhile :
    ∀ v ∈ (resetPreferred (0, 0) s.viewStates).takeWhile (·.colSpan = 1),
      Inside (resetSizes s.columns) v := fun v hv =>
  (inside_resetPreferred h v (takeWhile_subset _ hv)).congr (resetSizes_sizesOnly _)

theorem singlesDone_sizesOnly : SizesOnly s.columns s.singlesDone :=
  (resetSizes_sizesOnly _).trans ((passOver_grown (inside_of_takeWhile h)
    fun columns v _ _ => distributeSingle_grown columns v).trans
      (unifySameSizedColumnSizes_grown _ _)).sizesOnly

theorem inside_spanning :
    ∀ v ∈ s.spanning, Inside s.singlesDone v := fun v hv =>
  (inside_resetPreferred h v (dropWhile_subset _ hv)).congr (singlesDone_sizesOnly h)

theorem spanning_grown : Grown s.singlesDone s.calculateSize.columns :=
  passOver_grown (inside_spanning h) fun _ _ _ hin => distributeSpanning_grown hin

theorem calculateSize_sizesOnly : SizesOnly s.columns s.calculateSize.columns :=
  (singlesDone_sizesOnly h).trans (spanning_grown h).sizesOnly

end

/-- The last thing that is done to the columns. -/
theorem passOver_unified (viewStates : List ViewState)
    (h : ∃ columns', columns = unifySameSizedColumnSizes columns' masterColumns) :
    ∃ columns', (passOver (distributeSpanning masterColumns) columns viewStates).1 =
      unifySameSizedColumnSizes columns' masterColumns := by
  induction viewStates generalizing columns with
  | nil => exact h
  | cons v viewStates ih => exact ih ⟨_, rfl⟩

theorem calculateSize_unified (s : ColumnSet) :
    ∃ columns', s.calculateSize.columns =
      unifySameSizedColumnSizes columns' s.masterColumns :=
  passOver_unified _ ⟨_, rfl⟩

end

end ColumnSet

end ChromiumUI.Views.Grid
