import Mathlib
import ChromiumUI.GridRows

/-!
# Filling the host

How much of a width or a height DistributeDelta loses to the casts, and what that means for a
layout.
-/
namespace ChromiumUI.Views.Grid

open List Int ColumnSet

/-- What DistributeDelta does not give out of `delta`. -/
def lost {T : Type} [Element T] (delta : Int) (elements : List T) : Int :=
  if ∀ e ∈ elements, IsResizable e then 0
  else delta - wholeShares delta (totalPercent elements) elements

section
variable {T : Type} [Element T] {elements elements' : List T} {delta : Int}

theorem lost_eq_zero_iff (hsome : ∃ e ∈ elements, IsResizable e) :
    lost delta elements = 0 ↔ SharesWhole delta elements := by
  rw [lost, SharesWhole]
  split
  · rename_i hall
    exact iff_of_true rfl (Or.inl hall)
  · rename_i hall
    rw [or_iff_right hall, ← wholeShares_eq_iff (totalPercent_pos hsome)]
    omega

theorem totalSize_distributeDelta (hsome : ∃ e ∈ elements, IsResizable e) :
    totalSize (distributeDelta delta elements) =
      totalSize elements + (delta - lost delta elements) := by
  by_cases hwhole : SharesWhole delta elements
  · rw [(lost_eq_zero_iff hsome).mpr hwhole, sub_zero]
    exact (distributeDelta_total_iff hsome).mpr hwhole
  · have hpos := totalPercent_pos hsome
    have hall : ¬ ∀ e ∈ elements, IsResizable e := fun h => hwhole (Or.inl h)
    have hdelta : delta ≠ 0 := by
      rintro rfl
      refine hwhole (Or.inr fun e _ => ⟨0, ?_⟩)
      rw [share, cast_zero, zero_mul]
    rw [lost, if_neg hall, distributeDelta, if_neg hdelta]
    rw [if_neg (ne_of_gt hpos), giveShares_total_of_fixed (length_resizable_lt hall)]
    omega

theorem exists_resizable_congr (h : List.Forall₂ (fun e e' => IsResizable e' ↔ IsResizable e)
    elements elements') : (∃ e ∈ elements', IsResizable e) ↔ ∃ e ∈ elements, IsResizable e := by
  induction h with
  | nil => simp
  | cons he _ ih => rw [exists_mem_cons_iff, exists_mem_cons_iff, he, ih]

theorem exists_resizable_distributeDelta (delta : Int) (elements : List T) :
    (∃ e ∈ distributeDelta delta elements, IsResizable e) ↔ ∃ e ∈ elements, IsResizable e :=
  exists_resizable_congr ((distributeDelta_given delta elements).imp fun e e' h => by
    rw [h.1, isResizable_setSize])

theorem exists_resizable_located (start : Int) (elements : List T) :
    (∃ e ∈ calculateLocationsFromSize start elements, IsResizable e) ↔
      ∃ e ∈ elements, IsResizable e := by
  refine exists_resizable_congr ?_
  induction elements generalizing start with
  | nil => exact .nil
  | cons e elements ih =>
    refine .cons ?_ (ih _)
    rw [IsResizable, resizePercent_setLocation, IsResizable]

theorem lost_zero (elements : List T) : lost 0 elements = 0 := by
  have hzero : ∀ e : T, toInt (share 0 (totalPercent elements) e) = 0 := by
    intro e
    rw [share, cast_zero, zero_mul, toInt_zero]
  rw [lost]
  split
  · rfl
  · rw [wholeShares, map_congr_left fun e _ => hzero e]
    simp

end

/-! ## Layout -/

namespace GridLayout

variable {g : GridLayout} {width height : Nat}

/-- The width that the columns are laid out at. -/
def columnsWidth (width : Nat) (g : GridLayout) : Int :=
  if width ≠ 0 then width else (sizeColumns width g).2

/-- The rows before any height is distributed. -/
def preferredRows (width : Nat) (g : GridLayout) : List Row :=
  calculateLocationsFromSize 0 (sizeRows g.rows (askHeights (sizeColumns width g).1 g.viewStates)).1

/-- The height that the rows and the insets come to. -/
def rowsHeight (width : Nat) (g : GridLayout) : Int :=
  totalSize (preferredRows width g) + g.topInset + g.bottomInset

/-- All the pixels of the host that the insets leave are given to the columns and to the rows. -/
structure Fills (width height : Nat) (g : GridLayout) (sized : Sized) : Prop where
  columns : ∀ s ∈ sized.columnSets, (∃ c ∈ s.columns, IsResizable c) →
    s.layoutWidth = width - g.leftInset - g.rightInset
  rows : (∃ row ∈ sized.rows, IsResizable row) →
    totalSize sized.rows = height - g.topInset - g.bottomInset

/-- No pixel is lost, or as many as the preferred width, in the place of no width at all, adds, and
as few as the preferred height, in the place of one less than nothing, takes. -/
structure LosesNothing (width height : Nat) (g : GridLayout) : Prop where
  columns : ∀ s ∈ g.columnSets.map calculateSize, (∃ c ∈ s.columns, IsResizable c) →
    lost (columnsWidth width g - s.layoutWidth - g.leftInset - g.rightInset) s.columns =
      columnsWidth width g - width
  rows : (∃ row ∈ preferredRows width g, IsResizable row) →
    lost (height - max (rowsHeight width g) 0) (preferredRows width g) =
      rowsHeight width g - max (rowsHeight width g) 0

/-! ### Columns -/

theorem layoutWidth_resize {s : ColumnSet} {delta : Int} (hsome : ∃ c ∈ s.columns, IsResizable c) :
    (s.resize delta).resetColumnXCoordinates.layoutWidth =
      s.layoutWidth + (delta - lost delta s.columns) := by
  rw [layoutWidth, resetColumnXCoordinates, resize]
  rw [totalSize_calculateLocationsFromSize, totalSize_distributeDelta hsome, layoutWidth]

theorem resizable_resize (delta : Int) (s : ColumnSet) :
    (∃ c ∈ (s.resize delta).resetColumnXCoordinates.columns, IsResizable c) ↔
      ∃ c ∈ s.columns, IsResizable c :=
  (exists_resizable_located _ _).trans (exists_resizable_distributeDelta _ _)

theorem sizeColumns_fst (width : Nat) (g : GridLayout) :
    (sizeColumns width g).1 = (g.columnSets.map calculateSize).map fun s =>
      (s.resize (columnsWidth width g - s.layoutWidth - g.leftInset -
        g.rightInset)).resetColumnXCoordinates := by
  have hwidth : (if (width : Int) ≠ 0 then (width : Int) else ((sizeColumns width g).2 : Int)) =
      columnsWidth width g := by
    rw [columnsWidth]
    split <;> split <;> omega
  rw [← hwidth]
  rfl

theorem columns_fill_iff (width : Nat) (g : GridLayout) :
    (∀ s ∈ (sizeColumns width g).1, (∃ c ∈ s.columns, IsResizable c) →
      s.layoutWidth = width - g.leftInset - g.rightInset) ↔
    ∀ s ∈ g.columnSets.map calculateSize, (∃ c ∈ s.columns, IsResizable c) →
      lost (columnsWidth width g - s.layoutWidth - g.leftInset - g.rightInset) s.columns =
        columnsWidth width g - width := by
  rw [sizeColumns_fst, forall_mem_map]
  refine forall₂_congr fun s _ => ?_
  rw [resizable_resize]
  refine imp_congr_right fun hsome => ?_
  rw [layoutWidth_resize hsome]
  omega

/-! ### Rows -/

theorem length_onSpan {T : Type} {f : List T → List T} (hf : ∀ l, (f l).length = l.length)
    (start length : Nat) (elements : List T) :
    (onSpan start length f elements).length = elements.length := by
  rw [onSpan, length_append, length_append, hf, length_take, length_take,
    length_drop, length_drop]
  omega

theorem length_sizeSingleRow (rows : List Row) (v : ViewState) :
    (sizeSingleRow rows v).1.length = rows.length := by
  rw [sizeSingleRow]
  split
  · rw [length_modify, length_modify]
  · rw [length_modify]

theorem length_sizeSpanningRows (rows : List Row) (v : ViewState) :
    (sizeSpanningRows rows v).1.length = rows.length := by
  rw [sizeSpanningRows, distributeRemainingHeight]
  dsimp only
  split
  · rfl
  · split <;> exact length_onSpan (fun l => giveEach_length _ _ _ l) _ _ _

theorem length_passOver {f : List Row → ViewState → List Row × ViewState}
    (hf : ∀ rows v, (f rows v).1.length = rows.length) (rows : List Row)
    (viewStates : List ViewState) :
    (passOver f rows viewStates).1.length = rows.length := by
  induction viewStates generalizing rows with
  | nil => rfl
  | cons v viewStates ih => exact (ih _).trans (hf rows v)

/-- SizeRowsAndColumns adds no row and takes none. -/
theorem length_sizeRows (rows : List Row) (viewStates : List ViewState) :
    (sizeRows rows viewStates).1.length = rows.length := by
  rw [sizeRows]
  rw [length_passOver length_sizeSpanningRows, length_passOver length_sizeSingleRow, resetSizes,
    length_map]

theorem length_calculateLocationsFromSize {T : Type} [Element T] (start : Int) (elements : List T) :
    (calculateLocationsFromSize start elements).length = elements.length := by
  rw [← length_map size, calculateLocationsFromSize_sizes, length_map]

section

variable (hrows : g.rows ≠ [])
include hrows

theorem bottom_preferredRows (width : Nat) :
    ((preferredRows width g).getLast?.map fun row => location row + size row).getD 0 =
      totalSize (preferredRows width g) := by
  have hlen : (preferredRows width g).length = g.rows.length := by
    rw [preferredRows, length_calculateLocationsFromSize, length_sizeRows]
  have hne : (sizeRows g.rows (askHeights (sizeColumns width g).1 g.viewStates)).1 ≠ [] := by
    rw [← length_pos_iff_ne_nil, length_sizeRows]
    exact length_pos_of_ne_nil hrows
  cases hlast : (preferredRows width g).getLast? with
  | none =>
    rw [List.getLast?_eq_none_iff.mp hlast] at hlen
    exact absurd (eq_nil_of_length_eq_zero hlen.symm) hrows
  | some last =>
    rw [Option.map_some, Option.getD_some, calculateLocationsFromSize_end 0 hne hlast,
      preferredRows, totalSize_calculateLocationsFromSize, zero_add]

/-- The rows are as they are preferred, unless the host asks for another height. -/
theorem rows_eq : (sizeRowsAndColumns true width height g).rows =
    if (height : Int) ≠ max (rowsHeight width g) 0 then calculateLocationsFromSize 0
      (distributeDelta (height - max (rowsHeight width g) 0) (preferredRows width g))
    else preferredRows width g := by
  have hbottom := bottom_preferredRows hrows width
  have hpreferred : ((totalSize (preferredRows width g) + g.topInset + g.bottomInset).toNat : Int) =
      max (rowsHeight width g) 0 := toNat_eq_max _
  rw [← hpreferred, ← hbottom, sizeRowsAndColumns, if_neg hrows]
  simp only [true_and]
  split
  · rename_i hheight
    exact (if_pos hheight).symm
  · rename_i hheight
    exact (if_neg hheight).symm

theorem resizable_rows :
    (∃ row ∈ (sizeRowsAndColumns true width height g).rows, IsResizable row) ↔
      ∃ row ∈ preferredRows width g, IsResizable row := by
  rw [rows_eq hrows]
  split
  · exact (exists_resizable_located _ _).trans (exists_resizable_distributeDelta _ _)
  · exact Iff.rfl

/-- The height of the rows once what the host has left is distributed. -/
theorem totalSize_rows (hsome : ∃ row ∈ preferredRows width g, IsResizable row) :
    totalSize (sizeRowsAndColumns true width height g).rows = totalSize (preferredRows width g) +
      (height - max (rowsHeight width g) 0 -
        lost (height - max (rowsHeight width g) 0) (preferredRows width g)) := by
  rw [rows_eq hrows]
  split
  · rw [totalSize_calculateLocationsFromSize, totalSize_distributeDelta hsome]
  · rename_i hsame
    have hzero : (height : Int) - max (rowsHeight width g) 0 = 0 := by omega
    rw [hzero, lost_zero]
    omega

theorem rows_fill_iff (width height : Nat) :
    ((∃ row ∈ (sizeRowsAndColumns true width height g).rows, IsResizable row) →
      totalSize (sizeRowsAndColumns true width height g).rows =
        height - g.topInset - g.bottomInset) ↔
    ((∃ row ∈ preferredRows width g, IsResizable row) →
      lost (height - max (rowsHeight width g) 0) (preferredRows width g) =
        rowsHeight width g - max (rowsHeight width g) 0) := by
  rw [resizable_rows hrows]
  refine imp_congr_right fun hsome => ?_
  have hheight : rowsHeight width g =
      totalSize (preferredRows width g) + g.topInset + g.bottomInset := rfl
  rw [totalSize_rows hrows hsome]
  omega

/-- After Layout everything resizable fills the host exactly if nothing is lost. -/
theorem fills_iff (width height : Nat) :
    Fills width height g (sizeRowsAndColumns true width height g) ↔
      LosesNothing width height g := by
  have hcolumns : (sizeRowsAndColumns true width height g).columnSets =
      (sizeColumns width g).1 := by
    rw [sizeRowsAndColumns, if_neg hrows]
    dsimp only
    split <;> rfl
  constructor
  · intro h
    have hcols := h.columns
    rw [hcolumns] at hcols
    exact ⟨(columns_fill_iff width g).mp hcols, (rows_fill_iff hrows width height).mp h.rows⟩
  · intro h
    refine ⟨?_, (rows_fill_iff hrows width height).mpr h.rows⟩
    rw [hcolumns]
    exact (columns_fill_iff width g).mpr h.columns

end

end GridLayout

/-! ## Everything that is asked -/

/-- DistributeDelta gives out exactly what it is asked to if all elements are resizable or all
shares are whole; a layout of some rows then fills its host exactly if no share loses a pixel, and
one without rows is not laid out. -/
theorem distributeDelta_fills {T : Type} [Element T] (elements : List T) (delta : Int)
    (g : GridLayout) (width height : Nat) :
    ((∃ e ∈ elements, IsResizable e) →
      (Distributed delta elements (distributeDelta delta elements) ↔
        SharesWhole delta elements)) ∧
    (g.rows ≠ [] → (GridLayout.Fills width height g
      (GridLayout.sizeRowsAndColumns true width height g) ↔
        GridLayout.LosesNothing width height g)) ∧
    (g.rows = [] →
      (GridLayout.sizeRowsAndColumns true width height g).columnSets = g.columnSets) := by
  refine ⟨fun hsome => distributed_iff hsome, fun hrows => GridLayout.fills_iff hrows width height,
    fun hrows => ?_⟩
  rw [GridLayout.sizeRowsAndColumns, if_pos hrows]

/-! ## A label between two columns -/

/-- Two columns that share what is left, and one that is fixed. -/
def labelColumns : List Column :=
  [.new 1 zero_le_one .usePref 0 0, .new 1 zero_le_one .usePref 0 0, .new 0 no_resize .fixed 4 0]

theorem labelColumns_some : ∃ c ∈ labelColumns, IsResizable c :=
  ⟨_, mem_cons_self, by decide⟩

/-- Two pixels are shared. -/
theorem distributeDelta_fills_two : Distributed 2 labelColumns (distributeDelta 2 labelColumns) :=
  ((distributeDelta_fills labelColumns 2 ⟨[], [], [], 0, 0, 0, 0⟩ 0 0).1 labelColumns_some).mpr
    (Or.inr (forall_mem_cons.mpr ⟨⟨1, by decide +kernel⟩, forall_mem_cons.mpr
      ⟨⟨1, by decide +kernel⟩, forall_mem_singleton.mpr ⟨0, by decide +kernel⟩⟩⟩))

/-- Of one pixel nobody is given anything. -/
theorem pixel_not_given : (∃ c ∈ labelColumns, IsResizable c) ∧
    ¬ Distributed 1 labelColumns (distributeDelta 1 labelColumns) := by
  refine ⟨labelColumns_some, fun h => absurd h.total ?_⟩
  decide +kernel

end ChromiumUI.Views.Grid
