import ChromiumUI.GridColumns

/-!
# The rows

Each row is made as tall as the views that are in it alone, and then the rows of each view that
spans several are given what is missing.
-/
namespace ChromiumUI.Views.Grid

open List Option Int

/-- What sizing does to a row. -/
structure RowGrown (row row' : Row) : Prop where
  resizePercent : resizePercent row' = resizePercent row
  size : size row ≤ size row'
  maxAscent : row.maxAscent ≤ row'.maxAscent
  maxDescent : row.maxDescent ≤ row'.maxDescent
  fits : row.maxAscent + row.maxDescent ≤ Grid.size row →
    row'.maxAscent + row'.maxDescent ≤ Grid.size row'

/-- The row of an index. -/
def rowAt (rows : List Row) (i : Nat) (p : Row → Prop) : Prop := ∃ row, rows[i]? = some row ∧ p row

/-- The rows of a view. -/
def rowSpanOf (v : ViewState) (rows : List Row) : List Row :=
  (rows.drop v.startRow).take v.rowSpan

/-- Among how many rows the missing height of a view is divided. -/
def sharing (rows : List Row) (v : ViewState) : Nat :=
  if 0 < countOf IsResizable (rowSpanOf v rows) then countOf IsResizable (rowSpanOf v rows)
  else v.rowSpan

/-- The rows of a view are tall enough, or what is missing divides without a loss. -/
def HeightDivides (rows : List Row) (v : ViewState) : Prop :=
  v.prefHeight ≤ totalSizeOf v.startRow v.rowSpan rows ∨
    DividesWell (v.prefHeight - totalSizeOf v.startRow v.rowSpan rows) (sharing rows v)

/-- Each view, in its turn. -/
def HeightsDivide : List Row → List ViewState → Prop
  | _, [] => True
  | rows, v :: viewStates =>
    HeightDivides rows v ∧ HeightsDivide (sizeSpanningRows rows v).1 viewStates

/-- A view that the rows are aligned along the baseline of. -/
def HasBaseline (v : ViewState) : Prop := v.baseline ≠ -1 ∧ v.baseline ≤ v.prefHeight

section
variable {rows rows' rows'' : List Row} {row row' row'' : Row} {v : ViewState} {i : Nat}

/-! ## One row -/

namespace RowGrown

theorem refl (row : Row) : RowGrown row row :=
  ⟨rfl, le_refl _, le_refl _, le_refl _, id⟩

theorem trans (h : RowGrown row row') (h' : RowGrown row' row'') : RowGrown row row'' :=
  ⟨h'.resizePercent.trans h.resizePercent, le_trans h.size h'.size,
    le_trans h.maxAscent h'.maxAscent, le_trans h.maxDescent h'.maxDescent,
    fun hfits => h'.fits (h.fits hfits)⟩

theorem of_resized (h : Resized row row') (hle : Grid.size row ≤ Grid.size row') :
    RowGrown row row' := by
  rw [h] at hle ⊢
  refine ⟨resizePercent_setSize _ _, hle, le_refl _, le_refl _, fun hfits => ?_⟩
  exact le_trans hfits hle

theorem adjustSize (height : Int) (row : Row) : RowGrown row (row.adjustSize height) := by
  refine of_resized (Resized.setSize _ _) ?_
  rw [Row.adjustSize, size_setSize]
  exact le_max_left _ _

theorem adjustSizeForBaseline (ascent descent : Int) (row : Row) :
    RowGrown row (row.adjustSizeForBaseline ascent descent) := by
  have hsize : Grid.size (row.adjustSizeForBaseline ascent descent) =
      max row.size (max ascent row.maxAscent + max descent row.maxDescent) := size_setSize _ _
  refine ⟨rfl, ?_, le_max_right _ _, le_max_right _ _, fun _ => ?_⟩
  · rw [hsize]
    exact le_max_left _ _
  · rw [hsize]
    exact le_max_right _ _

end RowGrown

/-- Rows that have only been made taller. -/
abbrev RowsGrown : List Row → List Row → Prop := List.Forall₂ RowGrown

namespace RowsGrown

theorem refl (rows : List Row) : RowsGrown rows rows :=
  forall₂_same.mpr fun row _ => RowGrown.refl row

theorem trans (h : RowsGrown rows rows') (h' : RowsGrown rows' rows'') : RowsGrown rows rows'' := by
  induction h generalizing rows'' with
  | nil => exact h'
  | cons hrow _ ih =>
    cases h' with
    | cons hrow' hrest' => exact .cons (hrow.trans hrow') (ih hrest')

theorem of_grown (h : Grown rows rows') : RowsGrown rows rows' :=
  h.imp fun _ _ h => RowGrown.of_resized h.1 h.2

theorem modify {f : Row → Row} (hf : ∀ row, RowGrown row (f row)) (i : Nat) (rows : List Row) :
    RowsGrown rows (rows.modify i f) := by
  induction rows generalizing i with
  | nil =>
    rw [modify_nil]
    exact .nil
  | cons row rows ih =>
    cases i with
    | zero =>
      rw [modify_zero_cons]
      exact .cons (hf row) (refl rows)
    | succ i =>
      rw [modify_succ_cons]
      exact .cons (RowGrown.refl row) (ih i)

section

variable (h : RowsGrown rows rows')
include h

/-- A row that had something still has it. -/
theorem rowAt {p : Row → Prop}
    (hp : ∀ row row', RowGrown row row' → p row → p row') (hrow : rowAt rows i p) :
    rowAt rows' i p := by
  induction h generalizing i with
  | nil => exact hrow
  | @cons row row' _ _ hgrown _ ih =>
    cases i with
    | zero =>
      obtain ⟨r, hr, hpr⟩ := hrow
      cases hr
      exact ⟨row', rfl, hp row row' hgrown hpr⟩
    | succ i => exact ih hrow

theorem totalSize_le : totalSize rows ≤ totalSize rows' := by
  induction h with
  | nil => exact le_refl _
  | cons hrow _ ih =>
    have hle := hrow.size
    rw [totalSize_cons, totalSize_cons]
    omega

theorem totalSizeOf_le (start length : Nat) :
    totalSizeOf start length rows ≤ totalSizeOf start length rows' :=
  totalSize_le (forall₂_take length (forall₂_drop start h))

end

end RowsGrown

/-! ## A view in one row -/

theorem sizeSingleRow_grown (rows : List Row) (v : ViewState) :
    RowsGrown rows (sizeSingleRow rows v).1 := by
  rw [sizeSingleRow]
  split
  · exact (RowsGrown.modify (RowGrown.adjustSize _) _ _).trans
      (RowsGrown.modify (RowGrown.adjustSizeForBaseline _ _) _ _)
  · exact RowsGrown.modify (RowGrown.adjustSize _) _ _

/-- What the row of a view is, once the view is done. -/
structure Accommodates (v : ViewState) (row : Row) : Prop where
  height : v.remainingHeight ≤ size row
  baseline : HasBaseline v → v.baseline ≤ row.maxAscent ∧
    v.prefHeight - v.baseline ≤ row.maxDescent ∧ row.maxAscent + row.maxDescent ≤ size row

theorem Accommodates.grown (hgrown : RowGrown row row') (h : Accommodates v row) :
    Accommodates v row' where
  height := le_trans h.height hgrown.size
  baseline := fun hbaseline => by
    obtain ⟨hascent, hdescent, hfits⟩ := h.baseline hbaseline
    exact ⟨le_trans hascent hgrown.maxAscent, le_trans hdescent hgrown.maxDescent,
      hgrown.fits hfits⟩

theorem sizeSingleRow_accommodates (hlt : v.startRow < rows.length) :
    rowAt (sizeSingleRow rows v).1 v.startRow (Accommodates v) := by
  have hrow := getElem?_eq_getElem hlt
  rw [sizeSingleRow]
  by_cases hbaseline : HasBaseline v
  · have hcond : v.baseline ≠ -1 ∧ v.baseline ≤ v.prefHeight := hbaseline
    rw [if_pos hcond]
    refine ⟨(rows[v.startRow].adjustSize v.remainingHeight).adjustSizeForBaseline v.baseline
      (v.prefHeight - v.baseline), ?_, ?_, fun _ => ⟨le_max_left _ _, le_max_left _ _, ?_⟩⟩
    · rw [getElem?_modify_if, if_pos rfl, getElem?_modify_if, if_pos rfl, hrow]
      rfl
    · refine le_trans ?_ (RowGrown.adjustSizeForBaseline _ _ _).size
      rw [Row.adjustSize, size_setSize]
      exact le_max_right _ _
    · exact le_max_right _ _
  · have hcond : ¬ (v.baseline ≠ -1 ∧ v.baseline ≤ v.prefHeight) := hbaseline
    rw [if_neg hcond]
    refine ⟨rows[v.startRow].adjustSize v.remainingHeight, ?_, ?_, fun h => absurd h hbaseline⟩
    · rw [getElem?_modify_if, if_pos rfl, hrow]
      rfl
    · rw [Row.adjustSize, size_setSize]
      exact le_max_right _ _

/-! ## A view in several rows -/

theorem countOf_true {α : Type} (l : List α) : countOf (fun _ => True) l = l.length := by
  induction l with
  | nil => rfl
  | cons a l ih => rw [countOf_cons_of_pos trivial, ih, length_cons]

/-- The view is in rows of the grid. -/
def InRows (rows : List Row) (v : ViewState) : Prop :=
  0 < v.rowSpan ∧ v.startRow + v.rowSpan ≤ rows.length

/-- The height that a view still asks for is shared out, and all of it where it divides. -/
theorem distributeRemainingHeight_spec (hin : InRows rows v) :
    Grown rows (distributeRemainingHeight rows v).1 ∧
      (totalSizeOf v.startRow v.rowSpan rows + v.remainingHeight ≤
          totalSizeOf v.startRow v.rowSpan (distributeRemainingHeight rows v).1 ↔
        v.remainingHeight ≤ 0 ∨ DividesWell v.remainingHeight (sharing rows v)) := by
  have hlen : (rowSpanOf v rows).length = v.rowSpan := by
    have hle := hin.2
    rw [rowSpanOf, length_take, length_drop]
    omega
  have hwhole : ∀ f : List Row → List Row, Grown (rowSpanOf v rows) (f (rowSpanOf v rows)) →
      Grown rows (onSpan v.startRow v.rowSpan f rows) ∧
        totalSizeOf v.startRow v.rowSpan (onSpan v.startRow v.rowSpan f rows) =
          totalSize (f (rowSpanOf v rows)) := fun f hf =>
    ⟨Grown.onSpan _ _ hf, totalSizeOf_onSpan hin.2 (hf.sizesOnly.length_eq.trans hlen)⟩
  rw [distributeRemainingHeight, sharing]
  by_cases hheight : v.remainingHeight ≤ 0
  · rw [if_pos hheight]
    exact ⟨Grown.refl _, iff_of_true (by dsimp only; omega) (Or.inl hheight)⟩
  rw [if_neg hheight, or_iff_right hheight]
  by_cases hresize : 0 < countOf IsResizable (rowSpanOf v rows)
  · have hresize' : 0 < (resizable ((rows.drop v.startRow).take v.rowSpan)).length := hresize
    obtain ⟨hgrown, hfills⟩ := giveEach_fills (not_le.mp hheight) hresize
    obtain ⟨hall, hsum⟩ := hwhole _ hgrown
    rw [if_pos hresize', if_pos hresize]
    refine ⟨hall, ?_⟩
    rw [← hfills]
    exact Eq.to_iff (congrArg _ hsum)
  · have hresize' : ¬ 0 < (resizable ((rows.drop v.startRow).take v.rowSpan)).length :=
      hresize
    have hcount : countOf (fun _ : Row => True) (rowSpanOf v rows) = v.rowSpan := by
      rw [countOf_true, hlen]
    have hsome : 0 < countOf (fun _ : Row => True) (rowSpanOf v rows) := by
      rw [hcount]
      exact hin.1
    obtain ⟨hgrown, hfills⟩ := @giveEach_fills Row _ (fun _ => True) _ (rowSpanOf v rows)
      v.remainingHeight (not_le.mp hheight) hsome
    rw [hcount] at hgrown hfills
    obtain ⟨hall, hsum⟩ := hwhole _ hgrown
    rw [if_neg hresize', if_neg hresize]
    refine ⟨hall, ?_⟩
    rw [← hfills]
    exact Eq.to_iff (congrArg _ hsum)

theorem sizeSpanningRows_grown (hin : InRows rows v) : RowsGrown rows (sizeSpanningRows rows v).1 :=
  RowsGrown.of_grown (@distributeRemainingHeight_spec rows
    { v with remainingHeight := updateRemainingHeightFromRows rows v } hin).1

/-- Right after its turn, a view that was to have its preferred height fits its rows exactly when
its height divides. -/
theorem sizeSpanningRows_fits (hin : InRows rows v) (hheight : v.remainingHeight = v.prefHeight) :
    v.prefHeight ≤ totalSizeOf v.startRow v.rowSpan (sizeSpanningRows rows v).1 ↔
      HeightDivides rows v := by
  have hspec := (@distributeRemainingHeight_spec rows
    { v with remainingHeight := updateRemainingHeightFromRows rows v } hin).2
  have hmissing : updateRemainingHeightFromRows rows v =
      v.prefHeight - totalSizeOf v.startRow v.rowSpan rows := by
    rw [updateRemainingHeightFromRows, hheight]
  dsimp only at hspec
  rw [hmissing] at hspec
  rw [sizeSpanningRows, hmissing, HeightDivides]
  have hsharing : sharing rows { v with
      remainingHeight := v.prefHeight - totalSizeOf v.startRow v.rowSpan rows } =
        sharing rows v := rfl
  rw [hsharing] at hspec
  constructor
  · intro hle
    obtain hzero | hdivides := hspec.mp (by omega)
    · exact Or.inl (by omega)
    · exact Or.inr hdivides
  · rintro (hle | hdivides)
    · have := hspec.mpr (Or.inl (by omega))
      omega
    · have := hspec.mpr (Or.inr hdivides)
      omega

/-! ## All views -/

theorem InRows.congr (h : InRows rows v) (hlen : rows'.length = rows.length) : InRows rows' v := by
  rw [InRows, hlen]
  exact h

theorem RowsGrown.length_eq (h : RowsGrown rows rows') : rows'.length = rows.length :=
  (Forall₂.length_eq h).symm

open ColumnSet (passOver)

theorem passOver_singles (rows : List Row) (viewStates : List ViewState)
    (hin : ∀ v ∈ viewStates, v.startRow < rows.length) :
    RowsGrown rows (passOver sizeSingleRow rows viewStates).1 ∧
      ∀ v ∈ viewStates, rowAt (passOver sizeSingleRow rows viewStates).1 v.startRow
        (Accommodates v) := by
  induction viewStates generalizing rows with
  | nil => exact ⟨RowsGrown.refl rows, fun v hv => by cases hv⟩
  | cons v viewStates ih =>
    have hfirst := sizeSingleRow_grown rows v
    obtain ⟨hgrown, hall⟩ := ih (sizeSingleRow rows v).1 fun w hw => by
      rw [hfirst.length_eq]
      exact hin w (mem_cons_of_mem _ hw)
    refine ⟨hfirst.trans hgrown, fun w hw => ?_⟩
    obtain rfl | hw := mem_cons.mp hw
    · exact hgrown.rowAt (fun _ _ h => Accommodates.grown h)
        (sizeSingleRow_accommodates (hin w mem_cons_self))
    · exact hall w hw

theorem passOver_spanning (rows : List Row) (viewStates : List ViewState)
    (hin : ∀ v ∈ viewStates, InRows rows v) :
    RowsGrown rows (passOver sizeSpanningRows rows viewStates).1 ∧
      ((∀ v ∈ viewStates, v.remainingHeight = v.prefHeight) → HeightsDivide rows viewStates →
        ∀ v ∈ viewStates, v.prefHeight ≤ totalSizeOf v.startRow v.rowSpan
          (passOver sizeSpanningRows rows viewStates).1) := by
  induction viewStates generalizing rows with
  | nil => exact ⟨RowsGrown.refl rows, fun _ _ v hv => by cases hv⟩
  | cons v viewStates ih =>
    have hfirst := sizeSpanningRows_grown (hin v mem_cons_self)
    obtain ⟨hgrown, hall⟩ := ih (sizeSpanningRows rows v).1 fun w hw =>
      (hin w (mem_cons_of_mem _ hw)).congr hfirst.length_eq
    refine ⟨hfirst.trans hgrown, fun hheights hdivide w hw => ?_⟩
    obtain rfl | hw := mem_cons.mp hw
    · have hfits := (sizeSpanningRows_fits (hin w mem_cons_self)
        (hheights w mem_cons_self)).mpr hdivide.1
      exact le_trans hfits (hgrown.totalSizeOf_le _ _)
    · exact hall (fun w hw => hheights w (mem_cons_of_mem _ hw)) hdivide.2 w hw

/-! ## The grid -/

/-- Where a view is. -/
def place (v : ViewState) : Nat × Nat × Nat × Nat := (v.startCol, v.colSpan, v.startRow, v.rowSpan)

theorem resetPreferred_place (pref : Int × Int) (viewStates : List ViewState) :
    (ColumnSet.resetPreferred pref viewStates).map place = viewStates.map place := by
  induction viewStates generalizing pref with
  | nil => rfl
  | cons v viewStates ih =>
    rw [ColumnSet.resetPreferred, map_cons, map_cons, ih]
    rfl

theorem passOver_place {α : Type} {f : α → ViewState → α × ViewState}
    (hf : ∀ a v, place (f a v).2 = place v) (a : α) (viewStates : List ViewState) :
    (passOver f a viewStates).2.map place = viewStates.map place := by
  induction viewStates generalizing a with
  | nil => rfl
  | cons v viewStates ih => rw [passOver, map_cons, map_cons, ih, hf]

theorem calculateSize_place (s : ColumnSet) :
    s.calculateSize.viewStates.map place = s.viewStates.map place := by
  rw [ColumnSet.calculateSize]
  rw [map_append, passOver_place (fun _ _ => rfl), passOver_place (fun _ _ => rfl),
    ← map_append, takeWhile_append_dropWhile, resetPreferred_place]

namespace GridLayout

variable {g : GridLayout} {width : Int}

/-- The views, in the order of the row spans. -/
def views (g : GridLayout) : List ViewState :=
  g.viewStates.filterMap fun place => g.columnSets[place.1]?.bind fun s => s.viewStates[place.2]?

/-- The views once their columns have widths. -/
def askedViews (width : Int) (g : GridLayout) : List ViewState :=
  askHeights (sizeColumns width g).1 g.viewStates

theorem askHeight_place (s : ColumnSet) (v : ViewState) : place (askHeight s v) = place v := by
  rw [askHeight]
  dsimp only
  split <;> rfl

theorem askHeight_height (s : ColumnSet) (v : ViewState) :
    (askHeight s v).remainingHeight = (askHeight s v).prefHeight := by
  rw [askHeight]
  dsimp only
  split <;> rfl

theorem askedViews_height {v : ViewState} (h : v ∈ askedViews width g) :
    v.remainingHeight = v.prefHeight := by
  obtain ⟨p, -, hv⟩ := mem_filterMap.mp h
  obtain ⟨s, -, hs⟩ := bind_eq_some_iff.mp hv
  obtain ⟨w, -, rfl⟩ := map_eq_some_iff.mp hs
  exact askHeight_height s w

/-- No view is moved. -/
theorem askedViews_place (width : Int) (g : GridLayout) :
    (askedViews width g).map place = g.views.map place := by
  rw [askedViews, askHeights, views, map_filterMap, map_filterMap]
  congr 1
  funext p
  rw [sizeColumns]
  rw [getElem?_map, getElem?_map]
  cases g.columnSets[p.1]? with
  | none => rfl
  | some s =>
    have hplace := congrArg (fun l => l[p.2]?) (calculateSize_place s)
    simp only [getElem?_map] at hplace
    simp only [Option.map_some, Option.bind_some, Option.map_map]
    rw [← hplace]
    congr 1
    funext v
    exact askHeight_place _ v

/-- The views are in rows of the grid, in the order of their spans. -/
structure Placed (g : GridLayout) : Prop where
  inside : ∀ v ∈ g.views, InRows g.rows v
  sorted : g.views.Pairwise fun v w => v.rowSpan ≤ w.rowSpan

theorem Placed.asked (h : Placed g) (width : Int) :
    (∀ v ∈ askedViews width g, InRows g.rows v) ∧
      (askedViews width g).Pairwise fun v w => v.rowSpan ≤ w.rowSpan := by
  have hplace := askedViews_place width g
  constructor
  · intro v hv
    have hmem : place v ∈ g.views.map place := by
      rw [← hplace]
      exact mem_map_of_mem hv
    obtain ⟨w, hw, hsame⟩ := mem_map.mp hmem
    have hin := h.inside w hw
    simp only [place, Prod.mk.injEq] at hsame
    rw [InRows, ← hsame.2.2.1, ← hsame.2.2.2]
    exact hin
  · have hspans : (askedViews width g).map ViewState.rowSpan = g.views.map ViewState.rowSpan := by
      have hmap := congrArg (map fun p : Nat × Nat × Nat × Nat => p.2.2.2) hplace
      rw [List.map_map, List.map_map] at hmap
      exact hmap
    have hsort := h.sorted
    rw [← @pairwise_map _ _ ViewState.rowSpan (· ≤ ·)] at hsort ⊢
    rw [hspans]
    exact hsort

/-- The height of a row. -/
def heightOf (rows : List Row) (i : Nat) : Int := (rows[i]?.map size).getD 0

/-- What the rows are for the views in one row. -/
structure SinglesFit (views : List ViewState) (rows : List Row) : Prop where
  heights : ∀ v ∈ views, v.rowSpan = 1 → v.prefHeight ≤ heightOf rows v.startRow
  /-- The ascent of one and the descent of another; the largest of either are among them. -/
  baselines : ∀ v ∈ views, ∀ w ∈ views, v.rowSpan = 1 → w.rowSpan = 1 → v.startRow = w.startRow →
    HasBaseline v → HasBaseline w →
      v.baseline + (w.prefHeight - w.baseline) ≤ heightOf rows w.startRow

/-- What the rows are for the views in several rows. -/
def SpanningFit (views : List ViewState) (rows : List Row) : Prop :=
  ∀ v ∈ views, v.rowSpan ≠ 1 → v.prefHeight ≤ totalSizeOf v.startRow v.rowSpan rows

/-- The rows when the views in one row are done. -/
def singleRows (width : Int) (g : GridLayout) : List Row :=
  (passOver sizeSingleRow (resetSizes g.rows)
    ((askedViews width g).takeWhile (·.rowSpan = 1))).1

/-- The views in several rows. -/
def spanningViews (width : Int) (g : GridLayout) : List ViewState :=
  (askedViews width g).dropWhile (·.rowSpan = 1)

theorem singleRows_spec (h : Placed g) (width : Int) :
    (singleRows width g).length = g.rows.length ∧
      ∀ v ∈ askedViews width g, v.rowSpan = 1 →
        rowAt (singleRows width g) v.startRow (Accommodates v) := by
  obtain ⟨hin, hsort⟩ := h.asked width
  have hreset : (resetSizes g.rows).length = g.rows.length := length_map _
  obtain ⟨hgrown, hall⟩ := passOver_singles (resetSizes g.rows)
    ((askedViews width g).takeWhile (·.rowSpan = 1)) fun v hv => by
      have hv' := hin v (takeWhile_subset _ hv)
      rw [hreset]
      have hlt := hv'.1
      have hle := hv'.2
      omega
  refine ⟨hgrown.length_eq.trans hreset, fun v hv hone => ?_⟩
  exact hall v (mem_takeWhile_of_sorted hsort (fun v hv => (hin v hv).1) hv hone)

theorem sizeRows_spec (h : Placed g) (width : Int) :
    SinglesFit (askedViews width g) (sizeRows g.rows (askedViews width g)).1 ∧
      (HeightsDivide (singleRows width g) (spanningViews width g) →
        SpanningFit (askedViews width g) (sizeRows g.rows (askedViews width g)).1) := by
  obtain ⟨hin, -⟩ := h.asked width
  obtain ⟨hlen, hsingles⟩ := singleRows_spec h width
  obtain ⟨hgrown, hspanning⟩ := passOver_spanning (singleRows width g) (spanningViews width g)
    fun v hv => (hin v (dropWhile_subset _ hv)).congr hlen
  have hfit : ∀ v ∈ askedViews width g, v.rowSpan = 1 →
      rowAt (sizeRows g.rows (askedViews width g)).1 v.startRow (Accommodates v) :=
    fun v hv hsingle => hgrown.rowAt (fun _ _ h => Accommodates.grown h) (hsingles v hv hsingle)
  refine ⟨⟨fun v hv hsingle => ?_, fun v hv w hw hsingle hsingle' hsame hv' hw' => ?_⟩,
    fun hdivide v hv hmore => ?_⟩
  · obtain ⟨row, hrow, haccommodates⟩ := hfit v hv hsingle
    rw [heightOf, hrow, ← askedViews_height hv]
    exact haccommodates.height
  · obtain ⟨row, hrow, haccommodates⟩ := hfit v hv hsingle
    obtain ⟨row', hrow', haccommodates'⟩ := hfit w hw hsingle'
    rw [hsame, hrow'] at hrow
    obtain rfl := some.inj hrow
    obtain ⟨hascent, -, hfits⟩ := haccommodates.baseline hv'
    obtain ⟨-, hdescent, -⟩ := haccommodates'.baseline hw'
    rw [heightOf, hrow']
    change _ ≤ size row'
    omega
  · refine hspanning (fun v hv => askedViews_height (dropWhile_subset _ hv)) hdivide v ?_
    have hsplit : askedViews width g = (askedViews width g).takeWhile (·.rowSpan = 1) ++
        spanningViews width g := takeWhile_append_dropWhile.symm
    rw [hsplit] at hv
    obtain hv | hv := mem_append.mp hv
    · have hone := all_eq_true.mp all_takeWhile v hv
      exact absurd (by simpa using hone) hmore
    · exact hv

/-! ### Located rows -/

theorem heightOf_located (rows : List Row) (i : Nat) :
    heightOf (calculateLocationsFromSize 0 rows) i = heightOf rows i := by
  rw [heightOf, ← getElem?_map, calculateLocationsFromSize_sizes, getElem?_map, heightOf]

theorem totalSizeOf_located {T : Type} [Element T] (start length : Nat) (elements : List T) :
    totalSizeOf start length (calculateLocationsFromSize 0 elements) =
      totalSizeOf start length elements := by
  rw [totalSizeOf, totalSize, map_take, map_drop, calculateLocationsFromSize_sizes,
    ← map_drop, ← map_take, totalSizeOf, totalSize]

theorem sizeRowsAndColumns_rows (hrows : g.rows ≠ []) (width : Int) :
    (sizeRowsAndColumns false width 0 g).rows =
      calculateLocationsFromSize 0 (sizeRows g.rows (askedViews width g)).1 := by
  rw [sizeRowsAndColumns, if_neg hrows]
  rfl

/-- Every row is as tall as the views in it alone ask, and, where the missing height of each view
in several rows divides in its turn, the rows of such a view are as tall as it asks. Right after
its turn they are exactly then. -/
theorem rows_fit (hrows : g.rows ≠ []) (h : Placed g) (width : Int) :
    SinglesFit (askedViews width g) (sizeRowsAndColumns false width 0 g).rows ∧
      (HeightsDivide (singleRows width g) (spanningViews width g) →
        SpanningFit (askedViews width g) (sizeRowsAndColumns false width 0 g).rows) ∧
      ∀ (rows : List Row) (v : ViewState), InRows rows v → v.remainingHeight = v.prefHeight →
        (v.prefHeight ≤ totalSizeOf v.startRow v.rowSpan (sizeSpanningRows rows v).1 ↔
          HeightDivides rows v) := by
  obtain ⟨⟨hheights, hbaselines⟩, hspanning⟩ := sizeRows_spec h width
  rw [sizeRowsAndColumns_rows hrows]
  refine ⟨⟨fun v hv hsingle => ?_, fun v hv w hw hsingle hsingle' hsame hv' hw' => ?_⟩,
    fun hdivide v hv hmore => ?_, fun rows v hinside hheight =>
      sizeSpanningRows_fits hinside hheight⟩
  · rw [heightOf_located]
    exact hheights v hv hsingle
  · rw [heightOf_located]
    exact hbaselines v hv w hw hsingle hsingle' hsame hv' hw'
  · rw [totalSizeOf_located]
    exact hspanning hdivide v hv hmore

end GridLayout

end

/-! ## Two rows -/

namespace GridLayout

/-- A view that only has its preferred size. -/
def plainView (width height : Nat) : View := ⟨width, height, fun _ => height, -1⟩

/-- One view in two rows, of which neither is resizable. -/
def twoRows (height : Nat) : GridLayout where
  columnSets := [⟨[.new 0 (le_refl 0) .usePref 0 0],
    [.new (plainView 5 height) 0 0 1 2 .leading .leading 0 0], []⟩]
  rows := [.new 0 0 (le_refl 0), .new 0 0 (le_refl 0)]
  viewStates := [(0, 0)]
  topInset := 0
  leftInset := 0
  bottomInset := 0
  rightInset := 0

theorem twoRows_placed (height : Nat) : Placed (twoRows height) where
  inside := fun v hv => by
    obtain rfl := mem_singleton.mp hv
    exact ⟨Nat.succ_pos 1, Nat.le_refl 2⟩
  sorted := pairwise_singleton _ _

/-- A height of 4 is shared. -/
theorem rows_fit_four : SpanningFit (askedViews 0 (twoRows 4))
    (sizeRowsAndColumns false 0 0 (twoRows 4)).rows :=
  (rows_fit (cons_ne_nil _ _) (twoRows_placed 4) 0).2.1
    ⟨Or.inr (by decide), trivial⟩

/-- Of a height of 3 a pixel is lost. -/
theorem rows_lose_a_pixel : (twoRows 3).rows ≠ [] ∧ Placed (twoRows 3) ∧
    ¬ SpanningFit (askedViews 0 (twoRows 3))
      (sizeRowsAndColumns false 0 0 (twoRows 3)).rows := by
  refine ⟨cons_ne_nil _ _, twoRows_placed 3, ?_⟩
  unfold SpanningFit
  decide

end GridLayout

end ChromiumUI.Views.Grid
