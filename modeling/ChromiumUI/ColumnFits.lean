import ChromiumUI.MasterColumns

/-!
# The views in the columns

How wide CalculateSize makes the columns of a view that is in one of them, and of one that is in
several.
-/
namespace ChromiumUI.Views.Grid.ColumnSet

open List Option Nat Int

/-- The views are in columns of the set, in the order of their spans, and no column is in two lists
of columns of one size. -/
structure Placed (s : ColumnSet) : Prop where
  inside : ∀ v ∈ s.viewStates, Inside s.columns v
  sorted : s.viewStates.Pairwise fun v w => v.colSpan ≤ w.colSpan
  disjoint : ∀ m m' x, x ∈ sameSizeColumnsOf s.columns m → x ∈ sameSizeColumnsOf s.columns m' →
    m = m'
  nodup : s.masterColumns.Nodup

/-- The views with the sizes they prefer. -/
def preferredViews (s : ColumnSet) : List ViewState := resetPreferred (0, 0) s.viewStates

/-- One of the columns of a view can be made wider for it. -/
def Stretches (columns : List Column) (v : ViewState) : Prop :=
  ∃ c ∈ span v columns, IsResizable c ∨ c.sizeType = .usePref

/-- By how much the columns of a view are too narrow. -/
def missing (columns : List Column) (v : ViewState) : Int :=
  v.prefWidth - totalSizeOf v.startCol v.colSpan columns

/-- Something of each view in several columns and of the columns it finds in its turn. -/
def EachTurn (masterColumns : List Nat) (p : List Column → ViewState → Prop) :
    List Column → List ViewState → Prop
  | _, [] => True
  | columns, v :: viewStates =>
    p columns v ∧ EachTurn masterColumns p (distributeSpanning masterColumns columns v).1 viewStates

/-- What is given to the columns of a view is enough. -/
def GivesEnough (columns : List Column) (v : ViewState) : Prop :=
  missing columns v ≤ given columns (counted columns v)

section
variable {columns columns' : List Column} {masterColumns : List Nat} {v : ViewState}
  {viewStates : List ViewState} {s : ColumnSet} {i : Nat}

/-! ## What sizing leaves -/

theorem exists_congr_sizesOnly {T : Type} [Element T] {P : T → Prop} {elements elements' : List T}
    (hP : ∀ n e, P (setSize n e) ↔ P e) (h : SizesOnly elements elements') :
    (∃ e ∈ elements', P e) ↔ ∃ e ∈ elements, P e := by
  induction h with
  | nil => simp
  | @cons e e' _ _ he _ ih =>
    have hhead : P e' ↔ P e := by
      rw [he]
      exact hP _ _
    rw [exists_mem_cons_iff, exists_mem_cons_iff, hhead, ih]

theorem stretches_congr (h : SizesOnly columns columns') (v : ViewState) :
    Stretches columns' v ↔ Stretches columns v :=
  exists_congr_sizesOnly (fun n c => or_congr (isResizable_setSize n c) Iff.rfl)
    (forall₂_take _ (forall₂_drop _ h))

theorem onSpan_id {T : Type} (start length : Nat) (elements : List T) :
    onSpan start length (fun l => l) elements = elements := by
  rw [onSpan, append_assoc, ← drop_drop, take_append_drop, take_append_drop]

theorem giveEach_zero {T : Type} [Element T] (p : T → Prop) [DecidablePred p] {left : Int}
    (hleft : 0 ≤ left) (elements : List T) : giveEach p left 0 elements = elements := by
  induction elements with
  | nil => rfl
  | cons e elements ih =>
    rw [giveEach]
    split
    · dsimp only
      rw [sub_zero, if_neg (not_lt.mpr hleft), add_zero, setSize_size, ih]
    · rw [ih]

/-- Columns that are given nothing are left as they are. -/
theorem distributeRemainingWidth_of_given (h : given columns v = 0) :
    distributeRemainingWidth columns v = columns := by
  rw [given] at h
  rw [distributeRemainingWidth]
  by_cases hwidth : v.remainingWidth ≤ 0
  · rw [if_pos hwidth]
  rw [if_neg hwidth] at h ⊢
  by_cases hresize : 0 < countOf IsResizable (span v columns)
  · rw [if_pos hresize] at h
    omega
  have hresize' : ¬ 0 < (resizable ((columns.drop v.startCol).take v.colSpan)).length :=
    hresize
  rw [if_neg hresize] at h
  rw [if_neg hresize']
  by_cases hpref : 0 < countOf IsPref (span v columns)
  · have hpref' : 0 < (((columns.drop v.startCol).take v.colSpan).filter (IsPref ·)).length := hpref
    have hpos : (0 : Int) < countOf IsPref (span v columns) := by exact_mod_cast hpref
    rw [if_pos hpref] at h
    rw [if_pos hpref']
    have heach : v.remainingWidth.tdiv (countOf IsPref (span v columns)) = 0 := by
      split at h
      · omega
      · have hlt := emod_lt_of_pos v.remainingWidth hpos
        rw [tdiv_eq_ediv_of_nonneg (by omega)]
        exact ediv_eq_zero_of_lt (by omega) (by omega)
    have hsame : giveEach (fun c : Column => c.sizeType = .usePref) v.remainingWidth
        (v.remainingWidth.tdiv (countOf IsPref (span v columns))) = fun l => l := by
      funext l
      rw [heach]
      exact giveEach_zero _ (by omega) l
    exact (congrArg (fun f => onSpan v.startCol v.colSpan f columns) hsame).trans (onSpan_id _ _ _)
  · have hpref' : ¬ 0 < (((columns.drop v.startCol).take v.colSpan).filter (IsPref ·)).length :=
      hpref
    rw [if_neg hpref']

/-! ## A view in one column -/

/-- The size type of a column. -/
def sizeTypeOf (columns : List Column) (i : Nat) : Option SizeType :=
  columns[i]?.map Column.sizeType

theorem sizeTypeOf_of_sizesOnly (h : SizesOnly columns columns') (i : Nat) :
    sizeTypeOf columns' i = sizeTypeOf columns i := h.get Column.sizeType (fun _ _ => rfl) i

theorem distributeSingle_fits (htype : sizeTypeOf columns v.startCol = some .usePref) :
    v.prefWidth ≤ widthOf (distributeSingle columns v).1 v.startCol := by
  obtain ⟨c, hc, hpref⟩ := map_eq_some_iff.mp htype
  rw [distributeSingle]
  rw [widthOf_modify, if_pos rfl, hc, map_some, getD_some, Column.adjustSize,
    if_pos hpref, size_setSize]
  exact le_max_right _ _

theorem passOver_distributeSingle_grown (columns : List Column) (viewStates : List ViewState) :
    Grown columns (passOver distributeSingle columns viewStates).1 := by
  induction viewStates generalizing columns with
  | nil => exact Grown.refl _
  | cons v viewStates ih => exact (distributeSingle_grown columns v).trans (ih _)

theorem passOver_distributeSingle_fits (hv : v ∈ viewStates)
    (htype : sizeTypeOf columns v.startCol = some .usePref) :
    v.prefWidth ≤ widthOf (passOver distributeSingle columns viewStates).1 v.startCol := by
  induction viewStates generalizing columns with
  | nil => cases hv
  | cons w viewStates ih =>
    obtain rfl | hv := mem_cons.mp hv
    · exact le_trans (distributeSingle_fits htype)
        (widthOf_le (passOver_distributeSingle_grown _ viewStates) _)
    · refine ih hv ?_
      rw [sizeTypeOf_of_sizesOnly (distributeSingle_grown columns w).sizesOnly]
      exact htype

/-! ## A view in several columns -/

theorem distributeRemainingWidth_fits_iff (hin : Inside columns v) :
    v.prefWidth ≤ totalSizeOf v.startCol v.colSpan
        (distributeRemainingWidth columns (counted columns v)) ↔ GivesEnough columns v := by
  have htotal := (@distributeRemainingWidth_spec columns (counted columns v) hin.2).2
  have hsame : totalSizeOf v.startCol v.colSpan
      (distributeRemainingWidth columns (counted columns v)) =
        totalSizeOf v.startCol v.colSpan columns + given columns (counted columns v) := htotal
  rw [hsame, GivesEnough, missing]
  omega

theorem distributeSpanning_fits (hin : Inside columns v) (h : GivesEnough columns v) :
    v.prefWidth ≤
      totalSizeOf v.startCol v.colSpan (distributeSpanning masterColumns columns v).1 :=
  le_trans ((distributeRemainingWidth_fits_iff hin).mpr h)
    ((unifySameSizedColumnSizes_grown _ masterColumns).totalSizeOf_le _ _)

/-- The turn of a view changes no column exactly if nothing is given. -/
theorem distributeSpanning_eq_iff (hin : Inside columns v)
    (hunified : unifySameSizedColumnSizes columns masterColumns = columns) :
    (distributeSpanning masterColumns columns v).1 = columns ↔
      given columns (counted columns v) = 0 := by
  constructor
  · intro hsame
    have htotal := (@distributeRemainingWidth_spec columns (counted columns v) hin.2).2
    have hle := (unifySameSizedColumnSizes_grown
      (distributeRemainingWidth columns (counted columns v)) masterColumns).totalSizeOf_le
        v.startCol v.colSpan
    have hnneg := given_nonneg columns (counted columns v)
    have hsame' : unifySameSizedColumnSizes
        (distributeRemainingWidth columns (counted columns v)) masterColumns = columns := hsame
    rw [hsame'] at hle
    change totalSizeOf v.startCol v.colSpan _ =
      totalSizeOf v.startCol v.colSpan columns + _ at htotal
    omega
  · intro hnothing
    change unifySameSizedColumnSizes
      (distributeRemainingWidth columns (counted columns v)) masterColumns = columns
    rw [distributeRemainingWidth_of_given hnothing, hunified]

/-! ## All turns -/

theorem eachTurn_fits (hin : ∀ v ∈ viewStates, Inside columns v)
    (henough : EachTurn masterColumns
      (fun columns v => Stretches columns v → GivesEnough columns v) columns viewStates) :
    ∀ v ∈ viewStates, Stretches columns v → v.prefWidth ≤ totalSizeOf v.startCol v.colSpan
      (passOver (distributeSpanning masterColumns) columns viewStates).1 := by
  induction viewStates generalizing columns with
  | nil => exact fun v hv => absurd hv not_mem_nil
  | cons w viewStates ih =>
    have hgrown := @distributeSpanning_grown columns w masterColumns
      (hin w mem_cons_self)
    have hrest : ∀ v ∈ viewStates, Inside (distributeSpanning masterColumns columns w).1 v :=
      fun v hv => (hin v (mem_cons_of_mem _ hv)).congr hgrown.sizesOnly
    intro v hv hstretches
    obtain rfl | hv := mem_cons.mp hv
    · have hfits := @distributeSpanning_fits columns masterColumns v
        (hin v mem_cons_self) (henough.1 hstretches)
      exact le_trans hfits ((passOver_grown hrest fun _ _ _ hin =>
        distributeSpanning_grown hin).totalSizeOf_le _ _)
    · exact ih hrest henough.2 v hv ((stretches_congr hgrown.sizesOnly v).mpr hstretches)

/-- What holds of a view in any columns that are laid out so far holds in each turn. -/
theorem eachTurn_of {I : List Column → Prop} {p : List Column → ViewState → Prop}
    (hstep : ∀ columns, ∀ v ∈ viewStates, I columns →
      p columns v ∧ I (distributeSpanning masterColumns columns v).1) (h : I columns) :
    EachTurn masterColumns p columns viewStates := by
  induction viewStates generalizing columns with
  | nil => exact trivial
  | cons v viewStates ih =>
    obtain ⟨hp, hrest⟩ := hstep columns v mem_cons_self h
    exact ⟨hp, ih (fun columns w hw => hstep columns w (mem_cons_of_mem _ hw)) hrest⟩

/-! ## The set -/

/-- What the columns are for the views in one of them. -/
def SinglesFit (s : ColumnSet) (columns : List Column) : Prop :=
  ∀ v ∈ preferredViews s, v.colSpan = 1 → sizeTypeOf s.columns v.startCol = some .usePref →
    v.prefWidth ≤ widthOf columns v.startCol

/-- What the columns are for the views in several of them. -/
def SpanningFit (s : ColumnSet) (columns : List Column) : Prop :=
  ∀ v ∈ preferredViews s, v.colSpan ≠ 1 → Stretches s.columns v →
    v.prefWidth ≤ totalSizeOf v.startCol v.colSpan columns

theorem resetPreferred_spans (pref : Int × Int) (viewStates : List ViewState) :
    (resetPreferred pref viewStates).map ViewState.colSpan =
      viewStates.map ViewState.colSpan := by
  induction viewStates generalizing pref with
  | nil => rfl
  | cons v viewStates ih => rw [resetPreferred, map_cons, map_cons, ih]

theorem Placed.preferred_sorted (h : Placed s) :
    (preferredViews s).Pairwise fun v w => v.colSpan ≤ w.colSpan := by
  have hsort := h.sorted
  rw [← @pairwise_map _ _ ViewState.colSpan (· ≤ ·)] at hsort ⊢
  rw [preferredViews, resetPreferred_spans]
  exact hsort

theorem singles_fit (h : Placed s) : SinglesFit s s.calculateSize.columns := by
  intro v hv hone htype
  have hfirst : v ∈ (resetPreferred (0, 0) s.viewStates).takeWhile (·.colSpan = 1) :=
    mem_takeWhile_of_sorted h.preferred_sorted
      (fun v hv => (inside_resetPreferred h.inside v hv).1) hv hone
  have htype' : sizeTypeOf (resetSizes s.columns) v.startCol = some .usePref := by
    rw [sizeTypeOf_of_sizesOnly (resetSizes_sizesOnly _)]
    exact htype
  calc v.prefWidth
      ≤ widthOf (passOver distributeSingle (resetSizes s.columns)
        ((resetPreferred (0, 0) s.viewStates).takeWhile (·.colSpan = 1))).1 v.startCol :=
        passOver_distributeSingle_fits hfirst htype'
    _ ≤ widthOf s.singlesDone v.startCol :=
        widthOf_le (unifySameSizedColumnSizes_grown _ _) _
    _ ≤ widthOf s.calculateSize.columns v.startCol := widthOf_le (spanning_grown h.inside) _

theorem spanning_fit (h : Placed s) (henough : EachTurn s.masterColumns
    (fun columns v => Stretches columns v → GivesEnough columns v) s.singlesDone s.spanning) :
    SpanningFit s s.calculateSize.columns := by
  intro v hv hmore hstretches
  have hsplit : preferredViews s =
      (preferredViews s).takeWhile (·.colSpan = 1) ++ s.spanning :=
    takeWhile_append_dropWhile.symm
  rw [hsplit] at hv
  obtain hv | hv := mem_append.mp hv
  · have hone := all_eq_true.mp all_takeWhile v hv
    exact absurd (by simpa using hone) hmore
  · exact eachTurn_fits (inside_spanning h.inside) henough v hv
      ((stretches_congr (singlesDone_sizesOnly h.inside) v).mpr hstretches)

/-- Columns that the views in several columns may find in their turn. -/
structure LaidOut (s : ColumnSet) (columns : List Column) : Prop where
  sizes : SizesOnly s.columns columns
  unified : unifySameSizedColumnSizes columns s.masterColumns = columns

theorem LaidOut.unify (h : Placed s) (hsizes : SizesOnly s.columns columns) :
    LaidOut s (unifySameSizedColumnSizes columns s.masterColumns) where
  sizes := hsizes.trans (unifySameSizedColumnSizes_grown _ _).sizesOnly
  unified := unify_unify (by rw [sameSizeColumnsOf_of_sizesOnly hsizes]; exact h.disjoint) h.nodup

theorem singlesDone_laidOut (h : Placed s) : LaidOut s s.singlesDone :=
  .unify h ((resetSizes_sizesOnly _).trans (passOver_distributeSingle_grown _ _).sizesOnly)

theorem LaidOut.inside (hlaid : LaidOut s columns) (h : Placed s) (hv : v ∈ s.spanning) :
    Inside columns v :=
  (inside_resetPreferred h.inside v (dropWhile_subset _ hv)).congr hlaid.sizes

theorem LaidOut.distributeSpanning (hlaid : LaidOut s columns) (h : Placed s)
    (hv : v ∈ s.spanning) : LaidOut s (distributeSpanning s.masterColumns columns v).1 :=
  .unify h (hlaid.sizes.trans
    (@distributeRemainingWidth_spec columns (counted columns v) (hlaid.inside h hv).2).1.sizesOnly)

/-! ### Sets that are laid out -/

theorem insertBySpan_eq (v : ViewState) (viewStates : List ViewState) :
    insertBySpan ViewState.colSpan v viewStates =
      viewStates.orderedInsert (fun v w => v.colSpan ≤ w.colSpan) v := by
  induction viewStates with
  | nil => rfl
  | cons w viewStates ih =>
    rw [insertBySpan, orderedInsert_cons, ih]
    simp only [← not_le, ite_not]

/-- AddViewState for each view is an insertion sort. -/
theorem addViewStates_eq (columns : List Column) (viewStates : List ViewState) :
    viewStates.foldr addViewState ⟨columns, [], []⟩ =
      ⟨columns, viewStates.insertionSort fun v w => v.colSpan ≤ w.colSpan, []⟩ := by
  induction viewStates with
  | nil => rfl
  | cons v viewStates ih => rw [foldr_cons, ih, addViewState, insertBySpan_eq, insertionSort_cons]

/-- CalculateMasterColumns puts no column in two lists. -/
theorem Mastered.placed {cls : Nat → Nat} (h : Mastered columns s cls)
    (hin : ∀ v ∈ s.viewStates, Inside s.columns v)
    (hsort : s.viewStates.Pairwise fun v w => v.colSpan ≤ w.colSpan) : Placed s where
  inside := hin
  sorted := hsort
  disjoint := fun m m' x hx hx' => by
    rw [h.accumulated.linked.members_iff] at hx hx'
    exact hx.2.symm.trans hx'.2
  nodup := h.accumulated.nodup

/-- A USE_PREF column is as wide as the views in it alone. The columns of a view in several are as
wide as it prefers where in each turn enough is given, and in each turn they are then exactly if
enough is given, and change exactly if anything is. -/
theorem calculateSize_fits (h : Placed s) :
    SinglesFit s s.calculateSize.columns ∧
      (EachTurn s.masterColumns (fun columns v => Stretches columns v → GivesEnough columns v)
        s.singlesDone s.spanning → SpanningFit s s.calculateSize.columns) ∧
      EachTurn s.masterColumns (fun columns v =>
        (v.prefWidth ≤ totalSizeOf v.startCol v.colSpan
            (distributeRemainingWidth columns (counted columns v)) ↔ GivesEnough columns v) ∧
          ((distributeSpanning s.masterColumns columns v).1 = columns ↔
            given columns (counted columns v) = 0)) s.singlesDone s.spanning := by
  refine ⟨singles_fit h, spanning_fit h, eachTurn_of (fun columns v hv hlaid => ?_)
    (singlesDone_laidOut h)⟩
  have hinside := hlaid.inside h hv
  exact ⟨⟨distributeRemainingWidth_fits_iff hinside,
    distributeSpanning_eq_iff hinside hlaid.unified⟩, hlaid.distributeSpanning h hv⟩

end

/-! ## Two columns -/

/-- A view in two columns that have the sizes of their views. -/
def twoColumns (width : Nat) : ColumnSet where
  columns := prefColumns 2
  viewStates := [.new ⟨width, 0, fun _ => 0, -1⟩ 0 0 2 1 .leading .leading 0 0]
  masterColumns := []

theorem twoColumns_placed (width : Nat) : Placed (twoColumns width) where
  inside := fun v hv => by
    obtain rfl := mem_singleton.mp hv
    exact ⟨succ_pos 1, le_refl 2⟩
  sorted := pairwise_singleton _ _
  disjoint := fun m m' x hx => by
    have hnone : sameSizeColumnsOf (twoColumns width).columns m = [] := by
      obtain _ | _ | m := m <;> rfl
    rw [hnone] at hx
    cases hx
  nodup := nodup_nil

/-- A width of 4 is shared. -/
theorem calculateSize_fits_four : SpanningFit (twoColumns 4) (twoColumns 4).calculateSize.columns :=
  (calculateSize_fits (twoColumns_placed 4)).2.1
    ⟨fun _ => by unfold GivesEnough; decide, trivial⟩

/-- Of a width of 3 a pixel is lost. -/
theorem columns_lose_a_pixel : Placed (twoColumns 3) ∧
    ¬ SpanningFit (twoColumns 3) (twoColumns 3).calculateSize.columns := by
  refine ⟨twoColumns_placed 3, ?_⟩
  unfold SpanningFit Stretches
  decide

end ChromiumUI.Views.Grid.ColumnSet
