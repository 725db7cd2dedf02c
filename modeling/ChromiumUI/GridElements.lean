import Mathlib.Algebra.Order.BigOperators.Group.List
import Mathlib.Algebra.BigOperators.Ring.List
import Mathlib.Data.Rat.Floor

/-!
# The elements of a grid

What the columns and the rows of a GridLayout have in common, and how a width or a height is
given to those that are resizable. The percents are exact.
-/
namespace ChromiumUI.Views.Grid

open List Int

structure LayoutElement where
  resizePercent : ℚ
  resizePercent_nonneg : 0 ≤ resizePercent
  location : Int
  size : Int

/-- What the functions for columns and rows use of either. -/
class Element (T : Type) where
  element : T → LayoutElement
  set : T → LayoutElement → T
  element_set : ∀ e l, element (set e l) = l
  set_element : ∀ e, set e (element e) = e
  set_set : ∀ e l l', set (set e l) l' = set e l'
  resetSize : T → T

section
variable {T : Type} [Element T]

def resizePercent (e : T) : ℚ := (Element.element e).resizePercent

def size (e : T) : Int := (Element.element e).size

def location (e : T) : Int := (Element.element e).location

def setSize (size : Int) (e : T) : T :=
  Element.set e { Element.element e with size }

def setLocation (location : Int) (e : T) : T :=
  Element.set e { Element.element e with location }

def IsResizable (e : T) : Prop := 0 < resizePercent e

instance : DecidablePred (@IsResizable T _) := fun e => by
  unfold IsResizable
  infer_instance

def resizable (elements : List T) : List T := elements.filter (IsResizable ·)

def resetSizes (elements : List T) : List T := elements.map Element.resetSize

/-- Each element starts where the one before it ends. -/
def calculateLocationsFromSize (start : Int) : List T → List T
  | [] => []
  | e :: elements => setLocation start e :: calculateLocationsFromSize (start + size e) elements

def totalSize (elements : List T) : Int := (elements.map size).sum

/-- The cast of a float to an int. -/
def toInt (q : ℚ) : Int := if 0 ≤ q then ⌊q⌋ else ⌈q⌉

def totalPercent (elements : List T) : ℚ := (elements.map resizePercent).sum

/-- The part of `delta` that is for an element, in pixels. -/
def share (delta : Int) (total : ℚ) (e : T) : ℚ := delta * (resizePercent e / total)

/-- The second loop of DistributeDelta, with what is left of `remaining` and `resized`. -/
def giveShares (delta : Int) (total : ℚ) : Int → Int → List T → List T
  | _, _, [] => []
  | remaining, resized, e :: elements =>
    if IsResizable e then
      if resized - 1 = 0 then
        setSize (size e + remaining) e :: giveShares delta total remaining (resized - 1) elements
      else
        setSize (size e + toInt (share delta total e)) e ::
          giveShares delta total (remaining - toInt (share delta total e)) (resized - 1) elements
    else e :: giveShares delta total remaining resized elements

def distributeDelta (delta : Int) (elements : List T) : List T :=
  if delta = 0 then elements
  else
    -- every element is counted, resizable or not
    let resizeCount := elements.length
    if totalPercent elements = 0 then elements
    else giveShares delta (totalPercent elements) delta resizeCount elements

end

/-- The sizes of the resizable elements change by `delta` in total, and no other size changes. -/
structure Distributed {T : Type} [Element T] (delta : Int) (elements result : List T) : Prop where
  total : totalSize (resizable result) = totalSize (resizable elements) + delta
  others : List.Forall₂ (fun e e' => e' = setSize (size e') e ∧ (¬ IsResizable e → e' = e))
    elements result

/-- All elements are resizable, or every share is a whole number of pixels. -/
def SharesWhole {T : Type} [Element T] (delta : Int) (elements : List T) : Prop :=
  (∀ e ∈ elements, IsResizable e) ∨
    ∀ e ∈ elements, ∃ pixels : Int, share delta (totalPercent elements) e = pixels

section
variable {T : Type} [Element T] {e : T} {elements : List T} {delta remaining resized : Int}
  {total : ℚ}

/-! ## Elements -/

@[simp] theorem size_setSize (n : Int) (e : T) : size (setSize n e) = n := by
  rw [size, setSize, Element.element_set]

@[simp] theorem resizePercent_setSize (n : Int) (e : T) :
    resizePercent (setSize n e) = resizePercent e := by
  rw [resizePercent, setSize, Element.element_set, resizePercent]

@[simp] theorem isResizable_setSize (n : Int) (e : T) :
    IsResizable (setSize n e) ↔ IsResizable e := by
  rw [IsResizable, resizePercent_setSize, IsResizable]

@[simp] theorem size_setLocation (n : Int) (e : T) : size (setLocation n e) = size e := by
  rw [size, setLocation, Element.element_set, size]

@[simp] theorem resizePercent_setLocation (n : Int) (e : T) :
    resizePercent (setLocation n e) = resizePercent e := by
  rw [resizePercent, setLocation, Element.element_set, resizePercent]

theorem resizePercent_nonneg (e : T) : 0 ≤ resizePercent e :=
  (Element.element e).resizePercent_nonneg

theorem resizePercent_eq_zero (h : ¬ IsResizable e) : resizePercent e = 0 :=
  le_antisymm (not_lt.mp h) (resizePercent_nonneg e)

@[simp] theorem totalSize_nil : totalSize ([] : List T) = 0 := rfl

@[simp] theorem totalSize_cons (e : T) (elements : List T) :
    totalSize (e :: elements) = size e + totalSize elements := by
  rw [totalSize, map_cons, sum_cons, totalSize]

theorem resizable_cons_of_pos (h : IsResizable e) :
    resizable (e :: elements) = e :: resizable elements :=
  filter_cons_of_pos (decide_eq_true h)

theorem resizable_cons_of_neg (h : ¬ IsResizable e) :
    resizable (e :: elements) = resizable elements :=
  filter_cons_of_neg (by simpa using h)

theorem totalPercent_pos (h : ∃ e ∈ elements, IsResizable e) : 0 < totalPercent elements := by
  obtain ⟨e, he, hpos⟩ := h
  have hle : resizePercent e ≤ totalPercent elements := by
    apply single_le_sum
    · intro q hq
      obtain ⟨e', -, rfl⟩ := mem_map.mp hq
      exact resizePercent_nonneg e'
    · exact mem_map_of_mem he
  exact lt_of_lt_of_le hpos hle

/-! ## Casts -/

theorem toInt_intCast (n : Int) : toInt n = n := by
  rw [toInt]
  split
  · exact floor_intCast n
  · exact ceil_intCast n

theorem toInt_eq_iff (q : ℚ) : (toInt q : ℚ) = q ↔ ∃ n : Int, q = n := by
  constructor
  · intro h
    exact ⟨_, h.symm⟩
  · rintro ⟨n, rfl⟩
    rw [toInt_intCast]

theorem toInt_le {q : ℚ} (h : 0 ≤ q) : (toInt q : ℚ) ≤ q := by
  rw [toInt, if_pos h]
  exact floor_le q

theorem le_toInt {q : ℚ} (h : q ≤ 0) : q ≤ (toInt q : ℚ) := by
  obtain rfl | hneg := eq_or_lt_of_le h
  · exact le_of_eq (by simp [toInt])
  · rw [toInt, if_neg (not_le.mpr hneg)]
    exact le_ceil q

@[simp] theorem toInt_zero : toInt 0 = 0 := by
  simp [toInt]

/-! ## Shares -/

/-- What the casts make of the shares. -/
def wholeShares (delta : Int) (total : ℚ) (elements : List T) : Int :=
  (elements.map fun e => toInt (share delta total e)).sum

theorem share_of_fixed (h : ¬ IsResizable e) : share delta total e = 0 := by
  rw [share, resizePercent_eq_zero h, zero_div, mul_zero]

theorem sum_shares (hpos : 0 < totalPercent elements) :
    (elements.map (share delta (totalPercent elements))).sum = delta := by
  have hne : totalPercent elements ≠ 0 := ne_of_gt hpos
  have hfun : share delta (totalPercent elements) =
      fun e : T => (delta / totalPercent elements) * resizePercent e := by
    funext e
    rw [share]
    ring
  rw [hfun, sum_map_mul_left]
  exact div_mul_cancel₀ _ hne

theorem cast_sum (numbers : List Int) :
    (numbers.sum : ℚ) = (numbers.map fun n : Int => (n : ℚ)).sum := by
  induction numbers with
  | nil => simp
  | cons n numbers ih => rw [sum_cons, cast_add, ih, map_cons, sum_cons]

/-- Casts that all err on the same side add up to the sum only if none of them errs. -/
theorem sum_toInt_eq_iff (shares : List ℚ) (h : (∀ q ∈ shares, 0 ≤ q) ∨ ∀ q ∈ shares, q ≤ 0) :
    ((shares.map toInt).sum : ℚ) = shares.sum ↔ ∀ q ∈ shares, ∃ n : Int, q = n := by
  induction shares with
  | nil => simp
  | cons q shares ih =>
    have hrest : (∀ q ∈ shares, 0 ≤ q) ∨ ∀ q ∈ shares, q ≤ 0 :=
      h.imp (fun h q hq => h q (mem_cons_of_mem _ hq))
        fun h q hq => h q (mem_cons_of_mem _ hq)
    have hsides : ((toInt q : ℚ) ≤ q ∧ ((shares.map toInt).sum : ℚ) ≤ shares.sum) ∨
        (q ≤ (toInt q : ℚ) ∧ shares.sum ≤ ((shares.map toInt).sum : ℚ)) := by
      rw [cast_sum, map_map]
      obtain h | h := h
      · refine Or.inl ⟨toInt_le (h q mem_cons_self), ?_⟩
        conv_rhs => rw [← map_id shares]
        exact sum_le_sum fun q' hq' => toInt_le (h q' (mem_cons_of_mem _ hq'))
      · refine Or.inr ⟨le_toInt (h q mem_cons_self), ?_⟩
        conv_lhs => rw [← map_id shares]
        exact sum_le_sum fun q' hq' => le_toInt (h q' (mem_cons_of_mem _ hq'))
    rw [forall_mem_cons, ← ih hrest, ← toInt_eq_iff, map_cons, sum_cons,
      sum_cons, cast_add]
    constructor
    · intro heq
      obtain ⟨h₁, h₂⟩ | ⟨h₁, h₂⟩ := hsides <;> constructor <;> linarith
    · rintro ⟨h₁, h₂⟩
      linarith

theorem wholeShares_eq_iff (hpos : 0 < totalPercent elements) :
    wholeShares delta (totalPercent elements) elements = delta ↔
      ∀ e ∈ elements, ∃ pixels : Int, share delta (totalPercent elements) e = pixels := by
  have hsides : (∀ q ∈ elements.map (share delta (totalPercent elements)), 0 ≤ q) ∨
      ∀ q ∈ elements.map (share delta (totalPercent elements)), q ≤ 0 := by
    have hratio : ∀ e : T, 0 ≤ resizePercent e / totalPercent elements := fun e =>
      div_nonneg (resizePercent_nonneg e) (le_of_lt hpos)
    obtain hdelta | hdelta := le_total 0 delta
    · left
      intro q hq
      obtain ⟨e, -, rfl⟩ := mem_map.mp hq
      exact mul_nonneg (by exact_mod_cast hdelta) (hratio e)
    · right
      intro q hq
      obtain ⟨e, -, rfl⟩ := mem_map.mp hq
      exact mul_nonpos_of_nonpos_of_nonneg (by exact_mod_cast hdelta) (hratio e)
  have hiff := sum_toInt_eq_iff _ hsides
  rw [sum_shares hpos, map_map] at hiff
  constructor
  · intro hwhole e he
    refine hiff.mp ?_ _ (mem_map_of_mem he)
    exact_mod_cast hwhole
  · intro hall
    have hsum := hiff.mpr fun q hq => by
      obtain ⟨e, he, rfl⟩ := mem_map.mp hq
      exact hall e he
    exact_mod_cast hsum

/-! ## DistributeDelta -/

/-- An element is given a size, and none if it is not resizable. -/
abbrev Given (e e' : T) : Prop := e' = setSize (size e') e ∧ (¬ IsResizable e → e' = e)

@[simp] theorem setSize_size (e : T) : setSize (size e) e = e := Element.set_element e

theorem Given.refl (e : T) : Given e e := ⟨(setSize_size e).symm, fun _ => rfl⟩

theorem given_refl (elements : List T) : List.Forall₂ Given elements elements :=
  forall₂_same.mpr fun e _ => Given.refl e

theorem giveShares_given :
    List.Forall₂ Given elements (giveShares delta total remaining resized elements) := by
  induction elements generalizing remaining resized with
  | nil => exact .nil
  | cons e elements ih =>
    rw [giveShares]
    split
    · rename_i hresize
      split <;> exact .cons ⟨by rw [size_setSize], fun hno => absurd hresize hno⟩ ih
    · exact .cons (Given.refl e) ih

theorem distributeDelta_given (delta : Int) (elements : List T) :
    List.Forall₂ Given elements (distributeDelta delta elements) := by
  rw [distributeDelta]
  split
  · exact given_refl elements
  · dsimp only
    split
    · exact given_refl elements
    · exact giveShares_given

/-- What is given in total is given to the resizable elements. -/
theorem given_total {result : List T} (h : List.Forall₂ Given elements result) :
    totalSize (resizable result) - totalSize (resizable elements) =
      totalSize result - totalSize elements := by
  induction h with
  | nil => rfl
  | @cons e e' elements result hgiven _ ih =>
    by_cases hresize : IsResizable e
    · have hresize' : IsResizable e' := by
        rw [hgiven.1, isResizable_setSize]
        exact hresize
      rw [resizable_cons_of_pos hresize, resizable_cons_of_pos hresize', totalSize_cons,
        totalSize_cons, totalSize_cons, totalSize_cons]
      omega
    · obtain rfl := hgiven.2 hresize
      rw [resizable_cons_of_neg hresize, resizable_cons_of_neg hresize, totalSize_cons,
        totalSize_cons]
      omega

/-- With more elements counted than are resizable, the rest is given to none. -/
theorem giveShares_total_of_fixed (hcount : ((resizable elements).length : Int) < resized) :
    totalSize (giveShares delta total remaining resized elements) =
      totalSize elements + wholeShares delta total elements := by
  induction elements generalizing remaining resized with
  | nil => rfl
  | cons e elements ih =>
    have hshares : wholeShares delta total (e :: elements) =
        toInt (share delta total e) + wholeShares delta total elements := by
      rw [wholeShares, map_cons, sum_cons, wholeShares]
    by_cases hresize : IsResizable e
    · rw [resizable_cons_of_pos hresize, length_cons] at hcount
      push_cast at hcount
      rw [giveShares, if_pos hresize, if_neg (by omega), totalSize_cons, size_setSize,
        ih (by omega), totalSize_cons, hshares]
      omega
    · rw [resizable_cons_of_neg hresize] at hcount
      rw [giveShares, if_neg hresize, totalSize_cons, ih hcount, totalSize_cons, hshares,
        share_of_fixed hresize, toInt_zero]
      omega

/-- With every element resizable, the last one is given the rest. -/
theorem giveShares_total_of_resizable (hne : elements ≠ []) (hall : ∀ e ∈ elements, IsResizable e) :
    totalSize (giveShares delta total remaining elements.length elements) =
      totalSize elements + remaining := by
  induction elements generalizing remaining with
  | nil => exact absurd rfl hne
  | cons e elements ih =>
    rw [giveShares, if_pos (hall e mem_cons_self)]
    cases elements with
    | nil =>
      rw [if_pos (by simp), totalSize_cons, size_setSize, totalSize_cons]
      simp only [giveShares, totalSize_nil]
      omega
    | cons e' elements =>
      have hlen : (((e :: e' :: elements).length : Nat) : Int) - 1 =
          ((e' :: elements).length : Nat) := by
        simp only [length_cons]
        omega
      rw [hlen, if_neg (by rw [length_cons]; omega), totalSize_cons, size_setSize,
        ih (cons_ne_nil _ _) (fun e he => hall e (mem_cons_of_mem _ he)),
        totalSize_cons e]
      omega

theorem length_resizable_lt (h : ¬ ∀ e ∈ elements, IsResizable e) :
    ((resizable elements).length : Int) < elements.length := by
  push Not at h
  obtain ⟨e, he, hfixed⟩ := h
  have hlt : (resizable elements).length < elements.length := by
    apply length_filter_lt_length_iff_exists.mpr
    exact ⟨e, he, by simpa using hfixed⟩
  exact_mod_cast hlt

/-- DistributeDelta gives out what it is asked to exactly when the shares are whole, or the last
element is the last resizable one that is counted. -/
theorem distributeDelta_total_iff (hsome : ∃ e ∈ elements, IsResizable e) :
    totalSize (distributeDelta delta elements) = totalSize elements + delta ↔
      SharesWhole delta elements := by
  have hpos := totalPercent_pos hsome
  by_cases hzero : delta = 0
  · subst hzero
    rw [distributeDelta, if_pos rfl, add_zero]
    refine iff_of_true rfl (Or.inr fun e _ => ⟨0, ?_⟩)
    rw [share, cast_zero, zero_mul]
  · rw [distributeDelta, if_neg hzero]
    rw [if_neg (ne_of_gt hpos)]
    by_cases hall : ∀ e ∈ elements, IsResizable e
    · have hne : elements ≠ [] := by
        obtain ⟨e, he, -⟩ := hsome
        exact ne_nil_of_mem he
      exact iff_of_true (giveShares_total_of_resizable hne hall) (Or.inl hall)
    · rw [giveShares_total_of_fixed (length_resizable_lt hall), SharesWhole, or_iff_right hall,
        ← wholeShares_eq_iff hpos]
      omega

theorem distributed_iff (hsome : ∃ e ∈ elements, IsResizable e) :
    Distributed delta elements (distributeDelta delta elements) ↔ SharesWhole delta elements := by
  have hgiven := distributeDelta_given delta elements
  have htotal := given_total hgiven
  rw [← distributeDelta_total_iff hsome]
  constructor
  · intro h
    have hsum := h.total
    omega
  · intro h
    exact ⟨by omega, hgiven⟩

/-! ## Locations -/

theorem calculateLocationsFromSize_sizes (start : Int) (elements : List T) :
    (calculateLocationsFromSize start elements).map size = elements.map size := by
  induction elements generalizing start with
  | nil => rfl
  | cons e elements ih => rw [calculateLocationsFromSize, map_cons, map_cons, size_setLocation, ih]

@[simp] theorem totalSize_calculateLocationsFromSize (start : Int) (elements : List T) :
    totalSize (calculateLocationsFromSize start elements) = totalSize elements := by
  rw [totalSize, calculateLocationsFromSize_sizes, totalSize]

@[simp] theorem location_setLocation (n : Int) (e : T) : location (setLocation n e) = n := by
  rw [location, setLocation, Element.element_set]

/-- The last element ends where all of them do. -/
theorem calculateLocationsFromSize_end (start : Int) (hne : elements ≠ [])
    {last : T} (hlast : (calculateLocationsFromSize start elements).getLast? = some last) :
    location last + size last = start + totalSize elements := by
  induction elements generalizing start with
  | nil => exact absurd rfl hne
  | cons e elements ih =>
    rw [calculateLocationsFromSize] at hlast
    cases elements with
    | nil =>
      rw [calculateLocationsFromSize, List.getLast?_singleton] at hlast
      cases hlast
      rw [location_setLocation, size_setLocation, totalSize_cons, totalSize_nil, add_zero]
    | cons e' elements =>
      rw [calculateLocationsFromSize, List.getLast?_cons_cons, ← calculateLocationsFromSize]
        at hlast
      rw [ih _ (cons_ne_nil _ _) hlast, totalSize_cons e]
      omega

theorem getElem?_modify_if {α : Type*} (f : α → α) (l : List α) (i j : Nat) :
    (l.modify i f)[j]? = if i = j then l[j]?.map f else l[j]? := by
  rw [List.getElem?_modify]
  cases l[j]? with
  | none => split <;> rfl
  | some a => split <;> rfl

end

/-! ## GridLayout

The columns of a ColumnSet, the rows, and how SizeRowsAndColumns sizes both from the views. -/

inductive Alignment where
  | leading | center | trailing | fill | baseline
  deriving DecidableEq, Repr

inductive SizeType where
  | fixed | usePref
  deriving DecidableEq, Repr

/-! ## Columns -/

/-- A column refers to others of its set by their indices; -1 and NULL are `none`. -/
structure Column extends LayoutElement where
  sizeType : SizeType
  sameSizeColumn : Option Nat
  fixedWidth : Int
  minWidth : Int
  sameSizeColumns : List Nat
  masterColumn : Option Nat

instance : Element Column where
  element := Column.toLayoutElement
  set c l := { c with toLayoutElement := l }
  element_set _ _ := rfl
  set_element _ := rfl
  set_set _ _ _ := rfl
  resetSize c :=
    { c with size := match c.sizeType with
      | .fixed => c.fixedWidth
      | .usePref => c.minWidth }

theorem no_resize : (0 : ℚ) ≤ 0 := le_rfl

namespace Column

/-- AddColumn. -/
def new (resizePercent : ℚ) (h : 0 ≤ resizePercent) (sizeType : SizeType)
    (fixedWidth minWidth : Int) : Column :=
  { resizePercent, resizePercent_nonneg := h, location := 0, size := 0, sizeType
    sameSizeColumn := none, fixedWidth, minWidth, sameSizeColumns := [], masterColumn := none }

/-- AdjustSize. -/
def adjustSize (size : Int) (c : Column) : Column :=
  if c.sizeType = .usePref then setSize (max c.size size) c else c

end Column

/-! ## Views -/

/-- What the layout asks a view. Its preferred size is a gfx::Size, which is not negative. -/
structure View where
  preferredWidth : Nat
  preferredHeight : Nat
  getHeightForWidth : Int → Int
  getBaseline : Int

structure ViewState where
  view : View
  startCol : Nat
  startRow : Nat
  colSpan : Nat
  rowSpan : Nat
  hAlign : Alignment
  vAlign : Alignment
  prefWidthFixed : Bool
  prefHeightFixed : Bool
  prefWidth : Int
  prefHeight : Int
  remainingWidth : Int
  remainingHeight : Int
  baseline : Int

def ViewState.new (view : View) (startCol startRow colSpan rowSpan : Nat)
    (hAlign vAlign : Alignment) (prefWidth prefHeight : Int) : ViewState :=
  { view, startCol, startRow, colSpan, rowSpan, hAlign, vAlign
    prefWidthFixed := 0 < prefWidth, prefHeightFixed := 0 < prefHeight, prefWidth, prefHeight
    remainingWidth := 0, remainingHeight := 0, baseline := -1 }

/-- lower_bound and insert: before the first that is not less. -/
def insertBySpan (span : ViewState → Nat) (v : ViewState) : List ViewState → List ViewState
  | [] => [v]
  | w :: viewStates => if span w < span v then w :: insertBySpan span v viewStates
    else v :: w :: viewStates

/-! ## ColumnSet -/

structure ColumnSet where
  columns : List Column
  viewStates : List ViewState
  masterColumns : List Nat

/-- The sizes of some elements from `start` on. -/
def totalSizeOf {T : Type} [Element T] (start length : Nat) (elements : List T) : Int :=
  totalSize ((elements.drop start).take length)

namespace ColumnSet

def addViewState (v : ViewState) (s : ColumnSet) : ColumnSet :=
  { s with viewStates := insertBySpan ViewState.colSpan v s.viewStates }

/-- LinkColumnSizes, for the arguments from `last` on. -/
def linkColumnSizes (last : Nat) : List Nat → List Column → List Column
  | [], columns => columns
  | next :: rest, columns =>
    linkColumnSizes next rest
      (columns.modify last fun c => { c with sameSizeColumn := some next })

/-- The pointer `master_column_`. -/
def masterOf (columns : List Column) (i : Nat) : Option Nat := columns[i]?.bind Column.masterColumn

def sameSizeColumnsOf (columns : List Column) (i : Nat) : List Nat :=
  (columns[i]?.map Column.sameSizeColumns).getD []

def setMaster (i : Nat) (master : Option Nat) (columns : List Column) : List Column :=
  columns.modify i fun c => { c with masterColumn := master }

def setSameSizeColumns (i : Nat) (f : List Nat → List Nat) (columns : List Column) :
    List Column :=
  columns.modify i fun c => { c with sameSizeColumns := f c.sameSizeColumns }

/-- NULL is `some none`. -/
def getLastMasterColumn (columns : List Column) : Nat → Nat → Option (Option Nat)
  | 0, _ => none
  | fuel + 1, i =>
    match masterOf columns i with
    | none => some none
    | some master => if master = i then some (some i) else getLastMasterColumn columns fuel master

/-- One turn of the loop of CalculateMasterColumns. -/
def linkColumn (fuel : Nat) (columns : List Column) (i : Nat) : Option (List Column) :=
  match columns[i]?.bind Column.sameSizeColumn with
  | none => some columns
  | some j =>
    match masterOf columns i, masterOf columns j with
    | none, none =>
      -- Both columns are not linked.
      some (setSameSizeColumns i (· ++ [j, i])
        (setMaster j (some i) (setMaster i (some i) columns)))
    | none, some _ =>
      match getLastMasterColumn columns fuel j with
      | some (some m) => some (setMaster i (some j) (setSameSizeColumns m (· ++ [i]) columns))
      | _ => none
    | some _, none =>
      match getLastMasterColumn (setMaster j (some i) columns) fuel i with
      | some (some m) => some (setSameSizeColumns m (· ++ [j]) (setMaster j (some i) columns))
      | _ => none
    | some _, some _ =>
      match getLastMasterColumn columns fuel i, getLastMasterColumn columns fuel j with
      | some (some m), some (some m') =>
        if m ≠ m' then
          -- The other master is no longer a master.
          some (setMaster m' (some i) (setSameSizeColumns m' (fun _ => [])
            (setSameSizeColumns m (· ++ sameSizeColumnsOf columns m') columns)))
        else some columns
      | _, _ => none

def linkColumns (fuel : Nat) (columns : List Column) : List Nat → Option (List Column)
  | [] => some columns
  | i :: rest =>
    match linkColumn fuel columns i with
    | none => none
    | some columns => linkColumns fuel columns rest

/-- AccumulateMasterColumns, for the columns from one on. -/
def accumulateMasterColumns (fuel : Nat) (columns : List Column) (masterColumns : List Nat) :
    List Nat → Option (List Column × List Nat)
  | [] => some (columns, masterColumns)
  | i :: rest =>
    match getLastMasterColumn columns fuel i with
    | none => none
    | some master =>
      accumulateMasterColumns fuel (setMaster i master columns)
        (match master with
          | none => masterColumns
          | some m => if m ∈ masterColumns then masterColumns else masterColumns ++ [m])
        rest

def calculateMasterColumns (fuel : Nat) (s : ColumnSet) : Option ColumnSet :=
  match linkColumns fuel s.columns (List.range s.columns.length) with
  | none => none
  | some columns =>
    match accumulateMasterColumns fuel columns [] (List.range columns.length) with
    | none => none
    | some (columns, masterColumns) => some { s with columns, masterColumns }

/-! ### The sizes of columns -/

/-- Sets each of these columns to a size. -/
def setSizes (width : Int) (columns : List Column) : List Nat → List Column
  | [] => columns
  | i :: rest => setSizes width (columns.modify i (setSize width)) rest

/-- The width of a column. -/
def widthOf (columns : List Column) (i : Nat) : Int := (columns[i]?.map size).getD 0

/-- Column::UnifySameSizedColumnSizes, for these columns. -/
def unifyColumns (columns : List Column) (sameSizeColumns : List Nat) : List Column :=
  setSizes ((sameSizeColumns.map (widthOf columns)).foldl max 0) columns sameSizeColumns

def unifySameSizedColumnSizes (columns : List Column) : List Nat → List Column
  | [] => columns
  | m :: masterColumns =>
    unifySameSizedColumnSizes (unifyColumns columns (sameSizeColumnsOf columns m)) masterColumns

/-- UpdateRemainingWidth. The columns from `start_col` up to the number `col_span` are counted. -/
def updateRemainingWidth (columns : List Column) (v : ViewState) : Int :=
  v.remainingWidth - totalSizeOf v.startCol (v.colSpan - v.startCol) columns

/-- A column that is not resizable, but of the type USE_PREF. -/
def IsPref (c : Column) : Prop := ¬ IsResizable c ∧ c.sizeType = .usePref

instance : DecidablePred IsPref := fun c => by
  unfold IsPref
  infer_instance

/-- Gives the remaining width to the resizable columns, the last of them what is left. -/
def giveResizable (width : Int) (totalResize : ℚ) (resizableColumns : Nat) :
    Int → Nat → List Column → List Column
  | _, _, [] => []
  | remainingWidth, resizeI, c :: columns =>
    if IsResizable c then
      let delta := if resizeI + 1 = resizableColumns then remainingWidth
        else toInt (width * resizePercent c / totalResize)
      setSize (size c + delta) c ::
        giveResizable width totalResize resizableColumns (remainingWidth - delta) (resizeI + 1)
          columns
    else c :: giveResizable width totalResize resizableColumns remainingWidth resizeI columns

end ColumnSet

/-- The loop that gives each of some elements the same. What is left is added once it is less than
that. -/
def giveEach {T : Type} [Element T] (p : T → Prop) [DecidablePred p] :
    Int → Int → List T → List T
  | _, _, [] => []
  | left, toDistribute, e :: elements =>
    if p e then
      let left := left - toDistribute
      let toDistribute := if left < toDistribute then toDistribute + left else toDistribute
      setSize (size e + toDistribute) e :: giveEach p left toDistribute elements
    else e :: giveEach p left toDistribute elements

/-- Changes the elements of a span. -/
def onSpan {T : Type} (start length : Nat) (f : List T → List T) (elements : List T) : List T :=
  elements.take start ++ f ((elements.drop start).take length) ++ elements.drop (start + length)

namespace ColumnSet

def distributeRemainingWidth (columns : List Column) (v : ViewState) : List Column :=
  let width := v.remainingWidth
  if width ≤ 0 then columns
  else
    let span := (columns.drop v.startCol).take v.colSpan
    let resizableColumns := (resizable span).length
    let prefSizeColumns := (span.filter (IsPref ·)).length
    if 0 < resizableColumns then
      onSpan v.startCol v.colSpan
        (giveResizable width (totalPercent (resizable span)) resizableColumns width 0) columns
    else if 0 < prefSizeColumns then
      onSpan v.startCol v.colSpan
        (giveEach (fun c => c.sizeType = .usePref) width (width.tdiv prefSizeColumns)) columns
    else columns

/-- The preferred sizes at the start of CalculateSize; `pref` is left from the view before. -/
def resetPreferred (pref : Int × Int) : List ViewState → List ViewState
  | [] => []
  | v :: viewStates =>
    let asked : Bool := !v.prefWidthFixed || !v.prefHeightFixed
    let pref := if asked then ((v.view.preferredWidth : Int), (v.view.preferredHeight : Int))
      else pref
    { v with
      prefWidth := if asked && !v.prefWidthFixed then pref.1 else v.prefWidth
      prefHeight := if asked && !v.prefHeightFixed then pref.2 else v.prefHeight
      remainingWidth := pref.1
      remainingHeight := pref.2 } :: resetPreferred pref viewStates

/-- A view in one column. -/
def distributeSingle (columns : List Column) (v : ViewState) : List Column × ViewState :=
  let columns := columns.modify v.startCol (Column.adjustSize v.prefWidth)
  (columns, { v with remainingWidth := v.remainingWidth - widthOf columns v.startCol })

/-- A view in several columns. -/
def distributeSpanning (masterColumns : List Nat) (columns : List Column) (v : ViewState) :
    List Column × ViewState :=
  let v := { v with remainingWidth := updateRemainingWidth columns v }
  (unifySameSizedColumnSizes (distributeRemainingWidth columns v) masterColumns, v)

/-- A pass over views that changes them and what they are in. -/
def passOver {α : Type} (f : α → ViewState → α × ViewState) : α → List ViewState →
    α × List ViewState
  | a, [] => (a, [])
  | a, v :: viewStates =>
    let r := f a v
    let rest := passOver f r.1 viewStates
    (rest.1, r.2 :: rest.2)

def calculateSize (s : ColumnSet) : ColumnSet :=
  let viewStates := resetPreferred (0, 0) s.viewStates
  let singles := viewStates.takeWhile (·.colSpan = 1)
  let spanning := viewStates.dropWhile (·.colSpan = 1)
  let r := passOver distributeSingle (resetSizes s.columns) singles
  let columns := unifySameSizedColumnSizes r.1 s.masterColumns
  let r' := passOver (distributeSpanning s.masterColumns) columns spanning
  { s with columns := r'.1, viewStates := r.2 ++ r'.2 }

def layoutWidth (s : ColumnSet) : Int := totalSize s.columns

def getColumnWidth (s : ColumnSet) (startCol colSpan : Nat) : Int :=
  totalSizeOf startCol colSpan s.columns

def resize (delta : Int) (s : ColumnSet) : ColumnSet :=
  { s with columns := distributeDelta delta s.columns }

def resetColumnXCoordinates (s : ColumnSet) : ColumnSet :=
  { s with columns := calculateLocationsFromSize 0 s.columns }

end ColumnSet

/-! ## Rows -/

structure Row extends LayoutElement where
  height : Int
  maxAscent : Int
  maxDescent : Int

instance : Element Row where
  element := Row.toLayoutElement
  set r l := { r with toLayoutElement := l }
  element_set _ _ := rfl
  set_element _ := rfl
  set_set _ _ _ := rfl
  resetSize r := { r with maxAscent := 0, maxDescent := 0, size := r.height }

namespace Row

def new (height : Int) (resizePercent : ℚ) (h : 0 ≤ resizePercent) : Row :=
  { resizePercent, resizePercent_nonneg := h, location := 0, size := 0, height, maxAscent := 0
    maxDescent := 0 }

/-- AdjustSize. -/
def adjustSize (size : Int) (r : Row) : Row := setSize (max r.size size) r

def adjustSizeForBaseline (ascent descent : Int) (r : Row) : Row :=
  let r := { r with maxAscent := max ascent r.maxAscent, maxDescent := max descent r.maxDescent }
  r.adjustSize (r.maxAscent + r.maxDescent)

end Row

/-- A view in one row. -/
def sizeSingleRow (rows : List Row) (v : ViewState) : List Row × ViewState :=
  let rows := rows.modify v.startRow (Row.adjustSize v.remainingHeight)
  let rows := if v.baseline ≠ -1 ∧ v.baseline ≤ v.prefHeight then
      rows.modify v.startRow (Row.adjustSizeForBaseline v.baseline (v.prefHeight - v.baseline))
    else rows
  (rows, { v with remainingHeight := 0 })

def updateRemainingHeightFromRows (rows : List Row) (v : ViewState) : Int :=
  v.remainingHeight - totalSizeOf v.startRow v.rowSpan rows

def distributeRemainingHeight (rows : List Row) (v : ViewState) : List Row × ViewState :=
  let height := v.remainingHeight
  if height ≤ 0 then (rows, v)
  else
    let resizableRows := (resizable ((rows.drop v.startRow).take v.rowSpan)).length
    if 0 < resizableRows then
      (onSpan v.startRow v.rowSpan (giveEach IsResizable height (height.tdiv resizableRows)) rows,
        v)
    else
      (onSpan v.startRow v.rowSpan (giveEach (fun _ => True) height (height.tdiv v.rowSpan)) rows,
        { v with remainingHeight := 0 })

/-- A view in several rows. -/
def sizeSpanningRows (rows : List Row) (v : ViewState) : List Row × ViewState :=
  distributeRemainingHeight rows
    { v with remainingHeight := updateRemainingHeightFromRows rows v }

/-! ## GridLayout -/

structure GridLayout where
  columnSets : List ColumnSet
  rows : List Row
  /-- The column set of each view and its place there, in the order of the row spans. -/
  viewStates : List (Nat × Nat)
  topInset : Int
  leftInset : Int
  bottomInset : Int
  rightInset : Int

/-- What SizeRowsAndColumns leaves; the views in the order of the row spans. -/
structure Sized where
  columnSets : List ColumnSet
  rows : List Row
  viewStates : List ViewState
  preferredWidth : Nat
  preferredHeight : Nat

namespace GridLayout

/-- What a view asks for once the widths of the columns are known. -/
def askHeight (s : ColumnSet) (v : ViewState) : ViewState :=
  let v := { v with
    remainingHeight := v.prefHeight
    baseline := if v.vAlign = .baseline then v.view.getBaseline else v.baseline }
  let actualWidth := s.getColumnWidth v.startCol v.colSpan
  if v.hAlign = .fill ∧ actualWidth ≠ v.prefWidth ∧ v.prefHeightFixed = false then
    { v with
      prefHeight := v.view.getHeightForWidth actualWidth
      remainingHeight := v.view.getHeightForWidth actualWidth }
  else v

/-- The views as they are when the rows are to be sized. -/
def askHeights (columnSets : List ColumnSet) (viewStates : List (Nat × Nat)) : List ViewState :=
  viewStates.filterMap fun place =>
    columnSets[place.1]?.bind fun s => s.viewStates[place.2]?.map (askHeight s)

/-- The widest column set; a gfx::Size is not negative. -/
def widest (columnSets : List ColumnSet) : Nat :=
  columnSets.foldl (fun width s => (max (width : Int) s.layoutWidth).toNat) 0

/-- The columns at the width that the host is given, or at the preferred one. -/
def sizeColumns (width : Int) (g : GridLayout) : List ColumnSet × Nat :=
  let columnSets := g.columnSets.map ColumnSet.calculateSize
  let preferredWidth := ((widest columnSets : Int) + g.leftInset + g.rightInset).toNat
  let width := if width ≠ 0 then width else preferredWidth
  (columnSets.map fun s =>
    (s.resize (width - s.layoutWidth - g.leftInset - g.rightInset)).resetColumnXCoordinates,
    preferredWidth)

/-- The rows as high as the views need. -/
def sizeRows (rows : List Row) (viewStates : List ViewState) : List Row × List ViewState :=
  let singles := viewStates.takeWhile (·.rowSpan = 1)
  let spanning := viewStates.dropWhile (·.rowSpan = 1)
  let r := ColumnSet.passOver sizeSingleRow (resetSizes rows) singles
  let r' := ColumnSet.passOver sizeSpanningRows r.1 spanning
  (r'.1, r.2 ++ r'.2)

/-- SizeRowsAndColumns, once the master columns have been calculated. -/
def sizeRowsAndColumns (layout : Bool) (width height : Int) (g : GridLayout) : Sized :=
  if g.rows = [] then ⟨g.columnSets, [], [], 0, 0⟩
  else
    let c := sizeColumns width g
    let r := sizeRows g.rows (askHeights c.1 g.viewStates)
    let rows := calculateLocationsFromSize 0 r.1
    let bottom := (rows.getLast?.map fun row => location row + size row).getD 0
    let preferredHeight := (bottom + g.topInset + g.bottomInset).toNat
    if layout ∧ height ≠ preferredHeight then
      let rows := calculateLocationsFromSize 0 (distributeDelta (height - preferredHeight) rows)
      ⟨c.1, rows, r.2, c.2, preferredHeight⟩
    else ⟨c.1, rows, r.2, c.2, preferredHeight⟩

end GridLayout

end ChromiumUI.Views.Grid
