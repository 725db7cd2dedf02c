import ChromiumUI.Rects

/-!
# Rectangles as sets of points

Intersects, Intersect, Union, AdjustToFit and Subtract against the points of the rectangles.
-/
namespace ChromiumUI.Gfx.Rect

open Int32 Size

variable {a b r : Rect}

/-- The right and the bottom edge are `int`s. -/
structure Fits (r : Rect) : Prop where
  right : r.x.toInt + r.width.toInt < 2 ^ 31
  bottom : r.y.toInt + r.height.toInt < 2 ^ 31

theorem Fits.right_eq (h : r.Fits) : r.right.toInt = r.x.toInt + r.width.toInt := by
  have hlo := r.x.le_toInt
  have hwidth := r.width_nonneg
  exact toInt_add_of_fits (by omega) h.right

theorem Fits.bottom_eq (h : r.Fits) : r.bottom.toInt = r.y.toInt + r.height.toInt := by
  have hlo := r.y.le_toInt
  have hheight := r.height_nonneg
  exact toInt_add_of_fits (by omega) h.bottom

/-- The edges of a rectangle that fits: in order, and a size apart. -/
theorem Fits.edges (h : r.Fits) :
    (r.x.toInt ≤ r.right.toInt ∧ r.right.toInt - r.x.toInt < 2 ^ 31) ∧
      (r.y.toInt ≤ r.bottom.toInt ∧ r.bottom.toInt - r.y.toInt < 2 ^ 31) := by
  rw [h.right_eq, h.bottom_eq]
  have hwidth := r.width_nonneg
  have hheight := r.height_nonneg
  have hwidth' := r.width.toInt_lt
  have hheight' := r.height.toInt_lt
  omega

theorem sub_nonneg {lo hi : Int32} (h : lo.toInt ≤ hi.toInt)
    (hsize : hi.toInt - lo.toInt < 2 ^ 31) :
    0 ≤ (hi - lo).toInt := by
  rw [toInt_sub_of_fits (by omega) hsize]
  omega

/-! ## Common points -/

/-- The two rectangles have a coordinate in common on either axis. -/
def Overlap (a b : Rect) : Prop :=
  max a.x.toInt b.x.toInt < min a.right.toInt b.right.toInt ∧
    max a.y.toInt b.y.toInt < min a.bottom.toInt b.bottom.toInt

instance : Decidable (Overlap a b) := inferInstanceAs (Decidable (_ ∧ _))

theorem exists_common_iff : (∃ p, a.contains p = true ∧ b.contains p = true) ↔ Overlap a b := by
  simp only [contains_iff, Overlap]
  constructor
  · rintro ⟨p, h, h'⟩
    omega
  · intro h
    refine ⟨⟨max a.x b.x, max a.y b.y⟩, ?_⟩
    simp only [toInt_max]
    omega

theorem intersect_eq : a.intersect b =
    if Overlap a b then
      ofEdges (max a.x b.x) (max a.y b.y) (min a.right b.right) (min a.bottom b.bottom)
    else ofEdges 0 0 0 0 := by
  have hcond : (decide (max a.x b.x ≥ min a.right b.right) ||
      decide (max a.y b.y ≥ min a.bottom b.bottom)) = true ↔ ¬Overlap a b := by
    simp only [Overlap, Bool.or_eq_true, decide_eq_true_eq, ge_iff_le, le_iff_toInt_le,
      toInt_max, toInt_min]
    omega
  unfold intersect
  by_cases h : Overlap a b
  · rw [if_pos h, if_neg (fun hc => hcond.mp hc h)]
  · rw [if_neg h, if_pos (hcond.mpr h)]

theorem intersect_sizes (ha : a.Fits) (h : Overlap a b) :
    0 ≤ (min a.right b.right - max a.x b.x).toInt ∧
      0 ≤ (min a.bottom b.bottom - max a.y b.y).toInt := by
  have hedges := ha.edges
  unfold Overlap at h
  constructor <;> refine sub_nonneg ?_ ?_ <;> rw [toInt_max, toInt_min] <;> omega

theorem contains_intersect (ha : a.Fits) (p : Point) :
    (a.intersect b).contains p = true ↔ a.contains p = true ∧ b.contains p = true := by
  rw [intersect_eq]
  split
  · rename_i h
    obtain ⟨hx, hy⟩ := intersect_sizes ha h
    simp only [contains_ofEdges hx hy, contains_iff, toInt_max, toInt_min]
    omega
  · rename_i h
    rw [contains_ofEdges (by decide) (by decide)]
    constructor
    · intro hp
      have hzero : (0 : Int32).toInt = 0 := rfl
      omega
    · rintro ⟨hp, hp'⟩
      exact absurd (exists_common_iff.mp ⟨p, hp, hp'⟩) h

theorem isEmpty_intersect (ha : a.Fits) : (a.intersect b).isEmpty = false ↔ Overlap a b := by
  rw [intersect_eq, Bool.eq_false_iff, Ne, isEmpty_iff]
  split
  · rename_i h
    obtain ⟨hx, hy⟩ := intersect_sizes ha h
    refine iff_of_true ?_ h
    show ¬((clamp _).toInt = 0 ∨ (clamp _).toInt = 0)
    rw [clamp_of_nonneg hx, clamp_of_nonneg hy]
    have hedges := ha.edges
    have hright := toInt_min a.right b.right
    have hleft := toInt_max a.x b.x
    have hbottom := toInt_min a.bottom b.bottom
    have htop := toInt_max a.y b.y
    unfold Overlap at h
    rw [toInt_sub_of_fits (by omega) (by omega), toInt_sub_of_fits (by omega) (by omega)]
    omega
  · rename_i h
    exact iff_of_false (fun hne => hne (Or.inl rfl)) h

theorem intersects_symm (a b : Rect) : a.intersects b = b.intersects a := by
  rw [Bool.eq_iff_iff, intersects_iff, intersects_iff]
  omega

/-! ## The smallest rectangle around two -/

/-- The rectangle around two that have points is one whose sizes are `int`s. -/
def HullFits (a b : Rect) : Prop :=
  a.isEmpty = true ∨ b.isEmpty = true ∨
    (max a.right.toInt b.right.toInt - min a.x.toInt b.x.toInt < 2 ^ 31 ∧
      max a.bottom.toInt b.bottom.toInt - min a.y.toInt b.y.toInt < 2 ^ 31)

theorem Fits.lt_of_not_isEmpty (h : r.Fits) (hr : ¬r.isEmpty = true) :
    r.x.toInt < r.right.toInt ∧ r.y.toInt < r.bottom.toInt := by
  rw [isEmpty_iff] at hr
  rw [h.right_eq, h.bottom_eq]
  have hwidth := r.width_nonneg
  have hheight := r.height_nonneg
  omega

/-- An empty rectangle has no points. -/
theorem Fits.not_contains (h : r.Fits) (hr : r.isEmpty = true) (p : Point) :
    ¬r.contains p = true := by
  rw [isEmpty_iff] at hr
  rw [contains_iff, h.right_eq, h.bottom_eq]
  omega

theorem union_of_not_isEmpty (ha : ¬a.isEmpty = true) (hb : ¬b.isEmpty = true) :
    a.union b =
      ofEdges (min a.x b.x) (min a.y b.y) (max a.right b.right) (max a.bottom b.bottom) := by
  rw [union, if_neg ha, if_neg hb]

theorem hull_sizes (ha : a.Fits) (hx : max a.right.toInt b.right.toInt -
      min a.x.toInt b.x.toInt < 2 ^ 31)
    (hy : max a.bottom.toInt b.bottom.toInt - min a.y.toInt b.y.toInt < 2 ^ 31) :
    0 ≤ (max a.right b.right - min a.x b.x).toInt ∧
      0 ≤ (max a.bottom b.bottom - min a.y b.y).toInt := by
  have hedges := ha.edges
  constructor <;> refine sub_nonneg ?_ ?_ <;> rw [toInt_max, toInt_min] <;> omega

theorem union_contains (ha : a.Fits) (hb : b.Fits) (h : HullFits a b) {p : Point}
    (hp : a.contains p = true ∨ b.contains p = true) : (a.union b).contains p = true := by
  by_cases hempty : a.isEmpty = true
  · rw [union, if_pos hempty]
    exact hp.resolve_left (ha.not_contains hempty p)
  by_cases hempty' : b.isEmpty = true
  · rw [union, if_neg hempty, if_pos hempty']
    exact hp.resolve_right (hb.not_contains hempty' p)
  obtain ⟨hx, hy⟩ := (h.resolve_left hempty).resolve_left hempty'
  obtain ⟨hx, hy⟩ := hull_sizes ha hx hy
  rw [union_of_not_isEmpty hempty hempty', contains_ofEdges hx hy]
  simp only [contains_iff] at hp
  simp only [toInt_max, toInt_min]
  omega

/-- The first and the last point of a rectangle. -/
theorem Fits.corners (h : r.Fits) (hr : ¬r.isEmpty = true) :
    r.contains ⟨r.x, r.y⟩ = true ∧ ∃ p, r.contains p = true ∧
      p.x.toInt = r.right.toInt - 1 ∧ p.y.toInt = r.bottom.toInt - 1 := by
  obtain ⟨hx, hy⟩ := h.lt_of_not_isEmpty hr
  have hone : (1 : Int32).toInt = 1 := rfl
  have hlo := r.x.le_toInt
  have hlo' := r.y.le_toInt
  have hhi := r.right.toInt_lt
  have hhi' := r.bottom.toInt_lt
  have hright : (r.right - 1).toInt = r.right.toInt - 1 := toInt_sub_of_fits (by omega) (by omega)
  have hbottom : (r.bottom - 1).toInt = r.bottom.toInt - 1 :=
    toInt_sub_of_fits (by omega) (by omega)
  refine ⟨contains_iff.mpr (by dsimp only; omega), ⟨r.right - 1, r.bottom - 1⟩,
    contains_iff.mpr ?_, hright, hbottom⟩
  dsimp only
  omega

theorem union_least (ha : a.Fits) (hb : b.Fits) (h : HullFits a b)
    (hr : ∀ p, a.contains p = true ∨ b.contains p = true → r.contains p = true) {p : Point}
    (hp : (a.union b).contains p = true) : r.contains p = true := by
  by_cases hempty : a.isEmpty = true
  · rw [union, if_pos hempty] at hp
    exact hr p (Or.inr hp)
  by_cases hempty' : b.isEmpty = true
  · rw [union, if_neg hempty, if_pos hempty'] at hp
    exact hr p (Or.inl hp)
  obtain ⟨hx, hy⟩ := (h.resolve_left hempty).resolve_left hempty'
  obtain ⟨hx, hy⟩ := hull_sizes ha hx hy
  rw [union_of_not_isEmpty hempty hempty', contains_ofEdges hx hy] at hp
  simp only [toInt_max, toInt_min] at hp
  obtain ⟨hfirst, last, hlast, hlastX, hlastY⟩ := ha.corners hempty
  obtain ⟨hfirst', last', hlast', hlastX', hlastY'⟩ := hb.corners hempty'
  have hleft := contains_iff.mp (hr _ (Or.inl hfirst))
  have hright := contains_iff.mp (hr _ (Or.inl hlast))
  have hleft' := contains_iff.mp (hr _ (Or.inr hfirst'))
  have hright' := contains_iff.mp (hr _ (Or.inr hlast'))
  rw [contains_iff]
  dsimp only at hleft hleft'
  omega

/-- A size that is no `int` comes out negative, and is taken for 0. -/
theorem add_clamp_of_overflow {lo hi : Int32} (hbig : 2 ^ 31 ≤ hi.toInt - lo.toInt) : lo + clamp
    (hi - lo) = lo := by
  have hlo := lo.le_toInt
  have hhi := hi.toInt_lt
  have hneg : (hi - lo).toInt < 0 := by
    rw [toInt_sub, Int.bmod_def]
    split <;> omega
  rw [clamp_of_neg hneg, Int32.add_zero]

theorem hullFits_of_union_contains (ha : a.Fits)
    (h : ∀ p, a.contains p = true ∨ b.contains p = true → (a.union b).contains p = true) :
    HullFits a b := by
  by_cases hempty : a.isEmpty = true
  · exact Or.inl hempty
  by_cases hempty' : b.isEmpty = true
  · exact Or.inr (Or.inl hempty')
  refine Or.inr (Or.inr ?_)
  obtain ⟨hfirst, -⟩ := ha.corners hempty
  have hin := h _ (Or.inl hfirst)
  rw [union_of_not_isEmpty hempty hempty', contains_iff] at hin
  obtain ⟨⟨hx, hx'⟩, hy, hy'⟩ := hin
  obtain ⟨hlt, hlt'⟩ := ha.lt_of_not_isEmpty hempty
  constructor
  · by_contra hbig
    have hlost := @add_clamp_of_overflow (min a.x b.x) (max a.right b.right)
      (by rw [toInt_max, toInt_min]; omega)
    change a.x.toInt < (min a.x b.x + clamp (max a.right b.right - min a.x b.x)).toInt at hx'
    rw [hlost] at hx'
    exact absurd (Int.lt_of_le_of_lt hx hx') (Int.lt_irrefl _)
  · by_contra hbig
    have hlost := @add_clamp_of_overflow (min a.y b.y) (max a.bottom b.bottom)
      (by rw [toInt_max, toInt_min]; omega)
    change a.y.toInt <
      (min a.y b.y + clamp (max a.bottom b.bottom - min a.y b.y)).toInt at hy'
    rw [hlost] at hy'
    exact absurd (Int.lt_of_le_of_lt hy hy') (Int.lt_irrefl _)

/-! ## Fitting one into another -/

theorem adjustAlongAxis_inside {dstOrigin dstSize origin size : Int32} (hdst : 0 ≤ dstSize.toInt)
    (hsize : 0 ≤ size.toInt) (hfits : dstOrigin.toInt + dstSize.toInt < 2 ^ 31)
    (hfits' : origin.toInt + size.toInt < 2 ^ 31) :
    let out := adjustAlongAxis dstOrigin dstSize origin size
    out.2 = min dstSize size ∧ dstOrigin.toInt ≤ out.1.toInt ∧
      out.1.toInt + out.2.toInt ≤ dstOrigin.toInt + dstSize.toInt ∧
      (dstOrigin.toInt ≤ origin.toInt →
        origin.toInt + size.toInt ≤ dstOrigin.toInt + dstSize.toInt → out = (origin, size)) := by
  have hlo := dstOrigin.le_toInt
  have hlo' := origin.le_toInt
  have hmin := toInt_min dstSize size
  have hright : (dstOrigin + dstSize).toInt = dstOrigin.toInt + dstSize.toInt :=
    toInt_add_of_fits (by omega) hfits
  have hright' : (origin + min dstSize size).toInt = origin.toInt + (min dstSize size).toInt :=
    toInt_add_of_fits (by omega) (by omega)
  have hends := toInt_min (dstOrigin + dstSize) (origin + min dstSize size)
  unfold adjustAlongAxis
  split
  · rename_i h
    rw [lt_iff_toInt_lt] at h
    refine ⟨rfl, Int.le_refl _, by dsimp only; omega, fun hge => by omega⟩
  · rename_i h
    rw [lt_iff_toInt_lt, Int.not_lt] at h
    have hnew : (min (dstOrigin + dstSize) (origin + min dstSize size) - min dstSize size).toInt =
        min (dstOrigin.toInt + dstSize.toInt) (origin.toInt + (min dstSize size).toInt) -
          (min dstSize size).toInt := by
      rw [← hright, ← hright', ← hends]
      exact toInt_sub_of_fits (by omega) (by omega)
    refine ⟨rfl, by dsimp only; omega, by dsimp only; omega, fun _ hends => ?_⟩
    rw [Prod.mk.injEq, ← toInt_inj, ← toInt_inj, hnew]
    omega

/-- What AdjustToFit makes of a rectangle that fits. -/
theorem adjustToFit_fits (ha : a.Fits) (hb : b.Fits) :
    b.containsRect (a.adjustToFit b) = true ∧
      (a.adjustToFit b).width = min b.width a.width ∧
      (a.adjustToFit b).height = min b.height a.height ∧
      (b.containsRect a = true → a.adjustToFit b = a) := by
  obtain ⟨hw, hx, hxw, hsame⟩ :=
    adjustAlongAxis_inside b.width_nonneg a.width_nonneg hb.right ha.right
  obtain ⟨hh, hy, hyh, hsame'⟩ :=
    adjustAlongAxis_inside b.height_nonneg a.height_nonneg hb.bottom ha.bottom
  have hminw := toInt_min b.width a.width
  have hminh := toInt_min b.height a.height
  have hbw := b.width_nonneg
  have hbh := b.height_nonneg
  have haw := a.width_nonneg
  have hah := a.height_nonneg
  have hlo := b.x.le_toInt
  have hlo' := b.y.le_toInt
  have hfits := hb.right
  have hfits' := hb.bottom
  rw [← hw] at hminw
  rw [← hh] at hminh
  have hnew : 0 ≤ (adjustAlongAxis b.x b.width a.x a.width).2.toInt := by omega
  have hnew' : 0 ≤ (adjustAlongAxis b.y b.height a.y a.height).2.toInt := by omega
  have hwidth : (a.adjustToFit b).width = (adjustAlongAxis b.x b.width a.x a.width).2 :=
    Size.clamp_of_nonneg hnew
  have hheight : (a.adjustToFit b).height = (adjustAlongAxis b.y b.height a.y a.height).2 :=
    Size.clamp_of_nonneg hnew'
  have hright : (a.adjustToFit b).right.toInt =
      (a.adjustToFit b).x.toInt + (a.adjustToFit b).width.toInt := by
    rw [hwidth]
    refine (congrArg toInt (congrArg _ hwidth)).trans (toInt_add_of_fits ?_ ?_)
    · show -2 ^ 31 ≤ (adjustAlongAxis b.x b.width a.x a.width).1.toInt + _
      omega
    · show (adjustAlongAxis b.x b.width a.x a.width).1.toInt + _ < 2 ^ 31
      omega
  have hbottom : (a.adjustToFit b).bottom.toInt =
      (a.adjustToFit b).y.toInt + (a.adjustToFit b).height.toInt := by
    rw [hheight]
    refine (congrArg toInt (congrArg _ hheight)).trans (toInt_add_of_fits ?_ ?_)
    · show -2 ^ 31 ≤ (adjustAlongAxis b.y b.height a.y a.height).1.toInt + _
      omega
    · show (adjustAlongAxis b.y b.height a.y a.height).1.toInt + _ < 2 ^ 31
      omega
  refine ⟨?_, hwidth.trans hw, hheight.trans hh, fun hin => ?_⟩
  · rw [containsRect_iff, hright, hbottom, hwidth, hheight, hb.right_eq, hb.bottom_eq]
    exact ⟨⟨hx, hxw⟩, hy, hyh⟩
  · rw [containsRect_iff, ha.right_eq, hb.right_eq, ha.bottom_eq, hb.bottom_eq] at hin
    rw [adjustToFit, hsame hin.1.1 hin.1.2, hsame' hin.2.1 hin.2.2]
    show Rect.mk ⟨a.x, a.y⟩ (Size.ofInts a.width a.height) = a
    have hsize : Size.ofInts a.width a.height = a.size := by
      have hclamp := Size.clamp_of_nonneg haw
      have hclamp' := Size.clamp_of_nonneg hah
      simp only [Size.ofInts, hclamp, hclamp']
      rfl
    rw [hsize]
    rfl

/-! ## Set semantics -/

/-- The operations on two rectangles are those on their sets of points. -/
structure SetSemantics (a b : Rect) : Prop where
  intersect : ∀ p, (a.intersect b).contains p = true ↔ a.contains p = true ∧ b.contains p = true
  intersects : a.intersects b = true ↔ ∃ p, a.contains p = true ∧ b.contains p = true
  symmetric : a.intersects b = b.intersects a
  nonempty : a.intersects b = true ↔ (a.intersect b).isEmpty = false
  upper : ∀ p, a.contains p = true ∨ b.contains p = true → (a.union b).contains p = true
  least : ∀ r : Rect, (∀ p, a.contains p = true ∨ b.contains p = true → r.contains p = true) →
    ∀ p, (a.union b).contains p = true → r.contains p = true
  inside : b.containsRect (a.adjustToFit b) = true
  width : (a.adjustToFit b).width = min b.width a.width
  height : (a.adjustToFit b).height = min b.height a.height
  unchanged : b.containsRect a = true → a.adjustToFit b = a

/-- The coordinate of a range without points is strictly between the ends of the other range. -/
def Between (lo hi lo' hi' : Int32) : Prop :=
  (lo = hi ∧ lo'.toInt < lo.toInt ∧ lo.toInt < hi'.toInt) ∨
    (lo' = hi' ∧ lo.toInt < lo'.toInt ∧ lo'.toInt < hi.toInt)

/-- The ranges have a coordinate in common. -/
def Shared (lo hi lo' hi' : Int32) : Prop := max lo.toInt lo'.toInt < min hi.toInt hi'.toInt

/-- A rectangle without points stands in the midst of the other: on each axis there is a common
coordinate or an empty range between two ends, and on one of them there is such a range. -/
def EmptyInside (a b : Rect) : Prop :=
  (Shared a.x a.right b.x b.right ∨ Between a.x a.right b.x b.right) ∧
    (Shared a.y a.bottom b.y b.bottom ∨ Between a.y a.bottom b.y b.bottom) ∧
    (Between a.x a.right b.x b.right ∨ Between a.y a.bottom b.y b.bottom)

theorem emptyInside_iff (ha : a.Fits) (hb : b.Fits) :
    EmptyInside a b ↔ a.intersects b = true ∧ ¬Overlap a b := by
  have hedges := ha.edges
  have hedges' := hb.edges
  simp only [EmptyInside, Shared, Between, Overlap, intersects_iff, ← toInt_inj]
  omega

/-- The operations are those on sets of points exactly where no rectangle without points stands in
the midst of the other and the rectangle around the two has sizes that are `int`s. -/
theorem rect_sets_iff (ha : a.Fits) (hb : b.Fits) :
    SetSemantics a b ↔ ¬EmptyInside a b ∧ HullFits a b := by
  rw [emptyInside_iff ha hb]
  constructor
  · intro h
    refine ⟨fun hempty => hempty.2 ?_, hullFits_of_union_contains ha h.upper⟩
    exact exists_common_iff.mp (h.intersects.mp hempty.1)
  · rintro ⟨hnot, hhull⟩
    have hintersects : a.intersects b = true ↔ Overlap a b := by
      constructor
      · exact fun h => not_not.mp fun hoverlap => hnot ⟨h, hoverlap⟩
      · intro h
        unfold Overlap at h
        rw [intersects_iff]
        omega
    obtain ⟨hinside, hwidth, hheight, hunchanged⟩ := adjustToFit_fits ha hb
    exact {
      intersect := contains_intersect ha
      intersects := hintersects.trans exists_common_iff.symm
      symmetric := intersects_symm a b
      nonempty := hintersects.trans (isEmpty_intersect ha).symm
      upper := fun _ => union_contains ha hb hhull
      least := fun _ hr _ => union_least ha hb hhull hr
      inside := hinside
      width := hwidth
      height := hheight
      unchanged := hunchanged }

/-- Two squares side by side. -/
theorem rect_sets_squares : SetSemantics (ofInts 0 0 4 4) (ofInts 4 4 4 4) := by
  refine (rect_sets_iff ⟨by decide, by decide⟩ ⟨by decide, by decide⟩).mpr ⟨?_, ?_⟩
  · rw [emptyInside_iff ⟨by decide, by decide⟩ ⟨by decide, by decide⟩]
    decide
  · exact Or.inr (Or.inr (by decide))

/-- A rectangle of no width in the midst of another one is said to intersect it. -/
theorem empty_rect_intersects :
    (ofInts 0 0 10 10).intersects (ofInts 5 5 0 2) = true ∧
      ¬SetSemantics (ofInts 0 0 10 10) (ofInts 5 5 0 2) := by
  refine ⟨by decide, fun h => ?_⟩
  have hempty := h.nonempty.mp (by decide)
  revert hempty
  decide

/-! ## Subtracting a rectangle

Subtract keeps what is outside of the other rectangle unless that one leaves a strip on either side. -/

variable {a b : Rect}

/-- The other rectangle covers all columns. -/
def SpansX (a b : Rect) : Prop := b.x.toInt ≤ a.x.toInt ∧ a.right.toInt ≤ b.right.toInt

/-- The other rectangle covers all rows. -/
def SpansY (a b : Rect) : Prop := b.y.toInt ≤ a.y.toInt ∧ a.bottom.toInt ≤ b.bottom.toInt

instance : Decidable (SpansX a b) := inferInstanceAs (Decidable (_ ∧ _))

instance : Decidable (SpansY a b) := inferInstanceAs (Decidable (_ ∧ _))

theorem subtract_eq : a.subtract b =
    if ¬a.intersects b = true then a
    else if SpansX a b ∧ SpansY a b then empty
    else if SpansY a b then
      if b.x.toInt ≤ a.x.toInt then ofEdges b.right a.y a.right a.bottom
      else ofEdges a.x a.y b.x a.bottom
    else if SpansX a b then
      if b.y.toInt ≤ a.y.toInt then ofEdges a.x b.bottom a.right a.bottom
      else ofEdges a.x a.y a.right b.y
    else ofEdges a.x a.y a.right a.bottom := by
  have hcont : b.containsRect a = true ↔ SpansX a b ∧ SpansY a b := containsRect_iff
  simp only [subtract, hcont, SpansX, SpansY, Bool.not_eq_true', Bool.not_eq_true,
    Bool.and_eq_true, decide_eq_true_eq, ge_iff_le, Int32.le_iff_toInt_le]
  rfl

theorem right_sub_x (r : Rect) : r.right - r.x = r.width := by
  rw [right, Int32.add_comm]
  exact Int32.add_sub_cancel r.width r.x

theorem bottom_sub_y (r : Rect) : r.bottom - r.y = r.height := by
  rw [bottom, Int32.add_comm]
  exact Int32.add_sub_cancel r.height r.y

theorem ofEdges_self (r : Rect) : ofEdges r.x r.y r.right r.bottom = r := by
  have hsize : Size.ofInts r.width r.height = r.size := by
    simp only [Size.ofInts, Size.clamp_of_nonneg r.width_nonneg,
      Size.clamp_of_nonneg r.height_nonneg]
    rfl
  rw [ofEdges, ofInts, right_sub_x, bottom_sub_y, hsize]
  rfl

theorem add_sub_lt {lo size : Int32} (hsize : 0 ≤ size.toInt) :
    (lo + size).toInt - lo.toInt < 2 ^ 31 := by
  have hlt := size.toInt_lt
  have hlo := lo.le_toInt
  rw [Int32.toInt_add, Int.bmod_def]
  split <;> omega

/-- Edges are not further apart than a size, also where a sum has wrapped around. -/
theorem edge_sizes (r : Rect) : r.right.toInt - r.x.toInt < 2 ^ 31 ∧
    r.bottom.toInt - r.y.toInt < 2 ^ 31 :=
  ⟨add_sub_lt r.width_nonneg, add_sub_lt r.height_nonneg⟩

theorem sub_nonneg_of_inside {lo hi lo' hi' : Int32} (hsize : hi.toInt - lo.toInt < 2 ^ 31)
    (hlo : lo.toInt ≤ lo'.toInt) (hhi : hi'.toInt ≤ hi.toInt) (h : lo'.toInt ≤ hi'.toInt) :
    0 ≤ (hi' - lo').toInt :=
  sub_nonneg h (by omega)

theorem not_contains_empty (p : Point) : ¬empty.contains p = true := by
  rw [contains_iff]
  have hright : empty.right.toInt = 0 := rfl
  have hx : empty.x.toInt = 0 := rfl
  omega

/-- Subtract keeps the points outside of the other rectangle, adds none, and is the smallest
rectangle to do so where the other one spans all columns or all rows. -/
structure Subtracts (a b : Rect) : Prop where
  keeps : ∀ p, a.contains p = true → ¬b.contains p = true → (a.subtract b).contains p = true
  inside : ∀ p, (a.subtract b).contains p = true → a.contains p = true
  least : SpansX a b ∨ SpansY a b →
    ∀ r : Rect, (∀ p, a.contains p = true → ¬b.contains p = true → r.contains p = true) →
      ∀ p, (a.subtract b).contains p = true → r.contains p = true

/-- What is left has exactly the points that are outside of the other rectangle. -/
theorem Subtracts.of_exact (h : ∀ p, (a.subtract b).contains p = true ↔
    a.contains p = true ∧ ¬b.contains p = true) : Subtracts a b where
  keeps p hp hnot := (h p).mpr ⟨hp, hnot⟩
  inside p hp := ((h p).mp hp).1
  least _ _ hr p hp := hr p ((h p).mp hp).1 ((h p).mp hp).2

/-- A rectangle with points is cut in two: the other one spans all rows with a strip on the left
and one on the right, or all columns with a strip above and one below. -/
def CutInTwo (a b : Rect) : Prop :=
  (a.x.toInt < a.right.toInt ∧ a.y.toInt < a.bottom.toInt) ∧ a.intersects b = true ∧
    ((SpansY a b ∧ a.x.toInt < b.x.toInt ∧ b.right.toInt < a.right.toInt) ∨
      (SpansX a b ∧ a.y.toInt < b.y.toInt ∧ b.bottom.toInt < a.bottom.toInt))

theorem subtract_of_spansY (hin : a.intersects b = true) (hy : SpansY a b) (hx : ¬SpansX a b)
    (p : Point) : (a.subtract b).contains p = true ↔ a.contains p = true ∧
      if b.x.toInt ≤ a.x.toInt then b.right.toInt ≤ p.x.toInt else p.x.toInt < b.x.toInt := by
  have hedges := intersects_iff.mp hin
  have hsize := a.edge_sizes.1
  have hheight : 0 ≤ (a.bottom - a.y).toInt := by
    rw [bottom_sub_y]
    exact a.height_nonneg
  rw [subtract_eq, if_neg (not_not.mpr hin), if_neg (fun h => hx h.1), if_pos hy]
  unfold SpansX at hx
  split
  · rename_i hleft
    have hwidth : 0 ≤ (a.right - b.right).toInt :=
      sub_nonneg_of_inside hsize (by omega) (Int.le_refl _) (by omega)
    rw [contains_ofEdges hwidth hheight, contains_iff]
    omega
  · rename_i hleft
    have hwidth : 0 ≤ (b.x - a.x).toInt :=
      sub_nonneg_of_inside hsize (Int.le_refl _) (by omega) (by omega)
    rw [contains_ofEdges hwidth hheight, contains_iff]
    omega

theorem subtract_of_spansX (hin : a.intersects b = true) (hx : SpansX a b) (hy : ¬SpansY a b)
    (p : Point) : (a.subtract b).contains p = true ↔ a.contains p = true ∧
      if b.y.toInt ≤ a.y.toInt then b.bottom.toInt ≤ p.y.toInt else p.y.toInt < b.y.toInt := by
  have hedges := intersects_iff.mp hin
  have hsize := a.edge_sizes.2
  have hwidth : 0 ≤ (a.right - a.x).toInt := by
    rw [right_sub_x]
    exact a.width_nonneg
  rw [subtract_eq, if_neg (not_not.mpr hin), if_neg (fun h => hy h.2), if_neg hy, if_pos hx]
  unfold SpansY at hy
  split
  · rename_i hupper
    have hheight : 0 ≤ (a.bottom - b.bottom).toInt :=
      sub_nonneg_of_inside hsize (by omega) (Int.le_refl _) (by omega)
    rw [contains_ofEdges hwidth hheight, contains_iff]
    omega
  · rename_i hupper
    have hheight : 0 ≤ (b.y - a.y).toInt :=
      sub_nonneg_of_inside hsize (Int.le_refl _) (by omega) (by omega)
    rw [contains_ofEdges hwidth hheight, contains_iff]
    omega

theorem subtracts_of_not_cut (hcut : ¬CutInTwo a b) : Subtracts a b := by
  by_cases hin : a.intersects b = true
  swap
  · refine .of_exact fun p => ?_
    rw [subtract_eq, if_pos hin, contains_iff, contains_iff]
    rw [intersects_iff] at hin
    omega
  by_cases hx : SpansX a b <;> by_cases hy : SpansY a b
  · refine .of_exact fun p => ?_
    rw [subtract_eq, if_neg (not_not.mpr hin), if_pos ⟨hx, hy⟩]
    refine iff_of_false (not_contains_empty p) ?_
    rw [contains_iff, contains_iff]
    unfold SpansX at hx
    unfold SpansY at hy
    omega
  · refine .of_exact fun p => ?_
    have hstrips : ¬((a.x.toInt < a.right.toInt ∧ a.y.toInt < a.bottom.toInt) ∧
        a.y.toInt < b.y.toInt ∧ b.bottom.toInt < a.bottom.toInt) :=
      fun h => hcut ⟨h.1, hin, Or.inr ⟨hx, h.2⟩⟩
    rw [subtract_of_spansX hin hx hy, contains_iff, contains_iff]
    unfold SpansX at hx
    unfold SpansY at hy
    split <;> omega
  · refine .of_exact fun p => ?_
    have hstrips : ¬((a.x.toInt < a.right.toInt ∧ a.y.toInt < a.bottom.toInt) ∧
        a.x.toInt < b.x.toInt ∧ b.right.toInt < a.right.toInt) :=
      fun h => hcut ⟨h.1, hin, Or.inl ⟨hy, h.2⟩⟩
    rw [subtract_of_spansY hin hy hx, contains_iff, contains_iff]
    unfold SpansX at hx
    unfold SpansY at hy
    split <;> omega
  · have hsame : a.subtract b = a := by
      rw [subtract_eq, if_neg (not_not.mpr hin), if_neg (fun h => hx h.1), if_neg hy, if_neg hx,
        ofEdges_self]
    refine ⟨fun p hp _ => ?_, fun p hp => ?_, fun hspans => ?_⟩
    · rwa [hsame]
    · rwa [hsame] at hp
    · exact absurd hspans (not_or.mpr ⟨hx, hy⟩)

/-- The last point of a rectangle that is cut in two is lost. -/
theorem not_subtracts_of_cut (hcut : CutInTwo a b) : ¬Subtracts a b := by
  intro h
  obtain ⟨⟨hx, hy⟩, hin, hcut⟩ := hcut
  have hone : (1 : Int32).toInt = 1 := rfl
  have hlo := a.x.le_toInt
  have hlo' := a.y.le_toInt
  have hhi := a.right.toInt_lt
  have hhi' := a.bottom.toInt_lt
  have hright : (a.right - 1).toInt = a.right.toInt - 1 := toInt_sub_of_fits (by omega) (by omega)
  have hbottom : (a.bottom - 1).toInt = a.bottom.toInt - 1 :=
    toInt_sub_of_fits (by omega) (by omega)
  have hlast : a.contains ⟨a.right - 1, a.bottom - 1⟩ = true := by
    rw [contains_iff, hright, hbottom]
    omega
  have hedges := intersects_iff.mp hin
  have hkept := h.keeps _ hlast (by rw [contains_iff, hright, hbottom]; omega)
  obtain ⟨hspans, hstrip⟩ | ⟨hspans, hstrip⟩ := hcut
  · have hnot : ¬SpansX a b := by
      unfold SpansX
      omega
    rw [subtract_of_spansY hin hspans hnot, if_neg (by omega), hright] at hkept
    omega
  · have hnot : ¬SpansY a b := by
      unfold SpansY
      omega
    rw [subtract_of_spansX hin hspans hnot, if_neg (by omega), hbottom] at hkept
    omega

/-- Subtract does what it is for exactly when the other rectangle does not cut this one in two. -/
theorem subtract_sets_iff (a b : Rect) : Subtracts a b ↔ ¬CutInTwo a b :=
  ⟨fun h hcut => not_subtracts_of_cut hcut h, subtracts_of_not_cut⟩

/-- What is to the right of a column across a square is lost. -/
theorem middle_column_loses_points :
    (ofInts 0 0 10 10).subtract (ofInts 3 (-1) 2 12) = ofInts 0 0 3 10 ∧
      ¬Subtracts (ofInts 0 0 10 10) (ofInts 3 (-1) 2 12) := by
  refine ⟨by decide, fun h => ?_⟩
  have hlost := h.keeps ⟨7, 7⟩ (by decide) (by decide)
  revert hlost
  decide

end ChromiumUI.Gfx.Rect
