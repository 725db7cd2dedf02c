import ChromiumUI.TextRange
import ChromiumUI.Runs
import ChromiumUI.Tilings

/-!
# RenderText

The styled text under a textfield: text, selection, composition range and the
list of style ranges. Everything a platform subclass decides (cursorable
positions, visual order, word breaks) is a field of `Layout`, left arbitrary.
-/
namespace ChromiumUI.Gfx

open Ui

abbrev String16 := List UInt16

inductive LogicalCursorDirection where
  | backward | forward
  deriving DecidableEq, Repr

inductive VisualCursorDirection where
  | left | right
  deriving DecidableEq, Repr

inductive BreakType where
  | characterBreak | wordBreak | lineBreak
  deriving DecidableEq, Repr

inductive TextDirection where
  | leftToRight | rightToLeft
  deriving DecidableEq, Repr

structure SelectionModel where
  selection : Range
  caretAffinity : LogicalCursorDirection
  deriving DecidableEq, Repr

namespace SelectionModel

/-- `SelectionModel()`. -/
def default : SelectionModel := ⟨⟨0, 0⟩, .backward⟩

def atPosition (position : Nat) (affinity : LogicalCursorDirection) : SelectionModel :=
  ⟨⟨position, position⟩, affinity⟩

def caretPos (m : SelectionModel) : Nat := m.selection.end_

def setSelectionStart (m : SelectionModel) (start : Nat) : SelectionModel :=
  { m with selection := { m.selection with start := start } }

end SelectionModel

structure StyleRange where
  foreground : UInt32
  fontStyle : Int
  strike : Bool
  diagonalStrike : Bool
  underline : Bool
  range : Range
  deriving DecidableEq, Repr

/-- SK_ColorBLACK. -/
def colorBlack : UInt32 := 0xFF000000

/-- `StyleRange()`: black, normal, over the empty range at zero. -/
def StyleRange.default : StyleRange := ⟨colorBlack, 0, false, false, false, ⟨0, 0⟩⟩

def StyleRange.setStart (r : StyleRange) (start : Nat) : StyleRange :=
  { r with range := { r.range with start := start } }

def StyleRange.setEnd (r : StyleRange) (end_ : Nat) : StyleRange :=
  { r with range := { r.range with end_ := end_ } }

structure RenderText where
  text : String16
  selectionModel : SelectionModel
  cursorVisible : Bool
  insertMode : Bool
  selectionColor : UInt32
  focused : Bool
  compositionRange : Range
  styleRanges : List StyleRange
  defaultStyle : StyleRange
  obscured : Bool
  deriving DecidableEq, Repr

/-- The constructor's state. -/
def RenderText.new : RenderText :=
  ⟨[], .default, false, true, colorBlack, false, .invalidRange, [], .default, false⟩

/-- What the platform subclass computes from its own layout of the text. -/
structure Layout where
  isCursorablePosition : RenderText → Nat → Bool
  getTextDirection : RenderText → TextDirection
  adjacentCharSelectionModel : RenderText → SelectionModel → VisualCursorDirection → SelectionModel
  adjacentWordSelectionModel : RenderText → SelectionModel → VisualCursorDirection → SelectionModel
  /-- `GetCursorBounds(model, true).x()`. -/
  getCursorX : RenderText → SelectionModel → Int
  findCursorPosition : RenderText → Int × Int → SelectionModel
  /-- Whether the word-break iterator over the text could be made. -/
  breakIteratorInit : RenderText → Bool
  isStartOfWord : RenderText → Nat → Bool
  isEndOfWord : RenderText → Nat → Bool

/-- The layout of left-to-right text in one-unit characters, one word in all. -/
def Layout.plain : Layout where
  isCursorablePosition _ _ := true
  getTextDirection _ := .leftToRight
  adjacentCharSelectionModel _ m d :=
    if d = .right then .atPosition (m.caretPos + 1) .backward
    else .atPosition (m.caretPos - 1) .forward
  adjacentWordSelectionModel rt _ d :=
    if d = .right then .atPosition rt.text.length .backward else .atPosition 0 .forward
  getCursorX _ m := m.caretPos
  findCursorPosition _ point := .atPosition point.1.toNat .backward
  breakIteratorInit _ := true
  isStartOfWord _ position := position == 0
  isEndOfWord rt position := position == rt.text.length

/-- The loop of ApplyStyleRangeImpl from the iterator on. `none` is the NOTREACHED
branch, which logs and leaves the iterator where it is: the loop never ends. -/
def applyStyleRangeImpl (styleRange : StyleRange) : List StyleRange → Option (List StyleRange)
  | [] => some [styleRange]
  | i :: rest =>
    let newRange := styleRange.range
    if i.range.end_ < newRange.start then
      (applyStyleRangeImpl styleRange rest).map (i :: ·)
    else if i.range.start = newRange.end_ then
      some (styleRange :: i :: rest)
    else if newRange.contains i.range then
      applyStyleRangeImpl styleRange rest
    else if i.range.start < newRange.start ∧ i.range.end_ > newRange.end_ then
      some (i.setEnd newRange.start :: styleRange :: i.setStart newRange.end_ :: rest)
    else if i.range.start < newRange.start then
      (applyStyleRangeImpl styleRange rest).map (i.setEnd newRange.start :: ·)
    else if i.range.end_ > newRange.end_ then
      some (styleRange :: i.setStart newRange.end_ :: rest)
    else
      none

/-- `style_ranges_.back().range.set_end(end)`; the vector is never empty there. -/
def setBackEnd (end_ : Nat) : List StyleRange → List StyleRange
  | [] => []
  | [r] => [r.setEnd end_]
  | r :: rest => r :: setBackEnd end_ rest

namespace RenderText

section

variable (rt : RenderText)

def selection : Range := rt.selectionModel.selection

def cursorPosition : Nat := rt.selectionModel.caretPos

def setSelectionModel (model : SelectionModel) : RenderText :=
  { rt with selectionModel := model }

def applyDefaultStyle : RenderText :=
  { rt with styleRanges := [rt.defaultStyle.setEnd rt.text.length] }

/-- The style ranges SetText leaves, from the ranges and length of the old text. -/
def adjustStyleRanges (text : String16) : List StyleRange :=
  if text.isEmpty then
    []
  else if rt.styleRanges.isEmpty then
    (applyDefaultStyle { rt with text := text }).styleRanges
  else if text.length > rt.text.length then
    setBackEnd text.length rt.styleRanges
  else if text.length < rt.text.length then
    -- erase from the first range that starts at or past the new end
    setBackEnd text.length
      (rt.styleRanges.takeWhile (fun i => decide (i.range.start < text.length)))
  else
    rt.styleRanges

def setText (text : String16) : RenderText :=
  setSelectionModel { rt with text := text, styleRanges := rt.adjustStyleRanges text } .default

end

section

variable (l : Layout)

variable (rt : RenderText)

/-- MoveCursorTo(const SelectionModel&), with its result. -/
def moveCursorToModel (model : SelectionModel) :
    RenderText × Bool :=
  let range : Range :=
    ⟨min model.selection.start rt.text.length, min model.caretPos rt.text.length⟩
  if !l.isCursorablePosition rt range.start || !l.isCursorablePosition rt range.end_ then
    (rt, false)
  else
    let sel : SelectionModel := ⟨range, model.caretAffinity⟩
    (rt.setSelectionModel sel, sel != rt.selectionModel)

/-- MoveCursorTo(size_t, bool). -/
def moveCursorTo (position : Nat) (select : Bool) : RenderText :=
  let cursor := min position rt.text.length
  if l.isCursorablePosition rt cursor then
    rt.setSelectionModel ⟨⟨if select then rt.selection.start else cursor, cursor⟩,
      if cursor = 0 then .forward else .backward⟩
  else
    rt

/-- MoveCursorTo(const Point&, bool). -/
def moveCursorToPoint (point : Int × Int) (select : Bool) :
    RenderText × Bool :=
  let position := l.findCursorPosition rt point
  rt.moveCursorToModel l
    (if select then position.setSelectionStart rt.selection.start else position)

def setCursorPosition (position : Nat) : RenderText :=
  rt.moveCursorTo l position false

def getVisualDirectionOfLogicalEnd : VisualCursorDirection :=
  if l.getTextDirection rt = .leftToRight then .right else .left

def edgeSelectionModel (direction : VisualCursorDirection) :
    SelectionModel :=
  if direction = rt.getVisualDirectionOfLogicalEnd l then
    .atPosition rt.text.length .forward
  else
    .atPosition 0 .backward

def getAdjacentSelectionModel (current : SelectionModel)
    (breakType : BreakType) (direction : VisualCursorDirection) : SelectionModel :=
  if breakType = .lineBreak ∨ rt.text.isEmpty then
    rt.edgeSelectionModel l direction
  else if breakType = .characterBreak then
    l.adjacentCharSelectionModel rt current direction
  else
    l.adjacentWordSelectionModel rt current direction

end

def getSelectionModelForSelectionStart (rt : RenderText) : SelectionModel :=
  if rt.selection.isEmpty then
    rt.selectionModel
  else
    .atPosition rt.selection.start (if rt.selection.isReversed then .backward else .forward)

def moveCursor (l : Layout) (rt : RenderText) (breakType : BreakType)
    (direction : VisualCursorDirection) (select : Bool) : RenderText :=
  let position := SelectionModel.atPosition rt.cursorPosition rt.selectionModel.caretAffinity
  let position :=
    if breakType ≠ .lineBreak ∧ !rt.selection.isEmpty ∧ !select then
      let selectionStart := rt.getSelectionModelForSelectionStart
      let startX := l.getCursorX rt selectionStart
      let cursorX := l.getCursorX rt position
      let position :=
        if (if direction = .right then decide (startX > cursorX) else decide (startX < cursorX)) then
          selectionStart
        else
          position
      if breakType = .wordBreak then
        rt.getAdjacentSelectionModel l position breakType direction
      else
        position
    else
      rt.getAdjacentSelectionModel l position breakType direction
  let position := if select then position.setSelectionStart rt.selection.start else position
  (rt.moveCursorToModel l position).1

def selectRange (l : Layout) (rt : RenderText) (range : Range) : RenderText × Bool :=
  let sel : Range := ⟨min range.start rt.text.length, min range.end_ rt.text.length⟩
  if !l.isCursorablePosition rt sel.start || !l.isCursorablePosition rt sel.end_ then
    (rt, false)
  else
    let affinity : LogicalCursorDirection :=
      if sel.isReversed || sel.isEmpty then .forward else .backward
    (rt.setSelectionModel ⟨sel, affinity⟩, true)

def clearSelection (rt : RenderText) : RenderText :=
  rt.setSelectionModel (.atPosition rt.cursorPosition rt.selectionModel.caretAffinity)

def selectAll (l : Layout) (rt : RenderText) : RenderText :=
  if l.getTextDirection rt = .leftToRight then
    rt.setSelectionModel ⟨⟨0, rt.text.length⟩, .forward⟩
  else
    rt.setSelectionModel ⟨⟨rt.text.length, 0⟩, .backward⟩

/-- The first loop of SelectWord: back to the nearest word edge, or to zero. -/
def wordStart (l : Layout) (rt : RenderText) : Nat → Nat
  | 0 => 0
  | n + 1 =>
    if l.isStartOfWord rt (n + 1) || l.isEndOfWord rt (n + 1) then n + 1 else wordStart l rt n

/-- The second loop of SelectWord, with the positions left before the text ends. -/
def wordEnd (l : Layout) (rt : RenderText) (cursorPos : Nat) : Nat → Nat
  | 0 => cursorPos
  | n + 1 =>
    if l.isEndOfWord rt cursorPos || l.isStartOfWord rt cursorPos then cursorPos
    else wordEnd l rt (cursorPos + 1) n

def selectWord (l : Layout) (rt : RenderText) : RenderText :=
  if rt.obscured then
    rt.selectAll l
  else if !l.breakIteratorInit rt then
    rt
  else
    let cursorPos := rt.cursorPosition
    let selectionStart := rt.wordStart l cursorPos
    let cursorPos := if selectionStart = cursorPos then cursorPos + 1 else cursorPos
    let cursorPos := rt.wordEnd l cursorPos (rt.text.length - cursorPos)
    (rt.moveCursorTo l selectionStart false).moveCursorTo l cursorPos true

/-- The forward loop of IndexOfAdjacentGrapheme, with the positions left in the text. -/
def nextGrapheme (l : Layout) (rt : RenderText) (index : Nat) : Nat → Nat
  | 0 => rt.text.length
  | n + 1 =>
    if l.isCursorablePosition rt (index + 1) then index + 1 else nextGrapheme l rt (index + 1) n

theorem nextGrapheme_bounds (l : Layout) (rt : RenderText) (index n : Nat) (hn : 0 < n)
    (h : index + n = rt.text.length) :
    index < rt.nextGrapheme l index n ∧ rt.nextGrapheme l index n ≤ rt.text.length := by
  induction n generalizing index with
  | zero => omega
  | succ n ih =>
    simp only [nextGrapheme]
    split
    · omega
    · cases n with
      | zero =>
        simp only [nextGrapheme]
        omega
      | succ n =>
        have := ih (index + 1) (by omega) (by omega)
        omega

/-- The backward loop of IndexOfAdjacentGrapheme. -/
def previousGrapheme (l : Layout) (rt : RenderText) : Nat → Nat
  | 0 => 0
  | index + 1 => if l.isCursorablePosition rt index then index else previousGrapheme l rt index

def indexOfAdjacentGrapheme (l : Layout) (rt : RenderText) (index : Nat)
    (direction : LogicalCursorDirection) : Nat :=
  if index > rt.text.length then
    rt.text.length
  else if direction = .forward then
    rt.nextGrapheme l index (rt.text.length - index)
  else
    rt.previousGrapheme l index

/-- Forward from inside the text, the grapheme boundary is further on and still in the text. -/
theorem indexOfAdjacentGrapheme_forward (l : Layout) (rt : RenderText) {index : Nat}
    (h : index < rt.text.length) :
    index < rt.indexOfAdjacentGrapheme l index .forward ∧
      rt.indexOfAdjacentGrapheme l index .forward ≤ rt.text.length := by
  simp only [indexOfAdjacentGrapheme, if_neg (Nat.not_lt.mpr (Nat.le_of_lt h)), if_true]
  exact rt.nextGrapheme_bounds l index _ (by omega) (by omega)

/-- SetCompositionRange; `none` when its CHECK fails. -/
def setCompositionRange (rt : RenderText) (compositionRange : Range) : Option RenderText :=
  if !compositionRange.isValid || (Range.mk 0 rt.text.length).contains compositionRange then
    some { rt with compositionRange := compositionRange }
  else
    none

/-- ApplyStyleRange; `none` when one of its CHECKs fails or its loop never ends. -/
def applyStyleRange (rt : RenderText) (styleRange : StyleRange) : Option RenderText :=
  let newRange := styleRange.range
  if !newRange.isValid || newRange.isEmpty then
    some rt
  else if newRange.isReversed || !(Range.mk 0 rt.text.length).contains newRange then
    none
  else
    (applyStyleRangeImpl styleRange rt.styleRanges).map
      (fun styleRanges => { rt with styleRanges := styleRanges })

/-- One of the three guarded overrides of ApplyCompositionAndSelectionStyles. -/
def overrideStyle (wanted : Bool) (styleRange : StyleRange) (styleRanges : List StyleRange) :
    Option (List StyleRange) :=
  if wanted then applyStyleRangeImpl styleRange styleRanges else some styleRanges

/-- ApplyCompositionAndSelectionStyles on a copy of the style ranges. -/
def applyCompositionAndSelectionStyles (l : Layout) (rt : RenderText)
    (styleRanges : List StyleRange) : Option (List StyleRange) := do
  let compositionStyle := { rt.defaultStyle with underline := true, range := rt.compositionRange }
  let styleRanges ← overrideStyle
    (rt.compositionRange.isValid && !rt.compositionRange.isEmpty) compositionStyle styleRanges
  let selectionStyle := { rt.defaultStyle with
    foreground := rt.selectionColor, range := ⟨rt.selection.getMin, rt.selection.getMax⟩ }
  let styleRanges ← overrideStyle (!rt.selection.isEmpty) selectionStyle styleRanges
  let cursor := rt.cursorPosition
  let replacementModeStyle := { rt.defaultStyle with
    foreground := rt.selectionColor
    range := ⟨cursor, rt.indexOfAdjacentGrapheme l cursor .forward⟩ }
  overrideStyle (!rt.insertMode && rt.cursorVisible && rt.focused) replacementModeStyle styleRanges

end RenderText

/-! ## The style ranges of a RenderText

What CheckStyleRanges asserts, as a tiling of the text: kept by every operation
except ApplyDefaultStyle on the empty text, which leaves one empty range behind. -/

open Tilings Runs StyleRange

/-- What CheckStyleRanges asserts of the ranges of a text of this length. -/
structure StyleRangesOk (length : Nat) (styleRanges : List StyleRange) : Prop where
  empty_iff : styleRanges = [] ↔ length = 0
  forward : ∀ i ∈ styleRanges, i.range.isValid ∧ i.range.start < i.range.end_
  starts : ∀ i ∈ styleRanges.head?, i.range.start = 0
  chained : styleRanges.IsChain (fun former latter => former.range.end_ = latter.range.start)
  ends : ∀ i ∈ styleRanges.getLast?, i.range.end_ = length

/-- The ranges tile the positions from `a` to `b`. -/
abbrev StyleTiles (b a : Nat) (styleRanges : List StyleRange) : Prop :=
  Tiles (fun i => i.range.start) (fun i => i.range.end_) b a styleRanges

theorem styleRangesOk_iff_tiles (length : Nat) (styleRanges : List StyleRange) :
    StyleRangesOk length styleRanges ↔ StyleTiles length 0 styleRanges := by
  rw [StyleTiles, tiles_iff]
  constructor
  · rintro ⟨he, hf, hs, hc, hl⟩
    exact ⟨fun h => (he.mp h).symm, fun i hi => (hf i hi).2, hs, hc, hl⟩
  · intro h
    have ht : StyleTiles length 0 styleRanges := tiles_iff.mpr h
    obtain ⟨-, hf, hs, hc, hl⟩ := h
    refine ⟨?_, fun i hi => ⟨Range.isValid_of_ne (Nat.ne_of_lt (hf i hi)), hf i hi⟩, hs, hc, hl⟩
    rw [ht.eq_nil_iff]
    exact eq_comm

/-- The loop of ApplyStyleRangeImpl: before it meets the new range the ranges
behind the iterator stay; once it has, the new range takes over from its start. -/
theorem applyStyleRangeImpl_tiles {styleRange : StyleRange} {n a : Nat} {rest : List StyleRange}
    (hnew : styleRange.range.start < styleRange.range.end_) (hn : styleRange.range.end_ ≤ n)
    (ha : a ≤ styleRange.range.end_) (h : StyleTiles n a rest) :
    ∃ out, applyStyleRangeImpl styleRange rest = some out ∧
      StyleTiles n (min a styleRange.range.start) out := by
  induction rest generalizing a with
  | nil =>
    refine ⟨[styleRange], rfl, ?_⟩
    have : a = n := h
    simp only [StyleTiles, tiles_cons, tiles_nil]
    omega
  | cons i rest ih =>
    obtain ⟨hlo, hlt, hrest⟩ := h
    simp only at hlo hlt hrest
    simp only [applyStyleRangeImpl, Range.contains_forward hnew (by omega : i.range.start < i.range.end_)]
    split_ifs with hskip hbreak hcont hsplit htrim hright
    · obtain ⟨out, hout, ht⟩ := ih (by omega) hrest
      refine ⟨i :: out, by rw [hout]; rfl, ?_⟩
      rw [Nat.min_eq_left (by omega)] at ht
      simp only [StyleTiles, tiles_cons]
      exact ⟨by omega, by omega, ht⟩
    · refine ⟨_, rfl, ?_⟩
      simp only [StyleTiles, tiles_cons]
      exact ⟨by omega, by omega, by omega, by omega, hrest⟩
    · obtain ⟨out, hout, ht⟩ := ih (by omega) hrest
      refine ⟨out, hout, ?_⟩
      rwa [show min a styleRange.range.start = min i.range.end_ styleRange.range.start by omega]
    · refine ⟨_, rfl, ?_⟩
      simp only [StyleTiles, tiles_cons, setEnd, setStart]
      exact ⟨by omega, by omega, trivial, by omega, trivial, by omega, hrest⟩
    · obtain ⟨out, hout, ht⟩ := ih (by omega) hrest
      refine ⟨_, by rw [hout]; rfl, ?_⟩
      rw [Nat.min_eq_right (by omega)] at ht
      simp only [StyleTiles, tiles_cons, setEnd]
      exact ⟨by omega, by omega, ht⟩
    · refine ⟨_, rfl, ?_⟩
      simp only [StyleTiles, tiles_cons, setStart]
      exact ⟨by omega, by omega, trivial, by omega, hrest⟩
    · omega

/-- Moving the end of the last range to `n` keeps a tiling, if every range starts before `n`. -/
theorem setBackEnd_tiles {a b n : Nat} {styleRanges : List StyleRange} (hne : styleRanges ≠ [])
    (hn : ∀ i ∈ styleRanges, i.range.start < n) (h : StyleTiles b a styleRanges) :
    StyleTiles n a (setBackEnd n styleRanges) := by
  induction styleRanges generalizing a with
  | nil => exact absurd rfl hne
  | cons i rest ih =>
    obtain ⟨hlo, hlt, hrest⟩ := h
    simp only at hlo hlt hrest
    cases rest with
    | nil =>
      have := hn i (by simp)
      simp only [setBackEnd, StyleTiles, tiles_cons, tiles_nil, setEnd]
      exact ⟨hlo, by omega, trivial⟩
    | cons j rest =>
      have htail : StyleTiles n i.range.end_ (setBackEnd n (j :: rest)) :=
        ih (by simp) (fun k hk => hn k (List.mem_cons_of_mem i hk)) hrest
      simp only [setBackEnd, StyleTiles, tiles_cons]
      exact ⟨hlo, hlt, htail⟩

namespace RenderText

/-- The ranges SetText leaves tile the new text, longer or shorter than the old one. -/
theorem adjustStyleRanges_tiles {rt : RenderText} {text : String16}
    (hdefault : rt.defaultStyle.range.start = 0) (h : StyleTiles rt.text.length 0 rt.styleRanges) :
    StyleTiles text.length 0 (rt.adjustStyleRanges text) := by
  simp only [adjustStyleRanges, List.isEmpty_iff]
  split_ifs with hempty hnone hlonger hshorter
  · simp [hempty]
  · have hpos := List.length_pos_of_ne_nil hempty
    simp only [applyDefaultStyle, StyleTiles, tiles_cons, tiles_nil, setEnd]
    exact ⟨hdefault, hpos, trivial⟩
  · refine setBackEnd_tiles hnone (fun i hi => ?_) h
    have hlt : i.range.start < i.range.end_ := h.lo_lt hi
    have hle : i.range.end_ ≤ rt.text.length := h.hi_le hi
    omega
  · have hpos := List.length_pos_of_ne_nil hempty
    have hsplit := List.takeWhile_append_dropWhile (l := rt.styleRanges)
      (p := fun i => decide (i.range.start < text.length))
    obtain ⟨c, hkept, -⟩ := tiles_append.mp (hsplit ▸ h)
    refine setBackEnd_tiles ?_ (fun i hi => by simpa using List.mem_takeWhile_imp hi) hkept
    -- the first range starts at 0, so it is never erased
    cases hranges : rt.styleRanges with
    | nil => exact absurd hranges hnone
    | cons i rest =>
      rw [hranges] at h
      have hzero : i.range.start = 0 := h.1
      simp [hzero, hpos]
  · rwa [show text.length = rt.text.length by omega]

/-- ApplyDefaultStyle keeps the claim of CheckStyleRanges exactly when there is a text. -/
theorem applyDefaultStyle_ok_iff {rt : RenderText} (hdefault : rt.defaultStyle.range.start = 0) :
    StyleRangesOk rt.applyDefaultStyle.text.length rt.applyDefaultStyle.styleRanges ↔
      rt.text ≠ [] := by
  rw [styleRangesOk_iff_tiles]
  simp only [applyDefaultStyle, StyleTiles, tiles_cons, tiles_nil, setEnd, and_true]
  rw [← List.length_pos_iff]
  exact and_iff_right hdefault

end RenderText

/-- The operations that touch the style ranges or what is drawn over them. -/
inductive StyleOp where
  | setText (text : String16)
  | applyStyleRange (styleRange : StyleRange)
  | applyDefaultStyle
  | setCompositionRange (range : Range)
  | setSelectionModel (model : SelectionModel)
  | setCursorMode (insertMode cursorVisible focused : Bool)
  | applyCompositionAndSelectionStyles

/-- One operation; refused when a CHECK fails or its range is not a valid forward one.
The composition and selection styles go to a copy that is used for drawing only. -/
def styleStep (l : Layout) (rt : RenderText) : StyleOp → Option RenderText
  | .setText text => some (rt.setText text)
  | .applyStyleRange styleRange => rt.applyStyleRange styleRange
  | .applyDefaultStyle => some rt.applyDefaultStyle
  | .setCompositionRange range => rt.setCompositionRange range
  | .setSelectionModel model =>
    if model.selection.getMax ≤ rt.text.length then some (rt.setSelectionModel model) else none
  | .setCursorMode insertMode cursorVisible focused =>
    some { rt with insertMode := insertMode, cursorVisible := cursorVisible, focused := focused }
  | .applyCompositionAndSelectionStyles =>
    (rt.applyCompositionAndSelectionStyles l rt.styleRanges).map (fun _ => rt)

/-- No ApplyDefaultStyle in the sequence meets an empty text. -/
def DefaultStyleOnText : String16 → List StyleOp → Prop
  | _, [] => True
  | _, .setText text :: ops => DefaultStyleOnText text ops
  | text, .applyDefaultStyle :: ops => text ≠ [] ∧ DefaultStyleOnText text ops
  | text, _ :: ops => DefaultStyleOnText text ops

/-- A step other than SetText and ApplyDefaultStyle keeps text and default style, and
a tiling if there was one. -/
theorem styleStep_other {l : Layout} {rt rt' : RenderText} {op : StyleOp}
    (h : styleStep l rt op = some rt') (hset : ∀ text, op ≠ .setText text)
    (hdefault : op ≠ .applyDefaultStyle) :
    rt'.text = rt.text ∧ rt'.defaultStyle = rt.defaultStyle ∧
      (rt'.styleRanges = rt.styleRanges ∨
        ∃ styleRange, styleRange.range.start < styleRange.range.end_ ∧
          styleRange.range.end_ ≤ rt.text.length ∧
          applyStyleRangeImpl styleRange rt.styleRanges = some rt'.styleRanges) := by
  cases op with
  | setText text => exact absurd rfl (hset text)
  | applyDefaultStyle => exact absurd rfl hdefault
  | applyStyleRange styleRange =>
    simp only [styleStep, RenderText.applyStyleRange] at h
    split_ifs at h with hskip hbad
    · cases h
      exact ⟨rfl, rfl, .inl rfl⟩
    · obtain ⟨out, hout, rfl⟩ := Option.map_eq_some_iff.mp h
      simp only [Bool.or_eq_true, Bool.not_eq_true', not_or, Bool.not_eq_false,
        Range.isEmpty_iff, Range.isReversed_iff] at hskip hbad
      refine ⟨rfl, rfl, .inr ⟨styleRange, by omega, ?_, hout⟩⟩
      have hcont := hbad.2
      simp only [Range.contains, Bool.and_eq_true, decide_eq_true_eq] at hcont
      simp only [Range.getMax] at hcont
      omega
  | setCompositionRange range =>
    simp only [styleStep, RenderText.setCompositionRange] at h
    split_ifs at h
    cases h
    exact ⟨rfl, rfl, .inl rfl⟩
  | setSelectionModel model =>
    simp only [styleStep] at h
    split_ifs at h
    cases h
    exact ⟨rfl, rfl, .inl rfl⟩
  | setCursorMode insertMode cursorVisible focused =>
    cases h
    exact ⟨rfl, rfl, .inl rfl⟩
  | applyCompositionAndSelectionStyles =>
    obtain ⟨styled, -, rfl⟩ := Option.map_eq_some_iff.mp h
    exact ⟨rfl, rfl, .inl rfl⟩

/-- From ranges that tile the text, the sequence keeps them so exactly when no
ApplyDefaultStyle in it meets an empty text. -/
theorem throughout_ok_iff_defaultStyleOnText (l : Layout) {ops : List StyleOp}
    {rt rt' : RenderText} (hrun : run (styleStep l) ops rt = some rt')
    (hdefault : rt.defaultStyle.range.start = 0) (h : StyleTiles rt.text.length 0 rt.styleRanges) :
    Throughout (styleStep l) (fun rt => StyleRangesOk rt.text.length rt.styleRanges) ops rt ↔
      DefaultStyleOnText rt.text ops := by
  induction ops generalizing rt with
  | nil => simpa [DefaultStyleOnText, styleRangesOk_iff_tiles] using h
  | cons op ops ih =>
    obtain ⟨next, hstep, hnext⟩ := run_cons_some hrun
    rw [throughout_cons hstep, styleRangesOk_iff_tiles, and_iff_right h]
    by_cases hdef : op = .applyDefaultStyle
    · subst hdef
      cases hstep
      have hok := RenderText.applyDefaultStyle_ok_iff hdefault
      simp only [DefaultStyleOnText]
      constructor
      · intro hall
        have hne := hok.mp (hall [] List.nil_prefix _ rfl)
        exact ⟨hne, (ih hnext hdefault ((styleRangesOk_iff_tiles _ _).mp (hok.mpr hne))).mp hall⟩
      · rintro ⟨hne, hops⟩
        exact (ih hnext hdefault ((styleRangesOk_iff_tiles _ _).mp (hok.mpr hne))).mpr hops
    · by_cases hset : ∃ text, op = .setText text
      · obtain ⟨text, rfl⟩ := hset
        cases hstep
        exact ih hnext hdefault (RenderText.adjustStyleRanges_tiles hdefault h)
      · have hother := styleStep_other hstep (fun text he => hset ⟨text, he⟩) hdef
        obtain ⟨htext, hstyle, hranges⟩ := hother
        have htiles : StyleTiles next.text.length 0 next.styleRanges := by
          rw [htext]
          rcases hranges with hranges | ⟨styleRange, hlt, hle, happly⟩
          · rwa [hranges]
          · obtain ⟨out, hout, ht⟩ := applyStyleRangeImpl_tiles hlt hle (Nat.zero_le _) h
            rw [happly] at hout
            cases hout
            simpa using ht
        rw [ih hnext (hstyle ▸ hdefault) htiles, htext]
        cases op <;> first | rfl | exact absurd rfl hdef | exact absurd ⟨_, rfl⟩ hset

/-- Over every allowed sequence from the constructor's state, the style ranges are as
CheckStyleRanges asserts in every state met exactly when ApplyDefaultStyle is never
called on the empty text. -/
theorem style_ranges_ok_iff (l : Layout) (ops : List StyleOp) (rt : RenderText)
    (hrun : run (styleStep l) ops .new = some rt) :
    Throughout (styleStep l) (fun rt => StyleRangesOk rt.text.length rt.styleRanges) ops .new ↔
      DefaultStyleOnText [] ops :=
  throughout_ok_iff_defaultStyleOnText l hrun rfl rfl

/-- A text, an underline inside it, its default style again and a shorter text. -/
theorem style_ranges_ok_iff_underlined :
    ∃ rt, run (styleStep .plain) [.setText [97, 98, 99],
        .applyStyleRange { default with underline := true, range := ⟨1, 2⟩ },
        .applyDefaultStyle, .setText [97]] .new = some rt ∧
      (Throughout (styleStep .plain) (fun rt => StyleRangesOk rt.text.length rt.styleRanges)
        [.setText [97, 98, 99],
          .applyStyleRange { default with underline := true, range := ⟨1, 2⟩ },
          .applyDefaultStyle, .setText [97]] .new ↔
        DefaultStyleOnText [] [.setText [97, 98, 99],
          .applyStyleRange { default with underline := true, range := ⟨1, 2⟩ },
          .applyDefaultStyle, .setText [97]]) :=
  ⟨_, rfl, style_ranges_ok_iff .plain _ _ rfl⟩

/-- ApplyDefaultStyle on a new RenderText leaves a range over no text. -/
theorem style_ranges_not_ok_after_default :
    ¬ Throughout (styleStep .plain) (fun rt => StyleRangesOk rt.text.length rt.styleRanges)
      [.applyDefaultStyle] .new := by
  intro h
  have hok := h [.applyDefaultStyle] (List.prefix_refl _) RenderText.new.applyDefaultStyle rfl
  exact (RenderText.applyDefaultStyle_ok_iff rfl).mp hok rfl

/-! ## What ApplyStyleRangeImpl does to the style of each index

The ranges as a function from the indices of the text to their styles: the loop overwrites it on
the new range and nowhere else. -/

/-- A StyleRange but for its range. -/
structure Style where
  foreground : UInt32
  fontStyle : Int
  strike : Bool
  diagonalStrike : Bool
  underline : Bool
  deriving DecidableEq, Repr

def StyleRange.style (r : StyleRange) : Style :=
  ⟨r.foreground, r.fontStyle, r.strike, r.diagonalStrike, r.underline⟩

/-- The style of an index: that of the first range around it. -/
def styleAt : List StyleRange → Nat → Option Style
  | [], _ => none
  | i :: rest, k => if i.range.start ≤ k ∧ k < i.range.end_ then some i.style else styleAt rest k

@[simp] theorem styleAt_nil (k : Nat) : styleAt [] k = none := rfl

theorem styleAt_cons (i : StyleRange) (rest : List StyleRange) (k : Nat) :
    styleAt (i :: rest) k =
      if i.range.start ≤ k ∧ k < i.range.end_ then some i.style else styleAt rest k := rfl

/-- The loop overwrites the styles on the new range and keeps all others. -/
theorem styleAt_applyStyleRangeImpl {styleRange : StyleRange} {n a : Nat}
    {rest out : List StyleRange} (hnew : styleRange.range.start < styleRange.range.end_)
    (ha : a ≤ styleRange.range.end_) (h : StyleTiles n a rest)
    (hout : applyStyleRangeImpl styleRange rest = some out) (k : Nat) :
    styleAt out k = if styleRange.range.start ≤ k ∧ k < styleRange.range.end_ then
      some styleRange.style else styleAt rest k := by
  induction rest generalizing a out with
  | nil =>
    cases hout
    rfl
  | cons i rest ih =>
    obtain ⟨hlo, hlt, hrest⟩ := h
    simp only at hlo hlt hrest
    simp only [applyStyleRangeImpl,
      Range.contains_forward hnew (by omega : i.range.start < i.range.end_)] at hout
    split_ifs at hout with hskip hbreak hcont hsplit htrim hright
    · -- the range ends before the new one
      obtain ⟨tail, htail, rfl⟩ := Option.map_eq_some_iff.mp hout
      rw [styleAt_cons, styleAt_cons, ih (by omega) hrest htail]
      split_ifs <;> first | rfl | omega
    · -- the range starts where the new one ends
      cases hout
      rw [styleAt_cons]
    · -- the range is covered by the new one
      rw [styleAt_cons, ih (by omega) hrest hout]
      split_ifs <;> first | rfl | omega
    · -- the range is split in two
      cases hout
      simp only [styleAt_cons, StyleRange.setEnd, StyleRange.setStart, StyleRange.style]
      split_ifs <;> first | rfl | omega
    · -- the range loses its end
      obtain ⟨tail, htail, rfl⟩ := Option.map_eq_some_iff.mp hout
      simp only [styleAt_cons, ih (by omega) hrest htail, StyleRange.setEnd, StyleRange.style]
      split_ifs <;> first | rfl | omega
    · -- the range loses its start
      cases hout
      simp only [styleAt_cons, StyleRange.setStart, StyleRange.style]
      split_ifs <;> first | rfl | omega

/-- From ranges that partition the text, ApplyStyleRangeImpl ends with ranges that do so, each index
in the new range with the new style and every other one with the style it had. -/
theorem applyStyleRangeImpl_restyles {n : Nat} {styleRanges : List StyleRange}
    {styleRange : StyleRange} (h : StyleRangesOk n styleRanges)
    (hnew : styleRange.range.start < styleRange.range.end_) (hn : styleRange.range.end_ ≤ n) :
    ∃ out, applyStyleRangeImpl styleRange styleRanges = some out ∧ StyleRangesOk n out ∧
      (∀ k, styleRange.range.start ≤ k → k < styleRange.range.end_ →
        styleAt out k = some styleRange.style) ∧
      (∀ k, k < styleRange.range.start ∨ styleRange.range.end_ ≤ k →
        styleAt out k = styleAt styleRanges k) := by
  have htiles := (styleRangesOk_iff_tiles n styleRanges).mp h
  obtain ⟨out, hout, ht⟩ := applyStyleRangeImpl_tiles hnew hn (Nat.zero_le _) htiles
  have hstyles := styleAt_applyStyleRangeImpl hnew (Nat.zero_le _) htiles hout
  rw [Nat.zero_min] at ht
  refine ⟨out, hout, (styleRangesOk_iff_tiles n out).mpr ht, fun k hlow hhigh => ?_, fun k hk => ?_⟩
  · rw [hstyles, if_pos ⟨hlow, hhigh⟩]
  · rw [hstyles, if_neg (by omega)]

/-- A text in two styles, and a third one over the middle of it. -/
theorem applyStyleRangeImpl_restyles_middle :
    ∃ out, applyStyleRangeImpl { StyleRange.default with underline := true, range := ⟨1, 4⟩ }
        [{ StyleRange.default with range := ⟨0, 2⟩ },
          { StyleRange.default with strike := true, range := ⟨2, 5⟩ }] = some out ∧
      StyleRangesOk 5 out ∧
      (∀ k, 1 ≤ k → k < 4 → styleAt out k = some ⟨colorBlack, 0, false, false, true⟩) ∧
      (∀ k, k < 1 ∨ 4 ≤ k → styleAt out k =
        styleAt [{ StyleRange.default with range := ⟨0, 2⟩ },
          { StyleRange.default with strike := true, range := ⟨2, 5⟩ }] k) :=
  applyStyleRangeImpl_restyles
    ((styleRangesOk_iff_tiles _ _).mpr ⟨rfl, by decide, rfl, by decide, rfl⟩)
    (by decide) (by decide)

end ChromiumUI.Gfx
