import ChromiumUI.TruncatedText

/-!
# A text in a rectangle of pixels

RectangleText, with the lines and words of the break iterators given.
-/
namespace ChromiumUI.Ui

open Gfx Views
open ChromiumUI.Base (Target)
open ChromiumUI.Fuel

def kWhitespaceUTF16 : List UInt16 :=
  [0x0009, 0x000a, 0x000b, 0x000c, 0x000d, 0x0020, 0x0085, 0x00a0, 0x1680, 0x180e, 0x2000, 0x2001,
    0x2002, 0x2003, 0x2004, 0x2005, 0x2006, 0x2007, 0x2008, 0x2009, 0x200a, 0x200c, 0x2028,
    0x2029, 0x202f, 0x205f, 0x3000]

def isWhitespace (c : UInt16) : Bool := kWhitespaceUTF16.contains c

/-- TrimWhitespace with TRIM_TRAILING -/
def trimTrailing (s : String16) : String16 := s.rdropWhile isWhitespace

def containsOnlyWhitespace (s : String16) : Bool := s.all isWhitespace

inductive WordWrapBehavior where
  | ignoreLongWords | truncateLongWords | elideLongWords | wrapLongWords
  deriving DecidableEq, Repr

/-- What a RectangleText is made with, and the words a line breaks into. -/
structure Rectangle where
  target : Target
  width : String16 → Int
  lineHeight : Int
  availableWidth : Int
  availableHeight : Int
  wrapBehavior : WordWrapBehavior
  words : String16 → List String16

structure RectangleText where
  currentWidth : Int
  currentHeight : Int
  currentLine : String16
  lastLineEndedInLf : Bool
  lines : List String16
  full : Bool
  deriving DecidableEq, Repr

namespace Rectangle

variable (r : Rectangle)

/-- ElideText, which ends with this fuel. -/
def elide (behavior : ElideBehavior) (text : String16) : String16 :=
  (elideText r.target r.width r.availableWidth behavior (text.length + 2) text).getD []

def addToCurrentLineWithWidth (text : String16) (textWidth : Int) (s : RectangleText) :
    RectangleText :=
  if s.currentHeight ≥ r.availableHeight then { s with full := true }
  else
    { s with
      currentLine := s.currentLine ++ text
      currentWidth := s.currentWidth + textWidth }

def addToCurrentLine (text : String16) (s : RectangleText) : RectangleText :=
  r.addToCurrentLineWithWidth text (r.width text) s

/-- Whether a line was added, and the state then. -/
def newLine (s : RectangleText) : Bool × RectangleText :=
  let lineAdded := s.currentHeight < r.availableHeight
  let s := if lineAdded then { s with lines := s.lines ++ [s.currentLine], currentLine := [] }
    else { s with full := true }
  (lineAdded, { s with currentHeight := s.currentHeight + r.lineHeight, currentWidth := 0 })

/-- The loop of WrapWord. -/
def wrapLoop : Nat → Bool → Nat → String16 → RectangleText → Option (Nat × RectangleText)
  | 0, _, _, _, _ => none
  | fuel + 1, firstFragment, linesAdded, text, s =>
    if s.full || text = [] then some (linesAdded, s)
    else
      let fragment := r.elide .truncateAtEnd text
      let (added, s) := if firstFragment then (false, s) else r.newLine s
      wrapLoop fuel false (if added then linesAdded + 1 else linesAdded)
        (text.drop fragment.length) (r.addToCurrentLine fragment s)

def wrapWord (fuel : Nat) (word : String16) (s : RectangleText) : Option (Nat × RectangleText) :=
  r.wrapLoop fuel true 0 word s

/-- AddWordOverflow, once the word is at the beginning of a line. -/
def addLongWord (fuel : Nat) (word : String16) (linesAdded : Nat) (s : RectangleText) :
    Option (Nat × RectangleText) :=
  match r.wrapBehavior with
  | .ignoreLongWords =>
    some (linesAdded, { s with currentLine := word, currentWidth := r.availableWidth })
  | .wrapLongWords => (r.wrapWord fuel word s).map fun (added, s) => (linesAdded + added, s)
  | .elideLongWords => some (linesAdded, r.addToCurrentLine (r.elide .elideAtEnd word) s)
  | .truncateLongWords => some (linesAdded, r.addToCurrentLine (r.elide .truncateAtEnd word) s)

def addWordOverflow (fuel : Nat) (word : String16) (s : RectangleText) :
    Option (Nat × RectangleText) :=
  if s.currentLine ≠ [] then
    let (added, s) := r.newLine s
    if !added then some (0, s) else r.addLongWord fuel word 1 s
  else r.addLongWord fuel word 0 s

def addWord (fuel : Nat) (word : String16) (s : RectangleText) : Option (Nat × RectangleText) :=
  let trimmed := trimTrailing word
  let trimmedWidth := r.width trimmed
  if trimmedWidth ≤ r.availableWidth then
    let (added, s) :=
      if s.currentWidth + trimmedWidth > r.availableWidth then r.newLine s else (false, s)
    some (if added then 1 else 0, r.addToCurrentLine word s)
  else r.addWordOverflow fuel (if r.wrapBehavior = .ignoreLongWords then trimmed else word) s

/-- What AddLine does with one of the words. -/
def addBrokenWord (fuel : Nat) (s : RectangleText) (word : String16) : Option RectangleText :=
  let truncate := s.currentLine ≠ []
  (r.addWord fuel word s).map fun (linesAdded, s) =>
    if linesAdded = 0 then s
    else
      let s := if truncate then
          { s with lines := s.lines.modify (s.lines.length - linesAdded) trimTrailing } else s
      if containsOnlyWhitespace word then { s with currentWidth := 0, currentLine := [] } else s

def addLine (fuel : Nat) (line : String16) (s : RectangleText) : Option RectangleText :=
  let lineWidth := r.width line
  let added := if lineWidth < r.availableWidth then
      some (r.addToCurrentLineWithWidth line lineWidth s)
    else (r.words line).foldlM (r.addBrokenWord fuel) s
  added.map fun s => (r.newLine s).2

/-- The loop of AddString over the lines. -/
def addLines (fuel : Nat) : List String16 → RectangleText → Option RectangleText
  | [], s => some s
  | line :: lines, s =>
    if s.full then some s
    else
      let lastLineEndedInLf := line.getLast? == some 0x0a
      let s := { s with lastLineEndedInLf := lastLineEndedInLf }
      (r.addLine fuel (if lastLineEndedInLf then line.dropLast else line) s).bind
        (addLines fuel lines)

end Rectangle

def RectangleText.finalize (s : RectangleText) : Bool × List String16 :=
  let lines := match s.full, s.lines.getLast? with
    | false, some last =>
      let trimmed := trimTrailing last
      if trimmed = [] && !s.lastLineEndedInLf then s.lines.dropLast
      else s.lines.dropLast ++ [trimmed]
    | _, _ => s.lines
  (s.full, if s.lastLineEndedInLf then lines ++ [[]] else lines)

/-- `lines` breaks the input at its newlines. -/
def elideRectangleText (r : Rectangle) (lines : String16 → List String16) (fuel : Nat)
    (input : String16) : Option (Bool × List String16) :=
  (r.addLines fuel (lines input) ⟨0, 0, [], false, [], false⟩).map RectangleText.finalize

/-! ## The lines of a text in a rectangle

What every method keeps: no line is too wide, what is seen of the input so far is in the lines and
the current line, and once the rectangle is full nothing is added. -/

/-- What is no whitespace. -/
def visible (s : String16) : String16 := s.filter fun c => !isWhitespace c

variable {r : Rectangle} {g word line : String16} {s : RectangleText}

/-! ## Whitespace -/

theorem visible_append (a b : String16) : visible (a ++ b) = visible a ++ visible b :=
  List.filter_append a b

theorem visible_eq_nil {a : String16} (h : ∀ c ∈ a, isWhitespace c = true) : visible a = [] := by
  refine List.filter_eq_nil_iff.mpr fun c hc => ?_
  rw [h c hc]
  decide

theorem trimTrailing_split (a : String16) :
    ∃ spaces, a = trimTrailing a ++ spaces ∧ ∀ c ∈ spaces, isWhitespace c = true := by
  refine ⟨a.rtakeWhile isWhitespace, List.rdropWhile_append_rtakeWhile.symm, fun c hc => ?_⟩
  exact List.mem_rtakeWhile_imp hc

theorem visible_trimTrailing (a : String16) : visible (trimTrailing a) = visible a := by
  obtain ⟨spaces, hsplit, hspaces⟩ := trimTrailing_split a
  conv_rhs => rw [hsplit]
  rw [visible_append, visible_eq_nil hspaces, List.append_nil]

theorem trimTrailing_eq_nil {a : String16} (h : containsOnlyWhitespace a = true) :
    trimTrailing a = [] :=
  List.rdropWhile_eq_nil_iff.mpr (List.all_eq_true.mp h)

theorem width_trimTrailing_le (hadd : Additive r.width) (a : String16) :
    r.width (trimTrailing a) ≤ r.width a := by
  obtain ⟨spaces, hsplit, -⟩ := trimTrailing_split a
  have hnneg := hadd.nonneg spaces
  conv_rhs => rw [hsplit]
  rw [hadd.append]
  omega

theorem trimTrailing_append_spaces (a : String16) {spaces : String16}
    (hspaces : ∀ c ∈ spaces, isWhitespace c = true) :
    trimTrailing (a ++ spaces) = trimTrailing a := by
  induction spaces using List.reverseRecOn with
  | nil => rw [List.append_nil]
  | append_singleton spaces c ih =>
    have hc : isWhitespace c = true := hspaces c (by simp)
    rw [← List.append_assoc, trimTrailing, List.rdropWhile_concat_pos _ _ _ hc]
    exact ih fun d hd => hspaces d (List.mem_append_left _ hd)

/-- Trimming what is at the end. -/
theorem width_trimTrailing_append_le (hadd : Additive r.width) (a b : String16) :
    r.width (trimTrailing (a ++ b)) ≤ r.width a + r.width (trimTrailing b) := by
  obtain ⟨spaces, hsplit, hspaces⟩ := trimTrailing_split b
  have hdrop : trimTrailing (a ++ b) = trimTrailing (a ++ trimTrailing b) := by
    conv_lhs => rw [hsplit, ← List.append_assoc]
    exact trimTrailing_append_spaces _ hspaces
  have hle := width_trimTrailing_le hadd (a ++ trimTrailing b)
  rw [hadd.append] at hle
  rw [hdrop]
  exact hle

theorem trimTrailing_trimTrailing (a : String16) :
    trimTrailing (trimTrailing a) = trimTrailing a := List.rdropWhile_idempotent _ _

theorem visible_flatten_modify (lines : List String16) (i : Nat) :
    visible (lines.modify i trimTrailing).flatten = visible lines.flatten := by
  induction lines generalizing i with
  | nil => simp
  | cons line lines ih =>
    cases i with
    | zero =>
      simp only [List.modify_zero_cons, List.flatten_cons, visible_append, visible_trimTrailing]
    | succ i => simp only [List.modify_succ_cons, List.flatten_cons, visible_append, ih]

theorem mem_modify_trim {lines : List String16} {i : Nat}
    (h : line ∈ lines.modify i trimTrailing) : ∃ line' ∈ lines,
      line = line' ∨ line = trimTrailing line' := by
  obtain ⟨j, hj, rfl⟩ := List.mem_iff_getElem.mp h
  rw [List.length_modify] at hj
  refine ⟨lines[j], List.getElem_mem hj, ?_⟩
  rw [List.getElem_modify]
  split
  · exact Or.inr rfl
  · exact Or.inl rfl

/-! ## What ElideText gives -/

theorem elide_truncates (hadd : Additive r.width)
    (hsize : 2 * word.length < 2 ^ r.target.sizeBits) :
    Truncation r.width r.availableWidth word (r.elide .truncateAtEnd word) ∧
      (Longest r.width r.availableWidth word (r.elide .truncateAtEnd word) ↔
        Truncates r.width r.availableWidth word) ∧
      (r.elide .truncateAtEnd word = [] ∨ Truncates r.width r.availableWidth word) := by
  obtain ⟨result, hrun, hres⟩ :=
    @elideText_truncation r.target r.width r.availableWidth word hadd hsize
  rw [Rectangle.elide, hrun _ (Nat.le_refl _)]
  exact hres

theorem cut_mono (hadd : Additive r.width) {m n : Nat} (hle : m ≤ n) (hn : n < word.length) :
    r.width (ellipsisCut r.target word .elideAtEnd m) ≤
      r.width (ellipsisCut r.target word .elideAtEnd n) := by
  have hcut : ∀ k ≤ word.length, ellipsisCut r.target word .elideAtEnd k =
      word.take (findValidBoundaryBefore word k) ++ kEllipsis := by
    intro k hk
    simp [ellipsisCut, cutString]
  have hprefix := hadd.take_mono word (@findValidBoundaryBefore_mono word _ _ hle)
  rw [hcut m (by omega), hcut n (by omega), hadd.append, hadd.append]
  omega

/-- What is elided is not too wide. -/
theorem elide_fits (hadd : Additive r.width) (havailable : 0 ≤ r.availableWidth)
    (hsize : 2 * word.length < 2 ^ r.target.sizeBits) {behavior : ElideBehavior}
    (hbeh : behavior ≠ .elideInMiddle) :
    r.width (r.elide behavior word) ≤ r.availableWidth := by
  cases behavior with
  | elideInMiddle => exact absurd rfl hbeh
  | truncateAtEnd =>
    rcases (elide_truncates hadd hsize).1.fits with hnil | hfits
    · rw [hnil, hadd.nil]
      exact havailable
    · exact hfits
  | elideAtEnd =>
    obtain ⟨result, hrun, hfit, hellipsis, helide⟩ :=
      @elideText_run r.target r.width r.availableWidth word .elideAtEnd hadd.eq_zero_iff
        hadd.nonneg (by decide) (fun m n hle hn => cut_mono hadd hle hn) hsize
    rw [Rectangle.elide, hrun _ (Nat.le_refl _), Option.getD_some]
    by_cases hwhole : r.width word ≤ r.availableWidth
    · rw [hfit hwhole]
      exact hwhole
    · by_cases hdots : r.availableWidth < r.width kEllipsis
      · rw [hellipsis (by omega) hdots, hadd.nil]
        exact havailable
      · obtain ⟨⟨p, q, helision⟩, -⟩ := helide (by omega) (by omega)
        exact helision.fits

/-! ## The invariant -/

/-- With `g` of the input added, for a behavior that leaves no word too long. -/
structure Inside (r : Rectangle) (g : String16) (s : RectangleText) : Prop where
  closed : r.availableHeight ≤ s.currentHeight → s.currentLine = []
  full : s.full = true → r.availableHeight ≤ s.currentHeight
  width : s.currentWidth = r.width s.currentLine
  line : r.width (trimTrailing s.currentLine) ≤ r.availableWidth
  lines : ∀ line ∈ s.lines, r.width (trimTrailing line) ≤ r.availableWidth
  kept : r.wrapBehavior = .wrapLongWords →
    visible (s.lines.flatten ++ s.currentLine) <+: visible g
  whole : r.wrapBehavior = .wrapLongWords → s.full = false →
    visible (s.lines.flatten ++ s.currentLine) = visible g

/-- Where more is added, it stands behind what there is. -/
theorem Inside.add (h : Inside r g s) {text : String16} {g' : String16}
    (hline : r.width (trimTrailing (s.currentLine ++ text)) ≤ r.availableWidth)
    (hadd : Additive r.width)
    (hg : r.wrapBehavior = .wrapLongWords → visible g' = visible g ++ visible text) :
    Inside r g' (r.addToCurrentLineWithWidth text (r.width text) s) := by
  unfold Rectangle.addToCurrentLineWithWidth
  split_ifs with hheight
  · refine ⟨h.closed, fun _ => hheight, h.width, h.line, h.lines, fun hwrap => ?_,
      fun _ hfull => by cases hfull⟩
    rw [hg hwrap]
    exact (h.kept hwrap).trans (List.prefix_append _ _)
  · have hopen : s.full = false := by
      by_contra hfull
      exact hheight (h.full (by simpa using hfull))
    have hvis : r.wrapBehavior = .wrapLongWords →
        visible (s.lines.flatten ++ (s.currentLine ++ text)) = visible g' := by
      intro hwrap
      rw [← List.append_assoc, visible_append, h.whole hwrap hopen, hg hwrap]
    refine ⟨fun hshut => absurd hshut hheight, h.full, ?_, hline, h.lines, fun hwrap => ?_,
      fun hwrap _ => hvis hwrap⟩
    · rw [hadd.append, ← h.width]
    · dsimp only
      rw [hvis hwrap]

theorem newLine_open (hopen : s.currentHeight < r.availableHeight) : r.newLine s =
    (true, { s with
      lines := s.lines ++ [s.currentLine]
      currentLine := []
      currentHeight := s.currentHeight + r.lineHeight
      currentWidth := 0 }) := by simp [Rectangle.newLine, hopen]

theorem newLine_closed (hshut : ¬ s.currentHeight < r.availableHeight) : r.newLine s =
    (false, { s with
      full := true
      currentHeight := s.currentHeight + r.lineHeight
      currentWidth := 0 }) := by simp [Rectangle.newLine, hshut]

/-- A new line begins with nothing. -/
theorem Inside.newLine (h : Inside r g s) (hadd : Additive r.width)
    (havailable : 0 ≤ r.availableWidth) (hheight : 0 < r.lineHeight) :
    Inside r g (r.newLine s).2 ∧ (r.newLine s).2.currentLine = [] := by
  have hnil : r.width (trimTrailing []) ≤ r.availableWidth := by
    rw [trimTrailing, List.rdropWhile_nil, hadd.nil]
    exact havailable
  by_cases hopen : s.currentHeight < r.availableHeight
  · rw [newLine_open hopen]
    have hflatten : (s.lines ++ [s.currentLine]).flatten ++ [] =
        s.lines.flatten ++ s.currentLine := by simp
    refine ⟨⟨fun _ => rfl, fun hfull => ?_, hadd.nil.symm, hnil, fun line hline => ?_,
      fun hwrap => ?_, fun hwrap hfull => ?_⟩, rfl⟩
    · have hle := h.full hfull
      omega
    · rcases List.mem_append.mp hline with hold | hnew
      · exact h.lines line hold
      · rw [List.mem_singleton.mp hnew]
        exact h.line
    · rw [hflatten]
      exact h.kept hwrap
    · rw [hflatten]
      exact h.whole hwrap hfull
  · rw [newLine_closed hopen]
    have hshut := h.closed (by omega)
    refine ⟨⟨fun _ => hshut, fun _ => ?_, ?_, h.line, h.lines, h.kept,
      fun _ hfull => by cases hfull⟩, hshut⟩
    · dsimp only
      omega
    · dsimp only
      rw [hshut, hadd.nil]

/-- A full rectangle does not see what comes. -/
theorem Inside.extend (h : Inside r g s) {g' : String16} (hfull : s.full = true) :
    Inside r (g ++ g') s where
  closed := h.closed
  full := h.full
  width := h.width
  line := h.line
  lines := h.lines
  kept := fun hwrap => by
    rw [visible_append g]
    exact (h.kept hwrap).trans (List.prefix_append _ _)
  whole := fun _ hopen => by
    rw [hfull] at hopen
    cases hopen

/-- Whitespace does not count. -/
theorem Inside.congr (h : Inside r g s) {g' : String16} (hg : visible g' = visible g) :
    Inside r g' s where
  closed := h.closed
  full := h.full
  width := h.width
  line := h.line
  lines := h.lines
  kept := fun hwrap => hg ▸ h.kept hwrap
  whole := fun hwrap hopen => hg ▸ h.whole hwrap hopen

end ChromiumUI.Ui
