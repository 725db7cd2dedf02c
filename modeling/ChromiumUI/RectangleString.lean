import ChromiumUI.Utf16Indexing

/-!
# A string in a rectangle of characters

RectangleString, with the lines and words of the break iterators given.
-/
namespace ChromiumUI.Ui

open Gfx Views List Nat

/-! ## What is written -/

/-- What is appended to the output, and where a row of it ends without that. -/
inductive Piece where
  | text (string : String16)
  | newline
  | rowEnd
  deriving DecidableEq, Repr

def Piece.written : Piece → String16
  | .text string => string
  | .newline => [0x0a]
  | .rowEnd => []

/-- What the input has given to it. -/
def Piece.given : Piece → String16
  | .text string => string
  | .newline | .rowEnd => []

def written (pieces : List Piece) : String16 := pieces.flatMap Piece.written

def given (pieces : List Piece) : String16 := pieces.flatMap Piece.given

/-- The rows that have ended, and the one that has not. -/
structure Rows where
  ended : List String16
  last : String16

def Rows.add (rows : Rows) : Piece → Rows
  | .text string => ⟨rows.ended, rows.last ++ string⟩
  | .newline | .rowEnd => ⟨rows.ended ++ [rows.last], []⟩

def rows (pieces : List Piece) : Rows := pieces.foldl Rows.add ⟨[], []⟩

/-! ## RectangleString -/

structure RectangleString where
  currentRow : Nat
  currentCol : Nat
  suppressed : Bool
  output : List Piece
  deriving DecidableEq, Repr

/-- The states after each step so far, and the state it is in. -/
structure Steps where
  now : RectangleString
  passed : List RectangleString

def Steps.take (step : RectangleString → RectangleString) (s : Steps) : Steps :=
  ⟨step s.now, s.passed ++ [step s.now]⟩

/-- The positions of a UTF16CharIterator. -/
structure CharIterator where
  arrayPos : Nat
  charPos : Nat
  deriving DecidableEq, Repr

def CharIterator.advance (str : String16) (chars : CharIterator) : CharIterator where
  arrayPos :=
    if str[chars.arrayPos]?.any isLead && str[chars.arrayPos + 1]?.any isTrail then
      chars.arrayPos + 2
    else chars.arrayPos + 1
  charPos := chars.charPos + 1

/-- substr -/
def substr (s : String16) (pos n : Nat) : String16 := (s.drop pos).take n

section

variable (maxRows maxCols : Nat) (strict : Bool)

def append (string : String16) (s : RectangleString) : RectangleString :=
  let s := if s.currentRow < maxRows then { s with output := s.output ++ [.text string] }
    else { s with suppressed := true }
  { s with currentCol := s.currentCol + string.length }

def newLine (output : Bool) (s : RectangleString) : RectangleString :=
  let s := if s.currentRow < maxRows then
      { s with output := s.output ++ [if output then .newline else .rowEnd] }
    else { s with suppressed := true }
  { s with currentRow := s.currentRow + 1, currentCol := 0 }

/-- The naturally-occuring newline at the end of AddLine. -/
def endLine (s : RectangleString) : RectangleString :=
  let s := if s.currentRow < maxRows then { s with output := s.output ++ [.rowEnd] } else s
  { s with currentRow := s.currentRow + 1, currentCol := 0 }

/-- The loop over the characters of a word, of so many turns at most, and what is left of it. -/
def fragments (word : String16) : Nat → Nat → Nat → CharIterator → Steps → Steps
  | 0, arrayStart, _, chars, s =>
    if arrayStart ≠ chars.arrayPos then
      s.take (append maxRows (substr word arrayStart (chars.arrayPos - arrayStart)))
    else s
  | n + 1, arrayStart, charStart, chars, s =>
    if chars.arrayPos = word.length then fragments word 0 arrayStart charStart chars s
    else if s.now.currentCol + (chars.charPos - charStart) ≥ maxCols then
      let s := s.take (append maxRows (substr word arrayStart (chars.arrayPos - arrayStart)))
      fragments word n chars.arrayPos chars.charPos (chars.advance word)
        (s.take (newLine maxRows true))
    else fragments word n arrayStart charStart (chars.advance word) s

def addWord (s : Steps) (word : String16) : Steps :=
  if word.length < maxCols then
    let s := if s.now.currentCol + word.length ≥ maxCols then s.take (newLine maxRows strict)
      else s
    s.take (append maxRows word)
  else fragments maxRows maxCols word word.length 0 0 ⟨0, 0⟩ s

def addLine (words : String16 → List String16) (s : Steps) (line : String16) : Steps :=
  let s := if line.length < maxCols then s.take (append maxRows line)
    else (words line).foldl (addWord maxRows maxCols strict) s
  s.take (endLine maxRows)

/-- AddString after Init. -/
def addString (lines : String16 → List String16) (words : String16 → List String16)
    (input : String16) : Steps :=
  (lines input).foldl (addLine maxRows maxCols strict words) ⟨⟨0, 0, false, []⟩, []⟩

def finalize (s : RectangleString) : Bool × String16 :=
  if s.suppressed then (true, written s.output ++ [0x2e, 0x2e, 0x2e]) else (false, written s.output)

def elideRectangleString (lines words : String16 → List String16) (input : String16) :
    Bool × String16 :=
  finalize (addString maxRows maxCols strict lines words input).now

end

/-! ## Rows -/

variable {maxRows maxCols : Nat} {strict : Bool} {g : String16} {s : RectangleString}
  {tr : Steps}

theorem rows_append (pieces : List Piece) (piece : Piece) :
    rows (pieces ++ [piece]) = (rows pieces).add piece := by simp [rows]

theorem given_append (pieces : List Piece) (piece : Piece) :
    given (pieces ++ [piece]) = given pieces ++ piece.given := by simp [given]

/-- After `g` has been added. -/
structure Fits (maxRows maxCols : Nat) (g : String16) (s : RectangleString) : Prop where
  col : s.currentCol ≤ maxCols
  kept : given s.output <+: g
  whole : s.suppressed = false → given s.output = g
  full : s.suppressed = true → maxRows ≤ s.currentRow
  ended : ∀ row ∈ (rows s.output).ended, row.length ≤ maxCols
  last : (rows s.output).last.length ≤ s.currentCol
  closed : maxRows ≤ s.currentRow → (rows s.output).last = []
  count : (rows s.output).ended.length = min s.currentRow maxRows

section

variable (h : Fits maxRows maxCols g s)
include h

theorem Fits.append {string : String16} (hroom : s.currentCol + string.length ≤ maxCols) :
    Fits maxRows maxCols (g ++ string) (append maxRows string s) := by
  by_cases hrow : s.currentRow < maxRows
  · have hwhole : s.suppressed = false := by
      by_contra hfull
      have hrow' := h.full (by simpa using hfull)
      omega
    have hsame := h.whole hwhole
    have hlast := h.last
    simp only [Ui.append, if_pos hrow]
    refine ⟨hroom, ?_, fun _ => ?_, fun hfull => ?_, ?_, ?_, fun hshut => ?_, ?_⟩
    · rw [given_append, hsame]
      exact prefix_rfl
    · rw [given_append, hsame]
      rfl
    · rw [hwhole] at hfull
      cases hfull
    · rw [rows_append]
      exact h.ended
    · rw [rows_append]
      simp only [Rows.add, length_append]
      omega
    · exact absurd hrow (not_lt.mpr hshut)
    · rw [rows_append]
      exact h.count
  · simp only [Ui.append, if_neg hrow]
    exact ⟨hroom, h.kept.trans (prefix_append _ _), (fun hfalse => by cases hfalse),
      fun _ => not_lt.mp hrow, h.ended, le_trans h.last (le_add_right _ _), h.closed,
      h.count⟩

/-- A row that ends, with or without a newline. -/
theorem Fits.endRow (hrow : s.currentRow < maxRows) {piece : Piece}
    (hpiece : piece = .newline ∨ piece = .rowEnd) :
    Fits maxRows maxCols g
      { s with
        currentRow := s.currentRow + 1
        currentCol := 0
        output := s.output ++ [piece] } := by
  have hgiven : given (s.output ++ [piece]) = given s.output := by
    rw [given_append]
    obtain rfl | rfl := hpiece <;> exact append_nil _
  have hrows : rows (s.output ++ [piece]) =
      ⟨(rows s.output).ended ++ [(rows s.output).last], []⟩ := by
    rw [rows_append]
    obtain rfl | rfl := hpiece <;> rfl
  have hcount := h.count
  refine ⟨zero_le _, ?_, fun hwhole => ?_, fun hfull => ?_, ?_, ?_, fun _ => ?_, ?_⟩
  · rw [hgiven]
    exact h.kept
  · rw [hgiven]
    exact h.whole hwhole
  · exact le_succ_of_le (h.full hfull)
  · rw [hrows]
    intro row hmem
    rcases mem_append.mp hmem with hold | hnew
    · exact h.ended row hold
    · rw [mem_singleton.mp hnew]
      exact le_trans h.last h.col
  · rw [hrows]
    exact le_refl _
  · rw [hrows]
  · rw [hrows]
    simp only [length_append, length_singleton]
    omega

/-- Below the rectangle nothing is written. -/
theorem Fits.skipRow (hrow : ¬ s.currentRow < maxRows)
    {suppressed : Bool} (hsuppressed : suppressed = false → s.suppressed = false) :
    Fits maxRows maxCols g
      { s with currentRow := s.currentRow + 1, currentCol := 0, suppressed := suppressed } := by
  have hcount := h.count
  refine ⟨zero_le _, h.kept, fun hwhole => h.whole (hsuppressed hwhole), fun _ => ?_, h.ended,
    ?_, fun _ => h.closed (not_lt.mp hrow), ?_⟩
  · dsimp only
    omega
  · rw [h.closed (not_lt.mp hrow)]
    exact le_refl _
  · dsimp only
    omega

theorem Fits.newLine (output : Bool) : Fits maxRows maxCols g (newLine maxRows output s) := by
  by_cases hrow : s.currentRow < maxRows
  · simp only [Ui.newLine, if_pos hrow]
    refine h.endRow hrow ?_
    cases output
    · exact Or.inr rfl
    · exact Or.inl rfl
  · simp only [Ui.newLine, if_neg hrow]
    exact h.skipRow hrow (fun hfalse => by cases hfalse)

theorem Fits.endLine : Fits maxRows maxCols g (endLine maxRows s) := by
  by_cases hrow : s.currentRow < maxRows
  · simp only [Ui.endLine, if_pos hrow]
    exact h.endRow hrow (Or.inr rfl)
  · simp only [Ui.endLine, if_neg hrow]
    exact h.skipRow hrow id

end

/-! ## Runs -/

/-- After `g` has been added, every state on the way there was within the columns. -/
structure FitsAll (maxRows maxCols : Nat) (g : String16) (tr : Steps) : Prop where
  now : Fits maxRows maxCols g tr.now
  passed : ∀ s ∈ tr.passed, s.currentCol ≤ maxCols

theorem FitsAll.take (h : FitsAll maxRows maxCols g tr) {g' : String16}
    {step : RectangleString → RectangleString} (hstep : Fits maxRows maxCols g' (step tr.now)) :
    FitsAll maxRows maxCols g' (tr.take step) := by
  refine ⟨hstep, fun s hs => ?_⟩
  rcases mem_append.mp hs with hold | hnew
  · exact h.passed s hold
  · rw [mem_singleton.mp hnew]
    exact hstep.col

variable {word : String16}

theorem advance_of_no_pair {p : Nat} (h : ∀ c ∈ word, isLead c = false) :
    CharIterator.advance word ⟨p, p⟩ = ⟨p + 1, p + 1⟩ := by
  have hlead : word[p]?.any isLead = false := by
    cases hc : word[p]? with
    | none => rfl
    | some c => exact h c (mem_of_getElem? hc)
  simp [CharIterator.advance, hlead]

theorem length_substr {a p : Nat} (hp : p ≤ word.length) :
    (substr word a (p - a)).length = p - a := by
  rw [substr, length_take, length_drop]
  omega

theorem take_append_substr {a p : Nat} (hle : a ≤ p) :
    word.take a ++ substr word a (p - a) = word.take p := by
  have hsum : a + (p - a) = p := by omega
  rw [substr, ← take_add, hsum]

/-- The loop has added the word up to `a`; from there to `p` there is room. -/
theorem fragments_fits (hchars : ∀ c ∈ word, isLead c = false) (hcols : 1 ≤ maxCols) {n a p : Nat}
    (hle : a ≤ p) (hn : p + n = word.length) (h : FitsAll maxRows maxCols (g ++ word.take a) tr)
    (hroom : tr.now.currentCol + (p - a) ≤ maxCols) :
    FitsAll maxRows maxCols (g ++ word) (fragments maxRows maxCols word n a a ⟨p, p⟩ tr) := by
  induction n generalizing a p tr with
  | zero =>
    obtain rfl : p = word.length := by omega
    by_cases hrest : a = word.length
    · rw [hrest, take_length] at h
      simpa [fragments, hrest] using h
    · have hadd := @Fits.append _ _ _ _ h.now (substr word a (word.length - a)) (by
        rw [length_substr (le_refl _)]
        exact hroom)
      rw [append_assoc, take_append_substr hle, take_length] at hadd
      rw [fragments, if_pos hrest]
      exact h.take hadd
  | succ n ih =>
    have hend : ¬ p = word.length := by omega
    simp only [fragments, if_neg hend, advance_of_no_pair hchars]
    split_ifs with hbound
    · have hadd := @Fits.append _ _ _ _ h.now (substr word a (p - a)) (by
        rw [length_substr (by omega)]
        exact hroom)
      rw [append_assoc, take_append_substr hle] at hadd
      have hadded := h.take hadd
      refine ih (le_succ p) (by omega) (hadded.take (hadded.now.newLine true)) ?_
      simp only [Steps.take, newLine]
      omega
    · exact ih (le_succ_of_le hle) (by omega) h (by omega)

theorem addWord_fits (hchars : ∀ c ∈ word, isLead c = false) (hcols : 1 ≤ maxCols)
    (h : FitsAll maxRows maxCols g tr) :
    FitsAll maxRows maxCols (g ++ word) (addWord maxRows maxCols strict tr word) := by
  unfold addWord
  split_ifs with hshort hwrap
  · have hnext := h.take (h.now.newLine strict)
    refine hnext.take (hnext.now.append ?_)
    simp only [Steps.take, newLine]
    omega
  · exact h.take (h.now.append (by omega))
  · have hroom := h.now.col
    exact fragments_fits hchars hcols (le_refl 0) (zero_add _) (by simpa using h)
      (by simpa using hroom)

theorem addWords_fits (strict : Bool) {words : List String16}
    (hchars : ∀ c ∈ words.flatten, isLead c = false) (hcols : 1 ≤ maxCols)
    (h : FitsAll maxRows maxCols g tr) :
    FitsAll maxRows maxCols (g ++ words.flatten)
      (words.foldl (addWord maxRows maxCols strict) tr) := by
  induction words generalizing g tr with
  | nil => simpa using h
  | cons word words ih =>
    rw [flatten_cons] at hchars ⊢
    rw [foldl_cons, ← append_assoc]
    exact ih (fun c hc => hchars c (mem_append_right _ hc))
      (addWord_fits (fun c hc => hchars c (mem_append_left _ hc)) hcols h)

/-- A line starts in the first column, and so does the next. -/
theorem addLine_fits (strict : Bool) {words : String16 → List String16} {line : String16}
    (hwords : (words line).flatten = line) (hchars : ∀ c ∈ line, isLead c = false)
    (hcols : 1 ≤ maxCols) (h : FitsAll maxRows maxCols g tr) (hstart : tr.now.currentCol = 0) :
    FitsAll maxRows maxCols (g ++ line) (addLine maxRows maxCols strict words tr line) ∧
      (addLine maxRows maxCols strict words tr line).now.currentCol = 0 := by
  refine ⟨?_, rfl⟩
  unfold addLine
  split_ifs with hshort
  · have hadded := h.take (h.now.append (show tr.now.currentCol + line.length ≤ maxCols by omega))
    exact hadded.take hadded.now.endLine
  · have hadded := addWords_fits strict (hwords.symm ▸ hchars) hcols h
    rw [hwords] at hadded
    exact hadded.take hadded.now.endLine

theorem addLines_fits (strict : Bool) {words : String16 → List String16} {lines : List String16}
    (hwords : ∀ line ∈ lines, (words line).flatten = line)
    (hchars : ∀ c ∈ lines.flatten, isLead c = false) (hcols : 1 ≤ maxCols)
    (h : FitsAll maxRows maxCols g tr) (hstart : tr.now.currentCol = 0) :
    FitsAll maxRows maxCols (g ++ lines.flatten)
      (lines.foldl (addLine maxRows maxCols strict words) tr) ∧
      (lines.foldl (addLine maxRows maxCols strict words) tr).now.currentCol = 0 := by
  induction lines generalizing g tr with
  | nil => exact ⟨by simpa using h, hstart⟩
  | cons line lines ih =>
    rw [flatten_cons] at hchars ⊢
    rw [foldl_cons, ← append_assoc]
    obtain ⟨hline, hnext⟩ := addLine_fits strict (hwords line mem_cons_self)
      (fun c hc => hchars c (mem_append_left _ hc)) hcols h hstart
    exact ih (fun l hl => hwords l (mem_cons_of_mem _ hl))
      (fun c hc => hchars c (mem_append_right _ hc)) hline hnext

/-! ## The lines of a string in a rectangle

In strict mode the rows are lines of the output. `nl` says which characters end a line of the
input; a newline is one of them. -/

variable {nl : UInt16 → Bool} {maxRows maxCols : Nat} {g used : String16} {s : RectangleString}
  {tr : Steps}

/-! ## Lines -/

/-- Characters in a row that end no line. -/
def Unbroken (nl : UInt16 → Bool) (line : String16) : Prop := ∀ c ∈ line, nl c = false

theorem infix_append_cases {l w t : String16} (h : l <:+: w ++ t) :
    l <:+: w ∨ ∃ l₁ l₂, l = l₁ ++ l₂ ∧ l₁ <:+ w ∧ l₂.length ≤ t.length := by
  obtain ⟨before, after, heq⟩ := h
  rw [append_assoc] at heq
  rcases append_eq_append_iff.mp heq with ⟨rest, hw, hrest⟩ | ⟨rest, hpre, ht⟩
  · rcases append_eq_append_iff.mp hrest with ⟨rest', hrest', -⟩ | ⟨rest', hl, ht⟩
    · exact .inl ⟨before, rest', by rw [hw, hrest', append_assoc]⟩
    · refine .inr ⟨rest, rest', hl, ⟨before, hw.symm⟩, ?_⟩
      rw [ht, length_append]
      exact le_add_right _ _
  · refine .inr ⟨[], l, rfl, nil_suffix, ?_⟩
    rw [ht, length_append, length_append]
    omega

theorem suffix_append_cases {l w t : String16} (h : l <:+ w ++ t) :
    ∃ l₁ l₂, l = l₁ ++ l₂ ∧ l₁ <:+ w ∧ l₂ <:+ t := by
  obtain ⟨before, heq⟩ := h
  rcases append_eq_append_iff.mp heq with ⟨rest, hw, hl⟩ | ⟨rest, -, ht⟩
  · exact ⟨rest, t, hl, ⟨before, hw.symm⟩, suffix_rfl⟩
  · exact ⟨[], l, rfl, nil_suffix, ⟨rest, ht.symm⟩⟩

/-- Nothing unbroken reaches the end of what ends with a newline. -/
theorem unbroken_suffix_nil {l w : String16} {c : UInt16} (hw : w.getLast? = some c)
    (hc : nl c = true) (h : l <:+ w) (hl : Unbroken nl l) : l = [] := by
  obtain ⟨before, rfl⟩ := h
  rcases eq_nil_or_concat l with rfl | ⟨init, last, rfl⟩
  · rfl
  · rw [concat_eq_append, ← append_assoc, getLast?_concat] at hw
    obtain rfl := Option.some.inj hw
    have hlast := hl last (by simp)
    rw [hc] at hlast
    cases hlast

theorem written_append (pieces : List Piece) (piece : Piece) :
    written (pieces ++ [piece]) = written pieces ++ piece.written := by simp [written]

/-- Behind a newline of the input only newlines are inserted. -/
theorem written_getLast {pieces : List Piece} (hnl : nl 0x0a = true) {c : UInt16}
    (h : (given pieces).getLast? = some c) (hc : nl c = true) :
    ∃ c', (written pieces).getLast? = some c' ∧ nl c' = true := by
  induction pieces using reverseRecOn with
  | nil => cases h
  | append_singleton pieces piece ih =>
    rw [given_append] at h
    rw [written_append]
    cases piece with
    | newline => exact ⟨_, getLast?_concat, hnl⟩
    | rowEnd =>
      rw [Piece.given, append_nil] at h
      rw [Piece.written, append_nil]
      exact ih h
    | text string =>
      simp only [Piece.given, Piece.written] at h ⊢
      by_cases hempty : string = []
      · rw [hempty, append_nil] at h ⊢
        exact ih h
      · rw [getLast?_append_of_ne_nil _ hempty] at h ⊢
        exact ⟨c, h, hc⟩

/-! ## The invariant of strict mode -/

/-- Nothing has been written, or a line has just ended. -/
def AtStart (nl : UInt16 → Bool) (w : String16) : Prop :=
  w = [] ∨ ∃ c, w.getLast? = some c ∧ nl c = true

/-- `used` of the current line has been added. -/
structure Ruled (nl : UInt16 → Bool) (maxRows maxCols : Nat) (used : String16)
    (s : RectangleString) : Prop where
  lines : ∀ line, line <:+: written s.output → Unbroken nl line → line.length ≤ maxCols
  lastLine : s.currentRow < maxRows →
    ∀ line, line <:+ written s.output → Unbroken nl line → line.length ≤ s.currentCol
  tail : (rows s.output).last <:+ used
  count : (written s.output).countP nl ≤
    (rows s.output).ended.length + (rows s.output).last.countP nl
  full : maxRows ≤ s.currentRow → AtStart nl (written s.output)

theorem Ruled.append (h : Ruled nl maxRows maxCols used s) (hfits : Fits maxRows maxCols g s)
    {string : String16} (hroom : s.currentCol + string.length ≤ maxCols) :
    Ruled nl maxRows maxCols (used ++ string) (append maxRows string s) := by
  by_cases hrow : s.currentRow < maxRows
  · simp only [Ui.append, if_pos hrow]
    have hlast := h.lastLine hrow
    have hcount := h.count
    have hlen : ∀ l₁ l₂ : String16, l₁ <:+ written s.output → l₂.length ≤ string.length →
        Unbroken nl (l₁ ++ l₂) → (l₁ ++ l₂).length ≤ s.currentCol + string.length := by
      intro l₁ l₂ hl₁ hl₂ hunbroken
      have hle := hlast l₁ hl₁ fun c hc => hunbroken c (mem_append_left _ hc)
      rw [length_append]
      omega
    refine ⟨?_, fun _ => ?_, ?_, ?_, fun hshut => absurd hrow (not_lt.mpr hshut)⟩
    · intro line hline hunbroken
      rw [written_append] at hline
      rcases infix_append_cases hline with hold | ⟨l₁, l₂, rfl, hl₁, hl₂⟩
      · exact h.lines line hold hunbroken
      · exact le_trans (hlen l₁ l₂ hl₁ hl₂ hunbroken) hroom
    · intro line hline hunbroken
      rw [written_append] at hline
      obtain ⟨l₁, l₂, rfl, hl₁, hl₂⟩ := suffix_append_cases hline
      exact hlen l₁ l₂ hl₁ hl₂.length_le hunbroken
    · rw [rows_append]
      obtain ⟨before, hpre⟩ := h.tail
      exact ⟨before, by rw [Rows.add, ← append_assoc, hpre]⟩
    · rw [written_append, rows_append]
      simp only [Piece.written, Rows.add, countP_append]
      omega
  · simp only [Ui.append, if_neg hrow]
    refine ⟨h.lines, fun hlt => absurd hlt hrow, ?_, h.count, h.full⟩
    rw [hfits.closed (not_lt.mp hrow)]
    exact nil_suffix

/-- Below the rectangle nothing changes. -/
theorem Ruled.skipRow (h : Ruled nl maxRows maxCols used s) (hfits : Fits maxRows maxCols g s)
    (hrow : ¬ s.currentRow < maxRows) (used' : String16) (suppressed : Bool) :
    Ruled nl maxRows maxCols used'
      { s with currentRow := s.currentRow + 1, currentCol := 0, suppressed := suppressed } := by
  refine ⟨h.lines, fun hlt => absurd hlt (by dsimp only; omega), ?_, h.count,
    fun _ => h.full (not_lt.mp hrow)⟩
  rw [hfits.closed (not_lt.mp hrow)]
  exact nil_suffix

/-- A row that ends behind a character that ends a line. -/
theorem ruled_endRow {piece : Piece} {c : UInt16}
    (hrows : rows (s.output ++ [piece]) =
      ⟨(rows s.output).ended ++ [(rows s.output).last], []⟩)
    (hlines : ∀ line, line <:+: written (s.output ++ [piece]) → Unbroken nl line →
      line.length ≤ maxCols)
    (hcount : (written (s.output ++ [piece])).countP nl ≤ (rows s.output).ended.length + 1)
    (hend : (written (s.output ++ [piece])).getLast? = some c) (hc : nl c = true)
    (used' : String16) :
    Ruled nl maxRows maxCols used'
      { s with
        currentRow := s.currentRow + 1
        currentCol := 0
        output := s.output ++ [piece] } := by
  refine ⟨hlines, fun _ line hline hunbroken => ?_, ?_, ?_, fun _ => .inr ⟨c, hend, hc⟩⟩
  · rw [unbroken_suffix_nil hend hc hline hunbroken]
    exact le_refl _
  · rw [hrows]
    exact nil_suffix
  · rw [hrows]
    simpa using hcount

theorem Ruled.newLine (h : Ruled nl maxRows maxCols used s) (hfits : Fits maxRows maxCols g s)
    (hnl : nl 0x0a = true) (hused : Unbroken nl used) :
    Ruled nl maxRows maxCols used (newLine maxRows true s) := by
  by_cases hrow : s.currentRow < maxRows
  · simp only [Ui.newLine, if_pos hrow, if_true]
    have hwrit : written (s.output ++ [.newline]) = written s.output ++ [0x0a] :=
      written_append _ _
    have hcount := h.count
    have hnone : (rows s.output).last.countP nl = 0 := by
      rw [countP_eq_zero]
      intro c hc
      rw [hused c (h.tail.subset hc)]
      exact Bool.false_ne_true
    refine ruled_endRow (rows_append _ _) ?_ ?_ (by rw [hwrit, getLast?_concat]) hnl used
    · intro line hline hunbroken
      rw [hwrit] at hline
      obtain ⟨before, after, heq⟩ := hline
      rcases eq_nil_or_concat after with rfl | ⟨after, last, rfl⟩
      · rw [append_nil] at heq
        have hnil := unbroken_suffix_nil getLast?_concat hnl ⟨before, heq⟩ hunbroken
        rw [hnil]
        exact zero_le _
      · rw [concat_eq_append, ← append_assoc] at heq
        exact h.lines line ⟨before, after, (append_inj' heq rfl).1⟩ hunbroken
    · rw [hwrit, countP_append]
      simp only [countP_singleton, hnl, if_true]
      omega
  · simp only [Ui.newLine, if_neg hrow]
    exact h.skipRow hfits hrow used true

/-- The end of a line of the input that has its newline. -/
theorem Ruled.endLine (h : Ruled nl maxRows maxCols used s) (hfits : Fits maxRows maxCols g s)
    (hnl : nl 0x0a = true) {c : UInt16} (hg : g.getLast? = some c) (hc : nl c = true)
    (hused : used.countP nl ≤ 1) : Ruled nl maxRows maxCols [] (endLine maxRows s) := by
  by_cases hrow : s.currentRow < maxRows
  · simp only [Ui.endLine, if_pos hrow]
    have hwhole : s.suppressed = false := by
      by_contra hfull
      have hrow' := hfits.full (by simpa using hfull)
      omega
    have hwrit : written (s.output ++ [.rowEnd]) = written s.output := by
      rw [written_append]
      exact append_nil _
    have hcount := h.count
    have hone : (rows s.output).last.countP nl ≤ used.countP nl :=
      h.tail.sublist.countP_le
    rw [← hfits.whole hwhole] at hg
    obtain ⟨c', hend, hc'⟩ := written_getLast hnl hg hc
    refine ruled_endRow (rows_append _ _) (by rw [hwrit]; exact h.lines) ?_
      (hwrit.symm ▸ hend) hc' []
    rw [hwrit]
    omega
  · simp only [Ui.endLine, if_neg hrow]
    exact h.skipRow hfits hrow [] _

/-! ## Runs -/

theorem unbroken_take {word : String16} {p : Nat} (hp : p < word.length)
    (hbody : Unbroken nl (used ++ word.dropLast)) : Unbroken nl (used ++ word.take p) := by
  intro c hc
  refine hbody c ?_
  rcases mem_append.mp hc with hold | hnew
  · exact mem_append_left _ hold
  · have htake : word.take p = word.dropLast.take p := by
      rw [dropLast_eq_take, take_take, min_eq_left (by omega)]
    rw [htake] at hnew
    exact mem_append_right _ (mem_of_mem_take hnew)

theorem fragments_ruled {word : String16} (hchars : ∀ c ∈ word, isLead c = false)
    (hnl : nl 0x0a = true) (hcols : 1 ≤ maxCols)
    (hbody : Unbroken nl (used ++ word.dropLast)) {n a p : Nat} (hle : a ≤ p)
    (hn : p + n = word.length) (hfits : FitsAll maxRows maxCols (g ++ word.take a) tr)
    (hroom : tr.now.currentCol + (p - a) ≤ maxCols)
    (h : Ruled nl maxRows maxCols (used ++ word.take a) tr.now) :
    Ruled nl maxRows maxCols (used ++ word)
      (fragments maxRows maxCols word n a a ⟨p, p⟩ tr).now := by
  induction n generalizing a p tr with
  | zero =>
    obtain rfl : p = word.length := by omega
    by_cases hrest : a = word.length
    · rw [hrest, take_length] at h
      simpa [fragments, hrest] using h
    · have hadd := @Ruled.append _ _ _ _ _ _ h hfits.now
        (substr word a (word.length - a)) (by
          rw [length_substr (le_refl _)]
          exact hroom)
      rw [append_assoc, take_append_substr hle, take_length] at hadd
      rw [fragments, if_pos hrest]
      exact hadd
  | succ n ih =>
    have hend : ¬ p = word.length := by omega
    simp only [fragments, if_neg hend, advance_of_no_pair hchars]
    split_ifs with hbound
    · have hlen : (substr word a (p - a)).length = p - a := length_substr (by omega)
      have hadd := h.append hfits.now (by rw [hlen]; exact hroom)
      have hadded := hfits.take (hfits.now.append (by rw [hlen]; exact hroom))
      rw [append_assoc, take_append_substr hle] at hadd hadded
      have hline := hadd.newLine hadded.now hnl (unbroken_take (by omega) hbody)
      refine ih (le_succ p) (by omega) (hadded.take (hadded.now.newLine true)) ?_ hline
      simp only [Steps.take, newLine]
      omega
    · exact ih (le_succ_of_le hle) (by omega) hfits (by omega) h

theorem addWord_ruled {word : String16} (hchars : ∀ c ∈ word, isLead c = false)
    (hnl : nl 0x0a = true) (hcols : 1 ≤ maxCols)
    (hbody : Unbroken nl (used ++ word.dropLast)) (hfits : FitsAll maxRows maxCols g tr)
    (h : Ruled nl maxRows maxCols used tr.now) :
    Ruled nl maxRows maxCols (used ++ word) (addWord maxRows maxCols true tr word).now := by
  unfold addWord
  split_ifs with hshort hwrap
  · have hused : Unbroken nl used := fun c hc => hbody c (mem_append_left _ hc)
    have hline := h.newLine hfits.now hnl hused
    refine hline.append (hfits.now.newLine true) ?_
    simp only [newLine]
    omega
  · exact h.append hfits.now (by omega)
  · have hroom := hfits.now.col
    exact fragments_ruled hchars hnl hcols hbody (le_refl 0) (zero_add _)
      (by simpa using hfits) (by simpa using hroom) (by simpa using h)

/-- The words up to one of them do not reach the end of the line. -/
theorem unbroken_word {word rest : String16} (hword : word ≠ [])
    (hbody : Unbroken nl (used ++ (word ++ rest)).dropLast) :
    Unbroken nl (used ++ word.dropLast) := by
  intro c hc
  refine hbody c ?_
  rw [dropLast_append_of_ne_nil (by simp [hword])]
  rcases mem_append.mp hc with hold | hnew
  · exact mem_append_left _ hold
  · refine mem_append_right _ ?_
    by_cases hrest : rest = []
    · rwa [hrest, append_nil]
    · rw [dropLast_append_of_ne_nil hrest]
      exact mem_append_left _ (dropLast_subset _ hnew)

theorem addWords_ruled {words : List String16} (hwords : ∀ word ∈ words, word ≠ [])
    (hchars : ∀ c ∈ words.flatten, isLead c = false) (hnl : nl 0x0a = true) (hcols : 1 ≤ maxCols)
    (hbody : Unbroken nl (used ++ words.flatten).dropLast)
    (hfits : FitsAll maxRows maxCols g tr) (h : Ruled nl maxRows maxCols used tr.now) :
    Ruled nl maxRows maxCols (used ++ words.flatten)
      (words.foldl (addWord maxRows maxCols true) tr).now := by
  induction words generalizing g used tr with
  | nil => simpa using h
  | cons word words ih =>
    rw [flatten_cons] at hchars hbody ⊢
    have hword := fun c hc => hchars c (mem_append_left _ hc)
    have hadd := addWord_ruled hword hnl hcols
      (unbroken_word (hwords word mem_cons_self) hbody) hfits h
    rw [foldl_cons, ← append_assoc]
    rw [← append_assoc] at hbody
    exact ih (fun w hw => hwords w (mem_cons_of_mem _ hw))
      (fun c hc => hchars c (mem_append_right _ hc)) hbody (addWord_fits hword hcols hfits)
      hadd

/-- A line, up to where its end is accounted for. -/
theorem addLine_ruled {words : String16 → List String16} {line : String16}
    (hflatten : (words line).flatten = line) (hwords : ∀ word ∈ words line, word ≠ [])
    (hchars : ∀ c ∈ line, isLead c = false) (hnl : nl 0x0a = true) (hcols : 1 ≤ maxCols)
    (hbody : Unbroken nl line.dropLast) (hfits : FitsAll maxRows maxCols g tr)
    (hstart : tr.now.currentCol = 0) (h : Ruled nl maxRows maxCols [] tr.now) :
    ∃ tr' : Steps, addLine maxRows maxCols true words tr line = tr'.take (endLine maxRows) ∧
      Fits maxRows maxCols (g ++ line) tr'.now ∧ Ruled nl maxRows maxCols line tr'.now := by
  unfold addLine
  split_ifs with hshort
  · have hroom : tr.now.currentCol + line.length ≤ maxCols := by omega
    exact ⟨_, rfl, hfits.now.append hroom, h.append hfits.now hroom⟩
  · have hfitsAll := addWords_fits true (hflatten.symm ▸ hchars) hcols hfits
    have hruled := addWords_ruled hwords (hflatten.symm ▸ hchars) hnl hcols
      (by rwa [hflatten, nil_append]) hfits h
    rw [hflatten] at hfitsAll
    rw [hflatten, nil_append] at hruled
    exact ⟨_, rfl, hfitsAll.now, hruled⟩

/-- What strict mode is for: no line is too long, and before the ellipsis there are whole lines,
and not too many. -/
structure Lined (nl : UInt16 → Bool) (maxRows maxCols : Nat) (s : RectangleString) : Prop where
  lines : ∀ line, line <:+: written s.output → Unbroken nl line → line.length ≤ maxCols
  before : s.suppressed = true →
    AtStart nl (written s.output) ∧ (written s.output).countP nl ≤ maxRows

theorem Ruled.lined (h : Ruled nl maxRows maxCols used s) (hfits : Fits maxRows maxCols g s) :
    Lined nl maxRows maxCols s := by
  refine ⟨h.lines, fun hfull => ?_⟩
  have hrow := hfits.full hfull
  have hcount := h.count
  have hended := hfits.count
  rw [hfits.closed hrow, countP_nil] at hcount
  exact ⟨h.full hrow, by omega⟩

theorem Lined.endLine (h : Lined nl maxRows maxCols s) :
    Lined nl maxRows maxCols (endLine maxRows s) := by
  have hwrit : written (Ui.endLine maxRows s).output = written s.output := by
    unfold Ui.endLine
    split
    · rw [written_append]
      exact append_nil _
    · rfl
  have hsuppressed : (Ui.endLine maxRows s).suppressed = s.suppressed := by
    unfold Ui.endLine
    split <;> rfl
  refine ⟨?_, ?_⟩
  · rw [hwrit]
    exact h.lines
  · rw [hwrit, hsuppressed]
    exact h.before

theorem addLines_lined {words : String16 → List String16} {lines : List String16}
    (hflatten : ∀ line ∈ lines, (words line).flatten = line)
    (hwords : ∀ line ∈ lines, ∀ word ∈ words line, word ≠ [])
    (hchars : ∀ c ∈ lines.flatten, isLead c = false) (hnl : nl 0x0a = true) (hcols : 1 ≤ maxCols)
    (hbody : ∀ line ∈ lines, Unbroken nl line.dropLast)
    (hends : ∀ line ∈ lines.dropLast, ∃ c, line.getLast? = some c ∧ nl c = true)
    (hfits : FitsAll maxRows maxCols g tr) (hstart : tr.now.currentCol = 0)
    (h : Ruled nl maxRows maxCols [] tr.now) :
    Lined nl maxRows maxCols (lines.foldl (addLine maxRows maxCols true words) tr).now := by
  induction lines generalizing g tr with
  | nil => exact h.lined hfits.now
  | cons line lines ih =>
    rw [flatten_cons] at hchars
    have hline : ∀ c ∈ line, isLead c = false := fun c hc => hchars c (mem_append_left _ hc)
    have hflat := hflatten line mem_cons_self
    obtain ⟨tr', heq, hfits', hruled⟩ := addLine_ruled hflat
      (hwords line mem_cons_self) hline hnl hcols (hbody line mem_cons_self) hfits
      hstart h
    obtain ⟨hnext, hnextStart⟩ := addLine_fits true hflat hline hcols hfits hstart
    rw [foldl_cons]
    cases lines with
    | nil =>
      rw [foldl_nil, heq]
      exact (hruled.lined hfits').endLine
    | cons next lines =>
      obtain ⟨c, hlast, hc⟩ := hends line (by simp)
      have hcount : line.countP nl ≤ 1 := by
        obtain ⟨init, rfl⟩ := getLast?_eq_some_iff.mp hlast
        have hinit : init.countP nl = 0 := by
          rw [countP_eq_zero]
          intro d hd
          rw [hbody _ mem_cons_self d (by simpa using hd)]
          exact Bool.false_ne_true
        rw [countP_append, hinit, countP_singleton, hc]
        exact le_refl _
      have hg : (g ++ line).getLast? = some c := by
        rw [getLast?_append, hlast]
        rfl
      have hnow : Ruled nl maxRows maxCols [] (addLine maxRows maxCols true words tr line).now := by
        rw [heq]
        exact hruled.endLine hfits' hnl hg hc hcount
      exact ih (fun l hl => hflatten l (mem_cons_of_mem _ hl))
        (fun l hl => hwords l (mem_cons_of_mem _ hl))
        (fun d hd => hchars d (mem_append_right _ hd))
        (fun l hl => hbody l (mem_cons_of_mem _ hl))
        (fun l hl => hends l (by rw [dropLast_cons_cons]; exact mem_cons_of_mem _ hl))
        hnext hnextStart hnow

/-! ## The whole function -/

theorem start_fits : FitsAll maxRows maxCols [] ⟨⟨0, 0, false, []⟩, []⟩ := by
  refine ⟨⟨zero_le _, nil_prefix, fun _ => rfl, fun h => ?_, ?_, le_refl _,
    fun _ => rfl, (Nat.zero_min _).symm⟩, ?_⟩
  · cases h
  · intro row hrow
    cases hrow
  · intro s hs
    cases hs

theorem start_ruled : Ruled nl maxRows maxCols [] ⟨0, 0, false, []⟩ := by
  refine ⟨?_, ?_, nil_suffix, le_refl _, fun _ => .inl rfl⟩
  · intro line hline _
    rw [infix_nil.mp hline]
    exact zero_le _
  · intro _ line hline _
    rw [suffix_nil.mp hline]
    exact le_refl _

/-- The input comes out as it is, up to where there is no more room, with newlines inserted. A break
iterator for newlines ends each line but the last behind the character that ends it. -/
theorem elideRectangleString_reformats {lines words : String16 → List String16}
    {input : String16} {strict : Bool} (hlines : (lines input).flatten = input)
    (hwords : ∀ line ∈ lines input, (words line).flatten = line)
    (hchars : ∀ c ∈ input, isLead c = false ∧ isTrail c = false) (hcols : 1 ≤ maxCols) :
    let run := addString maxRows maxCols strict lines words input
    let result := elideRectangleString maxRows maxCols strict lines words input
    result.2 = written run.now.output ++ (if result.1 then [0x2e, 0x2e, 0x2e] else []) ∧
      given run.now.output <+: input ∧
      (result.1 = false → given run.now.output = input) ∧
      (∀ s ∈ run.passed, s.currentCol ≤ maxCols) ∧
      (strict = true → (∀ line ∈ lines input, ∀ word ∈ words line, word ≠ []) →
        ∀ nl : UInt16 → Bool, nl 0x0a = true →
          (∀ line ∈ lines input, Unbroken nl line.dropLast) →
          (∀ line ∈ (lines input).dropLast, ∃ c, line.getLast? = some c ∧ nl c = true) →
            Lined nl maxRows maxCols run.now) := by
  intro run result
  have hlead : ∀ c ∈ (lines input).flatten, isLead c = false := by
    rw [hlines]
    exact fun c hc => (hchars c hc).1
  have hfits : FitsAll maxRows maxCols input run := by
    have hall := (addLines_fits strict hwords hlead hcols
      (@start_fits maxRows _) rfl).1
    rwa [nil_append, hlines] at hall
  have hresult : result = finalize run.now := rfl
  refine ⟨?_, hfits.now.kept, fun hfalse => hfits.now.whole ?_, hfits.passed, ?_⟩
  · rw [hresult]
    unfold finalize
    split
    · rfl
    · exact (append_nil _).symm
  · rw [hresult] at hfalse
    by_contra hfull
    rw [finalize, if_pos (by simpa using hfull)] at hfalse
    cases hfalse
  · rintro rfl hne nl hnl hbody hends
    exact addLines_lined hwords hne hlead hnl hcols hbody hends start_fits rfl start_ruled

/-- "abc d\ne" in three rows of three. -/
theorem elideRectangleString_reformats_three :
    let lines : String16 → List String16 := fun _ => [[97, 98, 99, 32, 100, 10], [101]]
    let words : String16 → List String16 := fun line =>
      if line = [101] then [[101]] else [[97, 98, 99, 32], [100, 10]]
    let run := addString 3 3 true lines words [97, 98, 99, 32, 100, 10, 101]
    given run.now.output <+: [97, 98, 99, 32, 100, 10, 101] ∧
      Lined (· == 0x0a) 3 3 run.now := by
  intro lines words run
  have h := @elideRectangleString_reformats 3 3 lines words [97, 98, 99, 32, 100, 10, 101] true
    (by decide) (by decide) (by simp [isLead, isTrail]; decide) (by decide)
  exact ⟨h.2.1, h.2.2.2.2 rfl (by decide) _ (by decide) (by simp [lines, Unbroken]) (by
      intro line hline
      rw [mem_singleton.mp hline]
      exact ⟨10, rfl, rfl⟩)⟩

end ChromiumUI.Ui
