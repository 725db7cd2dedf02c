import ChromiumUI.RectangleText

/-!
# Runs of a text in a rectangle

ElideRectangleText ends, and keeps the text inside the rectangle.
-/
namespace ChromiumUI.Ui

open Gfx Views List Nat Rectangle
open ChromiumUI.Fuel

variable {r : Rectangle} {g used text word line : String16} {s : RectangleText}

/-- What the texts of a group of results are laid out with. -/
structure Layable (r : Rectangle) : Prop where
  additive : Additive r.width
  available : 0 ≤ r.availableWidth
  height : 0 < r.lineHeight
  behavior : r.wrapBehavior ≠ .ignoreLongWords
  words : ∀ line, (r.words line).flatten = line

/-! ## WrapWord -/

/-- How many more turns the loop of WrapWord can make without using up the word. -/
def turns (r : Rectangle) (firstFragment : Bool) (s : RectangleText) : Nat :=
  (if firstFragment then 1 else 0) +
    if s.full then 0 else (r.availableHeight - s.currentHeight).toNat + 1

theorem wrapLoop_stop {firstFragment : Bool} {linesAdded : Nat} (h : s.full = true ∨ text = [])
    (fuel : Nat) :
    r.wrapLoop (fuel + 1) firstFragment linesAdded text s = some (linesAdded, s) := by
  rw [wrapLoop, if_pos (by simpa using h)]

/-- A turn of the loop. -/
theorem wrapLoop_step {firstFragment : Bool} {linesAdded : Nat} (hopen : s.full = false)
    (htext : text ≠ []) (fuel : Nat) :
    r.wrapLoop (fuel + 1) firstFragment linesAdded text s =
      r.wrapLoop fuel false
        (if (if firstFragment then false else (r.newLine s).1) then linesAdded + 1
          else linesAdded)
        (text.drop (r.elide .truncateAtEnd text).length)
        (r.addToCurrentLine (r.elide .truncateAtEnd text)
          (if firstFragment then s else (r.newLine s).2)) := by
  rw [wrapLoop, if_neg (by simp [hopen, htext])]
  cases firstFragment <;> rfl

theorem full_addToCurrentLine (a : String16) (h : s.full = true) :
    (r.addToCurrentLine a s).full = true := by
  unfold addToCurrentLine addToCurrentLineWithWidth
  split
  · rfl
  · exact h

theorem height_addToCurrentLine (a : String16) :
    (r.addToCurrentLine a s).currentHeight = s.currentHeight := by
  unfold addToCurrentLine addToCurrentLineWithWidth
  split <;> rfl

theorem turns_add_le (a : String16) (firstFragment : Bool) :
    turns r firstFragment (r.addToCurrentLine a s) ≤ turns r firstFragment s := by
  unfold turns
  rw [height_addToCurrentLine]
  cases hfull : s.full with
  | true => rw [full_addToCurrentLine a hfull]
  | false => split <;> split <;> simp

/-- A new line takes one of the rows that are left, if there are any. -/
theorem turns_newLine_lt (hheight : 0 < r.lineHeight) (hopen : s.full = false) :
    turns r false (r.newLine s).2 < turns r false s := by
  by_cases hrow : s.currentHeight < r.availableHeight
  · rw [newLine_open hrow]
    simp only [turns, hopen, Bool.false_eq_true, if_false]
    omega
  · rw [newLine_closed hrow]
    simp [turns, hopen]

theorem wrapLoop_ends (hr : Layable r) {n : Nat} {firstFragment : Bool} {linesAdded : Nat}
    (hn : turns r firstFragment s ≤ n) (hsize : 2 * text.length < 2 ^ r.target.sizeBits)
    (hfirst : firstFragment = true → s.currentLine = []) (h : Inside r (g ++ used) s) :
    ∃ result, Computes (fun fuel => r.wrapLoop fuel firstFragment linesAdded text s) result ∧
      Inside r (g ++ (used ++ text)) result.2 := by
  induction n generalizing used text s firstFragment linesAdded with
  | zero =>
    have hfull : s.full = true := by
      by_contra hopen
      simp [turns, hopen] at hn
    refine ⟨(linesAdded, s),
      (Computes.pure _).succ fun fuel => wrapLoop_stop (Or.inl hfull) fuel, ?_⟩
    rw [← append_assoc]
    exact h.extend hfull
  | succ n ih =>
    by_cases hstop : s.full = true ∨ text = []
    · refine ⟨(linesAdded, s), (Computes.pure _).succ fun fuel => wrapLoop_stop hstop fuel, ?_⟩
      rcases hstop with hfull | hempty
      · rw [← append_assoc]
        exact h.extend hfull
      · rw [hempty, append_nil]
        exact h
    · rw [not_or, Bool.not_eq_true] at hstop
      obtain ⟨⟨⟨p, hp, hfragment, -⟩, -⟩, -⟩ := elide_truncates hr.additive hsize
      have hfits := elide_fits hr.additive hr.available hsize
        (show ElideBehavior.truncateAtEnd ≠ .elideInMiddle by decide)
      have hlen : (r.elide .truncateAtEnd text).length = p := by
        rw [hfragment, length_take, min_eq_left hp]
      -- the state the fragment is added to, at the beginning of a line
      obtain ⟨hin, hnil, hturns⟩ :
          Inside r (g ++ used) (if firstFragment then s else (r.newLine s).2) ∧
            (if firstFragment then s else (r.newLine s).2).currentLine = [] ∧
              turns r false (if firstFragment then s else (r.newLine s).2) ≤ n := by
        cases firstFragment with
        | true =>
          refine ⟨h, hfirst rfl, ?_⟩
          simp only [turns, if_true, Bool.false_eq_true, if_false] at hn ⊢
          omega
        | false =>
          obtain ⟨hnew, hnil⟩ := h.newLine hr.additive hr.available hr.height
          have hlt := turns_newLine_lt hr.height hstop.1
          exact ⟨hnew, hnil, by simp only [Bool.false_eq_true, if_false]; omega⟩
      have hnext : Inside r (g ++ (used ++ r.elide .truncateAtEnd text))
          (r.addToCurrentLine (r.elide .truncateAtEnd text)
            (if firstFragment then s else (r.newLine s).2)) := by
        refine hin.add ?_ hr.additive fun _ => ?_
        · rw [hnil, nil_append]
          exact Int.le_trans (width_trimTrailing_le hr.additive _) hfits
        · rw [← append_assoc, visible_append]
      have hrest : 2 * (text.drop (r.elide .truncateAtEnd text).length).length <
          2 ^ r.target.sizeBits := by
        rw [length_drop]
        omega
      obtain ⟨result, hres, hend⟩ := ih (le_trans (turns_add_le _ false) hturns) hrest
        (fun hfalse => by cases hfalse) hnext
      refine ⟨result, hres.succ fun fuel => wrapLoop_step hstop.1 hstop.2 fuel, ?_⟩
      rwa [hlen, append_assoc, hfragment, take_append_drop] at hend

/-! ## Words -/

theorem addLongWord_ends (hr : Layable r) {linesAdded : Nat}
    (hsize : 2 * word.length < 2 ^ r.target.sizeBits) (hnil : s.currentLine = [])
    (h : Inside r g s) :
    ∃ result, Computes (fun fuel => r.addLongWord fuel word linesAdded s) result ∧
      Inside r (g ++ word) result.2 := by
  have hplace : ∀ behavior : ElideBehavior, behavior ≠ .elideInMiddle →
      r.wrapBehavior ≠ .wrapLongWords →
        Inside r (g ++ word) (r.addToCurrentLine (r.elide behavior word) s) := by
    intro behavior hbeh hwrap
    refine h.add ?_ hr.additive fun hno => absurd hno hwrap
    rw [hnil, nil_append]
    exact Int.le_trans (width_trimTrailing_le hr.additive _)
      (elide_fits hr.additive hr.available hsize hbeh)
  cases hbeh : r.wrapBehavior with
  | ignoreLongWords => exact absurd hbeh hr.behavior
  | truncateLongWords =>
    refine ⟨_, (Computes.pure (linesAdded, _)).congr fun fuel => ?_, hplace .truncateAtEnd
      (by decide) (by rw [hbeh]; decide)⟩
    rw [addLongWord, hbeh]
    rfl
  | elideLongWords =>
    refine ⟨_, (Computes.pure (linesAdded, _)).congr fun fuel => ?_, hplace .elideAtEnd
      (by decide) (by rw [hbeh]; decide)⟩
    rw [addLongWord, hbeh]
    rfl
  | wrapLongWords =>
    obtain ⟨result, hres, hend⟩ := @wrapLoop_ends r g [] word s hr _ true 0 (le_refl _)
      hsize (fun _ => hnil) (by rwa [append_nil])
    refine ⟨_, (hres.map fun p => (linesAdded + p.1, p.2)).congr fun fuel => ?_, ?_⟩
    · rw [addLongWord, hbeh]
      rfl
    · rwa [nil_append] at hend

theorem addWordOverflow_ends (hr : Layable r) (hsize : 2 * word.length < 2 ^ r.target.sizeBits)
    (h : Inside r g s) :
    ∃ result, Computes (fun fuel => r.addWordOverflow fuel word s) result ∧
      Inside r (g ++ word) result.2 := by
  by_cases hnil : s.currentLine = []
  · obtain ⟨result, hres, hend⟩ := @addLongWord_ends r g word s hr 0 hsize hnil h
    refine ⟨result, hres.congr fun fuel => ?_, hend⟩
    rw [addWordOverflow, if_neg (by simpa using hnil)]
  · obtain ⟨hnew, hnewNil⟩ := h.newLine hr.additive hr.available hr.height
    have hrow : s.currentHeight < r.availableHeight := by
      by_contra hshut
      exact hnil (h.closed (by omega))
    obtain ⟨result, hres, hend⟩ := @addLongWord_ends r g word _ hr 1 hsize hnewNil hnew
    refine ⟨result, hres.congr fun fuel => ?_, hend⟩
    rw [addWordOverflow, if_pos hnil, newLine_open hrow]
    rfl

/-- A word that has room on a line of its own. -/
theorem addWord_of_fits (hfits : r.width (trimTrailing word) ≤ r.availableWidth) (fuel : Nat) :
    r.addWord fuel word s =
      if s.currentWidth + r.width (trimTrailing word) > r.availableWidth then
        some (if (r.newLine s).1 then 1 else 0, r.addToCurrentLine word (r.newLine s).2)
      else some (0, r.addToCurrentLine word s) := by
  rw [Rectangle.addWord]
  dsimp only
  rw [if_pos hfits]
  split <;> rfl

theorem currentLine_addToCurrentLine (a : String16) (hnil : s.currentLine = []) :
    (r.addToCurrentLine a s).currentLine = a ∨ (r.addToCurrentLine a s).currentLine = [] := by
  unfold addToCurrentLine addToCurrentLineWithWidth
  split
  · exact Or.inr hnil
  · left
    rw [hnil, nil_append]

theorem addWord_ends (hr : Layable r) (hsize : 2 * word.length < 2 ^ r.target.sizeBits)
    (h : Inside r g s) :
    ∃ result, Computes (fun fuel => r.addWord fuel word s) result ∧
      Inside r (g ++ word) result.2 ∧
      (containsOnlyWhitespace word = true → result.1 ≠ 0 →
        visible result.2.currentLine = []) := by
  by_cases hfits : r.width (trimTrailing word) ≤ r.availableWidth
  · by_cases hwide : s.currentWidth + r.width (trimTrailing word) > r.availableWidth
    · obtain ⟨hnew, hnil⟩ := h.newLine hr.additive hr.available hr.height
      refine ⟨_, (Computes.pure _).congr fun fuel => by rw [addWord_of_fits hfits, if_pos hwide],
        hnew.add ?_ hr.additive fun _ => visible_append g word, fun hspaces _ => ?_⟩
      · rwa [hnil, nil_append]
      · rcases currentLine_addToCurrentLine word hnil with hline | hline
        · dsimp only
          rw [hline]
          exact visible_eq_nil (all_eq_true.mp hspaces)
        · dsimp only
          rw [hline]
          rfl
    · refine ⟨_, (Computes.pure _).congr fun fuel => by rw [addWord_of_fits hfits, if_neg hwide],
        h.add ?_ hr.additive fun _ => visible_append g word, fun _ hno => absurd rfl hno⟩
      have hle := width_trimTrailing_append_le hr.additive s.currentLine word
      rw [h.width] at hwide
      omega
  · obtain ⟨result, hres, hend⟩ := addWordOverflow_ends hr hsize h
    refine ⟨result, hres.congr fun fuel => ?_, hend, fun hspaces _ => ?_⟩
    · rw [Rectangle.addWord]
      rw [if_neg hfits, if_neg hr.behavior]
    · rw [trimTrailing_eq_nil hspaces, hr.additive.nil] at hfits
      exact absurd hr.available hfits

/-- Trimming a line that was added. -/
theorem Inside.trim (h : Inside r g s) (i : Nat) :
    Inside r g { s with lines := s.lines.modify i trimTrailing } := by
  have hvis : visible ((s.lines.modify i trimTrailing).flatten ++ s.currentLine) =
      visible (s.lines.flatten ++ s.currentLine) := by
    rw [visible_append, visible_append, visible_flatten_modify]
  refine ⟨h.closed, h.full, h.width, h.line, fun line hline => ?_, fun hwrap => ?_,
    fun hwrap hopen => ?_⟩
  · obtain ⟨line', hmem, rfl | rfl⟩ := mem_modify_trim hline
    · exact h.lines line hmem
    · rw [trimTrailing_trimTrailing]
      exact h.lines line' hmem
  · dsimp only
    rw [hvis]
    exact h.kept hwrap
  · dsimp only
    rw [hvis]
    exact h.whole hwrap hopen

/-- Skipping whitespace at the beginning of a line. -/
theorem Inside.skip (h : Inside r g s) (hr : Layable r) (hnil : visible s.currentLine = []) :
    Inside r g { s with currentWidth := 0, currentLine := [] } := by
  have hvis : visible (s.lines.flatten ++ []) =
      visible (s.lines.flatten ++ s.currentLine) := by
    rw [visible_append, visible_append, hnil]
    rfl
  refine ⟨fun _ => rfl, h.full, hr.additive.nil.symm, ?_, h.lines, fun hwrap => ?_,
    fun hwrap hopen => ?_⟩
  · dsimp only
    rw [trimTrailing, rdropWhile_nil, hr.additive.nil]
    exact hr.available
  · dsimp only
    rw [hvis]
    exact h.kept hwrap
  · dsimp only
    rw [hvis]
    exact h.whole hwrap hopen

theorem addBrokenWord_ends (hr : Layable r) (hsize : 2 * word.length < 2 ^ r.target.sizeBits)
    (h : Inside r g s) :
    ∃ s', Computes (fun fuel => r.addBrokenWord fuel s word) s' ∧ Inside r (g ++ word) s' := by
  obtain ⟨result, hres, hend, hspaces⟩ := addWord_ends hr hsize h
  refine ⟨_, hres.map _, ?_⟩
  dsimp only
  split_ifs with hnone honly htruncate htruncate
  · exact hend
  · exact (hend.trim _).skip hr (hspaces honly hnone)
  · exact hend.skip hr (hspaces honly hnone)
  · exact hend.trim _
  · exact hend

/-! ## Lines -/

theorem length_le_flatten {parts : List String16} {part : String16} (h : part ∈ parts) :
    part.length ≤ parts.flatten.length := (sublist_flatten_of_mem h).length_le

theorem addBrokenWords_ends (hr : Layable r) {words : List String16}
    (hsize : ∀ word ∈ words, 2 * word.length < 2 ^ r.target.sizeBits) (h : Inside r g s) :
    ∃ s', Computes (fun fuel => words.foldlM (r.addBrokenWord fuel) s) s' ∧
      Inside r (g ++ words.flatten) s' := by
  induction words generalizing g s with
  | nil => exact ⟨s, Computes.pure s, by simpa using h⟩
  | cons word words ih =>
    obtain ⟨s₁, hword, hin⟩ := addBrokenWord_ends hr (hsize word mem_cons_self) h
    obtain ⟨s₂, hwords, hend⟩ := ih (fun w hw => hsize w (mem_cons_of_mem _ hw)) hin
    refine ⟨s₂, hword.bind hwords, ?_⟩
    rwa [append_assoc] at hend

theorem addLine_ends (hr : Layable r) (hsize : 2 * line.length < 2 ^ r.target.sizeBits)
    (hnil : s.currentLine = []) (h : Inside r g s) :
    ∃ s', Computes (fun fuel => r.addLine fuel line s) s' ∧ Inside r (g ++ line) s' ∧
      s'.currentLine = [] := by
  by_cases hshort : r.width line < r.availableWidth
  · have hadded : Inside r (g ++ line) (r.addToCurrentLineWithWidth line (r.width line) s) := by
      refine h.add ?_ hr.additive fun _ => visible_append g line
      rw [hnil, nil_append]
      have hle := width_trimTrailing_le hr.additive line
      omega
    refine ⟨_, ((Computes.pure _).map fun s => (r.newLine s).2).congr fun fuel => ?_,
      hadded.newLine hr.additive hr.available hr.height⟩
    rw [Rectangle.addLine, if_pos hshort]
  · obtain ⟨s', hwords, hin⟩ := @addBrokenWords_ends r g s hr (r.words line)
      (fun word hword => by
        have hle := length_le_flatten hword
        rw [hr.words] at hle
        omega) h
    rw [hr.words] at hin
    refine ⟨_, (hwords.map fun s => (r.newLine s).2).congr fun fuel => ?_,
      hin.newLine hr.additive hr.available hr.height⟩
    rw [Rectangle.addLine, if_neg hshort]

theorem visible_dropLast (h : line.getLast? = some 0x0a) :
    visible line.dropLast = visible line := by
  obtain ⟨init, rfl⟩ := List.getLast?_eq_some_iff.mp h
  have hnil : visible [0x0a] = [] := visible_eq_nil fun c hc => by
    rw [mem_singleton.mp hc]
    decide
  rw [dropLast_concat, visible_append, hnil, append_nil]

theorem addLines_ends (hr : Layable r) {lines : List String16}
    (hsize : ∀ line ∈ lines, 2 * line.length < 2 ^ r.target.sizeBits) (hnil : s.currentLine = [])
    (h : Inside r g s) :
    ∃ s', Computes (fun fuel => r.addLines fuel lines s) s' ∧ Inside r (g ++ lines.flatten) s' ∧
      s'.currentLine = [] := by
  induction lines generalizing g s with
  | nil => exact ⟨s, Computes.pure s, by simpa using h, hnil⟩
  | cons line lines ih =>
    by_cases hfull : s.full = true
    · refine ⟨s, (Computes.pure s).congr fun fuel => ?_, h.extend hfull, hnil⟩
      rw [addLines, if_pos hfull]
    · have hline := hsize line mem_cons_self
      -- the line without its newline
      obtain ⟨body, hbody, hvis, hlen⟩ : ∃ body,
          (if line.getLast? == some 0x0a then line.dropLast else line) = body ∧
            visible body = visible line ∧ body.length ≤ line.length := by
        by_cases hlf : line.getLast? = some 0x0a
        · refine ⟨line.dropLast, by simp [hlf], visible_dropLast hlf, ?_⟩
          rw [length_dropLast]
          omega
        · exact ⟨line, by simp [hlf], rfl, le_refl _⟩
      have hmarked : Inside r g { s with lastLineEndedInLf := line.getLast? == some 0x0a } :=
        ⟨h.closed, h.full, h.width, h.line, h.lines, h.kept, h.whole⟩
      obtain ⟨s₁, hadd, hin, hnil₁⟩ := @addLine_ends r g body
        { s with lastLineEndedInLf := line.getLast? == some 0x0a } hr (by omega) hnil hmarked
      have hseen : Inside r (g ++ line) s₁ := hin.congr (by
        rw [visible_append, visible_append, hvis])
      obtain ⟨s₂, hrest, hend, hnil₂⟩ :=
        ih (fun l hl => hsize l (mem_cons_of_mem _ hl)) hnil₁ hseen
      refine ⟨s₂, (hadd.bind hrest).congr fun fuel => ?_, ?_, hnil₂⟩
      · rw [addLines, if_neg hfull]
        dsimp only
        rw [hbody]
      · rwa [append_assoc] at hend

/-! ## Finalize -/

/-- Finalize takes away and adds nothing but whitespace. -/
theorem finalize_lines (hr : Layable r) (h : Inside r g s) (hnil : s.currentLine = []) :
    (∀ line ∈ s.finalize.2, r.width (trimTrailing line) ≤ r.availableWidth) ∧
      visible s.finalize.2.flatten = visible (s.lines.flatten ++ s.currentLine) := by
  rw [hnil, append_nil]
  obtain ⟨lines, hlines, hwidths, hvis⟩ : ∃ lines,
      s.finalize.2 = (if s.lastLineEndedInLf then lines ++ [[]] else lines) ∧
        (∀ line ∈ lines, r.width (trimTrailing line) ≤ r.availableWidth) ∧
          visible lines.flatten = visible s.lines.flatten := by
    rw [RectangleText.finalize]
    dsimp only
    cases s.full with
    | true => exact ⟨s.lines, rfl, h.lines, rfl⟩
    | false =>
      cases hlast : s.lines.getLast? with
      | none => exact ⟨s.lines, rfl, h.lines, rfl⟩
      | some last =>
        obtain ⟨init, hinit⟩ := List.getLast?_eq_some_iff.mp hlast
        have hwidths := h.lines
        rw [hinit] at hwidths ⊢
        have hold : ∀ line ∈ init, r.width (trimTrailing line) ≤ r.availableWidth :=
          fun line hline => hwidths line (mem_append_left _ hline)
        refine ⟨_, rfl, ?_, ?_⟩
        · rw [dropLast_concat]
          dsimp only
          split_ifs
          · exact hold
          · intro line hline
            rcases mem_append.mp hline with hmem | hmem
            · exact hold line hmem
            · rw [mem_singleton.mp hmem, trimTrailing_trimTrailing]
              exact hwidths last (by simp)
        · rw [dropLast_concat]
          have htrim := visible_trimTrailing last
          dsimp only
          split_ifs with hdrop
          · have hblank : trimTrailing last = [] := by
              rw [Bool.and_eq_true, decide_eq_true_eq] at hdrop
              exact hdrop.1
            rw [hblank] at htrim
            rw [flatten_append, visible_append, flatten_singleton, ← htrim]
            exact (append_nil _).symm
          · simp only [flatten_append, visible_append, flatten_singleton, htrim]
  rw [hlines]
  split_ifs
  · refine ⟨fun line hline => ?_, by simpa using hvis⟩
    rcases mem_append.mp hline with hmem | hmem
    · exact hwidths line hmem
    · rw [mem_singleton.mp hmem, trimTrailing, rdropWhile_nil, hr.additive.nil]
      exact hr.available
  · exact ⟨hwidths, hvis⟩

/-- Two rows of three characters. -/
def twoRows : Rectangle where
  target := .lp64
  width := monospace
  lineHeight := 10
  availableWidth := 3
  availableHeight := 20
  wrapBehavior := .wrapLongWords
  words := fun line => [line]

open ChromiumUI.Fuel

variable {r : Rectangle} {word text : String16} {s s₀ : RectangleText}

/-- The turns of the loop of WrapWord: whether one is the first, the text and the state before. -/
inductive Iterates (r : Rectangle) (word : String16) (s₀ : RectangleText) :
    Bool → String16 → RectangleText → Prop
  | start : Iterates r word s₀ true word s₀
  | step {firstFragment : Bool} {text : String16} {s : RectangleText}
      (h : Iterates r word s₀ firstFragment text s) (hopen : s.full = false) (htext : text ≠ []) :
      Iterates r word s₀ false (text.drop (r.elide .truncateAtEnd text).length)
        (r.addToCurrentLine (r.elide .truncateAtEnd text)
          (if firstFragment then s else (r.newLine s).2))

/-- All that has been laid out. -/
def RectangleText.content (s : RectangleText) : String16 := s.lines.flatten ++ s.currentLine

/-- WrapWord takes at least a character every time, ends, and adds the word, unless there is no
more room. -/
structure Wraps (r : Rectangle) (word : String16) (s₀ : RectangleText) : Prop where
  progress : ∀ firstFragment text s, Iterates r word s₀ firstFragment text s →
    s.full = false → text ≠ [] → r.elide .truncateAtEnd text ≠ []
  ends : ∃ result, Computes (fun fuel => r.wrapWord fuel word s₀) result ∧
    (∃ p, result.2.content = s₀.content ++ word.take p) ∧
    (result.2.full = false → result.2.content = s₀.content ++ word)

/-- What is left of a word when the longest beginning that fits is taken off so many times. -/
inductive Rest (width : String16 → Int) (available : Int) (word : String16) : String16 → Prop
  | whole : Rest width available word word
  | step {text piece : String16} (h : Rest width available word text) (htext : text ≠ [])
      (hpiece : Longest width available text piece) :
      Rest width available word (text.drop piece.length)

/-- Every character fits on a line of its own. -/
def SinglesFit (width : String16 → Int) (available : Int) (word : String16) : Prop :=
  ∀ i, width ((word.drop i).take (firstLength (word.drop i))) ≤ available

theorem Rest.drop (h : Rest r.width r.availableWidth word text) : ∃ i, text = word.drop i := by
  induction h with
  | whole => exact ⟨0, rfl⟩
  | step _ _ _ ih =>
    obtain ⟨i, hi⟩ := ih
    exact ⟨_, by rw [hi, drop_drop]⟩

theorem Longest.length_unique {width : String16 → Int} {available : Int} {a b : String16}
    (ha : Longest width available text a) (hb : Longest width available text b)
    (hane : a ≠ []) (hbne : b ≠ []) : a.length = b.length := by
  obtain ⟨p, hp, rfl, hpair⟩ := ha.cut
  obtain ⟨q, hq, rfl, hpair'⟩ := hb.cut
  have hpq := ha.most q hq hpair' (hb.fits.resolve_left hbne)
  have hqp := hb.most p hp hpair (ha.fits.resolve_left hane)
  rw [length_take] at hpq hqp ⊢
  rw [length_take]
  omega

/-- Where the first character fits, the longest beginning that fits is not empty. -/
theorem Longest.ne_nil (hadd : Additive r.width) {piece : String16} (htext : text ≠ [])
    (hfirst : r.width (text.take (firstLength text)) ≤ r.availableWidth)
    (h : Longest r.width r.availableWidth text piece) : piece ≠ [] := by
  rintro rfl
  have hunfit := (longest_nil_iff hadd htext).mp h
  omega

/-- Something is taken exactly where ElideText finds the longest beginning. -/
theorem elide_ne_nil_iff (hadd : Additive r.width)
    (hsize : 2 * text.length < 2 ^ r.target.sizeBits) (htext : text ≠ [])
    (hfirst : r.width (text.take (firstLength text)) ≤ r.availableWidth) :
    r.elide .truncateAtEnd text ≠ [] ↔ Truncates r.width r.availableWidth text := by
  obtain ⟨-, hlongest, hnil⟩ := elide_truncates hadd hsize
  constructor
  · exact fun hne => hnil.resolve_left hne
  · exact fun htruncates => (hlongest.mpr htruncates).ne_nil hadd htext hfirst

/-! ## With the condition -/

theorem content_newLine (s : RectangleText) : (r.newLine s).2.content = s.content := by
  by_cases hrow : s.currentHeight < r.availableHeight
  · rw [newLine_open hrow]
    simp [RectangleText.content]
  · rw [newLine_closed hrow]
    rfl

theorem content_addToCurrentLine (a : String16) (s : RectangleText) :
    ((r.addToCurrentLine a s).full = true ∧ (r.addToCurrentLine a s).content = s.content) ∨
      (r.addToCurrentLine a s).content = s.content ++ a := by
  unfold Rectangle.addToCurrentLine Rectangle.addToCurrentLineWithWidth
  split
  · exact Or.inl ⟨rfl, rfl⟩
  · exact Or.inr (append_assoc _ _ _).symm

theorem rest_size (hsize : 2 * word.length < 2 ^ r.target.sizeBits)
    (h : Rest r.width r.availableWidth word text) : 2 * text.length < 2 ^ r.target.sizeBits := by
  obtain ⟨i, rfl⟩ := h.drop
  rw [length_drop]
  omega

/-- With the longest beginning found, what is left is what is left of the word. -/
theorem rest_step (hadd : Additive r.width) (hsize : 2 * word.length < 2 ^ r.target.sizeBits)
    (hcond : ∀ rest, Rest r.width r.availableWidth word rest → rest ≠ [] →
      Truncates r.width r.availableWidth rest)
    (h : Rest r.width r.availableWidth word text) (htext : text ≠ []) :
    Rest r.width r.availableWidth word (text.drop (r.elide .truncateAtEnd text).length) := by
  obtain ⟨-, hlongest, -⟩ := elide_truncates hadd (rest_size hsize h)
  exact h.step htext (hlongest.mpr (hcond text h htext))

theorem iterates_rest (hadd : Additive r.width) (hsize : 2 * word.length < 2 ^ r.target.sizeBits)
    (hcond : ∀ rest, Rest r.width r.availableWidth word rest → rest ≠ [] →
      Truncates r.width r.availableWidth rest) {firstFragment : Bool}
    (h : Iterates r word s₀ firstFragment text s) : Rest r.width r.availableWidth word text := by
  induction h with
  | start => exact .whole
  | step _ _ htext ih => exact rest_step hadd hsize hcond ih htext

theorem singlesFit_rest (hsingles : SinglesFit r.width r.availableWidth word)
    (h : Rest r.width r.availableWidth word text) :
    r.width (text.take (firstLength text)) ≤ r.availableWidth := by
  obtain ⟨i, rfl⟩ := h.drop
  exact hsingles i

/-- The loop uses the text up, unless there is no more room. -/
theorem wrapLoop_adds (hadd : Additive r.width) (hsize : 2 * word.length < 2 ^ r.target.sizeBits)
    (hsingles : SinglesFit r.width r.availableWidth word)
    (hcond : ∀ rest, Rest r.width r.availableWidth word rest → rest ≠ [] →
      Truncates r.width r.availableWidth rest)
    {n : Nat} (hn : text.length ≤ n) (h : Rest r.width r.availableWidth word text)
    (firstFragment : Bool) (linesAdded : Nat) (s : RectangleText) :
    ∃ result, Computes (fun fuel => r.wrapLoop fuel firstFragment linesAdded text s) result ∧
      (∃ p, result.2.content = s.content ++ text.take p) ∧
      (result.2.full = false → result.2.content = s.content ++ text) := by
  induction n generalizing text s firstFragment linesAdded with
  | zero =>
    obtain rfl := length_eq_zero_iff.mp (Nat.le_zero.mp hn)
    refine ⟨(linesAdded, s), (Computes.pure _).succ fun fuel => wrapLoop_stop (Or.inr rfl) fuel,
      ⟨0, ?_⟩, fun _ => ?_⟩ <;> simp
  | succ n ih =>
    by_cases hstop : s.full = true ∨ text = []
    · refine ⟨(linesAdded, s), (Computes.pure _).succ fun fuel => wrapLoop_stop hstop fuel,
        ⟨0, by simp⟩, fun hopen => ?_⟩
      rcases hstop with hfull | rfl
      · rw [hfull] at hopen
        cases hopen
      · exact (append_nil _).symm
    · rw [not_or, Bool.not_eq_true] at hstop
      obtain ⟨hopen, htext⟩ := hstop
      have hrest := rest_step hadd hsize hcond h htext
      have hne := (elide_ne_nil_iff hadd (rest_size hsize h) htext
        (singlesFit_rest hsingles h)).mpr (hcond text h htext)
      obtain ⟨⟨⟨p, hp, hfragment, -⟩, -⟩, -⟩ := elide_truncates hadd (rest_size hsize h)
      have hlen : (r.elide .truncateAtEnd text).length = p := by
        rw [hfragment, length_take, Nat.min_eq_left hp]
      have hpos : 0 < (r.elide .truncateAtEnd text).length := length_pos_iff.mpr hne
      have hcontent : (if firstFragment then s else (r.newLine s).2).content = s.content := by
        split
        · rfl
        · exact content_newLine s
      rcases content_addToCurrentLine (r.elide .truncateAtEnd text)
        (if firstFragment then s else (r.newLine s).2) with ⟨hfull, hsame⟩ | hmore
      · refine ⟨_, ((Computes.pure _).succ fun fuel => wrapLoop_stop (Or.inl hfull) fuel).succ
          fun fuel => wrapLoop_step hopen htext fuel, ⟨0, ?_⟩, fun hfalse => ?_⟩
        · rw [hsame, hcontent]
          simp
        · rw [hfull] at hfalse
          cases hfalse
      · obtain ⟨result, hres, ⟨q, hq⟩, hall⟩ := ih (by rw [length_drop]; omega) hrest false
          (if (if firstFragment then false else (r.newLine s).1) then linesAdded + 1
            else linesAdded) _
        rw [hmore, hcontent, hlen, hfragment] at hq hall
        refine ⟨result, hres.succ fun fuel => wrapLoop_step hopen htext fuel, ⟨p + q, ?_⟩,
          fun hfalse => ?_⟩
        · rw [hq, append_assoc, ← take_add]
        · rw [hall hfalse, append_assoc, take_append_drop]

theorem wraps_of_truncates (hadd : Additive r.width)
    (hsize : 2 * word.length < 2 ^ r.target.sizeBits)
    (hsingles : SinglesFit r.width r.availableWidth word)
    (hcond : ∀ rest, Rest r.width r.availableWidth word rest → rest ≠ [] →
      Truncates r.width r.availableWidth rest) (s₀ : RectangleText) : Wraps r word s₀ where
  progress := fun firstFragment text s h _ htext => by
    have hrest := iterates_rest hadd hsize hcond h
    exact (elide_ne_nil_iff hadd (rest_size hsize hrest) htext
      (singlesFit_rest hsingles hrest)).mpr (hcond text hrest htext)
  ends := wrapLoop_adds hadd hsize hsingles hcond (Nat.le_refl _) .whole true 0 s₀

/-! ## Without the condition -/

theorem addToCurrentLine_open (a : String16) (hrow : s.currentHeight < r.availableHeight) :
    (r.addToCurrentLine a s).full = s.full ∧
      (r.addToCurrentLine a s).currentHeight = s.currentHeight := by
  unfold Rectangle.addToCurrentLine Rectangle.addToCurrentLineWithWidth
  rw [if_neg (by omega)]
  exact ⟨rfl, rfl⟩

/-- Where every word wraps, a state with enough rows left gets to every rest of the word. -/
theorem rest_iterates (hadd : Additive r.width) (hsize : 2 * word.length < 2 ^ r.target.sizeBits)
    (hsingles : SinglesFit r.width r.availableWidth word)
    (hwraps : ∀ s₀, Wraps r word s₀) (h : Rest r.width r.availableWidth word text) (rows : Nat) :
    ∃ s₀ firstFragment s, Iterates r word s₀ firstFragment text s ∧ s.full = false ∧
      s.currentHeight + rows * max r.lineHeight 0 < r.availableHeight := by
  induction h generalizing rows with
  | whole =>
    refine ⟨⟨0, r.availableHeight - 1 - rows * max r.lineHeight 0, [], false, [], false⟩, true, _,
      .start, rfl, ?_⟩
    dsimp only
    omega
  | @step text piece hrest htext hpiece ih =>
    obtain ⟨s₀, firstFragment, s, hiterates, hopen, hrows⟩ := ih (rows + 1)
    have hnneg : 0 ≤ (rows : Int) * max r.lineHeight 0 :=
      Int.mul_nonneg (Int.natCast_nonneg rows) (Int.le_max_right _ _)
    have hmax : r.lineHeight ≤ max r.lineHeight 0 := Int.le_max_left _ _
    rw [Int.natCast_add, Int.natCast_one, Int.add_mul, Int.one_mul] at hrows
    have hfirst := singlesFit_rest hsingles hrest
    obtain ⟨-, hlongest, hnil⟩ := elide_truncates hadd (rest_size hsize hrest)
    have hne := (hwraps s₀).progress firstFragment text s hiterates hopen htext
    have hlen := (hlongest.mpr (hnil.resolve_left hne)).length_unique hpiece hne
      (hpiece.ne_nil hadd htext hfirst)
    have hstep := hiterates.step hopen htext
    rw [hlen] at hstep
    have hstate : (if firstFragment then s else (r.newLine s).2).full = false ∧
        (if firstFragment then s else (r.newLine s).2).currentHeight + rows * max r.lineHeight 0 <
          r.availableHeight := by
      split
      · exact ⟨hopen, by omega⟩
      · rw [newLine_open (by omega)]
        exact ⟨hopen, by dsimp only; omega⟩
    obtain ⟨hfull, hheight⟩ := addToCurrentLine_open (r.elide .truncateAtEnd text)
      (show (if firstFragment then s else (r.newLine s).2).currentHeight < r.availableHeight by
        omega)
    exact ⟨s₀, false, _, hstep, hfull.trans hstate.1, by rw [hheight]; exact hstate.2⟩

theorem truncates_of_wraps (hadd : Additive r.width)
    (hsize : 2 * word.length < 2 ^ r.target.sizeBits)
    (hsingles : SinglesFit r.width r.availableWidth word) (hwraps : ∀ s₀, Wraps r word s₀)
    (h : Rest r.width r.availableWidth word text) (htext : text ≠ []) :
    Truncates r.width r.availableWidth text := by
  obtain ⟨s₀, firstFragment, s, hiterates, hopen, -⟩ :=
    rest_iterates hadd hsize hsingles hwraps h 0
  exact (elide_ne_nil_iff hadd (rest_size hsize h) htext (singlesFit_rest hsingles h)).mp
    ((hwraps s₀).progress firstFragment text s hiterates hopen htext)

/-- ElideText finds the longest beginning that fits exactly where `Truncates` says so, and WrapWord
gets on exactly where that holds of all that is left of the word again and again. -/
theorem truncation_iff (hadd : Additive r.width) (hsize : 2 * text.length < 2 ^ r.target.sizeBits) :
    (∃ result, Computes (fun fuel =>
        elideText r.target r.width r.availableWidth .truncateAtEnd fuel text) result ∧
      (Longest r.width r.availableWidth text result ↔
        Truncates r.width r.availableWidth text)) ∧
      (SinglesFit r.width r.availableWidth text →
        ((∀ s₀, Wraps r text s₀) ↔
          ∀ rest, Rest r.width r.availableWidth text rest → rest ≠ [] →
            Truncates r.width r.availableWidth rest)) := by
  constructor
  · obtain ⟨result, hrun, -, hlongest, -⟩ :=
      @elideText_truncation r.target r.width r.availableWidth text hadd hsize
    exact ⟨result, ⟨_, hrun⟩, hlongest⟩
  · intro hsingles
    constructor
    · exact fun hwraps rest hrest htext => truncates_of_wraps hadd hsize hsingles hwraps hrest htext
    · exact fun hcond => wraps_of_truncates hadd hsize hsingles hcond

/-- "ab" on lines of one character. -/
def narrow : Rectangle where
  target := .lp64
  width := monospace
  lineHeight := 10
  availableWidth := 1
  availableHeight := 20
  wrapBehavior := .wrapLongWords
  words := fun line => [line]

theorem singlesFit_narrow : SinglesFit monospace 1 [97, 98]
  | 0 => by decide
  | 1 => by decide
  | n + 2 => by simp [monospace]

theorem truncation_iff_narrow :
    (∃ result, Computes (fun fuel => elideText .lp64 monospace 1 .truncateAtEnd fuel [97, 98])
        result ∧
      (Longest monospace 1 [97, 98] result ↔ Truncates monospace 1 [97, 98])) ∧
      ((∀ s₀, Wraps narrow [97, 98] s₀) ↔
        ∀ rest, Rest monospace 1 [97, 98] rest → rest ≠ [] → Truncates monospace 1 rest) := by
  have h := @truncation_iff narrow [97, 98] monospace_additive (by decide)
  exact ⟨h.1, h.2 singlesFit_narrow⟩

/-- One of the two characters fits; nothing is returned. -/
theorem elideText_empty_cut :
    Computes (fun fuel => elideText .lp64 monospace 1 .truncateAtEnd fuel [97, 98]) [] ∧
      monospace ([97, 98].take 1) ≤ 1 ∧ ¬ InsidePair [97, 98] 1 ∧
      ¬ Longest monospace 1 [97, 98] [] := by
  obtain ⟨result, hrun, -⟩ :=
    @elideText_truncation .lp64 monospace 1 [97, 98] monospace_additive (by decide)
  have hnil : result = [] := by
    have hfour := hrun 4 (Nat.le_refl 4)
    exact (Option.some.inj hfour).symm
  subst hnil
  refine ⟨⟨_, hrun⟩, by decide, by decide, fun hlongest => ?_⟩
  have hmost := hlongest.most 1 (by decide) (by decide) (by decide)
  exact absurd hmost (by decide)

end ChromiumUI.Ui
