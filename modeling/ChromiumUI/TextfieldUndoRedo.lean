import ChromiumUI.TextfieldRuns

/-!
# Undoing and redoing along a run

All the operations of a textfield as one step, the invariant over its runs, and what
undoing and redoing to the end does to the text.
-/
namespace ChromiumUI.Views

open Gfx Ui EditChains Outcomes Runs TextfieldViewsModel

inductive Op where
  | insertText (text : String16)
  | insertChar (c : UInt16)
  | replaceText (text : String16)
  | replaceChar (c : UInt16)
  | append (text : String16)
  | delete
  | backspace
  | setText (text : String16)
  | cut
  | paste (result : String16)
  | deleteSelection
  | deleteSelectionAndInsertTextAt (text : String16) (position : Nat)
  | setCompositionText (composition : CompositionText)
  | confirmCompositionText
  | cancelCompositionText
  | moveCursor (breakType : BreakType) (direction : VisualCursorDirection) (select : Bool)
  | moveCursorToModel (model : SelectionModel)
  | moveCursorToPoint (point : Int × Int) (select : Bool)
  | selectRange (range : Range)
  | selectSelectionModel (sel : SelectionModel)
  | selectAll
  | selectWord
  | clearSelection
  | undo
  | redo

variable (l : Layout)

def apply (m : TextfieldViewsModel) : Op → Option TextfieldViewsModel
  | .insertText text => m.insertText l text
  | .insertChar c => m.insertChar l c
  | .replaceText text => m.replaceText l text
  | .replaceChar c => m.replaceChar l c
  | .append text => m.append l text
  | .delete => (m.delete l).map Prod.fst
  | .backspace => (m.backspace l).map Prod.fst
  | .setText text => (m.setText l text).map Prod.fst
  | .cut => (m.cut l).map Prod.fst
  | .paste result => (m.paste l result).map Prod.fst
  | .deleteSelection => m.deleteSelection l
  | .deleteSelectionAndInsertTextAt text position =>
    m.deleteSelectionAndInsertTextAt l text position
  | .setCompositionText composition => m.setCompositionText l composition
  | .confirmCompositionText => m.confirmCompositionText l
  | .cancelCompositionText => m.cancelCompositionText l
  | .moveCursor breakType direction select => m.moveCursor l breakType direction select
  | .moveCursorToModel model => (m.moveCursorToModel l model).map Prod.fst
  | .moveCursorToPoint point select => (m.moveCursorToPoint l point select).map Prod.fst
  | .selectRange range => m.selectRange l range
  | .selectSelectionModel sel => m.selectSelectionModel l sel
  | .selectAll => m.selectAll l
  | .selectWord => m.selectWord l
  | .clearSelection => m.clearSelection l
  | .undo => (m.undo l).map Prod.fst
  | .redo => (m.redo l).map Prod.fst

/-- What the DCHECKs ask of a caller, and a position inside the remaining text. -/
def allowed (m : TextfieldViewsModel) : Op → Bool
  | .deleteSelection => !m.hasCompositionText && m.hasSelection
  | .deleteSelectionAndInsertTextAt _ position => position ≤ m.remainingLength
  | .confirmCompositionText | .cancelCompositionText => m.hasCompositionText
  | .undo | .redo => !m.hasCompositionText
  | _ => true

def step (m : TextfieldViewsModel) (op : Op) : Option TextfieldViewsModel :=
  if allowed m op then apply l m op else none

/-- Undo until CanUndo is false, with as many calls as there are edits at most. -/
def undoAll : Nat → TextfieldViewsModel → Option TextfieldViewsModel
  | 0, m => some m
  | n + 1, m => if m.canUndo then (m.undo l).bind fun (m, _) => undoAll n m else some m

/-- Redo until CanRedo is false. -/
def redoAll : Nat → TextfieldViewsModel → Option TextfieldViewsModel
  | 0, m => some m
  | n + 1, m => if m.canRedo then (m.redo l).bind fun (m, _) => redoAll n m else some m

variable {l} {m : TextfieldViewsModel} {start : String16}

/-! ## One operation -/

theorem ready_of_idle (h : Synced start m) (hidle : m.hasCompositionText = false) :
    Ready start m := by
  refine h.resolve_right fun hcomp => ?_
  simp [composing_hasCompositionText hcomp] at hidle

theorem composing_of_busy (h : Synced start m) (hbusy : m.hasCompositionText = true) :
    Composing start m := by
  refine h.resolve_left fun hready => ?_
  simp [hready.idle] at hbusy

/-- Every operation but undo, redo and SetCompositionText leaves no composition text, or changes
nothing. -/
theorem apply_next (h : Synced start m) {op : Op} (hallow : allowed m op = true)
    (hundo : op ≠ .undo) (hredo : op ≠ .redo) (hset : ∀ c, op ≠ .setCompositionText c) :
    Yields (apply l m op) fun m' => Next start m m' ∨ m' = m := by
  cases op with
  | insertText text => exact (insertTextInternal_next h text false).mono fun _ => .inl
  | insertChar c => exact (insertTextInternal_next h [c] true).mono fun _ => .inl
  | replaceText text => exact (replaceTextInternal_next h text false).mono fun _ => .inl
  | replaceChar c => exact (replaceTextInternal_next h [c] true).mono fun _ => .inl
  | append text => exact (append_next h text).mono fun _ => .inl
  | delete => exact (delete_next h).map fun _ => .inl
  | backspace => exact (backspace_next h).map fun _ => .inl
  | setText text => exact (setText_next h text).map fun _ => .inl
  | cut => exact (cut_next h).map fun _ => id
  | paste result => exact (paste_next h result).map fun _ => id
  | deleteSelection =>
    have hidle : m.hasCompositionText = false := by
      simp only [allowed, Bool.and_eq_true, Bool.not_eq_true'] at hallow
      exact hallow.1
    exact (deleteSelection_latest (ready_of_idle h hidle)).mono fun _ hm' => .inl hm'.next
  | deleteSelectionAndInsertTextAt text position =>
    have hpos : position ≤ m.remainingLength := by simpa [allowed] using hallow
    exact (deleteSelectionAndInsertTextAt_next h text hpos).mono fun _ => .inl
  | setCompositionText composition => exact absurd rfl (hset composition)
  | confirmCompositionText =>
    exact (confirmCompositionText_next (composing_of_busy h hallow)).mono fun _ => .inl
  | cancelCompositionText =>
    exact (cancelCompositionText_next (composing_of_busy h hallow)).mono fun _ => .inl
  | moveCursor breakType direction select =>
    exact (moveCursor_next h breakType direction select).mono fun _ => .inl
  | moveCursorToModel model => exact (moveCursorToModel_next h model).map fun _ => .inl
  | moveCursorToPoint point select =>
    exact (moveCursorToPoint_next h point select).map fun _ => .inl
  | selectRange range =>
    exact (confirm_then_move h fun m => cursorMoved_selectRange l m.renderText range).mono
      fun _ => .inl
  | selectSelectionModel sel =>
    exact (confirm_then_move h fun m => cursorMoved_moveCursorToModel l m.renderText sel).mono
      fun _ => .inl
  | selectAll =>
    exact (confirm_then_move h fun m => cursorMoved_selectAll l m.renderText).mono
      fun _ => .inl
  | selectWord =>
    exact (confirm_then_move h fun m => cursorMoved_selectWord l m.renderText).mono
      fun _ => .inl
  | clearSelection => exact (clearSelection_next h).mono fun _ => .inl
  | undo => exact absurd rfl hundo
  | redo => exact absurd rfl hredo

/-- Every operation but undo and redo succeeds, and either records nothing or leaves nothing
to redo. -/
theorem apply_kept (h : Synced start m) {op : Op} (hallow : allowed m op = true)
    (hundo : op ≠ .undo) (hredo : op ≠ .redo) : Yields (apply l m op) (Kept start m) := by
  by_cases hset : ∃ c, op = .setCompositionText c
  · obtain ⟨composition, rfl⟩ := hset
    exact setCompositionText_kept h composition
  · refine (apply_next h hallow hundo hredo fun c hc => hset ⟨c, hc⟩).mono fun m' hm' => ?_
    rcases hm' with hnext | rfl
    · exact .of_next hnext
    · exact ⟨h, .refl _⟩

/-- An allowed operation never fails, and keeps the invariant. -/
theorem apply_synced (h : Synced start m) {op : Op} (hallow : allowed m op = true) :
    Yields (apply l m op) (Synced start) := by
  by_cases hundo : op = .undo
  · subst hundo
    have hidle : m.hasCompositionText = false := by simpa [allowed] using hallow
    exact (undo_ready (ready_of_idle h hidle)).map fun _ => .inl
  by_cases hredo : op = .redo
  · subst hredo
    have hidle : m.hasCompositionText = false := by simpa [allowed] using hallow
    exact (redo_ready (ready_of_idle h hidle)).map fun _ => .inl
  · exact (apply_kept h hallow hundo hredo).mono fun _ hm' => hm'.synced

theorem step_synced {m' : TextfieldViewsModel} {op : Op} (h : Synced start m)
    (hstep : step l m op = some m') : Synced start m' := by
  unfold step at hstep
  split at hstep
  · rename_i hallow
    exact (apply_synced h hallow).of_eq hstep
  · cases hstep

/-! ## Undoing and redoing to the end -/

theorem undoAll_yields {last : String16} {done undone : List Edit} {n : Nat}
    (hidle : m.hasCompositionText = false) (hin : SelectionInside m.renderText)
    (h : History start last m done undone m.getText) (hn : done.length ≤ n) :
    Yields (undoAll l n m) fun m' => m'.hasCompositionText = false ∧
      SelectionInside m'.renderText ∧ ∃ undone', History start last m' [] undone' m'.getText := by
  induction n generalizing m done undone with
  | zero =>
    obtain rfl : done = [] := List.length_eq_zero_iff.mp (Nat.le_zero.mp hn)
    exact .some ⟨hidle, hin, undone, h⟩
  | succ n ih =>
    unfold undoAll
    refine .ite (fun hcan => ?_) fun hcan => .some ?_
    · cases done using List.reverseRecOn with
      | nil => exact absurd rfl (h.recorded.canUndo_iff.mp hcan)
      | append_singleton done e =>
        refine Yields.bind (undo_yields hidle hin h) fun r hr => ?_
        refine ih hr.1 hr.2.1 hr.2.2.2 ?_
        rw [List.length_append, List.length_singleton] at hn
        exact Nat.le_of_succ_le_succ hn
    · obtain rfl : done = [] := by
        by_contra hne
        exact hcan (h.recorded.canUndo_iff.mpr hne)
      exact ⟨hidle, hin, undone, h⟩

theorem redoAll_yields {last : String16} {done undone : List Edit} {n : Nat}
    (hidle : m.hasCompositionText = false) (hin : SelectionInside m.renderText)
    (h : History start last m done undone m.getText) (hn : undone.length ≤ n) :
    Yields (redoAll l n m) fun m' => ∃ done', History start last m' done' [] m'.getText := by
  induction n generalizing m done undone with
  | zero =>
    obtain rfl : undone = [] := List.length_eq_zero_iff.mp (Nat.le_zero.mp hn)
    exact .some ⟨done, h⟩
  | succ n ih =>
    unfold redoAll
    refine .ite (fun hcan => ?_) fun hcan => .some ?_
    · cases undone with
      | nil => exact absurd rfl (h.recorded.canRedo_iff.mp hcan)
      | cons e undone =>
        refine Yields.bind (redo_yields hidle hin h) fun r hr => ?_
        exact ih hr.1 hr.2.1 hr.2.2.2 (Nat.le_of_succ_le_succ hn)
    · obtain rfl : undone = [] := by
        by_contra hne
        exact hcan (h.recorded.canRedo_iff.mpr hne)
      exact ⟨done, h⟩

theorem Recorded.length_le {done undone : List Edit} (h : Recorded m done undone) :
    done.length ≤ m.editHistory.length ∧ undone.length ≤ m.editHistory.length := by
  rw [h.history, List.length_append]
  omega

/-- What undoing and redoing does from here, for a history that started from this text. -/
structure UndoRedo (l : Layout) (start : String16) (m : TextfieldViewsModel) : Prop where
  /-- Undoing to the end restores the start text; redoing to the end then leads to the text
  that redoing at once leads to, which is the present one when there is nothing to redo. -/
  toTheEnd : m.hasCompositionText = false →
    ∃ m₁ m₂ m₃, undoAll l m.editHistory.length m = some m₁ ∧ m₁.canUndo = false ∧
      m₁.getText = start ∧ redoAll l m₁.editHistory.length m₁ = some m₂ ∧
      m₂.canRedo = false ∧ redoAll l m.editHistory.length m = some m₃ ∧
      m₂.getText = m₃.getText ∧ (m.canRedo = false → m₂.getText = m.getText)
  undoRedo : m.hasCompositionText = false → m.canUndo = true →
    ∃ m₁ m₂, step l m .undo = some m₁ ∧ step l m₁ .redo = some m₂ ∧ m₂.getText = m.getText
  redoUndo : m.hasCompositionText = false → m.canRedo = true →
    ∃ m₁ m₂, step l m .redo = some m₁ ∧ step l m₁ .undo = some m₂ ∧ m₂.getText = m.getText
  /-- An edit recorded by whatever operation leaves nothing to redo. -/
  recorded : ∀ op, op ≠ .undo → op ≠ .redo → allowed m op = true →
    ∃ m', step l m op = some m' ∧
      (m'.canRedo = false ∨ m'.editHistory = m.editHistory ∧ m'.currentEdit = m.currentEdit)

theorem toTheEnd_of_ready (h : Ready start m) :
    ∃ m₁ m₂ m₃, undoAll l m.editHistory.length m = some m₁ ∧ m₁.canUndo = false ∧
      m₁.getText = start ∧ redoAll l m₁.editHistory.length m₁ = some m₂ ∧
      m₂.canRedo = false ∧ redoAll l m.editHistory.length m = some m₃ ∧
      m₂.getText = m₃.getText ∧ (m.canRedo = false → m₂.getText = m.getText) := by
  obtain ⟨last, done, undone, hh⟩ := h.history
  obtain ⟨m₁, hm₁, hidle, hin, undone', h₁⟩ :=
    undoAll_yields (l := l) h.idle h.inside hh hh.recorded.length_le.1
  obtain ⟨m₂, hm₂, done₂, h₂⟩ := redoAll_yields (l := l) hidle hin h₁ h₁.recorded.length_le.2
  obtain ⟨m₃, hm₃, done₃, h₃⟩ :=
    redoAll_yields (l := l) h.idle h.inside hh hh.recorded.length_le.2
  have hlast₂ : m₂.getText = last := chain_nil.mp h₂.undone
  have hlast₃ : m₃.getText = last := chain_nil.mp h₃.undone
  refine ⟨m₁, m₂, m₃, hm₁, ?_, (chain_nil.mp h₁.done).symm, hm₂, ?_, hm₃,
    hlast₂.trans hlast₃.symm, fun hno => hlast₂.trans ?_⟩
  · simpa using h₁.recorded.canUndo_iff
  · simpa using h₂.recorded.canRedo_iff
  · have hundone : undone = [] := by
      by_contra hne
      simp [hh.recorded.canRedo_iff.mpr hne] at hno
    subst hundone
    exact (chain_nil.mp hh.undone).symm

theorem step_undo_eq {r : TextfieldViewsModel × Bool} (hidle : m.hasCompositionText = false)
    (h : m.undo l = some r) : step l m .undo = some r.1 := by
  simp [step, allowed, apply, hidle, h]

theorem step_redo_eq {r : TextfieldViewsModel × Bool} (hidle : m.hasCompositionText = false)
    (h : m.redo l = some r) : step l m .redo = some r.1 := by
  simp [step, allowed, apply, hidle, h]

theorem undoRedo_of_ready (h : Ready start m) (hcan : m.canUndo = true) :
    ∃ m₁ m₂, step l m .undo = some m₁ ∧ step l m₁ .redo = some m₂ ∧
      m₂.getText = m.getText := by
  obtain ⟨last, done, undone, hh⟩ := h.history
  cases done using List.reverseRecOn with
  | nil => exact absurd rfl (hh.recorded.canUndo_iff.mp hcan)
  | append_singleton done e =>
    obtain ⟨r, hr, hidle, hin, hback, h₁⟩ := undo_yields (l := l) h.idle h.inside hh
    obtain ⟨r', hr', -, -, hforth, -⟩ := redo_yields (l := l) hidle hin h₁
    exact ⟨r.1, r'.1, step_undo_eq h.idle hr, step_redo_eq hidle hr', hforth.unique hback⟩

theorem redoUndo_of_ready (h : Ready start m) (hcan : m.canRedo = true) :
    ∃ m₁ m₂, step l m .redo = some m₁ ∧ step l m₁ .undo = some m₂ ∧
      m₂.getText = m.getText := by
  obtain ⟨last, done, undone, hh⟩ := h.history
  cases undone with
  | nil => exact absurd rfl (hh.recorded.canRedo_iff.mp hcan)
  | cons e undone =>
    obtain ⟨r, hr, hidle, hin, -, h₁⟩ := redo_yields (l := l) h.idle h.inside hh
    obtain ⟨r', hr', -, -, -, h₂⟩ := undo_yields (l := l) hidle hin h₁
    refine ⟨r.1, r'.1, step_redo_eq h.idle hr, step_undo_eq hidle hr', ?_⟩
    refine Chain.unique ?_ h₂.done hh.done
    intro e t a b ha hb
    exact ha.unique hb

theorem undoRedo_of_synced (h : Synced start m) : UndoRedo l start m where
  toTheEnd := fun hidle => toTheEnd_of_ready (ready_of_idle h hidle)
  undoRedo := fun hidle hcan => undoRedo_of_ready (ready_of_idle h hidle) hcan
  redoUndo := fun hidle hcan => redoUndo_of_ready (ready_of_idle h hidle) hcan
  recorded := fun op hundo hredo hallow => by
    obtain ⟨m', hm', hkept⟩ := apply_kept (l := l) h hallow hundo hredo
    exact ⟨m', by rw [step, if_pos hallow, hm'], hkept.carried⟩

/-- A textfield before its first edit: any text, any selection inside it. -/
structure Start (m : TextfieldViewsModel) : Prop where
  noEdits : m.editHistory = [] ∧ m.currentEdit = none
  idle : m.hasCompositionText = false
  inside : SelectionInside m.renderText

theorem Start.synced {m₀ : TextfieldViewsModel} (h : Start m₀) : Synced m₀.getText m₀ :=
  .inl ⟨h.idle, h.inside, m₀.getText, [], [], ⟨by simp [h.noEdits.1], h.noEdits.2⟩, .nil _, .nil _⟩

/-- A new textfield. -/
def TextfieldViewsModel.new : TextfieldViewsModel := ⟨.new, [], none⟩

theorem start_new : Start .new := ⟨⟨rfl, rfl⟩, rfl, Nat.le_refl 0, Nat.le_refl 0⟩

open Splices

variable {l : Layout} {m : TextfieldViewsModel} {start : String16}

/-- The text without its composition text or its selection. -/
def TextfieldViewsModel.remainingText (m : TextfieldViewsModel) : String16 :=
  if m.hasCompositionText then
    eraseAt m.getText m.renderText.compositionRange.start m.renderText.compositionRange.length
  else eraseAt m.getText m.renderText.selection.getMin m.renderText.selection.length

theorem remainingText_composing (h : Composing start m) : m.remainingText =
    eraseAt m.getText m.renderText.compositionRange.start
      m.renderText.compositionRange.length := by
  rw [remainingText, composing_hasCompositionText h, if_pos rfl]

theorem remainingText_ready (h : Ready start m) : m.remainingText =
    eraseAt m.getText m.renderText.selection.getMin m.renderText.selection.length := by
  rw [remainingText, h.idle, if_neg Bool.false_ne_true]

/-! ## Setting -/

theorem deleteSelection_text (h : Ready start m) :
    Yields (m.deleteSelection l) fun m' => Latest start m' ∧ m'.getText = m.remainingText := by
  have hle : m.renderText.selection.getMin + m.renderText.selection.length ≤ m.getText.length :=
    getMin_add_length_le h.inside.1 h.inside.2
  unfold deleteSelection executeAndRecordDelete
  rw [substr?_eq (by omega), Option.bind_some, remainingText_ready h]
  exact executeAndRecord_yields h (Edit.leads_deleteEdit false _ hle)

/-- What a composition is put into: the text without the old composition and the selection. -/
theorem cleared_text (h : Synced start m) :
    Yields (if m.hasCompositionText then m.cancelCompositionText l
      else if m.hasSelection then m.deleteSelection l
      else some m) fun m' => Ready start m' ∧ m'.getText = m.remainingText := by
  rcases h with hready | hcomp
  · rw [hready.idle, if_neg Bool.false_ne_true]
    refine .ite (fun _ => (deleteSelection_text hready).mono fun _ hm' => ⟨hm'.1.ready, hm'.2⟩)
      fun hnone => .some ⟨hready, ?_⟩
    have hempty : m.renderText.selection.length = 0 := by
      have hends : m.renderText.selection.start = m.renderText.selection.end_ := by
        simpa [TextfieldViewsModel.hasSelection] using hnone
      simp [Range.length, hends]
    rw [remainingText_ready hready, hempty, eraseAt_zero]
  · rw [composing_hasCompositionText hcomp, if_pos rfl, remainingText_composing hcomp]
    obtain ⟨m', hm', hmodified⟩ := cancelCompositionText_modified (l := l) hcomp
    have hnext := (cancelCompositionText_next (l := l) hcomp).of_eq hm'
    exact ⟨m', hm', hnext.ready, hmodified.text⟩

/-- The composition stands in the text at its range, around it is `base`. -/
structure Composed (composition base : String16) (m : TextfieldViewsModel) : Prop where
  start_le : m.renderText.compositionRange.start ≤ base.length
  range : m.renderText.compositionRange = ⟨m.renderText.compositionRange.start,
    m.renderText.compositionRange.start + composition.length⟩
  text : m.getText = insertAt base m.renderText.compositionRange.start composition

/-- SetCompositionText puts the composition at the cursor, an empty one nowhere. -/
theorem setCompositionText_yields (h : Synced start m) (c : CompositionText) :
    Yields (m.setCompositionText l c) fun m' =>
      (c.text = [] → Ready start m' ∧ m'.getText = m.remainingText) ∧
      (c.text ≠ [] → Composing start m' ∧ Composed c.text m.remainingText m') := by
  unfold setCompositionText
  refine Yields.bind (cleared_text h) fun m' hm' => ?_
  obtain ⟨hready, htext⟩ := hm'
  refine .ite (fun hempty => .some ?_) fun hne => ?_
  · have hempty : c.text = [] := by simpa using hempty
    exact ⟨fun _ => ⟨hready, htext⟩, fun hne => absurd hempty hne⟩
  · have hne : c.text ≠ [] := by simpa using hne
    refine (insertComposition_yields hready c hne).mono fun m'' hm'' => ⟨fun h => absurd h hne,
      fun _ => ⟨hm''.composing, ?_⟩⟩
    have hcur : m'.getCursorPosition ≤ m'.getText.length := hready.inside.2
    rw [htext] at hcur
    have htext'' := hm''.text
    rw [htext] at htext''
    constructor <;> rw [hm''.range]
    · exact hcur
    · exact htext''

theorem Composed.remainingText {composition base : String16} (h : Composed composition base m)
    (hcomp : Composing start m) : m.remainingText = base := by
  have hlen : m.renderText.compositionRange.length = composition.length := by
    rw [h.range, Range.length]
    simp
  rw [remainingText_composing hcomp, h.text, hlen, eraseAt_insertAt h.start_le]

/-- The characters at the range are those of the composition. -/
theorem Composed.delimits {composition base : String16} (h : Composed composition base m) :
    substr? m.getText m.renderText.compositionRange.start m.renderText.compositionRange.length =
      some composition := by
  have hlen : m.renderText.compositionRange.length = composition.length := by
    rw [h.range, Range.length]
    simp
  obtain ⟨a, b, hbase, hal⟩ := exists_split h.start_le
  have htext : m.getText = a ++ (composition ++ b) := by
    rw [h.text, hbase, insertAt_append hal, List.append_assoc]
  have hle : m.renderText.compositionRange.start ≤ m.getText.length := by
    rw [htext, List.length_append, hal]
    omega
  rw [substr?_eq hle, htext, hlen, ← hal, List.drop_left, List.take_left]

/-! ## Canceling -/

/-- Canceling, or what cancels, leaves the remaining text and records nothing. -/
structure Canceled (m m' : TextfieldViewsModel) : Prop where
  idle : m'.hasCompositionText = false
  text : m'.getText = m.remainingText
  history : m'.editHistory = m.editHistory
  current : m'.currentEdit = m.currentEdit

section

variable (h : Composing start m)
include h

theorem cancelCompositionText_canceled : Yields (m.cancelCompositionText l) (Canceled m) := by
  refine (cancelCompositionText_modified h).mono fun m' hm' => ?_
  exact ⟨hm'.idle, hm'.text.trans (remainingText_composing h).symm, hm'.history, hm'.current⟩

theorem delete_canceled : Yields (m.delete l) fun r => Canceled m r.1 := by
  unfold delete
  rw [composing_hasCompositionText h, if_pos rfl]
  exact (cancelCompositionText_canceled h).map fun _ => id

theorem backspace_canceled : Yields (m.backspace l) fun r => Canceled m r.1 := by
  unfold backspace
  rw [composing_hasCompositionText h, if_pos rfl]
  exact (cancelCompositionText_canceled h).map fun _ => id

/-- InsertText puts its text where the cursor is after the composition was canceled. -/
theorem insertTextInternal_canceled (text : String16) (mergeable : Bool) :
    Yields (m.insertTextInternal l text mergeable) fun m' => m'.hasCompositionText = false ∧
      ∃ cursor ≤ m.remainingText.length, m'.getText = insertAt m.remainingText cursor text := by
  unfold insertTextInternal
  rw [composing_hasCompositionText h, if_pos rfl]
  obtain ⟨m', hm', hcanceled⟩ := cancelCompositionText_canceled (l := l) h
  have hready := ((cancelCompositionText_next (l := l) h).of_eq hm').ready
  have hcur : m'.getCursorPosition ≤ m'.getText.length := hready.inside.2
  rw [hm', Option.bind_some]
  refine (executeAndRecord_yields hready (Edit.leads_insertEdit mergeable text hcur)).mono
    fun m'' hm'' => ⟨hm''.1.ready.idle, m'.getCursorPosition, ?_, ?_⟩
  · rw [← hcanceled.text]
    exact hcur
  · rw [hm''.2, hcanceled.text]

end

/-! ## Confirming -/

/-- An insertion that is not mergeable is always a new edit. -/
theorem addOrMergeEditHistory_push {done undone : List Edit} (h : Recorded m done undone)
    (text : String16) (position : Nat) :
    m.addOrMergeEditHistory (.insertEdit false text position) =
      some (m.clearRedoHistory.pushEdit (.insertEdit false text position), false) := by
  obtain ⟨hclear, -⟩ := h.clearRedoHistory
  have hmerge (e : Edit) : e.merge (.insertEdit false text position) = some (e, false) := by
    simp [Edit.merge, Edit.mergeable, Edit.mergeWithPrevious, Edit.insertEdit]
  unfold addOrMergeEditHistory
  simp only
  split
  · rfl
  · rename_i current hcurr
    have hget : ∃ e, m.clearRedoHistory.editHistory[current]? = some e := by
      rw [hclear.current] at hcurr
      cases done using List.reverseRecOn with
      | nil => cases hcurr
      | append_singleton done e =>
        rw [lastIndex_concat] at hcurr
        cases hcurr
        exact ⟨e, by rw [hclear.history]; simp⟩
    obtain ⟨e, he⟩ := hget
    rw [he, Option.bind_some, hmerge]
    rfl

/-- Confirming keeps the text, clears what was undone and adds one edit; undoing that edit takes
the composition text out again. -/
structure Confirmed (l : Layout) (m m' : TextfieldViewsModel) : Prop where
  idle : m'.hasCompositionText = false
  text : m'.getText = m.getText
  history : ∃ composition, substr? m.getText m.renderText.compositionRange.start
      m.renderText.compositionRange.length = some composition ∧
    m'.editHistory = m.clearRedoHistory.editHistory ++
      [.insertEdit false composition m.renderText.compositionRange.start]
  noRedo : m'.canRedo = false
  undo : m'.canUndo = true ∧ Yields (m'.undo l) fun r =>
    r.1.getText = m.remainingText ∧ r.1.currentEdit = m.currentEdit

/-- What an insertion leads from is what it leads to without the inserted text. -/
theorem insertEdit_before {mergeable : Bool} {text before after : String16} {position : Nat}
    (h : (Edit.insertEdit mergeable text position).commit.Leads before after) :
    before = eraseAt after position text.length := by
  obtain ⟨rest, ha⟩ := h.around
  have hpos : position ≤ rest.length := ha.newStart nofun
  have hpre : before = rest := ha.before.trans (insertAt_nil rest position)
  have hafter : after = insertAt rest position text := ha.after
  rw [hpre, hafter, eraseAt_insertAt hpos]

theorem confirmCompositionText_confirmed (h : Composing start m) :
    Yields (m.confirmCompositionText l) (Confirmed l m) := by
  have hlen := composing_range_length h
  have hend := h.inText
  obtain ⟨last, done, undone, hh⟩ := h.history
  obtain ⟨hclear, hrt⟩ := hh.recorded.clearRedoHistory
  have hsubstr : substr? m.getText m.renderText.compositionRange.start
      m.renderText.compositionRange.length = some ((m.getText.drop
        m.renderText.compositionRange.start).take m.renderText.compositionRange.length) :=
    substr?_eq (by omega) _
  have hat : m.renderText.compositionRange.start ≤
      (eraseAt m.getText m.renderText.compositionRange.start
        m.renderText.compositionRange.length).length := by
    rw [length_eraseAt (by omega)]
    omega
  have hedit := Edit.leads_insertEdit false
    ((m.getText.drop m.renderText.compositionRange.start).take
      m.renderText.compositionRange.length) hat
  rw [insertAt_eraseAt (by omega)] at hedit
  have hchars : ((m.getText.drop m.renderText.compositionRange.start).take
      m.renderText.compositionRange.length).length = m.renderText.compositionRange.length := by
    rw [List.length_take, List.length_drop]
    omega
  generalize (m.getText.drop m.renderText.compositionRange.start).take
    m.renderText.compositionRange.length = chars at hsubstr hedit hchars
  generalize hpos : m.renderText.compositionRange.start = position at hsubstr hedit hh
  unfold confirmCompositionText
  simp only
  rw [hpos, hsubstr, Option.bind_some, addOrMergeEditHistory_push hh.recorded, Option.map_some]
  refine .some ?_
  have hmoved := cursorMoved_setCursorPosition l
    (m.clearRedoHistory.pushEdit (.insertEdit false chars position)).renderText
    m.renderText.compositionRange.end_
  have hrecorded := hclear.pushEdit (.insertEdit false chars position)
  generalize hm' : ((m.clearRedoHistory.pushEdit (.insertEdit false chars
    position)).setCursorPosition l m.renderText.compositionRange.end_).clearComposition = m'
  have htext : m'.getText = m.getText := by
    rw [← hm']
    exact hmoved.text.trans (congrArg RenderText.text hrt)
  have hrecorded' : Recorded m' (done ++ [.insertEdit false chars position]) [] := by
    rw [← hm']
    exact ⟨hrecorded.history, hrecorded.current⟩
  have hhist : History start m.getText m' (done ++ [.insertEdit false chars position]) []
      m'.getText := by
    rw [htext]
    exact ⟨hrecorded', chain_concat.mpr ⟨_, hh.done, hedit⟩, .nil _⟩
  have hidle : m'.hasCompositionText = false := by
    rw [← hm']
    rfl
  have hin : SelectionInside m'.renderText := by
    rw [← hm']
    exact hmoved.inside (hrt.symm ▸ h.inside)
  refine ⟨hidle, htext, ⟨chars, by rw [hpos]; exact hsubstr, ?_⟩, ?_, ?_, ?_⟩
  · rw [← hm', hpos]
    rfl
  · simpa using hrecorded'.canRedo_iff
  · exact hrecorded'.canUndo_iff.mpr (by simp)
  · refine (undo_yields hidle hin hhist).mono fun r hr => ?_
    obtain ⟨-, -, hleads, hundone⟩ := hr
    refine ⟨?_, hundone.recorded.current.trans hh.recorded.current.symm⟩
    rw [insertEdit_before hleads, htext, remainingText_composing h, hpos, hchars]

/-! ## Along a run -/

theorem apply_idle (h : Synced start m) {op : Op} (hallow : allowed m op = true)
    (hset : ∀ c, op ≠ .setCompositionText c) :
    Yields (apply l m op) fun m' => m'.hasCompositionText = false ∨ m' = m := by
  by_cases hundo : op = .undo
  · subst hundo
    have hidle : m.hasCompositionText = false := by simpa [allowed] using hallow
    exact (undo_ready (ready_of_idle h hidle)).map fun _ hr => .inl hr.idle
  by_cases hredo : op = .redo
  · subst hredo
    have hidle : m.hasCompositionText = false := by simpa [allowed] using hallow
    exact (redo_ready (ready_of_idle h hidle)).map fun _ hr => .inl hr.idle
  · exact (apply_next h hallow hundo hredo hset).mono fun _ hm' =>
      hm'.imp_left fun hnext => hnext.ready.idle

/-- A composition in the text is transient: canceling it, in one way or another, leaves the text
without it, and confirming it records one edit that undoes it. -/
structure Transient (l : Layout) (m : TextfieldViewsModel) : Prop where
  range : m.renderText.compositionRange.start < m.renderText.compositionRange.end_ ∧
    m.renderText.compositionRange.end_ ≤ m.getText.length
  cancel : Yields (m.cancelCompositionText l) (Canceled m)
  delete : Yields (m.delete l) fun r => Canceled m r.1
  backspace : Yields (m.backspace l) fun r => Canceled m r.1
  insertText : ∀ text, Yields (m.insertText l text) fun m' => m'.hasCompositionText = false ∧
    ∃ cursor ≤ m.remainingText.length, m'.getText = insertAt m.remainingText cursor text
  confirm : Yields (m.confirmCompositionText l) (Confirmed l m)

theorem transient_of_composing (h : Composing start m) : Transient l m where
  range := ⟨h.forward, h.inText⟩
  cancel := cancelCompositionText_canceled h
  delete := delete_canceled h
  backspace := backspace_canceled h
  insertText := fun text => insertTextInternal_canceled h text false
  confirm := confirmCompositionText_confirmed h

theorem synced_inside (h : Synced start m) : SelectionInside m.renderText :=
  h.elim Ready.inside Composing.inside

/-- A composition in the text is the one that was set last. -/
theorem run_composition {m₀ : TextfieldViewsModel} {ops : List Op} (hstart : Start m₀)
    (hrun : run (step l) ops m₀ = some m) (hbusy : m.hasCompositionText = true) :
    ∃ before c m₁, run (step l) before m₀ = some m₁ ∧ m₁.setCompositionText l c = some m ∧
      c.text ≠ [] := by
  induction ops using List.reverseRecOn generalizing m with
  | nil =>
    cases hrun
    rw [hstart.idle] at hbusy
    cases hbusy
  | append_singleton ops op ih =>
    rw [run_concat] at hrun
    obtain ⟨m₁, hm₁, hstep⟩ := Option.bind_eq_some_iff.mp hrun
    have hsync : Synced m₀.getText m₁ :=
      run_invariant (fun _ _ _ h hs => step_synced h hs) hm₁ hstart.synced
    unfold step at hstep
    split at hstep
    · rename_i hallow
      by_cases hset : ∃ c, op = .setCompositionText c
      · obtain ⟨c, rfl⟩ := hset
        refine ⟨ops, c, m₁, hm₁, hstep, fun hempty => ?_⟩
        have hidle := (((setCompositionText_yields hsync c).of_eq hstep).1 hempty).1.idle
        rw [hidle] at hbusy
        cases hbusy
      · rcases (apply_idle hsync hallow fun c hc => hset ⟨c, hc⟩).of_eq hstep with hidle | rfl
        · rw [hidle] at hbusy
          cases hbusy
        · exact ih hm₁ hbusy
    · cases hstep

end ChromiumUI.Views
