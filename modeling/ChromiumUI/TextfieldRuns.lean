import ChromiumUI.TextfieldUndo

/-!
# Runs of a textfield

Every operation keeps the invariant, so undoing and redoing can be followed along any run.
-/
namespace ChromiumUI.Views

open Gfx Splices Ui EditChains Outcomes Runs List Option Nat Bool RenderText

namespace TextfieldViewsModel

variable {l : Layout} {m : TextfieldViewsModel} {start : String16}

/-! ## Recording operations -/

/-- What recording an edit does: nothing is left to redo. -/
structure Latest (start : String16) (m : TextfieldViewsModel) : Prop where
  ready : Ready start m
  noRedo : m.canRedo = false

theorem Latest.next {m' : TextfieldViewsModel} (h : Latest start m') : Next start m m' :=
  ⟨h.ready, .inl h.noRedo⟩

theorem executeAndRecord_yields (h : Ready start m) {edit : Edit} {text' : String16}
    (hedit : edit.Leads m.getText text') :
    Yields (m.executeAndRecord l edit) fun m' => Latest start m' ∧ m'.getText = text' := by
  obtain ⟨last, done, undone, hh⟩ := h.history
  refine Yields.bind (hh.addOrMerge hedit) fun r hr => ?_
  obtain ⟨hrt, done', hh'⟩ := hr
  have htext : r.1.getText = m.getText := congrArg text hrt
  refine (redoEdit_yields (hrt ▸ h.inside) (htext ▸ hedit)).mono fun m' hm' => ⟨?_, hm'.text⟩
  have hh'' := hh'.congr hm'.history hm'.current
  exact
    { ready := ⟨hm'.idle, hm'.inside, text', done', [], hm'.text ▸ hh''⟩
      noRedo := by simpa using hh''.recorded.canRedo_iff }

theorem executeAndRecord_latest (h : Ready start m) {edit : Edit} {text' : String16}
    (hedit : edit.Leads m.getText text') : Yields (m.executeAndRecord l edit) (Latest start) :=
  (executeAndRecord_yields h hedit).mono fun _ hm' => hm'.1

theorem executeAndRecordInsert_latest (h : Ready start m) (text : String16) (mergeable : Bool) :
    Yields (m.executeAndRecordInsert l text mergeable) (Latest start) :=
  executeAndRecord_latest h (Edit.leads_insertEdit mergeable text h.inside.2)

theorem getMin_add_length_le {range : Range} {n : Nat} (hstart : range.start ≤ n)
    (hend : range.end_ ≤ n) : range.getMin + range.length ≤ n := by
  rw [Range.getMin_add_length, Range.getMax]
  omega

section

variable (h : Ready start m)
include h

theorem executeAndRecordDelete_latest {range : Range} (mergeable : Bool)
    (hstart : range.start ≤ m.getText.length) (hend : range.end_ ≤ m.getText.length) :
    Yields (m.executeAndRecordDelete l range mergeable) (Latest start) := by
  have hle := getMin_add_length_le hstart hend
  unfold executeAndRecordDelete
  rw [substr?_eq (by omega), bind_some]
  exact executeAndRecord_latest h (Edit.leads_deleteEdit mergeable _ hle)

theorem deleteSelection_latest : Yields (m.deleteSelection l) (Latest start) :=
  executeAndRecordDelete_latest h false h.inside.1 h.inside.2

/-- Replacing the selection, with the new text put at a position of what remains. -/
theorem executeAndRecordReplace_latest {mergeType : MergeType}
    {newText : String16} {oldCursor newCursor newStart : Nat}
    (hnew : newStart ≤ m.getText.length - m.renderText.selection.length)
    (hmergeable : mergeType = .mergeable → m.renderText.selection.getMin = newStart)
    (hwhole : mergeType = .mergeWithPrevious → m.renderText.selection.getMin = 0 ∧
      m.renderText.selection.length = m.getText.length ∧ newStart = 0) :
    Yields (m.executeAndRecordReplace l mergeType oldCursor newCursor newText newStart)
      (Latest start) := by
  have hle : m.renderText.selection.getMin + m.renderText.selection.length ≤ m.getText.length :=
    getMin_add_length_le h.inside.1 h.inside.2
  unfold executeAndRecordReplace getSelectedText
  rw [substr?_eq (by omega), bind_some]
  exact executeAndRecord_latest h (Edit.leads_replaceEdit hle hnew hmergeable hwhole)

theorem executeAndRecordReplaceSelection_latest {mergeType : MergeType}
    (hmerge : mergeType ≠ .mergeWithPrevious) (newText : String16) :
    Yields (m.executeAndRecordReplaceSelection l mergeType newText) (Latest start) := by
  have hle : m.renderText.selection.getMin + m.renderText.selection.length ≤ m.getText.length :=
    getMin_add_length_le h.inside.1 h.inside.2
  exact executeAndRecordReplace_latest h (by omega) (fun _ => rfl) fun hm => absurd hm hmerge

end

/-! ## Composition -/

/-- The invariant between operations. -/
def Synced (start : String16) (m : TextfieldViewsModel) : Prop :=
  Ready start m ∨ Composing start m

section

variable (h : Composing start m)
include h

theorem composing_range_length :
    m.renderText.compositionRange.start + m.renderText.compositionRange.length =
      m.renderText.compositionRange.end_ := by
  have hlt := h.forward
  rw [Range.length, if_pos (le_of_lt hlt)]
  omega

theorem composing_hasCompositionText : m.hasCompositionText = true := by
  simpa [TextfieldViewsModel.hasCompositionText] using Nat.ne_of_lt h.forward

theorem confirmCompositionText_next : Yields (m.confirmCompositionText l) (Next start m) := by
  have hlen := composing_range_length h
  have hend := h.inText
  obtain ⟨last, done, undone, hh⟩ := h.history
  unfold confirmCompositionText
  simp only
  rw [substr?_eq (by omega), bind_some]
  -- the text with the composition is what the recorded insertion leads to
  have hat : m.renderText.compositionRange.start ≤
      (eraseAt m.getText m.renderText.compositionRange.start
        m.renderText.compositionRange.length).length := by
    rw [length_eraseAt (by omega)]
    omega
  have hedit := Edit.leads_insertEdit false
    ((m.getText.drop m.renderText.compositionRange.start).take
      m.renderText.compositionRange.length) hat
  rw [insertAt_eraseAt (by omega)] at hedit
  refine (hh.addOrMerge hedit).map fun r hr => ?_
  obtain ⟨hrt, done', hh'⟩ := hr
  have hmoved := cursorMoved_setCursorPosition l r.1.renderText
    m.renderText.compositionRange.end_
  have hafter : History start m.getText
      (r.1.setCursorPosition l m.renderText.compositionRange.end_).clearComposition done' []
      m.getText := hh'.congr rfl rfl
  have htext : (r.1.setCursorPosition l
      m.renderText.compositionRange.end_).clearComposition.getText = m.getText :=
    hmoved.text.trans (congrArg text hrt)
  exact
    { ready :=
        { idle := rfl
          inside := hmoved.inside (hrt ▸ h.inside)
          history := ⟨m.getText, done', [], htext.symm ▸ hafter⟩ }
      carried := .inl (by simpa using hafter.recorded.canRedo_iff) }

/-- Canceling takes the composition text out again, and nothing is recorded. -/
theorem cancelCompositionText_modified :
    Yields (m.cancelCompositionText l) (Modified m (eraseAt m.getText
      m.renderText.compositionRange.start m.renderText.compositionRange.length)) := by
  have hlen := composing_range_length h
  have hend := h.inText
  unfold cancelCompositionText
  have hle : m.renderText.compositionRange.start ≤ m.clearComposition.getText.length :=
    show _ ≤ m.getText.length by omega
  simp only
  rw [erase?_eq hle]
  exact .some (((modified_clearComposition h.inside).setRenderedText
    (eraseAt m.getText m.renderText.compositionRange.start
      m.renderText.compositionRange.length)).setCursorPosition (l := l)
    m.renderText.compositionRange.start)

theorem cancelCompositionText_next : Yields (m.cancelCompositionText l) (Next start m) := by
  obtain ⟨last, done, undone, hh⟩ := h.history
  refine (cancelCompositionText_modified h).mono fun m' hm' => ?_
  exact
    { ready := ⟨hm'.idle, hm'.inside, last, done, undone,
        hm'.text.symm ▸ hh.congr hm'.history hm'.current⟩
      carried := .inr ⟨hm'.history, hm'.current⟩ }

end

theorem confirmIfComposing_next (h : Synced start m) :
    Yields (m.confirmIfComposing l) (Next start m) := by
  unfold confirmIfComposing
  rcases h with hready | hcomp
  · rw [hready.idle]
    exact .some (.refl hready)
  · rw [composing_hasCompositionText hcomp]
    exact confirmCompositionText_next hcomp

/-- The operations that confirm the composition and then move the cursor. -/
theorem confirm_then_move (h : Synced start m) {f : TextfieldViewsModel → RenderText}
    (hf : ∀ m, CursorMoved m.renderText (f m)) :
    Yields ((m.confirmIfComposing l).map fun m => { m with renderText := f m }) (Next start m) :=
  (confirmIfComposing_next h).map fun m' hm' => hm'.trans (hm'.ready.moved (hf m'))

/-! ## Undo and redo -/

/-- What undoing the last edit performed does. -/
theorem undo_yields (hidle : m.hasCompositionText = false) (hin : SelectionInside m.renderText)
    {last : String16} {done undone : List Edit} {e : Edit}
    (h : History start last m (done ++ [e]) undone m.getText) :
    Yields (m.undo l) fun r => r.1.hasCompositionText = false ∧ SelectionInside r.1.renderText ∧
      e.commit.Leads r.1.getText m.getText ∧
      History start last r.1 done (e.commit :: undone) r.1.getText := by
  have hcan : m.canUndo = true := h.recorded.canUndo_iff.mpr (by simp)
  have hcurr : m.currentEdit = some done.length := by
    rw [h.recorded.current, lastIndex_concat]
  have hget : m.editHistory[done.length]? = some e := by
    rw [h.recorded.history]
    simp
  obtain ⟨t, hdone, he⟩ := chain_concat.mp h.done
  unfold undo cancelIfComposing
  simp only [hcan, Bool.not_true, Bool.false_eq_true, if_false, hidle, bind_some]
  rw [hcurr, bind_some, hget, bind_some]
  refine (undoEdit_yields (l := l)
    (m := ⟨m.renderText, m.editHistory.set done.length e.commit, some done.length⟩) hin
    he.commit).map fun m' hm' => ?_
  refine ⟨hm'.idle, hm'.inside, ?_, ⟨?_, ?_⟩, ?_, ?_⟩
  · exact hm'.text.symm ▸ he.commit
  · change m'.editHistory = _
    rw [hm'.history]
    simp [h.recorded.history]
  · cases done using reverseRecOn with
    | nil => rfl
    | append_singleton done e' => simp
  · exact hm'.text.symm ▸ hdone
  · exact .cons (hm'.text.symm ▸ he.commit) h.undone

/-- What redoing the next edit does. -/
theorem redo_yields (hidle : m.hasCompositionText = false) (hin : SelectionInside m.renderText)
    {last : String16} {done undone : List Edit} {e : Edit}
    (h : History start last m done (e :: undone) m.getText) :
    Yields (m.redo l) fun r => r.1.hasCompositionText = false ∧ SelectionInside r.1.renderText ∧
      e.Leads m.getText r.1.getText ∧
      History start last r.1 (done ++ [e]) undone r.1.getText := by
  have hcan : m.canRedo = true := h.recorded.canRedo_iff.mpr (by simp)
  have hnext : m.currentEdit.elim 0 (· + 1) = done.length := by
    rw [h.recorded.current]
    cases done using reverseRecOn with
    | nil => rfl
    | append_singleton done e' => simp
  have hget : m.editHistory[done.length]? = some e := by
    rw [h.recorded.history]
    simp
  obtain ⟨t, he, hundone⟩ := chain_cons.mp h.undone
  unfold redo cancelIfComposing
  simp only [hcan, Bool.not_true, Bool.false_eq_true, if_false, hidle, bind_some]
  rw [hnext, hget, bind_some]
  refine (redoEdit_yields (l := l) (m := { m with currentEdit := some done.length }) hin he).map
    fun m' hm' => ?_
  refine ⟨hm'.idle, hm'.inside, hm'.text.symm ▸ he, ⟨?_, ?_⟩, ?_, hm'.text.symm ▸ hundone⟩
  · change m'.editHistory = _
    rw [hm'.history]
    simp [h.recorded.history]
  · exact hm'.current.trans (lastIndex_concat done e).symm
  · exact chain_concat.mpr ⟨_, h.done, hm'.text.symm ▸ he⟩

/-- Undo, whether or not there is anything to undo. -/
theorem undo_ready (h : Ready start m) : Yields (m.undo l) fun r => Ready start r.1 := by
  by_cases hcan : m.canUndo = true
  · obtain ⟨last, done, undone, hh⟩ := h.history
    have hne := hh.recorded.canUndo_iff.mp hcan
    cases done using reverseRecOn with
    | nil => exact absurd rfl hne
    | append_singleton done e =>
      refine (undo_yields h.idle h.inside hh).mono fun r hr => ?_
      exact ⟨hr.1, hr.2.1, last, done, e.commit :: undone, hr.2.2.2⟩
  · refine ⟨(m, false), ?_, h⟩
    simp [undo, not_eq_true _ ▸ hcan]

theorem redo_ready (h : Ready start m) : Yields (m.redo l) fun r => Ready start r.1 := by
  by_cases hcan : m.canRedo = true
  · obtain ⟨last, done, undone, hh⟩ := h.history
    have hne := hh.recorded.canRedo_iff.mp hcan
    cases undone with
    | nil => exact absurd rfl hne
    | cons e undone =>
      refine (redo_yields h.idle h.inside hh).mono fun r hr => ?_
      exact ⟨hr.1, hr.2.1, last, done ++ [e], undone, hr.2.2.2⟩
  · refine ⟨(m, false), ?_, h⟩
    simp [redo, not_eq_true _ ▸ hcan]

/-! ## The public operations -/

theorem clearSelection_next (h : Synced start m) : Yields (m.clearSelection l) (Next start m) :=
  confirm_then_move h fun m => cursorMoved_clearSelection m.renderText

theorem selectAll_of_ready (h : Ready start m) :
    m.selectAll l = some { m with renderText := m.renderText.selectAll l } := by
  simp [selectAll, confirmIfComposing, h.idle]

theorem selection_selectAll (rt : RenderText) : (rt.selectAll l).selection.getMin = 0 ∧
    (rt.selectAll l).selection.length = rt.text.length := by
  unfold RenderText.selectAll
  split
  · simp [setSelectionModel, selection, Range.getMin, Range.length]
  · simp +contextual [setSelectionModel, selection, Range.getMin,
      Range.length]

/-- SetText of another text, once no composition is left: the whole text is replaced. -/
theorem replaceAll_latest (h : Ready start m) {mergeType : MergeType}
    (hmerge : mergeType ≠ .mergeable) (text : String16) (oldCursor : Nat) :
    Yields ((m.selectAll l).bind fun m =>
        (m.executeAndRecordReplace l mergeType oldCursor text.length text 0).map fun m =>
          m.setCursorPosition l text.length)
      (Latest start) := by
  rw [selectAll_of_ready h, bind_some]
  obtain ⟨hmin, hlen⟩ := selection_selectAll (l := l) m.renderText
  have hsel := (h.moved (cursorMoved_selectAll l m.renderText)).ready
  refine (executeAndRecordReplace_latest hsel (zero_le _) (fun hm => absurd hm hmerge)
    fun _ => ⟨hmin, ?_, rfl⟩).map fun m' hm' => ?_
  · exact hlen.trans (congrArg length (cursorMoved_selectAll l m.renderText).text.symm)
  · have hmoved := hm'.ready.moved (cursorMoved_setCursorPosition l m'.renderText text.length)
    exact ⟨hmoved.ready, (canRedo_congr rfl rfl).trans hm'.noRedo⟩

theorem setText_next (h : Synced start m) (text : String16) :
    Yields (m.setText l text) fun r => Next start m r.1 := by
  unfold setText
  refine Yields.bind (confirmIfComposing_next h) fun m₁ hm₁ => ?_
  refine Yields.bind (P := Next start m) ?_ fun m₂ hm₂ => ?_
  · refine .ite (fun hne => ?_) fun _ => .some hm₁
    have hpre : Yields (if m.hasCompositionText then (m₁.undo l).map Prod.fst else some m₁)
        (Ready start) :=
      .ite (fun _ => (undo_ready hm₁.ready).map fun _ hr => hr) fun _ => .some hm₁.ready
    refine Yields.bind hpre fun m₂ hm₂ => (replaceAll_latest hm₂ ?_ text _).mono
      fun _ hm' => hm'.next
    split <;> simp
  · exact (clearSelection_next (.inl hm₂.ready)).map fun _ hm' => hm₂.trans hm'

theorem insertTextInternal_next (h : Synced start m) (text : String16) (mergeable : Bool) :
    Yields (m.insertTextInternal l text mergeable) (Next start m) := by
  unfold insertTextInternal
  rcases h with hready | hcomp
  · rw [hready.idle, if_neg Bool.false_ne_true]
    refine .ite (fun _ => ?_) fun _ =>
      (executeAndRecordInsert_latest hready text mergeable).mono fun _ hm' => hm'.next
    refine (executeAndRecordReplaceSelection_latest hready ?_ text).mono fun _ hm' => hm'.next
    split <;> simp
  · rw [composing_hasCompositionText hcomp, if_pos rfl]
    exact Next.bind (cancelCompositionText_next hcomp) fun m' hm' =>
      (executeAndRecordInsert_latest hm' text mergeable).mono fun _ h => h.next

theorem replaceTextInternal_next (h : Synced start m) (text : String16) (mergeable : Bool) :
    Yields (m.replaceTextInternal l text mergeable) (Next start m) := by
  unfold replaceTextInternal
  refine Next.bind ?_ fun m' hm' => insertTextInternal_next (.inl hm') text mergeable
  rcases h with hready | hcomp
  · rw [hready.idle, if_neg Bool.false_ne_true]
    refine .ite (fun _ => ?_) fun _ => .some (.refl hready)
    exact .ite (fun _ => .some (hready.moved (cursorMoved_moveCursorToModel l _ _)))
      fun _ => .some (hready.moved (cursorMoved_selectRange l _ _))
  · rw [composing_hasCompositionText hcomp, if_pos rfl]
    exact cancelCompositionText_next hcomp

theorem cursorMoved_moveCursor (rt : RenderText) (breakType : BreakType)
    (direction : VisualCursorDirection) (select : Bool) :
    CursorMoved rt (rt.moveCursor l breakType direction select) :=
  cursorMoved_moveCursorToModel l rt _

theorem moveCursor_next (h : Synced start m) (breakType : BreakType)
    (direction : VisualCursorDirection) (select : Bool) :
    Yields (m.moveCursor l breakType direction select) (Next start m) :=
  confirm_then_move h fun m => cursorMoved_moveCursor m.renderText breakType direction select

theorem append_next (h : Synced start m) (text : String16) :
    Yields (m.append l text) (Next start m) := by
  refine Next.bind (confirmIfComposing_next h) fun m₁ h₁ => ?_
  refine Next.bind (moveCursor_next (.inl h₁) _ _ _) fun m₂ h₂ => ?_
  refine Next.bind (insertTextInternal_next (.inl h₂) text false) fun m₃ h₃ => ?_
  have hmoved := h₃.moved (cursorMoved_setCursorPosition l m₃.renderText m₁.getCursorPosition)
  exact (clearSelection_next (.inl hmoved.ready)).mono fun _ => hmoved.trans

theorem previousCodePointIndex_le (s : String16) (pos : Nat) :
    previousCodePointIndex s pos ≤ pos := by
  induction pos with
  | zero => exact le_refl 0
  | succ pos ih =>
    unfold previousCodePointIndex
    split <;> omega

section

variable (h : Synced start m)
include h

theorem delete_next : Yields (m.delete l) fun r => Next start m r.1 := by
  unfold delete
  rcases h with hready | hcomp
  · rw [hready.idle, if_neg Bool.false_ne_true]
    refine .ite (fun _ => (deleteSelection_latest hready).map fun _ hm' => hm'.next) fun _ => ?_
    refine .ite (fun hlt => ?_) fun _ => .some (.refl hready)
    have hnext := m.renderText.indexOfAdjacentGrapheme_forward l hlt
    exact (executeAndRecordDelete_latest hready true (le_of_lt hlt) hnext.2).map
      fun _ hm' => hm'.next
  · rw [composing_hasCompositionText hcomp, if_pos rfl]
    exact (cancelCompositionText_next hcomp).map fun _ => id

theorem backspace_next : Yields (m.backspace l) fun r => Next start m r.1 := by
  unfold backspace
  rcases h with hready | hcomp
  · rw [hready.idle, if_neg Bool.false_ne_true]
    refine .ite (fun _ => (deleteSelection_latest hready).map fun _ hm' => hm'.next) fun _ => ?_
    refine .ite (fun _ => ?_) fun _ => .some (.refl hready)
    have hcur : m.getCursorPosition ≤ m.getText.length := hready.inside.2
    exact (executeAndRecordDelete_latest hready true hcur
      ((previousCodePointIndex_le _ _).trans hcur)).map fun _ hm' => hm'.next
  · rw [composing_hasCompositionText hcomp, if_pos rfl]
    exact (cancelCompositionText_next hcomp).map fun _ => id

theorem moveCursorToModel_next (model : SelectionModel) :
    Yields (m.moveCursorToModel l model) fun r => Next start m r.1 := by
  unfold moveCursorToModel
  rcases h with hready | hcomp
  · rw [hready.idle, if_neg Bool.false_ne_true]
    exact .some (hready.moved (cursorMoved_moveCursorToModel l _ _))
  · rw [composing_hasCompositionText hcomp, if_pos rfl]
    refine (confirmCompositionText_next hcomp).map fun m' hm' => hm'.trans (hm'.ready.moved ?_)
    split
    · exact cursorMoved_selectRange l _ _
    · exact cursorMoved_moveCursorToModel l _ _

theorem moveCursorToPoint_next (point : Int × Int) (select : Bool) :
    Yields (m.moveCursorToPoint l point select) fun r => Next start m r.1 :=
  (confirmIfComposing_next h).map fun m' hm' =>
    hm'.trans (hm'.ready.moved (cursorMoved_moveCursorToModel l m'.renderText _))

end

/-- What an operation does to the invariant in general. -/
structure Kept (start : String16) (m m' : TextfieldViewsModel) : Prop where
  synced : Synced start m'
  carried : Carried m m'

theorem Kept.of_next {m' : TextfieldViewsModel} (h : Next start m m') : Kept start m m' :=
  ⟨.inl h.ready, h.carried⟩

/-- Cut and Paste do nothing if there is nothing to cut or to paste. -/
theorem cut_next (h : Synced start m) : Yields (m.cut l) fun r => Next start m r.1 ∨ r.1 = m := by
  unfold cut
  refine .ite (fun hcan => ?_) fun _ => .some (.inr rfl)
  have hready : Ready start m := by
    refine h.resolve_right fun hcomp => ?_
    simp [composing_hasCompositionText hcomp] at hcan
  have hmoved := hready.moved (cursorMoved_selectRange l m.renderText
    ⟨m.renderText.selection.end_, m.renderText.selection.start⟩)
  exact (deleteSelection_latest hmoved.ready).map fun _ hm' => .inl (hmoved.trans hm'.next)

theorem paste_next (h : Synced start m) (result : String16) :
    Yields (m.paste l result) fun r => Next start m r.1 ∨ r.1 = m := by
  unfold paste
  exact .ite (fun _ => (insertTextInternal_next h result false).map fun _ => .inl)
    fun _ => .some (.inr rfl)

/-- The length of the text without its composition text or its selection. -/
def remainingLength (m : TextfieldViewsModel) : Nat :=
  if m.hasCompositionText then m.getText.length - m.renderText.compositionRange.length
  else m.getText.length - m.renderText.selection.length

theorem cursorEmpty_setCursorPosition (rt : RenderText) (h : rt.selection.length = 0)
    (position : Nat) : (rt.setCursorPosition l position).selection.length = 0 := by
  simp only [RenderText.setCursorPosition, RenderText.moveCursorTo]
  split
  · simp [setSelectionModel, selection, Range.length]
  · exact h

theorem remainingLength_cancel (h : Composing start m) {m' : TextfieldViewsModel}
    (hm' : m.cancelCompositionText l = some m') :
    m'.getText.length - m'.renderText.selection.length = m.remainingLength := by
  have hlen := composing_range_length h
  have hend := h.inText
  have hle : m.renderText.compositionRange.start ≤ m.clearComposition.getText.length :=
    show _ ≤ m.getText.length by omega
  have hres : m' = (m.clearComposition.setRenderedText (eraseAt m.getText
      m.renderText.compositionRange.start m.renderText.compositionRange.length)).setCursorPosition
      l m.renderText.compositionRange.start := by
    unfold cancelCompositionText at hm'
    simp only at hm'
    rw [erase?_eq hle] at hm'
    exact (some.inj hm').symm
  have hempty : m'.renderText.selection.length = 0 := by
    rw [hres]
    exact cursorEmpty_setCursorPosition _ rfl _
  have htext : m'.getText = eraseAt m.getText m.renderText.compositionRange.start
      m.renderText.compositionRange.length := by
    rw [hres]
    exact (cursorMoved_setCursorPosition l _ _).text
  rw [hempty, htext, remainingLength, composing_hasCompositionText h, if_pos rfl,
    length_eraseAt (by omega)]
  rfl

theorem deleteSelectionAndInsertTextAt_next (h : Synced start m) (text : String16)
    {position : Nat} (hpos : position ≤ m.remainingLength) :
    Yields (m.deleteSelectionAndInsertTextAt l text position) (Next start m) := by
  unfold deleteSelectionAndInsertTextAt cancelIfComposing
  rcases h with hready | hcomp
  · rw [remainingLength, hready.idle, if_neg Bool.false_ne_true] at hpos
    rw [hready.idle, if_neg Bool.false_ne_true, bind_some]
    exact (executeAndRecordReplace_latest hready hpos (fun hm => by cases hm)
      fun hm => by cases hm).mono fun _ hm' => hm'.next
  · rw [composing_hasCompositionText hcomp, if_pos rfl]
    obtain ⟨m', hm', hnext⟩ := cancelCompositionText_next (l := l) hcomp
    rw [hm', bind_some]
    rw [← remainingLength_cancel hcomp hm'] at hpos
    exact (executeAndRecordReplace_latest hnext.ready hpos (fun hm => by cases hm)
      fun hm => by cases hm).mono fun _ h' => hnext.trans h'.next

/-- The text with a composition put in, wherever its selection goes. -/
theorem composing_of_insert (h : Ready start m) {text : String16} (hne : text ≠ [])
    {rt : RenderText}
    (hrt : ((m.renderText.setText (insertAt m.getText m.getCursorPosition text)).setCompositionRange
      ⟨m.getCursorPosition, m.getCursorPosition + text.length⟩) = some rt)
    {rt' : RenderText} (hmoved : CursorMoved rt rt') :
    Composing start { m with renderText := rt' } ∧
      rt'.compositionRange = ⟨m.getCursorPosition, m.getCursorPosition + text.length⟩ ∧
      rt'.text = insertAt m.getText m.getCursorPosition text := by
  have hcur : m.getCursorPosition ≤ m.getText.length := h.inside.2
  have hpos : 0 < text.length := length_pos_iff.mpr hne
  obtain ⟨last, done, undone, hh⟩ := h.history
  have hset : rt = { m.renderText.setText (insertAt m.getText m.getCursorPosition text) with
      compositionRange := ⟨m.getCursorPosition, m.getCursorPosition + text.length⟩ } := by
    unfold setCompositionRange at hrt
    split at hrt
    · exact (some.inj hrt).symm
    · cases hrt
  have hrange : rt'.compositionRange =
      ⟨m.getCursorPosition, m.getCursorPosition + text.length⟩ := by
    rw [hmoved.composition, hset]
  have htext : rt'.text = insertAt m.getText m.getCursorPosition text := by
    rw [hmoved.text, hset]
    rfl
  have hlen : rt'.compositionRange.length = text.length := by
    rw [hrange, Range.length]
    simp
  have herase : eraseAt rt'.text rt'.compositionRange.start rt'.compositionRange.length =
      m.getText := by
    rw [hlen, hrange, htext, eraseAt_insertAt hcur]
  refine ⟨⟨?_, ?_, ?_, last, done, undone, ?_⟩, hrange, htext⟩
  · change rt'.compositionRange.start < rt'.compositionRange.end_
    rw [hrange]
    exact Nat.lt_add_of_pos_right hpos
  · change rt'.compositionRange.end_ ≤ rt'.text.length
    rw [hrange, htext, length_insertAt]
    exact Nat.add_le_add_right hcur _
  · refine hmoved.inside ?_
    rw [hset]
    exact selectionInside_setText m.renderText _
  · change History start last _ done undone (eraseAt rt'.text _ _)
    rw [herase]
    exact hh.congr rfl rfl

/-- The text with its composition as its range says it, and nothing recorded. -/
structure Inserted (start : String16) (m : TextfieldViewsModel) (text : String16)
    (m' : TextfieldViewsModel) : Prop where
  composing : Composing start m'
  range : m'.renderText.compositionRange =
    ⟨m.getCursorPosition, m.getCursorPosition + text.length⟩
  text : m'.getText = insertAt m.getText m.getCursorPosition text
  history : m'.editHistory = m.editHistory ∧ m'.currentEdit = m.currentEdit

/-- SetCompositionText once the old composition and the selection are gone. -/
theorem insertComposition_yields (h : Ready start m) (composition : CompositionText)
    (hne : composition.text ≠ []) :
    Yields ((insert? m.getText m.getCursorPosition composition.text).bind fun newText =>
      let range : Range :=
        ⟨m.getCursorPosition, m.getCursorPosition + composition.text.length⟩
      ((m.renderText.setText newText).setCompositionRange range).map fun rt =>
        if composition.selection.isValid then
          let start := min (range.start + composition.selection.start) range.end_
          let end_ := min (range.start + composition.selection.end_) range.end_
          { m with renderText := (rt.selectRange l ⟨start, end_⟩).1 }
        else
          { m with renderText := rt.setCursorPosition l range.end_ })
      (Inserted start m composition.text) := by
  have hpos : 0 < composition.text.length := length_pos_iff.mpr hne
  have hcur : m.getCursorPosition ≤ m.getText.length := h.inside.2
  rw [insert?_eq hcur, bind_some]
  -- the CHECK of SetCompositionRange passes
  have hcheck : (Range.mk 0 (insertAt m.getText m.getCursorPosition
      composition.text).length).contains
      ⟨m.getCursorPosition, m.getCursorPosition + composition.text.length⟩ = true := by
    rw [Range.contains_forward]
    · simp only [length_insertAt]
      omega
    · simp only [length_insertAt]
      omega
    · simp only
      omega
  have hset : Yields ((m.renderText.setText (insertAt m.getText m.getCursorPosition
      composition.text)).setCompositionRange
      ⟨m.getCursorPosition, m.getCursorPosition + composition.text.length⟩) fun rt =>
      (m.renderText.setText (insertAt m.getText m.getCursorPosition
        composition.text)).setCompositionRange
      ⟨m.getCursorPosition, m.getCursorPosition + composition.text.length⟩ = some rt := by
    unfold setCompositionRange
    rw [if_pos]
    · exact .some rfl
    · rw [or_eq_true]
      exact .inr hcheck
  refine hset.map fun rt hrt => ?_
  have hins {rt' : RenderText} (hmoved : CursorMoved rt rt') :
      Inserted start m composition.text { m with renderText := rt' } := by
    obtain ⟨hcomp, hrange, htext⟩ := composing_of_insert h hne hrt hmoved
    exact ⟨hcomp, hrange, htext, rfl, rfl⟩
  split
  · exact hins (cursorMoved_selectRange l rt _)
  · exact hins (cursorMoved_setCursorPosition l rt _)

theorem setCompositionText_kept (h : Synced start m) (composition : CompositionText) :
    Yields (m.setCompositionText l composition) (Kept start m) := by
  unfold setCompositionText
  refine Yields.bind (P := Next start m) ?_ fun m' hm' => ?_
  · rcases h with hready | hcomp
    · rw [hready.idle, if_neg Bool.false_ne_true]
      exact .ite (fun _ => (deleteSelection_latest hready).mono fun _ h' => h'.next)
        fun _ => .some (.refl hready)
    · rw [composing_hasCompositionText hcomp, if_pos rfl]
      exact cancelCompositionText_next hcomp
  · refine .ite (fun _ => .some (.of_next hm')) fun hne => ?_
    have hne : composition.text ≠ [] := by simpa using hne
    exact (insertComposition_yields hm'.ready composition hne).mono fun _ hm'' =>
      ⟨.inr hm''.composing, hm'.carried.trans (.inr hm''.history)⟩

end TextfieldViewsModel

end ChromiumUI.Views
