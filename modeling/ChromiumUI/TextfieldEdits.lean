import ChromiumUI.EditChains
import ChromiumUI.Outcomes
import ChromiumUI.RenderText
import ChromiumUI.Splices

/-!
# Edits of a textfield

The Edit classes of the undo history: what one replaced by what, and how a new edit is
merged into the last one. `none` stands for a failed CHECK or a string operation past the
end of its string.
-/
namespace ChromiumUI.Views

open Gfx Splices Outcomes

inductive MergeType where
  | doNotMerge | mergeable | mergeWithPrevious
  deriving DecidableEq, Repr

inductive EditType where
  | insertEdit | deleteEdit | replaceEdit
  deriving DecidableEq, Repr

structure Edit where
  type : EditType
  mergeType : MergeType
  oldCursorPos : Nat
  oldText : String16
  oldTextStart : Nat
  deleteBackward : Bool
  newCursorPos : Nat
  newText : String16
  newTextStart : Nat
  deriving DecidableEq, Repr

variable {e edit : Edit} {t t' t'' : String16}

namespace Edit

def insertEdit (mergeable : Bool) (newText : String16) (at_ : Nat) : Edit where
  type := .insertEdit
  mergeType := if mergeable then .mergeable else .doNotMerge
  oldCursorPos := at_
  oldText := []
  oldTextStart := at_
  deleteBackward := false
  newCursorPos := at_ + newText.length
  newText := newText
  newTextStart := at_

def replaceEdit (mergeType : MergeType) (oldText : String16) (oldCursorPos oldTextStart : Nat)
    (backward : Bool) (newCursorPos : Nat) (newText : String16) (newTextStart : Nat) : Edit where
  type := .replaceEdit
  mergeType := mergeType
  oldCursorPos := oldCursorPos
  oldText := oldText
  oldTextStart := oldTextStart
  deleteBackward := backward
  newCursorPos := newCursorPos
  newText := newText
  newTextStart := newTextStart

def deleteEdit (mergeable : Bool) (text : String16) (textStart : Nat) (backward : Bool) :
    Edit where
  type := .deleteEdit
  mergeType := if mergeable then .mergeable else .doNotMerge
  oldCursorPos := if backward then textStart + text.length else textStart
  oldText := text
  oldTextStart := textStart
  deleteBackward := backward
  newCursorPos := textStart
  newText := []
  newTextStart := textStart

def mergeable (e : Edit) : Bool := e.mergeType == .mergeable

def mergeWithPrevious (e : Edit) : Bool := e.mergeType == .mergeWithPrevious

def oldTextEnd (e : Edit) : Nat := e.oldTextStart + e.oldText.length

def newTextEnd (e : Edit) : Nat := e.newTextStart + e.newText.length

def commit (e : Edit) : Edit := { e with mergeType := .doNotMerge }

/-- DoMerge of each class; `none` when it returns false. -/
def doMerge (e edit : Edit) : Option Edit :=
  match e.type with
  | .insertEdit =>
    if edit.type ≠ .insertEdit ∨ e.newTextEnd ≠ edit.newTextStart then none
    else some { e with
      newText := e.newText ++ edit.newText
      newCursorPos := edit.newCursorPos }
  | .replaceEdit =>
    if edit.type = .deleteEdit ∨ e.newTextEnd ≠ edit.oldTextStart ∨
        edit.oldTextStart ≠ edit.newTextStart then none
    else some { e with
      oldText := e.oldText ++ edit.oldText
      newText := e.newText ++ edit.newText
      newCursorPos := edit.newCursorPos }
  | .deleteEdit =>
    if edit.type ≠ .deleteEdit then none
    else if e.deleteBackward then
      if !edit.deleteBackward ∨ e.oldTextStart ≠ edit.oldTextEnd then none
      else some { e with
        oldTextStart := edit.oldTextStart
        oldText := edit.oldText ++ e.oldText
        newCursorPos := edit.newCursorPos }
    else
      if edit.deleteBackward ∨ e.oldTextStart ≠ edit.oldTextStart then none
      else some { e with oldText := e.oldText ++ edit.oldText }

def mergeReplace (e edit : Edit) : Option Edit :=
  if edit.type ≠ .replaceEdit ∨ edit.oldTextStart ≠ 0 ∨ edit.newTextStart ≠ 0 then none
  else
    (erase? edit.oldText e.newTextStart e.newText.length).bind fun oldText =>
      (insert? oldText e.oldTextStart e.oldText).map fun oldText =>
        { e with
          oldText := oldText
          oldTextStart := edit.oldTextStart
          deleteBackward := false
          newText := edit.newText
          newTextStart := edit.newTextStart
          mergeType := .doNotMerge }

/-- The edit after Merge, and whether it took in the new one. -/
def merge (e edit : Edit) : Option (Edit × Bool) :=
  if e.type ≠ .deleteEdit ∧ edit.mergeWithPrevious then
    (e.mergeReplace edit).map fun e => (e, true)
  else if e.mergeable ∧ edit.mergeable then
    match e.doMerge edit with
    | some e => some (e, true)
    | none => some (e, false)
  else some (e, false)

/-! ## What an edit leads from and to -/

/-- Around `rest`, the edit replaces its old text by its new text. -/
structure Around (e : Edit) (rest before after : String16) : Prop where
  oldStart : e.oldTextStart ≤ rest.length
  newStart : e.type ≠ .deleteEdit → e.newTextStart ≤ rest.length
  before : before = insertAt rest e.oldTextStart e.oldText
  after : after = insertAt rest e.newTextStart e.newText

/-- The edit leads from the text `before` to the text `after`. -/
structure Leads (e : Edit) (before after : String16) : Prop where
  around : ∃ rest, e.Around rest before after
  insert : e.type = .insertEdit → e.mergeable → e.oldText = []
  delete : e.type = .deleteEdit → e.newText = []
  replace : e.type = .replaceEdit → e.mergeable → e.oldTextStart = e.newTextStart
  whole : e.mergeWithPrevious → e.type = .replaceEdit ∧ e.oldTextStart = 0 ∧
    e.newTextStart = 0 ∧ e.oldText = before

theorem Leads.commit (h : e.Leads t t') : e.commit.Leads t t' where
  around := by
    obtain ⟨rest, ha⟩ := h.around
    exact ⟨rest, ha.oldStart, ha.newStart, ha.before, ha.after⟩
  insert := fun _ hm => by simp [Edit.mergeable, Edit.commit] at hm
  delete := h.delete
  replace := fun _ hm => by simp [Edit.mergeable, Edit.commit] at hm
  whole := fun hm => by simp [Edit.mergeWithPrevious, Edit.commit] at hm

theorem leads_insertEdit (mergeable : Bool) (newText : String16) {at_ : Nat} (h : at_ ≤ t.length) :
    (insertEdit mergeable newText at_).Leads t (insertAt t at_ newText) where
  around := ⟨t, h, fun _ => h, by simp [insertEdit], rfl⟩
  insert := fun _ _ => rfl
  delete := fun ht => by cases ht
  replace := fun ht => by cases ht
  whole := fun hm => by
    cases mergeable <;> simp [mergeWithPrevious, insertEdit] at hm

theorem leads_deleteEdit (mergeable backward : Bool) {start n : Nat} (h : start + n ≤ t.length) :
    (deleteEdit mergeable ((t.drop start).take n) start backward).Leads t
      (eraseAt t start n) where
  around := by
    refine ⟨eraseAt t start n, ?_, fun ht => absurd rfl ht, (insertAt_eraseAt h).symm, ?_⟩
    · change start ≤ _
      rw [length_eraseAt h]
      omega
    · exact (insertAt_nil _ _).symm
  insert := fun ht => by cases ht
  delete := fun _ => rfl
  replace := fun ht => by cases ht
  whole := fun hm => by
    cases mergeable <;> simp [mergeWithPrevious, deleteEdit] at hm

theorem leads_replaceEdit {mergeType : MergeType} {newText : String16}
    {start n oldCursor newCursor newStart : Nat} {backward : Bool} (h : start + n ≤ t.length)
    (hnew : newStart ≤ t.length - n) (hmergeable : mergeType = .mergeable → start = newStart)
    (hwhole : mergeType = .mergeWithPrevious → start = 0 ∧ n = t.length ∧ newStart = 0) :
    (replaceEdit mergeType ((t.drop start).take n) oldCursor start backward newCursor newText
      newStart).Leads t (insertAt (eraseAt t start n) newStart newText) where
  around := by
    have hlen := length_eraseAt h
    refine ⟨eraseAt t start n, ?_, fun _ => ?_, (insertAt_eraseAt h).symm, rfl⟩
    · change start ≤ _
      omega
    · change newStart ≤ _
      omega
  insert := fun ht => by cases ht
  delete := fun ht => by cases ht
  replace := fun _ hm => hmergeable (by simpa [Edit.mergeable, replaceEdit] using hm)
  whole := fun hm => by
    obtain ⟨rfl, rfl, rfl⟩ := hwhole (by simpa [mergeWithPrevious, replaceEdit] using hm)
    exact ⟨rfl, rfl, rfl, by simp [replaceEdit]⟩

/-- An edit leads from one text to one text only. -/
theorem Leads.unique {a b : String16} (ha : e.Leads t a) (hb : e.Leads t b) : a = b := by
  obtain ⟨rest, hra⟩ := ha.around
  obtain ⟨rest', hrb⟩ := hb.around
  have hrest : rest = eraseAt t e.oldTextStart e.oldText.length := by
    rw [hra.before, eraseAt_insertAt hra.oldStart]
  have hrest' : rest' = eraseAt t e.oldTextStart e.oldText.length := by
    rw [hrb.before, eraseAt_insertAt hrb.oldStart]
  rw [hra.after, hrb.after, hrest, hrest']

/-! ## Merging -/

@[simp] theorem mergeable_iff (e : Edit) : e.mergeable = true ↔ e.mergeType = .mergeable := by
  simp [mergeable]

@[simp] theorem mergeWithPrevious_iff (e : Edit) :
    e.mergeWithPrevious = true ↔ e.mergeType = .mergeWithPrevious := by
  simp [mergeWithPrevious]

theorem Leads.of_mergeable (hm : e.mergeType = .mergeable) (around : ∃ rest, e.Around rest t t')
    (insert : e.type = .insertEdit → e.oldText = [])
    (delete : e.type = .deleteEdit → e.newText = [])
    (replace : e.type = .replaceEdit → e.oldTextStart = e.newTextStart) : e.Leads t t' where
  around := around
  insert := fun ht _ => insert ht
  delete := delete
  replace := fun ht _ => replace ht
  whole := fun hw => by simp [hm] at hw

section

variable (h : e.Leads t t')
include h

section

variable (h' : edit.Leads t' t'')
include h'

section

variable (hm : e.mergeType = .mergeable)
include hm

theorem Leads.mergeInsert (hm' : edit.mergeable = true) (htype : e.type = .insertEdit)
    (htype' : edit.type = .insertEdit) (hnext : e.newTextEnd = edit.newTextStart) :
    Leads { e with
      newText := e.newText ++ edit.newText
      newCursorPos := edit.newCursorPos } t t'' := by
  obtain ⟨rest, ha⟩ := h.around
  obtain ⟨rest', hb⟩ := h'.around
  have hrest' : rest' = t' := by rw [hb.before, h'.insert htype' hm', insertAt_nil]
  have hstart : e.newTextStart ≤ rest.length := ha.newStart (by simp [htype])
  refine .of_mergeable hm ⟨rest, ha.oldStart, ha.newStart, ha.before, ?_⟩
    (fun ht => h.insert ht (by simp [hm])) (fun ht => ?_) (fun ht => ?_)
  · rw [hb.after, hrest', ← hnext, ha.after, Edit.newTextEnd, insertAt_insertAt hstart]
  · simp [htype] at ht
  · simp [htype] at ht

theorem Leads.mergeIntoReplace (htype : e.type = .replaceEdit)
    (hnext : e.newTextEnd = edit.oldTextStart) (hsame : edit.oldTextStart = edit.newTextStart) :
    Leads { e with
      oldText := e.oldText ++ edit.oldText
      newText := e.newText ++ edit.newText
      newCursorPos := edit.newCursorPos } t t'' := by
  obtain ⟨rest, ha⟩ := h.around
  obtain ⟨rest', hb⟩ := h'.around
  have hstart := h.replace htype (by simp [hm])
  -- the second edit replaces what follows the new text of the first one
  obtain ⟨a, b, rfl, hal⟩ := exists_split (hstart ▸ ha.oldStart)
  obtain ⟨c, f, rfl, hcl⟩ := exists_split hb.oldStart
  have hmid : a ++ e.newText ++ b = c ++ edit.oldText ++ f := by
    rw [← insertAt_append hal, ← insertAt_append hcl, ← ha.after, ← hb.before]
  have hlen : (a ++ e.newText).length = c.length := by
    rw [List.length_append, hal, hcl, ← hnext, Edit.newTextEnd]
  rw [List.append_assoc c] at hmid
  obtain ⟨rfl, rfl⟩ := List.append_inj hmid hlen
  refine .of_mergeable hm ⟨a ++ f, ?_, fun _ => ?_, ?_, ?_⟩
    (fun ht => ?_) (fun ht => ?_) (fun ht => hstart)
  · simp only [List.length_append]
    omega
  · simp only [List.length_append]
    omega
  · simp only
    rw [ha.before, hstart, insertAt_append hal, insertAt_append hal]
    simp
  · simp only
    rw [hb.after, ← hsame, insertAt_append hcl, insertAt_append hal]
    simp
  · simp [htype] at ht
  · simp [htype] at ht

theorem Leads.mergeBackward (htype : e.type = .deleteEdit)
    (htype' : edit.type = .deleteEdit) (hnext : e.oldTextStart = edit.oldTextEnd) :
    Leads { e with
      oldTextStart := edit.oldTextStart
      oldText := edit.oldText ++ e.oldText
      newCursorPos := edit.newCursorPos } t t'' := by
  obtain ⟨rest, ha⟩ := h.around
  obtain ⟨rest', hb⟩ := h'.around
  have hrest : t' = rest := by rw [ha.after, h.delete htype, insertAt_nil]
  have hrest' : t'' = rest' := by rw [hb.after, h'.delete htype', insertAt_nil]
  refine .of_mergeable hm ⟨rest', hb.oldStart, fun ht => absurd htype ht, ?_, ?_⟩
    (fun ht => ?_) (fun _ => h.delete htype) (fun ht => ?_)
  · rw [ha.before, ← hrest, hb.before, hnext, Edit.oldTextEnd, insertAt_insertAt hb.oldStart]
  · rw [hrest']
    simp [h.delete htype]
  · simp [htype] at ht
  · simp [htype] at ht

theorem Leads.mergeForward (htype : e.type = .deleteEdit)
    (htype' : edit.type = .deleteEdit) (hnext : e.oldTextStart = edit.oldTextStart) :
    Leads { e with oldText := e.oldText ++ edit.oldText } t t'' := by
  obtain ⟨rest, ha⟩ := h.around
  obtain ⟨rest', hb⟩ := h'.around
  have hrest : t' = rest := by rw [ha.after, h.delete htype, insertAt_nil]
  have hrest' : t'' = rest' := by rw [hb.after, h'.delete htype', insertAt_nil]
  refine .of_mergeable hm ⟨rest', hnext ▸ hb.oldStart, fun ht => absurd htype ht, ?_, ?_⟩
    (fun ht => ?_) (fun _ => h.delete htype) (fun ht => ?_)
  · rw [ha.before, ← hrest, hb.before, ← hnext]
    obtain ⟨a, b, rfl, hal⟩ := exists_split (hnext ▸ hb.oldStart)
    rw [insertAt_append hal, List.append_assoc, insertAt_append hal, insertAt_append hal]
    simp
  · rw [hrest']
    simp [h.delete htype]
  · simp [htype] at ht
  · simp [htype] at ht

theorem Leads.doMerge {e' : Edit} (hm' : edit.mergeable = true) (hd : e.doMerge edit = some e') :
    e'.Leads t t'' := by
  unfold Edit.doMerge at hd
  split at hd
  · rename_i htype
    split at hd
    · cases hd
    · rename_i hno
      rw [not_or, not_not, not_not] at hno
      cases hd
      exact h.mergeInsert h' hm hm' htype hno.1 hno.2
  · rename_i htype
    split at hd
    · cases hd
    · rename_i hno
      rw [not_or, not_or, not_not, not_not] at hno
      cases hd
      exact h.mergeIntoReplace h' hm htype hno.2.1 hno.2.2
  · rename_i htype
    split at hd
    · cases hd
    · rename_i htype'
      rw [not_not] at htype'
      split at hd
      · split at hd
        · cases hd
        · rename_i hno
          rw [not_or, not_not] at hno
          cases hd
          exact h.mergeBackward h' hm htype htype' hno.2
      · split at hd
        · cases hd
        · rename_i hno
          rw [not_or, not_not] at hno
          cases hd
          exact h.mergeForward h' hm htype htype' hno.2

end

/-- SetText over an insertion or replacement: the text before it is put back together. -/
theorem Leads.mergeReplace (htype : e.type ≠ .deleteEdit) (hm : edit.mergeWithPrevious = true) :
    Yields (e.mergeReplace edit) fun e' => e'.Leads t t'' := by
  obtain ⟨htype', hold, hnew, htext⟩ := h'.whole hm
  obtain ⟨rest, ha⟩ := h.around
  obtain ⟨rest', hb⟩ := h'.around
  have hstart := ha.newStart htype
  have hrest' : rest' = [] := by
    have hlen := congrArg List.length hb.before
    rw [length_insertAt, htext] at hlen
    exact List.length_eq_zero_iff.mp (by omega)
  have herase : erase? edit.oldText e.newTextStart e.newText.length = some rest := by
    have hle : e.newTextStart ≤ t'.length := by
      rw [ha.after, length_insertAt]
      omega
    rw [htext, erase?_eq hle, ha.after, eraseAt_insertAt hstart]
  have hinsert : insert? rest e.oldTextStart e.oldText = some t := by
    rw [insert?_eq ha.oldStart, ← ha.before]
  have hchecks : ¬(edit.type ≠ .replaceEdit ∨ edit.oldTextStart ≠ 0 ∨ edit.newTextStart ≠ 0) := by
    simp [htype', hold, hnew]
  unfold Edit.mergeReplace
  rw [if_neg hchecks, herase, Option.bind_some, hinsert]
  refine .some
    { around := ⟨[], ?_, fun _ => ?_, ?_, ?_⟩
      insert := fun _ hmm => by simp at hmm
      delete := fun ht => absurd ht htype
      replace := fun _ hmm => by simp at hmm
      whole := fun hw => by simp at hw }
  · simp [hold]
  · simp [hnew]
  · simp [insertAt]
  · simp [hb.after, hrest']

/-- Merge of an edit into the one before it, or not. -/
theorem Leads.merge : Yields (e.merge edit) fun r =>
      if r.2 then r.1.Leads t t'' else r.1 = e := by
  unfold Edit.merge
  split
  · rename_i hforce
    exact (h.mergeReplace h' hforce.1 hforce.2).map fun e' he' => by simpa using he'
  · split
    · rename_i hboth
      split
      · rename_i e' hd
        exact .some (by simpa using h.doMerge h' ((mergeable_iff e).mp hboth.1) hboth.2 hd)
      · exact .some (by simp)
    · exact .some (by simp)

end

end

end Edit

/-! ## TextfieldViewsModel

The text of a textfield with its composition text and undo history. The iterator
current_edit_ is an index into the history, or `none` at its end(). `none` as a result
stands for a failed CHECK or a string operation past the end of its string. -/

open Ui

structure TextfieldViewsModel where
  renderText : RenderText
  editHistory : List Edit
  currentEdit : Option Nat

/-- Composition text and its selection, as the input method sends them. -/
structure CompositionText where
  text : String16
  selection : Range

/-- CBU16_IS_LEAD. -/
def isLead (c : UInt16) : Bool := c &&& 0xfc00 == 0xd800

/-- CBU16_IS_TRAIL. -/
def isTrail (c : UInt16) : Bool := c &&& 0xfc00 == 0xdc00

def isValidCodePointIndex (s : String16) (index : Nat) : Bool :=
  index == 0 || index == s.length ||
    !(s[index]?.any isTrail && s[index - 1]?.any isLead)

/-- UTF16OffsetToIndex with offset -1: back to the nearest code point boundary. -/
def previousCodePointIndex (s : String16) : Nat → Nat
  | 0 => 0
  | pos + 1 => if isValidCodePointIndex s pos then pos else previousCodePointIndex s pos

namespace TextfieldViewsModel

variable (l : Layout) (m : TextfieldViewsModel)

def getText : String16 := m.renderText.text

def getCursorPosition : Nat := m.renderText.cursorPosition

def hasSelection : Bool := !m.renderText.selection.isEmpty

def hasCompositionText : Bool := !m.renderText.compositionRange.isEmpty

def getSelectedText : Option String16 :=
  substr? m.getText m.renderText.selection.getMin m.renderText.selection.length

/-- SetCompositionRange of the invalid range, which no CHECK refuses. -/
def clearComposition : TextfieldViewsModel :=
  { m with renderText := { m.renderText with compositionRange := .invalidRange } }

def setCursorPosition (position : Nat) : TextfieldViewsModel :=
  { m with renderText := m.renderText.setCursorPosition l position }

variable (text : String16)

def setRenderedText : TextfieldViewsModel :=
  { m with renderText := m.renderText.setText text }

/-! ## The history -/

def clearEditHistory : TextfieldViewsModel := { m with editHistory := [], currentEdit := none }

def clearRedoHistory : TextfieldViewsModel :=
  if m.editHistory.isEmpty then m
  else
    match m.currentEdit with
    | none => m.clearEditHistory
    | some current => { m with editHistory := m.editHistory.take (current + 1) }

def pushEdit (edit : Edit) : TextfieldViewsModel :=
  { m with
    editHistory := m.editHistory ++ [edit]
    currentEdit := match m.currentEdit with
      | none => some 0
      | some current => some (current + 1) }

/-- The model, and whether the edit was merged into the current one. -/
def addOrMergeEditHistory (edit : Edit) : Option (TextfieldViewsModel × Bool) :=
  let m := m.clearRedoHistory
  match m.currentEdit with
  | none => some (m.pushEdit edit, false)
  | some current =>
    m.editHistory[current]?.bind fun e =>
      (e.merge edit).map fun (e, merged) =>
        if merged then ({ m with editHistory := m.editHistory.set current e }, true)
        else (m.pushEdit edit, false)

def canUndo : Bool := !m.editHistory.isEmpty && m.currentEdit.isSome

def canRedo : Bool :=
  !m.editHistory.isEmpty &&
    match m.currentEdit with
    | none => true
    | some current => current + 1 != m.editHistory.length

/-! ## Changing the text -/

def modifyText (deleteFrom deleteTo : Nat) (newText : String16)
    (newTextInsertAt newCursorPos : Nat) : Option TextfieldViewsModel :=
  let text := m.getText
  let m := m.clearComposition
  let erased :=
    if deleteFrom ≠ deleteTo then
      (erase? text deleteFrom (deleteTo - deleteFrom)).map fun text =>
        (text, m.setRenderedText text)
    else some (text, m)
  erased.bind fun (text, m) =>
    let inserted :=
      if !newText.isEmpty then
        (insert? text newTextInsertAt newText).map m.setRenderedText
      else some m
    inserted.map fun m => m.setCursorPosition l newCursorPos

/-- Edit::Undo. -/
def undoEdit (e : Edit) : Option TextfieldViewsModel :=
  m.modifyText l e.newTextStart e.newTextEnd e.oldText e.oldTextStart e.oldCursorPos

/-- Edit::Redo. -/
def redoEdit (e : Edit) : Option TextfieldViewsModel :=
  m.modifyText l e.oldTextStart e.oldTextEnd e.newText e.newTextStart e.newCursorPos

/-- Record the edit and perform it. -/
def executeAndRecord (edit : Edit) : Option TextfieldViewsModel :=
  (m.addOrMergeEditHistory edit).bind fun (m, _) => m.redoEdit l edit

def executeAndRecordDelete (range : Range) (mergeable : Bool) : Option TextfieldViewsModel :=
  (substr? m.getText range.getMin range.length).bind fun text =>
    m.executeAndRecord l (.deleteEdit mergeable text range.getMin range.isReversed)

def executeAndRecordReplace (mergeType : MergeType) (oldCursorPos newCursorPos : Nat)
    (newText : String16) (newTextStart : Nat) : Option TextfieldViewsModel :=
  m.getSelectedText.bind fun selectedText =>
    m.executeAndRecord l (.replaceEdit mergeType selectedText oldCursorPos
      m.renderText.selection.getMin m.renderText.selection.isReversed newCursorPos newText
      newTextStart)

def executeAndRecordReplaceSelection (mergeType : MergeType) (newText : String16) :
    Option TextfieldViewsModel :=
  let newTextStart := m.renderText.selection.getMin
  m.executeAndRecordReplace l mergeType m.getCursorPosition (newTextStart + newText.length)
    newText newTextStart

def executeAndRecordInsert (mergeable : Bool) : Option TextfieldViewsModel :=
  m.executeAndRecord l (.insertEdit mergeable text m.getCursorPosition)

/-! ## Composition -/

def confirmCompositionText : Option TextfieldViewsModel :=
  let range := m.renderText.compositionRange
  (substr? m.getText range.start range.length).bind fun text =>
    (m.addOrMergeEditHistory (.insertEdit false text range.start)).map fun (m, _) =>
      (m.setCursorPosition l range.end_).clearComposition

def cancelCompositionText : Option TextfieldViewsModel :=
  let range := m.renderText.compositionRange
  let m := m.clearComposition
  (erase? m.getText range.start range.length).map fun newText =>
    (m.setRenderedText newText).setCursorPosition l range.start

/-- The guard many operations start with. -/
def confirmIfComposing : Option TextfieldViewsModel :=
  if m.hasCompositionText then m.confirmCompositionText l else some m

def cancelIfComposing : Option TextfieldViewsModel :=
  if m.hasCompositionText then m.cancelCompositionText l else some m

def deleteSelection : Option TextfieldViewsModel :=
  m.executeAndRecordDelete l m.renderText.selection false

def setCompositionText (composition : CompositionText) : Option TextfieldViewsModel :=
  let cleared :=
    if m.hasCompositionText then m.cancelCompositionText l
    else if m.hasSelection then m.deleteSelection l
    else some m
  cleared.bind fun m =>
    if composition.text.isEmpty then some m
    else
      let cursor := m.getCursorPosition
      (insert? m.getText cursor composition.text).bind fun newText =>
        let range : Range := ⟨cursor, cursor + composition.text.length⟩
        ((m.renderText.setText newText).setCompositionRange range).map fun rt =>
          if composition.selection.isValid then
            let start := min (range.start + composition.selection.start) range.end_
            let end_ := min (range.start + composition.selection.end_) range.end_
            { m with renderText := (rt.selectRange l ⟨start, end_⟩).1 }
          else
            { m with renderText := rt.setCursorPosition l range.end_ }

/-! ## Undo and redo -/

/-- The model, and whether anything changed. -/
def undo : Option (TextfieldViewsModel × Bool) :=
  if !m.canUndo then some (m, false)
  else
    (m.cancelIfComposing l).bind fun m =>
      let old := m.getText
      let oldCursor := m.getCursorPosition
      m.currentEdit.bind fun current =>
        m.editHistory[current]?.bind fun e =>
          let m := { m with editHistory := m.editHistory.set current e.commit }
          (m.undoEdit l e.commit).map fun m =>
            let m := { m with currentEdit := if current = 0 then none else some (current - 1) }
            (m, old != m.getText || oldCursor != m.getCursorPosition)

def redo : Option (TextfieldViewsModel × Bool) :=
  if !m.canRedo then some (m, false)
  else
    (m.cancelIfComposing l).bind fun m =>
      let current := m.currentEdit.elim 0 (· + 1)
      let m := { m with currentEdit := some current }
      let old := m.getText
      let oldCursor := m.getCursorPosition
      m.editHistory[current]?.bind fun e =>
        (m.redoEdit l e).map fun m => (m, old != m.getText || oldCursor != m.getCursorPosition)

/-! ## The public operations -/

def selectAll : Option TextfieldViewsModel :=
  (m.confirmIfComposing l).map fun m => { m with renderText := m.renderText.selectAll l }

def clearSelection : Option TextfieldViewsModel :=
  (m.confirmIfComposing l).map fun m => { m with renderText := m.renderText.clearSelection }

def setText : Option (TextfieldViewsModel × Bool) :=
  let changed := m.hasCompositionText
  (m.confirmIfComposing l).bind fun m =>
    let replaced :=
      if m.getText ≠ text then
        -- no need to remember the composition
        (if changed then (m.undo l).map Prod.fst else some m).bind fun m =>
          let oldCursor := m.getCursorPosition
          let newCursor := text.length
          (m.selectAll l).bind fun m =>
            (m.executeAndRecordReplace l (if changed then .doNotMerge else .mergeWithPrevious)
              oldCursor newCursor text 0).map fun m => m.setCursorPosition l newCursor
      else some m
    replaced.bind fun m => (m.clearSelection l).map fun m => (m, changed)

def insertTextInternal (mergeable : Bool) : Option TextfieldViewsModel :=
  if m.hasCompositionText then
    (m.cancelCompositionText l).bind fun m => m.executeAndRecordInsert l text mergeable
  else if m.hasSelection then
    m.executeAndRecordReplaceSelection l (if mergeable then .mergeable else .doNotMerge) text
  else
    m.executeAndRecordInsert l text mergeable

def insertText : Option TextfieldViewsModel := m.insertTextInternal l text false

def insertChar (c : UInt16) : Option TextfieldViewsModel := m.insertTextInternal l [c] true

def replaceTextInternal (mergeable : Bool) : Option TextfieldViewsModel :=
  let prepared :=
    if m.hasCompositionText then m.cancelCompositionText l
    else if !m.hasSelection then
      let cursor := m.getCursorPosition
      let model := m.renderText.selectionModel
      let next := m.renderText.indexOfAdjacentGrapheme l cursor .forward
      if next = model.caretPos then
        some { m with renderText := (m.renderText.moveCursorToModel l model).1 }
      else
        some { m with renderText := (m.renderText.selectRange l ⟨next, model.caretPos⟩).1 }
    else some m
  prepared.bind fun m => m.insertTextInternal l text mergeable

def replaceText : Option TextfieldViewsModel :=
  m.replaceTextInternal l text false

def replaceChar (c : UInt16) : Option TextfieldViewsModel := m.replaceTextInternal l [c] true

def moveCursor (breakType : BreakType) (direction : VisualCursorDirection) (select : Bool) :
    Option TextfieldViewsModel :=
  (m.confirmIfComposing l).map fun m =>
    { m with renderText := m.renderText.moveCursor l breakType direction select }

def append : Option TextfieldViewsModel :=
  (m.confirmIfComposing l).bind fun m =>
    let save := m.getCursorPosition
    (m.moveCursor l .lineBreak (m.renderText.getVisualDirectionOfLogicalEnd l) false).bind
      fun m => (m.insertText l text).bind fun m => (m.setCursorPosition l save).clearSelection l

def delete : Option (TextfieldViewsModel × Bool) :=
  if m.hasCompositionText then (m.cancelCompositionText l).map fun m => (m, true)
  else if m.hasSelection then (m.deleteSelection l).map fun m => (m, true)
  else if m.getText.length > m.getCursorPosition then
    let cursorPosition := m.getCursorPosition
    let nextGraphemeIndex := m.renderText.indexOfAdjacentGrapheme l cursorPosition .forward
    (m.executeAndRecordDelete l ⟨cursorPosition, nextGraphemeIndex⟩ true).map fun m => (m, true)
  else some (m, false)

def backspace : Option (TextfieldViewsModel × Bool) :=
  if m.hasCompositionText then (m.cancelCompositionText l).map fun m => (m, true)
  else if m.hasSelection then (m.deleteSelection l).map fun m => (m, true)
  else
    let cursorPosition := m.getCursorPosition
    if cursorPosition > 0 then
      let previousChar := previousCodePointIndex m.getText cursorPosition
      (m.executeAndRecordDelete l ⟨cursorPosition, previousChar⟩ true).map fun m => (m, true)
    else some (m, false)

/-- MoveCursorTo(const SelectionModel&). -/
def moveCursorToModel (model : SelectionModel) : Option (TextfieldViewsModel × Bool) :=
  if m.hasCompositionText then
    (m.confirmCompositionText l).map fun m =>
      -- confirming moved the cursor, and with it the selection start
      let range : Range := ⟨m.renderText.selection.start, model.caretPos⟩
      let moved :=
        if !range.isEmpty then m.renderText.selectRange l range
        else m.renderText.moveCursorToModel l (.atPosition model.caretPos model.caretAffinity)
      ({ m with renderText := moved.1 }, moved.2)
  else
    let moved := m.renderText.moveCursorToModel l model
    some ({ m with renderText := moved.1 }, moved.2)

/-- MoveCursorTo(const Point&, bool). -/
def moveCursorToPoint (point : Int × Int) (select : Bool) : Option (TextfieldViewsModel × Bool) :=
  (m.confirmIfComposing l).map fun m =>
    let moved := m.renderText.moveCursorToPoint l point select
    ({ m with renderText := moved.1 }, moved.2)

def selectRange (range : Range) : Option TextfieldViewsModel :=
  (m.confirmIfComposing l).map fun m => { m with renderText := (m.renderText.selectRange l range).1 }

def selectSelectionModel (sel : SelectionModel) : Option TextfieldViewsModel :=
  (m.confirmIfComposing l).map fun m =>
    { m with renderText := (m.renderText.moveCursorToModel l sel).1 }

def selectWord : Option TextfieldViewsModel :=
  (m.confirmIfComposing l).map fun m => { m with renderText := m.renderText.selectWord l }

/-- Cut, but for the clipboard. -/
def cut : Option (TextfieldViewsModel × Bool) :=
  if !m.hasCompositionText && m.hasSelection && !m.renderText.obscured then
    let selection := m.renderText.selection
    let m := { m with
      renderText := (m.renderText.selectRange l ⟨selection.end_, selection.start⟩).1 }
    (m.deleteSelection l).map fun m => (m, true)
  else some (m, false)

/-- Paste of what the clipboard holds. -/
def paste (result : String16) : Option (TextfieldViewsModel × Bool) :=
  if !result.isEmpty then (m.insertTextInternal l result false).map fun m => (m, true)
  else some (m, false)

def deleteSelectionAndInsertTextAt (position : Nat) :
    Option TextfieldViewsModel :=
  (m.cancelIfComposing l).bind fun m =>
    m.executeAndRecordReplace l .doNotMerge m.getCursorPosition (position + text.length) text
      position

end TextfieldViewsModel

end ChromiumUI.Views
