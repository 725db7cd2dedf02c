import ChromiumUI.Runs
import ChromiumUI.TextfieldEdits

/-!
# Undo and redo of a textfield

The text is always the start text with the history up to the current edit performed, plus
the composition text, whatever the operations and wherever the layout lets the cursor go.
-/
namespace ChromiumUI.Views

open Gfx Splices Ui EditChains Outcomes Runs Nat TextfieldViewsModel

/-! ## Moving the cursor -/

def SelectionInside (rt : RenderText) : Prop :=
  rt.selection.start ≤ rt.text.length ∧ rt.selection.end_ ≤ rt.text.length

/-- Only the selection differs, and it stays inside the text. -/
structure CursorMoved (rt rt' : RenderText) : Prop where
  text : rt'.text = rt.text
  composition : rt'.compositionRange = rt.compositionRange
  inside : SelectionInside rt → SelectionInside rt'

theorem CursorMoved.refl (rt : RenderText) : CursorMoved rt rt := ⟨rfl, rfl, id⟩

theorem CursorMoved.trans {rt rt' rt'' : RenderText} (h : CursorMoved rt rt')
    (h' : CursorMoved rt' rt'') : CursorMoved rt rt'' :=
  ⟨h'.text.trans h.text, h'.composition.trans h.composition, fun hin => h'.inside (h.inside hin)⟩

variable (l : Layout) (rt : RenderText)

theorem cursorMoved_setSelectionModel {model : SelectionModel}
    (h : SelectionInside rt → model.selection.start ≤ rt.text.length ∧
      model.selection.end_ ≤ rt.text.length) : CursorMoved rt (rt.setSelectionModel model) :=
  ⟨rfl, rfl, h⟩

theorem cursorMoved_moveCursorToModel (model : SelectionModel) :
    CursorMoved rt (rt.moveCursorToModel l model).1 := by
  simp only [RenderText.moveCursorToModel]
  split
  · exact .refl rt
  · exact cursorMoved_setSelectionModel rt fun _ => ⟨min_le_right _ _, min_le_right _ _⟩

theorem cursorMoved_moveCursorTo (position : Nat) (select : Bool) :
    CursorMoved rt (rt.moveCursorTo l position select) := by
  simp only [RenderText.moveCursorTo]
  split
  · refine cursorMoved_setSelectionModel rt fun hin => ⟨?_, min_le_right _ _⟩
    cases select with
    | true => exact hin.1
    | false => exact min_le_right _ _
  · exact .refl rt

theorem cursorMoved_setCursorPosition (position : Nat) :
    CursorMoved rt (rt.setCursorPosition l position) :=
  cursorMoved_moveCursorTo l rt position false

theorem cursorMoved_selectRange (range : Range) : CursorMoved rt (rt.selectRange l range).1 := by
  simp only [RenderText.selectRange]
  split
  · exact .refl rt
  · exact cursorMoved_setSelectionModel rt fun _ => ⟨min_le_right _ _, min_le_right _ _⟩

theorem cursorMoved_clearSelection : CursorMoved rt rt.clearSelection :=
  cursorMoved_setSelectionModel rt fun hin => ⟨hin.2, hin.2⟩

theorem cursorMoved_selectAll : CursorMoved rt (rt.selectAll l) := by
  simp only [RenderText.selectAll]
  split
  · exact cursorMoved_setSelectionModel rt fun _ => ⟨zero_le _, le_refl _⟩
  · exact cursorMoved_setSelectionModel rt fun _ => ⟨le_refl _, zero_le _⟩

theorem cursorMoved_selectWord : CursorMoved rt (rt.selectWord l) := by
  simp only [RenderText.selectWord]
  split
  · exact cursorMoved_selectAll l rt
  · split
    · exact .refl rt
    · exact (cursorMoved_moveCursorTo l rt _ _).trans (cursorMoved_moveCursorTo l _ _ _)

/-! ## The history as an index into a list -/

variable {l} {m : TextfieldViewsModel}

/-- The last of the edits performed, as current_edit_ points to it. -/
def lastIndex (done : List Edit) : Option Nat :=
  if done = [] then none else some (done.length - 1)

/-- The history: the edits performed, then those undone and not redone. -/
structure Recorded (m : TextfieldViewsModel) (done undone : List Edit) : Prop where
  history : m.editHistory = done ++ undone
  current : m.currentEdit = lastIndex done

@[simp] theorem lastIndex_nil : lastIndex [] = none := rfl

@[simp] theorem lastIndex_concat (done : List Edit) (e : Edit) :
    lastIndex (done ++ [e]) = some done.length := by
  simp [lastIndex]

variable {done undone : List Edit}

section

variable (h : Recorded m done undone)
include h

theorem Recorded.canUndo_iff : m.canUndo = true ↔ done ≠ [] := by
  cases done using List.reverseRecOn with
  | nil => simp [canUndo, h.current]
  | append_singleton done e => simp [canUndo, h.history, h.current]

theorem Recorded.canRedo_iff : m.canRedo = true ↔ undone ≠ [] := by
  cases done using List.reverseRecOn with
  | nil | append_singleton done e => simp [canRedo, h.history, h.current]

theorem Recorded.clearRedoHistory :
    Recorded m.clearRedoHistory done [] ∧ m.clearRedoHistory.renderText = m.renderText := by
  unfold TextfieldViewsModel.clearRedoHistory
  split
  · rename_i hempty
    rw [List.isEmpty_iff, h.history, List.append_eq_nil_iff] at hempty
    obtain ⟨rfl, rfl⟩ := hempty
    exact ⟨h, rfl⟩
  · cases done using List.reverseRecOn with
    | nil =>
      rw [h.current]
      exact ⟨⟨rfl, rfl⟩, rfl⟩
    | append_singleton done e =>
      have hcurr : m.currentEdit = some done.length := by rw [h.current, lastIndex_concat]
      have hlen : (done ++ [e]).length = done.length + 1 := by simp
      rw [hcurr]
      refine ⟨⟨?_, (lastIndex_concat done e).symm⟩, rfl⟩
      simp only [h.history]
      rw [← hlen, List.take_left, List.append_nil]

end

theorem Recorded.pushEdit (h : Recorded m done []) (edit : Edit) :
    Recorded (m.pushEdit edit) (done ++ [edit]) [] where
  history := by simp [TextfieldViewsModel.pushEdit, h.history]
  current := by
    rw [lastIndex_concat]
    cases done using List.reverseRecOn with
    | nil | append_singleton done e => simp [pushEdit, h.current]

/-- The history has led from the start text to this one, and leads on to the last text through
what was undone. -/
structure History (start last : String16) (m : TextfieldViewsModel) (done undone : List Edit)
    (text : String16) : Prop where
  recorded : Recorded m done undone
  done : Chain Edit.Leads start done text
  undone : Chain Edit.Leads text undone last

variable {start text : String16} {m' : TextfieldViewsModel}

theorem History.congr {last : String16} (h : History start last m done undone text)
    (hhist : m'.editHistory = m.editHistory) (hcurr : m'.currentEdit = m.currentEdit) :
    History start last m' done undone text :=
  { h with recorded := ⟨hhist.trans h.recorded.history, hcurr.trans h.recorded.current⟩ }

/-- Recording an edit that leads on from the text: nothing is left to redo. -/
theorem History.addOrMerge {last text' : String16} {edit : Edit}
    (h : History start last m done undone text) (hedit : edit.Leads text text') :
    Yields (m.addOrMergeEditHistory edit) fun r =>
      r.1.renderText = m.renderText ∧ ∃ done', History start text' r.1 done' [] text' := by
  obtain ⟨hclear, hrt⟩ := h.recorded.clearRedoHistory
  unfold addOrMergeEditHistory
  simp only
  have hpush : Chain Edit.Leads start (done ++ [edit]) text' :=
    chain_concat.mpr ⟨text, h.done, hedit⟩
  have hpushed : History start text' (m.clearRedoHistory.pushEdit edit) (done ++ [edit]) [] text' :=
    ⟨hclear.pushEdit edit, hpush, .nil text'⟩
  split
  · exact .some ⟨hrt, done ++ [edit], hpushed⟩
  · rename_i current hcurr
    rw [hclear.current] at hcurr
    cases done using List.reverseRecOn with
    | nil => cases hcurr
    | append_singleton done e =>
      rw [lastIndex_concat] at hcurr
      cases hcurr
      have hget : m.clearRedoHistory.editHistory[done.length]? = some e := by
        rw [hclear.history]
        simp
      rw [hget, Option.bind_some]
      obtain ⟨t, hdone, he⟩ := chain_concat.mp h.done
      refine (he.merge hedit).map fun r hr => ?_
      obtain ⟨e', merged⟩ := r
      cases merged with
      | false => exact ⟨hrt, done ++ [e] ++ [edit], hpushed⟩
      | true =>
        refine ⟨hrt, done ++ [e'], ⟨?_, hclear.current.trans (by simp)⟩,
          chain_concat.mpr ⟨t, hdone, by simpa using hr⟩, .nil text'⟩
        simp [hclear.history]

/-! ## The invariant -/

/-- No composition text, and the text is where the history has led. -/
structure Ready (start : String16) (m : TextfieldViewsModel) : Prop where
  idle : m.hasCompositionText = false
  inside : SelectionInside m.renderText
  history : ∃ last done undone, History start last m done undone m.getText

/-- The composition text is inside the text, and without it the text is where the history
has led. -/
structure Composing (start : String16) (m : TextfieldViewsModel) : Prop where
  forward : m.renderText.compositionRange.start < m.renderText.compositionRange.end_
  inText : m.renderText.compositionRange.end_ ≤ m.getText.length
  inside : SelectionInside m.renderText
  history : ∃ last done undone, History start last m done undone
    (eraseAt m.getText m.renderText.compositionRange.start m.renderText.compositionRange.length)

/-- Either nothing was recorded, or nothing is left to redo. -/
def Carried (m m' : TextfieldViewsModel) : Prop :=
  m'.canRedo = false ∨ m'.editHistory = m.editHistory ∧ m'.currentEdit = m.currentEdit

theorem Carried.refl (m : TextfieldViewsModel) : Carried m m := .inr ⟨rfl, rfl⟩

theorem canRedo_congr (hhist : m'.editHistory = m.editHistory)
    (hcurr : m'.currentEdit = m.currentEdit) : m'.canRedo = m.canRedo := by
  simp only [canRedo, hhist, hcurr]

theorem Carried.trans {m'' : TextfieldViewsModel} (h : Carried m m') (h' : Carried m' m'') :
    Carried m m'' := by
  rcases h' with hno | ⟨hhist, hcurr⟩
  · exact .inl hno
  · rcases h with hno | ⟨hhist', hcurr'⟩
    · exact .inl ((canRedo_congr hhist hcurr).trans hno)
    · exact .inr ⟨hhist.trans hhist', hcurr.trans hcurr'⟩

/-- What an operation that leaves no composition text does to the invariant. -/
structure Next (start : String16) (m m' : TextfieldViewsModel) : Prop where
  ready : Ready start m'
  carried : Carried m m'

theorem Next.trans {m'' : TextfieldViewsModel} (h : Next start m m') (h' : Next start m' m'') :
    Next start m m'' :=
  ⟨h'.ready, h.carried.trans h'.carried⟩

theorem Next.refl (h : Ready start m) : Next start m m := ⟨h, .refl m⟩

/-- Chain two operations. -/
theorem Next.bind {start : String16} {o : Option TextfieldViewsModel}
    {f : TextfieldViewsModel → Option TextfieldViewsModel} (h : Yields o (Next start m))
    (hf : ∀ m', Ready start m' → Yields (f m') (Next start m')) :
    Yields (o.bind f) (Next start m) :=
  Yields.bind h fun m' hm' => (hf m' hm'.ready).mono fun _ => hm'.trans

theorem Ready.moved (h : Ready start m) {rt : RenderText} (hmoved : CursorMoved m.renderText rt) :
    Next start m { m with renderText := rt } where
  ready :=
    { idle := by
        have hidle := h.idle
        simp only [hasCompositionText] at hidle ⊢
        rw [hmoved.composition]
        exact hidle
      inside := hmoved.inside h.inside
      history := by
        obtain ⟨last, done, undone, hh⟩ := h.history
        have htext : getText { m with renderText := rt } = m.getText :=
          hmoved.text
        exact ⟨last, done, undone, by rw [htext]; exact hh.congr rfl rfl⟩ }
  carried := .inr ⟨rfl, rfl⟩

/-! ## Performing an edit -/

theorem selectionInside_setText (rt : RenderText) (text : String16) :
    SelectionInside (rt.setText text) :=
  ⟨zero_le _, zero_le _⟩

/-- What ModifyText leaves: the text, no composition, and the history as it was. -/
structure Modified (m : TextfieldViewsModel) (text : String16) (m' : TextfieldViewsModel) :
    Prop where
  idle : m'.hasCompositionText = false
  inside : SelectionInside m'.renderText
  text : m'.getText = text
  history : m'.editHistory = m.editHistory
  current : m'.currentEdit = m.currentEdit

theorem Modified.setCursorPosition (h : Modified m text m') (position : Nat) :
    Modified m text (m'.setCursorPosition l position) := by
  have hmoved := cursorMoved_setCursorPosition l m'.renderText position
  refine ⟨?_, hmoved.inside h.inside, hmoved.text.trans h.text, h.history, h.current⟩
  have hidle := h.idle
  simp only [TextfieldViewsModel.hasCompositionText, TextfieldViewsModel.setCursorPosition] at hidle ⊢
  rw [hmoved.composition]
  exact hidle

theorem modified_clearComposition (hin : SelectionInside m.renderText) :
    Modified m m.getText m.clearComposition :=
  ⟨rfl, hin, rfl, rfl, rfl⟩

theorem Modified.setRenderedText (h : Modified m text m') (text' : String16) :
    Modified m text' (m'.setRenderedText text') :=
  ⟨h.idle, selectionInside_setText _ _, rfl, h.history, h.current⟩

section

variable (hin : SelectionInside m.renderText)
include hin

theorem modifyText_yields {start n at_ : Nat}
    {newText : String16} (hstart : n = 0 ∨ start ≤ m.getText.length)
    (hat : newText = [] ∨ at_ ≤ (eraseAt m.getText start n).length) (newCursorPos : Nat) :
    Yields (m.modifyText l start (start + n) newText at_ newCursorPos)
      (Modified m (insertAt (eraseAt m.getText start n) at_ newText)) := by
  have hclear := modified_clearComposition hin
  unfold modifyText
  refine Yields.bind (P := fun r => r.1 = eraseAt m.getText start n ∧
    Modified m (eraseAt m.getText start n) r.2) ?_ fun r hr => Yields.map (P :=
    Modified m (insertAt (eraseAt m.getText start n) at_ newText)) ?_
    fun m' hm' => hm'.setCursorPosition newCursorPos
  · refine .ite (fun hne => ?_) fun heq => .some ?_
    · have hle : start ≤ m.getText.length := hstart.resolve_left (by omega)
      rw [erase?_eq hle, Nat.add_sub_cancel_left]
      exact .some ⟨rfl, hclear.setRenderedText _⟩
    · obtain rfl : n = 0 := by omega
      rw [eraseAt_zero]
      exact ⟨rfl, hclear⟩
  · obtain ⟨text, m'⟩ := r
    obtain ⟨rfl, hm'⟩ := hr
    refine .ite (fun hne => ?_) fun heq => .some ?_
    · have hle := hat.resolve_left (by simpa using hne)
      rw [insert?_eq hle]
      exact .some (hm'.setRenderedText _)
    · obtain rfl : newText = [] := by simpa using heq
      rw [insertAt_nil]
      exact hm'

theorem redoEdit_yields {e : Edit} {text' : String16}
    (he : e.Leads m.getText text') : Yields (m.redoEdit l e) (Modified m text') := by
  obtain ⟨rest, ha⟩ := he.around
  have hrest : eraseAt m.getText e.oldTextStart e.oldText.length = rest := by
    rw [ha.before, eraseAt_insertAt ha.oldStart]
  have hlen : e.oldTextStart ≤ m.getText.length := by
    rw [ha.before, length_insertAt]
    exact le_add_right_of_le ha.oldStart
  rw [ha.after, ← hrest]
  refine modifyText_yields hin (.inr hlen) ?_ _
  rw [hrest]
  by_cases htype : e.type = .deleteEdit
  · exact .inl (he.delete htype)
  · exact .inr (ha.newStart htype)

theorem undoEdit_yields {e : Edit} {text' : String16}
    (he : e.Leads text' m.getText) : Yields (m.undoEdit l e) (Modified m text') := by
  obtain ⟨rest, ha⟩ := he.around
  have hrest : eraseAt m.getText e.newTextStart e.newText.length = rest := by
    by_cases htype : e.type = .deleteEdit
    · rw [ha.after, he.delete htype]
      simp
    · rw [ha.after, eraseAt_insertAt (ha.newStart htype)]
  rw [ha.before, ← hrest]
  refine modifyText_yields hin ?_ (.inr (hrest ▸ ha.oldStart)) _
  by_cases htype : e.type = .deleteEdit
  · exact .inl (by simp [he.delete htype])
  · refine .inr ?_
    rw [ha.after, length_insertAt]
    exact le_add_right_of_le (ha.newStart htype)

end

end ChromiumUI.Views
