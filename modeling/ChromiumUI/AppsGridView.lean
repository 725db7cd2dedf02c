import Mathlib.Data.List.Nodup
import Mathlib.Order.Lattice
import ChromiumUI.Runs

/-!
# The grid of the apps

A child view of the grid is written as the item it shows. What is drawn while a transition runs
is left out.
-/
namespace ChromiumUI.AppsGridView

open List ChromiumUI.Runs Int

structure PaginationModel where
  totalPages : Int := -1
  selectedPage : Int := -1
  transitionTarget : Int := -1
  /-- There is a `transition_animation_`. -/
  animating : Bool := false
  pendingSelectedPage : Int := -1

namespace PaginationModel

section

variable (m : PaginationModel)

def startTransitionAnimation (targetPage : Int) : PaginationModel :=
  { m with transitionTarget := targetPage, animating := true }

def resetTransitionAnimation : PaginationModel :=
  { m with animating := false, transitionTarget := -1, pendingSelectedPage := -1 }

def selectPage (page : Int) (animate : Bool) : PaginationModel :=
  if animate then
    if !m.animating then
      if page = m.selectedPage then m else m.startTransitionAnimation page
    else if m.transitionTarget ≠ page then { m with pendingSelectedPage := page }
    else m
  else if page = m.selectedPage then m
  else { m.resetTransitionAnimation with selectedPage := page }

def animationEnded : PaginationModel :=
  let nextTarget := m.pendingSelectedPage
  let m := m.selectPage m.transitionTarget false
  if 0 ≤ nextTarget then m.startTransitionAnimation nextTarget else m

/-- A running transition has a page to go to. -/
def Aims : Prop := m.animating = true → 0 ≤ m.transitionTarget

end

variable {m : PaginationModel}

theorem Aims.selectPage (h : m.Aims) {page : Int} (hpage : 0 ≤ page) (animate : Bool) :
    (m.selectPage page animate).Aims ∧ (m.selectPage page animate).totalPages = m.totalPages ∧
      (m.selectPage page animate).selectedPage = if animate then m.selectedPage else page := by
  cases animate <;> simp only [PaginationModel.selectPage, if_true, Bool.false_eq_true, if_false]
  · split_ifs with heq
    · exact ⟨h, rfl, heq.symm⟩
    · exact ⟨nofun, rfl, rfl⟩
  · split_ifs
    · exact ⟨h, rfl, rfl⟩
    · exact ⟨fun _ => hpage, rfl, rfl⟩
    · exact ⟨h, rfl, rfl⟩
    · exact ⟨h, rfl, rfl⟩

theorem Aims.animationEnded (h : m.Aims) (hanimating : m.animating = true) :
    m.animationEnded.Aims ∧ m.animationEnded.totalPages = m.totalPages ∧
      m.animationEnded.selectedPage = m.transitionTarget := by
  have hjump := h.selectPage (h hanimating) false
  simp only [PaginationModel.animationEnded]
  split_ifs with hnext
  · exact ⟨fun _ => hnext, hjump.2⟩
  · exact hjump

end PaginationModel

/-- A grid layout with tiles. -/
structure Layout where
  cols : Nat
  rowsPerPage : Nat
  cols_pos : 0 < cols
  rowsPerPage_pos : 0 < rowsPerPage

def Layout.tilesPerPage (L : Layout) : Nat := L.cols * L.rowsPerPage

/-- The pages that `count` children take. -/
def Layout.pagesFor (L : Layout) (count : Nat) : Int :=
  ((count : Int) - 1).tdiv L.tilesPerPage + 1

theorem Layout.page_lt (L : Layout) {index count : Nat} (h : index < count) :
    (index : Int).tdiv L.tilesPerPage < L.pagesFor count := by
  obtain ⟨n, rfl⟩ := Nat.exists_eq_add_of_lt h
  have hle : index / L.tilesPerPage ≤ (index + n) / L.tilesPerPage :=
    Nat.div_le_div_right (Nat.le_add_right index n)
  have hcount : ((index + n + 1 : Nat) : Int) - 1 = (index + n : Nat) := by omega
  rw [pagesFor, hcount, ← ofNat_tdiv, ← ofNat_tdiv]
  omega

theorem Layout.pagesFor_pos (L : Layout) {count : Nat} (h : 0 < count) : 0 < L.pagesFor count := by
  have hlt := L.page_lt h
  rwa [Int.ofNat_zero, Int.zero_tdiv] at hlt

structure Grid (ι : Type) where
  /-- The items of `model_`. -/
  items : List ι
  children : List ι := []
  selectedItemIndex : Int := -1
  pages : PaginationModel := {}

namespace Grid

variable {ι : Type}

def updatePaginationModel (L : Layout) (g : Grid ι) : Grid ι :=
  let pages := { g.pages with totalPages := L.pagesFor g.children.length }
  { g with pages := if pages.selectedPage < 0 then pages.selectPage 0 false else pages }

/-- `for (size_t i = start; i < start + count; ++i) AddChildViewAt(CreateViewForItemAtIndex(i), i)` -/
def addChildViews (items : List ι) : Nat → Nat → List ι → Option (List ι)
  | _, 0, children => some children
  | i, count + 1, children =>
    items[i]?.bind fun item => addChildViews items (i + 1) count (children.insertIdx i item)

def listItemsAdded (L : Layout) (g : Grid ι) (start count : Nat) : Option (Grid ι) :=
  (addChildViews g.items start count g.children).map fun children =>
    updatePaginationModel L { g with children }

/-- `for (size_t i = 0; i < count; ++i) delete child_at(start)` -/
def deleteChildren (start : Nat) : Nat → List ι → Option (List ι)
  | 0, children => some children
  | count + 1, children =>
    if start < children.length then deleteChildren start count (children.eraseIdx start) else none

def listItemsRemoved (L : Layout) (g : Grid ι) (start count : Nat) : Option (Grid ι) :=
  (deleteChildren start count g.children).map fun children =>
    updatePaginationModel L { g with children }

/-- The grid once it has its model. -/
def update (L : Layout) (items : List ι) : Grid ι :=
  if items = [] then { items } else updatePaginationModel L { items, children := items }

def getIndexOf [DecidableEq ι] (g : Grid ι) (item : ι) : Int :=
  if item ∈ g.children then g.children.idxOf item else -1

/-- `child_at` is read at the selected index wherever that is not negative. -/
def setSelectedItemByIndex (L : Layout) (g : Grid ι) (index : Int) : Option (Grid ι) :=
  if g.selectedItemIndex = index then some g
  else if g.children.length ≤ g.selectedItemIndex then none
  else if index < 0 ∨ g.children.length ≤ index then some { g with selectedItemIndex := -1 }
  else some { g with
    selectedItemIndex := index
    pages := g.pages.selectPage (index.tdiv L.tilesPerPage) true }

inductive Key where
  | left | right | up | down | prior | next

/-- No item handles one of these keys; the `VKEY_NEXT` case falls through to the default. -/
def onKeyPressed (L : Layout) (g : Grid ι) (key : Key) : Option (Grid ι × Bool) :=
  let current := g.selectedItemIndex
  let last : Int := g.children.length - 1
  if g.children.length ≤ current then none
  else match key with
    | .left => (g.setSelectedItemByIndex L (max (current - 1) 0)).map (·, true)
    | .right => (g.setSelectedItemByIndex L (min (current + 1) last)).map (·, true)
    | .up => (g.setSelectedItemByIndex L (max (current - L.cols) 0)).map (·, true)
    | .down => (g.setSelectedItemByIndex L
        (if current < 0 then 0 else min (current + L.cols) last)).map (·, true)
    | .prior => (g.setSelectedItemByIndex L (max (current - L.tilesPerPage) 0)).map (·, true)
    | .next => (g.setSelectedItemByIndex L
        (if current < 0 then 0 else min (current + L.tilesPerPage) last)).map (·, false)

end Grid

inductive Op (ι : Type) where
  | addAt (index : Nat) (item : ι)
  /-- Also what `DeleteAt` does to the grid. -/
  | removeAt (index : Nat)
  /-- Also what `DeleteAll` does to the grid. -/
  | removeAll
  | setSelectedItem (item : ι)
  | clearSelectedItem (item : ι)
  | keyPressed (key : Grid.Key)
  | ensureItemVisible (item : ι)
  /-- The page switcher. -/
  | selectPage (page : Int)
  | animationEnded

/-- The operations that choose a selected item. -/
def Op.selects {ι : Type} : Op ι → Bool
  | .setSelectedItem _ | .clearSelectedItem _ | .keyPressed _ => true
  | _ => false

variable {ι : Type}

def step [DecidableEq ι] (L : Layout) (g : Grid ι) : Op ι → Option (Grid ι)
  | .addAt index item => { g with items := g.items.insertIdx index item }.listItemsAdded L index 1
  | .removeAt index => { g with items := g.items.eraseIdx index }.listItemsRemoved L index 1
  | .removeAll => { g with items := [] }.listItemsRemoved L 0 g.items.length
  | .setSelectedItem item =>
    if 0 ≤ g.getIndexOf item then g.setSelectedItemByIndex L (g.getIndexOf item) else some g
  | .clearSelectedItem item =>
    if g.getIndexOf item = g.selectedItemIndex then g.setSelectedItemByIndex L (-1) else some g
  | .keyPressed key => (g.onKeyPressed L key).map Prod.fst
  | .ensureItemVisible item =>
    if 0 ≤ g.getIndexOf item then
      some { g with
        pages := g.pages.selectPage ((g.getIndexOf item).tdiv L.tilesPerPage) false }
    else some g
  | .selectPage page => some { g with pages := g.pages.selectPage page true }
  | .animationEnded => some { g with pages := g.pages.animationEnded }

/-- What the callers promise: the model owns its items, and pages are chosen among the pages. -/
def Allowed (g : Grid ι) : Op ι → Prop
  | .addAt index item => index ≤ g.items.length ∧ item ∉ g.items
  | .removeAt index => index < g.items.length
  | .selectPage page => 0 ≤ page ∧ page < g.pages.totalPages
  | .animationEnded => g.pages.animating = true
  | _ => True

namespace Grid

/-- The item that a bare index designates. -/
def designated (children : List ι) (index : Int) : Option ι :=
  if 0 ≤ index then children[index.toNat]? else none

/-- The children are those of the model, the selected index is one of theirs, and the selected
page is one of the pages. -/
structure Consistent (g : Grid ι) : Prop where
  children : g.children = g.items
  selected : -1 ≤ g.selectedItemIndex ∧ g.selectedItemIndex < g.children.length
  page : g.items ≠ [] → 0 ≤ g.pages.selectedPage ∧ g.pages.selectedPage < g.pages.totalPages

/-- The item that was designated still is, unless it is gone. -/
def Follows (children : List ι) (index : Int) (children' : List ι) (index' : Int) : Prop :=
  ∀ item ∈ children', designated children index = some item →
    designated children' index' = some item

/-- The step reads no child that is not there and leaves the grid consistent, and the selected item
stays selected while it is in the model and no other is chosen. -/
def Kept [DecidableEq ι] (L : Layout) (g : Grid ι) (op : Op ι) : Prop :=
  ∃ g', step L g op = some g' ∧ g'.Consistent ∧
    (op.selects = false → Follows g.children g.selectedItemIndex g'.children g'.selectedItemIndex)

/-- Nothing is put or removed in front of the selected item, nor it itself at the end, and the
selected page is left some items. -/
def Keeps (L : Layout) (g : Grid ι) : Op ι → Prop
  | .addAt index _ => g.selectedItemIndex < index ∧
      g.pages.selectedPage < L.pagesFor (g.items.length + 1)
  | .removeAt index =>
    (g.selectedItemIndex < index ∨
      g.selectedItemIndex = index ∧ index + 1 < g.items.length) ∧
      (g.items.length = 1 ∨ g.pages.selectedPage < L.pagesFor (g.items.length - 1))
  | .removeAll => g.selectedItemIndex = -1
  | .animationEnded => g.items = [] ∨ g.pages.transitionTarget < g.pages.totalPages
  | _ => True

/-- What every step keeps. -/
structure Sound (L : Layout) (g : Grid ι) : Prop where
  nodup : g.items.Nodup
  total : g.items ≠ [] → g.pages.totalPages = L.pagesFor g.items.length
  aims : g.pages.Aims

structure Inv (L : Layout) (g : Grid ι) : Prop extends Sound L g, Consistent g

variable {L : Layout} {g : Grid ι}

theorem updatePaginationModel_pages (L : Layout) (haims : g.pages.Aims) :
    (g.updatePaginationModel L).pages.Aims ∧
      (g.updatePaginationModel L).pages.totalPages = L.pagesFor g.children.length ∧
      (g.updatePaginationModel L).pages.selectedPage = max g.pages.selectedPage 0 := by
  have hnew : { g.pages with totalPages := L.pagesFor g.children.length }.Aims := haims
  by_cases hpage : g.pages.selectedPage < 0
  · simp only [updatePaginationModel, if_pos hpage, max_eq_right hpage.le]
    exact hnew.selectPage (le_refl 0) false
  · simp only [updatePaginationModel, if_neg hpage, max_eq_left (not_lt.mp hpage)]
    exact ⟨hnew, trivial, trivial⟩

/-- The grid after a notification, which finds the children that the model has by then. -/
theorem updatePaginationModel_sound (h : g.Inv L) {items : List ι} (hitems : items.Nodup) :
    Sound L ({ g with items, children := items }.updatePaginationModel L) ∧
      (({ g with items, children := items }.updatePaginationModel L).Consistent ↔
        g.selectedItemIndex < items.length ∧
          (items ≠ [] → g.pages.selectedPage < L.pagesFor items.length)) := by
  obtain ⟨haims, htotal, hpage⟩ :=
    updatePaginationModel_pages (g := { g with items, children := items }) L h.aims
  refine ⟨⟨hitems, fun _ => htotal, haims⟩, fun hcons => ⟨hcons.selected.2, ?_⟩, ?_⟩
  · intro hne
    have hlt := (hcons.page hne).2
    rw [hpage, htotal] at hlt
    exact (le_max_left _ _).trans_lt hlt
  · rintro ⟨hsel, hlt⟩
    refine ⟨rfl, ⟨h.selected.1, hsel⟩, fun hne => ?_⟩
    have hpos := L.pagesFor_pos (length_pos_of_ne_nil hne)
    rw [hpage, htotal]
    exact ⟨le_max_right _ _, max_lt (hlt hne) hpos⟩

theorem deleteChildren_all (children : List ι) :
    deleteChildren 0 children.length children = some [] := by
  induction children with
  | nil => rfl
  | cons item children ih =>
    rw [length_cons, deleteChildren]
    exact (if_pos (Nat.zero_lt_succ children.length)).trans ih

theorem follows_insertIdx {children : List ι} (h : children.Nodup) {selected : Int}
    (hsel : selected < children.length) {index : Nat} (hindex : index ≤ children.length)
    {item : ι} (hitem : item ∉ children) :
    Follows children selected (children.insertIdx index item) selected ↔ selected < index := by
  by_cases hneg : selected < 0
  · exact iff_of_true (fun _ _ hsome => by simp [designated, not_le.mpr hneg] at hsome) (by omega)
  obtain ⟨k, rfl⟩ := eq_ofNat_of_zero_le (not_lt.mp hneg)
  simp only [Follows, designated, natCast_nonneg, if_true, toNat_natCast]
  constructor
  · intro hfol
    by_contra hle
    have hk : k < children.length := by omega
    have hnext : (children.insertIdx index item)[k + 1]? = children[k]? :=
      getElem?_insertIdx_of_gt (by omega)
    have hmem : children[k] ∈ children.insertIdx index item :=
      (mem_insertIdx hindex).mpr (Or.inr (getElem_mem hk))
    have hsame := hfol _ hmem (getElem?_eq_getElem hk)
    rw [← getElem?_eq_getElem hk, ← hnext] at hsame
    have hnodup : (children.insertIdx index item).Nodup :=
      (perm_insertIdx item children hindex).nodup_iff.mpr (nodup_cons.mpr ⟨hitem, h⟩)
    have hlen := length_insertIdx_of_le_length hindex item
    exact absurd ((getElem?_inj (by omega) hnodup).mp hsame) (by omega)
  · intro hlt _ _ hsome
    rwa [getElem?_insertIdx_of_lt (by omega)]

theorem follows_eraseIdx {children : List ι} (h : children.Nodup) {selected : Int}
    (hsel : selected < children.length) (index : Nat) :
    Follows children selected (children.eraseIdx index) selected ↔ selected ≤ index := by
  by_cases hneg : selected < 0
  · exact iff_of_true (fun _ _ hsome => by simp [designated, not_le.mpr hneg] at hsome) (by omega)
  obtain ⟨k, rfl⟩ := eq_ofNat_of_zero_le (not_lt.mp hneg)
  simp only [Follows, designated, natCast_nonneg, if_true, toNat_natCast]
  constructor
  · intro hfol
    by_contra hle
    have hk : k < children.length := by omega
    have hmem : children[k] ∈ children.eraseIdx index :=
      mem_eraseIdx_iff_getElem?.mpr ⟨k, by omega, getElem?_eq_getElem hk⟩
    have hsame := hfol _ hmem (getElem?_eq_getElem hk)
    rw [getElem?_eraseIdx_of_ge (by omega), ← getElem?_eq_getElem hk] at hsame
    exact absurd ((getElem?_inj hk h).mp hsame.symm) (by omega)
  · intro hle x hmem hsome
    rcases Nat.lt_or_eq_of_le (ofNat_le.mp hle) with hlt | rfl
    · rwa [getElem?_eraseIdx_of_lt hlt]
    · obtain ⟨i, hi, hx⟩ := mem_eraseIdx_iff_getElem?.mp hmem
      have hk : k < children.length := by omega
      exact absurd ((getElem?_inj hk h).mp (hsome.trans hx.symm)).symm hi

/-- A page is chosen on the way to which the grid stays where it is. -/
theorem Inv.selectPage (h : g.Inv L) {page : Int} (hpage : 0 ≤ page) :
    Inv L { g with pages := g.pages.selectPage page true } := by
  obtain ⟨haims, htotal, hsel⟩ := h.aims.selectPage hpage true
  refine ⟨⟨h.nodup, fun hne => htotal.trans (h.total hne), haims⟩, h.children, h.selected, ?_⟩
  simp only [htotal, hsel]
  exact h.page

theorem setSelectedItemByIndex_kept (h : g.Inv L) (index : Int) :
    ∃ g', g.setSelectedItemByIndex L index = some g' ∧ g'.Inv L := by
  unfold setSelectedItemByIndex
  split_ifs with heq hgone hout
  · exact ⟨g, rfl, h⟩
  · exact absurd h.selected.2 (not_lt.mpr hgone)
  · exact ⟨_, rfl, ⟨h.nodup, h.total, h.aims⟩, h.children, ⟨le_refl _, by simp; omega⟩, h.page⟩
  · obtain ⟨hnneg, hlt⟩ := not_or.mp hout
    have hnew : ({ g with selectedItemIndex := index } : Grid ι).Inv L :=
      ⟨⟨h.nodup, h.total, h.aims⟩, h.children, ⟨by simp; omega, by simpa using hlt⟩, h.page⟩
    exact ⟨_, rfl, hnew.selectPage (Int.tdiv_nonneg (by omega) (Int.natCast_nonneg _))⟩

theorem getIndexOf_lt [DecidableEq ι] (g : Grid ι) (item : ι) (h : 0 ≤ g.getIndexOf item) :
    ∃ k : Nat, g.getIndexOf item = k ∧ k < g.children.length := by
  unfold getIndexOf at h ⊢
  split_ifs at h ⊢ with hmem
  · exact ⟨_, rfl, idxOf_lt_length_iff.mpr hmem⟩
  · exact absurd h (by decide)

theorem onKeyPressed_kept (h : g.Inv L) (key : Key) :
    ∃ g' handled, g.onKeyPressed L key = some (g', handled) ∧ g'.Inv L := by
  have hmap : ∀ index (handled : Bool), ∃ g' handled',
      (g.setSelectedItemByIndex L index).map (·, handled) = some (g', handled') ∧ g'.Inv L := by
    intro index handled
    obtain ⟨g', hset, hinv⟩ := setSelectedItemByIndex_kept h index
    exact ⟨g', handled, by rw [hset]; rfl, hinv⟩
  unfold onKeyPressed
  rw [if_neg (not_le.mpr h.selected.2)]
  cases key <;> exact hmap _ _

section

variable [DecidableEq ι]

theorem step_selects (h : g.Inv L) {op : Op ι} (hop : op.selects = true) :
    ∃ g', step L g op = some g' ∧ g'.Inv L ∧ Keeps L g op := by
  have hset : ∀ index,
      ∃ g', g.setSelectedItemByIndex L index = some g' ∧ g'.Inv L ∧ True := fun index => by
    simpa only [and_true] using setSelectedItemByIndex_kept h index
  cases op with
  | setSelectedItem item =>
    simp only [step]
    split_ifs
    · exact hset _
    · exact ⟨g, rfl, h, trivial⟩
  | clearSelectedItem item =>
    simp only [step]
    split_ifs
    · exact hset _
    · exact ⟨g, rfl, h, trivial⟩
  | keyPressed key =>
    obtain ⟨g', handled, hkey, hinv⟩ := onKeyPressed_kept h key
    exact ⟨g', by rw [step, hkey]; rfl, hinv, trivial⟩
  | _ => cases hop

/-- What a step does to the invariant, by what it does to the model. -/
theorem step_spec (h : g.Inv L) {op : Op ι} (hop : Allowed g op) :
    ∃ g', step L g op = some g' ∧ g'.Sound L ∧ (g'.Consistent ∧ (op.selects = false →
      Follows g.children g.selectedItemIndex g'.children g'.selectedItemIndex) ↔
        Keeps L g op) := by
  by_cases hselects : op.selects = true
  · obtain ⟨g', hstep, hinv, hkeeps⟩ := step_selects h hselects
    exact ⟨g', hstep, hinv.toSound, fun _ => hkeeps,
      fun _ => ⟨hinv.toConsistent, fun hnot => absurd hselects (ne_true_of_eq_false hnot)⟩⟩
  have hbound := h.selected
  rw [h.children] at hbound ⊢
  cases op with
  | setSelectedItem | clearSelectedItem | keyPressed => exact absurd rfl hselects
  | addAt index item =>
    obtain ⟨hindex, hitem⟩ := hop
    have hnodup : (g.items.insertIdx index item).Nodup :=
      (perm_insertIdx item g.items hindex).nodup_iff.mpr
        (nodup_cons.mpr ⟨hitem, h.nodup⟩)
    obtain ⟨hsound, hcons⟩ := updatePaginationModel_sound h hnodup
    have hlen := length_insertIdx_of_le_length hindex item
    refine ⟨_, ?_, hsound, ?_⟩
    · simp [step, listItemsAdded, addChildViews, getElem?_insertIdx_self, hindex, h.children]
    rw [hcons, hlen]
    have hne : g.items.insertIdx index item ≠ [] := ne_nil_of_length_pos (by omega)
    have hfol := follows_insertIdx h.nodup hbound.2 hindex hitem
    exact ⟨fun hkept => ⟨hfol.mp (hkept.2 rfl), hkept.1.2 hne⟩,
      fun hkeeps => ⟨⟨by omega, fun _ => hkeeps.2⟩, fun _ => hfol.mpr hkeeps.1⟩⟩
  | removeAt index =>
    have hindex : index < g.items.length := hop
    obtain ⟨hsound, hcons⟩ := updatePaginationModel_sound h (h.nodup.eraseIdx index)
    have hlen := length_eraseIdx_of_lt hindex
    refine ⟨_, ?_, hsound, ?_⟩
    · simp [step, listItemsRemoved, deleteChildren, hindex, h.children]
    rw [hcons, hlen]
    have hne : g.items.eraseIdx index ≠ [] ↔ g.items.length ≠ 1 := by
      rw [← length_pos_iff, hlen]
      omega
    have hfol := follows_eraseIdx h.nodup hbound.2 index
    rw [hne]
    constructor
    · intro hkept
      have hle := hfol.mp (hkept.2 rfl)
      have hlt := hkept.1.1
      exact ⟨by omega, or_iff_not_imp_left.mpr hkept.1.2⟩
    · rintro ⟨hsel, hpage⟩
      exact ⟨⟨by omega, or_iff_not_imp_left.mp hpage⟩, fun _ => hfol.mpr (by omega)⟩
  | removeAll =>
    obtain ⟨hsound, hcons⟩ := updatePaginationModel_sound h nodup_nil
    refine ⟨_, ?_, hsound, ?_⟩
    · rw [step, listItemsRemoved, ← h.children, deleteChildren_all]
      rfl
    rw [hcons]
    constructor
    · intro hkept
      have hlt : g.selectedItemIndex < 0 := hkept.1.1
      exact le_antisymm (by omega) hbound.1
    · intro hnone
      have hnone : g.selectedItemIndex = -1 := hnone
      exact ⟨⟨by rw [hnone]; exact negSucc_lt_zero 0, fun hne => absurd rfl hne⟩, fun _ => nofun⟩
  | ensureItemVisible item =>
    simp only [step]
    split_ifs with hindex
    · obtain ⟨k, hk, hlt⟩ := g.getIndexOf_lt item hindex
      rw [h.children] at hlt
      rw [hk]
      have hpage : 0 ≤ (k : Int).tdiv L.tilesPerPage :=
        Int.tdiv_nonneg (Int.natCast_nonneg k) (Int.natCast_nonneg _)
      obtain ⟨haims, htotal, hsel⟩ := h.aims.selectPage hpage false
      refine ⟨_, rfl, ⟨h.nodup, fun hne => htotal.trans (h.total hne), haims⟩, fun _ => trivial,
        fun _ => ⟨⟨h.children, h.selected, fun hne => ?_⟩, fun _ _ _ => h.children ▸ id⟩⟩
      simp only [htotal, hsel, h.total hne]
      exact ⟨hpage, L.page_lt hlt⟩
    · exact ⟨g, rfl, h.toSound, fun _ => trivial,
        fun _ => ⟨h.toConsistent, fun _ _ _ => h.children ▸ id⟩⟩
  | selectPage page =>
    have hinv := h.selectPage hop.1
    exact ⟨_, rfl, hinv.toSound, fun _ => trivial,
      fun _ => ⟨hinv.toConsistent, fun _ _ _ => h.children ▸ id⟩⟩
  | animationEnded =>
    obtain ⟨haims, htotal, hpage⟩ := h.aims.animationEnded hop
    refine ⟨_, rfl, ⟨h.nodup, fun hne => htotal.trans (h.total hne), haims⟩, ?_⟩
    constructor
    · intro hkept
      refine or_iff_not_imp_left.mpr fun hne => ?_
      have hlt := (hkept.1.page hne).2
      rwa [hpage, htotal] at hlt
    · intro hkeeps
      refine ⟨⟨h.children, h.selected, fun hne => ?_⟩, fun _ _ _ => h.children ▸ id⟩
      simp only [hpage, htotal]
      exact ⟨h.aims hop, hkeeps.resolve_left hne⟩

theorem kept_iff (h : g.Inv L) {op : Op ι} (hop : Allowed g op) : Kept L g op ↔ Keeps L g op := by
  obtain ⟨g', hstep, -, hiff⟩ := step_spec h hop
  constructor
  · rintro ⟨g'', hstep', hkept⟩
    cases hstep.symm.trans hstep'
    exact hiff.mp hkept
  · intro hkeeps
    exact ⟨g', hstep, hiff.mpr hkeeps⟩

theorem Kept.inv (h : g.Inv L) {op : Op ι} (hop : Allowed g op) (hkept : Kept L g op) {g' : Grid ι}
    (hstep : step L g op = some g') : g'.Inv L := by
  obtain ⟨g₁, hstep₁, hsound, -⟩ := step_spec h hop
  obtain ⟨g₂, hstep₂, hcons, -⟩ := hkept
  cases hstep.symm.trans hstep₁
  cases hstep.symm.trans hstep₂
  exact ⟨hsound, hcons⟩

omit [DecidableEq ι] in
theorem update_inv (L : Layout) {items : List ι} (h : items.Nodup) : (update L items).Inv L := by
  have hnew : Inv L { items := ([] : List ι) } := by
    refine ⟨⟨nodup_nil, fun hne => absurd rfl hne, nofun⟩, rfl, ⟨le_refl _, ?_⟩,
      fun hne => absurd rfl hne⟩
    exact negSucc_lt_zero 0
  unfold update
  split_ifs with hitems
  · rw [hitems]
    exact hnew
  · obtain ⟨hsound, hcons⟩ := updatePaginationModel_sound hnew h
    refine ⟨hsound, hcons.mpr ⟨?_, fun hne => ?_⟩⟩
    · exact (negSucc_lt_zero 0).trans_le (natCast_nonneg _)
    · exact (negSucc_lt_zero 0).trans (L.pagesFor_pos (length_pos_of_ne_nil hne))

/-- From every model the grid is consistent, and it stays so along a run, with the same item
selected while it is in the model and no other is chosen, exactly when every step meets the
condition. -/
theorem grid_consistent_iff (L : Layout) (items : List ι) (h : items.Nodup) (ops : List (Op ι)) :
    (update L items).Consistent ∧
      (EachStep (step L) (fun g op => Allowed g op ∧ Kept L g op) ops (update L items) ↔
        EachStep (step L) (fun g op => Allowed g op ∧ Keeps L g op) ops (update L items)) :=
  ⟨(update_inv L h).toConsistent, eachStep_iff
    (fun _ _ hinv => and_congr_right fun hop => kept_iff hinv hop)
    (fun _ _ _ hinv hkept hstep => hkept.2.inv hinv hkept.1 hstep) (update_inv L h)⟩

end

/-- A layout of one tile. -/
def oneTile : Layout := ⟨1, 1, Nat.one_pos, Nat.one_pos⟩

/-- An item is put behind the selected one. -/
theorem grid_consistent_iff_addAt :
    EachStep (step oneTile) (fun g op => Allowed g op ∧ Kept oneTile g op)
      [.setSelectedItem 0, .addAt 1 1] (update oneTile [0]) := by
  refine (grid_consistent_iff oneTile [0] (nodup_singleton 0)
    [.setSelectedItem 0, .addAt 1 1]).2.mpr ⟨⟨trivial, trivial⟩, fun g hg => ?_⟩
  cases hg
  exact ⟨⟨⟨by decide, by decide⟩, ⟨by decide, by decide⟩⟩, fun _ _ => trivial⟩

/-- An item in front of the selected one takes its index, and the page that is left stays
selected. -/
theorem grid_index_moves :
    ¬EachStep (step oneTile) (Kept oneTile) [.setSelectedItem 0, .addAt 0 1] (update oneTile [0]) ∧
      ¬EachStep (step oneTile) (Kept oneTile) [.ensureItemVisible 1, .removeAt 1]
        (update oneTile [0, 1]) := by
  constructor
  · intro h
    obtain ⟨_, hstep, -, hfollows⟩ := (h.2 _ rfl).1
    cases hstep
    exact absurd (hfollows rfl 0 (by decide) (by decide)) (by decide)
  · intro h
    obtain ⟨_, hstep, hconsistent, -⟩ := (h.2 _ rfl).1
    cases hstep
    exact absurd (hconsistent.page (by decide)).2 (by decide)

end Grid

/-! ## Requests for pages

What SelectPage announces beside what it does, and the last request that is to win. -/

open Runs PaginationModel

/-- The old and the new page of `NotifySelectedPageChanged`, where SelectPage comes to it. -/
def PaginationModel.notified (m : PaginationModel) (page : Int) (animate : Bool) :
    List (Int × Int) :=
  if animate then []
  else if page = m.selectedPage then []
  else [(m.selectedPage, page)]

/-- The model with the last page asked for and what its observers have been told. -/
structure Session where
  model : PaginationModel
  requested : Option Int := none
  notified : List (Int × Int) := []

inductive Request where
  | selectPage (page : Int) (animate : Bool)
  | animationEnded

namespace Session

def step (s : Session) : Request → Option Session
  | .selectPage page animate =>
    if 0 ≤ page ∧ page < s.model.totalPages then
      some {
        model := s.model.selectPage page animate
        requested := some page
        notified := s.notified ++ s.model.notified page animate }
    else none
  | .animationEnded =>
    if s.model.animating then
      some { s with
        model := s.model.animationEnded
        notified := s.notified ++ s.model.notified s.model.transitionTarget false }
    else none

/-- Each entry is a change, from where the one in front of it led. -/
def Announces (selected : Int) : Int → List (Int × Int) → Prop
  | page, [] => page = selected
  | page, change :: rest => change.1 = page ∧ change.2 ≠ page ∧ Announces selected change.2 rest

theorem Announces.concat {page selected next : Int} {changes : List (Int × Int)}
    (h : Announces selected page changes) (hnext : next ≠ selected) :
    Announces next page (changes ++ [(selected, next)]) := by
  induction changes generalizing page with
  | nil =>
    cases h
    exact ⟨rfl, hnext, rfl⟩
  | cons change changes ih => exact ⟨h.1, h.2.1, ih h.2.2⟩

/-- The last request wins, and the changes were announced. -/
structure Settles (s : Session) : Prop where
  last : s.model.animating = false → ∀ page, s.requested = some page → s.model.selectedPage = page
  reset : s.model.animating = false →
    s.model.transitionTarget = -1 ∧ s.model.pendingSelectedPage = -1
  announced : Announces s.model.selectedPage (-1) s.notified

/-- The page of the running transition is not asked for while another one is pending, and the
selected page is not asked for at once while a transition runs. -/
def Keeps (s : Session) : Request → Prop
  | .selectPage page true => s.model.animating = true → page = s.model.transitionTarget →
    s.model.pendingSelectedPage < 0
  | .selectPage page false => page = s.model.selectedPage → s.model.animating = false
  | .animationEnded => True

/-- Where the transitions lead. -/
def goal (m : PaginationModel) : Int :=
  if m.animating then
    if 0 ≤ m.pendingSelectedPage then m.pendingSelectedPage else m.transitionTarget
  else m.selectedPage

structure Inv (s : Session) : Prop where
  goal : ∀ page, s.requested = some page → goal s.model = page
  reset : s.model.animating = false →
    s.model.transitionTarget = -1 ∧ s.model.pendingSelectedPage = -1
  running : s.model.animating = true → s.model.transitionTarget ≠ s.model.selectedPage ∧
    s.model.pendingSelectedPage ≠ s.model.transitionTarget
  announced : Announces s.model.selectedPage (-1) s.notified

variable {s t : Session}

theorem Inv.settles (h : Inv s) : Settles s := by
  refine ⟨fun hidle page hpage => ?_, h.reset, h.announced⟩
  rw [← h.goal page hpage, Session.goal, hidle]
  rfl

/-- A page that is not the selected one is selected at once. -/
theorem Inv.jump (h : Inv s) {page : Int} (hne : page ≠ s.model.selectedPage) :
    s.model.selectPage page false =
        { s.model.resetTransitionAnimation with selectedPage := page } ∧
      Announces page (-1) (s.notified ++ s.model.notified page false) := by
  constructor
  · simp [selectPage, hne]
  · simpa [PaginationModel.notified, hne] using h.announced.concat hne

theorem Inv.animated (h : Inv s) {page : Int} (hpage : 0 ≤ page)
    (hkeeps : Keeps s (.selectPage page true)) :
    Inv ⟨s.model.selectPage page true, some page, s.notified ++ s.model.notified page true⟩ := by
  have hnotified : s.notified ++ s.model.notified page true = s.notified := List.append_nil _
  rw [hnotified]
  simp only [selectPage, if_true, Bool.not_eq_true']
  split_ifs with hidle hsame hother
  · refine ⟨fun p hp => ?_, h.reset, h.running, h.announced⟩
    rw [Session.goal, hidle]
    exact hsame.symm.trans (Option.some.inj hp)
  · obtain ⟨-, hpend⟩ := h.reset hidle
    refine ⟨fun p hp => ?_, (by rintro ⟨⟩), fun _ => ⟨hsame, ?_⟩, h.announced⟩
    · simpa [Session.goal, startTransitionAnimation, hpend] using hp
    · exact fun heq => by simp [startTransitionAnimation] at heq; omega
  · have hrun : s.model.animating = true := Bool.of_not_eq_false hidle
    refine ⟨fun p hp => ?_, fun hnot => absurd hnot hidle,
      fun _ => ⟨(h.running hrun).1, fun heq => hother heq.symm⟩, h.announced⟩
    simpa [Session.goal, hrun, hpage] using hp
  · have hrun : s.model.animating = true := Bool.of_not_eq_false hidle
    have htgt : s.model.transitionTarget = page := not_not.mp hother
    refine ⟨fun p hp => ?_, h.reset, h.running, h.announced⟩
    have hpend := hkeeps hrun htgt.symm
    simp only [Session.goal, hrun, if_true, if_neg (not_le.mpr hpend)]
    exact htgt.trans (Option.some.inj hp)

/-- The transition that ends has selected its page, and the pending one starts. -/
theorem Inv.animationEnded (h : Inv s) (hrun : s.model.animating = true) :
    Inv { s with
      model := s.model.animationEnded
      notified := s.notified ++ s.model.notified s.model.transitionTarget false } := by
  obtain ⟨hselect, hannounced⟩ := h.jump (h.running hrun).1
  have hgoal := h.goal
  simp only [Session.goal, hrun, if_true] at hgoal
  simp only [PaginationModel.animationEnded, hselect]
  split_ifs with hpend
  · rw [if_pos hpend] at hgoal
    refine ⟨hgoal, (by rintro ⟨⟩), fun _ => ⟨(h.running hrun).2, fun heq => ?_⟩, hannounced⟩
    have hnone : -1 = s.model.pendingSelectedPage := heq
    omega
  · rw [if_neg hpend] at hgoal
    exact ⟨hgoal, fun _ => ⟨rfl, rfl⟩, (by rintro ⟨⟩), hannounced⟩

theorem step_inv (h : Inv s) {request : Request} (hkeeps : Keeps s request)
    (hstep : s.step request = some t) : Inv t := by
  cases request with
  | selectPage page animate =>
    simp only [step] at hstep
    split_ifs at hstep with hpage
    cases hstep
    cases animate with
    | true => exact h.animated hpage.1 hkeeps
    | false =>
      by_cases hne : page = s.model.selectedPage
      · have hidle := hkeeps hne
        have hselect : s.model.selectPage page false = s.model := by
          simp [selectPage, hne]
        rw [hselect]
        refine ⟨fun p hp => ?_, h.reset, h.running, ?_⟩
        · rw [Session.goal, hidle]
          exact hne.symm.trans (Option.some.inj hp)
        · simpa [PaginationModel.notified, hne] using h.announced
      · obtain ⟨hselect, hannounced⟩ := h.jump hne
        rw [hselect]
        exact ⟨fun _ hp => Option.some.inj hp, fun _ => ⟨rfl, rfl⟩, (by rintro ⟨⟩), hannounced⟩
  | animationEnded =>
    simp only [step] at hstep
    split_ifs at hstep with hrun
    cases hstep
    exact h.animationEnded hrun

/-- Along every run of requests that meet the condition the last one wins. -/
theorem last_request_wins (totalPages : Int) (requests : List Request)
    (hkeeps : EachStep step Keeps requests { model := { totalPages } }) (s : Session)
    (hrun : run step requests { model := { totalPages } } = some s) : Settles s :=
  (run_invariant_of_each (fun _ _ _ h hkeeps hstep => step_inv h hkeeps hstep) hrun hkeeps
    ⟨nofun, fun _ => ⟨rfl, rfl⟩, nofun, rfl⟩).settles

theorem last_request_wins_pending :
    Settles ⟨{ totalPages := 3, selectedPage := 2 }, some 2, [(-1, 1), (1, 2)]⟩ := by
  refine last_request_wins 3
    [.selectPage 1 true, .selectPage 2 true, .animationEnded, .animationEnded]
    ⟨nofun, fun _ h => ?_⟩ _ rfl
  cases h
  exact ⟨fun _ hsame => absurd hsame (by decide),
    fun _ _ => ⟨trivial, fun _ _ => ⟨trivial, fun _ _ => trivial⟩⟩⟩

/-- The page of the running transition, asked for again, and the selected page, asked for at once
while another transition runs. -/
theorem last_request_lost :
    (∃ s, run step [.selectPage 0 true, .selectPage 1 true, .selectPage 0 true, .animationEnded,
      .animationEnded] { model := { totalPages := 2 } } = some s ∧ ¬Settles s) ∧
    ∃ s, run step [.selectPage 0 false, .selectPage 1 true, .selectPage 0 false, .animationEnded]
      { model := { totalPages := 2 } } = some s ∧ ¬Settles s :=
  ⟨⟨_, rfl, fun h => absurd (h.last rfl 0 rfl) (by decide)⟩,
    ⟨_, rfl, fun h => absurd (h.last rfl 0 rfl) (by decide)⟩⟩

end Session

end ChromiumUI.AppsGridView
