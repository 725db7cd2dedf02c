import ChromiumUI.TreeViewNodes
import ChromiumUI.TreeView

/-!
# The selection of a TreeView stays on a node that is shown

Selecting, collapsing, keys and editing, for a view that is well formed.
-/
namespace ChromiumUI.Views.TreeView

open Trees Trees.Rose List Option State

variable {s t u : State} {place : Place} {target : Option Place}

/-- selected_node_ is NULL or shown. -/
def Live (s : State) : Prop := ∀ address, s.selectedNode = some address → Shown s.root address

structure Selection (s : State) : Prop where
  live : Live s
  hidden : s.rootShown = false → s.selectedNode ≠ some s.root.label.address

/-- What holds between any two operations. -/
structure Inv (s : State) : Prop extends WellFormed s, Selection s where
  editing : s.hasEditor = true → s.selectedNode.isSome = true

/-- What every operation of the view does at most, the selection apart. -/
structure Follows (s t : State) : Prop where
  model : t.model = s.model
  root : Extends s.root t.root
  rootShown : t.rootShown = s.rootShown

theorem Grows.follows (h : Grows s t) : Follows s t := ⟨h.model, h.root, h.rootShown⟩

theorem Follows.trans (h : Follows s t) (h' : Follows t u) : Follows s u :=
  ⟨h'.model.trans h.model, h.root.trans h'.root, h'.rootShown.trans h.rootShown⟩

theorem Live.grows (h : Live s) (hgrows : Grows s t) : Live t := by
  intro address hsel
  rw [hgrows.selectedNode] at hsel
  exact (h address hsel).extends hgrows.root

theorem Selection.grows (h : Selection s) (hgrows : Grows s t) : Selection t := by
  refine ⟨h.live.grows hgrows, fun hshown => ?_⟩
  rw [hgrows.rootShown] at hshown
  rw [hgrows.selectedNode, hgrows.rootAddress]
  exact h.hidden hshown

theorem Inv.grows (h : Inv s) (hwell : WellFormed t) (hgrows : Grows s t) : Inv t := by
  refine { hwell, h.toSelection.grows hgrows with editing := ?_ }
  rw [hgrows.hasEditor, hgrows.selectedNode]
  exact h.editing

/-- Where the selected node is. -/
theorem Live.found (h : Live s) (hwell : WellFormed s) {address : Nat}
    (hsel : s.selectedNode = some address) :
    ∃ place n, s.placeOfInternal address = some place ∧ s.root.nodeAt place = some n ∧
      n.label.address = address ∧ Exposed s.root place := by
  obtain ⟨place, n, hn, rfl, hexp⟩ := h address hsel
  exact ⟨place, n, hwell.placeOfInternal hn, hn, rfl, hexp⟩

theorem useSelected_eq (hwell : WellFormed s) (h : Live s) : s.useSelected = some s := by
  unfold useSelected
  split
  · rfl
  · rename_i address hsel
    obtain ⟨place, n, hplace, -⟩ := h.found hwell hsel
    rw [hplace]
    rfl

/-! ## Expand -/

theorem expand_spec (h : WellFormed s) (hplace : (s.model.nodeAt place).isSome = true) :
    ∃ t, s.expand place = some t ∧ WellFormed t ∧ Grows s t ∧ ∀ i, Exposed t.root (i :: place) := by
  obtain ⟨expanded, t, ht, hwell, hgrows, hexp, hopen⟩ := expandImpl_spec h hplace
  exact ⟨t, by rw [expand, ht]; rfl, hwell, hgrows, fun _ => ⟨hexp, hopen⟩⟩

theorem parent_isSome {α : Type} {m : Rose α} {i : Nat} {parent : Place}
    (h : (m.nodeAt (i :: parent)).isSome = true) : (m.nodeAt parent).isSome = true := by
  obtain ⟨n, hn⟩ := isSome_iff_exists.mp h
  obtain ⟨p, hp, -⟩ := nodeAt_cons_some.mp hn
  exact isSome_iff_exists.mpr ⟨p, hp⟩

theorem expandParent_spec (h : WellFormed s) (hplace : (s.model.nodeAt place).isSome = true) :
    ∃ t, s.expandParent place = some t ∧ WellFormed t ∧ Grows s t ∧ Exposed t.root place := by
  cases place with
  | nil => exact ⟨s, rfl, h, .refl s, trivial⟩
  | cons i parent =>
    obtain ⟨t, ht, hwell, hgrows, hexp⟩ := expand_spec h (parent_isSome hplace)
    exact ⟨t, ht, hwell, hgrows, hexp i⟩

/-! ## SetSelectedNode -/

/-- The selected node is the one asked for. -/
def Selects (s : State) : Option Place → Prop
  | none => s.selectedNode = none
  | some place => ∃ n, s.root.nodeAt place = some n ∧ s.selectedNode = some n.label.address ∧
      Exposed s.root place

/-- Only the root is at the address of the root. -/
theorem WellFormed.eq_nil (h : WellFormed s) {n : Rose NodeFields}
    (hn : s.root.nodeAt place = some n) (haddr : n.label.address = s.root.label.address) :
    place = [] :=
  place_unique h.addresses hn (show s.root.nodeAt [] = some s.root from rfl) haddr

theorem Selects.selection (h : Selects s target) (hwell : WellFormed s)
    (hroot : target = some [] → s.rootShown = true) : Selection s := by
  cases target with
  | none =>
    have hnone : s.selectedNode = none := h
    constructor
    · intro address hsel
      rw [hnone] at hsel
      cases hsel
    · rw [hnone]
      exact fun _ => nofun
  | some place =>
    obtain ⟨n, hn, hsel, hexp⟩ := h
    constructor
    · intro address haddr
      rw [hsel] at haddr
      exact ⟨place, n, hn, some.inj haddr, hexp⟩
    · intro hshown haddr
      rw [hsel] at haddr
      rw [hwell.eq_nil hn (some.inj haddr)] at hroot
      rw [hroot rfl] at hshown
      cases hshown

section

variable (hwell : WellFormed s)
include hwell

theorem changeSelection_none (h : Live s) :
    s.changeSelection none = some { s with selectedNode := none } := by
  simp only [changeSelection, useSelected_eq hwell h, bind_eq_bind, bind_some]
  rfl

theorem changeSelection_spec (h : Live s) {n : Rose NodeFields}
    (hn : s.root.nodeAt place = some n) (hexp : Exposed s.root place)
    (hroot : place = [] → s.rootShown = true) :
    ∃ t, s.changeSelection (some n.label.address) = some t ∧ WellFormed t ∧
      Grows { s with selectedNode := some n.label.address } t := by
  have hnotHidden : (some n.label.address == some s.root.label.address && !s.rootShown) = false := by
    by_cases haddr : n.label.address = s.root.label.address
    · rw [hroot (hwell.eq_nil hn haddr), Bool.not_true, Bool.and_false]
    · simp [haddr]
  have hwell' : WellFormed { s with selectedNode := some n.label.address } :=
    ⟨hwell.model, hwell.mirrors, hwell.addresses, hwell.fresh, hwell.root⟩
  have hlive : Live { s with selectedNode := some n.label.address } :=
    fun address haddr => ⟨place, n, hn, some.inj haddr, hexp⟩
  simp only [changeSelection, useSelected_eq hwell h, bind_eq_bind, bind_some,
    hnotHidden, Bool.false_eq_true, if_false]
  split
  · exact ⟨_, useSelected_eq hwell' hlive, hwell', .refl _⟩
  · obtain ⟨m, hm, -⟩ := hwell.modelNode hn
    obtain ⟨t, ht, hwell'', hgrows, -⟩ :=
      @expandParent_spec _ place hwell' (isSome_iff_exists.mpr ⟨m, hm⟩)
    refine ⟨t, ?_, hwell'', hgrows⟩
    rw [hwell'.placeOfInternal hn, bind_some, hn, bind_some, hwell'.placeOfModel hn,
      bind_some, ht]
    exact useSelected_eq hwell'' (hlive.grows hgrows)

theorem selectInternal_none (h : Live s) :
    s.selectInternal none = some { s with selectedNode := none } := by
  simp only [selectInternal, bind_eq_bind, bind_some]
  split
  · rename_i hnone
    rw [useSelected_eq hwell h, ← hnone]
  · rw [changeSelection_none hwell h]
    rfl

theorem selectInternal_some (h : Live s)
    (hplace : (s.model.nodeAt place).isSome = true) (hexp : Exposed s.root place)
    (hroot : place = [] → s.rootShown = true) :
    ∃ t, s.selectInternal (some place) = some t ∧ WellFormed t ∧ Follows s t ∧
      t.hasEditor = s.hasEditor ∧ Selects t (some place) := by
  obtain ⟨t, ht, hwell', hgrows, hsome⟩ := getInternalNode_create hwell hplace
  obtain ⟨n, hn⟩ := isSome_iff_exists.mp hsome
  have hexp' := hexp.extends hgrows.root
  simp only [selectInternal, ht, bind_eq_bind, bind_some, hn, map_some]
  split
  · rename_i hsel
    exact ⟨t, useSelected_eq hwell' (h.grows hgrows), hwell', hgrows.follows, hgrows.hasEditor, n,
      hn, hsel, hexp'⟩
  · obtain ⟨u, hu, hwell'', hgrows'⟩ := changeSelection_spec hwell' (h.grows hgrows) hn hexp'
      (by rw [hgrows.rootShown]; exact hroot)
    obtain ⟨n', hn', haddr, -, -⟩ := hgrows'.root place n hn
    have hselects : Selects u (some place) :=
      ⟨n', hn', by rw [hgrows'.selectedNode, haddr], hexp'.extends hgrows'.root⟩
    refine ⟨u, ?_, hwell'', hgrows.follows.trans ⟨hgrows'.model, hgrows'.root, hgrows'.rootShown⟩,
      hgrows'.hasEditor.trans hgrows.hasEditor, hselects⟩
    rw [hu, bind_some]
    refine useSelected_eq hwell'' (hselects.selection hwell'' fun hplace => ?_).live
    rw [hgrows'.rootShown]
    rw [hgrows.rootShown]
    exact hroot (some.inj hplace)

theorem setSelectedNode_spec (h : Live s)
    (htgt : ∀ place, target = some place → (s.model.nodeAt place).isSome = true)
    (hhidden : target = some [] → Selection s) :
    ∃ t, s.setSelectedNode target = some t ∧ WellFormed t ∧ Selection t ∧ t.hasEditor = false ∧
      Follows s t ∧ ((target = some [] → s.rootShown = true) → Selects t target) := by
  have hwell' : WellFormed s.cancelEdit :=
    ⟨hwell.model, hwell.mirrors, hwell.addresses, hwell.fresh, hwell.root⟩
  have hfol : Follows s s.cancelEdit := ⟨rfl, .refl _, rfl⟩
  cases target with
  | none =>
    refine ⟨{ s.cancelEdit with selectedNode := none }, ?_,
      ⟨hwell.model, hwell.mirrors, hwell.addresses, hwell.fresh, hwell.root⟩, ⟨nofun, nofun⟩, rfl,
      ⟨rfl, .refl _, rfl⟩, fun _ => rfl⟩
    simp only [setSelectedNode, bind_eq_bind, bind_some, reduceCtorEq,
      false_and, if_false]
    exact selectInternal_none hwell' h
  | some place =>
    obtain ⟨t, ht, hwellt, hgrows, hexp⟩ := expandParent_spec hwell' (htgt place rfl)
    have hfol' := hfol.trans hgrows.follows
    have hlive : Live t := Live.grows (s := s.cancelEdit) h hgrows
    simp only [setSelectedNode, ht, bind_eq_bind, bind_some, some.injEq]
    split
    · rename_i hroot
      obtain ⟨rfl, hshown⟩ := hroot
      have hsel : Selection s.cancelEdit := ⟨(hhidden rfl).live, (hhidden rfl).hidden⟩
      refine ⟨t, rfl, hwellt, hsel.grows hgrows, hgrows.hasEditor, hfol', fun hroot => ?_⟩
      rw [hfol'.rootShown, hroot rfl] at hshown
      cases hshown
    · rename_i hnot
      have hroot : place = [] → t.rootShown = true := fun hplace => by
        cases hshown : t.rootShown
        · exact absurd ⟨hplace, hshown⟩ hnot
        · rfl
      obtain ⟨u, hu, hwellu, hfollowsu, heditor, hselects⟩ := selectInternal_some hwellt hlive
        (by rw [hfol'.model]; exact htgt place rfl) hexp hroot
      refine ⟨u, hu, hwellu, hselects.selection hwellu fun hplace => ?_,
        heditor.trans hgrows.hasEditor, hfol'.trans hfollowsu, fun _ => hselects⟩
      rw [hfollowsu.rootShown]
      exact hroot (some.inj hplace)

end

theorem setSelectedNode_inv (h : Inv s)
    (htgt : ∀ place, target = some place → (s.model.nodeAt place).isSome = true) :
    ∃ t, s.setSelectedNode target = some t ∧ Inv t := by
  obtain ⟨t, ht, hwell, hsel, heditor, -⟩ :=
    setSelectedNode_spec h.toWellFormed h.live htgt fun _ => h.toSelection
  refine ⟨t, ht, { hwell, hsel with editing := ?_ }⟩
  rw [heditor]
  exact nofun

theorem setSelectedInternal_inv (h : Inv s) {n : Rose NodeFields}
    (hn : s.root.nodeAt place = some n) : ∃ t, s.setSelectedInternal place = some t ∧ Inv t := by
  obtain ⟨m, hm, -⟩ := h.modelNode hn
  obtain ⟨t, ht, hinv⟩ := @setSelectedNode_inv s (some place) h
    fun _ hplace => some.inj hplace ▸ isSome_iff_exists.mpr ⟨m, hm⟩
  refine ⟨t, ?_, hinv⟩
  simp only [setSelectedInternal, hn, h.placeOfModel hn, bind_eq_bind,
    bind_some]
  exact ht

/-! ## Collapse and SetRootShown -/

theorem rootAddress_setIsExpanded (s : State) (place : Place) (isExpanded : Bool) :
    (s.setIsExpanded place isExpanded).root.label.address = s.root.label.address :=
  label_update (P := fun fields : NodeFields => fields.address = s.root.label.address) rfl
    fun _ hn => hn

/-- A node may be collapsed once the selection is not below it. -/
theorem Inv.collapsed (h : Inv s)
    (hbelow : ∀ n, s.root.nodeAt place = some n → ∀ address, s.selectedNode = some address →
      Shown n address → n.label.address = address) : Inv (s.setIsExpanded place false) := by
  have hwell : WellFormed (s.setIsExpanded place false) :=
    h.toWellFormed.setIsExpanded fun hfalse => Bool.noConfusion hfalse
  refine { hwell with live := ?_, hidden := ?_, editing := h.editing }
  · intro address hsel
    exact (h.live address hsel).update fun n hn hshown =>
      shown_iff.mpr (Or.inl (hbelow n hn address hsel hshown))
  · rw [rootAddress_setIsExpanded]
    exact h.hidden

theorem collapse_inv (h : Inv s) (hplace : (s.model.nodeAt place).isSome = true) :
    ∃ t, s.collapse place = some t ∧ Inv t := by
  unfold collapse
  split
  · exact ⟨s, rfl, h⟩
  · rename_i hnotHidden
    have hroot : place = [] → s.rootShown = true := fun hplace => by
      cases hshown : s.rootShown
      · exact absurd ⟨hplace, hshown⟩ hnotHidden
      · rfl
    simp only [getInternalNode_lookup h.mirrors hplace, bind_eq_bind, bind_some]
    rcases eq_none_or_eq_some (s.root.nodeAt place) with hn | ⟨n, hn⟩
    · rw [hn]
      exact ⟨s, rfl, h⟩
    simp only [hn, isSome_some, if_true, bind_some]
    split
    · unfold selectedHasAncestor
      split
      · rename_i hsel
        refine ⟨_, rfl, h.collapsed fun n _ address haddr => ?_⟩
        rw [hsel] at haddr
        cases haddr
      · rename_i address hsel
        obtain ⟨selected, n', hfound, hn', haddr, -⟩ := h.live.found h.toWellFormed hsel
        simp only [hfound, map_some, bind_some]
        by_cases hsuf : place <:+ selected
        · -- the selection goes to the node first
          obtain ⟨t, ht, hwell, hselection, heditor, hfol, hselects⟩ :=
            @setSelectedNode_spec s (some place) h.toWellFormed h.live
              (fun _ hp => some.inj hp ▸ hplace) fun _ => h.toSelection
          obtain ⟨k, hk, hat, -⟩ := hselects fun hp => hroot (some.inj hp)
          have hinv : Inv t := { hwell, hselection with editing := by rw [heditor]; exact nofun }
          refine ⟨t.setIsExpanded place false, ?_, hinv.collapsed fun k' hk' address haddr _ => ?_⟩
          · rw [if_pos (isSuffixOf_iff_suffix.mpr hsuf), ht]
            rfl
          · cases hk.symm.trans hk'
            exact some.inj (hat.symm.trans haddr)
        · refine ⟨s.setIsExpanded place false, ?_, h.collapsed fun k hk address' haddr' hshown => ?_⟩
          · rw [if_neg (mt isSuffixOf_iff_suffix.mp hsuf)]
          · obtain ⟨r, l, hl, hladdress, -⟩ := hshown
            cases hsel.symm.trans haddr'
            have hat : s.root.nodeAt (r ++ place) = some l := by
              rw [nodeAt_append, hk]
              exact hl
            have := place_unique h.addresses hat hn' (hladdress.trans haddr.symm)
            exact absurd ⟨r, this⟩ hsuf
    · exact ⟨s, rfl, h⟩

theorem firstChild_isSome (m : Rose Nat) (place : Place)
    (hplace : (if m.children.isEmpty then none else some [0]) = some place) :
    (m.nodeAt place).isSome = true := by
  split at hplace
  · cases hplace
  · rename_i hchild
    cases hplace
    show (m.children[0]?).isSome = true
    cases hcs : m.children with
    | nil => simp [hcs] at hchild
    | cons c cs => rfl

theorem firstChild_ne_root (m : Rose Nat) :
    (if m.children.isEmpty then none else some [0]) ≠ some ([] : Place) := by
  split <;> exact nofun

theorem setRootShown_inv (h : Inv s) (rootShown : Bool) :
    ∃ t, s.setRootShown rootShown = some t ∧ Inv t := by
  unfold setRootShown
  split
  · exact ⟨s, rfl, h⟩
  · have hwell : WellFormed { s with rootShown } :=
      ⟨h.model, h.mirrors, h.addresses, h.fresh, h.root⟩
    dsimp only
    split
    · obtain ⟨t, ht, hwell', hselection, heditor, -⟩ :=
        @setSelectedNode_spec { s with rootShown } _ hwell h.live (firstChild_isSome s.model)
          fun hroot => absurd hroot (firstChild_ne_root s.model)
      exact ⟨t, ht, { hwell', hselection with editing := by rw [heditor]; exact nofun }⟩
    · rename_i hsel
      refine ⟨_, rfl, { hwell with live := h.live, hidden := ?_, editing := h.editing }⟩
      exact fun hshown haddr => hsel ⟨hshown, haddr⟩

/-! ## Keys -/

theorem toRowsIn_getElem? (cs : List (Rose NodeFields)) (i : Nat) :
    (toRowsIn cs)[i]? = (cs[i]?).map toRows := by
  induction cs generalizing i with
  | nil => rfl
  | cons c cs ih =>
    cases i with
    | zero => rfl
    | succ i => exact ih i

theorem toRows_nodeAt (t : Rose NodeFields) (place : Place) :
    (toRows t).nodeAt place = (t.nodeAt place).map toRows := by
  induction place with
  | nil => rfl
  | cons i parent ih =>
    rw [InternalNode.nodeAt, ih, nodeAt_cons]
    cases t.nodeAt parent with
    | none => rfl
    | some n =>
      obtain ⟨a, cs⟩ := n
      exact toRowsIn_getElem? cs i

def rowsOf (s : State) : TreeView := ⟨toRows s.root, s.rootShown⟩

theorem row_found (s : State) {row : Int} (hnneg : 0 ≤ row) (hlt : row < (rowsOf s).getRowCount) :
    ∃ place depth n, (rowsOf s).getNodeByRow row = some (place, depth) ∧
      s.root.nodeAt place = some n := by
  obtain ⟨k, rfl⟩ := Int.eq_ofNat_of_zero_le hnneg
  rw [← length_rows] at hlt
  have hk := getElem?_eq_getElem (Int.ofNat_lt.mp hlt)
  obtain ⟨⟨⟨node, hnode⟩, -⟩, -⟩ := rows_visible hk
  have hat := toRows_nodeAt s.root (rowsOf s).rows[k].1
  rw [show (toRows s.root).nodeAt _ = some node from hnode] at hat
  obtain ⟨n, hn, -⟩ := map_eq_some_iff.mp hat.symm
  exact ⟨_, _, n, by rw [getNodeByRow_eq, hk], hn⟩

theorem numExpandedNodes_pos (n : InternalNode) : 0 < n.numExpandedNodes := by
  obtain ⟨isExpanded, children⟩ := n
  rw [InternalNode.numExpandedNodes]
  split <;> omega

/-- There is a last row, or else the root stands at row -1. -/
theorem last_row_found (s : State) :
    ∃ place depth n, (rowsOf s).getNodeByRow ((rowsOf s).getRowCount - 1) = some (place, depth) ∧
      s.root.nodeAt place = some n := by
  have hpos := numExpandedNodes_pos (toRows s.root)
  by_cases hcount : (rowsOf s).getRowCount = 0
  · have hshown : (rowsOf s).rootShown = false := by
      cases hshown : (rowsOf s).rootShown with
      | false => rfl
      | true =>
        rw [getRowCount, hshown] at hcount
        have : ((toRows s.root).numExpandedNodes : Int) = 0 := hcount
        omega
    refine ⟨[], -1, s.root, ?_, rfl⟩
    rw [hcount, getNodeByRow, rootRow, rootDepth, hshown]
    show (InternalNode.getNodeByRowImpl (-1) (toRows s.root) [] (-1) (-1)).1 = _
    cases toRows s.root
    rw [InternalNode.getNodeByRowImpl, if_pos rfl]
  · refine row_found s ?_ (by omega)
    have : 0 ≤ (rowsOf s).getRowCount := by
      rw [← length_rows]
      exact Int.natCast_nonneg _
    omega

/-- Where something is selected there is a row. -/
theorem Inv.row_pos (h : Inv s) {address : Nat} (hsel : s.selectedNode = some address) :
    0 < (rowsOf s).getRowCount := by
  have hpos := numExpandedNodes_pos (toRows s.root)
  cases hshown : s.rootShown with
  | true =>
    rw [getRowCount, show (rowsOf s).rootShown = true from hshown]
    exact Int.ofNat_lt.mpr hpos
  | false =>
    rcases shown_iff.mp (h.live address hsel) with hroot | ⟨hexp, c, hc, -⟩
    · exact absurd (hroot ▸ hsel) (h.hidden hshown)
    · have hcount : 1 < (toRows s.root).numExpandedNodes := by
        rcases hnode : s.root with ⟨a, cs⟩
        rw [hnode] at hexp hc
        cases cs with
        | nil => cases hc
        | cons d cs =>
          have hchild := numExpandedNodes_pos (toRows d)
          rw [toRows, toRowsIn, InternalNode.numExpandedNodes, if_pos (show a.isExpanded = true from
            hexp), InternalNode.numExpandedChildren]
          omega
      rw [getRowCount, show (rowsOf s).rootShown = false from hshown]
      show (0 : Int) < (toRows s.root).numExpandedNodes - 1
      omega

theorem incrementSelection_inv (h : Inv s) (next : Bool) :
    ∃ t, s.incrementSelection next = some t ∧ Inv t := by
  unfold incrementSelection
  split
  · split
    · exact ⟨s, rfl, h⟩
    · rename_i hchild
      split
      · obtain ⟨place, depth, n, hfound, hn⟩ := last_row_found s
        rw [rowsOf] at hfound
        simp only [hfound, bind_eq_bind, bind_some]
        exact setSelectedInternal_inv h hn
      · split
        · exact setSelectedInternal_inv h (nodeAt_nil s.root)
        · cases hcs : s.root.children with
          | nil => simp [hcs] at hchild
          | cons c cs =>
            have hn : s.root.nodeAt [0] = some c := by
              rw [nodeAt_cons, nodeAt_nil, bind_some, hcs]
              rfl
            exact setSelectedInternal_inv h hn
  · rename_i address hsel
    obtain ⟨selected, n, hfound, -⟩ := h.live.found h.toWellFormed hsel
    have hpos := h.row_pos hsel
    rw [rowsOf] at hpos
    simp only [hfound, bind_eq_bind, bind_some]
    generalize (if next = true then (1 : Int) else -1) = delta
    split
    · exact ⟨s, rfl, h⟩
    · obtain ⟨place, depth, n, hrow, hn⟩ := @row_found s
        (min ((rowsOf s).getRowCount - 1) (max 0 (((rowsOf s).getRowForNode selected).1 + delta)))
        (by rw [rowsOf]; omega) (by rw [rowsOf]; omega)
      rw [rowsOf] at hrow
      rw [hrow, bind_some]
      exact setSelectedInternal_inv h hn

theorem collapseOrSelectParent_inv (h : Inv s) :
    ∃ t, s.collapseOrSelectParent = some t ∧ Inv t := by
  unfold collapseOrSelectParent
  split
  · exact ⟨s, rfl, h⟩
  · rename_i address hsel
    obtain ⟨place, n, hfound, hn, -⟩ := h.live.found h.toWellFormed hsel
    simp only [hfound, hn, bind_eq_bind, bind_some]
    split
    · obtain ⟨m, hm, -⟩ := h.modelNode hn
      rw [h.placeOfModel hn, bind_some]
      exact collapse_inv h (isSome_iff_exists.mpr ⟨m, hm⟩)
    · cases place with
      | nil => exact ⟨s, rfl, h⟩
      | cons i parent =>
        obtain ⟨p, hp, -⟩ := nodeAt_cons_some.mp hn
        exact setSelectedInternal_inv h hp

theorem expandOrSelectChild_inv (h : Inv s) : ∃ t, s.expandOrSelectChild = some t ∧ Inv t := by
  unfold expandOrSelectChild
  split
  · exact ⟨s, rfl, h⟩
  · rename_i address hsel
    obtain ⟨place, n, hfound, hn, -⟩ := h.live.found h.toWellFormed hsel
    simp only [hfound, hn, bind_eq_bind, bind_some]
    split
    · split
      · exact ⟨s, rfl, h⟩
      · rename_i hchild
        cases hcs : n.children with
        | nil => simp [hcs] at hchild
        | cons c cs =>
          have hc : s.root.nodeAt (0 :: place) = some c := by
            rw [nodeAt_cons, hn, bind_some, hcs]
            rfl
          exact setSelectedInternal_inv h hc
    · obtain ⟨m, hm, -⟩ := h.modelNode hn
      obtain ⟨t, ht, hwell, hgrows, -⟩ :=
        @expand_spec _ place h.toWellFormed (isSome_iff_exists.mpr ⟨m, hm⟩)
      rw [h.placeOfModel hn, bind_some]
      exact ⟨t, ht, h.grows hwell hgrows⟩

/-! ## Editing -/

theorem cancelEdit_inv (h : Inv s) : Inv s.cancelEdit :=
  ⟨⟨h.model, h.mirrors, h.addresses, h.fresh, h.root⟩, ⟨h.live, h.hidden⟩, nofun⟩

theorem getSelectedNode_spec (h : Inv s) {address : Nat} (hsel : s.selectedNode = some address) :
    ∃ place n, s.getSelectedNode = some (some n.label.modelNode) ∧
      s.root.nodeAt place = some n := by
  obtain ⟨place, n, hfound, hn, -⟩ := h.live.found h.toWellFormed hsel
  refine ⟨place, n, ?_, hn⟩
  unfold getSelectedNode
  rw [hsel]
  simp only [hfound, hn, bind_eq_bind, bind_some]

theorem startEditing_inv (h : Inv s) (hplace : (s.model.nodeAt place).isSome = true) :
    ∃ t, s.startEditing place = some t ∧ Inv t := by
  have hcancel := cancelEdit_inv h
  obtain ⟨t, ht, hwell, hgrows, -⟩ := @expandParent_spec s.cancelEdit place hcancel.toWellFormed hplace
  have hinv := hcancel.grows hwell hgrows
  have hplace' : (t.model.nodeAt place).isSome = true := by
    rw [hgrows.model]
    exact hplace
  obtain ⟨u, hu, hwell', hselection, heditor, hfol, -⟩ :=
    @setSelectedNode_spec t (some place) hwell hinv.live
      (fun _ hp => some.inj hp ▸ hplace') fun _ => hinv.toSelection
  have hinv' : Inv u := { hwell', hselection with editing := by rw [heditor]; exact nofun }
  obtain ⟨m, hm⟩ := isSome_iff_exists.mp hplace'
  rw [← hfol.model] at hm
  simp only [startEditing, ht, hu, hm, bind_eq_bind, bind_some]
  rcases eq_none_or_eq_some u.selectedNode with hsel | ⟨address, hsel⟩
  · refine ⟨u, ?_, hinv'⟩
    rw [getSelectedNode, hsel]
    rfl
  · obtain ⟨place', n, hget, -⟩ := getSelectedNode_spec hinv' hsel
    rw [hget, bind_some]
    split
    · refine ⟨_, rfl, ?_⟩
      exact ⟨⟨hwell'.model, hwell'.mirrors, hwell'.addresses, hwell'.fresh, hwell'.root⟩,
        ⟨hselection.live, hselection.hidden⟩, fun _ => isSome_iff_exists.mpr ⟨_, hsel⟩⟩
    · exact ⟨u, rfl, hinv'⟩

theorem commitEdit_inv (h : Inv s) : ∃ t, s.commitEdit = some t ∧ Inv t := by
  unfold commitEdit
  split
  · rename_i heditor
    obtain ⟨address, hsel⟩ := isSome_iff_exists.mp (h.editing heditor)
    obtain ⟨place, n, hget, hn⟩ := getSelectedNode_spec h hsel
    obtain ⟨m, hm, -⟩ := h.modelNode hn
    have hplace : (s.model.nodeAt place).isSome = true := isSome_iff_exists.mpr ⟨m, hm⟩
    simp only [hget, h.placeOfModel hn, getInternalNode_lookup h.mirrors hplace,
      bind_eq_bind, bind_some]
    exact ⟨_, rfl, cancelEdit_inv h⟩
  · exact ⟨s, rfl, h⟩

end ChromiumUI.Views.TreeView
