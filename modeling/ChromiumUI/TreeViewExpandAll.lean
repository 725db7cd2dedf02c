import ChromiumUI.Outcomes
import ChromiumUI.TreeViewChanges
import ChromiumUI.Runs

/-!
# ExpandAll

What Expand and ExpandAll do to every node. ExpandAll is to call itself for the children and expands
them only, so it does what it is for where everything deeper is expanded already.
-/
namespace ChromiumUI.Views.TreeView

open Trees Trees.Rose Outcomes List

/-- There is an InternalNode at the place, and it is expanded. -/
def Expanded (t : Rose NodeFields) (place : Place) : Prop :=
  ∃ n, t.nodeAt place = some n ∧ n.label.isExpanded = true

theorem expanded_concat (t : Rose NodeFields) (r : Place) (i : Nat) :
    Expanded t (r ++ [i]) ↔ ∃ c, t.children[i]? = some c ∧ Expanded c r := by
  simp only [Expanded, nodeAt_concat, Option.bind_eq_some_iff]
  grind

/-- The nodes of `P` are expanded, the others are as they were. -/
def Expands (P : Place → Prop) (t t' : Rose NodeFields) : Prop :=
  ∀ q, Expanded t' q ↔ Expanded t q ∨ P q

theorem expands_update {t n : Rose NodeFields} {place : Place} {P : Place → Prop}
    {f : Rose NodeFields → Rose NodeFields} (hn : t.nodeAt place = some n)
    (hf : Expands P n (f n)) :
    Expands (fun q => ∃ r, q = r ++ place ∧ P r) t (t.update place f) := by
  induction place generalizing f n P with
  | nil =>
    cases hn
    simpa [Expands, update] using hf
  | cons i parent ih =>
    obtain ⟨m, hm, hchild⟩ := nodeAt_cons_some.mp hn
    have hm' : Expands (fun r => ∃ r', r = r' ++ [i] ∧ P r') m
        (node m.label (m.children.modify i f)) := by
      intro r
      induction r using reverseRecOn with
      | nil => simp [Expanded]
      | append_singleton r j =>
        rw [expanded_concat, expanded_concat, children_node, getElem?_modify]
        by_cases hij : i = j
        · subst hij
          simpa [hchild] using hf r
        · simp [hij, Ne.symm hij]
    intro q
    rw [update, ih hm hm' q]
    apply or_congr_right
    constructor
    · rintro ⟨_, rfl, r, rfl, hP⟩
      exact ⟨r, by simp, hP⟩
    · rintro ⟨r, rfl, hP⟩
      exact ⟨r ++ [i], by simp, r, rfl, hP⟩

theorem Expands.trans {P Q : Place → Prop} {t t' t'' : Rose NodeFields} (h : Expands P t t')
    (h' : Expands Q t' t'') : Expands (fun q => P q ∨ Q q) t t'' := fun q => by
  rw [h' q, h q, or_assoc]

theorem Expands.congr {P Q : Place → Prop} {t t' : Rose NodeFields} (h : Expands P t t')
    (hPQ : ∀ q, Expanded t q ∨ P q ↔ Expanded t q ∨ Q q) : Expands Q t t' :=
  fun q => (h q).trans (hPQ q)

/-- Nodes come and go, no flag changes. -/
abbrev Keeps : Rose NodeFields → Rose NodeFields → Prop := Expands fun _ => False

theorem Keeps.refl (t : Rose NodeFields) : Keeps t t := fun _ => (or_false _).symm.to_iff

theorem Keeps.trans {t t' t'' : Rose NodeFields} (h : Keeps t t') (h' : Keeps t' t'') :
    Keeps t t'' := (Expands.trans h h').congr fun _ => by simp

namespace State

variable {s t : State} {place : Place}

theorem setIsExpanded_expands (h : (s.root.nodeAt place).isSome = true) :
    Expands (· = place) s.root (s.setIsExpanded place true).root := by
  obtain ⟨n, hn⟩ := Option.isSome_iff_exists.mp h
  have hroot : Expands (· = []) n (node { n.label with isExpanded := true } n.children) := by
    intro r
    induction r using reverseRecOn with
    | nil => simp [Expanded]
    | append_singleton r j => simp [expanded_concat]
  refine (expands_update hn hroot).congr fun q => or_congr_right ?_
  constructor
  · rintro ⟨_, rfl, rfl⟩
    rfl
  · rintro rfl
    exact ⟨[], rfl, rfl⟩

theorem loadChildren_keeps : Ensures (s.loadChildren place) fun t => Keeps s.root t.root := by
  intro t ht
  simp only [loadChildren, Option.bind_eq_bind, Option.bind_eq_some_iff, Option.some.injEq] at ht
  obtain ⟨n, hn, modelPlace, -, m, -, rfl⟩ := ht
  refine (expands_update (P := fun _ => False) hn fun r => ?_).congr fun q => by simp
  rw [or_false]
  induction r using reverseRecOn with
  | nil => simp [Expanded]
  | append_singleton r j =>
    rw [expanded_concat, expanded_concat, children_node]
    by_cases hj : j < n.children.length
    · rw [getElem?_append_left hj]
    · rw [getElem?_append_right (Nat.le_of_not_lt hj),
        getElem?_eq_none (Nat.le_of_not_lt hj)]
      constructor
      · rintro ⟨c, hc, k, hk, hexp⟩
        rw [getElem?_mapIdx] at hc
        obtain ⟨m', -, rfl⟩ := Option.map_eq_some_iff.mp hc
        induction r using reverseRecOn with
        | nil =>
          cases hk
          cases hexp
        | append_singleton r j => simp [nodeAt_concat, reset] at hk
      · rintro ⟨c, hc, -⟩
        cases hc

theorem loadIfNeeded_keeps : Ensures (s.loadIfNeeded place) fun t => Keeps s.root t.root := by
  refine Ensures.of_any fun n => ?_
  split
  · exact .some (.refl _)
  · exact loadChildren_keeps

theorem getInternalNode_keeps (create : Bool) :
    Ensures (s.getInternalNodeForModelNode create place) fun x => Keeps s.root x.2.root := by
  induction place with
  | nil => exact .some (.refl _)
  | cons i parent ih =>
    refine ih.bind fun x hx => ?_
    obtain ⟨found, u⟩ := x
    cases found with
    | none => exact .some hx
    | some place' =>
      refine Ensures.of_any fun n => ?_
      split
      · exact .some hx
      · refine loadIfNeeded_keeps.bind fun v hv => Ensures.of_any fun _ => .some ?_
        exact Keeps.trans hx hv

/-- A node and its ancestors are expanded, and nothing else is. -/
theorem expand_expands (h : WellFormed s) (hplace : (s.model.nodeAt place).isSome = true) :
    ∃ t, s.expand place = some t ∧ WellFormed t ∧ Grows s t ∧
      Expands (· <:+ place) s.root t.root := by
  obtain ⟨t, ht, hwell, hgrows, -⟩ := expand_spec h hplace
  refine ⟨t, ht, hwell, hgrows, ?_⟩
  obtain ⟨⟨returned, t⟩, himpl, rfl⟩ := Option.map_eq_some_iff.mp ht
  clear ht hwell hgrows
  induction place generalizing returned t with
  | nil =>
    cases himpl
    refine (setIsExpanded_expands rfl).congr fun q => by simp
  | cons i parent ih =>
    obtain ⟨b, u, hu, hwell, hgrows, -⟩ := expandImpl_spec h (parent_isSome hplace)
    have hpar := ih (parent_isSome hplace) b u hu
    obtain ⟨v, hv, hwell', hgrows', hsome⟩ :=
      getInternalNode_create hwell (by rw [hgrows.model]; exact hplace)
    have hkeeps := hpar.trans (getInternalNode_keeps true _ hv)
    obtain ⟨n, hn⟩ := Option.isSome_iff_exists.mp hsome
    simp only [expandImpl, hu, hv, hn, Option.bind_eq_bind, Option.bind_some] at himpl
    cases hexp : n.label.isExpanded with
    | true =>
      rw [hexp, if_pos rfl] at himpl
      cases himpl
      intro q
      by_cases hq : q = i :: parent
      · subst hq
        exact ⟨fun _ => .inr (suffix_refl _), fun _ => ⟨n, hn, hexp⟩⟩
      · simp [hkeeps q, suffix_cons_iff, hq]
    | false =>
      rw [hexp, if_neg (by simp)] at himpl
      obtain ⟨w, hw, heq⟩ := Option.bind_eq_some_iff.mp himpl
      cases heq
      obtain ⟨w', hw', -, -, n', hn', -⟩ := loadIfNeeded_spec hwell' hn
      cases hw.symm.trans hw'
      refine ((hkeeps.trans (loadIfNeeded_keeps _ hw)).trans
        (setIsExpanded_expands (Option.isSome_iff_exists.mpr ⟨n', hn'⟩))).congr fun q => ?_
      simp only [suffix_cons_iff, or_false]
      exact or_congr_right or_comm

theorem expandAll_expands (h : WellFormed s) {m : Rose Nat} (hm : s.model.nodeAt place = some m) :
    ∃ t, s.expandAll place = some t ∧ WellFormed t ∧ Grows s t ∧
      Expands (fun q => q <:+ place ∨ ∃ i < m.children.length, q = i :: place) s.root t.root := by
  obtain ⟨t, ht, hwell, hgrows, hexpands⟩ := expand_expands h (Option.isSome_iff_exists.mpr ⟨m, hm⟩)
  have hloop (l : List Nat) (hl : ∀ i ∈ l, i < m.children.length) : ∀ t, WellFormed t →
      t.model = s.model → ∃ u, l.foldlM (fun s i => State.expand s (i :: place)) t = some u ∧
        WellFormed u ∧ Grows t u ∧
          Expands (fun q => ∃ i ∈ l, q <:+ i :: place) t.root u.root := by
    induction l with
    | nil => exact fun t hwell _ => ⟨t, rfl, hwell, .refl t, fun q => by simp⟩
    | cons i l ih =>
      intro t hwell hmodel
      have hchild : (t.model.nodeAt (i :: place)).isSome = true := by
        rw [hmodel, nodeAt_cons, hm, Option.bind_some, getElem?_eq_getElem (hl i (by simp))]
        rfl
      obtain ⟨u, hu, hwell', hgrows', hexpands'⟩ := expand_expands hwell hchild
      obtain ⟨v, hv, hwell'', hgrows'', hexpands''⟩ :=
        ih (fun j hj => hl j (mem_cons_of_mem _ hj)) u hwell' (hgrows'.model.trans hmodel)
      refine ⟨v, ?_, hwell'', hgrows'.trans hgrows'', (hexpands'.trans hexpands'').congr ?_⟩
      · rw [foldlM_cons, hu]
        exact hv
      · simp
  obtain ⟨u, hu, hwell', hgrows', hexpands'⟩ :=
    hloop (range m.children.length).reverse (by simp) t hwell hgrows.model
  refine ⟨u, ?_, hwell', hgrows.trans hgrows', (hexpands.trans hexpands').congr fun q => ?_⟩
  · simp only [State.expandAll, ht, Option.bind_eq_bind, Option.bind_some, hgrows.model, hm]
    exact hu
  · simp only [mem_reverse, mem_range, suffix_cons_iff]
    grind

/-- ExpandAll expands a node, its ancestors and all its descendants, and nothing else, exactly where
the descendants below its children are expanded already. -/
theorem expandAll_all (h : WellFormed s) {m : Rose Nat} (hm : s.model.nodeAt place = some m) :
    ∃ t, s.expandAll place = some t ∧
      ((∀ q, (s.model.nodeAt q).isSome = true →
          (Expanded t.root q ↔ Expanded s.root q ∨ q <:+ place ∨ place <:+ q)) ↔
        ∀ r i j, (s.model.nodeAt (r ++ j :: i :: place)).isSome = true →
          Expanded s.root (r ++ j :: i :: place)) := by
  obtain ⟨t, ht, -, -, hexpands⟩ := expandAll_expands h hm
  refine ⟨t, ht, fun hall r i j hmodel => ?_, fun hdeep q hmodel => ?_⟩
  · have hexpanded := (hall _ hmodel).mpr (.inr (.inr ⟨r ++ [j, i], by simp⟩))
    obtain hbefore | hsuffix | ⟨k, -, heq⟩ := (hexpands _).mp hexpanded
    · exact hbefore
    · have := hsuffix.length_le
      simp only [length_append, length_cons] at this
      omega
    · have := congrArg length heq
      simp only [length_append, length_cons] at this
      omega
  · rw [hexpands q]
    constructor
    · rintro (hbefore | hsuffix | ⟨i, -, rfl⟩)
      · exact .inl hbefore
      · exact .inr (.inl hsuffix)
      · exact .inr (.inr (suffix_cons i place))
    · rintro (hbefore | hsuffix | ⟨r, rfl⟩)
      · exact .inl hbefore
      · exact .inr (.inl hsuffix)
      · -- the node itself, a child, or deeper
        induction r using reverseRecOn with
        | nil => exact .inr (.inl (suffix_refl _))
        | append_singleton r i =>
          induction r using reverseRecOn with
          | nil =>
            refine .inr (.inr ⟨i, ?_, rfl⟩)
            simp only [nil_append, cons_append, nodeAt_cons, hm,
              Option.bind_some] at hmodel
            exact (List.getElem?_eq_some_iff.mp (Option.isSome_iff_exists.mp hmodel).choose_spec).1
          | append_singleton r j => exact .inl (by simpa using hdeep r i j (by simpa using hmodel))

def chain : Rose Nat := node 10 [node 11 [node 12 []]]

/-- From the child on there is nothing deeper. -/
theorem expandAll_all_child : ∃ s t, setModel chain true = some s ∧ s.expandAll [0] = some t ∧
    ((∀ q, (s.model.nodeAt q).isSome = true →
        (Expanded t.root q ↔ Expanded s.root q ∨ q <:+ [0] ∨ [0] <:+ q)) ↔
      ∀ r i j, (s.model.nodeAt (r ++ [j, i, 0])).isSome = true →
        Expanded s.root (r ++ [j, i, 0])) := by
  obtain ⟨s, hs, hinv⟩ := setModel_spec (show chain.labels.Nodup by decide) true
  have hs' := hs
  cases hs'
  obtain ⟨t, ht, hall⟩ := @expandAll_all _ [0] hinv.toWellFormed _ rfl
  exact ⟨_, t, hs, ht, hall⟩

/-- From the root on a grandchild is missed. -/
theorem expandAll_misses_grandchild : ∃ s t, setModel chain true = some s ∧
    WellFormed s ∧ s.expandAll [] = some t ∧ ¬ ∀ q, (s.model.nodeAt q).isSome = true →
      (Expanded t.root q ↔ Expanded s.root q ∨ q <:+ [] ∨ [] <:+ q) := by
  obtain ⟨s, hs, hinv⟩ := setModel_spec (show chain.labels.Nodup by decide) true
  have hs' := hs
  cases hs'
  refine ⟨_, _, hs, hinv.toWellFormed, rfl, fun hclaim => ?_⟩
  obtain ⟨n, hn, hexpanded⟩ := (hclaim [0, 0] rfl).mpr (.inr (.inr nil_suffix))
  cases hn
  cases hexpanded

end State

/-! ## A TreeView mirrors its model

Every operation keeps the view in step with the model, but one: TreeNodesRemoved for several nodes
uses a selected node that it has deleted itself. -/

open Runs Option State

variable {s t : State}

/-- The view and the model agree, and the selection can be seen. -/
structure Mirrored (s : State) : Prop where
  children : ∀ place n, s.root.nodeAt place = some n → n.label.loadedChildren = true →
    ∃ m, s.model.nodeAt place = some m ∧ m.label = n.label.modelNode ∧
      n.children.map (fun child => child.label.modelNode) = m.children.map Rose.label
  expanded : ∀ place n, s.root.nodeAt place = some n → n.label.isExpanded = true →
    n.label.loadedChildren = true
  selected : ∀ address, s.selectedNode = some address →
    ∃ place n, s.root.nodeAt place = some n ∧ n.label.address = address ∧
      ∀ ancestor, ancestor <:+ place → ancestor ≠ place →
        ∃ m, s.root.nodeAt ancestor = some m ∧ m.label.isExpanded = true
  root : s.rootShown = false → s.selectedNode ≠ some s.root.label.address

theorem Exposed.ancestors {r : Rose NodeFields} {place : Place} (h : Exposed r place) :
    ∀ ancestor, ancestor <:+ place → ancestor ≠ place →
      ∃ m, r.nodeAt ancestor = some m ∧ m.label.isExpanded = true := by
  induction place with
  | nil => exact fun ancestor hsuf hne => absurd (suffix_nil.mp hsuf) hne
  | cons i parent ih =>
    intro ancestor hsuf hne
    rcases suffix_cons_iff.mp hsuf with rfl | hsuf
    · exact absurd rfl hne
    · by_cases hpar : ancestor = parent
      · exact hpar ▸ h.2
      · exact ih h.1 ancestor hsuf hpar

theorem Inv.mirrored (h : Inv s) : Mirrored s := by
  refine ⟨fun place n hn hloaded => ?_, fun place n hn => ?_, fun address hsel => ?_, h.hidden⟩
  · obtain ⟨m, hm, hagrees⟩ := h.modelNode hn
    refine ⟨m, hm, hagrees.modelNode.symm, ?_⟩
    refine ext_getElem (by simp [hagrees.loaded hloaded]) fun i hi hi' => ?_
    rw [length_map] at hi hi'
    obtain ⟨d, hd, hmir⟩ := (mirrors_iff.mp (h.mirrors.sub hn hm)).2 i _
      (getElem?_eq_getElem hi)
    rw [getElem?_eq_getElem hi'] at hd
    cases hd
    rw [getElem_map, getElem_map]
    exact (mirrors_iff.mp hmir).1.modelNode
  · obtain ⟨m, hm, hagrees⟩ := h.modelNode hn
    exact hagrees.expanded
  · obtain ⟨place, n, hn, haddr, hexp⟩ := h.live address hsel
    exact ⟨place, n, hn, haddr, hexp.ancestors⟩

/-! ## Steps -/

theorem Inv.step_some (h : Inv s) {a : Action} (hlegal : s.Legal a) (hclear : Clear s a) :
    ∃ t, s.step a = some t ∧ Inv t := by
  cases a with
  | add parent start nodes =>
    obtain ⟨⟨m, hm, hstart⟩, hnew⟩ := hlegal
    exact add_inv h hm hstart hnew
  | remove parent start count =>
    obtain ⟨m, hm, hcount⟩ := hlegal
    exact (remove_spec h hm hcount).1 hclear
  | expand place =>
    obtain ⟨t, ht, hwell, hgrows, -⟩ := expand_spec h.toWellFormed hlegal
    exact ⟨t, ht, h.grows hwell hgrows⟩
  | expandAll place =>
    obtain ⟨m, hm⟩ := Option.isSome_iff_exists.mp hlegal
    obtain ⟨t, ht, hwell, hgrows, -⟩ := expandAll_expands h.toWellFormed hm
    exact ⟨t, ht, h.grows hwell hgrows⟩
  | collapse place => exact collapse_inv h hlegal
  | setSelectedNode target =>
    refine setSelectedNode_inv h fun place hplace => ?_
    subst hplace
    exact hlegal
  | setRootShown rootShown => exact setRootShown_inv h rootShown
  | incrementSelection next => exact incrementSelection_inv h next
  | collapseOrSelectParent => exact collapseOrSelectParent_inv h
  | expandOrSelectChild => exact expandOrSelectChild_inv h
  | startEditing place => exact startEditing_inv h hlegal
  | commitEdit => exact commitEdit_inv h
  | cancelEdit => exact ⟨_, rfl, cancelEdit_inv h⟩

theorem Inv.step_none (h : Inv s) {a : Action} (hlegal : s.Legal a) (hclear : ¬ Clear s a) :
    s.step a = none := by
  cases a with
  | remove parent start count =>
    obtain ⟨m, hm, hcount⟩ := hlegal
    exact (remove_spec h hm hcount).2 hclear
  | _ => exact absurd trivial hclear

/-- A run uses no deleted node exactly if the selection is clear of every removal of several nodes,
and what it comes to mirrors the model. -/
theorem mirrors_model (model : Rose Nat) (rootShown : Bool) (hmodel : model.labels.Nodup) :
    ∃ s, setModel model rootShown = some s ∧ ∀ as, EachStep State.step State.Legal as s →
      ((∃ t, run State.step as s = some t) ↔ EachStep State.step Clear as s) ∧
      ∀ t, run State.step as s = some t → Mirrored t := by
  obtain ⟨s, hs, hinv⟩ := setModel_spec hmodel rootShown
  refine ⟨s, hs, fun as hlegal => ⟨?_, fun t ht => ?_⟩⟩
  · exact run_some_iff_each (P := Inv) (fun s a h hlegal => h.step_some hlegal)
      (fun s a h hlegal => h.step_none hlegal) hinv hlegal
  · refine (run_invariant_of_each (P := Inv) (fun s a t h hlegal hstep => ?_) ht hlegal
      hinv).mirrored
    by_cases hclear : Clear s a
    · obtain ⟨t', ht', h'⟩ := h.step_some hlegal hclear
      cases hstep.symm.trans ht'
      exact h'
    · rw [h.step_none hlegal hclear] at hstep
      cases hstep

def twoChildren : Rose Nat := node 10 [node 11 [], node 12 []]

theorem mirrors_model_remove : ∃ s t, setModel twoChildren false = some s ∧
    run State.step [.setSelectedNode (some [1]), .remove [] 0 2] s = some t ∧ Mirrored t := by
  obtain ⟨s, hs, hruns⟩ := mirrors_model twoChildren false (by decide)
  have hs' := hs
  cases hs'
  refine ⟨_, _, hs, rfl, (hruns [.setSelectedNode (some [1]), .remove [] 0 2] ?_).2 _ rfl⟩
  refine ⟨rfl, fun t ht => ⟨?_, fun _ _ => trivial⟩⟩
  cases ht
  exact ⟨_, rfl, le_rfl⟩

/-- The first of two nodes that are removed is selected. -/
theorem selection_deleted : ¬ ∀ (model : Rose Nat) (rootShown : Bool) (s : State)
    (as : List Action),
    model.labels.Nodup → setModel model rootShown = some s →
      EachStep State.step State.Legal as s → ∃ t, run State.step as s = some t ∧ Mirrored t := by
  intro hclaim
  obtain ⟨s, hs⟩ : ∃ s, setModel twoChildren false = some s := ⟨_, rfl⟩
  cases hs
  obtain ⟨t, ht, -⟩ := hclaim twoChildren false _ [.setSelectedNode (some [0]), .remove [] 0 2]
    (by decide) rfl ⟨rfl, fun t ht => ⟨by cases ht; exact ⟨_, rfl, le_rfl⟩,
      fun _ _ => trivial⟩⟩
  cases ht

end ChromiumUI.Views.TreeView
