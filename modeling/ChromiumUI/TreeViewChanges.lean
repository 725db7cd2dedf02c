import ChromiumUI.TreeViewSelection
import ChromiumUI.Slots

/-!
# A TreeView follows the changes of its model

TreeNodesAdded and TreeNodesRemoved, for a view that was in step with the model before it changed.
-/
namespace ChromiumUI.Views.TreeView

open Trees Trees.Rose List Option State

variable {s t u : State} {parent : Place} {start count : Nat} {nodes : List (Rose Nat)}

variable {n : Rose NodeFields} {m : Rose Nat}

/-- Loaded children mirror the model's, one by one. -/
theorem Mirrors.children (h : Mirrors n m) (hloaded : n.label.loadedChildren = true) :
    List.Forall₂ Mirrors n.children m.children := by
  obtain ⟨hagrees, hchild⟩ := mirrors_iff.mp h
  refine forall₂_iff_get.mpr ⟨hagrees.loaded hloaded, fun i hi hi' => ?_⟩
  obtain ⟨d, hd, hmir⟩ := hchild i _ (getElem?_eq_getElem hi)
  rw [getElem?_eq_getElem hi'] at hd
  cases hd
  exact hmir

theorem mirrors_of_children {a : NodeFields} {cs : List (Rose NodeFields)}
    (hmodel : a.modelNode = m.label) (hloaded : a.loadedChildren = true)
    (h : List.Forall₂ Mirrors cs m.children) : Mirrors (node a cs) m := by
  obtain ⟨hlen, hchild⟩ := forall₂_iff_get.mp h
  refine mirrors_iff.mpr ⟨⟨hmodel, fun _ => hlen, fun hunload => ?_, fun _ => hloaded⟩,
    fun i c hc => ?_⟩
  · rw [label_node, hloaded] at hunload
    cases hunload
  · obtain ⟨hi, rfl⟩ := List.getElem?_eq_some_iff.mp hc
    exact ⟨_, getElem?_eq_getElem (hlen ▸ hi), hchild i hi (hlen ▸ hi)⟩

theorem forall₂_internals (address : Nat) (modelNodes : List (Rose Nat)) :
    List.Forall₂ Mirrors (internals address modelNodes) modelNodes := by
  refine forall₂_iff_get.mpr ⟨length_mapIdx, fun i hi hi' => ?_⟩
  obtain ⟨m, hm, hmir⟩ := internals_getElem? (getElem?_eq_getElem hi)
  rw [getElem?_eq_getElem hi'] at hm
  cases hm
  exact hmir

/-! ## TreeNodesAdded -/

/-- The children of a node after an insertion. -/
def inserted {α : Type} (start : Nat) (new : List (Rose α)) (n : Rose α) : Rose α :=
  node n.label (n.children.take start ++ new ++ n.children.drop start)

theorem labels_inserted {α : Type} (start : Nat) (new : List (Rose α)) (n : Rose α) :
    (inserted start new n).labels.Perm (labelsIn new ++ n.labels) := by
  rw [inserted, labels, labels_eq n]
  have hsplit : labelsIn n.children =
      labelsIn (n.children.take start) ++ labelsIn (n.children.drop start) := by
    rw [← labelsIn_append, take_append_drop]
  rw [hsplit, labelsIn_append, labelsIn_append, append_assoc, ← cons_append,
    ← cons_append]
  exact perm_append_comm_assoc _ _ _

theorem internals_concat (address : Nat) (l : List (Rose Nat)) (m : Rose Nat) :
    internals address (l ++ [m]) =
      internals address l ++ [reset (address + l.length) m.label] := by
  simp [internals, mapIdx_append]

variable {k : Nat}

/-- One round of the loop puts the next node behind those that are there. -/
theorem addChild_step {c : Rose Nat} (hn : s.root.nodeAt parent = some n)
    (hm : s.model.nodeAt parent = some m) (hc : nodes[k]? = some c)
    (hstart : start ≤ n.children.length) (hchild : m.children[start + k]? = some c) :
    addChild parent start { s with
      root := s.root.update parent (inserted start (internals s.nextAddress (nodes.take k)))
      nextAddress := s.nextAddress + k } k =
    some { s with
      root := s.root.update parent (inserted start (internals s.nextAddress (nodes.take (k + 1))))
      nextAddress := s.nextAddress + (k + 1) } := by
  have hk : k < nodes.length := (List.getElem?_eq_some_iff.mp hc).1
  have hfront : (n.children.take start ++ internals s.nextAddress (nodes.take k)).length =
      start + k := by
    rw [length_append, length_take, internals, length_mapIdx, length_take]
    omega
  have htake : nodes.take (k + 1) = nodes.take k ++ [c] := by
    rw [take_add_one, hc]
    rfl
  have hlen : (nodes.take k).length = k := by
    rw [length_take]
    omega
  simp only [addChild, hm, hchild, nodeAt_update, hn, map_some, bind_eq_bind,
    bind_some]
  rw [if_pos (by rw [inserted, children_node, length_append, hfront]; omega), update_update]
  congr 2
  refine update_congr fun n' hn' => ?_
  cases hn.symm.trans hn'
  rw [inserted, label_node, children_node, ← hfront, Slots.insertIdx_append, inserted, htake,
    internals_concat, hlen, append_assoc, append_assoc, append_assoc]
  rfl

theorem addChild_loop {n : Rose NodeFields} {m : Rose Nat}
    (hn : s.root.nodeAt parent = some n) (hm : s.model.nodeAt parent = some (inserted start nodes m))
    (hlen : n.children.length = m.children.length) (hstart : start ≤ m.children.length)
    {k : Nat} (hk : k ≤ nodes.length) :
    (range k).foldlM (fun s i => s.addChild parent start i) s =
      some { s with
        root := s.root.update parent (inserted start (internals s.nextAddress (nodes.take k)))
        nextAddress := s.nextAddress + k } := by
  induction k with
  | zero =>
    have hsame : s.root.update parent (inserted start (internals s.nextAddress (nodes.take 0))) =
        s.root := by
      refine (update_congr fun n _ => ?_).trans (s.root.update_id parent)
      obtain ⟨a, cs⟩ := n
      show node a (cs.take start ++ [] ++ cs.drop start) = node a cs
      rw [append_nil, take_append_drop]
    rw [hsame]
    rfl
  | succ k ih =>
    have hc : nodes[k]? = some nodes[k] := getElem?_eq_getElem hk
    have hchild : (inserted start nodes m).children[start + k]? = some nodes[k] := by
      rw [inserted, children_node, append_assoc,
        getElem?_append_right (by rw [length_take]; omega), length_take,
        Nat.min_eq_left hstart, Nat.add_sub_cancel_left,
        getElem?_append_left hk, hc]
    rw [range_succ, foldlM_append, ih (Nat.le_of_succ_le hk)]
    show (addChild parent start _ k).bind _ = _
    rw [addChild_step hn hm hc (hlen ▸ hstart) hchild]
    rfl

theorem add_inv (h : Inv s) (hm : s.model.nodeAt parent = some m)
    (hstart : start ≤ m.children.length) (hnew : (labelsIn nodes ++ s.model.labels).Nodup) :
    ∃ t, s.step (.add parent start nodes) = some t ∧ Inv t := by
  have hmodel : (s.model.update parent (inserted start nodes)).labels.Nodup := by
    have hperm := @keys_update _ _ s.model m parent (inserted start nodes) id (labelsIn nodes) hm
      (by simpa only [List.map_id] using labels_inserted start nodes m)
    rw [List.map_id, List.map_id] at hperm
    exact hperm.nodup_iff.mpr hnew
  have hsome : (s.model.nodeAt parent).isSome = true := isSome_iff_exists.mpr ⟨m, hm⟩
  have hlookup := @getInternalNode_lookup
    { s with model := s.model.update parent (inserted start nodes) } parent s.model h.mirrors hsome
  have hunload (hnone : ∀ n, s.root.nodeAt parent = some n → n.label.loadedChildren = false) :
      Inv { s with model := s.model.update parent (inserted start nodes) } :=
    { h with
      model := hmodel
      mirrors := h.mirrors.update_model (fun _ => rfl) hnone }
  show ∃ t, treeNodesAdded { s with model := s.model.update parent (inserted start nodes) }
    parent start nodes.length = some t ∧ Inv t
  simp only [treeNodesAdded, hlookup, bind_eq_bind, bind_some]
  rcases eq_none_or_eq_some (s.root.nodeAt parent) with hn | ⟨n, hn⟩
  · simp only [hn, isSome_none, Bool.false_eq_true, if_false]
    exact ⟨_, rfl, hunload fun n hn' => by rw [hn] at hn'; cases hn'⟩
  simp only [hn, isSome_some, if_true, bind_some]
  cases hloaded : n.label.loadedChildren with
  | false =>
    refine ⟨_, rfl, hunload fun n' hn' => ?_⟩
    cases hn.symm.trans hn'
    exact hloaded
  | true =>
    have hnode : Mirrors n m := h.mirrors.sub hn hm
    have hlen := (mirrors_iff.mp hnode).1.loaded hloaded
    have hloop := @addChild_loop { s with model := s.model.update parent (inserted start nodes) }
      parent start nodes n m hn (by rw [nodeAt_update, hm]; rfl) hlen hstart nodes.length le_rfl
    rw [take_length] at hloop
    refine ⟨_, hloop, ?_⟩
    have hkeys : ((inserted start (internals s.nextAddress nodes) n).labels.map
        NodeFields.address).Perm
        (range' s.nextAddress nodes.length ++ n.labels.map NodeFields.address) := by
      rw [← keys_internals, ← map_append]
      exact (labels_inserted start _ n).map _
    obtain ⟨haddresses, hfresh⟩ := addresses_fresh h.addresses h.fresh (keys_update hn hkeys)
    refine ⟨⟨hmodel, ?_, haddresses, hfresh, ?_⟩, ⟨?_, ?_⟩, h.editing⟩
    · refine h.mirrors.update fun n' m' hn' hm' hmir => ?_
      cases hn.symm.trans hn'
      have hchild := hmir.children hloaded
      exact mirrors_of_children (mirrors_iff.mp hmir).1.modelNode hloaded
        (rel_append (rel_append (forall₂_take start hchild)
          (forall₂_internals s.nextAddress nodes)) (forall₂_drop start hchild))
    · exact label_update (P := fun fields : NodeFields => fields.loadedChildren = true) h.root
        fun _ hn => hn
    · intro address hsel
      refine (h.live address hsel).update fun n _ hshown => ?_
      rcases shown_iff.mp hshown with haddr | ⟨hexp, c, hc, hshown⟩
      · exact shown_iff.mpr (Or.inl haddr)
      · refine shown_iff.mpr (Or.inr ⟨hexp, c, ?_, hshown⟩)
        rw [← take_append_drop start n.children] at hc
        rcases mem_append.mp hc with hc | hc
        · exact mem_append_left _ (mem_append_left _ hc)
        · exact mem_append_right _ hc
    · have hroot : (s.root.update parent
          (inserted start (internals s.nextAddress nodes))).label.address = s.root.label.address :=
        label_update (P := fun fields : NodeFields => fields.address = s.root.label.address) rfl
          fun _ hn => hn
      intro hshown
      rw [hroot]
      exact h.hidden hshown

/-! ## TreeNodesRemoved -/

/-- The children of a node after a removal. -/
def removed {α : Type} (start count : Nat) (n : Rose α) : Rose α :=
  node n.label (n.children.take start ++ n.children.drop (start + count))

/-- Those that the removal takes. -/
def taken {α : Type} (start count : Nat) (n : Rose α) : List (Rose α) :=
  (n.children.drop start).take count

theorem children_taken {α : Type} (start count : Nat) (n : Rose α) :
    n.children = n.children.take start ++ taken start count n ++
      n.children.drop (start + count) := by
  rw [taken, append_assoc, ← drop_drop, take_append_drop, take_append_drop]

def addresses (t : Rose NodeFields) : List Nat := t.labels.map NodeFields.address

def addressesIn (l : List (Rose NodeFields)) : List Nat := (labelsIn l).map NodeFields.address

theorem addresses_removed {t n : Rose NodeFields} (hn : t.nodeAt parent = some n) :
    (addresses t).Perm (addressesIn (taken start count n) ++
      addresses (t.update parent (removed start count))) :=
  keys_removed hn (children_taken start count n) rfl

theorem mem_addresses_iff {t : Rose NodeFields} {address : Nat} :
    address ∈ addresses t ↔ ∃ place n, t.nodeAt place = some n ∧ n.label.address = address := by
  constructor
  · intro h
    obtain ⟨fields, hfields, haddr⟩ := mem_map.mp h
    obtain ⟨place, n, hn, rfl⟩ := nodeAt_of_mem_labels hfields
    exact ⟨place, n, hn, haddr⟩
  · rintro ⟨place, n, hn, rfl⟩
    exact mem_map_of_mem (mem_labels_of_nodeAt hn (label_mem_labels n))

variable {c : Rose NodeFields}

/-- HasAncestor is to be somewhere in the tree under the ancestor. -/
theorem hasAncestor_iff {t : Rose NodeFields} {place selected : Place}
    (hnodup : (addresses t).Nodup) (hc : t.nodeAt place = some c)
    (hn : t.nodeAt selected = some n) : place <:+ selected ↔ n.label.address ∈ addresses c := by
  rw [mem_addresses_iff]
  constructor
  · rintro ⟨r, rfl⟩
    rw [nodeAt_append, hc] at hn
    exact ⟨r, n, hn, rfl⟩
  · rintro ⟨r, l, hl, haddr⟩
    have hat : t.nodeAt (r ++ place) = some l := by
      rw [nodeAt_append, hc]
      exact hl
    exact ⟨r, place_unique hnodup hat hn haddr⟩

theorem taken_concat (hc : n.children[start + k]? = some c) :
    taken start (k + 1) n = taken start k n ++ [c] := by
  rw [taken, take_add_one, getElem?_drop, hc]
  rfl

theorem removed_step (hstart : start + k < n.children.length) :
    removed start (k + 1) n =
      node n.label ((removed start k n).children.eraseIdx start) := by
  have hlen : (n.children.take start).length = start := by
    rw [length_take]
    omega
  rw [removed, removed, children_node, eraseIdx_append_of_length_le (by rw [hlen]), hlen,
    Nat.sub_self, drop_eq_getElem_cons hstart]
  rfl

/-- The view after `k` rounds of the loop. -/
def afterRemoving (s : State) (parent : Place) (start k : Nat) : State :=
  { s with root := s.root.update parent (removed start k) }

theorem child_afterRemoving (hn : s.root.nodeAt parent = some n)
    (hc : n.children[start + k]? = some c) :
    (afterRemoving s parent start k).root.nodeAt (start :: parent) = some c := by
  have hlt : start + k < n.children.length := (List.getElem?_eq_some_iff.mp hc).1
  rw [nodeAt_cons, afterRemoving, nodeAt_update, hn, map_some, bind_some, removed,
    children_node, getElem?_append_right (by rw [length_take]; omega), length_take,
    getElem?_drop, ← hc]
  congr 1
  omega

/-- A round of the loop while the selection is live: whether it is below the child removed. -/
theorem removeChild_live (resetSelection : Bool) (hnodup : (addresses s.root).Nodup)
    (hn : s.root.nodeAt parent = some n) (hc : n.children[start + k]? = some c)
    (hlive : ∀ address, s.selectedNode = some address →
      address ∈ addresses (afterRemoving s parent start k).root) :
    removeChild parent start (afterRemoving s parent start k, resetSelection) =
      some (afterRemoving s parent start (k + 1), resetSelection ||
        decide (∃ address ∈ s.selectedNode, address ∈ addresses c)) := by
  have hchild := child_afterRemoving hn hc
  have hnodup' : (addresses (afterRemoving s parent start k).root).Nodup :=
    ((addresses_removed hn).nodup_iff.mp hnodup).of_append_right
  have hbelow : (afterRemoving s parent start k).selectedHasAncestor (start :: parent) =
      some (decide (∃ address ∈ s.selectedNode, address ∈ addresses c)) := by
    unfold selectedHasAncestor
    rcases eq_none_or_eq_some s.selectedNode with hsel | ⟨address, hsel⟩
    · simp [afterRemoving, hsel]
    · obtain ⟨place, l, hl, rfl⟩ := mem_addresses_iff.mp (hlive address hsel)
      have hplace : (afterRemoving s parent start k).placeOfInternal l.label.address =
          some place := placeOf_key hnodup' hl
      rw [show (afterRemoving s parent start k).selectedNode = some l.label.address from hsel]
      simp only [hplace, map_some, hsel, mem_some_iff, exists_eq_left']
      congr 1
      rw [Bool.eq_iff_iff, isSuffixOf_iff_suffix, decide_eq_true_iff]
      exact hasAncestor_iff hnodup' hchild hl
  have hnext : afterRemoving s parent start (k + 1) = { s with
      root := (s.root.update parent (removed start k)).update parent
        fun n => node n.label (n.children.eraseIdx start) } := by
    rw [afterRemoving, update_update]
    congr 1
    refine update_congr fun n' hn' => ?_
    cases hn.symm.trans hn'
    exact removed_step (List.getElem?_eq_some_iff.mp hc).1
  simp only [removeChild, hchild, hbelow, bind_eq_bind, bind_some]
  rw [hnext]
  rfl

/-- selected_node_ is under one of the first `k` nodes to be removed. -/
def Under (s : State) (start k : Nat) (n : Rose NodeFields) : Prop :=
  ∃ address ∈ s.selectedNode, address ∈ addressesIn (taken start k n)

instance (s : State) (start k : Nat) (n : Rose NodeFields) : Decidable (Under s start k n) := by
  unfold Under
  infer_instance

theorem under_succ (hc : n.children[start + k]? = some c) :
    Under s start (k + 1) n ↔ Under s start k n ∨
      ∃ address ∈ s.selectedNode, address ∈ addresses c := by
  have hmem (address : Nat) : address ∈ addressesIn (taken start (k + 1) n) ↔
      address ∈ addressesIn (taken start k n) ∨ address ∈ addresses c := by
    rw [taken_concat hc, addressesIn, labelsIn_append, map_append, mem_append]
    simp [addressesIn, addresses, labelsIn]
  unfold Under
  simp only [hmem]
  constructor
  · rintro ⟨address, hsel, h | h⟩
    · exact .inl ⟨address, hsel, h⟩
    · exact .inr ⟨address, hsel, h⟩
  · rintro (⟨address, hsel, h⟩ | ⟨address, hsel, h⟩)
    · exact ⟨address, hsel, .inl h⟩
    · exact ⟨address, hsel, .inr h⟩

/-- While the selection is under none of the nodes removed, it is live. -/
theorem live_afterRemoving (hn : s.root.nodeAt parent = some n) (hlive : Live s)
    (hunder : ¬ Under s start k n) :
    ∀ address, s.selectedNode = some address →
      address ∈ addresses (afterRemoving s parent start k).root := by
  intro address hsel
  obtain ⟨place, l, hl, haddr, -⟩ := hlive address hsel
  have hmem := mem_addresses_iff.mpr ⟨place, l, hl, haddr⟩
  rcases mem_append.mp ((addresses_removed hn).mem_iff.mp hmem) with h | h
  · exact absurd ⟨address, hsel, h⟩ hunder
  · exact h

/-- The loop as long as it does not use a deleted selection. -/
theorem removeChild_loop {n : Rose NodeFields} (hnodup : (addresses s.root).Nodup)
    (hn : s.root.nodeAt parent = some n) (hlive : Live s) {k : Nat}
    (hk : start + k ≤ n.children.length) (hunder : ¬ Under s start (k - 1) n) :
    (range k).foldlM (fun x _ => removeChild parent start x) (s, false) =
      some (afterRemoving s parent start k, decide (Under s start k n)) := by
  induction k with
  | zero =>
    have hsame : s.root.update parent (removed start 0) = s.root := by
      refine (update_congr fun n _ => ?_).trans (s.root.update_id parent)
      obtain ⟨a, cs⟩ := n
      show node a (cs.take start ++ cs.drop start) = node a cs
      rw [take_append_drop]
    have hnone : ¬ Under s start 0 n := by
      rintro ⟨address, -, h⟩
      simp [taken, addressesIn, labelsIn] at h
    rw [afterRemoving, hsame, decide_eq_false hnone]
    rfl
  | succ k ih =>
    rw [Nat.add_sub_cancel] at hunder
    have hlt : start + k < n.children.length := hk
    have hc := getElem?_eq_getElem hlt
    have hpre : ¬ Under s start (k - 1) n := by
      cases k with
      | zero => exact hunder
      | succ k =>
        have hc' : n.children[start + k]? = some n.children[start + k] :=
          getElem?_eq_getElem (by omega)
        exact fun h => hunder ((under_succ hc').mpr (Or.inl h))
    rw [range_succ, foldlM_append, ih (by omega) hpre]
    show (removeChild parent start _).bind _ = _
    rw [removeChild_live _ hnodup hn hc (live_afterRemoving hn hlive hunder),
      decide_eq_false hunder, Bool.false_or, bind_some]
    have hdecide : decide (∃ address ∈ s.selectedNode, address ∈ addresses n.children[start + k]) =
        decide (Under s start (k + 1) n) := by
      rw [decide_eq_decide, under_succ hc, or_iff_right hunder]
    rw [hdecide]
    rfl

/-- A deleted selection is used by the next round. -/
theorem removeChild_deleted (resetSelection : Bool) (hnodup : (addresses s.root).Nodup)
    (hn : s.root.nodeAt parent = some n) (hunder : Under s start k n) :
    removeChild parent start (afterRemoving s parent start k, resetSelection) = none := by
  obtain ⟨address, hsel, hmem⟩ := hunder
  have hdisj := nodup_append.mp ((@addresses_removed parent start k _ _ hn).nodup_iff.mp hnodup)
  have hnone : (afterRemoving s parent start k).placeOfInternal address = none := by
    cases hfound : (afterRemoving s parent start k).placeOfInternal address with
    | none => rfl
    | some place =>
      obtain ⟨l, hl, haddr⟩ := placeOf_some hfound
      exact absurd rfl (hdisj.2.2 address hmem address
        (mem_addresses_iff.mpr ⟨place, l, hl, beq_iff_eq.mp haddr⟩))
  have hancestor : (afterRemoving s parent start k).selectedHasAncestor (start :: parent) = none := by
    unfold selectedHasAncestor
    rw [show (afterRemoving s parent start k).selectedNode = some address from hsel]
    simp only [hnone, map_none]
  simp only [removeChild, hancestor, bind_eq_bind, bind_none,
    bind_fun_none]

/-- The loop fails where the selection is under a node removed that is not the last. -/
theorem removeChild_loop_none {n : Rose NodeFields} (hnodup : (addresses s.root).Nodup)
    (hn : s.root.nodeAt parent = some n) (hlive : Live s) {k : Nat}
    (hk : start + k ≤ n.children.length) (hunder : Under s start (k - 1) n) :
    (range k).foldlM (fun x _ => removeChild parent start x) (s, false) = none := by
  induction k with
  | zero =>
    obtain ⟨address, -, h⟩ := hunder
    simp [taken, addressesIn, labelsIn] at h
  | succ k ih =>
    rw [Nat.add_sub_cancel] at hunder
    rw [range_succ, foldlM_append]
    by_cases hpre : Under s start (k - 1) n
    · rw [ih (by omega) hpre]
      rfl
    · rw [removeChild_loop hnodup hn hlive (by omega) hpre]
      show (removeChild parent start _).bind _ = _
      rw [removeChild_deleted _ hnodup hn hunder]
      rfl

/-- selected_node_ is not under a node that is removed before another one. -/
def Clear (s : State) : Action → Prop
  | .remove parent start count => ∀ address ∈ s.selectedNode, ∀ place ∈ s.placeOfInternal address,
      ∀ j < count - 1, ¬ ((start + j) :: parent) <:+ place
  | _ => True

theorem under_iff : Under s start k n ↔
    ∃ address ∈ s.selectedNode, ∃ j < k, ∃ c, n.children[start + j]? = some c ∧
      address ∈ addresses c := by
  have hmem (c : Rose NodeFields) : c ∈ taken start k n ↔
      ∃ j < k, n.children[start + j]? = some c := by
    rw [taken, mem_iff_getElem?]
    constructor
    · rintro ⟨j, hj⟩
      rw [getElem?_take] at hj
      split at hj
      · rename_i hlt
        exact ⟨j, hlt, by rwa [getElem?_drop] at hj⟩
      · cases hj
    · rintro ⟨j, hlt, hj⟩
      exact ⟨j, by rw [getElem?_take_of_lt hlt, getElem?_drop, hj]⟩
  have haddresses (address : Nat) : address ∈ addressesIn (taken start k n) ↔
      ∃ c ∈ taken start k n, address ∈ addresses c := by
    simp only [addressesIn, addresses, List.mem_map, mem_labelsIn_iff]
    constructor
    · rintro ⟨fields, ⟨c, hc, hfields⟩, haddr⟩
      exact ⟨c, hc, fields, hfields, haddr⟩
    · rintro ⟨c, hc, fields, hfields, haddr⟩
      exact ⟨fields, ⟨c, hc, hfields⟩, haddr⟩
  unfold Under
  simp only [haddresses, hmem]
  constructor
  · rintro ⟨address, hsel, c, ⟨j, hj, hc⟩, h⟩
    exact ⟨address, hsel, j, hj, c, hc, h⟩
  · rintro ⟨address, hsel, j, hj, c, hc, h⟩
    exact ⟨address, hsel, c, ⟨j, hj, hc⟩, h⟩

theorem clear_iff (h : Inv s) (hn : s.root.nodeAt parent = some n) :
    Clear s (.remove parent start count) ↔ ¬ Under s start (count - 1) n := by
  rw [under_iff]
  constructor
  · rintro hclear ⟨address, hsel, j, hj, c, hc, hmem⟩
    obtain ⟨place, l, hfound, hl, rfl, -⟩ := h.live.found h.toWellFormed hsel
    have hat : s.root.nodeAt ((start + j) :: parent) = some c := nodeAt_cons_some.mpr ⟨n, hn, hc⟩
    exact hclear _ hsel place hfound j hj ((hasAncestor_iff h.addresses hat hl).mpr hmem)
  · intro hunder address hsel place hfound j hj hsuf
    obtain ⟨place', l, hfound', hl, rfl, -⟩ := h.live.found h.toWellFormed hsel
    cases hfound'.symm.trans hfound
    obtain ⟨r, rfl⟩ := hsuf
    have hcut := hl
    rw [nodeAt_append] at hcut
    obtain ⟨c, hat, -⟩ := bind_eq_some_iff.mp hcut
    obtain ⟨n', hn', hc⟩ := nodeAt_cons_some.mp hat
    cases hn.symm.trans hn'
    exact hunder ⟨_, hsel, j, hj, c, hc,
      (hasAncestor_iff h.addresses hat hl).mp ⟨r, rfl⟩⟩

/-- Where no InternalNode can be removed nothing selected is. -/
theorem clear_of_unloaded (h : Inv s)
    (hunload : ∀ n, s.root.nodeAt parent = some n → n.label.loadedChildren = false) :
    Clear s (.remove parent start count) := by
  intro address hsel place hfound j hj hsuf
  obtain ⟨place', l, hfound', hl, rfl, -⟩ := h.live.found h.toWellFormed hsel
  cases hfound'.symm.trans hfound
  obtain ⟨r, rfl⟩ := hsuf
  rw [nodeAt_append] at hl
  obtain ⟨c, hat, -⟩ := bind_eq_some_iff.mp hl
  obtain ⟨n, hn, hc⟩ := nodeAt_cons_some.mp hat
  obtain ⟨m, -, hagrees⟩ := h.modelNode hn
  rw [hagrees.unloaded (hunload n hn)] at hc
  cases hc

theorem labels_removed {α : Type} (start count : Nat) (n : Rose α) :
    (removed start count n).labels.Sublist n.labels := by
  rw [labels_eq n, children_taken start count n, removed, labels, labelsIn_append,
    labelsIn_append, labelsIn_append, append_assoc]
  exact ((sublist_append_right _ _).append_left _).cons_cons _

/-- The view after TreeNodesRemoved, but for the selection. -/
theorem wellFormed_afterRemoving (h : Inv s) (hn : s.root.nodeAt parent = some n)
    (hloaded : n.label.loadedChildren = true)
    (hmodel : (s.model.update parent (removed start count)).labels.Nodup) :
    WellFormed (afterRemoving { s with model := s.model.update parent (removed start count) } parent
      start count) := by
  have hsub := (sublist_update (f := removed start count) hn (labels_removed start count n)).map
    NodeFields.address
  refine ⟨hmodel, ?_, h.addresses.sublist hsub, fun x hx => h.fresh x (hsub.subset hx), ?_⟩
  · refine h.mirrors.update fun n' m' hn' hm' hmir => ?_
    cases hn.symm.trans hn'
    have hchild := hmir.children hloaded
    exact mirrors_of_children (mirrors_iff.mp hmir).1.modelNode hloaded
      (rel_append (forall₂_take start hchild)
        (forall₂_drop (start + count) hchild))
  · exact label_update (P := fun fields : NodeFields => fields.loadedChildren = true) h.root
      fun _ hn => hn

theorem selection_afterRemoving (h : Inv s) (hn : s.root.nodeAt parent = some n)
    (hunder : ¬ Under s start count n) :
    Selection (afterRemoving { s with model := s.model.update parent (removed start count) } parent
      start count) := by
  constructor
  · intro address hsel
    refine (h.live address hsel).update fun n' hn' hshown => ?_
    cases hn.symm.trans hn'
    rcases shown_iff.mp hshown with haddr | ⟨hexp, c, hc, hshown⟩
    · exact shown_iff.mpr (Or.inl haddr)
    · refine shown_iff.mpr (Or.inr ⟨hexp, c, ?_, hshown⟩)
      rw [children_taken start count n] at hc
      rcases mem_append.mp hc with hc | hc
      · rcases mem_append.mp hc with hc | hc
        · exact mem_append_left _ hc
        · obtain ⟨place, l, hl, haddr, -⟩ := hshown
          obtain ⟨fields, hfields, hfieldsAddress⟩ :=
            mem_map.mp (mem_addresses_iff.mpr ⟨place, l, hl, haddr⟩)
          exact absurd ⟨address, hsel,
            mem_map.mpr ⟨fields, mem_labelsIn_iff.mpr ⟨c, hc, hfields⟩, hfieldsAddress⟩⟩ hunder
      · exact mem_append_right _ hc
  · intro hshown
    have hroot : (s.root.update parent (removed start count)).label.address =
        s.root.label.address :=
      label_update (P := fun fields : NodeFields => fields.address = s.root.label.address) rfl
        fun _ hn => hn
    show s.selectedNode ≠ some (s.root.update parent (removed start count)).label.address
    rw [hroot]
    exact h.hidden hshown

theorem remove_spec (h : Inv s) (hm : s.model.nodeAt parent = some m)
    (hcount : start + count ≤ m.children.length) :
    (Clear s (.remove parent start count) →
      ∃ t, s.step (.remove parent start count) = some t ∧ Inv t) ∧
    (¬ Clear s (.remove parent start count) → s.step (.remove parent start count) = none) := by
  have hmodel : (s.model.update parent (removed start count)).labels.Nodup :=
    h.model.sublist (sublist_update hm (labels_removed start count m))
  have hsome : (s.model.nodeAt parent).isSome = true := isSome_iff_exists.mpr ⟨m, hm⟩
  have hlookup := @getInternalNode_lookup
    { s with model := s.model.update parent (removed start count) } parent s.model h.mirrors hsome
  have hunload (hnone : ∀ n, s.root.nodeAt parent = some n → n.label.loadedChildren = false) :
      Inv { s with model := s.model.update parent (removed start count) } :=
    { h with
      model := hmodel
      mirrors := h.mirrors.update_model (fun _ => rfl) hnone }
  have hstep : s.step (.remove parent start count) =
      treeNodesRemoved { s with model := s.model.update parent (removed start count) } parent
        start count := rfl
  simp only [hstep, treeNodesRemoved, hlookup, bind_eq_bind, bind_some]
  rcases eq_none_or_eq_some (s.root.nodeAt parent) with hn | ⟨n, hn⟩
  · have hnone : ∀ n, s.root.nodeAt parent = some n → n.label.loadedChildren = false :=
      fun n hn' => by rw [hn] at hn'; cases hn'
    simp only [hn, isSome_none, Bool.false_eq_true, if_false]
    exact ⟨fun _ => ⟨_, rfl, hunload hnone⟩,
      fun hnot => absurd (clear_of_unloaded h hnone) hnot⟩
  simp only [hn, isSome_some, if_true, bind_some]
  cases hloaded : n.label.loadedChildren with
  | false =>
    have hnone : ∀ n, s.root.nodeAt parent = some n → n.label.loadedChildren = false := by
      intro n' hn'
      cases hn.symm.trans hn'
      exact hloaded
    exact ⟨fun _ => ⟨_, rfl, hunload hnone⟩,
      fun hnot => absurd (clear_of_unloaded h hnone) hnot⟩
  | true =>
    have hlen : start + count ≤ n.children.length := by
      rw [(mirrors_iff.mp (h.mirrors.sub hn hm)).1.loaded hloaded]
      exact hcount
    rw [clear_iff h hn, not_not]
    refine ⟨fun hunder => ?_, fun hunder => ?_⟩
    · have hloop := @removeChild_loop
        { s with model := s.model.update parent (removed start count) } parent start n h.addresses hn
        h.live count hlen hunder
      have hwell := wellFormed_afterRemoving h hn hloaded hmodel
      simp only [if_true, hloop, bind_some]
      by_cases hreset : Under s start count n
      · rw [if_pos (decide_eq_true (show Under { s with
          model := s.model.update parent (removed start count) } start count n from hreset))]
        have hcleared : WellFormed { afterRemoving { s with
            model := s.model.update parent (removed start count) } parent start count with
            selectedNode := none } :=
          ⟨hwell.model, hwell.mirrors, hwell.addresses, hwell.fresh, hwell.root⟩
        have hsel : Selection { afterRemoving { s with
            model := s.model.update parent (removed start count) } parent start count with
            selectedNode := none } := ⟨nofun, nofun⟩
        have hpar : ((s.model.update parent (removed start count)).nodeAt parent).isSome =
            true := by
          rw [nodeAt_update, hm]
          rfl
        split
        · obtain ⟨t, ht, hwell', hsel', heditor, -⟩ := setSelectedNode_spec hcleared
            hsel.live (firstChild_isSome _) fun _ => hsel
          exact ⟨t, ht, { hwell', hsel' with editing := by rw [heditor]; exact nofun }⟩
        · obtain ⟨t, ht, hwell', hsel', heditor, -⟩ := @setSelectedNode_spec _ (some parent)
            hcleared hsel.live (fun _ hp => some.inj hp ▸ hpar) fun _ => hsel
          exact ⟨t, ht, { hwell', hsel' with editing := by rw [heditor]; exact nofun }⟩
      · rw [if_neg (by rw [decide_eq_true_iff]; exact hreset)]
        exact ⟨_, rfl, { hwell, selection_afterRemoving h hn hreset with editing := h.editing }⟩
    · have hloop := @removeChild_loop_none
        { s with model := s.model.update parent (removed start count) } parent start n h.addresses hn
        h.live count hlen hunder
      simp only [if_true, hloop, bind_none]

/-! ## SetModel -/

theorem setModel_spec {model : Rose Nat} (hmodel : model.labels.Nodup) (rootShown : Bool) :
    ∃ s, setModel model rootShown = some s ∧ Inv s := by
  have hfound : model.placeOf (fun address => address == model.label) = some [] := by
    refine @placeOf_key _ _ _ _ _ _ id ?_ (nodeAt_nil model)
    rw [List.map_id]
    exact hmodel
  have hload : loadChildren ⟨model, reset 0 model.label, rootShown, none, false, 1⟩ [] =
      some ⟨model, node ⟨0, model.label, true, false⟩ (internals 1 model.children), rootShown, none,
        false, 1 + model.children.length⟩ := by
    simp only [loadChildren, nodeAt_nil, bind_eq_bind, bind_some,
      placeOfModel]
    rw [show (reset 0 model.label).label.modelNode = model.label from rfl, hfound]
    rfl
  have hkeys : ((node ⟨0, model.label, true, true⟩ (internals 1 model.children)).labels.map
      NodeFields.address).Perm (range' 1 model.children.length ++ [0]) := by
    rw [labels, map_cons, keys_internals]
    exact (perm_append_singleton _ _).symm
  obtain ⟨haddresses, hfresh⟩ := addresses_fresh (nodup_singleton 0) (by simp) hkeys
  simp only [setModel, hload, bind_eq_bind, bind_some]
  refine ⟨_, rfl, ⟨⟨hmodel, ?_, haddresses, hfresh, rfl⟩, ⟨?_, ?_⟩, (by rintro ⟨⟩)⟩⟩
  · exact mirrors_of_children rfl rfl (forall₂_internals 1 model.children)
  · intro address hsel
    cases rootShown with
    | true => exact shown_iff.mpr (Or.inl (some.inj hsel))
    | false =>
      obtain ⟨c, hc, haddr⟩ := map_eq_some_iff.mp hsel
      exact shown_iff.mpr (Or.inr ⟨rfl, c, mem_of_head? hc, shown_iff.mpr (Or.inl haddr)⟩)
  · rintro rfl hsel
    obtain ⟨c, hc, haddr⟩ := map_eq_some_iff.mp hsel
    -- the first child is at address 1
    have hmem : (0 : Nat) ∈ (labelsIn (internals 1 model.children)).map NodeFields.address := by
      refine mem_map.mpr ⟨c.label, ?_, haddr⟩
      exact mem_labelsIn_iff.mpr ⟨c, mem_of_head? hc, label_mem_labels c⟩
    rw [keys_internals] at hmem
    exact absurd (mem_range'_1.mp hmem).1 (by omega)

end ChromiumUI.Views.TreeView
