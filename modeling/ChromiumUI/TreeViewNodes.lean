import ChromiumUI.RoseTrees
import ChromiumUI.TreeView

/-!
# The nodes of a TreeView and of its model

TreeView makes its InternalNodes as they are wanted and is told when the model changes. A node of
the model is given by its place in the model, which is what GetIndexOf and GetParent answer on the
way up to the root; where the code holds a pointer to a node it is looked for by its address. A
function answers `none` where the code would use a node that is deleted or not there.
-/
namespace ChromiumUI.Views.TreeView

open Trees Trees.Rose

/-- An InternalNode but for its children. -/
structure NodeFields where
  address : Nat
  modelNode : Nat
  loadedChildren : Bool
  isExpanded : Bool
  deriving DecidableEq, Repr

/-- An InternalNode as it is after Reset. -/
def reset (address modelNode : Nat) : Rose NodeFields :=
  node ⟨address, modelNode, false, false⟩ []

structure State where
  /-- The nodes of the model by their addresses. -/
  model : Rose Nat
  root : Rose NodeFields
  rootShown : Bool
  selectedNode : Option Nat
  /-- editor_ is not NULL. -/
  hasEditor : Bool
  /-- Where the next InternalNode goes. -/
  nextAddress : Nat

mutual

/-- What the rows depend on. -/
def toRows : Rose NodeFields → InternalNode
  | node fields children => .node fields.isExpanded (toRowsIn children)

def toRowsIn : List (Rose NodeFields) → List InternalNode
  | [] => []
  | child :: children => toRows child :: toRowsIn children

end

namespace State

/-! ## Pointers -/

section

variable (s : State)

def placeOfInternal (address : Nat) : Option Place :=
  s.root.placeOf fun fields => fields.address == address

def placeOfModel (modelNode : Nat) : Option Place :=
  s.model.placeOf fun address => address == modelNode

/-- The call of SchedulePaintForNode or GetBoundsForNode with selected_node_. -/
def useSelected : Option State :=
  match s.selectedNode with
  | none => some s
  | some address => (s.placeOfInternal address).map fun _ => s

/-- Whether selected_node_ is not NULL and has the node at `place` as an ancestor. -/
def selectedHasAncestor (place : Place) : Option Bool :=
  match s.selectedNode with
  | none => some false
  | some address => (s.placeOfInternal address).map fun selected => place.isSuffixOf selected

/-- GetSelectedNode, an address in the model. -/
def getSelectedNode : Option (Option Nat) :=
  match s.selectedNode with
  | none => some none
  | some address => do
    let place ← s.placeOfInternal address
    let node ← s.root.nodeAt place
    some (some node.label.modelNode)

/-! ## Loading and expanding -/

def setIsExpanded (place : Place) (isExpanded : Bool) : State :=
  { s with root := s.root.update place fun n => node { n.label with isExpanded } n.children }

/-- LoadChildren. -/
def loadChildren (place : Place) : Option State := do
  let internal ← s.root.nodeAt place
  let modelPlace ← s.placeOfModel internal.label.modelNode
  let modelNode ← s.model.nodeAt modelPlace
  let loaded := modelNode.children.mapIdx fun i child => reset (s.nextAddress + i) child.label
  some { s with
    root := s.root.update place fun n =>
      node { n.label with loadedChildren := true } (n.children ++ loaded)
    nextAddress := s.nextAddress + modelNode.children.length }

/-- LoadChildren unless loaded_children(). -/
def loadIfNeeded (place : Place) : Option State := do
  let internal ← s.root.nodeAt place
  if internal.label.loadedChildren then some s else s.loadChildren place

end

/-- The end of GetInternalNodeForModelNode, for child `i` of an InternalNode. -/
def getInternalChild (create : Bool) (i : Nat) (place : Place) (s : State) :
    Option (Option Place × State) := do
  let parent ← s.root.nodeAt place
  if !parent.label.loadedChildren && !create then some (none, s)
  else
    let s ← s.loadIfNeeded place
    let _ ← s.root.nodeAt (i :: place)
    some (some (i :: place), s)

/-- GetInternalNodeForModelNode: where the InternalNode is, `none` for NULL. -/
def getInternalNodeForModelNode (create : Bool) : Place → State → Option (Option Place × State)
  | [], s => some (some [], s)
  | i :: parent, s => do
    let (parentInternal, s) ← getInternalNodeForModelNode create parent s
    match parentInternal with
    | none => some (none, s)
    | some place => s.getInternalChild create i place

/-- ExpandImpl: whether a node was expanded. -/
def expandImpl : Place → State → Option (Bool × State)
  | [], s => some (!s.root.label.isExpanded, s.setIsExpanded [] true)
  | i :: parent, s => do
    let (returnValue, s) ← expandImpl parent s
    let (internal, s) ← s.getInternalNodeForModelNode true (i :: parent)
    let place ← internal
    let internal ← s.root.nodeAt place
    if internal.label.isExpanded then some (returnValue, s)
    else
      let s ← s.loadIfNeeded place
      some (true, s.setIsExpanded place true)

section

variable (s : State)

/-- Expand. -/
def expand (place : Place) : Option State :=
  (expandImpl place s).map Prod.snd

/-- ExpandAll: the node and its children. -/
def expandAll (place : Place) : Option State := do
  let s ← s.expand place
  let modelNode ← s.model.nodeAt place
  (List.range modelNode.children.length).reverse.foldlM (fun s i => s.expand (i :: place)) s

/-- Expand for the parent, where there is one. -/
def expandParent : Place → Option State
  | [] => some s
  | _ :: parent => s.expand parent

/-! ## Selecting -/

def cancelEdit : State := { s with hasEditor := false }

/-- SetSelectedNode where the node is another one than selected_node_. -/
def changeSelection (address : Option Nat) : Option State := do
  let s ← s.useSelected
  let hidden := address == some s.root.label.address && !s.rootShown
  let s := { s with selectedNode := if hidden then none else address }
  let s ← match s.selectedNode with
    | none => some s
    | some address =>
      if address = s.root.label.address then some s
      else do
        let place ← s.placeOfInternal address
        let internal ← s.root.nodeAt place
        let modelPlace ← s.placeOfModel internal.label.modelNode
        s.expandParent modelPlace
  s.useSelected

/-- SetSelectedNode from GetInternalNodeForModelNode on. -/
def selectInternal (target : Option Place) : Option State := do
  let (internal, s) ← match target with
    | none => some (none, s)
    | some place => s.getInternalNodeForModelNode true place
  let address ← match internal with
    | none => some none
    | some place => (s.root.nodeAt place).map fun n => some n.label.address
  let s ← if s.selectedNode = address then some s else s.changeSelection address
  s.useSelected

/-- SetSelectedNode; the controller that it tells does not call back. -/
def setSelectedNode (target : Option Place) : Option State := do
  let s := s.cancelEdit
  let s ← match target with
    | none => some s
    | some place => s.expandParent place
  if target = some [] ∧ s.rootShown = false then some s
  else s.selectInternal target

/-- SetSelectedNode for the model node of an InternalNode. -/
def setSelectedInternal (place : Place) : Option State := do
  let internal ← s.root.nodeAt place
  let modelPlace ← s.placeOfModel internal.label.modelNode
  s.setSelectedNode (some modelPlace)

/-- Collapse. -/
def collapse (place : Place) : Option State := do
  if place = [] ∧ s.rootShown = false then some s
  else
    let (internal, s) ← s.getInternalNodeForModelNode false place
    match internal with
    | none => some s
    | some internalPlace => do
      let internal ← s.root.nodeAt internalPlace
      if internal.label.isExpanded then
        let below ← s.selectedHasAncestor internalPlace
        let s ← if below then s.setSelectedNode (some place) else some s
        some (s.setIsExpanded internalPlace false)
      else some s

/-- SetRootShown. -/
def setRootShown (rootShown : Bool) : Option State :=
  if s.rootShown = rootShown then some s
  else
    let s := { s with rootShown }
    if rootShown = false ∧ s.selectedNode = some s.root.label.address then
      s.setSelectedNode (if s.model.children.isEmpty then none else some [0])
    else some s

end

/-! ## The model has changed -/

/-- The loop body of TreeNodesAdded. -/
def addChild (parent : Place) (start : Nat) (s : State) (i : Nat) : Option State := do
  let modelParent ← s.model.nodeAt parent
  let modelChild ← modelParent.children[start + i]?
  let internal ← s.root.nodeAt parent
  if start + i ≤ internal.children.length then
    let child := reset s.nextAddress modelChild.label
    some { s with
      root := s.root.update parent fun n => node n.label (n.children.insertIdx (start + i) child)
      nextAddress := s.nextAddress + 1 }
  else none

variable (s : State)

/-- TreeNodesAdded. -/
def treeNodesAdded (parent : Place) (start count : Nat) : Option State := do
  let (internal, s) ← s.getInternalNodeForModelNode false parent
  match internal with
  | none => some s
  | some place => do
    let internal ← s.root.nodeAt place
    if internal.label.loadedChildren then
      (List.range count).foldlM (fun s i => s.addChild place start i) s
    else some s

/-- The loop body of TreeNodesRemoved, with reset_selection. -/
def removeChild (parent : Place) (start : Nat) (x : State × Bool) : Option (State × Bool) := do
  let (s, resetSelection) := x
  let _ ← s.root.nodeAt (start :: parent)
  let below ← s.selectedHasAncestor (start :: parent)
  let s := { s with
    root := s.root.update parent fun n => node n.label (n.children.eraseIdx start) }
  some (s, resetSelection || below)

/-- TreeNodesRemoved. -/
def treeNodesRemoved (parent : Place) (start count : Nat) : Option State := do
  let (internal, s) ← s.getInternalNodeForModelNode false parent
  match internal with
  | none => some s
  | some place => do
    let internal ← s.root.nodeAt place
    if internal.label.loadedChildren then
      let (s, resetSelection) ←
        (List.range count).foldlM (fun x _ => removeChild place start x) (s, false)
      if resetSelection then
        let s := { s with selectedNode := none }
        if parent = [] ∧ s.rootShown = false then
          s.setSelectedNode (if s.model.children.isEmpty then none else some [0])
        else s.setSelectedNode (some parent)
      else some s
    else some s

/-! ## Keys -/

/-- IncrementSelection. -/
def incrementSelection (next : Bool) : Option State :=
  let rows : TreeView := ⟨toRows s.root, s.rootShown⟩
  match s.selectedNode with
  | none =>
    if s.root.children.isEmpty then some s
    else if next = false then do
      let (place, _) ← rows.getNodeByRow (rows.getRowCount - 1)
      s.setSelectedInternal place
    else if s.rootShown then s.setSelectedInternal []
    else s.setSelectedInternal [0]
  | some address => do
    let selected ← s.placeOfInternal address
    let row := (rows.getRowForNode selected).1
    let delta : Int := if next then 1 else -1
    let newRow := min (rows.getRowCount - 1) (max 0 (row + delta))
    if newRow = row then some s
    else
      let (place, _) ← rows.getNodeByRow newRow
      s.setSelectedInternal place

/-- CollapseOrSelectParent. -/
def collapseOrSelectParent : Option State :=
  match s.selectedNode with
  | none => some s
  | some address => do
    let place ← s.placeOfInternal address
    let internal ← s.root.nodeAt place
    if internal.label.isExpanded then
      let modelPlace ← s.placeOfModel internal.label.modelNode
      s.collapse modelPlace
    else
      match place with
      | [] => some s
      | _ :: parent => s.setSelectedInternal parent

/-- ExpandOrSelectChild. -/
def expandOrSelectChild : Option State :=
  match s.selectedNode with
  | none => some s
  | some address => do
    let place ← s.placeOfInternal address
    let internal ← s.root.nodeAt place
    if internal.label.isExpanded then
      if internal.children.isEmpty then some s else s.setSelectedInternal (0 :: place)
    else
      let modelPlace ← s.placeOfModel internal.label.modelNode
      s.expand modelPlace

/-! ## Editing -/

/-- StartEditing. -/
def startEditing (place : Place) : Option State := do
  let s := s.cancelEdit
  let s ← s.expandParent place
  let s ← s.setSelectedNode (some place)
  let modelNode ← s.model.nodeAt place
  let selected ← s.getSelectedNode
  if selected = some modelNode.label then some { s with hasEditor := true } else some s

/-- CommitEdit: SetTitle needs the node in the model, and TreeNodeChanged looks for its
InternalNode. -/
def commitEdit : Option State :=
  if s.hasEditor then do
    let selected ← s.getSelectedNode
    let modelNode ← selected
    let place ← s.placeOfModel modelNode
    let (_, s) ← s.getInternalNodeForModelNode false place
    some s.cancelEdit
  else some s

/-! ## Runs -/

/-- SetModel for a new TreeView. -/
def setModel (model : Rose Nat) (rootShown : Bool) : Option State := do
  let s : State := ⟨model, reset 0 model.label, rootShown, none, false, 1⟩
  let s ← s.loadChildren []
  let s := s.setIsExpanded [] true
  let first := s.root.children.head?.map fun child => child.label.address
  some { s with selectedNode := if rootShown then some s.root.label.address else first }

end State

/-- What is done to the model or to the view. -/
inductive Action where
  /-- The model inserts nodes with all below them, then sends TreeNodesAdded. -/
  | add (parent : Place) (start : Nat) (nodes : List (Rose Nat))
  /-- The model removes nodes, then sends TreeNodesRemoved. -/
  | remove (parent : Place) (start count : Nat)
  | expand (place : Place)
  | expandAll (place : Place)
  | collapse (place : Place)
  | setSelectedNode (target : Option Place)
  | setRootShown (rootShown : Bool)
  | incrementSelection (next : Bool)
  | collapseOrSelectParent
  | expandOrSelectChild
  | startEditing (place : Place)
  | commitEdit
  | cancelEdit

namespace State

def step (s : State) : Action → Option State
  | .add parent start nodes =>
    let model := s.model.update parent fun n =>
      node n.label (n.children.take start ++ nodes ++ n.children.drop start)
    { s with model }.treeNodesAdded parent start nodes.length
  | .remove parent start count =>
    let model := s.model.update parent fun n =>
      node n.label (n.children.take start ++ n.children.drop (start + count))
    { s with model }.treeNodesRemoved parent start count
  | .expand place => s.expand place
  | .expandAll place => s.expandAll place
  | .collapse place => s.collapse place
  | .setSelectedNode target => s.setSelectedNode target
  | .setRootShown rootShown => s.setRootShown rootShown
  | .incrementSelection next => s.incrementSelection next
  | .collapseOrSelectParent => s.collapseOrSelectParent
  | .expandOrSelectChild => s.expandOrSelectChild
  | .startEditing place => s.startEditing place
  | .commitEdit => s.commitEdit
  | .cancelEdit => some s.cancelEdit

/-- What the callers and the model promise: the nodes named are in the model, and what is added
is not there already. -/
def Legal (s : State) : Action → Prop
  | .add parent start nodes =>
    (∃ n ∈ s.model.nodeAt parent, start ≤ n.children.length) ∧
      (labelsIn nodes ++ s.model.labels).Nodup
  | .remove parent start count => ∃ n ∈ s.model.nodeAt parent, start + count ≤ n.children.length
  | .expand place | .expandAll place | .collapse place | .startEditing place
  | .setSelectedNode (some place) => (s.model.nodeAt place).isSome = true
  | .setSelectedNode none | .setRootShown _ | .incrementSelection _ | .collapseOrSelectParent
  | .expandOrSelectChild | .commitEdit | .cancelEdit => True

end State

/-! ## Loading and expanding keep a TreeView in step with its model

The InternalNodes are compared with the model place by place. Expanding and loading only add to
what there is. -/

open List Option Nat State NodeFields

/-- What an InternalNode has in common with its model node. -/
structure Agrees (n : Rose NodeFields) (m : Rose Nat) : Prop where
  modelNode : n.label.modelNode = m.label
  loaded : n.label.loadedChildren = true → n.children.length = m.children.length
  unloaded : n.label.loadedChildren = false → n.children = []
  expanded : n.label.isExpanded = true → n.label.loadedChildren = true

def Mirrors (t : Rose NodeFields) (m : Rose Nat) : Prop :=
  ∀ place n, t.nodeAt place = some n → ∃ m', m.nodeAt place = some m' ∧ Agrees n m'

variable {t : Rose NodeFields} {m : Rose Nat}

theorem mirrors_iff :
    Mirrors t m ↔ Agrees t m ∧ ∀ (i : Nat) c, t.children[i]? = some c →
      ∃ d, m.children[i]? = some d ∧ Mirrors c d := by
  constructor
  · intro h
    obtain ⟨m', hm', hagrees⟩ := h [] t rfl
    cases hm'
    refine ⟨hagrees, fun i c hc => ?_⟩
    obtain ⟨d, hd, -⟩ := h [i] c (by rw [nodeAt_cons]; exact hc)
    replace hd : m.children[i]? = some d := hd
    refine ⟨d, hd, fun place n hn => ?_⟩
    obtain ⟨m', hm', hagrees⟩ := h (place ++ [i]) n (by rw [nodeAt_concat, hc]; exact hn)
    rw [nodeAt_concat, hd] at hm'
    exact ⟨m', hm', hagrees⟩
  · rintro ⟨hagrees, hchild⟩ place n hn
    induction place using reverseRecOn with
    | nil =>
      cases hn
      exact ⟨m, rfl, hagrees⟩
    | append_singleton place i =>
      rw [nodeAt_concat] at hn
      obtain ⟨c, hc, hn⟩ := bind_eq_some_iff.mp hn
      obtain ⟨d, hd, hmir⟩ := hchild i c hc
      obtain ⟨m', hm', hagrees⟩ := hmir place n hn
      exact ⟨m', by rw [nodeAt_concat, hd]; exact hm', hagrees⟩

variable {n : Rose NodeFields} {place : Place}

theorem Mirrors.sub {m' : Rose Nat} (h : Mirrors t m) (hn : t.nodeAt place = some n)
    (hm : m.nodeAt place = some m') : Mirrors n m' := by
  intro r k hk
  obtain ⟨d, hd, hagrees⟩ := h (r ++ place) k (by rw [nodeAt_append, hn]; exact hk)
  rw [nodeAt_append, hm] at hd
  exact ⟨d, hd, hagrees⟩

variable {f : Rose NodeFields → Rose NodeFields}

/-- A node and its model node change together. -/
theorem Mirrors.update {g : Rose Nat → Rose Nat} (h : Mirrors t m)
    (hfg : ∀ n m', t.nodeAt place = some n → m.nodeAt place = some m' → Mirrors n m' →
      Mirrors (f n) (g m')) : Mirrors (t.update place f) (m.update place g) := by
  induction place generalizing f g with
  | nil => exact hfg t m rfl rfl h
  | cons i parent ih =>
    refine ih fun n m' hn hm hnode => mirrors_iff.mpr ?_
    obtain ⟨hagrees, hchild⟩ := mirrors_iff.mp hnode
    refine ⟨⟨hagrees.modelNode, ?_, ?_, hagrees.expanded⟩, fun j c hc => ?_⟩
    · intro hloaded
      rw [children_node, children_node, length_modify, length_modify]
      exact hagrees.loaded hloaded
    · intro hunload
      rw [children_node, hagrees.unloaded hunload, modify_nil]
    · rw [children_node, getElem?_modify] at hc
      obtain ⟨c, hc', rfl⟩ := map_eq_some_iff.mp hc
      obtain ⟨d, hd, hmir⟩ := hchild j c hc'
      rw [children_node, getElem?_modify, hd]
      refine ⟨_, rfl, ?_⟩
      split
      · rename_i hij
        subst hij
        exact hfg c d (nodeAt_cons_some.mpr ⟨n, hn, hc'⟩) (nodeAt_cons_some.mpr ⟨m', hm, hd⟩)
          hmir
      · exact hmir

/-- The model changes below a node that is not loaded. -/
theorem Mirrors.update_model {g : Rose Nat → Rose Nat} (h : Mirrors t m)
    (hlabel : ∀ m', (g m').label = m'.label)
    (hunload : ∀ n, t.nodeAt place = some n → n.label.loadedChildren = false) :
    Mirrors t (m.update place g) := by
  have hkeep : Mirrors (t.update place fun n => n) (m.update place g) := by
    refine h.update fun n m' hn hm hnode => mirrors_iff.mpr ?_
    have hagrees := (mirrors_iff.mp hnode).1
    have hchild := hagrees.unloaded (hunload n hn)
    refine ⟨⟨hagrees.modelNode.trans (hlabel m').symm, ?_, hagrees.unloaded, hagrees.expanded⟩,
      fun i c hc => ?_⟩
    · intro hloaded
      rw [hunload n hn] at hloaded
      cases hloaded
    · rw [hchild] at hc
      cases hc
  rwa [update_id] at hkeep

theorem mirrors_reset (address : Nat) (m : Rose Nat) : Mirrors (reset address m.label) m :=
  mirrors_iff.mpr ⟨⟨rfl, nofun, fun _ => rfl, nofun⟩, nofun⟩

/-! ## What only grows -/

/-- All nodes are still there, and expanded where they were. -/
def Extends (t t' : Rose NodeFields) : Prop :=
  ∀ place n, t.nodeAt place = some n → ∃ n', t'.nodeAt place = some n' ∧
    n'.label.address = n.label.address ∧ n'.label.modelNode = n.label.modelNode ∧
      (n.label.isExpanded = true → n'.label.isExpanded = true)

theorem Extends.refl (t : Rose NodeFields) : Extends t t :=
  fun _ n hn => ⟨n, hn, rfl, rfl, id⟩

variable {t' : Rose NodeFields}

theorem Extends.trans {t'' : Rose NodeFields} (h : Extends t t') (h' : Extends t' t'') :
    Extends t t'' := by
  intro place n hn
  obtain ⟨n', hn', haddr, hmodel, hexp⟩ := h place n hn
  obtain ⟨n'', hn'', haddr', hmodel', hexp'⟩ := h' place n' hn'
  exact ⟨n'', hn'', haddr'.trans haddr, hmodel'.trans hmodel, hexp' ∘ hexp⟩

theorem extends_node {a b : NodeFields} {cs ds : List (Rose NodeFields)}
    (haddr : b.address = a.address) (hmodel : b.modelNode = a.modelNode)
    (hexp : a.isExpanded = true → b.isExpanded = true)
    (hchild : ∀ (i : Nat) c, cs[i]? = some c → ∃ d, ds[i]? = some d ∧ Extends c d) :
    Extends (node a cs) (node b ds) := by
  intro place n hn
  induction place using reverseRecOn with
  | nil =>
    cases hn
    exact ⟨_, rfl, haddr, hmodel, hexp⟩
  | append_singleton place i =>
    rw [nodeAt_concat] at hn
    obtain ⟨c, hc, hn⟩ := bind_eq_some_iff.mp hn
    obtain ⟨d, hd, hextends⟩ := hchild i c hc
    rw [nodeAt_concat, children_node, hd]
    exact hextends place n hn

theorem extends_update (hf : ∀ n, t.nodeAt place = some n → Extends n (f n)) :
    Extends t (t.update place f) := by
  induction place generalizing f with
  | nil => exact hf t rfl
  | cons i parent ih =>
    refine ih fun n hn => ?_
    obtain ⟨a, cs⟩ := n
    refine extends_node rfl rfl id fun j c hc => ?_
    rw [children_node, getElem?_modify, hc]
    refine ⟨_, rfl, ?_⟩
    split
    · rename_i hij
      subst hij
      exact hf c (nodeAt_cons_some.mpr ⟨_, hn, hc⟩)
    · exact .refl c

/-! ## Nodes that are shown -/

/-- The proper ancestors of a place are expanded. -/
def Exposed (t : Rose NodeFields) : Place → Prop
  | [] => True
  | _ :: parent => Exposed t parent ∧ ∃ n, t.nodeAt parent = some n ∧ n.label.isExpanded = true

theorem exposed_concat {c : Rose NodeFields} {i : Nat} (hc : t.children[i]? = some c)
    (place : Place) : Exposed t (place ++ [i]) ↔ t.label.isExpanded = true ∧ Exposed c place := by
  induction place with
  | nil => simp [Exposed]
  | cons j place ih =>
    rw [cons_append, Exposed, ih, nodeAt_concat, hc, bind_some, Exposed, and_assoc]

theorem Exposed.extends (h : Exposed t place) (hextends : Extends t t') : Exposed t' place := by
  induction place with
  | nil => trivial
  | cons i parent ih =>
    obtain ⟨hpar, n, hn, hexp⟩ := h
    obtain ⟨n', hn', -, -, hexp'⟩ := hextends parent n hn
    exact ⟨ih hpar, n', hn', hexp' hexp⟩

/-- The InternalNode at an address is live and its proper ancestors are expanded. -/
def Shown (t : Rose NodeFields) (address : Nat) : Prop :=
  ∃ place n, t.nodeAt place = some n ∧ n.label.address = address ∧ Exposed t place

variable {address : Nat}

theorem Shown.extends (h : Shown t address) (hextends : Extends t t') : Shown t' address := by
  obtain ⟨place, n, hn, haddr, hexp⟩ := h
  obtain ⟨n', hn', haddr', -, -⟩ := hextends place n hn
  exact ⟨place, n', hn', haddr'.trans haddr, hexp.extends hextends⟩

theorem shown_iff :
    Shown t address ↔ t.label.address = address ∨
      t.label.isExpanded = true ∧ ∃ c ∈ t.children, Shown c address := by
  constructor
  · rintro ⟨place, n, hn, haddr, hexposed⟩
    induction place using reverseRecOn with
    | nil =>
      cases hn
      exact Or.inl haddr
    | append_singleton place i =>
      rw [nodeAt_concat] at hn
      obtain ⟨c, hc, hn⟩ := bind_eq_some_iff.mp hn
      rw [exposed_concat hc] at hexposed
      exact Or.inr ⟨hexposed.1, c, mem_of_getElem? hc, place, n, hn, haddr, hexposed.2⟩
  · rintro (haddr | ⟨hexp, c, hc, place, n, hn, haddr, hexposed⟩)
    · exact ⟨[], t, rfl, haddr, trivial⟩
    · obtain ⟨i, hi⟩ := mem_iff_getElem?.mp hc
      refine ⟨place ++ [i], n, ?_, haddr, (exposed_concat hi place).mpr ⟨hexp, hexposed⟩⟩
      rw [nodeAt_concat, hi]
      exact hn

theorem Shown.update (h : Shown t address)
    (hf : ∀ n, t.nodeAt place = some n → Shown n address → Shown (f n) address) :
    Shown (t.update place f) address := by
  induction place generalizing f with
  | nil => exact hf t rfl h
  | cons i parent ih =>
    refine ih fun n hn hshown => ?_
    rcases shown_iff.mp hshown with haddr | ⟨hexp, c, hc, hshown⟩
    · exact shown_iff.mpr (Or.inl haddr)
    · obtain ⟨j, hj⟩ := mem_iff_getElem?.mp hc
      have hj' := getElem?_modify f i n.children j
      rw [hj] at hj'
      refine shown_iff.mpr (Or.inr ⟨hexp, _, mem_of_getElem? hj', ?_⟩)
      split
      · rename_i hij
        subst hij
        exact hf c (nodeAt_cons_some.mpr ⟨n, hn, hj⟩) hshown
      · exact hshown

/-! ## Well-formed views -/

/-- What holds of the nodes, whatever is selected. -/
structure WellFormed (s : State) : Prop where
  model : s.model.labels.Nodup
  mirrors : Mirrors s.root s.model
  addresses : (s.root.labels.map NodeFields.address).Nodup
  fresh : ∀ x ∈ s.root.labels.map NodeFields.address, x < s.nextAddress
  root : s.root.label.loadedChildren = true

variable {s t u : State} {place : Place}

theorem WellFormed.modelNode (h : WellFormed s) (hn : s.root.nodeAt place = some n) :
    ∃ m, s.model.nodeAt place = some m ∧ Agrees n m := h.mirrors place n hn

theorem WellFormed.placeOfInternal (h : WellFormed s) (hn : s.root.nodeAt place = some n) :
    s.placeOfInternal n.label.address = some place :=
  placeOf_key h.addresses hn

theorem WellFormed.placeOfModel (h : WellFormed s) (hn : s.root.nodeAt place = some n) :
    s.placeOfModel n.label.modelNode = some place := by
  obtain ⟨m, hm, hagrees⟩ := h.modelNode hn
  rw [hagrees.modelNode]
  refine @placeOf_key _ _ _ _ _ _ id ?_ hm
  rw [List.map_id]
  exact h.model

/-- What expanding does to a view. -/
structure Grows (s t : State) : Prop where
  model : t.model = s.model
  root : Extends s.root t.root
  rootShown : t.rootShown = s.rootShown
  selectedNode : t.selectedNode = s.selectedNode
  hasEditor : t.hasEditor = s.hasEditor

theorem Grows.refl (s : State) : Grows s s := ⟨rfl, .refl _, rfl, rfl, rfl⟩

theorem Grows.trans (h : Grows s t) (h' : Grows t u) : Grows s u :=
  ⟨h'.model.trans h.model, h.root.trans h'.root, h'.rootShown.trans h.rootShown,
    h'.selectedNode.trans h.selectedNode, h'.hasEditor.trans h.hasEditor⟩

theorem Grows.rootAddress (h : Grows s t) : t.root.label.address = s.root.label.address := by
  obtain ⟨n', hn', haddr, -, -⟩ := h.root [] s.root rfl
  cases hn'
  exact haddr

theorem setIsExpanded_nodeAt (s : State) (place : Place) (isExpanded : Bool) :
    (s.setIsExpanded place isExpanded).root.nodeAt place =
      (s.root.nodeAt place).map fun n => node { n.label with isExpanded } n.children :=
  nodeAt_update _ _ _

theorem keys_setIsExpanded (n : Rose NodeFields) (isExpanded : Bool) :
    (node { n.label with isExpanded } n.children).labels.map NodeFields.address =
      n.labels.map NodeFields.address := by
  rw [labels_eq n]
  rfl

theorem WellFormed.setIsExpanded (h : WellFormed s) {isExpanded : Bool}
    (hloaded : isExpanded = true → ∀ n, s.root.nodeAt place = some n →
      n.label.loadedChildren = true) : WellFormed (s.setIsExpanded place isExpanded) := by
  have hkeys : ((s.setIsExpanded place isExpanded).root.labels.map address).Perm
      (s.root.labels.map address) := by
    cases hn : s.root.nodeAt place with
    | none =>
      unfold State.setIsExpanded
      rw [update_of_nodeAt_none _ hn]
    | some n => exact @keys_update _ _ _ _ _ _ _ [] hn (.of_eq (keys_setIsExpanded n isExpanded))
  refine ⟨h.model, ?_, hkeys.nodup_iff.mpr h.addresses, fun x hx => h.fresh x (hkeys.mem_iff.mp hx),
    ?_⟩
  · have hmir : Mirrors (s.setIsExpanded place isExpanded).root
        (s.model.update place fun m => m) := by
      refine h.mirrors.update fun n m hn hm hnode => mirrors_iff.mpr ?_
      obtain ⟨hagrees, hchild⟩ := mirrors_iff.mp hnode
      exact ⟨⟨hagrees.modelNode, hagrees.loaded, hagrees.unloaded,
        fun hexp => hloaded hexp n hn⟩, hchild⟩
    rwa [update_id] at hmir
  · exact label_update (P := fun fields : NodeFields => fields.loadedChildren = true) h.root fun _ hn => hn

theorem grows_setIsExpanded (s : State) (place : Place) : Grows s (s.setIsExpanded place true) := by
  refine ⟨rfl, extends_update fun n _ => ?_, rfl, rfl, rfl⟩
  obtain ⟨a, cs⟩ := n
  exact extends_node rfl rfl (fun _ => rfl) fun _ c hc => ⟨c, hc, .refl c⟩

/-! ## LoadChildren -/

/-- The InternalNodes made for some model nodes. -/
def internals (address : Nat) (modelNodes : List (Rose Nat)) : List (Rose NodeFields) :=
  modelNodes.mapIdx fun i child => reset (address + i) child.label

theorem internals_getElem? {i : Nat} {modelNodes : List (Rose Nat)} {c : Rose NodeFields}
    (hc : (internals address modelNodes)[i]? = some c) :
    ∃ m, modelNodes[i]? = some m ∧ Mirrors c m := by
  rw [internals, getElem?_mapIdx] at hc
  obtain ⟨m, hm, rfl⟩ := map_eq_some_iff.mp hc
  exact ⟨m, hm, mirrors_reset _ m⟩

theorem keys_internals (address : Nat) (modelNodes : List (Rose Nat)) :
    (labelsIn (internals address modelNodes)).map NodeFields.address =
      range' address modelNodes.length := by
  induction modelNodes generalizing address with
  | nil => rfl
  | cons m modelNodes ih =>
    have hshift : internals address (m :: modelNodes) =
        reset address m.label :: internals (address + 1) modelNodes := by
      rw [internals, mapIdx_cons, internals]
      simp only [Nat.add_zero, Nat.add_assoc, Nat.add_comm 1]
    rw [hshift, labelsIn, map_append, ih]
    rfl

/-- Fresh addresses keep addresses distinct. -/
theorem addresses_fresh {old new : List Nat} {count : Nat} (hold : old.Nodup)
    (hfresh : ∀ x ∈ old, x < address) (h : new.Perm (range' address count ++ old)) :
    new.Nodup ∧ ∀ x ∈ new, x < address + count := by
  refine ⟨h.nodup_iff.mpr (nodup_append.mpr ⟨nodup_range', hold, ?_⟩), fun x hx => ?_⟩
  · rintro x hx y hy rfl
    exact lt_irrefl _ ((hfresh x hy).trans_le (mem_range'_1.mp hx).1)
  · rcases mem_append.mp (h.mem_iff.mp hx) with hx | hx
    · exact (mem_range'_1.mp hx).2
    · exact (hfresh x hx).trans_le (le_add_right _ _)

theorem loadChildren_spec (h : WellFormed s) (hn : s.root.nodeAt place = some n)
    (hunload : n.label.loadedChildren = false) :
    ∃ t, s.loadChildren place = some t ∧ WellFormed t ∧ Grows s t ∧
      ∃ n', t.root.nodeAt place = some n' ∧ n'.label = { n.label with loadedChildren := true } := by
  obtain ⟨m, hm, hagrees⟩ := h.modelNode hn
  have hchild := hagrees.unloaded hunload
  refine ⟨{ s with
    root := s.root.update place fun n => node { n.label with loadedChildren := true }
      (n.children ++ internals s.nextAddress m.children)
    nextAddress := s.nextAddress + m.children.length }, ?_, ?_⟩
  · simp only [loadChildren, hn, h.placeOfModel hn, hm, bind_eq_bind,
      bind_some]
    rfl
  · have hkeys : ((node { n.label with loadedChildren := true }
          (n.children ++ internals s.nextAddress m.children)).labels.map address).Perm
        (range' s.nextAddress m.children.length ++ n.labels.map address) := by
      rw [labels_eq n, hchild, nil_append, labels, map_cons, keys_internals]
      exact (perm_append_singleton _ _).symm
    have hupdate := @keys_update _ _ _ _ _ (fun n => node { n.label with loadedChildren := true }
      (n.children ++ internals s.nextAddress m.children)) address _ hn hkeys
    obtain ⟨haddresses, hfresh⟩ := addresses_fresh h.addresses h.fresh hupdate
    refine ⟨⟨h.model, ?_, haddresses, hfresh, ?_⟩, ⟨rfl, ?_, rfl, rfl, rfl⟩, ?_⟩
    · have hmir : Mirrors (s.root.update place fun n =>
          node { n.label with loadedChildren := true }
            (n.children ++ internals s.nextAddress m.children))
          (s.model.update place fun m => m) := by
        refine h.mirrors.update fun k m' hk hm' hnode => mirrors_iff.mpr ?_
        cases hn.symm.trans hk
        cases hm.symm.trans hm'
        rw [hchild, nil_append, children_node]
        refine ⟨⟨hagrees.modelNode, fun _ => ?_, nofun, fun _ => rfl⟩, fun i c hc => ?_⟩
        · rw [children_node, internals, length_mapIdx]
        · exact internals_getElem? hc
      rwa [update_id] at hmir
    · exact label_update (P := fun fields : NodeFields => fields.loadedChildren = true) h.root
        fun _ _ => rfl
    · refine extends_update fun k hk => ?_
      cases hn.symm.trans hk
      obtain ⟨a, cs⟩ := n
      refine extends_node rfl rfl id fun i c hc => ?_
      rw [show cs = [] from hchild] at hc
      cases hc
    · exact ⟨_, by rw [nodeAt_update, hn]; rfl, rfl⟩

theorem loadIfNeeded_spec (h : WellFormed s) (hn : s.root.nodeAt place = some n) :
    ∃ t, s.loadIfNeeded place = some t ∧ WellFormed t ∧ Grows s t ∧
      ∃ n', t.root.nodeAt place = some n' ∧ n'.label.loadedChildren = true := by
  simp only [loadIfNeeded, hn, bind_eq_bind, bind_some]
  cases hloaded : n.label.loadedChildren with
  | true => exact ⟨s, rfl, h, .refl s, n, hn, hloaded⟩
  | false =>
    obtain ⟨t, ht, hwell, hgrows, n', hn', hlabel⟩ := loadChildren_spec h hn hloaded
    exact ⟨t, ht, hwell, hgrows, n', hn', by rw [hlabel]⟩

/-! ## GetInternalNodeForModelNode -/

/-- Without creating, it finds the InternalNode if there is one. -/
theorem getInternalNode_lookup {m : Rose Nat} (hmir : Mirrors s.root m)
    (hplace : (m.nodeAt place).isSome = true) :
    s.getInternalNodeForModelNode false place =
      some (if (s.root.nodeAt place).isSome then some place else none, s) := by
  induction place with
  | nil => rfl
  | cons i parent ih =>
    obtain ⟨m', hm'⟩ := isSome_iff_exists.mp hplace
    obtain ⟨mp, hmp, hchild⟩ := nodeAt_cons_some.mp hm'
    simp only [getInternalNodeForModelNode, ih (isSome_iff_exists.mpr ⟨mp, hmp⟩),
      bind_eq_bind, bind_some, nodeAt_cons]
    rcases eq_none_or_eq_some (s.root.nodeAt parent) with hn | ⟨n, hn⟩
    · simp only [hn, isSome_none, Bool.false_eq_true, if_false, bind_none]
    · obtain ⟨m'', hm'', hagrees⟩ := hmir parent n hn
      cases hmp.symm.trans hm''
      simp only [isSome_some, if_true, getInternalChild, hn, bind_eq_bind,
        bind_some, Bool.not_false, Bool.and_true]
      cases hloaded : n.label.loadedChildren with
      | false =>
        rw [hagrees.unloaded hloaded]
        rfl
      | true =>
        have hlt : i < n.children.length := by
          rw [hagrees.loaded hloaded]
          exact (List.getElem?_eq_some_iff.mp hchild).1
        simp [loadIfNeeded, nodeAt_cons, hn, hloaded, getElem?_eq_getElem hlt]

/-- When it creates, it finds a node for every model node. -/
theorem getInternalNode_create (h : WellFormed s) (hplace : (s.model.nodeAt place).isSome = true) :
    ∃ t, s.getInternalNodeForModelNode true place = some (some place, t) ∧ WellFormed t ∧
      Grows s t ∧ (t.root.nodeAt place).isSome = true := by
  induction place with
  | nil => exact ⟨s, rfl, h, .refl s, rfl⟩
  | cons i parent ih =>
    obtain ⟨m', hm'⟩ := isSome_iff_exists.mp hplace
    obtain ⟨mp, hmp, hchild⟩ := nodeAt_cons_some.mp hm'
    obtain ⟨t, ht, hwell, hgrows, hsome⟩ := ih (isSome_iff_exists.mpr ⟨mp, hmp⟩)
    obtain ⟨n, hn⟩ := isSome_iff_exists.mp hsome
    obtain ⟨u, hu, hwell', hgrows', n', hn', hloaded⟩ := loadIfNeeded_spec hwell hn
    obtain ⟨m'', hm'', hagrees⟩ := hwell'.modelNode hn'
    rw [hgrows'.model, hgrows.model, hmp] at hm''
    cases hm''
    have hlt : i < n'.children.length := by
      rw [hagrees.loaded hloaded]
      exact (List.getElem?_eq_some_iff.mp hchild).1
    have hat : u.root.nodeAt (i :: parent) = some n'.children[i] := by
      rw [nodeAt_cons, hn']
      exact getElem?_eq_getElem hlt
    refine ⟨u, ?_, hwell', hgrows.trans hgrows', isSome_iff_exists.mpr ⟨_, hat⟩⟩
    simp only [getInternalNodeForModelNode, ht, bind_eq_bind, bind_some,
      getInternalChild, hn, Bool.not_true, Bool.and_false, Bool.false_eq_true, if_false]
    rw [hu, bind_some, hat, bind_some]

/-! ## ExpandImpl -/

theorem expandImpl_spec (h : WellFormed s) (hplace : (s.model.nodeAt place).isSome = true) :
    ∃ expanded t, expandImpl place s = some (expanded, t) ∧ WellFormed t ∧ Grows s t ∧
      Exposed t.root place ∧
      ∃ n, t.root.nodeAt place = some n ∧ n.label.isExpanded = true := by
  induction place with
  | nil =>
    refine ⟨_, _, rfl, h.setIsExpanded ?_, grows_setIsExpanded s [], trivial, _, rfl, rfl⟩
    rintro - n hn
    cases hn
    exact h.root
  | cons i parent ih =>
    obtain ⟨m', hm'⟩ := isSome_iff_exists.mp hplace
    obtain ⟨mp, hmp, -⟩ := nodeAt_cons_some.mp hm'
    obtain ⟨expanded, t, ht, hwell, hgrows, hexposed, np, hnp, hexp⟩ :=
      ih (isSome_iff_exists.mpr ⟨mp, hmp⟩)
    obtain ⟨u, hu, hwell', hgrows', hsome⟩ :=
      getInternalNode_create hwell (by rw [hgrows.model]; exact hplace)
    obtain ⟨n, hn⟩ := isSome_iff_exists.mp hsome
    have hbelow : Exposed t.root (i :: parent) := ⟨hexposed, np, hnp, hexp⟩
    simp only [expandImpl, ht, bind_eq_bind, bind_some, hu, hn]
    cases hopen : n.label.isExpanded with
    | true =>
      exact ⟨expanded, u, rfl, hwell', hgrows.trans hgrows', hbelow.extends hgrows'.root, n, hn,
        hopen⟩
    | false =>
      obtain ⟨v, hv, hwell'', hgrows'', n', hn', hloaded⟩ := loadIfNeeded_spec hwell' hn
      have hfinal := (hgrows'.trans hgrows'').trans (grows_setIsExpanded v (i :: parent))
      refine ⟨true, v.setIsExpanded (i :: parent) true, ?_, hwell''.setIsExpanded ?_,
        hgrows.trans hfinal, hbelow.extends hfinal.root,
        node { n'.label with isExpanded := true } n'.children, ?_, rfl⟩
      · simp only [Bool.false_eq_true, if_false, hv, bind_some]
      · rintro - k hk
        cases hn'.symm.trans hk
        exact hloaded
      · rw [setIsExpanded_nodeAt, hn']
        rfl

end ChromiumUI.Views.TreeView
