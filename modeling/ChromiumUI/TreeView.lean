import Mathlib.Tactic.Common

/-!
# The rows of a TreeView

InternalNodes with their expansion, and the three ways in which TreeView goes through the nodes
that it draws: counting upwards, counting down to a row, and painting a range of rows.
-/
namespace ChromiumUI.Views

/-- An InternalNode: is_expanded_ and its children. -/
inductive InternalNode where
  | node (isExpanded : Bool) (children : List InternalNode)

/-- Where a node is: its index in its parent, then where the parent is. The root is `[]`. -/
abbrev Place := List Nat

namespace InternalNode

def isExpanded : InternalNode → Bool
  | node isExpanded _ => isExpanded

def children : InternalNode → List InternalNode
  | node _ children => children

mutual

def numExpandedNodes : InternalNode → Nat
  | node isExpanded children => if isExpanded then 1 + numExpandedChildren children else 1

/-- The sum over some children. -/
def numExpandedChildren : List InternalNode → Nat
  | [] => 0
  | child :: children => numExpandedNodes child + numExpandedChildren children

end

/-- The node at a place under the root. -/
def nodeAt (root : InternalNode) : Place → Option InternalNode
  | [] => some root
  | i :: parent => (root.nodeAt parent).bind fun node => node.children[i]?

mutual

/-- GetNodeByRowImpl for the node at `place`: the node found with its depth, and where
current_row stands. -/
def getNodeByRowImpl (targetRow : Int) :
    InternalNode → Place → Int → Int → Option (Place × Int) × Int
  | node isExpanded children, place, currentDepth, currentRow =>
    if currentRow = targetRow then (some (place, currentDepth), currentRow)
    else if isExpanded then
      getNodeByRowChildren targetRow children place 0 (currentDepth + 1) (currentRow + 1)
    else (none, currentRow + 1)

/-- The loop of GetNodeByRowImpl from child `i` on. -/
def getNodeByRowChildren (targetRow : Int) :
    List InternalNode → Place → Nat → Int → Int → Option (Place × Int) × Int
  | [], _, _, _, currentRow => (none, currentRow)
  | child :: children, place, i, currentDepth, currentRow =>
    match getNodeByRowImpl targetRow child (i :: place) currentDepth currentRow with
    | (some result, currentRow) => (some result, currentRow)
    | (none, currentRow) =>
      getNodeByRowChildren targetRow children place (i + 1) currentDepth currentRow

end

/-- A call of PaintRow. -/
structure PaintedRow where
  place : Place
  row : Int
  depth : Int
  deriving DecidableEq, Repr

mutual

/-- PaintRows for the node at `place`: the rows painted, and where row stands. -/
def paintRows (minRow maxRow : Int) : InternalNode → Place → Int → Int → List PaintedRow × Int
  | node isExpanded children, place, depth, row =>
    if row ≥ maxRow then ([], row)
    else
      let painted := if row ≥ minRow ∧ row < maxRow then [⟨place, row, depth⟩] else []
      if isExpanded then
        let (below, row) := paintRowsChildren minRow maxRow children place 0 (depth + 1) (row + 1)
        (painted ++ below, row)
      else (painted, row + 1)

/-- The loop of PaintRows from child `i` on. -/
def paintRowsChildren (minRow maxRow : Int) :
    List InternalNode → Place → Nat → Int → Int → List PaintedRow × Int
  | [], _, _, _, row => ([], row)
  | child :: children, place, i, depth, row =>
    if row < maxRow then
      let (painted, row) := paintRows minRow maxRow child (i :: place) depth row
      let (later, row) := paintRowsChildren minRow maxRow children place (i + 1) depth row
      (painted ++ later, row)
    else ([], row)

end

end InternalNode

open InternalNode

/-- What the rows depend on. -/
structure TreeView where
  root : InternalNode
  rootShown : Bool

namespace TreeView

def rootRow (v : TreeView) : Int := if v.rootShown then 0 else -1

def rootDepth (v : TreeView) : Int := if v.rootShown then 0 else -1

def getRowCount (v : TreeView) : Int :=
  if !v.rootShown then v.root.numExpandedNodes - 1 else v.root.numExpandedNodes

/-- The loop of GetRowForNode: the rows and the depth on the way up. -/
def rowsAbove (v : TreeView) : Place → Int → Int → Int × Int
  | [], row, depth => (row, depth)
  | i :: parent, row, depth =>
    let siblings := ((v.root.nodeAt parent).elim [] children).take i
    rowsAbove v parent (row + 1 + numExpandedChildren siblings) (depth + 1)

/-- GetRowForNode: the row and the depth. -/
def getRowForNode (v : TreeView) (place : Place) : Int × Int :=
  let (row, depth) := v.rowsAbove place (-1) (-1)
  if v.rootShown then (row + 1, depth + 1) else (row, depth)

/-- GetNodeByRow: the node and the depth, `none` for NULL. -/
def getNodeByRow (v : TreeView) (row : Int) : Option (Place × Int) :=
  (getNodeByRowImpl row v.root [] v.rootDepth v.rootRow).1

/-- The call of PaintRows in OnPaint, where 0 ≤ min_row. -/
def paintRows (v : TreeView) (minRow maxRow : Int) : List PaintedRow :=
  (v.root.paintRows minRow maxRow [] v.rootDepth v.rootRow).1

/-- The proper ancestors of a place are expanded. -/
def AncestorsExpanded (v : TreeView) (place : Place) : Prop :=
  ∀ parent, parent <:+ place → parent ≠ place →
    ∀ node ∈ v.root.nodeAt parent, node.isExpanded = true

/-- A node that is drawn: its proper ancestors are expanded, and the root counts only if shown. -/
def Visible (v : TreeView) (place : Place) : Prop :=
  (∃ node, v.root.nodeAt place = some node) ∧ v.AncestorsExpanded place ∧
    (place = [] → v.rootShown = true)

end TreeView

/-! ## All walks of a TreeView number the same rows

The nodes that are drawn are listed in pre-order with their depths. Counting down, painting and
counting up each come to the place of a node in that list. -/

namespace InternalNode

mutual

/-- The nodes that are drawn from the one at `place` on, with their depths. -/
def drawn : InternalNode → Place → Int → List (Place × Int)
  | node isExpanded children, place, depth =>
    (place, depth) :: if isExpanded then drawnChildren children place 0 (depth + 1) else []

def drawnChildren : List InternalNode → Place → Nat → Int → List (Place × Int)
  | [], _, _, _ => []
  | child :: children, place, i, depth =>
    drawn child (i :: place) depth ++ drawnChildren children place (i + 1) depth

end

mutual

theorem length_drawn (n : InternalNode) (place : Place) (depth : Int) :
    (n.drawn place depth).length = n.numExpandedNodes := by
  obtain ⟨isExpanded, children⟩ := n
  have ih := length_drawnChildren children place 0 (depth + 1)
  rw [drawn, numExpandedNodes, List.length_cons]
  split
  · rw [ih, Nat.add_comm]
  · rfl

theorem length_drawnChildren (children : List InternalNode) (place : Place) (i : Nat)
    (depth : Int) : (drawnChildren children place i depth).length =
      numExpandedChildren children := by
  cases children with
  | nil => rfl
  | cons child children =>
    rw [drawnChildren, numExpandedChildren, List.length_append, length_drawn child,
      length_drawnChildren children]

end

/-! ## Counting down to a row -/

mutual

/-- A row before or after those of a node is not found in it. -/
theorem getNodeByRowImpl_none {target : Int} (n : InternalNode) (place : Place) (depth row : Int)
    (h : target < row ∨ row + n.numExpandedNodes ≤ target) :
    getNodeByRowImpl target n place depth row = (none, row + n.numExpandedNodes) := by
  obtain ⟨isExpanded, children⟩ := n
  rw [numExpandedNodes] at h ⊢
  rw [getNodeByRowImpl, if_neg (by split at h <;> omega)]
  cases isExpanded with
  | true =>
    simp only [if_true] at h ⊢
    rw [getNodeByRowChildren_none children place 0 (depth + 1) (row + 1) (by omega)]
    congr 1
    omega
  | false => rfl

theorem getNodeByRowChildren_none {target : Int} (children : List InternalNode) (place : Place)
    (i : Nat) (depth row : Int) (h : target < row ∨ row + numExpandedChildren children ≤ target) :
    getNodeByRowChildren target children place i depth row =
      (none, row + numExpandedChildren children) := by
  cases children with
  | nil => simp [getNodeByRowChildren, numExpandedChildren]
  | cons child children =>
    rw [numExpandedChildren] at h ⊢
    rw [getNodeByRowChildren, getNodeByRowImpl_none child (i :: place) depth row (by omega)]
    dsimp only
    rw [getNodeByRowChildren_none children place (i + 1) depth _ (by omega)]
    congr 1
    omega

end

mutual

theorem getNodeByRowImpl_some (n : InternalNode) (place : Place) (depth row : Int) (k : Nat)
    (x : Place × Int) (h : (n.drawn place depth)[k]? = some x) :
    getNodeByRowImpl (row + k) n place depth row = (some x, row + k) := by
  obtain ⟨isExpanded, children⟩ := n
  rw [drawn] at h
  cases k with
  | zero =>
    cases h
    rw [getNodeByRowImpl, if_pos (by simp)]
    simp
  | succ k =>
    rw [List.getElem?_cons_succ] at h
    rw [getNodeByRowImpl, if_neg (by omega)]
    cases isExpanded with
    | true =>
      have := getNodeByRowChildren_some children place 0 (depth + 1) (row + 1) k x h
      rw [show row + 1 + (k : Int) = row + (k + 1 : Nat) by omega] at this
      exact this
    | false => simp at h

theorem getNodeByRowChildren_some (children : List InternalNode) (place : Place) (i : Nat)
    (depth row : Int) (k : Nat) (x : Place × Int)
    (h : (drawnChildren children place i depth)[k]? = some x) :
    getNodeByRowChildren (row + k) children place i depth row = (some x, row + k) := by
  cases children with
  | nil => simp [drawnChildren] at h
  | cons child children =>
    rw [drawnChildren] at h
    rw [getNodeByRowChildren]
    by_cases hk : k < child.numExpandedNodes
    · rw [List.getElem?_append_left (by rwa [length_drawn])] at h
      rw [getNodeByRowImpl_some child (i :: place) depth row k x h]
    · rw [List.getElem?_append_right (by rw [length_drawn]; omega), length_drawn] at h
      rw [getNodeByRowImpl_none child (i :: place) depth row (by omega)]
      have := getNodeByRowChildren_some children place (i + 1) depth
        (row + child.numExpandedNodes) (k - child.numExpandedNodes) x h
      rw [show row + (child.numExpandedNodes : Int) + (k - child.numExpandedNodes : Nat) =
        row + k by omega] at this
      exact this

end

/-! ## Painting -/

/-- The nodes with their rows, the first one at `row`. -/
def numbered : List (Place × Int) → Int → List PaintedRow
  | [], _ => []
  | (place, depth) :: rest, row => ⟨place, row, depth⟩ :: numbered rest (row + 1)

theorem numbered_append (l l' : List (Place × Int)) (row : Int) :
    numbered (l ++ l') row = numbered l row ++ numbered l' (row + l.length) := by
  induction l generalizing row with
  | nil => simp [numbered]
  | cons x l ih =>
    simp only [List.cons_append, numbered, ih, List.length_cons]
    rw [show row + 1 + (l.length : Int) = row + (l.length + 1 : Nat) by omega]

theorem mem_numbered {l : List (Place × Int)} {start row depth : Int} {place : Place} :
    ⟨place, row, depth⟩ ∈ numbered l start ↔
      ∃ k : Nat, row = start + k ∧ l[k]? = some (place, depth) := by
  induction l generalizing start with
  | nil => simp [numbered]
  | cons x l ih =>
    rw [numbered, List.mem_cons, ih]
    constructor
    · rintro (heq | ⟨k, hrow, hk⟩)
      · obtain ⟨rfl, rfl, rfl⟩ := PaintedRow.mk.inj heq
        exact ⟨0, by omega, rfl⟩
      · exact ⟨k + 1, by omega, hk⟩
    · rintro ⟨k, hrow, hk⟩
      cases k with
      | zero =>
        cases hk
        exact Or.inl (by rw [hrow]; simp)
      | succ k => exact Or.inr ⟨k, by omega, hk⟩

theorem numbered_sorted (l : List (Place × Int)) (start : Int) :
    (numbered l start).Pairwise fun x y => x.row < y.row := by
  induction l generalizing start with
  | nil => exact .nil
  | cons x l ih =>
    refine List.pairwise_cons.mpr ⟨?_, ih (start + 1)⟩
    rintro ⟨place, row, depth⟩ hy
    obtain ⟨k, rfl, -⟩ := mem_numbered.mp hy
    dsimp only
    omega

/-- The rows from `minRow` on and before `maxRow`. -/
def clipped (minRow maxRow : Int) (l : List PaintedRow) : List PaintedRow :=
  l.filter fun x => minRow ≤ x.row ∧ x.row < maxRow

theorem clipped_append (minRow maxRow : Int) (l l' : List PaintedRow) :
    clipped minRow maxRow (l ++ l') = clipped minRow maxRow l ++ clipped minRow maxRow l' :=
  List.filter_append l l'

theorem clipped_cons (minRow maxRow : Int) (x : PaintedRow) (l : List PaintedRow) :
    clipped minRow maxRow (x :: l) =
      (if x.row ≥ minRow ∧ x.row < maxRow then [x] else []) ++ clipped minRow maxRow l := by
  by_cases h : x.row ≥ minRow ∧ x.row < maxRow
  · rw [if_pos h, clipped, List.filter_cons_of_pos (by simpa using h)]
    rfl
  · rw [if_neg h, clipped, List.filter_cons_of_neg (by simpa using h)]
    rfl

theorem clipped_numbered_of_le {minRow maxRow row : Int} (l : List (Place × Int))
    (h : maxRow ≤ row) : clipped minRow maxRow (numbered l row) = [] := by
  induction l generalizing row with
  | nil => rfl
  | cons x l ih =>
    rw [numbered, clipped, List.filter_cons_of_neg (by simp; omega)]
    exact ih (by omega)

mutual

theorem paintRows_eq (minRow maxRow : Int) (n : InternalNode) (place : Place) (depth row : Int) :
    n.paintRows minRow maxRow place depth row =
      (clipped minRow maxRow (numbered (n.drawn place depth) row),
        max row (min maxRow (row + n.numExpandedNodes))) := by
  obtain ⟨isExpanded, children⟩ := n
  rw [paintRows]
  by_cases hrow : row ≥ maxRow
  · rw [if_pos hrow, clipped_numbered_of_le _ hrow]
    congr 1
    omega
  · rw [if_neg hrow, drawn, numbered, numExpandedNodes, clipped_cons]
    cases isExpanded with
    | true =>
      simp only [if_true]
      rw [paintRowsChildren_eq minRow maxRow children place 0 (depth + 1) (row + 1)]
      congr 1
      omega
    | false =>
      simp only [Bool.false_eq_true, if_false, numbered]
      congr 1
      · exact (List.append_nil _).symm
      · omega

theorem paintRowsChildren_eq (minRow maxRow : Int) (children : List InternalNode) (place : Place)
    (i : Nat) (depth row : Int) :
    paintRowsChildren minRow maxRow children place i depth row =
      (clipped minRow maxRow (numbered (drawnChildren children place i depth) row),
        max row (min maxRow (row + numExpandedChildren children))) := by
  cases children with
  | nil =>
    simp only [paintRowsChildren, drawnChildren, numbered, numExpandedChildren, clipped,
      List.filter_nil]
    congr 1
    omega
  | cons child children =>
    rw [paintRowsChildren, drawnChildren, numbered_append, clipped_append, length_drawn,
      numExpandedChildren]
    by_cases hrow : row < maxRow
    · rw [if_pos hrow, paintRows_eq minRow maxRow child (i :: place) depth row]
      dsimp only
      rw [paintRowsChildren_eq minRow maxRow children place (i + 1) depth]
      by_cases hend : row + child.numExpandedNodes ≤ maxRow
      · rw [show max row (min maxRow (row + (child.numExpandedNodes : Int))) =
          row + child.numExpandedNodes by omega]
        congr 1
        omega
      · -- the clip ends among the rows of this child
        rw [clipped_numbered_of_le (drawnChildren children place (i + 1) depth) (by omega),
          clipped_numbered_of_le (drawnChildren children place (i + 1) depth) (by omega)]
        congr 1
        omega
    · rw [if_neg hrow, clipped_numbered_of_le _ (by omega), clipped_numbered_of_le _ (by omega)]
      congr 1
      omega

end

/-! ## Children at an index -/

theorem numExpandedChildren_append (l l' : List InternalNode) :
    numExpandedChildren (l ++ l') = numExpandedChildren l + numExpandedChildren l' := by
  induction l with
  | nil => simp [numExpandedChildren]
  | cons child l ih =>
    rw [List.cons_append, numExpandedChildren, numExpandedChildren, ih]
    omega

theorem drawnChildren_append (l l' : List InternalNode) (place : Place) (i : Nat) (depth : Int) :
    drawnChildren (l ++ l') place i depth =
      drawnChildren l place i depth ++ drawnChildren l' place (i + l.length) depth := by
  induction l generalizing i with
  | nil => simp [drawnChildren]
  | cons child l ih =>
    rw [List.cons_append, drawnChildren, drawnChildren, ih, List.append_assoc, List.length_cons]
    rw [show i + 1 + l.length = i + (l.length + 1) by omega]

theorem children_split {children : List InternalNode} {i : Nat} {child : InternalNode}
    (h : children[i]? = some child) :
    children = children.take i ++ child :: children.drop (i + 1) := by
  obtain ⟨hlt, rfl⟩ := getElem?_eq_some_iff.mp h
  rw [← List.drop_eq_getElem_cons hlt, List.take_append_drop]

/-- The nodes drawn for a child stand together among those of its siblings. -/
theorem drawnChildren_split {children : List InternalNode} {i : Nat} {child : InternalNode}
    (h : children[i]? = some child) (place : Place) (depth : Int) :
    drawnChildren children place 0 depth = drawnChildren (children.take i) place 0 depth ++
      (child.drawn (i :: place) depth ++
        drawnChildren (children.drop (i + 1)) place (i + 1) depth) := by
  obtain ⟨hlt, -⟩ := getElem?_eq_some_iff.mp h
  have hlen : (children.take i).length = i := by
    rw [List.length_take]
    omega
  conv_lhs => rw [children_split h]
  rw [drawnChildren_append, hlen, Nat.zero_add, drawnChildren]

end InternalNode

open InternalNode List Int

namespace TreeView

variable {v : TreeView}

/-! ## Counting up -/

theorem ancestorsExpanded_nil (v : TreeView) : v.AncestorsExpanded [] := by
  intro parent hsuf hne
  exact absurd (suffix_nil.mp hsuf) hne

theorem ancestorsExpanded_cons {i : Nat} {parent : Place} :
    v.AncestorsExpanded (i :: parent) ↔ v.AncestorsExpanded parent ∧
      ∀ node ∈ v.root.nodeAt parent, node.isExpanded = true := by
  constructor
  · intro h
    refine ⟨fun above hsuf hne => ?_, fun node hnode => ?_⟩
    · refine h above (hsuf.trans (suffix_cons i parent)) ?_
      rintro rfl
      have := hsuf.length_le
      rw [length_cons] at this
      omega
    · refine h parent (suffix_cons i parent) ?_ node hnode
      simp
  · rintro ⟨habove, hpar⟩ above hsuf hne
    obtain rfl | hsuf := suffix_cons_iff.mp hsuf
    · exact absurd rfl hne
    · by_cases heq : above = parent
      · subst heq
        exact hpar
      · exact habove above hsuf heq

/-- The rows between the root and a node. -/
def rowsBefore (v : TreeView) : Place → Nat
  | [] => 0
  | i :: parent => rowsBefore v parent + 1 +
      numExpandedChildren (((v.root.nodeAt parent).elim [] children).take i)

theorem rowsAbove_eq (v : TreeView) (place : Place) (row depth : Int) :
    v.rowsAbove place row depth = (row + v.rowsBefore place, depth + place.length) := by
  induction place generalizing row depth with
  | nil => simp [rowsAbove, rowsBefore]
  | cons i parent ih =>
    rw [rowsAbove, ih, rowsBefore, length_cons]
    congr 1 <;> push_cast <;> omega

/-- GetRowForNode counts the rows before the node and the steps to it. -/
theorem getRowForNode_eq (v : TreeView) (place : Place) :
    v.getRowForNode place = (v.rootRow + v.rowsBefore place, v.rootDepth + place.length) := by
  rw [getRowForNode, rowsAbove_eq, rootRow, rootDepth]
  dsimp only
  split
  · congr 1 <;> omega
  · rfl

/-- The nodes drawn for a visible node stand together, behind as many as GetRowForNode counts. -/
theorem drawn_split {place : Place} {n : InternalNode} (hn : v.root.nodeAt place = some n)
    (hexp : v.AncestorsExpanded place) (depth : Int) :
    ∃ before after, v.root.drawn [] depth =
      before ++ (n.drawn place (depth + place.length) ++ after) ∧
      before.length = v.rowsBefore place := by
  induction place generalizing n with
  | nil =>
    cases hn
    exact ⟨[], [], by simp, rfl⟩
  | cons i parent ih =>
    obtain ⟨m, hm, hchild⟩ := Option.bind_eq_some_iff.mp hn
    obtain ⟨habove, hpar⟩ := ancestorsExpanded_cons.mp hexp
    obtain ⟨before, after, hdrawn, hlen⟩ := ih hm habove
    obtain ⟨isExpanded, cs⟩ := m
    obtain rfl : isExpanded = true := hpar _ hm
    replace hchild : cs[i]? = some n := hchild
    rw [drawn, if_pos rfl, drawnChildren_split hchild] at hdrawn
    refine ⟨before ++ (parent, depth + parent.length) ::
        drawnChildren (cs.take i) parent 0 (depth + parent.length + 1),
      drawnChildren (cs.drop (i + 1)) parent (i + 1) (depth + parent.length + 1) ++ after, ?_, ?_⟩
    · have hbelow : depth + ((parent.length + 1 : Nat) : Int) = depth + parent.length + 1 := by
        omega
      rw [hdrawn, length_cons, hbelow]
      simp only [append_assoc, cons_append]
    · rw [length_append, length_cons, length_drawnChildren, hlen, rowsBefore, hm]
      simp only [Option.elim_some, InternalNode.children]
      omega

/-- A place of a node whose proper ancestors are expanded. -/
def Reached (v : TreeView) (place : Place) : Prop :=
  (∃ node, v.root.nodeAt place = some node) ∧ v.AncestorsExpanded place

mutual

/-- Every node drawn has a place where GetRowForNode counts the rows that are before it. -/
theorem drawn_reached {n : InternalNode} {place : Place} (hn : v.root.nodeAt place = some n)
    (hexp : v.AncestorsExpanded place) (depth : Int) (k : Nat) (x : Place × Int)
    (hx : (n.drawn place depth)[k]? = some x) :
    v.Reached x.1 ∧ x.2 = depth + x.1.length - place.length ∧
      v.rowsBefore x.1 = v.rowsBefore place + k := by
  obtain ⟨isExpanded, cs⟩ := n
  rw [drawn] at hx
  cases k with
  | zero =>
    cases hx
    refine ⟨⟨⟨_, hn⟩, hexp⟩, ?_, rfl⟩
    dsimp only
    omega
  | succ k =>
    rw [getElem?_cons_succ] at hx
    cases isExpanded with
    | false => simp at hx
    | true =>
      obtain ⟨hreached, hdepth, hrows⟩ := drawnChildren_reached cs hn hexp 0 rfl (depth + 1) k x hx
      refine ⟨hreached, by omega, ?_⟩
      rw [hrows, take_zero, numExpandedChildren]
      omega

theorem drawnChildren_reached (children : List InternalNode) {cs : List InternalNode}
    {place : Place} (hn : v.root.nodeAt place = some (node true cs))
    (hexp : v.AncestorsExpanded place) (i : Nat) (hchildren : cs.drop i = children)
    (depth : Int) (k : Nat) (x : Place × Int)
    (hx : (drawnChildren children place i depth)[k]? = some x) :
    v.Reached x.1 ∧ x.2 = depth + x.1.length - (place.length + 1) ∧
      v.rowsBefore x.1 = v.rowsBefore place + 1 + numExpandedChildren (cs.take i) + k := by
  cases children with
  | nil => simp [drawnChildren] at hx
  | cons child children =>
    have hchild : cs[i]? = some child := by
      rw [← Nat.add_zero i, ← getElem?_drop, hchildren]
      rfl
    rw [drawnChildren] at hx
    by_cases hk : k < child.numExpandedNodes
    · rw [getElem?_append_left (by rwa [length_drawn])] at hx
      have hplace : v.root.nodeAt (i :: place) = some child := by
        rw [nodeAt, hn]
        exact hchild
      have habove : v.AncestorsExpanded (i :: place) := by
        refine ancestorsExpanded_cons.mpr ⟨hexp, ?_⟩
        rw [hn]
        rintro _ ⟨⟩
        rfl
      obtain ⟨hreached, hdepth, hrows⟩ := drawn_reached hplace habove depth k x hx
      refine ⟨hreached, ?_, ?_⟩
      · rw [hdepth, length_cons]
        omega
      · rw [hrows, rowsBefore, hn]
        rfl
    · rw [getElem?_append_right (by rw [length_drawn]; omega), length_drawn] at hx
      have hrest : cs.drop (i + 1) = children := by
        rw [← tail_drop, hchildren]
        rfl
      obtain ⟨hreached, hdepth, hrows⟩ := drawnChildren_reached children hn hexp (i + 1) hrest
        depth (k - child.numExpandedNodes) x hx
      refine ⟨hreached, hdepth, ?_⟩
      have htake : cs.take (i + 1) = cs.take i ++ [child] := by
        rw [take_add_one, hchild]
        rfl
      rw [hrows, htake, numExpandedChildren_append, numExpandedChildren, numExpandedChildren]
      omega

end

/-! ## The rows of the view -/

/-- The nodes of the rows from 0 on, with their depths. -/
def rows (v : TreeView) : List (Place × Int) :=
  if v.rootShown then v.root.drawn [] 0 else (v.root.drawn [] (-1)).tail

theorem drawn_root_eq (v : TreeView) : v.root.drawn [] v.rootDepth =
    (if v.rootShown then [] else [([], -1)]) ++ v.rows := by
  rw [rootDepth, rows]
  split
  · rfl
  · obtain ⟨isExpanded, children⟩ := v.root
    rfl

theorem length_rows (v : TreeView) : (v.rows.length : Int) = v.getRowCount := by
  have h := congrArg length v.drawn_root_eq
  rw [length_drawn, length_append] at h
  rw [getRowCount]
  cases hshown : v.rootShown <;>
    simp only [hshown, Bool.not_false, Bool.not_true, if_true, Bool.false_eq_true, if_false,
      length_nil, length_singleton] at h ⊢ <;> omega

/-- The list behind the row of the root. -/
theorem rows_getElem? (v : TreeView) (k : Nat) :
    v.rows[k]? = (v.root.drawn [] v.rootDepth)[((k : Int) - v.rootRow).toNat]? := by
  rw [drawn_root_eq, rootRow]
  cases hshown : v.rootShown
  · simp
  · simp

theorem getNodeByRow_eq (v : TreeView) (k : Nat) : v.getNodeByRow k = v.rows[k]? := by
  have hroot : 0 ≤ (k : Int) - v.rootRow := by
    rw [rootRow]
    split <;> omega
  rw [rows_getElem?, getNodeByRow]
  cases hx : (v.root.drawn [] v.rootDepth)[((k : Int) - v.rootRow).toNat]? with
  | some x =>
    have hfound := getNodeByRowImpl_some v.root [] v.rootDepth v.rootRow _ x hx
    rw [toNat_of_nonneg hroot, show v.rootRow + ((k : Int) - v.rootRow) = k by omega] at hfound
    rw [hfound]
  | none =>
    rw [getElem?_eq_none_iff, length_drawn] at hx
    rw [getNodeByRowImpl_none v.root [] v.rootDepth v.rootRow (by omega)]

/-- The places of the rows are those of the visible nodes. -/
theorem rows_visible {k : Nat} {x : Place × Int} (hx : v.rows[k]? = some x) :
    v.Visible x.1 ∧ v.getRowForNode x.1 = ((k : Int), x.2) := by
  have hroot : 0 ≤ (k : Int) - v.rootRow ∧ (v.rootShown = false → (k : Int) - v.rootRow ≠ 0) := by
    rw [rootRow]
    cases v.rootShown <;> simp
    omega
  rw [rows_getElem?] at hx
  obtain ⟨hreached, hdepth, hrows⟩ :=
    drawn_reached rfl (ancestorsExpanded_nil v) v.rootDepth _ x hx
  have hrow : v.rootRow + v.rowsBefore x.1 = k := by
    rw [hrows, rowsBefore]
    omega
  refine ⟨⟨hreached.1, hreached.2, fun hplace => ?_⟩, ?_⟩
  · by_contra hhidden
    rw [hplace] at hrow
    have := hroot.2 (by simpa using hhidden)
    simp only [rowsBefore] at hrow
    omega
  · rw [getRowForNode_eq, hrow, hdepth, length_nil]
    congr 1
    omega

theorem visible_rows {place : Place} (h : v.Visible place) :
    ∃ k : Nat, v.getRowForNode place = ((k : Int), v.rootDepth + place.length) ∧
      v.rows[k]? = some (place, v.rootDepth + place.length) := by
  obtain ⟨⟨n, hn⟩, hexp, hshown⟩ := h
  obtain ⟨before, after, hdrawn, hlen⟩ := drawn_split hn hexp v.rootDepth
  have hrow : 0 ≤ v.rootRow + v.rowsBefore place := by
    rw [rootRow]
    split
    · omega
    · cases place with
      | nil => exact absurd (hshown rfl) ‹_›
      | cons i parent =>
        rw [rowsBefore]
        omega
  refine ⟨(v.rootRow + v.rowsBefore place).toNat, ?_, ?_⟩
  · rw [getRowForNode_eq, toNat_of_nonneg hrow]
  · rw [rows_getElem?, toNat_of_nonneg hrow, hdrawn,
      show (v.rootRow + (v.rowsBefore place : Int) - v.rootRow).toNat = before.length by omega]
    obtain ⟨isExpanded, cs⟩ := n
    rw [getElem?_append_right (Nat.le_refl _), Nat.sub_self, drawn]
    rfl

theorem paintRows_rows (v : TreeView) {minRow : Int} (hmin : 0 ≤ minRow) (maxRow : Int) :
    v.paintRows minRow maxRow = clipped minRow maxRow (numbered v.rows 0) := by
  rw [paintRows, paintRows_eq, drawn_root_eq, rootRow]
  cases v.rootShown
  · simp only [Bool.false_eq_true, if_false, singleton_append, numbered]
    rw [clipped_cons, if_neg (by dsimp only; omega)]
    rfl
  · rfl

/-! ## The three walks -/

/-- GetRowForNode and GetNodeByRow are inverse between the visible nodes and the rows, with one
depth, and PaintRows paints the nodes of the rows of its range in order, each once. -/
theorem walks_agree (v : TreeView) :
    (∀ place, v.Visible place → 0 ≤ (v.getRowForNode place).1 ∧
      (v.getRowForNode place).1 < v.getRowCount ∧
      v.getNodeByRow (v.getRowForNode place).1 = some (place, (v.getRowForNode place).2)) ∧
    (∀ row, 0 ≤ row → row < v.getRowCount → ∃ place depth, v.getNodeByRow row = some (place, depth) ∧
      v.Visible place ∧ v.getRowForNode place = (row, depth)) ∧
    (∀ row, v.getRowCount ≤ row → v.getNodeByRow row = none) ∧
    ∀ minRow maxRow, 0 ≤ minRow →
      ((v.paintRows minRow maxRow).Pairwise fun x y => x.row < y.row) ∧
      ∀ place row depth, ⟨place, row, depth⟩ ∈ v.paintRows minRow maxRow ↔
        minRow ≤ row ∧ row < maxRow ∧ row < v.getRowCount ∧
          v.getNodeByRow row = some (place, depth) := by
  refine ⟨fun place h => ?_, fun row hrow hlt => ?_, fun row hle => ?_, fun minRow maxRow hmin => ?_⟩
  · obtain ⟨k, hrow, hk⟩ := visible_rows h
    obtain ⟨hlt, -⟩ := List.getElem?_eq_some_iff.mp hk
    have := v.length_rows
    rw [hrow]
    exact ⟨by omega, by dsimp only; omega, (getNodeByRow_eq v k).trans hk⟩
  · obtain ⟨k, rfl⟩ := eq_ofNat_of_zero_le hrow
    have hk : k < v.rows.length := by
      have := v.length_rows
      omega
    have hx := getElem?_eq_getElem hk
    obtain ⟨hvisible, heq⟩ := rows_visible hx
    exact ⟨_, _, (getNodeByRow_eq v k).trans hx, hvisible, heq⟩
  · have := v.length_rows
    obtain ⟨k, rfl⟩ := eq_ofNat_of_zero_le (show 0 ≤ row by omega)
    rw [getNodeByRow_eq, List.getElem?_eq_none_iff]
    omega
  · rw [paintRows_rows v hmin]
    refine ⟨(numbered_sorted v.rows 0).filter _, fun place row depth => ?_⟩
    rw [clipped, mem_filter, mem_numbered]
    constructor
    · rintro ⟨⟨k, rfl, hk⟩, hclip⟩
      obtain ⟨hlt, -⟩ := List.getElem?_eq_some_iff.mp hk
      have := v.length_rows
      rw [Int.zero_add] at hclip ⊢
      rw [getNodeByRow_eq]
      simp only [decide_eq_true_eq] at hclip
      exact ⟨hclip.1, hclip.2, by omega, hk⟩
    · rintro ⟨hge, hlt, -, hrow⟩
      obtain ⟨k, rfl⟩ := Int.eq_ofNat_of_zero_le (Int.le_trans hmin hge)
      rw [getNodeByRow_eq] at hrow
      exact ⟨⟨k, by omega, hrow⟩, by simpa using ⟨hge, hlt⟩⟩

end TreeView

end ChromiumUI.Views
