import Mathlib
import ChromiumUI.RoseTrees
import ChromiumUI.Fuel

/-!
# TreeNodeIterator

A stack of positions, each with the index of the child to be visited next. First the tours of a
tree, then the iterator.
-/
namespace ChromiumUI.Trees.Rose

variable {α : Type}

mutual

/-- A node and its descendants in pre-order, each with the nodes above it, innermost first. -/
def pathsOf (above : List (Rose α)) : Rose α → List (List (Rose α))
  | node a cs => (node a cs :: above) :: pathsIn (node a cs :: above) cs

def pathsIn (above : List (Rose α)) : List (Rose α) → List (List (Rose α))
  | [] => []
  | c :: cs => pathsOf above c ++ pathsIn above cs

end

/-- The proper descendants in pre-order. -/
def descendants (t : Rose α) : List (List (Rose α)) := pathsIn [] t.children

mutual

/-- A node and what is left of its descendants. -/
def kept (p : Rose α → Bool) : Rose α → List (Rose α)
  | node a cs => node a cs :: keptIn p cs

/-- What is left of some nodes and their descendants when those that satisfy `p` are taken out,
with all that is below them. -/
def keptIn (p : Rose α → Bool) : List (Rose α) → List (Rose α)
  | [] => []
  | c :: cs => if p c then keptIn p cs else kept p c ++ keptIn p cs

end

theorem kept_eq (p : Rose α → Bool) (t : Rose α) : t.kept p = t :: keptIn p t.children := by
  cases t
  rw [kept, children_node]

mutual

theorem suffix_of_mem_pathsOf {above path : List (Rose α)} (t : Rose α)
    (h : path ∈ pathsOf above t) : above <:+ path := by
  cases t with
  | node a cs =>
    rw [pathsOf, List.mem_cons] at h
    obtain rfl | h := h
    · exact List.suffix_cons _ _
    · exact (List.suffix_cons _ _).trans (suffix_of_mem_pathsIn cs h)

theorem suffix_of_mem_pathsIn {above path : List (Rose α)} (cs : List (Rose α))
    (h : path ∈ pathsIn above cs) : above <:+ path := by
  cases cs with
  | nil => cases h
  | cons c cs =>
    rw [pathsIn, List.mem_append] at h
    obtain h | h := h
    · exact suffix_of_mem_pathsOf c h
    · exact suffix_of_mem_pathsIn cs h

end

/-- The paths on which no node satisfies `p`. -/
def freePaths (p : Rose α → Bool) (paths : List (List (Rose α))) : List (List (Rose α)) :=
  paths.filter fun path => path.all fun n => !p n

/-- Below a node that satisfies `p` every path has it. -/
theorem freePaths_of_pruned {p : Rose α → Bool} {above : List (Rose α)} {t : Rose α}
    (h : p t = true) : freePaths p (pathsOf above t) = [] := by
  refine List.filter_eq_nil_iff.mpr fun path hpath hfree => ?_
  have hmem : t ∈ path := by
    cases t with
    | node a cs =>
      rw [pathsOf, List.mem_cons] at hpath
      obtain rfl | hpath := hpath
      · exact List.mem_cons_self
      · exact (suffix_of_mem_pathsIn cs hpath).subset List.mem_cons_self
  have hnot := List.all_eq_true.mp hfree t hmem
  rw [h] at hnot
  cases hnot

mutual

theorem kept_eq_freePaths {p : Rose α → Bool} {above : List (Rose α)}
    (habove : ∀ n ∈ above, p n = false) (t : Rose α) (ht : p t = false) :
    t.kept p = (freePaths p (pathsOf above t)).filterMap List.head? := by
  cases t with
  | node a cs =>
    have hall : ∀ n ∈ node a cs :: above, p n = false := List.forall_mem_cons.mpr ⟨ht, habove⟩
    have hfree : ((node a cs :: above).all fun n => !p n) = true := by
      rw [List.all_eq_true]
      intro n hn
      rw [hall n hn]
      rfl
    have hcons : freePaths p ((node a cs :: above) :: pathsIn (node a cs :: above) cs) =
        (node a cs :: above) :: freePaths p (pathsIn (node a cs :: above) cs) :=
      List.filter_cons_of_pos hfree
    rw [kept, keptIn_eq_freePaths hall cs, pathsOf, hcons]
    rfl

theorem keptIn_eq_freePaths {p : Rose α → Bool} {above : List (Rose α)}
    (habove : ∀ n ∈ above, p n = false) (cs : List (Rose α)) :
    keptIn p cs = (freePaths p (pathsIn above cs)).filterMap List.head? := by
  cases cs with
  | nil => rfl
  | cons c cs =>
    have hsplit : freePaths p (pathsIn above (c :: cs)) =
        freePaths p (pathsOf above c) ++ freePaths p (pathsIn above cs) := by
      rw [pathsIn, freePaths, List.filter_append]
      rfl
    rw [keptIn, hsplit, List.filterMap_append, keptIn_eq_freePaths habove cs]
    cases hc : p c with
    | true =>
      rw [freePaths_of_pruned hc]
      rfl
    | false =>
      rw [kept_eq_freePaths habove c hc]
      rfl

end

mutual

/-- A tour names each node once: with distinct labels, none comes twice. -/
theorem labels_kept (p : Rose α → Bool) (t : Rose α) : ((t.kept p).map label).Sublist t.labels := by
  cases t with
  | node a cs =>
    rw [kept, labels_eq, List.map_cons]
    exact (labels_keptIn p cs).cons_cons a

theorem labels_keptIn (p : Rose α → Bool) (cs : List (Rose α)) :
    ((keptIn p cs).map label).Sublist (labelsIn cs) := by
  cases cs with
  | nil => exact List.Sublist.refl _
  | cons c cs =>
    rw [keptIn, labelsIn]
    split
    · exact (labels_keptIn p cs).trans (List.sublist_append_right _ _)
    · rw [List.map_append]
      exact (labels_kept p c).append (labels_keptIn p cs)

end

end ChromiumUI.Trees.Rose

namespace ChromiumUI.Ui

open Trees Fuel List

variable {α : Type}

/-- TreeNodeIterator's Position. -/
structure Position (α : Type) where
  node : Rose α
  index : Nat

/-- The iterator: the top of the stack is the head of the list. -/
structure TreeNodeIterator (α : Type) where
  positions : List (Position α)
  prune : Option (Rose α → Bool)

namespace TreeNodeIterator

/-- prune_ && prune_(node). -/
def pruned (prune : Option (Rose α → Bool)) (node : Rose α) : Bool := prune.any fun p => p node

/-- The constructor that takes a filter. -/
def ofFilter (node : Rose α) (prune : Option (Rose α → Bool)) : TreeNodeIterator α :=
  -- forward to the first child that is not pruned
  let index := node.children.findIdx fun child => !pruned prune child
  ⟨if index < node.children.length then [⟨node, index⟩] else [], prune⟩

/-- The constructor without one. -/
def ofNode (node : Rose α) : TreeNodeIterator α :=
  ⟨if node.children.isEmpty then [] else [⟨node, 0⟩], none⟩

def hasNext (it : TreeNodeIterator α) : Bool := !it.positions.isEmpty

/-- The turns that the loop of Next has left at most. -/
def work (positions : List (Position α)) : Nat :=
  (positions.map fun p => p.node.children.length - p.index + 1).sum

/-- The loop of Next: past pruned nodes and positions that are all processed. -/
def advance (prune : Option (Rose α → Bool)) : List (Position α) → List (Position α)
  | [] => []
  | top :: below =>
    if h : top.index < top.node.children.length then
      if pruned prune top.node.children[top.index] then
        advance prune (⟨top.node, top.index + 1⟩ :: below)
      else top :: below
    else advance prune below
  termination_by positions => work positions
  decreasing_by all_goals simp only [work, map_cons, sum_cons]; omega

/-- Next: nothing behind the last node, or a stack without a node at its top. -/
def next (it : TreeNodeIterator α) : Option (Rose α × TreeNodeIterator α) :=
  match it.positions with
  | [] => none
  | top :: below =>
    (top.node.children[top.index]?).map fun result =>
      (result, { it with
        positions := advance it.prune (⟨result, 0⟩ :: ⟨top.node, top.index + 1⟩ :: below) })

/-- Next until has_next is false. -/
def drain : Nat → TreeNodeIterator α → Option (List (Rose α))
  | 0, _ => none
  | fuel + 1, it =>
    if it.hasNext then it.next.bind fun (result, it) => (drain fuel it).map (result :: ·)
    else some []

/-! ## What is still to come -/

/-- The nodes that are left of a stack. -/
def left (prune : Option (Rose α → Bool)) (positions : List (Position α)) : List (Rose α) :=
  positions.flatMap fun p => Rose.keptIn (pruned prune) (p.node.children.drop p.index)

/-- The invariant of the iterator: the position at the top points to a node that is returned. -/
def Ready (prune : Option (Rose α → Bool)) : List (Position α) → Prop
  | [] => True
  | top :: _ => ∃ child, top.node.children[top.index]? = some child ∧ pruned prune child = false

theorem left_top {prune : Option (Rose α → Bool)} {top : Position α} {below : List (Position α)}
    {child : Rose α} (h : top.node.children[top.index]? = some child) :
    left prune (top :: below) =
      (if pruned prune child then [] else child.kept (pruned prune)) ++
        left prune (⟨top.node, top.index + 1⟩ :: below) := by
  obtain ⟨hlt, hchild⟩ := List.getElem?_eq_some_iff.mp h
  have hdrop : top.node.children.drop top.index = child :: top.node.children.drop (top.index + 1) := by
    rw [drop_eq_getElem_cons hlt, hchild]
  simp only [left, flatMap_cons, hdrop, Rose.keptIn]
  split <;> simp

theorem left_processed {prune : Option (Rose α → Bool)} {top : Position α}
    {below : List (Position α)} (h : ¬top.index < top.node.children.length) :
    left prune (top :: below) = left prune below := by
  have hdrop : top.node.children.drop top.index = [] := drop_of_length_le (by omega)
  rw [left, flatMap_cons, hdrop]
  rfl

/-- The loop leaves what is to come as it is, and ends with the invariant. -/
theorem advance_spec (prune : Option (Rose α → Bool)) (positions : List (Position α)) :
    left prune (advance prune positions) = left prune positions ∧
      Ready prune (advance prune positions) := by
  fun_induction advance prune positions with
  | case1 => exact ⟨rfl, trivial⟩
  | case2 top below hlt hpruned ih =>
    have hchild : top.node.children[top.index]? = some top.node.children[top.index] :=
      getElem?_eq_getElem hlt
    rw [left_top hchild, if_pos hpruned]
    exact ih
  | case3 top below hlt hpruned =>
    exact ⟨rfl, top.node.children[top.index], getElem?_eq_getElem hlt,
      Bool.eq_false_iff.mpr hpruned⟩
  | case4 top below hlt ih =>
    rw [left_processed hlt]
    exact ih

/-- Next returns the first of the nodes to come and leaves the others. -/
theorem next_spec {it : TreeNodeIterator α} (h : Ready it.prune it.positions)
    (hnext : it.hasNext = true) :
    ∃ result it', it.next = some (result, it') ∧ it'.prune = it.prune ∧
      Ready it'.prune it'.positions ∧
      left it.prune it.positions = result :: left it'.prune it'.positions := by
  obtain ⟨positions, prune⟩ := it
  cases positions with
  | nil => cases hnext
  | cons top below =>
    obtain ⟨child, hchild, hpruned⟩ := h
    obtain ⟨hleft, hready⟩ :=
      advance_spec prune (⟨child, 0⟩ :: ⟨top.node, top.index + 1⟩ :: below)
    have hres : next ⟨top :: below, prune⟩ = some (child,
        ⟨advance prune (⟨child, 0⟩ :: ⟨top.node, top.index + 1⟩ :: below), prune⟩) := by
      rw [next]
      dsimp only at hchild ⊢
      rw [hchild]
      rfl
    refine ⟨child, _, hres, rfl, hready, ?_⟩
    have hchildren : left prune (⟨child, 0⟩ :: ⟨top.node, top.index + 1⟩ :: below) =
        Rose.keptIn (pruned prune) child.children ++
          left prune (⟨top.node, top.index + 1⟩ :: below) := rfl
    rw [hleft, left_top hchild, hpruned, if_neg Bool.false_ne_true, Rose.kept_eq, hchildren]
    rfl

/-- An iterator with the invariant returns all that is to come, and ends. -/
theorem drain_computes {it : TreeNodeIterator α} (h : Ready it.prune it.positions) :
    Computes (fun fuel => drain fuel it) (left it.prune it.positions) := by
  generalize hnodes : left it.prune it.positions = nodes
  induction nodes generalizing it with
  | nil =>
    have hempty : it.hasNext = false := by
      by_contra hnext
      obtain ⟨_, _, -, -, -, hleft⟩ := next_spec h (Bool.not_eq_false _ ▸ hnext)
      rw [hnodes] at hleft
      cases hleft
    refine ⟨1, fun fuel hfuel => ?_⟩
    obtain _ | fuel := fuel
    · omega
    dsimp only
    rw [drain, hempty, if_neg Bool.false_ne_true]
  | cons first nodes ih =>
    have hnext : it.hasNext = true := by
      by_contra hempty
      have hpositions : it.positions = [] := by
        simpa [hasNext] using hempty
      rw [hpositions] at hnodes
      cases hnodes
    obtain ⟨result, it', hres, -, hready, hleft⟩ := next_spec h hnext
    rw [hnodes] at hleft
    obtain ⟨rfl, hrest⟩ := cons.inj hleft
    refine ((ih hready hrest.symm).map (first :: ·)).succ fun fuel => ?_
    rw [drain, hnext, if_pos rfl, hres]
    rfl

theorem ofFilter_ready (node : Rose α) (prune : Option (Rose α → Bool)) :
    Ready prune (ofFilter node prune).positions ∧
      left prune (ofFilter node prune).positions = Rose.keptIn (pruned prune) node.children := by
  have hskip (cs : List (Rose α)) : Rose.keptIn (pruned prune)
      (cs.drop (cs.findIdx fun child => !pruned prune child)) = Rose.keptIn (pruned prune) cs := by
    induction cs with
    | nil => rfl
    | cons c cs ih =>
      rw [findIdx_cons]
      cases hc : pruned prune c with
      | true =>
        rw [Rose.keptIn, hc, if_pos rfl]
        exact ih
      | false => rfl
  unfold ofFilter
  dsimp only
  split
  · rename_i hlt
    refine ⟨⟨_, getElem?_eq_getElem hlt, ?_⟩, ?_⟩
    · have hfound := findIdx_getElem (w := hlt)
      simpa using hfound
    · rw [left, flatMap_cons, flatMap_nil, append_nil]
      exact hskip node.children
  · rename_i hge
    refine ⟨trivial, ?_⟩
    rw [← hskip, drop_of_length_le (by omega)]
    rfl

theorem ofNode_eq (node : Rose α) : ofNode node = ofFilter node none := by
  have hfirst : node.children.findIdx (fun child => !pruned none child) = 0 := by
    cases node.children <;> rfl
  rw [ofNode, ofFilter, hfirst]
  cases node.children <;> rfl

/-- Next until has_next is false: it ends, with the proper descendants in pre-order that are not
pruned and have no pruned node above them, each once. -/
theorem iterator_visits (node : Rose α) (prune : Option (Rose α → Bool)) :
    ∃ nodes, Computes (fun fuel => drain fuel (ofFilter node prune)) nodes ∧
      (prune = none → Computes (fun fuel => drain fuel (ofNode node)) nodes) ∧
      nodes = (node.descendants.filter fun path =>
        path.all fun n => !pruned prune n).filterMap head? ∧
      (nodes.map Rose.label).Sublist (Rose.labelsIn node.children) := by
  obtain ⟨hready, hleft⟩ := ofFilter_ready node prune
  have hdrain := drain_computes hready
  have hnodes : left (ofFilter node prune).prune (ofFilter node prune).positions =
      Rose.keptIn (pruned prune) node.children := hleft
  rw [hnodes] at hdrain
  refine ⟨_, hdrain, fun hnone => ?_,
    Rose.keptIn_eq_freePaths (fun n hn => absurd hn not_mem_nil) node.children,
    Rose.labels_keptIn _ _⟩
  rw [ofNode_eq, ← hnone]
  exact hdrain

end TreeNodeIterator

end ChromiumUI.Ui
