import ChromiumUI.ForestDescent
import ChromiumUI.Fuel
import ChromiumUI.Runs

/-!
# TreeNode

children_ and parent_ of all nodes. Add takes the node from its parent before it inserts it at the
index that it was given.
-/
namespace ChromiumUI.Ui.TreeNode

open Forests Runs Fuel List Function

inductive Op (ι : Type)
  | add (receiver node : ι) (index : Nat)
  | remove (receiver node : ι)
  | removeAll (receiver : ι)

variable {ι : Type} {s t : Forest ι} {receiver node : ι} {index : Nat} {op : Op ι}

/-- TreeNode(): no parent and no children. -/
def fresh : Forest ι := ⟨fun _ => [], fun _ => none⟩

def childCount (s : Forest ι) (node : ι) : Nat := (s.children node).length

/-- GetTotalNodeCount. -/
def getTotalNodeCount (s : Forest ι) : Nat → ι → Option Nat
  | 0, _ => none
  | fuel + 1, node =>
    (s.children node).foldlM (fun count child => (getTotalNodeCount s fuel child).map (count + ·)) 1

structure Inv (s : Forest ι) : Prop where
  agrees : s.Agrees
  grounded : s.Grounded

theorem inv_fresh : Inv (fresh : Forest ι) where
  agrees := ⟨fun _ _ => ⟨fun h => absurd h not_mem_nil, nofun⟩, fun _ => nodup_nil⟩
  grounded := ⟨fun _ => ⟨_, fun _ h => absurd h not_mem_nil⟩⟩

/-- GetTotalNodeCount ends, with the number of the nodes under the root. -/
theorem Inv.counts (h : Inv s) (root : ι) : ∃ nodes, s.Census root nodes ∧
    Computes (fun fuel => getTotalNodeCount s fuel root) nodes.length := by
  induction root using h.grounded.induction with
  | h root ih =>
    choose! nodes hcensus hcount using ih
    refine ⟨_, h.agrees.census h.grounded hcensus, ?_⟩
    have hloop (cs : List ι) (hcs : ∀ c ∈ cs, c ∈ s.children root) (count : Nat) :
        Computes (fun fuel => cs.foldlM
          (fun count child => (getTotalNodeCount s fuel child).map (count + ·)) count)
          (count + (cs.flatMap nodes).length) := by
      induction cs generalizing count with
      | nil => exact Computes.pure count
      | cons c cs ih =>
        obtain ⟨hc, hcs⟩ := forall_mem_cons.mp hcs
        have hfirst := (hcount c hc).map (count + ·)
        have hrest := ih hcs (count + (nodes c).length)
        rw [flatMap_cons, length_append, ← Nat.add_assoc]
        exact hfirst.bind (g := fun fuel count => cs.foldlM
          (fun count child => (getTotalNodeCount s fuel child).map (count + ·)) count) hrest
    have hall := hloop (s.children root) (fun _ hc => hc) 1
    rw [length_cons, Nat.add_comm]
    exact hall.succ fun fuel => rfl

theorem not_under_fresh {n m : ι} (hne : n ≠ m) : ¬(fresh : Forest ι).Under n m := by
  rw [Forest.under_iff]
  rintro (h | ⟨c, hc, -⟩)
  · exact hne h
  · exact absurd hc not_mem_nil

variable [DecidableEq ι]

/-! ## Operations -/

/-- Remove: the first of the children that is the node is erased; there has to be one. -/
def remove (s : Forest ι) (receiver node : ι) : Option (Forest ι) :=
  if node ∈ s.children receiver then some (s.remove receiver node) else none

/-- Add: children_->begin() + index has to be in the list, or its end. -/
def add (s : Forest ι) (receiver node : ι) (index : Nat) : Option (Forest ι) :=
  let removed := match s.parent node with
    | some parent => remove s parent node
    | none => some s
  removed.bind fun s =>
    if index ≤ childCount s receiver then some (s.insertAt receiver node index) else none

def removeAll (s : Forest ι) (receiver : ι) : Forest ι where
  children := update s.children receiver []
  parent := fun c => if c ∈ s.children receiver then none else s.parent c

def step (s : Forest ι) : Op ι → Option (Forest ι)
  | .add receiver node index => add s receiver node index
  | .remove receiver node => remove s receiver node
  | .removeAll receiver => some (removeAll s receiver)

/-- What the callers see to: an index up to the number of children, no node under itself, and
children are removed only where they are. -/
def Allowed (s : Forest ι) : Op ι → Prop
  | .add receiver node index => index ≤ childCount s receiver ∧ ¬s.Under receiver node
  | .remove receiver node => node ∈ s.children receiver
  | .removeAll _ => True

/-- A child is added to its own parent again, at the end. -/
def PastEnd (s : Forest ι) : Op ι → Prop
  | .add receiver node index => s.parent node = some receiver ∧ index = childCount s receiver
  | _ => False

section

variable (h : Inv s)
include h

theorem remove_of_mem (hmem : node ∈ s.children receiver) :
    remove s receiver node = some (s.detach node) := by
  rw [remove, if_pos hmem, Forest.remove_eq ((h.agrees.mem receiver node).mp hmem)]

/-- Add takes the node out of the forest, and then needs its place in the list. -/
theorem add_eq : add s receiver node index =
    if index ≤ ((s.children receiver).erase node).length then
      some ((s.detach node).insertAt receiver node index)
    else none := by
  have hremoved : (match s.parent node with
      | some parent => remove s parent node
      | none => some s) = some (s.detach node) := by
    cases hpar : s.parent node with
    | none => rw [Forest.detach_of_none hpar]
    | some parent => exact remove_of_mem h ((h.agrees.mem parent node).mpr hpar)
  rw [add, hremoved, Option.bind_some, childCount, h.agrees.detach_children]

/-- The place is in the list unless the node is one of the receiver's own and goes to the end. -/
theorem index_le_iff (hindex : index ≤ childCount s receiver) :
    index ≤ ((s.children receiver).erase node).length ↔
      ¬PastEnd s (.add receiver node index) := by
  unfold childCount at hindex
  unfold PastEnd childCount
  dsimp only
  by_cases hmem : node ∈ s.children receiver
  · have hpos := length_pos_of_mem hmem
    rw [length_erase_of_mem hmem, ← h.agrees.mem]
    constructor
    · intro hle hpast
      omega
    · intro hnot
      have hne : index ≠ (s.children receiver).length := fun heq => hnot ⟨hmem, heq⟩
      omega
  · rw [erase_of_not_mem hmem, ← h.agrees.mem]
    exact iff_of_true hindex fun hpast => hmem hpast.1

/-- An operation that the callers may call is performed unless it inserts past the end. -/
theorem step_iff (hallow : Allowed s op) : (∃ t, step s op = some t) ↔ ¬PastEnd s op := by
  cases op with
  | add receiver node index =>
    rw [← index_le_iff h hallow.1, step, add_eq h]
    constructor
    · rintro ⟨t, ht⟩
      by_contra hgt
      rw [if_neg hgt] at ht
      cases ht
    · intro hle
      exact ⟨_, if_pos hle⟩
  | remove receiver node => exact iff_of_true ⟨_, remove_of_mem h hallow⟩ not_false
  | removeAll receiver => exact iff_of_true ⟨_, rfl⟩ not_false

theorem detach_children_subset (q : ι) : (s.detach node).children q ⊆ s.children q := by
  rw [h.agrees.detach_children]
  exact erase_subset

theorem Inv.detach (node : ι) : Inv (s.detach node) :=
  ⟨h.agrees.detach node, h.grounded.mono fun q => detach_children_subset h q⟩

end

theorem insertAt_children (F : Forest ι) (p c q : ι) (i : Nat) :
    (F.insertAt p c i).children q =
      if q = p then (F.children p).insertIdx i c else F.children q := by
  show update F.children p _ q = _
  rw [update_apply]

/-- The lists after Add. -/
theorem add_children (h : Inv s) (hadd : add s receiver node index = some t) (q : ι) :
    t.children q = if q = receiver then ((s.children receiver).erase node).insertIdx index node
      else (s.children q).erase node := by
  rw [add_eq h] at hadd
  split at hadd
  · cases hadd
    rw [insertAt_children, h.agrees.detach_children, h.agrees.detach_children]
  · cases hadd

theorem add_parent (h : Inv s) (hadd : add s receiver node index = some t) :
    t.parent = update s.parent node (some receiver) := by
  rw [add_eq h] at hadd
  split at hadd
  · cases hadd
    show update (s.detach node).parent node _ = _
    rw [Forest.detach_parent, update_idem]
  · cases hadd

theorem index_le_of_add (h : Inv s) (hadd : add s receiver node index = some t) :
    index ≤ ((s.children receiver).erase node).length := by
  rw [add_eq h] at hadd
  split at hadd
  · assumption
  · cases hadd

theorem Inv.add (h : Inv s) (hnot : ¬s.Under receiver node)
    (hadd : add s receiver node index = some t) : Inv t := by
  have hindex := index_le_of_add h hadd
  have hmem (q m : ι) : m ∈ t.children q ↔
      (m = node ∧ q = receiver) ∨ (m ≠ node ∧ m ∈ s.children q) := by
    rw [add_children h hadd]
    split
    · rename_i hq
      subst hq
      rw [mem_insertIdx hindex, (h.agrees.nodup q).mem_erase_iff]
      simp
    · rename_i hq
      rw [(h.agrees.nodup q).mem_erase_iff]
      simp [hq]
  refine ⟨⟨fun q m => ?_, fun q => ?_⟩, ?_⟩
  · rw [hmem, add_parent h hadd, update_apply, h.agrees.mem]
    by_cases hm : m = node
    · simp [hm, eq_comm]
    · simp [hm]
  · rw [add_children h hadd]
    split
    · rw [(perm_insertIdx node _ hindex).nodup_iff]
      exact nodup_cons.mpr ⟨fun hin => ((h.agrees.nodup receiver).mem_erase_iff.mp hin).1 rfl,
        (h.agrees.nodup receiver).erase node⟩
    · exact (h.agrees.nodup q).erase node
  · refine h.grounded.add_child hnot fun q m hm => ?_
    obtain ⟨hm, hq⟩ | ⟨-, hm⟩ := (hmem q m).mp hm
    · exact Or.inr ⟨hq, hm⟩
    · exact Or.inl hm

theorem removeAll_children (s : Forest ι) (receiver q : ι) :
    (removeAll s receiver).children q = if q = receiver then [] else s.children q := by
  show update s.children receiver [] q = _
  rw [update_apply]

theorem Inv.removeAll (h : Inv s) (receiver : ι) : Inv (removeAll s receiver) := by
  refine ⟨⟨fun q m => ?_, fun q => ?_⟩, h.grounded.mono fun q => ?_⟩
  · rw [removeAll_children]
    show m ∈ _ ↔ (if m ∈ s.children receiver then none else s.parent m) = some q
    by_cases hm : m ∈ s.children receiver
    · have hpar := (h.agrees.mem receiver m).mp hm
      rw [if_pos hm]
      refine iff_of_false (fun hin => ?_) nofun
      split at hin
      · cases hin
      · rename_i hq
        rw [h.agrees.mem, hpar] at hin
        exact hq (Option.some.inj hin).symm
    · rw [if_neg hm, ← h.agrees.mem]
      split
      · rename_i hq
        rw [hq]
        exact iff_of_false not_mem_nil hm
      · exact Iff.rfl
  · rw [removeAll_children]
    split
    · exact nodup_nil
    · exact h.agrees.nodup q
  · rw [removeAll_children]
    split
    · exact nil_subset _
    · exact Subset.refl _

theorem Inv.step (h : Inv s) (hallow : Allowed s op) (hstep : step s op = some t) : Inv t := by
  cases op with
  | add receiver node index => exact h.add hallow.2 hstep
  | remove receiver node =>
    have hremove := remove_of_mem h hallow
    rw [show TreeNode.step s (.remove receiver node) = _ from hremove] at hstep
    cases hstep
    exact h.detach node
  | removeAll receiver =>
    cases hstep
    exact h.removeAll receiver

/-! ## Runs -/

/-- What holds of a state, whatever is called in it. -/
structure Sound (s : Forest ι) : Prop where
  parent : ∀ p n, s.parent n = some p ↔ n ∈ s.children p
  once : ∀ p n, n ∈ s.children p → (s.children p).count n = 1
  performed : ∀ op, Allowed s op → ((∃ t, step s op = some t) ↔ ¬PastEnd s op)
  added : ∀ receiver node index t, Allowed s (.add receiver node index) →
    step s (.add receiver node index) = some t →
      (t.children receiver)[index]? = some node ∧
        ∀ q, (t.children q).erase node = (s.children q).erase node
  total : ∀ root, ∃ nodes, s.Census root nodes ∧
    Computes (fun fuel => getTotalNodeCount s fuel root) nodes.length

theorem erase_insertIdx {l : List ι} (hnot : node ∉ l) (hindex : index ≤ l.length) :
    (l.insertIdx index node).erase node = l := by
  rw [← take_append_drop index l] at hnot ⊢
  have hlen : (l.take index).length = index := length_take_of_le hindex
  have hinsert := Slots.insertIdx_append (l.take index) (l.drop index) node
  rw [hlen] at hinsert
  rw [hinsert, erase_append_right _ fun h => hnot (mem_append_left _ h),
    erase_cons_head]

theorem Inv.sound (h : Inv s) : Sound s where
  parent p n := (h.agrees.mem p n).symm
  once p _ hn := count_eq_one_of_mem (h.agrees.nodup p) hn
  performed _ hallow := step_iff h hallow
  added receiver node index t _ hstep := by
    have hindex := index_le_of_add h hstep
    have hnot (q : ι) : node ∉ (s.children q).erase node := fun hmem =>
      ((h.agrees.nodup q).mem_erase_iff.mp hmem).1 rfl
    constructor
    · rw [add_children h hstep, if_pos rfl]
      exact getElem?_insertIdx_self.trans (if_pos hindex)
    · intro q
      rw [add_children h hstep]
      split
      · rename_i hq
        rw [hq, erase_insertIdx (hnot receiver) hindex]
      · exact erase_of_not_mem (hnot q)
  total root := h.counts root

/-- Every operation is one that the callers may call and does not insert past the end. -/
def Meets (s : Forest ι) : List (Op ι) → Prop
  | [] => True
  | op :: ops => (Allowed s op ∧ ¬PastEnd s op) ∧ ∀ t, step s op = some t → Meets t ops

theorem run_of_meets (h : Inv s) {ops : List (Op ι)} (hops : Meets s ops) :
    ∃ t, run step ops s = some t ∧ Inv t := by
  induction ops generalizing s with
  | nil => exact ⟨s, rfl, h⟩
  | cons op ops ih =>
    obtain ⟨⟨hallow, hend⟩, hrest⟩ := hops
    obtain ⟨t, ht⟩ := (step_iff h hallow).mpr hend
    obtain ⟨u, hrun, hu⟩ := ih (h.step hallow ht) (hrest t ht)
    refine ⟨u, ?_, hu⟩
    rw [run_cons, ht]
    exact hrun

/-- In every run in which no child is added to its own parent again at the end, pointers and lists
agree, Add puts the node where it is told and leaves the others in order, and the count is that of
the nodes under the root; only such an Add inserts past the end. -/
theorem tree_nodes_sound (ops : List (Op ι)) (hops : Meets fresh ops) :
    ∃ s, run step ops fresh = some s ∧ Sound s := by
  obtain ⟨s, hrun, hs⟩ := run_of_meets inv_fresh hops
  exact ⟨s, hrun, hs.sound⟩

/-- A node with one child. -/
theorem tree_nodes_sound_pair :
    ∃ s, run step [Op.add 0 1 0] (fresh : Forest Nat) = some s ∧ Sound s :=
  tree_nodes_sound _ ⟨⟨⟨Nat.le_refl 0, not_under_fresh (by decide)⟩, by rintro ⟨h, -⟩; cases h⟩,
    fun _ _ => trivial⟩

/-- The only child of a node added to it again, at index 1. -/
theorem add_inserts_past_end :
    ∃ s, run step [Op.add 0 1 0] (fresh : Forest Nat) = some s ∧
      Allowed s (.add 0 1 1) ∧ step s (.add 0 1 1) = none := by
  refine ⟨(fresh : Forest Nat).insertAt 0 1 0, rfl, ⟨Nat.le_refl 1, ?_⟩, rfl⟩
  have hone : ((fresh : Forest Nat).insertAt 0 1 0).children 1 = [] := rfl
  rw [Forest.under_iff, hone]
  rintro (h | ⟨c, hc, -⟩)
  · cases h
  · exact absurd hc not_mem_nil

end ChromiumUI.Ui.TreeNode
