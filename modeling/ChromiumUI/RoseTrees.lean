import Mathlib.Data.List.Nodup
import Mathlib.Data.List.Infix

/-!
# Rose trees

A node is found by its place: its index in its parent, then where the parent is. `update` changes
the node at a place, `placeOf` looks for a node by its label.
-/
namespace ChromiumUI.Trees

open List Option

variable {α β : Type}

inductive Rose (α : Type) where
  | node (label : α) (children : List (Rose α))

variable {t n : Rose α} {p : List Nat} {f : Rose α → Rose α} {cs : List (Rose α)}

namespace Rose

def label : Rose α → α
  | node label _ => label

def children : Rose α → List (Rose α)
  | node _ children => children

@[simp] theorem label_node (a : α) (cs : List (Rose α)) : (node a cs).label = a := rfl

@[simp] theorem children_node (a : α) (cs : List (Rose α)) : (node a cs).children = cs := rfl

/-- The node at a place. -/
def nodeAt (t : Rose α) : List Nat → Option (Rose α)
  | [] => some t
  | i :: parent => (t.nodeAt parent).bind fun n => n.children[i]?

@[simp] theorem nodeAt_nil (t : Rose α) : t.nodeAt [] = some t := rfl

theorem nodeAt_cons (t : Rose α) (i : Nat) (parent : List Nat) :
    t.nodeAt (i :: parent) = (t.nodeAt parent).bind fun n => n.children[i]? := rfl

theorem nodeAt_cons_some {i : Nat} {parent : List Nat} :
    t.nodeAt (i :: parent) = some n ↔ ∃ m, t.nodeAt parent = some m ∧ m.children[i]? = some n :=
  bind_eq_some_iff

theorem nodeAt_append (t : Rose α) (r p : List Nat) :
    t.nodeAt (r ++ p) = (t.nodeAt p).bind fun n => n.nodeAt r := by
  induction r with
  | nil =>
    rw [nil_append]
    cases t.nodeAt p <;> rfl
  | cons i r ih =>
    rw [cons_append, nodeAt_cons, ih, bind_assoc]
    rfl

/-- From the root down instead of from the node up. -/
theorem nodeAt_concat (t : Rose α) (r : List Nat) (i : Nat) :
    t.nodeAt (r ++ [i]) = t.children[i]?.bind fun c => c.nodeAt r :=
  nodeAt_append t r [i]

/-- Change the node at a place. -/
def update (t : Rose α) : List Nat → (Rose α → Rose α) → Rose α
  | [], f => f t
  | i :: parent, f => t.update parent fun n => node n.label (n.children.modify i f)

theorem nodeAt_update (t : Rose α) (p : List Nat) (f : Rose α → Rose α) :
    (t.update p f).nodeAt p = (t.nodeAt p).map f := by
  induction p generalizing f with
  | nil => rfl
  | cons i parent ih =>
    rw [update, nodeAt_cons, ih, nodeAt_cons]
    cases t.nodeAt parent with
    | none => rfl
    | some n => simp

theorem update_update (t : Rose α) (p : List Nat) (f g : Rose α → Rose α) :
    (t.update p f).update p g = t.update p fun n => g (f n) := by
  induction p generalizing f g with
  | nil => rfl
  | cons i parent ih =>
    rw [update, update, ih, update]
    simp only [label_node, children_node, modify_modify_eq]
    rfl

theorem update_congr {g : Rose α → Rose α} (h : ∀ n, t.nodeAt p = some n → f n = g n) :
    t.update p f = t.update p g := by
  induction p generalizing f g with
  | nil => exact h t rfl
  | cons i parent ih =>
    rw [update, update]
    refine ih fun n hn => ?_
    have hmodify : n.children.modify i f = n.children.modify i g := by
      refine ext_getElem? fun j => ?_
      rw [getElem?_modify, getElem?_modify]
      by_cases hj : i = j
      · subst hj
        cases hc : n.children[i]? with
        | none => rfl
        | some c =>
          have := h c (nodeAt_cons_some.mpr ⟨n, hn, hc⟩)
          simp [this]
      · simp [hj]
    rw [hmodify]

/-- What a change of a node keeps of its label holds of the label of the root. -/
theorem label_update {P : α → Prop} (h : P t.label) (hf : ∀ n, P n.label → P (f n).label) :
    P (t.update p f).label := by
  induction p generalizing f with
  | nil => exact hf t h
  | cons i parent ih => exact ih fun n hn => hn

theorem update_id (t : Rose α) (p : List Nat) : t.update p (fun n => n) = t := by
  induction p with
  | nil => rfl
  | cons i parent ih =>
    have hsame (n : Rose α) : node n.label (n.children.modify i fun c => c) = n := by
      obtain ⟨label, children⟩ := n
      rw [label_node, children_node]
      exact congrArg _ (modify_id i children)
    rw [update]
    simp only [hsame]
    exact ih

/-! ## The labels of a tree -/

mutual

/-- The labels in pre-order. -/
def labels : Rose α → List α
  | node label children => label :: labelsIn children

def labelsIn : List (Rose α) → List α
  | [] => []
  | c :: cs => labels c ++ labelsIn cs

end

theorem labels_eq (t : Rose α) : t.labels = t.label :: labelsIn t.children := by
  cases t
  rfl

theorem labelsIn_append (l l' : List (Rose α)) :
    labelsIn (l ++ l') = labelsIn l ++ labelsIn l' := by
  induction l with
  | nil => rfl
  | cons c l ih => rw [cons_append, labelsIn, ih, labelsIn, append_assoc]

theorem children_split {i : Nat} {c : Rose α} (h : cs[i]? = some c) :
    cs = cs.take i ++ c :: cs.drop (i + 1) := by
  obtain ⟨hlt, rfl⟩ := List.getElem?_eq_some_iff.mp h
  rw [← drop_eq_getElem_cons hlt, take_append_drop]

theorem modify_split {i : Nat} {c : Rose α} (h : cs[i]? = some c) (f : Rose α → Rose α) :
    cs.modify i f = cs.take i ++ f c :: cs.drop (i + 1) := by
  obtain ⟨hlt, rfl⟩ := List.getElem?_eq_some_iff.mp h
  exact modify_eq_take_cons_drop hlt

/-- The labels of a node stand together, and only they change when the node does. -/
theorem labels_update (hn : t.nodeAt p = some n) :
    ∃ before after, t.labels = before ++ (n.labels ++ after) ∧
      ∀ f, (t.update p f).labels = before ++ ((f n).labels ++ after) := by
  induction p generalizing n with
  | nil =>
    cases hn
    exact ⟨[], [], by simp, fun f => by simp [update]⟩
  | cons i parent ih =>
    obtain ⟨m, hm, hc⟩ := nodeAt_cons_some.mp hn
    obtain ⟨before, after, hlabels, hupdate⟩ := ih hm
    refine ⟨before ++ m.label :: labelsIn (m.children.take i),
      labelsIn (m.children.drop (i + 1)) ++ after, ?_, fun f => ?_⟩
    · have hsplit : labelsIn m.children = labelsIn (m.children.take i) ++
          (n.labels ++ labelsIn (m.children.drop (i + 1))) := by
        rw [← labelsIn, ← labelsIn_append, ← children_split hc]
      rw [hlabels, labels_eq m, hsplit]
      simp only [cons_append, append_assoc]
    · rw [update, hupdate, labels, modify_split hc, labelsIn_append, labelsIn]
      simp only [cons_append, append_assoc]

/-- The keys below the children that a change takes away are gone. -/
theorem keys_removed {key : α → β} {l₁ l₂ l₃ : List (Rose α)} (hn : t.nodeAt p = some n)
    (hchild : n.children = l₁ ++ l₂ ++ l₃) (hf : f n = node n.label (l₁ ++ l₃)) :
    (t.labels.map key).Perm ((labelsIn l₂).map key ++ (t.update p f).labels.map key) := by
  obtain ⟨before, after, hlabels, hupdate⟩ := labels_update hn
  rw [hlabels, hupdate, hf, labels_eq n, hchild, labels, ← map_append]
  refine Perm.map key ?_
  have hfront : before ++ (n.label :: labelsIn (l₁ ++ l₂ ++ l₃) ++ after) =
      (before ++ n.label :: labelsIn l₁) ++ (labelsIn l₂ ++ (labelsIn l₃ ++ after)) := by
    simp [labelsIn_append]
  have hback : before ++ (n.label :: labelsIn (l₁ ++ l₃) ++ after) =
      (before ++ n.label :: labelsIn l₁) ++ (labelsIn l₃ ++ after) := by
    simp [labelsIn_append]
  rw [hfront, hback]
  exact perm_append_comm_assoc _ _ _

/-- The keys that a change of a node brings are those that it brings to the tree. -/
theorem keys_update {t n : Rose α} {p : List Nat} {f : Rose α → Rose α} {key : α → β} {new : List β}
    (hn : t.nodeAt p = some n) (hf : ((f n).labels.map key).Perm (new ++ n.labels.map key)) :
    ((t.update p f).labels.map key).Perm (new ++ t.labels.map key) := by
  obtain ⟨before, after, hlabels, hupdate⟩ := labels_update hn
  rw [hlabels, hupdate]
  simp only [map_append]
  refine ((hf.append_right _).append_left _).trans ?_
  rw [append_assoc, ← append_assoc, ← append_assoc new]
  exact perm_append_comm.append_right _

theorem sublist_update (hn : t.nodeAt p = some n) (hf : (f n).labels.Sublist n.labels) :
    (t.update p f).labels.Sublist t.labels := by
  obtain ⟨before, after, hlabels, hupdate⟩ := labels_update hn
  rw [hlabels, hupdate]
  exact (hf.append_right _).append_left _

theorem update_of_nodeAt_none (f : Rose α → Rose α) (h : t.nodeAt p = none) : t.update p f = t := by
  refine (update_congr fun n hn => ?_).trans (t.update_id p)
  rw [h] at hn
  cases hn

theorem mem_labelsIn_iff {a : α} : a ∈ labelsIn cs ↔ ∃ c ∈ cs, a ∈ c.labels := by
  induction cs with
  | nil => simp [labelsIn]
  | cons c cs ih => simp [labelsIn, ih]

theorem mem_labelsIn {cs : List (Rose α)} {i : Nat} {c : Rose α} (h : cs[i]? = some c) {a : α}
    (ha : a ∈ c.labels) : a ∈ labelsIn cs := by
  rw [children_split h, labelsIn_append, labelsIn]
  exact mem_append_right _ (mem_append_left _ ha)

theorem label_mem_labels (t : Rose α) : t.label ∈ t.labels := by
  rw [labels_eq]
  exact mem_cons_self

theorem mem_labels_of_nodeAt (hn : t.nodeAt p = some n) {a : α} (ha : a ∈ n.labels) :
    a ∈ t.labels := by
  obtain ⟨before, after, hlabels, -⟩ := labels_update hn
  rw [hlabels]
  exact mem_append_right _ (mem_append_left _ ha)

/-- Where no two nodes have the same key, a node has one place. -/
theorem place_unique {n' : Rose α} {p' : List Nat} {key : α → β} (hnodup : (t.labels.map key).Nodup)
    (hn : t.nodeAt p = some n) (hn' : t.nodeAt p' = some n') (hkey : key n.label = key n'.label) :
    p = p' := by
  have key_mem {c m : Rose α} {q : List Nat} (h : c.nodeAt q = some m) :
      key m.label ∈ c.labels.map key :=
    mem_map_of_mem (mem_labels_of_nodeAt h (label_mem_labels m))
  have below {t m : Rose α} {q : List Nat} {i : Nat} (hnodup : (t.labels.map key).Nodup)
      (hm : t.nodeAt (q ++ [i]) = some m) : key m.label ≠ key t.label := by
    rw [nodeAt_concat] at hm
    obtain ⟨c, hc, hm⟩ := bind_eq_some_iff.mp hm
    rw [labels_eq, map_cons, nodup_cons] at hnodup
    intro h
    refine hnodup.1 (h ▸ ?_)
    obtain ⟨a, ha, hkey⟩ := mem_map.mp (key_mem hm)
    exact hkey ▸ mem_map_of_mem (mem_labelsIn hc ha)
  induction p using reverseRecOn generalizing t p' with
  | nil =>
    cases hn
    induction p' using reverseRecOn with
    | nil => rfl
    | append_singleton q i => exact absurd hkey.symm (below hnodup hn')
  | append_singleton p i ih =>
    induction p' using reverseRecOn with
    | nil =>
      cases hn'
      exact absurd hkey (below hnodup hn)
    | append_singleton q j =>
      rw [nodeAt_concat] at hn hn'
      obtain ⟨c, hc, hn⟩ := bind_eq_some_iff.mp hn
      obtain ⟨d, hd, hn'⟩ := bind_eq_some_iff.mp hn'
      rw [labels_eq, map_cons, nodup_cons] at hnodup
      have hin := hnodup.2
      rcases Nat.lt_trichotomy i j with hij | rfl | hij
      · rw [children_split hd, labelsIn_append, labelsIn, map_append, map_append,
          nodup_append] at hin
        obtain ⟨a, ha, hka⟩ := mem_map.mp (key_mem hn)
        have hmem : key n.label ∈ (labelsIn (t.children.take j)).map key := by
          refine hka ▸ mem_map_of_mem (@mem_labelsIn _ _ i c ?_ a ha)
          rw [getElem?_take_of_lt hij, hc]
        exact absurd hkey (hin.2.2 _ hmem _ (mem_append_left _ (key_mem hn')))
      · cases hc.symm.trans hd
        rw [children_split hc, labelsIn_append, labelsIn, map_append, map_append] at hin
        rw [ih (hin.of_append_right.of_append_left) hn hn']
      · rw [children_split hc, labelsIn_append, labelsIn, map_append, map_append,
          nodup_append] at hin
        obtain ⟨a, ha, hka⟩ := mem_map.mp (key_mem hn')
        have hmem : key n'.label ∈ (labelsIn (t.children.take i)).map key := by
          refine hka ▸ mem_map_of_mem (@mem_labelsIn _ _ j d ?_ a ha)
          rw [getElem?_take_of_lt hij, hd]
        exact absurd hkey.symm (hin.2.2 _ hmem _ (mem_append_left _ (key_mem hn)))

/-! ## Looking for a label -/

mutual

/-- The place of the first node with the property, in pre-order, for the tree at `place`. -/
def find (p : α → Bool) : Rose α → List Nat → Option (List Nat)
  | node label children, place => if p label then some place else findIn p children place 0

/-- The same among the children from `i` on. -/
def findIn (p : α → Bool) : List (Rose α) → List Nat → Nat → Option (List Nat)
  | [], _, _ => none
  | c :: cs, place, i =>
    match find p c (i :: place) with
    | some found => some found
    | none => findIn p cs place (i + 1)

end

def placeOf (t : Rose α) (p : α → Bool) : Option (List Nat) := t.find p []

mutual

theorem find_some {p : α → Bool} (t : Rose α) {place found : List Nat}
    (h : t.find p place = some found) :
    ∃ r n, found = r ++ place ∧ t.nodeAt r = some n ∧ p n.label = true := by
  obtain ⟨label, children⟩ := t
  rw [find] at h
  split at h
  · rename_i hp
    exact ⟨[], _, (some.inj h).symm, rfl, hp⟩
  · obtain ⟨k, c, r, n, hc, hfound, hn, hp⟩ := findIn_some children h
    refine ⟨r ++ [k], n, by simp [hfound], ?_, hp⟩
    rw [nodeAt_concat, children_node, hc]
    exact hn

theorem findIn_some {p : α → Bool} (cs : List (Rose α)) {place found : List Nat} {i : Nat}
    (h : findIn p cs place i = some found) :
    ∃ k c r n, cs[k]? = some c ∧ found = r ++ (i + k) :: place ∧ c.nodeAt r = some n ∧
      p n.label = true := by
  cases cs with
  | nil => cases h
  | cons c cs =>
    rw [findIn] at h
    split at h
    · rename_i hc
      obtain ⟨r, n, hfound, hn, hp⟩ := find_some c hc
      exact ⟨0, c, r, n, rfl, (some.inj h) ▸ hfound, hn, hp⟩
    · obtain ⟨k, d, r, n, hd, hfound, hn, hp⟩ := findIn_some cs h
      refine ⟨k + 1, d, r, n, hd, ?_, hn, hp⟩
      rw [hfound, Nat.add_right_comm, Nat.add_assoc]

end

mutual

theorem find_none {p : α → Bool} (t : Rose α) {place : List Nat} (h : t.find p place = none) :
    ∀ a ∈ t.labels, p a = false := by
  obtain ⟨label, children⟩ := t
  rw [find] at h
  split at h
  · cases h
  · rename_i hp
    intro a ha
    rw [labels] at ha
    rcases mem_cons.mp ha with rfl | ha
    · exact Bool.not_eq_true _ ▸ hp
    · exact findIn_none children h a ha

theorem findIn_none {p : α → Bool} (cs : List (Rose α)) {place : List Nat} {i : Nat}
    (h : findIn p cs place i = none) : ∀ a ∈ labelsIn cs, p a = false := by
  cases cs with
  | nil => exact fun a ha => absurd ha not_mem_nil
  | cons c cs =>
    rw [findIn] at h
    split at h
    · cases h
    · rename_i hc
      intro a ha
      rw [labelsIn] at ha
      rcases mem_append.mp ha with ha | ha
      · exact find_none c hc a ha
      · exact findIn_none cs h a ha

end

theorem placeOf_some {p : α → Bool} {place : List Nat} (h : t.placeOf p = some place) :
    ∃ n, t.nodeAt place = some n ∧ p n.label = true := by
  obtain ⟨r, n, rfl, hn, hp⟩ := find_some t h
  exact ⟨n, by rwa [append_nil], hp⟩

theorem placeOf_none {p : α → Bool} (h : t.placeOf p = none) : ∀ a ∈ t.labels, p a = false :=
  find_none t h

theorem nodeAt_of_mem_labels {a : α} (h : a ∈ t.labels) :
    ∃ place n, t.nodeAt place = some n ∧ n.label = a := by
  classical
  cases hfound : t.placeOf fun x => decide (x = a) with
  | none =>
    have := placeOf_none hfound a h
    simp at this
  | some place =>
    obtain ⟨n, hn, hlabel⟩ := placeOf_some hfound
    exact ⟨place, n, hn, of_decide_eq_true hlabel⟩

/-- A node is found by its key where keys are distinct. -/
theorem placeOf_key [DecidableEq β] {t n : Rose α} {place : List Nat} {key : α → β}
    (hnodup : (t.labels.map key).Nodup) (hn : t.nodeAt place = some n) :
    t.placeOf (fun a => key a == key n.label) = some place := by
  cases h : t.placeOf fun a => key a == key n.label with
  | none =>
    have := placeOf_none h n.label (mem_labels_of_nodeAt hn (label_mem_labels n))
    simp at this
  | some found =>
    obtain ⟨m, hm, hkey⟩ := placeOf_some h
    rw [place_unique hnodup hm hn (beq_iff_eq.mp hkey)]

end Rose

end ChromiumUI.Trees
