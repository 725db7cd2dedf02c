import ChromiumUI.Slots
import Mathlib.Data.List.Nodup
import Mathlib.Data.List.Perm.Basic

/-!
# Ordered forests

Nodes with a list of children and a pointer to their parent, kept in two places. First how an item
of a list is moved beside another one.
-/
namespace ChromiumUI.Forests

open List Function

variable {ι κ : Type} [DecidableEq ι] [DecidableEq κ]

/-! ## Moving an item beside another -/

/-- Put `a` after `b`, or before it. -/
def insertBeside (above : Bool) (a b : ι) : List ι → List ι
  | [] => []
  | x :: l =>
    if x = b then (if above then b :: a :: l else a :: b :: l) else x :: insertBeside above a b l

def moveBeside (above : Bool) (a b : ι) (l : List ι) : List ι :=
  insertBeside above a b (l.erase a)

theorem insertIdx_append_cons {α : Type} (l l' : List α) (a b : α) :
    (l ++ b :: l').insertIdx (l.length + 1) a = l ++ b :: a :: l' := by
  have h := Slots.insertIdx_append (l ++ [b]) l' a
  rwa [length_append, length_singleton, append_assoc, append_assoc,
    singleton_append, singleton_append] at h

variable {above : Bool} {a b : ι} {l : List ι}

theorem insertBeside_append {l' : List ι} (hb : b ∉ l) :
    insertBeside above a b (l ++ b :: l') =
      l ++ if above then b :: a :: l' else a :: b :: l' := by
  induction l with
  | nil => simp [insertBeside]
  | cons x l ih =>
    have hx : x ≠ b := fun h => hb (h ▸ mem_cons_self)
    rw [cons_append, insertBeside, if_neg hx, ih fun h => hb (mem_cons_of_mem _ h)]
    rfl

theorem insertBeside_perm (hb : b ∈ l) : (insertBeside above a b l).Perm (a :: l) := by
  induction l with
  | nil => cases hb
  | cons x l ih =>
    rw [insertBeside]
    split
    · rename_i hx
      subst hx
      cases above with
      | true => exact Perm.swap a x l
      | false => exact .refl _
    · rename_i hx
      have hmem : b ∈ l := (mem_cons.mp hb).resolve_left fun h => hx h.symm
      exact ((ih hmem).cons x).trans (Perm.swap a x l)

theorem moveBeside_perm (ha : a ∈ l) (hb : b ∈ l) (hne : a ≠ b) : (moveBeside above a b l).Perm l :=
  (insertBeside_perm ((mem_erase_of_ne hne.symm).mpr hb)).trans (perm_cons_erase ha).symm

/-- Where an item is to go by its index and that of the item it goes beside, once it is taken
out. -/
def destination (above : Bool) (i j : Nat) : Nat :=
  if above then (if i < j then j else j + 1) else (if i < j then j - 1 else j)

/-- Whether the item is there already. -/
def inPlace (above : Bool) (i j : Nat) : Bool :=
  above && i == j + 1 || !above && i + 1 == j

theorem idxOf_split {a : ι} {l l' : List ι} (ha : a ∉ l) : (l ++ a :: l').idxOf a = l.length := by
  rw [idxOf_append_of_notMem ha, idxOf_cons_self, Nat.add_zero]

/-- Moving by indices is moving beside. -/
theorem moveBeside_eq (hnodup : l.Nodup) (ha : a ∈ l) (hb : b ∈ l) (hne : a ≠ b) :
    moveBeside above a b l = if inPlace above (l.idxOf a) (l.idxOf b) then l else
      (l.eraseIdx (l.idxOf a)).insertIdx (destination above (l.idxOf a) (l.idxOf b)) a := by
  obtain ⟨front, back, rfl⟩ := append_of_mem ha
  rw [nodup_append] at hnodup
  obtain ⟨hfront, hback, hdisj⟩ := hnodup
  have hafront : a ∉ front := fun h => hdisj a h a mem_cons_self rfl
  have herase : (front ++ a :: back).erase a = front ++ back := by
    rw [erase_append_right _ hafront, erase_cons_head]
  have heraseIdx : (front ++ a :: back).eraseIdx front.length = front ++ back := by
    rw [eraseIdx_append_of_length_le (Nat.le_refl _), Nat.sub_self]
    rfl
  rw [idxOf_split hafront, moveBeside, herase, heraseIdx]
  rcases mem_append.mp hb with hb | hb
  · -- the other item is in front
    obtain ⟨first, second, rfl⟩ := append_of_mem hb
    have hbfirst : b ∉ first := fun h => (nodup_append.mp hfront).2.2 b h b mem_cons_self rfl
    rw [append_assoc, append_assoc, cons_append, cons_append,
      insertBeside_append hbfirst, idxOf_split hbfirst]
    have hlen : (first ++ b :: second).length = first.length + (second.length + 1) := by simp
    have hnot : ¬ first.length + (second.length + 1) < first.length := by omega
    rw [hlen]
    cases above with
    | true =>
      rw [if_pos rfl, destination, if_pos rfl, if_neg hnot, insertIdx_append_cons]
      cases second with
      | nil => simp [inPlace]
      | cons x second => rw [if_neg (by simp [inPlace])]
    | false =>
      have hplace : inPlace false (first.length + (second.length + 1)) first.length = false := by
        simp [inPlace]
        omega
      simp only [hplace, destination, hnot, Bool.false_eq_true, if_false]
      rw [Slots.insertIdx_append]
  · -- the other item is behind
    have hb : b ∈ back := (mem_cons.mp hb).resolve_left fun h => hne h.symm
    obtain ⟨first, second, rfl⟩ := append_of_mem hb
    have hbfirst : b ∉ first := fun h =>
      (nodup_append.mp (nodup_cons.mp hback).2).2.2 b h b mem_cons_self rfl
    have hbfront : b ∉ front := fun h => hdisj b h b (mem_cons_of_mem _ hb) rfl
    have hbbefore : b ∉ front ++ a :: first := by
      simp [hbfront, hbfirst, hne.symm]
    have hidx : (front ++ a :: (first ++ b :: second)).idxOf b =
        front.length + (first.length + 1) := by
      have h := @idxOf_split _ _ b (front ++ a :: first) second hbbefore
      simpa using h
    have hpre' : b ∉ front ++ first := by simp [hbfront, hbfirst]
    rw [hidx, ← append_assoc front first, insertBeside_append hpre']
    have hlt : front.length < front.length + (first.length + 1) := by omega
    have hlen : front.length + (first.length + 1) = (front ++ first).length + 1 := by
      rw [length_append, Nat.add_assoc]
    cases above with
    | true =>
      have hplace : inPlace true front.length (front.length + (first.length + 1)) = false := by
        simp [inPlace]
        omega
      rw [hplace, destination, if_pos rfl, if_pos rfl, if_pos hlt, hlen, insertIdx_append_cons]
      rfl
    | false =>
      have hdestination : destination false front.length (front.length + (first.length + 1)) =
          (front ++ first).length := by
        rw [destination, if_neg Bool.false_ne_true, if_pos hlt, hlen, Nat.add_sub_cancel]
      simp only [hdestination, Slots.insertIdx_append, Bool.false_eq_true, if_false]
      cases first with
      | nil => simp [inPlace]
      | cons x first => rw [if_neg (by simp [inPlace])]

theorem insertBeside_map {f : ι → κ} (hf : Function.Injective f) (above : Bool) (a b : ι)
    (l : List ι) : (insertBeside above a b l).map f = insertBeside above (f a) (f b) (l.map f) := by
  induction l with
  | nil => rfl
  | cons x l ih =>
    rw [insertBeside, map_cons, insertBeside]
    by_cases hx : x = b
    · rw [if_pos hx, if_pos (congrArg f hx)]
      cases above <;> rfl
    · rw [if_neg hx, if_neg fun h => hx (hf h), map_cons, ih]

theorem insertBeside_sublist {l' : List ι} (h : l.Sublist l') (hnodup : l'.Nodup) (hb : b ∈ l) :
    (insertBeside above a b l).Sublist (insertBeside above a b l') := by
  induction h with
  | slnil => cases hb
  | cons x h ih =>
    have hx : x ≠ b := fun hx => (nodup_cons.mp hnodup).1 (hx ▸ h.subset hb)
    rw [insertBeside, if_neg hx]
    exact (ih (nodup_cons.mp hnodup).2 hb).cons x
  | cons_cons x h ih =>
    rw [insertBeside, insertBeside]
    split
    · cases above with
      | true => exact (h.cons_cons a).cons_cons b
      | false => exact (h.cons_cons b).cons_cons a
    · rename_i hx
      have hmem : b ∈ _ := (mem_cons.mp hb).resolve_left fun h => hx h.symm
      exact (ih (nodup_cons.mp hnodup).2 hmem).cons_cons x

/-- Moving an item keeps a list in the order of another one where its image is moved too. -/
theorem moveBeside_sublist {f : ι → κ} (hf : Function.Injective f) {l' : List κ}
    (h : (l.map f).Sublist l') (hnodup : l'.Nodup) (hb : b ∈ l) (hne : a ≠ b) :
    ((moveBeside above a b l).map f).Sublist (moveBeside above (f a) (f b) l') := by
  have hmem : f b ∈ (l.erase a).map f :=
    mem_map_of_mem ((mem_erase_of_ne hne.symm).mpr hb)
  rw [moveBeside, insertBeside_map hf, moveBeside]
  rw [map_erase hf] at hmem ⊢
  exact insertBeside_sublist (h.erase (f a)) (hnodup.erase (f a)) hmem

/-- A new item that takes the place of another one and stands right after it keeps the order. -/
theorem replace_sublist {l' : List ι} (h : l.Sublist l') (hnodup : l'.Nodup) :
    (l.map fun x => if x = b then a else x).Sublist (insertBeside true a b l') := by
  have hsame {l : List ι} (hb : b ∉ l) : (l.map fun x => if x = b then a else x) = l := by
    refine (map_congr_left fun x hx => ?_).trans (map_id l)
    exact if_neg fun hxb : x = b => hb (hxb ▸ hx)
  induction h with
  | slnil => exact .slnil
  | cons x h ih =>
    rw [insertBeside]
    split
    · rename_i hx
      subst hx
      rw [hsame fun hb => (nodup_cons.mp hnodup).1 (h.subset hb)]
      exact (h.cons _).cons _
    · exact (ih (nodup_cons.mp hnodup).2).cons x
  | cons_cons x h ih =>
    rw [insertBeside, map_cons]
    split
    · rename_i hx
      subst hx
      rw [hsame fun hb => (nodup_cons.mp hnodup).1 (h.subset hb)]
      exact (h.cons_cons _).cons _
    · exact (ih (nodup_cons.mp hnodup).2).cons_cons x

/-- The same with the code's own tests. -/
theorem moveBeside_code {above : Bool} {a b : ι} {l : List ι} (hnodup : l.Nodup) (ha : a ∈ l)
    (hb : b ∈ l) (hne : a ≠ b) :
    moveBeside above a b l =
      if above = true ∧ l.idxOf a = l.idxOf b + 1 ∨ above = false ∧ l.idxOf a + 1 = l.idxOf b then l
      else (l.eraseIdx (l.idxOf a)).insertIdx
        (if above = true then (if l.idxOf a < l.idxOf b then l.idxOf b else l.idxOf b + 1)
        else (if l.idxOf a < l.idxOf b then l.idxOf b - 1 else l.idxOf b)) a := by
  rw [moveBeside_eq hnodup ha hb hne]
  cases above <;> simp [inPlace, destination]

/-! ## Forests -/

structure Forest (ι : Type) where
  children : ι → List ι
  parent : ι → Option ι

namespace Forest

variable {F : Forest ι} {p q c : ι} {l : List ι}

/-- Take a node out of its parent's children. -/
def remove (F : Forest ι) (p c : ι) : Forest ι where
  children := update F.children p ((F.children p).erase c)
  parent := update F.parent c none

def insertAt (F : Forest ι) (p c : ι) (i : Nat) : Forest ι where
  children := update F.children p ((F.children p).insertIdx i c)
  parent := update F.parent c (some p)

def append (F : Forest ι) (p c : ι) : Forest ι where
  children := update F.children p (F.children p ++ [c])
  parent := update F.parent c (some p)

/-- Take a node from its parent, if it has one. -/
def detach (F : Forest ι) (c : ι) : Forest ι :=
  match F.parent c with
  | none => F
  | some p => F.remove p c

def setChildren (F : Forest ι) (p : ι) (l : List ι) : Forest ι where
  children := update F.children p l
  parent := F.parent

/-- Lists of children and pointers to parents say the same. -/
structure Agrees (F : Forest ι) : Prop where
  mem : ∀ p c, c ∈ F.children p ↔ F.parent c = some p
  nodup : ∀ p, (F.children p).Nodup

@[simp] theorem setChildren_parent (F : Forest ι) (p : ι) (l : List ι) :
    (F.setChildren p l).parent = F.parent := rfl

theorem setChildren_children (F : Forest ι) (p q : ι) (l : List ι) :
    (F.setChildren p l).children q = if q = p then l else F.children q :=
  update_apply F.children p l q

theorem Agrees.setChildren (h : F.Agrees) (hl : l.Perm (F.children p)) :
    (F.setChildren p l).Agrees := by
  refine ⟨fun q c => ?_, fun q => ?_⟩
  · rw [setChildren_children, setChildren_parent]
    split
    · rename_i hq
      subst hq
      rw [hl.mem_iff]
      exact h.mem q c
    · exact h.mem q c
  · rw [setChildren_children]
    split
    · exact hl.nodup_iff.mpr (h.nodup p)
    · exact h.nodup q

/-- Detached, the node is in no list. -/
theorem Agrees.detach_children (h : F.Agrees) (c q : ι) :
    (F.detach c).children q = (F.children q).erase c := by
  have hother (hq : F.parent c ≠ some q) : (F.children q).erase c = F.children q :=
    erase_of_not_mem fun hmem => hq ((h.mem q c).mp hmem)
  unfold detach
  split
  · rename_i hnone
    rw [hother]
    rw [hnone]
    exact nofun
  · rename_i p hp
    show update F.children p _ q = _
    rw [update_apply]
    split
    · rename_i hq
      rw [hq]
    · rename_i hq
      rw [hother]
      rw [hp]
      exact fun hpq => hq (Option.some.inj hpq).symm

theorem detach_parent (F : Forest ι) (c : ι) : (F.detach c).parent = update F.parent c none := by
  unfold detach
  split
  · rename_i hnone
    rw [← hnone, update_eq_self]
  · rfl

theorem Agrees.detach (h : F.Agrees) (c : ι) : (F.detach c).Agrees := by
  refine ⟨fun q m => ?_, fun q => ?_⟩
  · rw [h.detach_children, detach_parent, (h.nodup q).mem_erase_iff, h.mem, update_apply]
    split
    · rename_i hm
      simp [hm]
    · rename_i hm
      simp [hm]
  · rw [h.detach_children]
    exact (h.nodup q).erase c

theorem setChildren_self (F : Forest ι) (p : ι) : F.setChildren p (F.children p) = F := by
  rw [setChildren, update_eq_self]

theorem detach_of_none (hp : F.parent c = none) : F.detach c = F := by
  rw [Forest.detach, hp]

/-- Out of the list and back into it at an index. -/
theorem insertAt_detach (hp : F.parent c = some p) (i : Nat) :
    (F.detach c).insertAt p c i = F.setChildren p (((F.children p).erase c).insertIdx i c) := by
  rw [detach, hp]
  simp only [remove, insertAt, setChildren, update_self, update_idem]
  rw [← hp, update_eq_self]

theorem remove_eq (hp : F.parent c = some p) : F.remove p c = F.detach c := by
  rw [Forest.detach, hp]

/-- Take a node from its parent and give it to another one. -/
def attach (F : Forest ι) (p c : ι) : Forest ι := (F.detach c).append p c

theorem Agrees.attach_children (h : F.Agrees) (p c q : ι) :
    (F.attach p c).children q = (F.children q).erase c ++ if q = p then [c] else [] := by
  show update (F.detach c).children p _ q = _
  rw [update_apply, h.detach_children, h.detach_children]
  split
  · rename_i hq
    rw [hq]
  · rw [append_nil]

theorem attach_parent (F : Forest ι) (p c : ι) :
    (F.attach p c).parent = update F.parent c (some p) := by
  rw [attach, append, detach_parent, update_idem]

theorem Agrees.attach (h : F.Agrees) (p c : ι) : (F.attach p c).Agrees := by
  have hnot (q : ι) : c ∉ (F.children q).erase c := fun hmem =>
    ((h.nodup q).mem_erase_iff.mp hmem).1 rfl
  refine ⟨fun q m => ?_, fun q => ?_⟩
  · rw [h.attach_children, attach_parent, mem_append, (h.nodup q).mem_erase_iff, h.mem,
      update_apply]
    by_cases hm : m = c
    · subst hm
      by_cases hq : q = p
      · simp [hq]
      · simp [hq, Ne.symm hq]
    · by_cases hq : q = p <;> simp [hm, hq]
  · rw [h.attach_children]
    split
    · exact nodup_append.mpr ⟨(h.nodup q).erase c, nodup_singleton c,
        fun x hx y hy hxy => hnot q ((hxy.trans (mem_singleton.mp hy)) ▸ hx)⟩
    · rw [append_nil]
      exact (h.nodup q).erase c

/-- Nodes taken over one after the other stand in the same order. -/
theorem Agrees.attach_all (h : F.Agrees) (p : ι) (hl : l.Nodup) :
    (l.foldl (fun F c => F.attach p c) F).Agrees ∧
    (∀ q, (l.foldl (fun F c => F.attach p c) F).children q =
      (F.children q).filter (fun c => c ∉ l) ++ if q = p then l else []) ∧
    ∀ c, (l.foldl (fun F c => F.attach p c) F).parent c =
      if c ∈ l then some p else F.parent c := by
  induction l generalizing F with
  | nil => exact ⟨h, fun q => by simp, fun c => by simp⟩
  | cons x l ih =>
    obtain ⟨hx, hl⟩ := nodup_cons.mp hl
    obtain ⟨hagrees, hchild, hpar⟩ := ih (h.attach p x) hl
    refine ⟨hagrees, fun q => ?_, fun c => ?_⟩
    · rw [foldl_cons, hchild, h.attach_children, filter_append,
        (h.nodup q).erase_eq_filter, filter_filter]
      have hfil : (F.children q).filter (fun c => c ∉ x :: l) =
          (F.children q).filter (fun c => decide (c ∉ l) && (c != x)) := by
        refine filter_congr fun c _ => ?_
        by_cases hc : c = x <;> simp [hc]
      rw [hfil]
      by_cases hq : q = p
      · simp [hq, hx]
      · simp [hq]
    · rw [foldl_cons, hpar, attach_parent, update_apply]
      by_cases hc : c = x <;> simp [hc]

end Forest

end ChromiumUI.Forests
