import Mathlib.Data.List.Nodup

/-!
# Circular doubly linked lists

Two pointers for each node. A ring is a head and the nodes behind it, linked both ways back to the
head; what an operation does outside of the nodes it touches is nothing.
-/
namespace ChromiumUI.LinkedRings

open List Function

variable {α : Type*}

structure Links (α : Type*) where
  next : α → α
  prev : α → α

/-- From `a` over `xs` to `b`, linked both ways. -/
def Path (l : Links α) : α → List α → α → Prop
  | a, [], b => l.next a = b ∧ l.prev b = a
  | a, x :: xs, b => l.next a = x ∧ l.prev x = a ∧ Path l x xs b

/-- The list of this head. -/
structure Ring (l : Links α) (head : α) (xs : List α) : Prop where
  path : Path l head xs head
  nodup : (head :: xs).Nodup

section Operations

variable [DecidableEq α]

namespace Links

/-- The nodes around `e` are linked with each other, and `e` with itself. -/
def extract (e : α) (l : Links α) : Links α where
  next := update (update l.next (l.prev e) (l.next e)) e e
  prev := update (update l.prev (l.next e) (l.prev e)) e e

/-- `other` is put in front of the head, at the back of its list. -/
def pushBack (head other : α) (l : Links α) : Links α where
  next := update (update l.next other head) (l.prev head) other
  prev := update (update l.prev other (l.prev head)) head other

end Links

end Operations

variable {l l' : Links α} {a b e head other : α} {xs ys : List α}

theorem path_append {x : α} : Path l a (xs ++ x :: ys) b ↔ Path l a xs x ∧ Path l x ys b := by
  induction xs generalizing a with
  | nil => simp [Path, and_assoc]
  | cons y xs ih => simp [Path, ih, and_assoc]

theorem Path.congr (h : Path l a xs b) (hnext : ∀ y ∈ a :: xs, l'.next y = l.next y)
    (hprev : ∀ y ∈ xs ++ [b], l'.prev y = l.prev y) : Path l' a xs b := by
  induction xs generalizing a with
  | nil => exact ⟨(hnext a (by simp)).trans h.1, (hprev b (by simp)).trans h.2⟩
  | cons x xs ih =>
    refine ⟨(hnext a (by simp)).trans h.1, (hprev x (by simp)).trans h.2.1, ih h.2.2 ?_ ?_⟩
    · exact fun y hy => hnext y (mem_cons_of_mem a hy)
    · exact fun y hy => hprev y (by simpa using Or.inr (by simpa using hy))

theorem Path.prev_mem (h : Path l a xs b) : l.prev b ∈ a :: xs := by
  induction xs generalizing a with
  | nil => simp [h.2]
  | cons x xs ih => exact mem_cons_of_mem a (ih h.2.2)

theorem Path.next_mem (h : Path l a xs b) : l.next a ∈ xs ++ [b] := by
  cases xs with
  | nil => simp [h.1]
  | cons x xs => simp [h.1]

section

variable (h : Ring l head xs)
include h

/-- A ring is what its own nodes say. -/
theorem Ring.congr (hsame : ∀ y ∈ head :: xs, l'.next y = l.next y ∧ l'.prev y = l.prev y) :
    Ring l' head xs := by
  refine ⟨h.path.congr (fun y hy => (hsame y hy).1) fun y hy => (hsame y ?_).2, h.nodup⟩
  simpa [or_comm] using hy

theorem Ring.next_mem {y : α} (hy : y ∈ head :: xs) : l.next y ∈ head :: xs := by
  rcases mem_cons.mp hy with rfl | hy
  · simpa [or_comm] using h.path.next_mem
  · obtain ⟨us, vs, rfl⟩ := append_of_mem hy
    have hnext := (path_append.mp h.path).2.next_mem
    simp only [mem_append, mem_cons] at hnext ⊢
    tauto

theorem Ring.prev_mem {y : α} (hy : y ∈ head :: xs) : l.prev y ∈ head :: xs := by
  rcases mem_cons.mp hy with rfl | hy
  · exact h.path.prev_mem
  · obtain ⟨us, vs, rfl⟩ := append_of_mem hy
    have hprev := (path_append.mp h.path).1.prev_mem
    simp only [mem_append, mem_cons] at hprev ⊢
    tauto

/-- Both pointers of the head lead to the ends of its list. -/
theorem Ring.isEmpty_iff : l.next head = head ↔ xs = [] := by
  cases xs with
  | nil => simp [h.path.1]
  | cons x xs =>
    have hne : x ≠ head := fun heq => (nodup_cons.mp h.nodup).1 (by simp [heq])
    simp [h.path.1, hne]

end

theorem Ring.front (h : Ring l head (e :: xs)) : l.next head = e := h.path.1

theorem Ring.back (h : Ring l head (xs ++ [e])) : l.prev head = e := (path_append.mp h.path).2.2

/-! ## Extract -/

variable [DecidableEq α]

/-- The path closes behind a node that is taken out. -/
theorem Path.extract (hfirst : Path l a xs e) (hrest : Path l e ys b)
    (hnodup : (xs ++ e :: ys).Nodup) (ha : a ∉ xs ++ e :: ys) (hb : b ∉ xs ++ e :: ys) :
    Path (l.extract e) a (xs ++ ys) b := by
  have hbe : b ≠ e := fun heq => hb (by simp [heq])
  induction xs generalizing a with
  | nil =>
    have hae : a ≠ e := fun heq => ha (by simp [heq])
    have hpe : l.prev e = a := hfirst.2
    cases ys with
    | nil => refine ⟨?_, ?_⟩ <;> simp [Links.extract, hae, hbe, hpe, hrest.1]
    | cons y ys =>
      obtain ⟨hnext, -, hpath⟩ := hrest
      simp only [nil_append, nodup_cons, mem_cons, not_or] at hnodup ha hb
      obtain ⟨⟨hey, heys⟩, hyys, -⟩ := hnodup
      refine ⟨by simp [Links.extract, hae, hpe, hnext],
        by simp [Links.extract, Ne.symm hey, hpe, hnext], hpath.congr ?_ ?_⟩
      · intro z hz
        have hza : z ≠ a := by rintro rfl; exact (mem_cons.mp hz).elim ha.2.1 ha.2.2
        have hze : z ≠ e := by
          rintro rfl
          exact (mem_cons.mp hz).elim hey heys
        simp [Links.extract, hpe, hza, hze]
      · intro z hz
        have hzy : z ≠ y := by
          rintro rfl
          rcases mem_append.mp hz with hz | hz
          · exact hyys hz
          · exact hb.2.1 (mem_singleton.mp hz).symm
        have hze : z ≠ e := by
          rintro rfl
          rcases mem_append.mp hz with hz | hz
          · exact heys hz
          · exact hb.1 (mem_singleton.mp hz).symm
        simp [Links.extract, hnext, hzy, hze]
  | cons x xs ih =>
    obtain ⟨hnext, hprev, hpath⟩ := hfirst
    simp only [cons_append, nodup_cons, mem_cons, not_or] at hnodup ha hb
    have hxe : x ≠ e := fun heq => hnodup.1 (by simp [heq])
    have hae : a ≠ e := fun heq => ha.2 (by simp [heq])
    have hpa : l.prev e ≠ a := by
      intro heq
      rcases mem_cons.mp (heq ▸ hpath.prev_mem) with hax | hax
      · exact ha.1 hax
      · exact ha.2 (by simp [hax])
    have hnx : l.next e ≠ x := by
      intro heq
      rcases mem_append.mp (heq ▸ hrest.next_mem) with hxy | hxb
      · exact hnodup.1 (by simp [hxy])
      · exact hb.1 (mem_singleton.mp hxb).symm
    refine ⟨by simp [Links.extract, hae, Ne.symm hpa, hnext],
      by simp [Links.extract, hxe, Ne.symm hnx, hprev], ih hpath hnodup.2 hnodup.1 hb.2⟩

theorem Ring.extract (h : Ring l head (xs ++ e :: ys)) :
    Ring (l.extract e) head (xs ++ ys) ∧ Ring (l.extract e) e [] := by
  obtain ⟨hfirst, hrest⟩ := path_append.mp h.path
  obtain ⟨hhead, hnodup⟩ := nodup_cons.mp h.nodup
  refine ⟨⟨hfirst.extract hrest hnodup hhead hhead, ?_⟩, ⟨⟨?_, ?_⟩, nodup_singleton e⟩⟩
  · exact h.nodup.sublist ((sublist_append_right [e] ys).append_left (head :: xs))
  · simp [Links.extract]
  · simp [Links.extract]

/-- A node on no list is left as it is. -/
theorem extract_singleton (h : Ring l e []) : l.extract e = l := by
  obtain ⟨hnext, hprev⟩ := h.path
  have hsame : ∀ f : α → α, f e = e → update (update f e e) e e = f := by
    intro f hf
    funext y
    by_cases hy : y = e <;> simp [hy, hf]
  rw [Links.extract, hnext, hprev, hsame l.next hnext, hsame l.prev hprev]

/-- Taking a node out of one ring leaves another ring alone. -/
theorem Ring.extract_other {head' : α} {zs : List α} (h : Ring l head' zs)
    (hring : Ring l head (xs ++ e :: ys))
    (hdisj : ∀ z ∈ head' :: zs, z ∉ head :: (xs ++ e :: ys)) : Ring (l.extract e) head' zs := by
  have hmem : e ∈ head :: (xs ++ e :: ys) := by simp
  refine h.congr fun z hz => ?_
  have hze : z ≠ e := fun heq => hdisj z hz (heq ▸ hmem)
  have hzp : z ≠ l.prev e := fun heq => hdisj z hz (heq ▸ hring.prev_mem hmem)
  have hzn : z ≠ l.next e := fun heq => hdisj z hz (heq ▸ hring.next_mem hmem)
  simp [Links.extract, hze, hzp, hzn]

/-! ## PushBack -/

theorem Path.pushBack (h : Path l a xs b) (hnodup : xs.Nodup) (ha : a ∉ xs) (hb : b ∉ xs)
    (hoa : other ≠ a) (hob : other ≠ b) (hother : other ∉ xs) :
    Path (l.pushBack b other) a (xs ++ [other]) b := by
  induction xs generalizing a with
  | nil =>
    have hpb : l.prev b = a := h.2
    refine ⟨by simp [Links.pushBack, hpb], by simp [Links.pushBack, hob, hpb], ?_, ?_⟩
    · simp [Links.pushBack, hpb, hoa]
    · simp [Links.pushBack]
  | cons x xs ih =>
    obtain ⟨hnext, hprev, hpath⟩ := h
    simp only [mem_cons, not_or, nodup_cons] at hnodup ha hb hother
    have hpa : a ≠ l.prev b := by
      intro heq
      rcases mem_cons.mp (heq ▸ hpath.prev_mem) with hax | hax
      · exact ha.1 hax
      · exact ha.2 hax
    refine ⟨by simp [Links.pushBack, hpa, Ne.symm hoa, hnext],
      by simp [Links.pushBack, Ne.symm hb.1, Ne.symm hother.1, hprev],
      ih hpath hnodup.2 hnodup.1 hb.2 hother.1 hother.2⟩

theorem Ring.pushBack (h : Ring l head xs) (hother : other ∉ head :: xs) :
    Ring (l.pushBack head other) head (xs ++ [other]) := by
  obtain ⟨hhead, hnodup⟩ := nodup_cons.mp h.nodup
  simp only [mem_cons, not_or] at hother
  refine ⟨h.path.pushBack hnodup hhead hhead hother.1 hother.1 hother.2, ?_⟩
  rw [← cons_append, nodup_append]
  refine ⟨h.nodup, nodup_singleton other, ?_⟩
  intro y hy z hz
  rw [mem_singleton.mp hz]
  rintro rfl
  exact (mem_cons.mp hy).elim hother.1 hother.2

/-- Putting a node on one ring leaves another ring alone. -/
theorem Ring.pushBack_other {head' : α} {zs : List α} (h : Ring l head' zs)
    (hring : Ring l head xs) (hdisj : ∀ z ∈ head' :: zs, z ∉ head :: xs)
    (hother : other ∉ head' :: zs) : Ring (l.pushBack head other) head' zs := by
  refine h.congr fun z hz => ?_
  have hzo : z ≠ other := fun heq => hother (heq ▸ hz)
  have hzh : z ≠ head := fun heq => hdisj z hz (by simp [heq])
  have hzp : z ≠ l.prev head := fun heq => hdisj z hz (heq ▸ hring.prev_mem (mem_cons_self ..))
  simp [Links.pushBack, hzo, hzh, hzp]

end ChromiumUI.LinkedRings
