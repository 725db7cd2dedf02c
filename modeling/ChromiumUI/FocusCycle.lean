import Mathlib.Data.List.Infix
import ChromiumUI.Fuel

/-!
# FocusSearch that cycles

Without groups and FocusTraversables, and with the root of the search anywhere in a tree of views.
The sibling focus chains follow the child order. The recursive functions run on fuel.
-/
namespace ChromiumUI.FocusCycle

/-- The first of some siblings: whether it is focusable, its children, and the sibling after it. -/
inductive Views where
  | nil
  | view (focusable : Bool) (children next : Views)
  deriving DecidableEq, Repr

inductive Step where
  | next | child
  deriving DecidableEq, Repr

/-- How to get to a view from the top of the tree, the last step first. -/
abbrev Address := List Step

namespace Views

def isNil : Views → Bool
  | nil => true
  | view .. => false

def follow : Step → Views → Views
  | _, nil => nil
  | .next, view _ _ next => next
  | .child, view _ children _ => children

/-- The view at an address. -/
def viewsAt (tree : Views) : Address → Views
  | [] => tree
  | step :: a => (viewsAt tree a).follow step

def existing (tree : Views) (a : Address) : Option Address :=
  if (tree.viewsAt a).isNil then none else some a

def isFocusable (tree : Views) (a : Address) : Bool :=
  match tree.viewsAt a with
  | view focusable .. => focusable
  | nil => false

/-- The last one of these siblings, the first being at `a`. -/
def lastOf : Views → Address → Address
  | nil, a => a
  | view _ _ next, a => if next.isNil then a else lastOf next (.next :: a)

/-- child_at(0) -/
def firstChild (tree : Views) (a : Address) : Option Address := tree.existing (.child :: a)

/-- child_at(child_count() - 1) -/
def lastChild (tree : Views) (a : Address) : Option Address :=
  (tree.firstChild a).map (lastOf (tree.viewsAt (.child :: a)))

def getNextFocusableView (tree : Views) (a : Address) : Option Address :=
  tree.existing (.next :: a)

end Views

def getPreviousFocusableView : Address → Option Address
  | .next :: a => some a
  | _ => none

/-- The parent of a view, its parent, and so on. -/
def ancestors : Address → List Address
  | [] => []
  | .next :: a => ancestors a
  | .child :: a => a :: ancestors a

/-- root->Contains(v) -/
def contains (root v : Address) : Bool := decide (v = root) || (ancestors v).contains root

def getParent (root v : Address) : Option Address :=
  if contains root v then (ancestors v).head? else none

/-- if (v) return v; -/
def orTry (first next : Option (Option Address)) : Option (Option Address) :=
  first.bind fun v => if v.isSome then some v else next

/-- A search that is only made from a view that is there. -/
def tryFrom (a : Option Address) (search : Address → Option (Option Address)) :
    Option (Option Address) :=
  match a with
  | none => some none
  | some a => search a

section

variable (tree : Views) (root : Address)

/-- The loop that goes up from `v`, whose ancestors are given, to a parent with a sibling. -/
def siblingAbove : Address → List Address → Option Address
  | _, [] => none
  | v, parent :: parents =>
    if contains root v then
      match tree.getNextFocusableView parent with
      | some sibling => some sibling
      | none => siblingAbove parent parents
    else none

def findNextFocusableViewImpl : Nat → Address → Bool → Bool → Bool → Option (Option Address)
  | 0, _, _, _, _ => none
  | fuel + 1, a, checkStartingView, canGoUp, canGoDown =>
    if checkStartingView && tree.isFocusable a then some (some a)
    else
      orTry (tryFrom (if canGoDown then tree.firstChild a else none)
        fun child => findNextFocusableViewImpl fuel child true false true) <|
      orTry (tryFrom (tree.getNextFocusableView a)
        fun sibling => findNextFocusableViewImpl fuel sibling true false true) <|
      tryFrom (if canGoUp then siblingAbove tree root a (ancestors a) else none)
        fun sibling => findNextFocusableViewImpl fuel sibling true true true

def findPreviousFocusableViewImpl : Nat → Address → Bool → Bool → Bool → Option (Option Address)
  | 0, _, _, _, _ => none
  | fuel + 1, a, checkStartingView, canGoUp, canGoDown =>
    orTry (tryFrom (if canGoDown then tree.lastChild a else none)
      fun child => findPreviousFocusableViewImpl fuel child true false true) <|
    if checkStartingView && tree.isFocusable a then some (some a)
    else match getPreviousFocusableView a with
      | some sibling => findPreviousFocusableViewImpl fuel sibling true true true
      | none => tryFrom (if canGoUp then getParent root a else none)
          fun parent => findPreviousFocusableViewImpl fuel parent true true false

/-- FindNextFocusableView up to the check that the view is within the root. -/
def findWithin (fuel : Nat) (startingView : Option Address)
    (reverse down checkStartingView : Bool) : Option (Option Address) :=
  if (tree.firstChild root).isNone then some none
  else
    let start := startingView <|>
      (if reverse then tree.lastChild root else tree.firstChild root)
    let checkStartingView := checkStartingView || startingView.isNone
    let found := tryFrom start fun start =>
      if reverse then
        findPreviousFocusableViewImpl tree root fuel start checkStartingView true
          (down && !tree.isFocusable start)
      else findNextFocusableViewImpl tree root fuel start checkStartingView true down
    found.map fun v => v.filter fun v => decide (v = root) || contains root v

/-- FocusSearch::FindNextFocusableView. The call that it makes of itself has no starting view. -/
def findNextFocusableView (cycle : Bool) (fuel : Nat) (startingView : Option Address)
    (reverse down checkStartingView : Bool) : Option (Option Address) :=
  (findWithin tree root fuel startingView reverse down checkStartingView).bind fun v =>
    if cycle && v.isNone && startingView.isSome then
      findWithin tree root fuel none reverse down checkStartingView
    else some v

end

/-- The focusable views at and after a view, in pre-order. -/
def Views.order : Views → Address → List Address
  | .nil, _ => []
  | .view focusable children next, a =>
    (if focusable then [a] else []) ++ (children.order (.child :: a) ++ next.order (.next :: a))

/-- The focusable views under a view. -/
def Views.orderUnder (tree : Views) (a : Address) : List Address :=
  (tree.viewsAt (.child :: a)).order (.child :: a)

/-- The view itself, if it is focusable. -/
def Views.own (tree : Views) (a : Address) : List Address :=
  if tree.isFocusable a then [a] else []

/-- All the focusable views of a root. -/
def Views.focusables (tree : Views) (root : Address) : List Address :=
  tree.own root ++ tree.orderUnder root

/-! ## What the searches return

A search ends with the first of the focusable views that lie before it, and beyond the root it only
finds what is outside of the root. -/

open Fuel Views

/-! ## Addresses -/

variable {x : Address}

theorem suffix_cons_of_ne {step step' : Step} {a : Address} (h : step :: a <:+ step' :: x)
    (hne : step ≠ step') : step :: a <:+ x := by
  rcases List.suffix_cons_iff.mp h with heq | hsuf
  · exact absurd (List.cons.inj heq).1 hne
  · exact hsuf

/-- Two steps from one view lead apart. -/
theorem not_both {a : Address} (hnext : .next :: a <:+ x) (hchild : .child :: a <:+ x) : False := by
  have h := List.suffix_of_suffix_length_le hnext hchild (Nat.le_of_eq rfl)
  have heq := h.eq_of_length rfl
  cases heq

theorem mem_ancestors {p a : Address} : p ∈ ancestors a ↔ .child :: p <:+ a := by
  induction a with
  | nil => simp [ancestors]
  | cons step a ih =>
    cases step with
    | next =>
      rw [ancestors, ih]
      exact ⟨fun h => h.trans (List.suffix_cons _ _), fun h => suffix_cons_of_ne h nofun⟩
    | child =>
      rw [ancestors, List.mem_cons, ih, List.suffix_cons_iff]
      simp

variable {v : Address}

theorem contains_iff {root : Address} :
    contains root v = true ↔ v = root ∨ .child :: root <:+ v := by
  rw [contains, Bool.or_eq_true, decide_eq_true_iff, List.contains_iff_mem, mem_ancestors]

theorem contains_of_inside {root : Address} (h : .child :: root <:+ v) :
    contains root v = true := contains_iff.mpr (Or.inr h)

/-- What is to the right of the root, or of a view above it, is not in the root. -/
theorem contains_beyond {root p : Address} (hp : p = root ∨ p ∈ ancestors root)
    (hx : .next :: p <:+ x) : contains root x = false := by
  rw [Bool.eq_false_iff]
  intro hin
  have hnot : ¬ .next :: p <:+ root := by
    intro hroot
    rcases hp with rfl | hp
    · exact absurd hroot.length_le (by simp)
    · exact not_both hroot (mem_ancestors.mp hp)
  rcases contains_iff.mp hin with rfl | hchild
  · exact hnot hx
  · rcases hp with rfl | hp
    · exact not_both hx hchild
    · have hlen := (mem_ancestors.mp hp).length_le
      have hle : (Step.next :: p).length ≤ (Step.child :: root).length := by
        simp only [List.length_cons] at hlen ⊢
        omega
      exact hnot (suffix_cons_of_ne (List.suffix_of_suffix_length_le hx hchild hle) nofun)

variable {tree : Views} {root a : Address}

theorem viewsAt_cons (step : Step) {focusable : Bool} {children next : Views}
    (h : tree.viewsAt a = view focusable children next) :
    tree.viewsAt (step :: a) = (view focusable children next).follow step := by
  rw [viewsAt, h]

theorem isFocusable_of {focusable : Bool} {children next : Views}
    (h : tree.viewsAt a = view focusable children next) : tree.isFocusable a = focusable := by
  rw [isFocusable, h]

theorem existing_of_nil (h : tree.viewsAt a = nil) : tree.existing a = none := by
  rw [existing, h]
  rfl

theorem existing_of_ne (h : tree.viewsAt a ≠ nil) : tree.existing a = some a := by
  rw [existing]
  cases hs : tree.viewsAt a with
  | nil => exact absurd hs h
  | view => rfl

theorem suffix_of_mem_order {s : Views} (h : x ∈ s.order a) : a <:+ x := by
  induction s generalizing a with
  | nil => cases h
  | view focusable children next ihc ihx =>
    simp only [order, List.mem_append] at h
    rcases h with h | h | h
    · cases focusable with
      | false => cases h
      | true => rw [List.mem_singleton.mp h]
    · exact (List.suffix_cons _ _).trans (ihc h)
    · exact (List.suffix_cons _ _).trans (ihx h)

/-! ## Results -/

variable {s t : List Address}

theorem head?_append_some (h : s.head? = some x) : (s ++ t).head? = some x := by
  rw [List.head?_append, h]
  rfl

theorem head?_append_none (h : s.head? = none) : (s ++ t).head? = t.head? := by
  rw [List.head?_append, h]
  rfl

variable {f g : Nat → Option (Option Address)}

theorem computes_orTry (hf : Computes f s.head?) (hg : Computes g t.head?) :
    Computes (fun fuel => orTry (f fuel) (g fuel)) (s ++ t).head? := by
  apply Computes.bind hf
  cases hs : s.head? with
  | none =>
    rw [head?_append_none hs]
    exact hg
  | some x =>
    rw [head?_append_some hs]
    exact .pure _

/-- The search ends, and what it finds within the root is the first of these. -/
def Finds (root : Address) (f : Nat → Option (Option Address)) (l : List Address) : Prop :=
  ∃ found, Computes f found ∧ found.filter (contains root) = l.head?

variable {l : List Address}

/-- A search that stays outside. -/
theorem finds_nothing (hf : Computes f l.head?) (hl : ∀ x ∈ l, contains root x = false) :
    Finds root f [] := by
  refine ⟨l.head?, hf, ?_⟩
  cases l with
  | nil => rfl
  | cons x l => simp [Option.filter, hl x (by simp)]

theorem finds_orTry (hf : Computes f s.head?) (hs : ∀ x ∈ s, contains root x = true)
    (hg : Finds root g t) : Finds root (fun fuel => orTry (f fuel) (g fuel)) (s ++ t) := by
  cases s with
  | nil =>
    obtain ⟨found, hfound, hfil⟩ := hg
    exact ⟨found, hf.bind hfound, hfil⟩
  | cons x s => exact ⟨some x, hf.bind (.pure _), by simp [Option.filter, hs x (by simp)]⟩

theorem finds_succ (h : Finds root f l) (hg : ∀ fuel, g (fuel + 1) = f fuel) : Finds root g l := by
  obtain ⟨found, hfound, hfil⟩ := h
  exact ⟨found, hfound.succ hg, hfil⟩

theorem computes_tryExisting {b : Address} {search : Nat → Address → Option (Option Address)}
    (hnil : tree.viewsAt b = nil → l = [])
    (h : tree.viewsAt b ≠ nil → Computes (fun fuel => search fuel b) l.head?) :
    Computes (fun fuel => tryFrom (tree.existing b) (search fuel)) l.head? := by
  by_cases hb : tree.viewsAt b = nil
  · rw [existing_of_nil hb, hnil hb]
    exact .pure _
  · rw [existing_of_ne hb]
    exact h hb

theorem tryFrom_none (search : Nat → Address → Option (Option Address)) :
    Computes (fun fuel => tryFrom none (search fuel)) ([] : List Address).head? := .pure _

/-! ## Forward -/

section Forward

theorem siblingAbove_congr {w : Address} (h : contains root v = contains root w)
    (ps : List Address) : siblingAbove tree root v ps = siblingAbove tree root w ps := by
  cases ps with
  | nil => rfl
  | cons p ps => rw [siblingAbove, siblingAbove, h]

theorem siblingAbove_outside (h : contains root v = false) (ps : List Address) :
    siblingAbove tree root v ps = none := by
  cases ps with
  | nil => rfl
  | cons p ps =>
    rw [siblingAbove, h]
    rfl

theorem siblingAbove_some {s : Address} {ps : List Address}
    (h : siblingAbove tree root v ps = some s) :
    ∃ p ∈ ps, s = .next :: p ∧ tree.viewsAt s ≠ nil := by
  induction ps generalizing v with
  | nil => cases h
  | cons p ps ih =>
    rw [siblingAbove] at h
    split_ifs at h with hv
    by_cases hp : tree.viewsAt (.next :: p) = nil
    · rw [getNextFocusableView, existing_of_nil hp] at h
      obtain ⟨q, hq, hs⟩ := ih h
      exact ⟨q, List.mem_cons_of_mem p hq, hs⟩
    · rw [getNextFocusableView, existing_of_ne hp] at h
      cases h
      exact ⟨p, by simp, rfl, hp⟩

/-- The part of a search that is behind its look at the view. -/
theorem next_succ {check up : Bool} (fuel : Nat) (h : (check && tree.isFocusable a) = false) :
    findNextFocusableViewImpl tree root (fuel + 1) a check up true =
      orTry (tryFrom (tree.firstChild a)
        fun child => findNextFocusableViewImpl tree root fuel child true false true) (
      orTry (tryFrom (tree.getNextFocusableView a)
        fun sibling => findNextFocusableViewImpl tree root fuel sibling true false true) (
      tryFrom (if up then siblingAbove tree root a (ancestors a) else none)
        fun sibling => findNextFocusableViewImpl tree root fuel sibling true true true)) := by
  rw [findNextFocusableViewImpl, h]
  rfl

/-- Down and to the right, for a search that cannot or does not go up. -/
theorem next_down {s : Views} {up : Bool} (h : tree.viewsAt a = s) (hs : s ≠ nil)
    (hup : up = false ∨ contains root a = false) :
    Computes (fun fuel => findNextFocusableViewImpl tree root fuel a true up true)
      (s.order a).head? := by
  induction s generalizing a up with
  | nil => exact absurd rfl hs
  | view focusable children next ihc ihx =>
    have hc : tree.viewsAt (.child :: a) = children := viewsAt_cons .child h
    have hx : tree.viewsAt (.next :: a) = next := viewsAt_cons .next h
    have hf := isFocusable_of h
    cases focusable with
    | true =>
      refine (Computes.pure _).succ fun fuel => ?_
      rw [findNextFocusableViewImpl, hf]
      rfl
    | false =>
      have hbelow : Computes (fun fuel => tryFrom (tree.firstChild a)
          fun child => findNextFocusableViewImpl tree root fuel child true false true)
          (children.order (.child :: a)).head? :=
        computes_tryExisting (fun hnil => by rw [hc.symm.trans hnil]; rfl)
          fun hne => ihc hc (fun hnil => hne (hc.trans hnil)) (Or.inl rfl)
      have hbeside : Computes (fun fuel => tryFrom (tree.getNextFocusableView a)
          fun sibling => findNextFocusableViewImpl tree root fuel sibling true false true)
          (next.order (.next :: a)).head? :=
        computes_tryExisting (fun hnil => by rw [hx.symm.trans hnil]; rfl)
          fun hne => ihx hx (fun hnil => hne (hx.trans hnil)) (Or.inl rfl)
      have hnone : (if up then siblingAbove tree root a (ancestors a) else none) = none := by
        rcases hup with rfl | hup
        · rfl
        · rw [siblingAbove_outside hup, ite_self]
      have hrun := computes_orTry hbelow (computes_orTry hbeside (tryFrom_none
        fun fuel sibling => findNextFocusableViewImpl tree root fuel sibling true true true))
      rw [List.append_nil] at hrun
      refine hrun.succ fun fuel => ?_
      rw [next_succ fuel (by rw [hf]; rfl), hnone]

/-- The focusable views of the root that come after those under and beside a view. -/
def above (tree : Views) (root : Address) : Address → List Address
  | [] => []
  | .next :: a => above tree root a
  | .child :: a =>
    if a = root then [] else (tree.viewsAt (.next :: a)).order (.next :: a) ++ above tree root a

/-- What a search does when there is nothing under a view and beside it. -/
def climbFrom (tree : Views) (root a : Address) (fuel : Nat) : Option (Option Address) :=
  tryFrom (siblingAbove tree root a (ancestors a))
    fun sibling => findNextFocusableViewImpl tree root fuel sibling true true true

theorem beyond_nothing {p : Address} (hp : p = root ∨ p ∈ ancestors root)
    (hs : tree.viewsAt (.next :: p) ≠ nil) :
    Finds root (fun fuel => findNextFocusableViewImpl tree root fuel (.next :: p) true true true)
      [] := by
  have hout : contains root (.next :: p) = false := contains_beyond hp (List.suffix_refl _)
  exact finds_nothing (next_down rfl hs (Or.inr hout))
    fun x hx => contains_beyond hp (suffix_of_mem_order hx)

theorem climb_root (tree : Views) (root : Address) : Finds root (climbFrom tree root root) [] := by
  unfold climbFrom
  cases h : siblingAbove tree root root (ancestors root) with
  | none => exact ⟨none, tryFrom_none _, rfl⟩
  | some s =>
    obtain ⟨p, hp, rfl, hne⟩ := siblingAbove_some h
    exact beyond_nothing (Or.inr hp) hne

/-- Under, beside and above a view of the root. -/
theorem next_rest {check : Bool} {focusable : Bool} {children next : Views} {l : List Address}
    (ha : .child :: root <:+ a) (h : tree.viewsAt a = view focusable children next)
    (hcheck : (check && focusable) = false) (hup : Finds root (climbFrom tree root a) l) :
    Finds root (fun fuel => findNextFocusableViewImpl tree root fuel a check true true)
      (children.order (.child :: a) ++ (next.order (.next :: a) ++ l)) := by
  have hc : tree.viewsAt (.child :: a) = children := viewsAt_cons .child h
  have hx : tree.viewsAt (.next :: a) = next := viewsAt_cons .next h
  have hin : ∀ {step : Step} {s : Views}, ∀ x ∈ s.order (step :: a), contains root x = true :=
    fun x hx => contains_of_inside
      ((ha.trans (List.suffix_cons _ _)).trans (suffix_of_mem_order hx))
  have hbelow : Computes (fun fuel => tryFrom (tree.firstChild a)
      fun child => findNextFocusableViewImpl tree root fuel child true false true)
      (children.order (.child :: a)).head? :=
    computes_tryExisting (fun hnil => by rw [hc.symm.trans hnil]; rfl)
      fun hne => next_down hc (fun hnil => hne (hc.trans hnil)) (Or.inl rfl)
  have hbeside : Computes (fun fuel => tryFrom (tree.getNextFocusableView a)
      fun sibling => findNextFocusableViewImpl tree root fuel sibling true false true)
      (next.order (.next :: a)).head? :=
    computes_tryExisting (fun hnil => by rw [hx.symm.trans hnil]; rfl)
      fun hne => next_down hx (fun hnil => hne (hx.trans hnil)) (Or.inl rfl)
  refine finds_succ (finds_orTry hbelow hin (finds_orTry hbeside hin hup)) fun fuel => ?_
  rw [next_succ fuel (by rw [isFocusable_of h]; exact hcheck)]
  rfl

theorem next_inside {s : Views} (ha : .child :: root <:+ a) (h : tree.viewsAt a = s) (hs : s ≠ nil)
    (hup : Finds root (climbFrom tree root a) l) :
    Finds root (fun fuel => findNextFocusableViewImpl tree root fuel a true true true)
      (s.order a ++ l) := by
  cases s with
  | nil => exact absurd rfl hs
  | view focusable children next =>
    cases focusable with
    | false =>
      have hrest := @next_rest tree root a true _ _ _ _ ha h rfl hup
      rw [← List.append_assoc] at hrest
      exact hrest
    | true =>
      refine ⟨some a, (Computes.pure _).succ fun fuel => ?_, ?_⟩
      · rw [findNextFocusableViewImpl, isFocusable_of h]
        rfl
      · simp [Option.filter, contains_of_inside ha, order]

/-- Whoever is reached over a sibling has the parents of that sibling. -/
theorem climbFrom_next {b : Address} (ha : .child :: root <:+ .next :: b) :
    climbFrom tree root (.next :: b) = climbFrom tree root b := by
  have hb : .child :: root <:+ b := suffix_cons_of_ne ha nofun
  have hsame : contains root (.next :: b) = contains root b :=
    (contains_of_inside ha).trans (contains_of_inside hb).symm
  funext fuel
  rw [climbFrom, climbFrom, ancestors, siblingAbove_congr hsame]

/-- Up the parents, to the right sibling of the first one that has any. -/
theorem climb_inside (ha : .child :: root <:+ a) :
    Finds root (climbFrom tree root a) (above tree root a) := by
  induction a with
  | nil => cases List.suffix_nil.mp ha
  | cons step b ih =>
    cases step with
    | next =>
      rw [climbFrom_next ha]
      exact ih (suffix_cons_of_ne ha nofun)
    | child =>
      have hnext : siblingAbove tree root (.child :: b) (ancestors (.child :: b)) =
          match tree.getNextFocusableView b with
          | some sibling => some sibling
          | none => siblingAbove tree root b (ancestors b) := if_pos (contains_of_inside ha)
      unfold climbFrom
      rw [hnext, above]
      by_cases hroot : b = root
      · subst hroot
        rw [if_pos rfl]
        by_cases hs : tree.viewsAt (.next :: b) = nil
        · rw [getNextFocusableView, existing_of_nil hs]
          exact climb_root tree b
        · rw [getNextFocusableView, existing_of_ne hs]
          exact beyond_nothing (Or.inl rfl) hs
      · have hb : .child :: root <:+ b := by
          rcases List.suffix_cons_iff.mp ha with heq | hsuf
          · exact absurd (List.cons.inj heq).2.symm hroot
          · exact hsuf
        rw [if_neg hroot]
        by_cases hs : tree.viewsAt (.next :: b) = nil
        · rw [getNextFocusableView, existing_of_nil hs, hs]
          exact ih hb
        · rw [getNextFocusableView, existing_of_ne hs]
          have hin : .child :: root <:+ .next :: b := hb.trans (List.suffix_cons _ _)
          refine next_inside hin rfl hs ?_
          rw [climbFrom_next hin]
          exact ih hb

end Forward

end ChromiumUI.FocusCycle
