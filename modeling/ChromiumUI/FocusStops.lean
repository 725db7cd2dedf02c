import ChromiumUI.FocusSearch
import ChromiumUI.Fuel
import ChromiumUI.NestedTours
import Mathlib.Data.List.Infix

/-!
# The stops of a focus traversal

What a search can return, in the order it comes to it: the focusable views and the hosts
of a traversable, each host with the stops of its own. `stops` is the way forward and
`backStops` the way backward.
-/
namespace ChromiumUI.FocusTraversal

open NestedTours

namespace Views

/-- The stops at and after a view and below it; those below a host are its nested ones. -/
def stops : Views → Address → Stops Address
  | nil, _ => .nil
  | view .plain _ children next, a => children.stops (.child :: a) ++ next.stops (.next :: a)
  | view .focusable _ children next, a =>
    .leaf a (children.stops (.child :: a) ++ next.stops (.next :: a))
  | view .host nested _ next, a => .nest a (nested.stops (.nested :: a)) (next.stops (.next :: a))

/-- The stops of these siblings backward. A search that comes in from outside (`fromEnd`)
does not look below the last one of them if that is focusable. -/
def backStops : Bool → Views → Address → Stops Address
  | _, nil, _ => .nil
  | fromEnd, view .plain _ children next, a =>
    backStops fromEnd next (.next :: a) ++ backStops false children (.child :: a)
  | fromEnd, view .focusable _ children next, a =>
    backStops fromEnd next (.next :: a) ++
      ((if fromEnd && next.isNil then .nil else backStops false children (.child :: a)) ++
        .leaf a .nil)
  | fromEnd, view .host nested _ next, a =>
    backStops fromEnd next (.next :: a) ++ .nest a (backStops true nested (.nested :: a)) .nil

variable (tree : Views)

/-- The stops after the ancestors of a view. -/
def above : Address → Stops Address
  | [] => .nil
  | .nested :: _ => .nil
  | .next :: a => above a
  | .child :: a => (tree.viewsAt (.next :: a)).stops (.next :: a) ++ above a

/-- The stops after a view and all that is below it. -/
def beyond (a : Address) : Stops Address :=
  (tree.viewsAt (.next :: a)).stops (.next :: a) ++ above tree a

/-- The stops a search forward has before it at a view. -/
def rest (a : Address) : Stops Address :=
  if tree.isFocusable a then (tree.viewsAt (.child :: a)).stops (.child :: a) ++ beyond tree a
  else beyond tree a

/-- The stops of one view backward. -/
def ownStops (a : Address) : Stops Address :=
  match tree.viewsAt a with
  | nil => .nil
  | view kind nested children _ => backStops false (view kind nested children nil) a

def leafAt (a : Address) : Stops Address :=
  if tree.isFocusable a then .leaf a .nil else .nil

/-- The stops before a view; only siblings of it if there is no way to its parent. -/
def before (canGoUp : Bool) : Address → Stops Address
  | [] => .nil
  | .nested :: _ => .nil
  | .next :: a => ownStops tree a ++ before canGoUp a
  | .child :: a => if canGoUp then leafAt tree a ++ before canGoUp a else .nil

end Views

/-- The stops left in the traversables around that of a view. -/
def outer (rest : Address → Stops Address) : Address → List (Stops Address)
  | [] => []
  | .next :: a => outer rest a
  | .child :: a => outer rest a
  | .nested :: host => rest host :: outer rest host

/-- A view that can be returned: focusable, and nested in hosts only. -/
def InHosts (tree : Views) : Address → Prop
  | [] => True
  | .next :: a => InHosts tree a
  | .child :: a => InHosts tree a
  | .nested :: host => tree.isHost host ∧ InHosts tree host

/-- The stops are in one traversable, and below each host are those its search begins with. -/
def Faithful (entry : Address → Stops Address) : Address → Stops Address → Prop
  | _, .nil => True
  | root, .leaf a rest => traversableOf a = root ∧ Faithful entry root rest
  | root, .nest host inner rest => traversableOf host = root ∧ inner = entry (.nested :: host) ∧
      Faithful entry (.nested :: host) inner ∧ Faithful entry root rest

section

variable {entry : Address → Stops Address} {root : Address}

theorem Faithful.append {s t : Stops Address} (hs : Faithful entry root s)
    (ht : Faithful entry root t) : Faithful entry root (s ++ t) := by
  induction s with
  | nil => exact ht
  | leaf a rest ih => exact ⟨hs.1, ih hs.2⟩
  | nest host inner rest _ ih => exact ⟨hs.1, hs.2.1, hs.2.2.1, ih hs.2.2.2⟩

end

variable {tree : Views}

/-- Where the stops of a traversable begin, forward and backward. -/
def entryStops (tree : Views) (root : Address) : Stops Address := (tree.viewsAt root).stops root

def entryBackStops (tree : Views) (root : Address) : Stops Address :=
  Views.backStops true (tree.viewsAt root) root

theorem viewsAt_cons (step : Step) {a : Address} {kind : Kind} {nested children next : Views}
    (h : tree.viewsAt a = .view kind nested children next) :
    tree.viewsAt (step :: a) = (Views.view kind nested children next).follow step := by
  rw [Views.viewsAt, h]

theorem stops_faithful {s : Views} {a : Address} (h : tree.viewsAt a = s) :
    Faithful (entryStops tree) (traversableOf a) (s.stops a) := by
  induction s generalizing a with
  | nil => trivial
  | view kind nested children next ihn ihc ihx =>
    have hc := ihc (viewsAt_cons .child h)
    have hx := ihx (viewsAt_cons .next h)
    cases kind with
    | plain => exact hc.append hx
    | focusable => exact ⟨rfl, hc.append hx⟩
    | host =>
      have hn := viewsAt_cons .nested h
      exact ⟨rfl, congrArg (Views.stops · (.nested :: a)) hn.symm, ihn hn, hx⟩

theorem above_faithful (a : Address) :
    Faithful (entryStops tree) (traversableOf a) (tree.above a) := by
  induction a with
  | nil => trivial
  | cons step a ih =>
    cases step with
    | nested => trivial
    | next => exact ih
    | child => exact (stops_faithful (a := .next :: a) rfl).append ih

theorem beyond_faithful (a : Address) :
    Faithful (entryStops tree) (traversableOf a) (tree.beyond a) :=
  (stops_faithful (a := .next :: a) rfl).append (above_faithful a)

theorem rest_faithful (a : Address) :
    Faithful (entryStops tree) (traversableOf a) (tree.rest a) := by
  unfold Views.rest
  split
  · exact (stops_faithful (a := .child :: a) rfl).append (beyond_faithful a)
  · exact beyond_faithful a

theorem backStops_faithful (fromEnd : Bool) {s : Views} {a : Address} (h : tree.viewsAt a = s) :
    Faithful (entryBackStops tree) (traversableOf a) (Views.backStops fromEnd s a) := by
  induction s generalizing a fromEnd with
  | nil => trivial
  | view kind nested children next ihn ihc ihx =>
    have hc := ihc false (viewsAt_cons .child h)
    have hx := ihx fromEnd (viewsAt_cons .next h)
    cases kind with
    | plain => exact hx.append hc
    | focusable =>
      refine hx.append (Faithful.append ?_ ⟨rfl, trivial⟩)
      split
      · trivial
      · exact hc
    | host =>
      have hn := viewsAt_cons .nested h
      exact hx.append ⟨rfl, congrArg (Views.backStops true · (.nested :: a)) hn.symm,
        ihn true hn, trivial⟩

theorem ownStops_faithful (a : Address) :
    Faithful (entryBackStops tree) (traversableOf a) (tree.ownStops a) := by
  unfold Views.ownStops
  cases h : tree.viewsAt a with
  | nil => trivial
  | view kind nested children next =>
    have hc := backStops_faithful false (viewsAt_cons .child h)
    have hn := viewsAt_cons .nested h
    cases kind with
    | plain => exact hc
    | focusable => exact hc.append ⟨rfl, trivial⟩
    | host =>
      exact ⟨rfl, congrArg (Views.backStops true · (.nested :: a)) hn.symm,
        backStops_faithful true hn, trivial⟩

theorem leafAt_faithful (a : Address) :
    Faithful (entryBackStops tree) (traversableOf a) (tree.leafAt a) := by
  unfold Views.leafAt
  split
  · exact ⟨rfl, trivial⟩
  · trivial

theorem before_faithful (canGoUp : Bool) (a : Address) :
    Faithful (entryBackStops tree) (traversableOf a) (tree.before canGoUp a) := by
  induction a with
  | nil => trivial
  | cons step a ih =>
    cases step with
    | nested => trivial
    | next => exact (ownStops_faithful a).append ih
    | child =>
      rw [Views.before]
      split
      · exact (leafAt_faithful a).append ih
      · trivial

/-! ## What the searches return

Every search ends, and returns the first of the stops that lie before it. -/

open Fuel Views

/-- The first stop, as a search returns it. -/
def first : Stops Address → Found
  | .nil => .null
  | .leaf a _ => .view a
  | .nest host _ _ => .traversable host

variable {s t : Stops Address}

theorem computes_orTry {f g : Nat → Option Found} (hf : Computes f (first s))
    (hg : Computes g (first t)) :
    Computes (fun fuel => orTry (f fuel) (g fuel)) (first (s ++ t)) := by
  apply Computes.bind hf
  cases s with
  | nil => exact hg
  | leaf a rest => exact .pure _
  | nest host inner rest => exact .pure _

theorem first_append (h : s = .nil → t = .nil) : first (s ++ t) = first s := by
  cases s with
  | nil => rw [h rfl]; rfl
  | leaf a rest => rfl
  | nest host inner rest => rfl

/-- What comes after the first stops matters only where there are none. -/
theorem first_within (s : Stops Address) {u : Stops Address} (h : t = u ∨ t = .nil) :
    first (s ++ t) = first (s ++ u) ∨ first (s ++ t) = .null ∧ s = .nil ∧ t = .nil := by
  rcases h with rfl | rfl
  · exact .inl rfl
  · cases s with
    | nil => exact .inr ⟨rfl, rfl, rfl⟩
    | leaf a rest => exact .inl rfl
    | nest host inner rest => exact .inl rfl

variable {tree : Views} {root : Address}

theorem computes_tryExisting {b : Address} {search : Nat → Address → Option Found}
    (hnil : tree.viewsAt b = nil → s = .nil)
    (h : tree.viewsAt b ≠ nil → Computes (fun fuel => search fuel b) (first s)) :
    Computes (fun fuel => tryFrom (tree.existing b) (search fuel)) (first s) := by
  unfold existing
  cases hb : tree.viewsAt b with
  | nil =>
    rw [hnil hb]
    exact .pure _
  | view kind nested children next => exact h (by rw [hb]; exact nofun)

variable {a : Address} {kind : Kind} {nested children next : Views}

section

variable (h : tree.viewsAt a = view kind nested children next)
include h

theorem isFocusable_of : tree.isFocusable a = (kind == .focusable) := by
  rw [isFocusable, h]
  cases kind <;> rfl

theorem isHost_of : tree.isHost a = (kind == .host) := by
  rw [isHost, h]
  cases kind <;> rfl

end

section Forward

/-- A search that does not stop at its starting view. -/
theorem next_computes {a : Address} {check up down : Bool} {below beside up' : Stops Address}
    (hfocus : (check && tree.isFocusable a) = false) (hhost : (check && tree.isHost a) = false)
    (hbelow : Computes (fun fuel => tryFrom (if down then tree.firstChild a else none)
      fun child => findNextFocusableViewImpl tree root fuel child true false true) (first below))
    (hbeside : Computes (fun fuel => tryFrom (tree.getNextFocusableView a)
      fun sibling => findNextFocusableViewImpl tree root fuel sibling true false true)
        (first beside))
    (hup : Computes (fun fuel => tryFrom
        (if up then (parents root a).findSome? tree.getNextFocusableView else none)
      fun sibling => findNextFocusableViewImpl tree root fuel sibling true true true) (first up')) :
    Computes (fun fuel => findNextFocusableViewImpl tree root fuel a check up down)
      (first (below ++ (beside ++ up'))) := by
  refine (computes_orTry hbelow (computes_orTry hbeside hup)).succ fun fuel => ?_
  rw [findNextFocusableViewImpl, hfocus, hhost]
  rfl

/-- A search that may stop at its starting view, and goes down. -/
theorem next_computes_checked {a : Address} {up : Bool} {s : Views} {up' : Stops Address}
    (h : tree.viewsAt a = s) (hs : s ≠ nil)
    (hbelow : Computes (fun fuel => tryFrom (tree.firstChild a)
      fun child => findNextFocusableViewImpl tree root fuel child true false true)
        (first ((tree.viewsAt (.child :: a)).stops (.child :: a))))
    (hbeside : Computes (fun fuel => tryFrom (tree.getNextFocusableView a)
      fun sibling => findNextFocusableViewImpl tree root fuel sibling true false true)
        (first ((tree.viewsAt (.next :: a)).stops (.next :: a))))
    (hup : Computes (fun fuel => tryFrom
        (if up then (parents root a).findSome? tree.getNextFocusableView else none)
      fun sibling => findNextFocusableViewImpl tree root fuel sibling true true true) (first up')) :
    Computes (fun fuel => findNextFocusableViewImpl tree root fuel a true up true)
      (first (s.stops a ++ up')) := by
  cases s with
  | nil => exact absurd rfl hs
  | view kind nested children next =>
    have hf := isFocusable_of h
    have hh := isHost_of h
    rw [viewsAt_cons .child h] at hbelow
    rw [viewsAt_cons .next h] at hbeside
    cases kind with
    | plain =>
      have hrun := @next_computes tree root a true up true (children.stops (.child :: a))
        (next.stops (.next :: a)) up' (by rw [hf]; rfl) (by rw [hh]; rfl) hbelow hbeside hup
      rw [← Stops.append_assoc] at hrun
      exact hrun
    | focusable =>
      refine (Computes.pure _).succ fun fuel => ?_
      rw [findNextFocusableViewImpl, hf]
      rfl
    | host =>
      refine (Computes.pure _).succ fun fuel => ?_
      rw [findNextFocusableViewImpl, hf, hh]
      rfl

theorem tryFrom_none (search : Nat → Address → Option Found) :
    Computes (fun fuel => tryFrom none (search fuel)) (first .nil) := .pure _

/-- Down and to the right. -/
theorem next_down {s : Views} (h : tree.viewsAt a = s) (hs : s ≠ nil) :
    Computes (fun fuel => findNextFocusableViewImpl tree root fuel a true false true)
      (first (s.stops a)) := by
  induction s generalizing a with
  | nil => exact absurd rfl hs
  | view kind nested children next _ ihc ihx =>
    have hc := viewsAt_cons .child h
    have hx := viewsAt_cons .next h
    have hrun := @next_computes_checked tree root a false _ .nil h nofun
      (computes_tryExisting (fun hnil => by rw [hnil]; rfl) fun hne => by
        rw [hc] at hne ⊢
        exact ihc hc hne)
      (computes_tryExisting (fun hnil => by rw [hnil]; rfl) fun hne => by
        rw [hx] at hne ⊢
        exact ihx hx hne)
      (tryFrom_none _)
    rwa [Stops.append_nil] at hrun

theorem next_child (a : Address) :
    Computes (fun fuel => tryFrom (tree.firstChild a)
      fun child => findNextFocusableViewImpl tree root fuel child true false true)
        (first ((tree.viewsAt (.child :: a)).stops (.child :: a))) :=
  computes_tryExisting (fun hnil => by rw [hnil]; rfl) fun hne => next_down rfl hne

theorem next_sibling (a : Address) :
    Computes (fun fuel => tryFrom (tree.getNextFocusableView a)
      fun sibling => findNextFocusableViewImpl tree root fuel sibling true false true)
        (first ((tree.viewsAt (.next :: a)).stops (.next :: a))) :=
  computes_tryExisting (fun hnil => by rw [hnil]; rfl) fun hne => next_down rfl hne

/-- Up the parents, to the right sibling of the first one that has any. -/
theorem next_up (ha : traversableOf a = root) :
    Computes (fun fuel => tryFrom
        (if true then (parents root a).findSome? tree.getNextFocusableView else none)
      fun sibling => findNextFocusableViewImpl tree root fuel sibling true true true)
        (first (tree.above a)) := by
  induction a with
  | nil => rw [parents, if_pos ha]; exact .pure _
  | cons step a ih =>
    cases step with
    | nested => rw [parents, if_pos ha]; exact .pure _
    | next =>
      have hup := ih ha
      rw [parents, if_pos (show traversableOf a = root from ha)] at hup
      rw [parents, if_pos ha]
      exact hup
    | child =>
      have hup := ih ha
      have hroot : traversableOf a = root := ha
      rw [parents, if_pos hroot] at hup
      rw [parents, if_pos ha, above, ancestors, List.findSome?_cons]
      cases hx : tree.viewsAt (.next :: a) with
      | nil =>
        have hnone : tree.getNextFocusableView a = none := by
          rw [Views.getNextFocusableView, existing, hx]
          rfl
        rw [hnone]
        exact hup
      | view kind nested children next =>
        have hsome : tree.getNextFocusableView a = some (.next :: a) := by
          rw [Views.getNextFocusableView, existing, hx]
          rfl
        rw [hsome]
        have hparents : parents root (.next :: a) = ancestors a := if_pos ha
        apply next_computes_checked hx nofun (next_child _) (next_sibling _)
        rw [hparents]
        exact hup

end Forward

section Backward

/-- The part of a search backward that follows the look at the view itself. -/
def backFrom (tree : Views) (root : Address) (fuel : Nat) (a : Address) (canGoUp : Bool) :
    Option Found :=
  match getPreviousFocusableView a with
  | some sibling => findPreviousFocusableViewImpl tree root fuel sibling true true true
  | none => tryFrom (if canGoUp then (parents root a).head? else none)
      fun parent => findPreviousFocusableViewImpl tree root fuel parent true true false

/-- The stops before a view, as far as a search inside `root` gets. -/
def backStopsOf (tree : Views) (root a : Address) : Stops Address :=
  tree.before (decide (traversableOf a = root)) a

theorem look_computes {a : Address} {check up : Bool} {s : Stops Address}
    (h : Computes (fun fuel => backFrom tree root fuel a up) (first s)) :
    Computes (fun fuel => if check && tree.isFocusable a then some (.view a)
      else backFrom tree root fuel a up) (first ((if check then tree.leafAt a else .nil) ++ s)) := by
  unfold leafAt
  cases hf : tree.isFocusable a with
  | false => simpa using h
  | true =>
    cases check with
    | false => simpa using h
    | true => exact .pure _

/-- Without going down. -/
theorem previous_computes {a : Address} {check up : Bool} {s : Stops Address}
    (h : Computes (fun fuel => backFrom tree root fuel a up) (first s)) :
    Computes (fun fuel => findPreviousFocusableViewImpl tree root fuel a check up false)
      (first ((if check then tree.leafAt a else .nil) ++ s)) := by
  refine (look_computes h).succ fun fuel => ?_
  rw [findPreviousFocusableViewImpl]
  rfl

theorem backFrom_child
    (h : Computes (fun fuel => backFrom tree root fuel a true) (first (backStopsOf tree root a))) :
    Computes (fun fuel => backFrom tree root fuel (.child :: a) true)
      (first (backStopsOf tree root (.child :: a))) := by
  have hroot : traversableOf (.child :: a) = traversableOf a := rfl
  by_cases ha : traversableOf a = root
  · have hparents : (parents root (.child :: a)).head? = some a := by
      rw [parents, hroot, if_pos ha]
      rfl
    have hdec : decide (traversableOf a = root) = true := decide_eq_true ha
    rw [backStopsOf, hdec] at h
    rw [backStopsOf, hroot, hdec, before, if_pos rfl]
    refine (@previous_computes tree root a true true _ h).congr fun fuel => ?_
    simp only [backFrom, getPreviousFocusableView, if_true, hparents]
    rfl
  · have hparents : (parents root (.child :: a)).head? = none := by
      rw [parents, hroot, if_neg ha]
      rfl
    have hdec : decide (traversableOf a = root) = false := decide_eq_false ha
    rw [backStopsOf, hroot, hdec, before, if_neg Bool.false_ne_true]
    refine (tryFrom_none fun _ _ => none).congr fun fuel => ?_
    simp only [backFrom, getPreviousFocusableView, if_true, hparents]
    rfl

theorem backFrom_next (up : Bool)
    (h : Computes (fun fuel => findPreviousFocusableViewImpl tree root fuel a true true true)
      (first (tree.ownStops a ++ backStopsOf tree root a))) :
    Computes (fun fuel => backFrom tree root fuel (.next :: a) up)
      (first (backStopsOf tree root (.next :: a))) := h

/-- What a search from a last child that must not go up returns: the first of the stops up
to there, or nothing because it did not look beyond a view without stops. -/
def FindsLast (tree : Views) (root a : Address) : Prop :=
  ∃ found, Computes (fun fuel => findPreviousFocusableViewImpl tree root fuel a true false true) found ∧
    (found = first (tree.ownStops a ++ backStopsOf tree root a) ∨
      found = .null ∧ tree.ownStops a = .nil ∧ getPreviousFocusableView a = none)

theorem lastOf_single (kind : Kind) (nested children : Views) (a : Address) :
    lastOf (view kind nested children nil) a = a := rfl

theorem lastOf_more (kind kind' : Kind) (nested children nested' children' next' : Views)
    (a : Address) :
    lastOf (view kind nested children (view kind' nested' children' next')) a =
      lastOf (view kind' nested' children' next') (.next :: a) := rfl

theorem lastOf_next (s : Views) (a : Address) : ∃ b, lastOf s (.next :: a) = .next :: b := by
  induction s generalizing a with
  | nil => exact ⟨a, rfl⟩
  | view kind nested children next _ _ ih =>
    unfold lastOf
    split
    · exact ⟨a, rfl⟩
    · exact ih (.next :: a)

theorem ownStops_of (h : tree.viewsAt a = view kind nested children next) :
    tree.ownStops a = backStops false (view kind nested children nil) a := by
  rw [ownStops, h]

theorem backStops_view (kind : Kind) (nested children next : Views) (a : Address) :
    backStops false (view kind nested children next) a =
      backStops false next (.next :: a) ++ backStops false (view kind nested children nil) a := by
  cases kind <;> simp [backStops]

/-- The stops up to the last of some siblings are those of all of them. -/
theorem lastOf_stops {s : Views} (h : tree.viewsAt a = s) (hs : s ≠ nil) (up : Bool) :
    tree.ownStops (lastOf s a) ++ tree.before up (lastOf s a) =
      backStops false s a ++ tree.before up a := by
  induction s generalizing a with
  | nil => exact absurd rfl hs
  | view kind nested children next _ _ ih =>
    have hx := viewsAt_cons .next h
    cases next with
    | nil => rw [lastOf_single, ownStops_of h]
    | view kind' nested' children' next' =>
      rw [lastOf_more, ih hx nofun, before, ownStops_of h, ← Stops.append_assoc,
        ← backStops_view]

theorem traversableOf_lastOf (s : Views) (a : Address) :
    traversableOf (lastOf s a) = traversableOf a := by
  induction s generalizing a with
  | nil => rfl
  | view kind nested children next _ _ ih =>
    unfold lastOf
    split
    · rfl
    · exact ih (.next :: a)

/-- A search that looks at the view and all that is below it, given what the search from
the last child finds and what lies before the view (or nothing, if it must not go up). -/
theorem previous_computes_down {up : Bool} (h : tree.viewsAt a = view kind nested children next)
    (hchild : children ≠ nil → FindsLast tree root (lastOf children (.child :: a)))
    (hback : Computes (fun fuel => backFrom tree root fuel a up) (first s))
    (hs : s = backStopsOf tree root a ∨ s = .nil) :
    ∃ found, Computes (fun fuel => findPreviousFocusableViewImpl tree root fuel a true up true) found ∧
      (found = first (tree.ownStops a ++ backStopsOf tree root a) ∨
        found = .null ∧ tree.ownStops a = .nil ∧ s = .nil) := by
  have hhost := isHost_of h
  have hc := viewsAt_cons .child h
  by_cases hkind : kind = .host
  · subst hkind
    refine ⟨.traversable a, (Computes.pure _).succ fun fuel => ?_, .inl ?_⟩
    · rw [findPreviousFocusableViewImpl, hhost]
      rfl
    · rw [ownStops_of h]
      rfl
  · have hown : tree.ownStops a = backStops false children (.child :: a) ++ tree.leafAt a := by
      rw [ownStops_of h, leafAt, isFocusable_of h]
      cases kind with
      | plain => simp [backStops]
      | focusable => simp [backStops]
      | host => exact absurd rfl hkind
    have hlook := @look_computes tree root a true up s hback
    rw [if_pos rfl] at hlook
    have hsucc : ∀ fuel, findPreviousFocusableViewImpl tree root (fuel + 1) a true up true =
        orTry (tryFrom (tree.lastChild a)
          fun child => findPreviousFocusableViewImpl tree root fuel child true false true)
          (if true && tree.isFocusable a then some (.view a) else backFrom tree root fuel a up) := by
      intro fuel
      have hno : tree.isHost a = false := by
        rw [hhost]
        exact beq_false_of_ne hkind
      rw [findPreviousFocusableViewImpl, hno]
      rfl
    cases hchildren : children with
    | nil =>
      have hnone : tree.lastChild a = none := by
        rw [lastChild, firstChild, existing, hc, hchildren]
        rfl
      refine ⟨first (tree.leafAt a ++ s), Computes.succ hlook fun fuel => ?_, ?_⟩
      · rw [hsucc, hnone]
        rfl
      · rw [hown, hchildren]
        exact first_within _ hs
    | view kind' nested' children' next' =>
      have hne : children ≠ nil := by
        rw [hchildren]
        exact nofun
      have hsome : tree.lastChild a = some (lastOf children (.child :: a)) := by
        have hat : tree.viewsAt (.child :: a) = children := hc
        rw [lastChild, firstChild, existing, hat, hchildren]
        rfl
      obtain ⟨below, hbelow, hfound⟩ := hchild hne
      have hrun : ∀ below', below = first below' →
          Computes (fun fuel => findPreviousFocusableViewImpl tree root fuel a true up true)
            (first (below' ++ (tree.leafAt a ++ s))) := by
        rintro below' rfl
        refine (computes_orTry hbelow hlook).succ fun fuel => ?_
        rw [hsucc, hsome]
        rfl
      have hstops : tree.ownStops (lastOf children (.child :: a)) ++
          backStopsOf tree root (lastOf children (.child :: a)) =
            backStops false children (.child :: a) ++ backStopsOf tree root (.child :: a) := by
        unfold backStopsOf
        rw [traversableOf_lastOf]
        exact lastOf_stops hc hne _
      rcases hfound with hfound | ⟨hfound, hempty, hprev⟩
      · by_cases ha : traversableOf a = root
        · -- the search from the last child has been all the way up already
          have hup : backStopsOf tree root (.child :: a) =
              tree.leafAt a ++ backStopsOf tree root a := by
            have hdec : decide (traversableOf a = root) = true := decide_eq_true ha
            have hroot : traversableOf (.child :: a) = traversableOf a := rfl
            rw [backStopsOf, backStopsOf, hroot, hdec]
            rfl
          rw [hstops, hup, ← Stops.append_assoc, ← hown] at hfound
          refine ⟨_, hrun _ hfound, .inl (first_append ?_)⟩
          intro hnil
          obtain ⟨hown', hpre⟩ := Stops.append_eq_nil hnil
          have hleaf : tree.leafAt a = .nil := (Stops.append_eq_nil (hown ▸ hown')).2
          rw [hleaf]
          rcases hs with hs | hs
          · exact hs.trans hpre
          · exact hs
        · have hup : backStopsOf tree root (.child :: a) = .nil := by
            have hdec : decide (traversableOf a = root) = false := decide_eq_false ha
            have hroot : traversableOf (.child :: a) = traversableOf a := rfl
            rw [backStopsOf, hroot, hdec]
            rfl
          rw [hstops, hup, Stops.append_nil] at hfound
          refine ⟨_, hrun _ hfound, ?_⟩
          rw [← Stops.append_assoc, ← hown]
          exact first_within _ hs
      · have hone : tree.ownStops (lastOf children (.child :: a)) =
            backStops false children (.child :: a) := by
          cases next' with
          | nil => rw [hchildren, lastOf_single, ownStops_of (hc.trans hchildren)]
          | view kind'' nested'' children'' next'' =>
            rw [hchildren, lastOf_more] at hprev
            obtain ⟨b, hb⟩ := lastOf_next (view kind'' nested'' children'' next'') (.child :: a)
            rw [hb] at hprev
            cases hprev
        refine ⟨_, hrun .nil hfound, ?_⟩
        rw [hown, ← hone, hempty]
        exact first_within _ hs

/-- A search from a view that must look at it, go down and may go up. -/
theorem previous_computes_view (h : tree.viewsAt a = view kind nested children next)
    (hchild : children ≠ nil → FindsLast tree root (lastOf children (.child :: a)))
    (hback : Computes (fun fuel => backFrom tree root fuel a true)
      (first (backStopsOf tree root a))) :
    Computes (fun fuel => findPreviousFocusableViewImpl tree root fuel a true true true)
      (first (tree.ownStops a ++ backStopsOf tree root a)) := by
  obtain ⟨found, hrun, hfound⟩ := previous_computes_down h hchild hback (.inl rfl)
  rcases hfound with rfl | ⟨rfl, hown, hpre⟩
  · exact hrun
  · rw [hown, hpre]
    exact hrun

/-- From the first of some siblings to the last: each is searched once what lies before
it is known to be found. -/
theorem previous_chain {s : Views} (h : tree.viewsAt a = s) (hs : s ≠ nil)
    (hback : Computes (fun fuel => backFrom tree root fuel a true)
      (first (backStopsOf tree root a)))
    (hstay : ∃ t, Computes (fun fuel => backFrom tree root fuel a false) (first t) ∧
      (t = backStopsOf tree root a ∨ t = .nil ∧ getPreviousFocusableView a = none)) :
    Computes (fun fuel => findPreviousFocusableViewImpl tree root fuel a true true true)
      (first (tree.ownStops a ++ backStopsOf tree root a)) ∧
      FindsLast tree root (lastOf s a) := by
  induction s generalizing a with
  | nil => exact absurd rfl hs
  | view kind nested children next _ ihc ihx =>
    have hc : tree.viewsAt (.child :: a) = children := viewsAt_cons .child h
    have hx : tree.viewsAt (.next :: a) = next := viewsAt_cons .next h
    have hchild : children ≠ nil → FindsLast tree root (lastOf children (.child :: a)) :=
      fun hne => (ihc hc hne (backFrom_child hback)
        ⟨.nil, tryFrom_none fun _ _ => none, .inr ⟨rfl, rfl⟩⟩).2
    have hview := previous_computes_view h hchild hback
    refine ⟨hview, ?_⟩
    cases next with
    | nil =>
      rw [lastOf_single]
      obtain ⟨t, hrun, ht⟩ := hstay
      have ht' : t = backStopsOf tree root a ∨ t = .nil := ht.imp_right And.left
      obtain ⟨found, hfinds, hfound⟩ := previous_computes_down h hchild hrun ht'
      refine ⟨found, hfinds, ?_⟩
      rcases hfound with hfound | ⟨hnull, hown, hnil⟩
      · exact .inl hfound
      · rcases ht with rfl | ⟨-, hprev⟩
        · exact .inl (by rw [hnull, hown, hnil]; rfl)
        · exact .inr ⟨hnull, hown, hprev⟩
    | view kind' nested' children' next' =>
      rw [lastOf_more]
      exact (ihx hx nofun (backFrom_next true hview) ⟨_, backFrom_next false hview, .inl rfl⟩).2

theorem previous_missing (h : tree.viewsAt a = nil)
    (hback : Computes (fun fuel => backFrom tree root fuel a true)
      (first (backStopsOf tree root a))) :
    Computes (fun fuel => findPreviousFocusableViewImpl tree root fuel a true true true)
      (first (tree.ownStops a ++ backStopsOf tree root a)) := by
  have hown : tree.ownStops a = .nil := by rw [ownStops, h]
  have hfocus : tree.isFocusable a = false := by rw [isFocusable, h]
  have hhost : tree.isHost a = false := by rw [isHost, h]
  have hnone : tree.lastChild a = none := by
    rw [lastChild, firstChild, existing, viewsAt, h]
    rfl
  rw [hown]
  refine Computes.succ hback fun fuel => ?_
  rw [findPreviousFocusableViewImpl, hhost, hfocus, if_pos rfl, hnone]
  rfl

theorem backFrom_top (hprev : getPreviousFocusableView a = none) (hancestors : ancestors a = [])
    (hpre : backStopsOf tree root a = .nil) :
    Computes (fun fuel => backFrom tree root fuel a true) (first (backStopsOf tree root a)) := by
  have hparents : (parents root a).head? = none := by
    rw [parents, hancestors, ite_self]
    rfl
  rw [hpre]
  refine (tryFrom_none fun _ _ => none).congr fun fuel => ?_
  simp only [backFrom, hprev, if_true, hparents]
  rfl

/-- What lies before a view is found, whatever the view. -/
theorem previous_back (a : Address) :
    Computes (fun fuel => backFrom tree root fuel a true) (first (backStopsOf tree root a)) := by
  induction a with
  | nil => exact backFrom_top rfl rfl rfl
  | cons step a ih =>
    cases step with
    | nested => exact backFrom_top rfl rfl rfl
    | child => exact backFrom_child ih
    | next =>
      apply backFrom_next
      cases h : tree.viewsAt a with
      | nil => exact previous_missing h ih
      | view kind nested children next =>
        apply previous_computes_view h _ ih
        intro hne
        have hc : tree.viewsAt (.child :: a) = children := viewsAt_cons .child h
        exact (previous_chain hc hne (backFrom_child ih)
          ⟨.nil, tryFrom_none fun _ _ => none, .inr ⟨rfl, rfl⟩⟩).2

/-- Every search backward from a view that goes down and may go up. -/
theorem previous_all (a : Address) :
    Computes (fun fuel => findPreviousFocusableViewImpl tree root fuel a true true true)
      (first (tree.ownStops a ++ backStopsOf tree root a)) :=
  previous_back (.next :: a)

end Backward

end ChromiumUI.FocusTraversal
