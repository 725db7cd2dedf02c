import Mathlib.Tactic.Common

/-!
# FocusSearch and FocusManager::GetNextFocusableView

The views of a window and of the windows nested in it, without panes and groups. A
root view is not focusable and has no siblings, so a search ends where it would be
reached, and it is left out. The recursive functions run on fuel.
-/
namespace ChromiumUI.FocusTraversal

/-- What a view is to the search. GetFocusTraversable of a `host` is not NULL, and a
host is not focusable. -/
inductive Kind where
  | plain | focusable | host
  deriving DecidableEq, Repr

/-- The first of some siblings: its nested views, which are those under the root of a
host's FocusTraversable, its children, and the sibling after it. -/
inductive Views where
  | nil
  | view (kind : Kind) (nested children next : Views)
  deriving DecidableEq, Repr

inductive Step where
  | next | child | nested
  deriving DecidableEq, Repr

/-- How to get to a view from the first one of the window, the last step first. The
address of the first view under a root stands for the FocusTraversable of that root. -/
abbrev Address := List Step

namespace Views

def isNil : Views → Bool
  | nil => true
  | view .. => false

def follow : Step → Views → Views
  | _, nil => nil
  | .next, view _ _ _ next => next
  | .child, view _ _ children _ => children
  | .nested, view _ nested _ _ => nested

/-- The view at an address. -/
def viewsAt (tree : Views) : Address → Views
  | [] => tree
  | step :: a => (viewsAt tree a).follow step

def existing (tree : Views) (a : Address) : Option Address :=
  if (tree.viewsAt a).isNil then none else some a

def isFocusable (tree : Views) (a : Address) : Bool :=
  match tree.viewsAt a with
  | view .focusable .. => true
  | _ => false

def isHost (tree : Views) (a : Address) : Bool :=
  match tree.viewsAt a with
  | view .host .. => true
  | _ => false

/-- The last one of these siblings, the first being at `a`. -/
def lastOf : Views → Address → Address
  | nil, a => a
  | view _ _ _ next, a => if next.isNil then a else lastOf next (.next :: a)

def firstChild (tree : Views) (a : Address) : Option Address := tree.existing (.child :: a)

/-- child_at(child_count() - 1) -/
def lastChild (tree : Views) (a : Address) : Option Address :=
  (tree.firstChild a).map (lastOf (tree.viewsAt (.child :: a)))

def getNextFocusableView (tree : Views) (a : Address) : Option Address :=
  tree.existing (.next :: a)

end Views

def getPreviousFocusableView : Address → Option Address
  | .next :: a => some a
  | _ => none

/-- The FocusTraversable of the widget a view is in. -/
def traversableOf : Address → Address
  | [] => []
  | .nested :: a => .nested :: a
  | .next :: a => traversableOf a
  | .child :: a => traversableOf a

def getFocusTraversableParent : Address → Option Address
  | .nested :: host => some (traversableOf host)
  | _ => none

def getFocusTraversableParentView (traversable : Address) : Address := traversable.tail

/-- The views above a view, up to the root. -/
def ancestors : Address → List Address
  | [] => []
  | .nested :: _ => []
  | .next :: a => ancestors a
  | .child :: a => a :: ancestors a

/-- What calling GetParent over and over leads to; there is no parent for a view that
the root does not contain. -/
def parents (root a : Address) : List Address :=
  if traversableOf a = root then ancestors a else []

/-- What a search returns: NULL, a view, or NULL and the FocusTraversable of a host. -/
inductive Found where
  | null
  | view (v : Address)
  | traversable (host : Address)
  deriving DecidableEq, Repr

/-- if (v || *focus_traversable) return v; -/
def orTry (first next : Option Found) : Option Found :=
  first.bind fun found => if found = .null then next else some found

/-- A search that is only made from a view that is there. -/
def tryFrom (a : Option Address) (search : Address → Option Found) : Option Found :=
  match a with
  | none => some .null
  | some a => search a

section

variable (tree : Views) (root : Address)

def findNextFocusableViewImpl : Nat → Address → Bool → Bool → Bool → Option Found
  | 0, _, _, _, _ => none
  | fuel + 1, a, checkStartingView, canGoUp, canGoDown =>
    if checkStartingView && tree.isFocusable a then some (.view a)
    else if checkStartingView && tree.isHost a then some (.traversable a)
    else
      orTry (tryFrom (if canGoDown then tree.firstChild a else none)
        fun child => findNextFocusableViewImpl fuel child true false true) <|
      orTry (tryFrom (tree.getNextFocusableView a)
        fun sibling => findNextFocusableViewImpl fuel sibling true false true) <|
      tryFrom (if canGoUp then (parents root a).findSome? tree.getNextFocusableView else none)
        fun sibling => findNextFocusableViewImpl fuel sibling true true true

def findPreviousFocusableViewImpl : Nat → Address → Bool → Bool → Bool → Option Found
  | 0, _, _, _, _ => none
  | fuel + 1, a, checkStartingView, canGoUp, canGoDown =>
    if canGoDown && tree.isHost a then some (.traversable a)
    else
      orTry (tryFrom (if canGoDown then tree.lastChild a else none)
        fun child => findPreviousFocusableViewImpl fuel child true false true) <|
      if checkStartingView && tree.isFocusable a then some (.view a)
      else match getPreviousFocusableView a with
        | some sibling => findPreviousFocusableViewImpl fuel sibling true true true
        | none => tryFrom (if canGoUp then (parents root a).head? else none)
            fun parent => findPreviousFocusableViewImpl fuel parent true true false

/-- Don't set the focus to something outside of this view hierarchy. -/
def Found.within : Found → Found
  | .view v => if traversableOf v = root then .view v else .null
  | found => found

/-- FocusSearch::FindNextFocusableView, for a search that does not cycle. -/
def findNextFocusableView (fuel : Nat) (startingView : Option Address)
    (reverse down checkStartingView : Bool) : Option Found :=
  if (tree.viewsAt root).isNil then some .null
  else
    let start := startingView.getD
      (if reverse then Views.lastOf (tree.viewsAt root) root else root)
    let checkStartingView := checkStartingView || startingView.isNone
    let found := if reverse then
        findPreviousFocusableViewImpl tree root fuel start checkStartingView true
          (down && !tree.isFocusable start)
      else findNextFocusableViewImpl tree root fuel start checkStartingView true down
    found.map (Found.within root)

end

/-- FocusManager::FindFocusableView -/
def findFocusableView (tree : Views) (reverse : Bool) :
    Nat → Address → Option Address → Option (Option Address)
  | 0, _, _ => none
  | fuel + 1, traversable, startingView =>
    (findNextFocusableView tree traversable fuel startingView reverse true false).bind fun
      | .null => some none
      | .view v => some (some v)
      | .traversable host => findFocusableView tree reverse fuel (.nested :: host) none

/-- The way up the FocusTraversables. The starting view stays that of the traversable the
way began at. -/
def findUpwards (tree : Views) (reverse : Bool) (startingView : Address) :
    Nat → Option Address → Option (Option Address)
  | 0, _ => none
  | _ + 1, none => some none
  | fuel + 1, some parent =>
    (findNextFocusableView tree parent fuel (some startingView) reverse false reverse).bind
      fun found =>
        (match found with
          | .null => some none
          | .view v => some (some v)
          | .traversable host => findFocusableView tree reverse fuel (.nested :: host) none).bind
        fun v => if v.isSome then some v
          else findUpwards tree reverse startingView fuel (getFocusTraversableParent parent)

/-- The FocusTraversable to begin at, and the view to start from. -/
def startOf (tree : Views) (reverse : Bool) : Option Address → Address × Option Address
  | none => ([], none)
  | some a => if !reverse && tree.isHost a then (.nested :: a, none)
    else (traversableOf a, some a)

/-- FocusManager::GetNextFocusableView -/
def getNextFocusableView (tree : Views) (reverse : Bool) :
    Nat → Option Address → Bool → Option (Option Address)
  | 0, _, _ => none
  | fuel + 1, originalStartingView, dontLoop =>
    let (traversable, startingView) := startOf tree reverse originalStartingView
    (findFocusableView tree reverse fuel traversable startingView).bind fun v =>
      if v.isSome then some v
      else (findUpwards tree reverse (getFocusTraversableParentView traversable) fuel
        (getFocusTraversableParent traversable)).bind fun v =>
          if v.isSome then some v
          else if !dontLoop && originalStartingView.isSome then
            getNextFocusableView tree reverse fuel none true
          else some none

/-- What repeated calls return, fed back each time: NULL first. -/
def callsFrom (tree : Views) (reverse : Bool) (fuel : Nat) : Nat → Option (Option Address)
  | 0 => some none
  | calls + 1 => (callsFrom tree reverse fuel calls).bind fun v =>
      getNextFocusableView tree reverse fuel v false

/-- The focusable views at and after a view, in pre-order of the composed tree. -/
def Views.order : Views → Address → List Address
  | .nil, _ => []
  | .view kind nested children next, a =>
    (if kind = .focusable then [a] else []) ++
      (if kind = .host then nested.order (.nested :: a) else []) ++
      children.order (.child :: a) ++ next.order (.next :: a)

end ChromiumUI.FocusTraversal
