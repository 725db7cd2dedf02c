import ChromiumUI.OrderedForests

/-!
# Windows, their layers and the web layers under them

Three forests that separate code keeps in the same order. A function answers `none` where a DCHECK
fails, or where the recursion over transient children does not end within the fuel given.
-/
namespace ChromiumUI.Aura

open Forests Function

/-- A layer is named by the window it was made for and how many were made for it before. -/
structure LayerId where
  window : Nat
  number : Nat
  deriving DecidableEq, Repr

structure State where
  /-- children_ and parent_ of the windows. -/
  windows : Forest Nat
  /-- transient_children_ and transient_parent_. -/
  transients : Forest Nat
  /-- layer_ -/
  layer : Nat → LayerId
  /-- children_ and parent_ of the layers. -/
  layers : Forest LayerId
  /-- The web layers, each named by the layer it is part of. -/
  webLayers : Forest LayerId
  /-- delegate_ is not NULL. -/
  hasDelegate : LayerId → Bool

inductive StackDirection where
  | above
  | below
  deriving DecidableEq, Repr

namespace State

/-! ## Layer -/

/-- Layer::Remove. -/
def layerRemove (s : State) (layer child : LayerId) : Option State :=
  if child ∈ s.layers.children layer then
    some { s with
      layers := s.layers.remove layer child
      webLayers := s.webLayers.detach child }
  else none

/-- Layer::Add. -/
def layerAdd (s : State) (layer child : LayerId) : Option State := do
  let s ← match s.layers.parent child with
    | none => some s
    | some parent => s.layerRemove parent child
  some { s with
    layers := s.layers.append layer child
    webLayers := (s.webLayers.detach child).append layer child }

/-- Layer::StackRelativeTo. -/
def layerStackRelativeTo (s : State) (layer child other : LayerId) (above : Bool) : Option State :=
  if child = other ∨ s.layers.parent child ≠ some layer ∨ s.layers.parent other ≠ some layer then
    none
  else
    let children := s.layers.children layer
    let childI := children.idxOf child
    let otherI := children.idxOf other
    if above ∧ childI = otherI + 1 ∨ above = false ∧ childI + 1 = otherI then some s
    else
      let destI :=
        if above then (if childI < otherI then otherI else otherI + 1)
        else (if childI < otherI then otherI - 1 else otherI)
      some { s with
        layers := s.layers.setChildren layer ((children.eraseIdx childI).insertIdx destI child)
        webLayers := (s.webLayers.detach child).insertAt layer child destI }

/-! ## Window -/

/-- Window::RemoveChild. -/
def removeChild (s : State) (window child : Nat) : Option State :=
  if child ∈ s.windows.children window then
    ({ s with windows := s.windows.remove window child }).layerRemove (s.layer window)
      (s.layer child)
  else none

/-- Window::AddChild. -/
def addChild (s : State) (window child : Nat) : Option State :=
  if child ∈ s.windows.children window then none
  else do
    let s ← match s.windows.parent child with
      | none => some s
      | some parent => s.removeChild parent child
    let s ← s.layerAdd (s.layer window) (s.layer child)
    some { s with windows := s.windows.append window child }

/-- Window::StackChildRelativeToImpl. -/
def stackChildRelativeToImpl :
    Nat → State → Nat → Nat → Nat → StackDirection → Option State
  | 0, _, _, _, _, _ => none
  | fuel + 1, s, window, child, target, direction =>
    if child = target ∨ s.windows.parent child ≠ some window ∨
        s.windows.parent target ≠ some window then none
    else
      let children := s.windows.children window
      let childI := children.idxOf child
      let targetI := children.idxOf target
      if direction = .above ∧ childI = targetI + 1 ∨ direction = .below ∧ childI + 1 = targetI then
        some s
      else do
        let destI :=
          if direction = .above then (if childI < targetI then targetI else targetI + 1)
          else (if childI < targetI then targetI - 1 else targetI)
        let s := { s with
          windows := s.windows.setChildren window ((children.eraseIdx childI).insertIdx destI child) }
        let s ← s.layerStackRelativeTo (s.layer window) (s.layer child) (s.layer target)
          (direction = .above)
        -- the transient children go on top of each other, above the child
        let (s, _) ← (s.transients.children child).foldlM
          (fun (s, lastTransient) transientChild =>
            if s.windows.parent transientChild = some window then
              (stackChildRelativeToImpl fuel s window transientChild lastTransient .above).map
                fun s => (s, transientChild)
            else some (s, lastTransient)) (s, child)
        some s

/-- The loop of StackChildRelativeTo that walks back to a window whose layer has a delegate. -/
def finalTarget (s : State) (children : List Nat) : Nat → Nat
  | 0 => 0
  | i + 1 =>
    match children[i + 1]? with
    | none => i + 1
    | some window => if s.hasDelegate (s.layer window) then i + 1 else s.finalTarget children i

/-- Window::StackChildRelativeTo. -/
def stackChildRelativeTo (fuel : Nat) (s : State) (window child target : Nat)
    (direction : StackDirection) : Option State := do
  if child = target ∨ s.windows.parent child ≠ some window ∨
      s.windows.parent target ≠ some window then none
  else
    let children := s.windows.children window
    let finalTarget ← children[s.finalTarget children (children.idxOf target)]?
    if s.hasDelegate (s.layer finalTarget) = false then some s
    else if child = finalTarget then some s
    else stackChildRelativeToImpl fuel s window child finalTarget direction

/-- Window::StackChildAtTop. -/
def stackChildAtTop (fuel : Nat) (s : State) (window child : Nat) : Option State :=
  match (s.windows.children window).getLast? with
  | none => some s
  | some back =>
    if (s.windows.children window).length ≤ 1 ∨ child = back then some s
    else stackChildRelativeTo fuel s window child back .above

/-- Window::RemoveTransientChild. -/
def removeTransientChild (s : State) (window child : Nat) : Option State :=
  if child ∈ s.transients.children window then
    some { s with transients := {
      children := update s.transients.children window
        ((s.transients.children window).erase child)
      parent :=
        if s.transients.parent child = some window then
          update s.transients.parent child none
        else s.transients.parent } }
  else none

/-- Window::AddTransientChild. -/
def addTransientChild (s : State) (window child : Nat) : Option State := do
  let s ← match s.transients.parent child with
    | none => some s
    | some parent => s.removeTransientChild parent child
  if child ∈ s.transients.children window then none
  else some { s with transients := s.transients.append window child }

/-- Window::RecreateLayer; the old layer keeps its place. -/
def recreateLayer (s : State) (window : Nat) : Option State := do
  let oldLayer := s.layer window
  let layer : LayerId := ⟨window, oldLayer.number + 1⟩
  let s := { s with
    layer := update s.layer window layer
    hasDelegate := update (update s.hasDelegate oldLayer false) layer true }
  let s ← match s.layers.parent oldLayer with
    | none => some s
    | some parent => do
      let s ← s.layerAdd parent layer
      s.layerStackRelativeTo parent layer oldLayer true
  (s.layers.children oldLayer).foldlM (fun s child => s.layerAdd layer child) s

/-! ## Runs -/

/-- Windows after Init. -/
def init : State where
  windows := ⟨fun _ => [], fun _ => none⟩
  transients := ⟨fun _ => [], fun _ => none⟩
  layer := fun window => ⟨window, 0⟩
  layers := ⟨fun _ => [], fun _ => none⟩
  webLayers := ⟨fun _ => [], fun _ => none⟩
  hasDelegate := fun layer => layer.number = 0

end State

inductive Action where
  | addChild (window child : Nat)
  | removeChild (window child : Nat)
  | stackChildAtTop (window child : Nat)
  | stackChildAbove (window child target : Nat)
  | stackChildBelow (window child target : Nat)
  | addTransientChild (window child : Nat)
  | removeTransientChild (window child : Nat)
  | recreateLayer (window : Nat)
  /-- The delegate of the window's layer is set to NULL, as when a window closes. -/
  | clearDelegate (window : Nat)

namespace State

def step (fuel : Nat) (s : State) : Action → Option State
  | .addChild window child => s.addChild window child
  | .removeChild window child => s.removeChild window child
  | .stackChildAtTop window child => stackChildAtTop fuel s window child
  | .stackChildAbove window child target => stackChildRelativeTo fuel s window child target .above
  | .stackChildBelow window child target => stackChildRelativeTo fuel s window child target .below
  | .addTransientChild window child => s.addTransientChild window child
  | .removeTransientChild window child => s.removeTransientChild window child
  | .recreateLayer window => s.recreateLayer window
  | .clearDelegate window =>
    some { s with hasDelegate := update s.hasDelegate (s.layer window) false }

end State

end ChromiumUI.Aura
