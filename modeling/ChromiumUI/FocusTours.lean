import ChromiumUI.FocusStops

/-!
# From searches to GetNextFocusableView

What the two directions have in common: where their stops begin and how they go on. A
call goes through the stops of the view's traversable, then through those of the
traversable around it, and then starts over.
-/
namespace ChromiumUI.FocusTraversal

open NestedTours Fuel Views

/-- The address of the first view under a root. -/
def IsRoot : Address → Prop
  | [] => True
  | .nested :: _ => True
  | _ => False

/-- The searches of one direction: what is found on entering a traversable, on leaving a
focusable view or a host, and with a starting view that is not in the traversable. -/
structure Searches (tree : Views) (reverse : Bool) (entry rest : Address → Stops Address) : Prop where
  enter : ∀ root, IsRoot root → Computes (fun fuel =>
    findNextFocusableView tree root fuel none reverse true false) (first (entry root))
  leave : ∀ a, tree.isFocusable a → Computes (fun fuel =>
    findNextFocusableView tree (traversableOf a) fuel (some a) reverse true false) (first (rest a))
  leaveHost : ∀ host, tree.isHost host → Computes (fun fuel =>
    findNextFocusableView tree (traversableOf host) fuel (some host) reverse false reverse)
      (first (rest host))
  astray : ∀ host root, tree.isHost host → traversableOf host ≠ root →
    ∃ found, Computes (fun fuel =>
      findNextFocusableView tree root fuel (some host) reverse false reverse) found ∧
      (found = .null ∨ ∃ other inner others,
        found = .traversable other ∧ rest host = .nest other inner others)
  entry_faithful : ∀ root, IsRoot root → Faithful entry root (entry root)
  rest_faithful : ∀ a, Faithful entry (traversableOf a) (rest a)

theorem outer_traversable (rest : Address → Stops Address) (a : Address) :
    outer rest a = outer rest (traversableOf a) := by
  induction a with
  | nil => rfl
  | cons step a ih =>
    cases step with
    | nested => rfl
    | next => exact ih
    | child => exact ih

theorem length_traversableOf_le (a : Address) : (traversableOf a).length ≤ a.length := by
  induction a with
  | nil => exact Nat.le_refl _
  | cons step a ih =>
    cases step with
    | nested => exact Nat.le_refl _
    | next | child => exact Nat.le_succ_of_le ih

theorem isRoot_traversableOf (a : Address) : IsRoot (traversableOf a) := by
  induction a with
  | nil => trivial
  | cons step a ih =>
    cases step with
    | nested => trivial
    | next => exact ih
    | child => exact ih

theorem inHosts_traversableOf {tree : Views} {a : Address} (h : InHosts tree a) :
    InHosts tree (traversableOf a) := by
  induction a with
  | nil => trivial
  | cons step a ih =>
    cases step with
    | nested => exact h
    | next => exact ih h
    | child => exact ih h

theorem not_isHost_of_isFocusable {tree : Views} {a : Address} (h : tree.isFocusable a) :
    tree.isHost a = false := by
  unfold isFocusable at h
  unfold isHost
  split at h
  · rename_i heq
    rw [heq]
  · cases h

/-- What the call with this starting view returns. -/
def nextView (entry rest : Address → Stops Address) : Option Address → Option Address
  | none => (entry []).enter
  | some a => (entry []).turn (rest a :: outer rest a)

/-- What becomes of what a search found. -/
def resolve (tree : Views) (reverse : Bool) (fuel : Nat) : Found → Option (Option Address)
  | .null => some none
  | .view v => some (some v)
  | .traversable host => findFocusableView tree reverse fuel (.nested :: host) none

namespace Searches

variable {tree : Views} {reverse : Bool} {entry rest : Address → Stops Address}

/-- FindFocusableView goes down to the first view there is. -/
theorem findFocusableView_computes (h : Searches tree reverse entry rest) {s : Stops Address}
    {root : Address} {start : Option Address} (hs : Faithful entry root s)
    (hsearch : Computes (fun fuel =>
      findNextFocusableView tree root fuel start reverse true false) (first s)) :
    Computes (fun fuel => findFocusableView tree reverse fuel root start) s.enter := by
  have hstep : ∀ {r : Option Address},
      Computes (fun fuel => resolve tree reverse fuel (first s)) r →
        Computes (fun fuel => findFocusableView tree reverse fuel root start) r :=
    fun hr => (@Computes.bind _ _ _ (resolve tree reverse) _ _ hsearch hr).succ fun fuel => rfl
  induction s generalizing root start with
  | nil => exact hstep (.pure _)
  | leaf a others _ => exact hstep (.pure _)
  | nest host inner others ihi _ =>
    obtain ⟨-, hinner, hfaith, -⟩ := hs
    have hdown := h.enter (.nested :: host) trivial
    rw [← hinner] at hdown
    apply hstep
    exact ihi hfaith hdown fun hr =>
      (@Computes.bind _ _ _ (resolve tree reverse) _ _ hdown hr).succ fun fuel => rfl

theorem resolve_computes (h : Searches tree reverse entry rest) {s : Stops Address}
    {root : Address} (hs : Faithful entry root s) :
    Computes (fun fuel => resolve tree reverse fuel (first s)) s.enter := by
  cases s with
  | nil => exact .pure _
  | leaf a others => exact .pure _
  | nest host inner others =>
    obtain ⟨-, hinner, hfaith, -⟩ := hs
    have hdown := h.enter (.nested :: host) trivial
    rw [← hinner] at hdown
    have hfound := h.findFocusableView_computes hfaith hdown
    exact hfound

/-- One round of the way up. -/
theorem findUpwards_computes_some {host root : Address} {found : Found} {v w : Option Address}
    (hsearch : Computes (fun fuel =>
      findNextFocusableView tree root fuel (some host) reverse false reverse) found)
    (hv : Computes (fun fuel => resolve tree reverse fuel found) v)
    (hw : v = none → Computes (fun fuel =>
      findUpwards tree reverse host fuel (getFocusTraversableParent root)) w) :
    Computes (fun fuel => findUpwards tree reverse host fuel (some root)) (v.or w) := by
  have hnext : Computes (fun fuel => if v.isSome then some v
      else findUpwards tree reverse host fuel (getFocusTraversableParent root)) (v.or w) := by
    cases v with
    | some a => exact .pure _
    | none => exact hw rfl
  have hround := @Computes.bind _ _ _ (fun fuel v => if v.isSome then some v
    else findUpwards tree reverse host fuel (getFocusTraversableParent root)) _ _ hv hnext
  exact (@Computes.bind _ _ _ (fun fuel found => (resolve tree reverse fuel found).bind fun v =>
    if v.isSome then some v
    else findUpwards tree reverse host fuel (getFocusTraversableParent root)) _ _ hsearch
      hround).succ fun fuel => rfl

/-- Further up nothing is found any more, the starting view not being there. -/
theorem findUpwards_astray (h : Searches tree reverse entry rest) {host : Address}
    (hhost : tree.isHost host) (hnone : (rest host).enter = none) (n : Nat) :
    ∀ parent : Option Address, (∀ root ∈ parent, root.length < n) →
      n ≤ (traversableOf host).length →
      Computes (fun fuel => findUpwards tree reverse host fuel parent) none := by
  induction n with
  | zero =>
    intro parent hpar _
    cases parent with
    | none => exact (Computes.pure _).succ fun fuel => rfl
    | some root => exact absurd (hpar root rfl) (Nat.not_lt_zero _)
  | succ n ih =>
    intro parent hpar hn
    cases parent with
    | none => exact (Computes.pure _).succ fun fuel => rfl
    | some root =>
      have hroot := hpar root rfl
      have hne : traversableOf host ≠ root := by
        intro heq
        rw [heq] at hn
        omega
      obtain ⟨found, hsearch, hfound⟩ := h.astray host root hhost hne
      have hup := ih (getFocusTraversableParent root) (by
        intro above habove
        unfold getFocusTraversableParent at habove
        split at habove
        · rename_i host'
          cases habove
          have hle := length_traversableOf_le host'
          simp only [List.length_cons] at hroot
          omega
        · cases habove) (by omega)
      have hdown : Computes (fun fuel => resolve tree reverse fuel found) none := by
        rcases hfound with rfl | ⟨other, inner, others, rfl, hrest⟩
        · exact .pure _
        · have hfaith := h.rest_faithful host
          rw [hrest] at hfaith hnone
          have hdown := h.resolve_computes hfaith
          rw [hnone] at hdown
          exact hdown
      exact findUpwards_computes_some hsearch hdown fun _ => hup

theorem findUpwards_computes (h : Searches tree reverse entry rest) {host : Address}
    (hhost : tree.isHost host) :
    Computes (fun fuel => findUpwards tree reverse host fuel (some (traversableOf host)))
      (rest host).enter := by
  have hdown := h.resolve_computes (h.rest_faithful host)
  have hround := @findUpwards_computes_some tree reverse host _ _ _ none (h.leaveHost host hhost)
    hdown
  rw [Option.or_none] at hround
  apply hround
  intro henter
  apply h.findUpwards_astray hhost henter (traversableOf host).length _ _ (Nat.le_refl _)
  intro above habove
  cases htrav : traversableOf host with
  | nil =>
    rw [htrav] at habove
    cases habove
  | cons step a =>
    rw [htrav] at habove
    cases step with
    | next => cases habove
    | child => cases habove
    | nested =>
      cases habove
      exact Nat.lt_succ_of_le (length_traversableOf_le a)

theorem startOf_focusable {a : Address} (ha : tree.isFocusable a) :
    startOf tree reverse (some a) = (traversableOf a, some a) := by
  rw [startOf, not_isHost_of_isFocusable ha, Bool.and_false]
  rfl

/-- One call, from what each of its parts returns. -/
theorem getNextFocusableView_parts {start : Option Address} {dontLoop : Bool}
    {v w u : Option Address}
    {root : Address} {from' : Option Address} (hstart : startOf tree reverse start = (root, from'))
    (hv : Computes (fun fuel => findFocusableView tree reverse fuel root from') v)
    (hw : Computes (fun fuel => findUpwards tree reverse (getFocusTraversableParentView root) fuel
      (getFocusTraversableParent root)) w)
    (hu : Computes (fun fuel => if !dontLoop && start.isSome then
      getNextFocusableView tree reverse fuel none true else some none) u) :
    Computes (fun fuel => getNextFocusableView tree reverse fuel start dontLoop)
      ((v.or w).or u) := by
  have hlast : Computes (fun fuel => if w.isSome then some w
      else if !dontLoop && start.isSome then getNextFocusableView tree reverse fuel none true
      else some none) (w.or u) := by
    cases w with
    | some a => exact .pure _
    | none => exact hu
  have hup := @Computes.bind _ _ _ (fun fuel w => if w.isSome then some w
    else if !dontLoop && start.isSome then getNextFocusableView tree reverse fuel none true
    else some none) _ _ hw hlast
  have hnext : Computes (fun fuel => if v.isSome then some v
      else (findUpwards tree reverse (getFocusTraversableParentView root) fuel
        (getFocusTraversableParent root)).bind fun w => if w.isSome then some w
          else if !dontLoop && start.isSome then getNextFocusableView tree reverse fuel none true
          else some none) ((v.or w).or u) := by
    cases v with
    | some a => exact .pure _
    | none => exact hup
  refine (@Computes.bind _ _ _ (fun fuel v => if v.isSome then some v
      else (findUpwards tree reverse (getFocusTraversableParentView root) fuel
        (getFocusTraversableParent root)).bind fun w => if w.isSome then some w
          else if !dontLoop && start.isSome then getNextFocusableView tree reverse fuel none true
          else some none) _ _ hv hnext).succ fun fuel => ?_
  rw [getNextFocusableView, hstart]

theorem getNextFocusableView_none (h : Searches tree reverse entry rest) (dontLoop : Bool) :
    Computes (fun fuel => getNextFocusableView tree reverse fuel none dontLoop)
      (entry []).enter := by
  have hdown := h.findFocusableView_computes (h.entry_faithful [] trivial) (h.enter [] trivial)
  have hup : Computes (fun fuel => findUpwards tree reverse (getFocusTraversableParentView []) fuel
      (getFocusTraversableParent [])) none := (Computes.pure _).succ fun fuel => rfl
  have hcall := @getNextFocusableView_parts tree reverse none dontLoop _ _ none _ _ rfl hdown hup
    (by rw [Option.isSome_none, Bool.and_false]; exact .pure _)
  rwa [Option.or_none, Option.or_none] at hcall

/-- Where a call leads from a view nested in hosts. -/
theorem getNextFocusableView_some (h : Searches tree reverse entry rest) {a : Address}
    (ha : tree.isFocusable a) (hhosts : InHosts tree a) :
    Computes (fun fuel => getNextFocusableView tree reverse fuel (some a) false)
      (nextView entry rest (some a)) := by
  have hdown := h.findFocusableView_computes (h.rest_faithful a) (h.leave a ha)
  have hloop := h.getNextFocusableView_none true
  rw [nextView, Stops.turn, outer_traversable]
  cases htrav : traversableOf a with
  | nil =>
    have hup : Computes (fun fuel => findUpwards tree reverse
        (getFocusTraversableParentView (traversableOf a)) fuel
        (getFocusTraversableParent (traversableOf a))) none := by
      rw [htrav]
      exact (Computes.pure _).succ fun fuel => rfl
    have hcall := @getNextFocusableView_parts tree reverse (some a) false _ _ _ _ _
      (startOf_focusable ha) hdown hup hloop
    rw [Option.or_none] at hcall
    simpa [outer] using hcall
  | cons step host =>
    have hroot := isRoot_traversableOf a
    rw [htrav] at hroot
    cases step with
    | next => exact absurd hroot id
    | child => exact absurd hroot id
    | nested =>
      have hhost : tree.isHost host := by
        have hin := inHosts_traversableOf hhosts
        rw [htrav] at hin
        exact hin.1
      have hup : Computes (fun fuel => findUpwards tree reverse
          (getFocusTraversableParentView (traversableOf a)) fuel
          (getFocusTraversableParent (traversableOf a))) (rest host).enter := by
        rw [htrav]
        exact h.findUpwards_computes hhost
      have hcall := @getNextFocusableView_parts tree reverse (some a) false _ _ _ _ _
        (startOf_focusable ha) hdown hup hloop
      rw [outer]
      cases henter : (rest a).enter <;> cases hhostEnter : (rest host).enter <;>
        simpa [henter, hhostEnter] using hcall

end Searches

/-- A spot of the traversal: a focusable view nested in hosts, with the stops left there. -/
def RightSpot (tree : Views) (rest : Address → Stops Address)
    (p : Address × List (Stops Address)) : Prop :=
  p.2 = rest p.1 :: outer rest p.1 ∧ tree.isFocusable p.1 ∧ InHosts tree p.1

namespace Searches

variable {tree : Views} {reverse : Bool} {entry rest : Address → Stops Address}

theorem follows (hspots : ∀ p ∈ (entry []).spots [], RightSpot tree rest p) :
    (entry []).Follows (nextView entry rest) := by
  refine ⟨rfl, ?_⟩
  intro a left hspot
  exact congrArg (entry []).turn (hspots _ hspot).1.symm

/-- What repeated calls return. -/
theorem callsFrom_computes (h : Searches tree reverse entry rest)
    (hspots : ∀ p ∈ (entry []).spots [], RightSpot tree rest p) (hnodup : (entry []).flat.Nodup)
    (k : Nat) :
    Computes (fun fuel => callsFrom tree reverse fuel k) ((nextView entry rest)^[k] none) := by
  induction k with
  | zero => exact .pure _
  | succ k ih =>
    rw [Function.iterate_succ_apply']
    apply ih.bind
    cases hv : (nextView entry rest)^[k] none with
    | none => exact h.getNextFocusableView_none false
    | some a =>
      have ha : a ∈ (entry []).flat := by
        cases k with
        | zero => cases hv
        | succ k => exact (Stops.front_sublist _).subset ((follows hspots).mem_front hnodup k a hv)
      obtain ⟨left, hspot⟩ := Stops.exists_spot [] ha
      obtain ⟨-, hfocus, hhosts⟩ := hspots _ hspot
      exact h.getNextFocusableView_some hfocus hhosts

end Searches

/-- Repeated calls visit the list, over and over; the first one is made with NULL. -/
def TabsThrough (tree : Views) (reverse : Bool) (l : List Address) : Prop :=
  ∀ k, Computes (fun fuel => callsFrom tree reverse fuel (k + 1)) l[k % l.length]?

theorem Searches.tabsThrough_iff {tree : Views} {reverse : Bool}
    {entry rest : Address → Stops Address} (h : Searches tree reverse entry rest)
    (hspots : ∀ p ∈ (entry []).spots [], RightSpot tree rest p) {l : List Address}
    (hl : l.Nodup) (hsub : (entry []).flat.Sublist l) :
    TabsThrough tree reverse l ↔ (entry []).flat = l ∧ (entry []).Passable := by
  have hnodup : (entry []).flat.Nodup := hsub.nodup hl
  have hcalls := h.callsFrom_computes hspots hnodup
  have htours : TabsThrough tree reverse l ↔ Tours (nextView entry rest) l := by
    constructor
    · intro ht k
      exact (hcalls (k + 1)).unique (ht k)
    · intro ht k
      rw [← ht k]
      exact hcalls (k + 1)
  have hfol := Searches.follows hspots
  rw [htours]
  constructor
  · intro ht
    have hlen : l.length ≤ (entry []).flat.length :=
      (hl.length_le_of_subset (hfol.subset_front hnodup ht)).trans
        (Stops.front_sublist _).length_le
    have hflat : (entry []).flat = l := hsub.eq_of_length_le hlen
    exact ⟨hflat, (hfol.tours_iff hnodup).mp (hflat ▸ ht)⟩
  · rintro ⟨rfl, hpass⟩
    exact hpass.tours hfol hnodup

end ChromiumUI.FocusTraversal
