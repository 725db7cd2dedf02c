import ChromiumUI.Companions
import ChromiumUI.WindowLayers

/-!
# Stacking windows with their transients

StackChildAbove and StackChildBelow move a child with its transient children that share the parent,
and leave the other windows in their order.
-/
namespace ChromiumUI.Aura

open Forests Runs List Option State

/-- The transient children of a window that share the parent. -/
def sharing (s : State) (window w : Nat) : List Nat :=
  (s.transients.children w).filter fun c => s.windows.parent c = some window

/-- The order of the children, from the bottom to the top, after a child is moved. -/
structure Stacked (s t : State) (window child : Nat) : Prop where
  /-- Transient children are above the child, in the order of the transient list. -/
  transients : (child :: sharing s window child).Sublist (t.windows.children window)
  /-- All other windows are in the order in which they were. -/
  outside : ∀ l : List Nat, (∀ w ∈ l, ¬ s.transients.Under w child) →
    (l.Sublist (t.windows.children window) ↔ l.Sublist (s.windows.children window))

/-- Those that go along with a child: its transient children that share the parent, and theirs. -/
def Transient (s : State) (window child w : Nat) : Prop :=
  ∃ c ∈ sharing s window child, GoesAlong (sharing s window) w c

/-- What a move in a direction comes to. -/
structure Moved (s t : State) (window child target : Nat) (direction : StackDirection) : Prop
    extends Stacked s t window child where
  above : direction = .above → DirectlyAbove child target (t.windows.children window)
  below : direction = .below →
    Between child target (Transient s window child) (t.windows.children window)

section
variable {s t : State} {window child target : Nat} {direction : StackDirection}

/-! ## The recursion -/

theorem sharing_congr (htrans : t.transients = s.transients)
    (hpar : t.windows.parent = s.windows.parent) (window : Nat) :
    sharing t window = sharing s window := by
  funext w
  rw [sharing, sharing, htrans, hpar]

theorem children_moved (s : State) (window child target : Nat) (above : Bool) :
    (moved s window child target above).windows.children window =
      moveBeside above child target (s.windows.children window) := by
  rw [moved]
  rw [Forest.setChildren_children, if_pos rfl]

/-- What stacking leaves as it is, and what it makes of the order. -/
structure StackedImpl (s t : State) (window child target : Nat) (above : Bool) : Prop where
  inv : Inv t
  transients : t.transients = s.transients
  parent : t.windows.parent = s.windows.parent
  order : Stacks (sharing s window) above child target (s.windows.children window)
    (t.windows.children window)

theorem stackTransients_stacks {fuel : Nat} {last : Nat} {y : State × Nat} (rest : List Nat)
    (hround : ∀ (u v : State) (c b : Nat), Inv u →
      stackChildRelativeToImpl fuel u window c b .above = some v →
        StackedImpl u v window c b true)
    (h : Inv t) (htrans : t.transients = s.transients)
    (hpar : t.windows.parent = s.windows.parent)
    (hy : rest.foldlM (stackTransient fuel window) (t, last) = some y) :
    Inv y.1 ∧ y.1.transients = s.transients ∧ y.1.windows.parent = s.windows.parent ∧
      StacksAll (sharing s window) last
        (rest.filter fun c => s.windows.parent c = some window) (t.windows.children window)
        (y.1.windows.children window) := by
  induction rest generalizing t last with
  | nil =>
    cases hy
    exact ⟨h, htrans, hpar, .nil⟩
  | cons c rest ih =>
    rw [foldlM_cons] at hy
    obtain ⟨z, hz, hy⟩ := bind_eq_some_iff.mp hy
    unfold stackTransient at hz
    by_cases hc : s.windows.parent c = some window
    · rw [hpar, if_pos hc] at hz
      obtain ⟨v, hv, rfl⟩ := map_eq_some_iff.mp hz
      have hfirst := hround t v c last h hv
      obtain ⟨hinv, htrans', hpar', hrest⟩ := ih hfirst.inv
        (hfirst.transients.trans htrans) (hfirst.parent.trans hpar) hy
      refine ⟨hinv, htrans', hpar', ?_⟩
      rw [filter_cons_of_pos (by simpa using hc)]
      have horder := hfirst.order
      rw [sharing_congr htrans hpar] at horder
      exact .cons horder hrest
    · rw [hpar, if_neg hc] at hz
      cases hz
      rw [filter_cons_of_neg (by simpa using hc)]
      exact ih h htrans hpar hy

theorem stackImpl_stacks {fuel : Nat} (h : Inv s)
    (ht : stackChildRelativeToImpl fuel s window child target direction = some t) :
    StackedImpl s t window child target (decide (direction = .above)) := by
  induction fuel generalizing s t child target direction with
  | zero => cases ht
  | succ fuel ih =>
    obtain ⟨hne, hchild, htgt⟩ := stackImpl_checks ht
    have hmem := (h.windows.mem _ _).mpr hchild
    have hmem' := (h.windows.mem _ _).mpr htgt
    obtain ⟨hplace, heq⟩ | heq := stackImpl_eq h fuel direction hne hchild htgt
    · cases heq.symm.trans ht
      exact ⟨h, rfl, rfl, .stays hplace hmem hmem' hne⟩
    · rw [heq] at ht
      obtain ⟨y, hy, rfl⟩ := map_eq_some_iff.mp ht
      obtain ⟨hinv, htrans, hpar, hrest⟩ :=
        @stackTransients_stacks s _ window fuel child y (s.transients.children child)
          (fun u v c b hu hv => ih hu hv)
          (moved_inv h (decide (direction = .above)) hne hchild htgt) rfl rfl hy
      rw [children_moved] at hrest
      exact ⟨hinv, htrans, hpar, .moves hmem hmem' hne hrest⟩

/-! ## What goes along -/

theorem goesAlong_under {w c : Nat} (h : GoesAlong (sharing s window) w c) :
    s.transients.Under w c :=
  Relation.ReflTransGen.mono (fun _ _ hc => mem_of_mem_filter hc) _ _ h

theorem Ranked.grounded (h : Ranked s) : s.transients.Grounded := by
  obtain ⟨rank, hrank⟩ := h
  exact Subrelation.wf (fun {c w} hc => hrank w c hc) (measure rank).wf

theorem apart_sharing (h : Inv s) (hground : s.transients.Grounded) (window : Nat) :
    Apart (sharing s window) where
  acyclic := fun _ _ hc halong => hground.not_under (mem_of_mem_filter hc) (goesAlong_under halong)
  disjoint := fun a => by
    have hnodup := (h.transients.nodup a).filter fun c => s.windows.parent c = some window
    refine hnodup.imp_of_mem fun hc hc' hne w hw hw' => hne ?_
    exact h.transients.child_unique hground (mem_of_mem_filter hc)
      (mem_of_mem_filter hc') (goesAlong_under hw) (goesAlong_under hw')

/-- Windows outside the transient tree keep their order. -/
theorem StackedImpl.outside {above : Bool} (h : StackedImpl s t window child target above)
    (l : List Nat) (hl : ∀ w ∈ l, ¬ s.transients.Under w child) :
    l.Sublist (t.windows.children window) ↔ l.Sublist (s.windows.children window) := by
  classical
  have hshut : ∀ w, decide (¬ s.transients.Under w child) = false →
      ∀ c ∈ sharing s window w, decide (¬ s.transients.Under c child) = false := by
    intro w hw c hc
    simp only [decide_eq_false_iff_not, not_not] at hw ⊢
    exact Relation.ReflTransGen.head (mem_of_mem_filter hc) hw
  have hfil := (stacks_filter hshut).1 _ _ _ _ _ h.order
    (by simpa using Forest.Under.refl s.transients child)
  have hkept : ∀ w ∈ l, decide (¬ s.transients.Under w child) = true :=
    fun w hw => decide_eq_true (hl w hw)
  exact ⟨sublist_of_filter hfil.symm hkept, sublist_of_filter hfil hkept⟩

/-- A child that moves is where the direction says, with those that go along. -/
theorem StackedImpl.moved (h : StackedImpl s t window child target
    (decide (direction = .above))) (hinv : Inv s) (hground : s.transients.Grounded)
    (hnot : ¬ s.transients.Under target child)
    (hmoves : ¬ inPlace (decide (direction = .above)) ((s.windows.children window).idxOf child)
      ((s.windows.children window).idxOf target) = true) :
    Moved s t window child target direction := by
  have hapart := apart_sharing hinv hground window
  have hnodup := hinv.windows.nodup window
  have hother : ¬ GoesAlong (sharing s window) target child := fun hno => hnot (goesAlong_under hno)
  refine ⟨⟨h.order.sublist hmoves hapart hnodup, h.outside⟩, ?_, ?_⟩
  · rintro rfl
    exact h.order.directlyAbove hmoves hapart hother
  · rintro rfl
    exact h.order.between hmoves hapart hnodup hother

/-! ## The whole -/

theorem finalTarget_delegates {children : List Nat} {i : Nat}
    (h : ∀ w ∈ children, s.hasDelegate (s.layer w) = true) (hi : i < children.length) :
    s.finalTarget children i = i := by
  cases i with
  | zero => rfl
  | succ i =>
    rw [finalTarget, getElem?_eq_getElem hi]
    dsimp only
    rw [if_pos (h _ (getElem_mem hi))]

/-- With a delegate for each layer the child is stacked by the target itself. -/
theorem stackChildRelativeTo_eq {fuel : Nat}
    (hdelegates : ∀ w ∈ s.windows.children window, s.hasDelegate (s.layer w) = true)
    (h : Inv s) (hne : child ≠ target) (hchild : child ∈ s.windows.children window)
    (htgt : target ∈ s.windows.children window) :
    stackChildRelativeTo fuel s window child target direction =
      stackChildRelativeToImpl fuel s window child target direction := by
  have hfinal := finalTarget_delegates hdelegates (idxOf_lt_length_of_mem htgt)
  have hget : (s.windows.children window)[s.finalTarget (s.windows.children window)
      ((s.windows.children window).idxOf target)]? = some target := by
    rw [hfinal]
    exact getElem?_idxOf htgt
  unfold stackChildRelativeTo
  rw [if_neg (by simp [hne, (h.windows.mem _ _).mp hchild, (h.windows.mem _ _).mp htgt])]
  dsimp only
  rw [hget]
  simp only [bind_eq_bind, bind_some, hdelegates target htgt, Bool.true_eq_false,
    if_false, hne]

/-- In every state that the windows can be in, StackChildAbove and StackChildBelow come to an end. A
child that is not in its place already is moved with its transients, and the other windows stay in
their order. -/
theorem stackChild_moves {fuel₀ : Nat} {actions : List Action}
    (hrun : run (step fuel₀) actions init = some s) (hranked : Ranked s)
    (hdelegates : ∀ w ∈ s.windows.children window, s.hasDelegate (s.layer w) = true)
    (hchild : child ∈ s.windows.children window) (htarget : target ∈ s.windows.children window)
    (hnot : ¬ s.transients.Under target child) (direction : StackDirection) :
    ∃ n, ∀ fuel, n < fuel → ∃ t,
      stackChildRelativeTo fuel s window child target direction = some t ∧
        (inPlace (decide (direction = .above)) ((s.windows.children window).idxOf child)
          ((s.windows.children window).idxOf target) = false →
            Moved s t window child target direction) ∧
        ∀ w, Transient s window child w → s.transients.Under w child := by
  have h : Inv s := run_invariant (fun _ _ _ hs ht => hs.step ht) hrun init_inv
  obtain ⟨rank, hrank⟩ := hranked
  have hne : child ≠ target := by
    rintro rfl
    exact hnot (Forest.Under.refl _ _)
  refine ⟨rank child, fun fuel hfuel => ?_⟩
  have hsome : ∃ t, stackChildRelativeToImpl fuel s window child target direction =
      some t ∧ t.transients = s.transients ∧ t.windows.parent = s.windows.parent :=
    stackImpl_some h hrank hfuel hne ((h.windows.mem _ _).mp hchild)
      ((h.windows.mem _ _).mp htarget)
  obtain ⟨t, ht, -⟩ := hsome
  refine ⟨t, ?_, fun hmoves => ?_, fun w hw => ?_⟩
  · rw [stackChildRelativeTo_eq hdelegates h hne hchild htarget]
    exact ht
  · exact (stackImpl_stacks h ht).moved h (Ranked.grounded ⟨rank, hrank⟩) hnot
      (by rw [hmoves]; exact Bool.false_ne_true)
  · obtain ⟨c, hc, hwc⟩ := hw
    exact (goesAlong_under hwc).child (mem_of_mem_filter hc)

end

/-! ## Four windows -/

/-- A window with a transient child is stacked above the last one. -/
theorem stackChild_moves_above : ∃ s fuel t,
    run (step 2) [.addChild 0 1, .addChild 0 2, .addChild 0 3, .addChild 0 4,
      .addTransientChild 1 2] init = some s ∧
      stackChildRelativeTo fuel s 0 1 4 .above = some t ∧ Moved s t 0 1 4 .above := by
  obtain ⟨s, hrun⟩ : ∃ s, run (step 2) [.addChild 0 1, .addChild 0 2, .addChild 0 3,
    .addChild 0 4, .addTransientChild 1 2] init = some s := ⟨_, rfl⟩
  have htransients : s.transients.children = Function.update (fun _ => []) 1 [2] := by
    cases hrun
    rfl
  have hchildren : s.windows.children 0 = [1, 2, 3, 4] := by
    cases hrun
    rfl
  have hdelegates : ∀ w ∈ s.windows.children 0, s.hasDelegate (s.layer w) = true := by
    cases hrun
    decide
  have hranked : Ranked s := by
    refine ⟨fun w => if w = 1 then 1 else 0, fun window child hc => ?_⟩
    rw [htransients] at hc
    by_cases hw : window = 1
    · subst hw
      rw [Function.update_self, mem_singleton] at hc
      subst hc
      decide
    · rw [Function.update_of_ne hw] at hc
      cases hc
  have hnot : ¬ s.transients.Under 4 1 := by
    rw [Forest.under_iff, htransients]
    rintro (h | ⟨c, hc, h⟩)
    · cases h
    · rw [Function.update_self, mem_singleton] at hc
      subst hc
      rw [Forest.under_iff, htransients] at h
      obtain h | ⟨c, hc, -⟩ := h
      · cases h
      · rw [Function.update_of_ne (by decide)] at hc
        cases hc
  obtain ⟨n, hn⟩ := @stackChild_moves s 0 1 4 2 _ hrun hranked hdelegates
    (by rw [hchildren]; decide) (by rw [hchildren]; decide) hnot .above
  obtain ⟨t, ht, hmoved, -⟩ := hn (n + 1) (Nat.lt_succ_self n)
  exact ⟨s, n + 1, t, hrun, ht, hmoved (by rw [hchildren]; decide)⟩

end ChromiumUI.Aura
