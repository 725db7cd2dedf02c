import ChromiumUI.FocusTours

/-!
# Tab order across nested FocusTraversables

Both directions are tours through the stops of the tree. Repeated calls visit every
focusable view in order exactly when every view is a stop and the stops are passable.
-/
namespace ChromiumUI.FocusTraversal

open NestedTours Fuel Views

variable {tree : Views}

variable {a : Address}

theorem viewsAt_traversableOf (h : tree.viewsAt (traversableOf a) = nil) :
    tree.viewsAt a = nil := by
  induction a with
  | nil => exact h
  | cons step a ih =>
    cases step with
    | nested => exact h
    | next => rw [viewsAt, ih h]; rfl
    | child => rw [viewsAt, ih h]; rfl

theorem exists_view_of_isFocusable (h : tree.isFocusable a) :
    ∃ nested children next, tree.viewsAt a = view .focusable nested children next := by
  unfold isFocusable at h
  split at h
  · rename_i nested children next heq
    exact ⟨nested, children, next, heq⟩
  · cases h

theorem exists_view_of_isHost (h : tree.isHost a) :
    ∃ nested children next, tree.viewsAt a = view .host nested children next := by
  unfold isHost at h
  split at h
  · rename_i nested children next heq
    exact ⟨nested, children, next, heq⟩
  · cases h

/-- A search that has a view to start from. -/
theorem findNextFocusableView_computes {root a : Address} {reverse down check : Bool}
    {start : Option Address} {found : Found} (hroot : tree.viewsAt root ≠ nil)
    (hstart : start.getD (if reverse then lastOf (tree.viewsAt root) root else root) = a)
    (h : Computes (fun fuel => if reverse then
        findPreviousFocusableViewImpl tree root fuel a (check || start.isNone) true
          (down && !tree.isFocusable a)
      else findNextFocusableViewImpl tree root fuel a (check || start.isNone) true down) found) :
    Computes (fun fuel => findNextFocusableView tree root fuel start reverse down check)
      (found.within root) := by
  refine (h.map (Found.within root)).congr fun fuel => ?_
  have hnil : (tree.viewsAt root).isNil = false := by
    cases hviews : tree.viewsAt root with
    | nil => exact absurd hviews hroot
    | view kind nested children next => rfl
  rw [findNextFocusableView, hnil, if_neg Bool.false_ne_true, hstart]

variable {root : Address}

theorem Faithful.within {entry : Address → Stops Address} {s : Stops Address}
    (h : Faithful entry root s) : (first s).within root = first s := by
  cases s with
  | nil => rfl
  | leaf a rest => exact if_pos h.1
  | nest host inner rest => rfl

theorem findNextFocusableView_empty (hroot : tree.viewsAt root = nil) (start : Option Address)
    (reverse down check : Bool) :
    Computes (fun fuel => findNextFocusableView tree root fuel start reverse down check) .null := by
  refine (Computes.pure Found.null).congr fun fuel => ?_
  rw [findNextFocusableView, hroot]
  rfl

/-- Stops in another traversable are not found in this one, except for hosts. -/
theorem within_astray {entry : Address → Stops Address} {other : Address} {s t : Stops Address}
    (h : Faithful entry other s) (hne : other ≠ root) :
    (first s).within root = .null ∨ ∃ host inner others,
      (first s).within root = .traversable host ∧ s ++ t = .nest host inner others := by
  cases s with
  | nil => exact .inl rfl
  | leaf a rest => exact .inl (if_neg fun heq => hne (h.1.symm.trans heq))
  | nest host inner rest => exact .inr ⟨host, inner, rest ++ t, rfl, rfl⟩

section Forward

theorem above_root (h : IsRoot root) : tree.above root = .nil := by
  cases root with
  | nil => rfl
  | cons step a =>
    cases step with
    | nested => rfl
    | next => exact absurd h id
    | child => exact absurd h id

theorem traversableOf_root (h : IsRoot root) : traversableOf root = root := by
  cases root with
  | nil => rfl
  | cons step a =>
    cases step with
    | nested => rfl
    | next => exact absurd h id
    | child => exact absurd h id

theorem forward_searches (tree : Views) : Searches tree false (entryStops tree) tree.rest where
  enter := by
    intro root hroot
    by_cases hviews : tree.viewsAt root = nil
    · rw [entryStops, hviews]
      exact findNextFocusableView_empty hviews _ _ _ _
    · have hrun := next_computes_checked rfl hviews (next_child root) (next_sibling root)
        (next_up (traversableOf_root hroot))
      rw [above_root hroot, Stops.append_nil] at hrun
      have hfaith := @stops_faithful tree _ root rfl
      rw [traversableOf_root hroot] at hfaith
      have hfind := @findNextFocusableView_computes tree root root false true false none _ hviews
        rfl hrun
      rwa [hfaith.within] at hfind
  leave := by
    intro a ha
    obtain ⟨nested, children, next, hview⟩ := exists_view_of_isFocusable ha
    have hviews : tree.viewsAt (traversableOf a) ≠ nil := by
      intro hnil
      rw [viewsAt_traversableOf hnil] at hview
      cases hview
    have hrun := @next_computes tree (traversableOf a) a false true true _ _ _ rfl rfl
      (next_child a) (next_sibling a) (next_up rfl)
    have hrest : tree.rest a = (tree.viewsAt (.child :: a)).stops (.child :: a) ++
        ((tree.viewsAt (.next :: a)).stops (.next :: a) ++ tree.above a) := if_pos ha
    rw [← hrest] at hrun
    have hfind := @findNextFocusableView_computes tree _ a false true false (some a) _ hviews
      rfl hrun
    rwa [(rest_faithful a).within] at hfind
  leaveHost := by
    intro host hhost
    obtain ⟨nested, children, next, hview⟩ := exists_view_of_isHost hhost
    have hviews : tree.viewsAt (traversableOf host) ≠ nil := by
      intro hnil
      rw [viewsAt_traversableOf hnil] at hview
      cases hview
    have hrun := @next_computes tree (traversableOf host) host false true false _ _ _ rfl rfl
      (tryFrom_none _) (next_sibling host) (next_up rfl)
    have hrest : tree.rest host = (tree.viewsAt (.next :: host)).stops (.next :: host) ++
        tree.above host := by
      rw [rest, isFocusable_of hview]
      rfl
    rw [Stops.nil_append, ← hrest] at hrun
    have hfind := @findNextFocusableView_computes tree _ host false false false (some host) _ hviews
      rfl hrun
    rwa [(rest_faithful host).within] at hfind
  astray := by
    intro host root hhost hne
    obtain ⟨nested, children, next, hview⟩ := exists_view_of_isHost hhost
    have hrest : tree.rest host = (tree.viewsAt (.next :: host)).stops (.next :: host) ++
        tree.above host := by
      rw [rest, isFocusable_of hview]
      rfl
    by_cases hviews : tree.viewsAt root = nil
    · exact ⟨.null, findNextFocusableView_empty hviews _ _ _ _, .inl rfl⟩
    · have hup : Computes (fun fuel => tryFrom
            (if true then (parents root host).findSome? tree.getNextFocusableView else none)
          fun sibling => findNextFocusableViewImpl tree root fuel sibling true true true)
            (first .nil) := by
        rw [parents, if_neg hne]
        exact tryFrom_none _
      have hrun := @next_computes tree root host false true false _ _ _ rfl rfl (tryFrom_none _)
        (next_sibling host) hup
      rw [Stops.nil_append, Stops.append_nil] at hrun
      have hfind := @findNextFocusableView_computes tree root host false false false (some host) _
        hviews rfl hrun
      rw [hrest]
      exact ⟨_, hfind, within_astray (stops_faithful (a := .next :: host) rfl) hne⟩
  entry_faithful := by
    intro root hroot
    have hfaith := @stops_faithful tree _ root rfl
    rwa [traversableOf_root hroot] at hfaith
  rest_faithful := rest_faithful

end Forward

section Backward

theorem before_root (up : Bool) (h : IsRoot root) : tree.before up root = .nil := by
  cases root with
  | nil => rfl
  | cons step a =>
    cases step with
    | nested => rfl
    | next => exact absurd h id
    | child => exact absurd h id

theorem backStopsOf_self (a : Address) :
    backStopsOf tree (traversableOf a) a = tree.before true a := by
  rw [backStopsOf, decide_eq_true rfl]

/-- Not going up only cuts off the end. -/
theorem exists_before_append (a : Address) :
    ∃ t, tree.before true a = tree.before false a ++ t := by
  induction a with
  | nil => exact ⟨.nil, rfl⟩
  | cons step a ih =>
    cases step with
    | nested => exact ⟨.nil, rfl⟩
    | child => exact ⟨tree.before true (.child :: a), rfl⟩
    | next =>
      obtain ⟨t, ht⟩ := ih
      refine ⟨t, ?_⟩
      rw [before, before, ht, Stops.append_assoc]

/-- The stops of siblings for a search that comes in from outside, from the last of them. -/
theorem backStops_entry {s : Views} (h : tree.viewsAt a = s) (hs : s ≠ nil) :
    backStops true s a ++ tree.before true a =
      (if tree.isFocusable (lastOf s a) then tree.leafAt (lastOf s a)
        else tree.ownStops (lastOf s a)) ++ tree.before true (lastOf s a) := by
  induction s generalizing a with
  | nil => exact absurd rfl hs
  | view kind nested children next _ _ ih =>
    have hx := viewsAt_cons .next h
    cases next with
    | nil =>
      rw [lastOf_single, leafAt, ownStops_of h, isFocusable_of h]
      cases kind <;> simp [backStops, Views.isNil]
    | view kind' nested' children' next' =>
      rw [lastOf_more, ← ih hx (by rintro ⟨⟩), before, ownStops_of h, ← Stops.append_assoc]
      cases kind <;> simp [backStops, Views.isNil]

theorem backward_searches (tree : Views) :
    Searches tree true (entryBackStops tree) (tree.before true) where
  enter := by
    intro root hroot
    by_cases hviews : tree.viewsAt root = nil
    · rw [entryBackStops, hviews]
      exact findNextFocusableView_empty hviews _ _ _ _
    · have hentry := backStops_entry rfl hviews
      rw [before_root true hroot, Stops.append_nil] at hentry
      have hfaith : Faithful (entryBackStops tree) root (entryBackStops tree root) := by
        have h := @backStops_faithful tree true _ root rfl
        rwa [traversableOf_root hroot] at h
      have hback := @previous_back tree root (lastOf (tree.viewsAt root) root)
      have hlast : traversableOf (lastOf (tree.viewsAt root) root) = root := by
        rw [traversableOf_lastOf, traversableOf_root hroot]
      have hrun : Computes (fun fuel => findPreviousFocusableViewImpl tree root fuel
          (lastOf (tree.viewsAt root) root) true true
          (true && !tree.isFocusable (lastOf (tree.viewsAt root) root)))
            (first (entryBackStops tree root)) := by
        rw [entryBackStops, hentry]
        cases hfocus : tree.isFocusable (lastOf (tree.viewsAt root) root) with
        | true =>
          have hlook := @previous_computes tree root _ true true _ hback
          rw [backStopsOf, decide_eq_true hlast] at hlook
          exact hlook
        | false =>
          have hall := @previous_all tree root (lastOf (tree.viewsAt root) root)
          rw [backStopsOf, decide_eq_true hlast] at hall
          exact hall
      have hfind := @findNextFocusableView_computes tree root _ true true false none _ hviews
        rfl hrun
      rwa [Faithful.within hfaith] at hfind
  leave := by
    intro a ha
    obtain ⟨nested, children, next, hview⟩ := exists_view_of_isFocusable ha
    have hviews : tree.viewsAt (traversableOf a) ≠ nil := by
      intro hnil
      rw [viewsAt_traversableOf hnil] at hview
      cases hview
    have hlook := @previous_computes tree (traversableOf a) a false true _ (previous_back a)
    rw [backStopsOf_self, if_neg Bool.false_ne_true, Stops.nil_append] at hlook
    have hrun : Computes (fun fuel => findPreviousFocusableViewImpl tree (traversableOf a) fuel a
        false true (true && !tree.isFocusable a)) (first (tree.before true a)) := by
      rw [ha]
      exact hlook
    have hfind := @findNextFocusableView_computes tree _ a true true false (some a) _ hviews
      rfl hrun
    rwa [(before_faithful true a).within] at hfind
  leaveHost := by
    intro host hhost
    obtain ⟨nested, children, next, hview⟩ := exists_view_of_isHost hhost
    have hviews : tree.viewsAt (traversableOf host) ≠ nil := by
      intro hnil
      rw [viewsAt_traversableOf hnil] at hview
      cases hview
    have hleaf : tree.leafAt host = .nil := by
      rw [leafAt, isFocusable_of hview]
      rfl
    have hrun := @previous_computes tree (traversableOf host) host true true _ (previous_back host)
    rw [backStopsOf_self, if_pos rfl, hleaf, Stops.nil_append] at hrun
    have hfind := @findNextFocusableView_computes tree _ host true false true (some host) _ hviews
      rfl hrun
    rwa [(before_faithful true host).within] at hfind
  astray := by
    intro host root hhost hne
    obtain ⟨nested, children, next, hview⟩ := exists_view_of_isHost hhost
    by_cases hviews : tree.viewsAt root = nil
    · exact ⟨.null, findNextFocusableView_empty hviews _ _ _ _, .inl rfl⟩
    · have hleaf : tree.leafAt host = .nil := by
        rw [leafAt, isFocusable_of hview]
        rfl
      have hrun := @previous_computes tree root host true true _ (previous_back host)
      rw [if_pos rfl, hleaf, Stops.nil_append, backStopsOf, decide_eq_false hne] at hrun
      have hfind := @findNextFocusableView_computes tree root host true false true (some host) _
        hviews rfl hrun
      obtain ⟨t, ht⟩ := @exists_before_append tree host
      rw [ht]
      exact ⟨_, hfind, within_astray (before_faithful false host) hne⟩
  entry_faithful := by
    intro root hroot
    have hfaith := @backStops_faithful tree true _ root rfl
    rwa [traversableOf_root hroot] at hfaith
  rest_faithful := before_faithful true

end Backward

section Spots

theorem stops_spots {s : Views} {a : Address} {t : Stops Address} (h : tree.viewsAt a = s)
    (ha : InHosts tree a) (ht : t = tree.above a)
    (hspots : ∀ p ∈ t.spots (outer tree.rest a), RightSpot tree tree.rest p) :
    ∀ p ∈ (s.stops a ++ t).spots (outer tree.rest a), RightSpot tree tree.rest p := by
  induction s generalizing a t with
  | nil => exact hspots
  | view kind nested children next ihn ihc ihx =>
    have hc : tree.viewsAt (.child :: a) = children := viewsAt_cons .child h
    have hx : tree.viewsAt (.next :: a) = next := viewsAt_cons .next h
    have hn : tree.viewsAt (.nested :: a) = nested := viewsAt_cons .nested h
    have hbeyond : next.stops (.next :: a) ++ t = tree.beyond a := by
      rw [beyond, hx, ht]
    have hnext := ihx hx ha ht hspots
    have habove : next.stops (.next :: a) ++ t = tree.above (.child :: a) := hbeyond
    have hchild := ihc hc ha habove hnext
    cases kind with
    | plain =>
      intro p hp
      rw [stops, Stops.append_assoc] at hp
      exact hchild p hp
    | focusable =>
      intro p hp
      have hfocus : tree.isFocusable a = true := isFocusable_of h
      rw [stops, Stops.leaf_append, Stops.append_assoc, hbeyond] at hp
      rcases List.mem_cons.mp hp with rfl | hp
      · refine ⟨?_, hfocus, ha⟩
        rw [rest, if_pos hfocus, hc]
      · rw [← hbeyond] at hp
        exact hchild p hp
    | host =>
      intro p hp
      have hfocus : tree.isFocusable a = false := isFocusable_of h
      have hhost : tree.isHost a = true := isHost_of h
      have hrest : tree.rest a = tree.beyond a := by
        rw [rest, hfocus]
        rfl
      rw [stops, Stops.nest_append] at hp
      rcases List.mem_append.mp hp with hp | hp
      · have houter : outer tree.rest (.nested :: a) =
            (next.stops (.next :: a) ++ t) :: outer tree.rest a := by
          rw [hbeyond, ← hrest]
          rfl
        have hinner := @ihn (.nested :: a) .nil hn ⟨hhost, ha⟩ rfl (fun p hp => nomatch hp) p
        rw [Stops.append_nil, houter] at hinner
        exact hinner hp
      · exact hnext p hp

theorem backStops_spots {s : Views} {a : Address} {t : Stops Address} (fromEnd : Bool)
    (h : tree.viewsAt a = s) (ha : InHosts tree a) (ht : t = tree.before true a)
    (hspots : ∀ p ∈ t.spots (outer (tree.before true) a), RightSpot tree (tree.before true) p) :
    ∀ p ∈ (backStops fromEnd s a ++ t).spots (outer (tree.before true) a),
      RightSpot tree (tree.before true) p := by
  induction s generalizing a t fromEnd with
  | nil => exact hspots
  | view kind nested children next ihn ihc ihx =>
    have hc : tree.viewsAt (.child :: a) = children := viewsAt_cons .child h
    have hx : tree.viewsAt (.next :: a) = next := viewsAt_cons .next h
    have hn : tree.viewsAt (.nested :: a) = nested := viewsAt_cons .nested h
    -- the view's own stops, and then those of the siblings after it
    have hfin : ∀ own : Stops Address,
        (∀ p ∈ (own ++ t).spots (outer (tree.before true) a), RightSpot tree (tree.before true) p) →
        (next ≠ nil → own = tree.ownStops a) →
        ∀ p ∈ (backStops fromEnd next (.next :: a) ++ own ++ t).spots (outer (tree.before true) a),
          RightSpot tree (tree.before true) p := by
      intro own hown heq
      cases hnext : next with
      | nil => exact hown
      | view kind' nested' children' next' =>
        rw [← hnext, Stops.append_assoc]
        have hne : next ≠ nil := by
          rw [hnext]
          rintro ⟨⟩
        have hpre : own ++ t = tree.before true (.next :: a) := by
          rw [heq hne, ht]
          rfl
        exact ihx fromEnd hx ha hpre hown
    cases kind with
    | plain =>
      have hleaf : tree.leafAt a = .nil := by
        rw [leafAt, isFocusable_of h]
        rfl
      have hpre : t = tree.before true (.child :: a) := by
        rw [before, if_pos rfl, hleaf, ht]
        rfl
      have hchild := ihc false hc ha hpre hspots
      exact hfin _ hchild fun _ => by rw [ownStops_of h]; simp [backStops]
    | focusable =>
      have hfocus : tree.isFocusable a = true := isFocusable_of h
      have hleaf : tree.leafAt a = .leaf a .nil := by
        rw [leafAt, hfocus]
        rfl
      have hself : ∀ p ∈ (Stops.leaf a t).spots (outer (tree.before true) a),
          RightSpot tree (tree.before true) p := by
        intro p hp
        rcases List.mem_cons.mp hp with rfl | hp
        · exact ⟨by rw [ht], hfocus, ha⟩
        · exact hspots p hp
      have hpre : Stops.leaf a t = tree.before true (.child :: a) := by
        rw [before, if_pos rfl, hleaf, ht]
        rfl
      have hchild := ihc false hc ha hpre hself
      apply hfin
      · rw [Stops.append_assoc]
        split
        · exact hself
        · exact hchild
      · intro hne
        have hnil : next.isNil = false := by
          cases next with
          | nil => exact absurd rfl hne
          | view kind' nested' children' next' => rfl
        rw [ownStops_of h, hnil]
        simp [backStops]
    | host =>
      have hhost : tree.isHost a = true := isHost_of h
      apply hfin
      · intro p hp
        rcases List.mem_append.mp hp with hp | hp
        · have houter : outer (tree.before true) (.nested :: a) =
              t :: outer (tree.before true) a := by
            rw [ht]
            rfl
          have hinner := @ihn (.nested :: a) .nil true hn ⟨hhost, ha⟩ rfl
            (fun p hp => by cases hp) p
          rw [Stops.append_nil, houter] at hinner
          exact hinner hp
        · exact hspots p hp
      · intro _
        rw [ownStops_of h]
        rfl

theorem forward_spots (tree : Views) :
    ∀ p ∈ (entryStops tree []).spots [], RightSpot tree tree.rest p := by
  have h := @stops_spots tree _ [] .nil rfl trivial rfl fun p hp => nomatch hp
  rwa [Stops.append_nil] at h

theorem backward_spots (tree : Views) :
    ∀ p ∈ (entryBackStops tree []).spots [], RightSpot tree (tree.before true) p := by
  have h := @backStops_spots tree _ [] .nil true rfl trivial rfl fun p hp => nomatch hp
  rwa [Stops.append_nil] at h

end Spots

section Order

/-- The views of the order from a view on lie behind its address. -/
theorem suffix_of_mem_order {s : Views} {b : Address} (h : b ∈ s.order a) : a <:+ b := by
  induction s generalizing a with
  | nil => cases h
  | view kind nested children next ihn ihc ihx =>
    have hstep : ∀ {step : Step}, step :: a <:+ b → a <:+ b :=
      fun hb => (List.suffix_cons _ a).trans hb
    simp only [order, List.mem_append] at h
    rcases h with ((h | h) | h) | h
    · split at h
      · rw [List.mem_singleton.mp h]
      · cases h
    · split at h
      · exact hstep (ihn h)
      · cases h
    · exact hstep (ihc h)
    · exact hstep (ihx h)

theorem ne_of_suffix_cons {step : Step} {b : Address} (h : step :: a <:+ b) : b ≠ a := by
  intro heq
  have hlen := h.length_le
  rw [heq, List.length_cons] at hlen
  omega

theorem step_eq_of_suffix {step step' : Step} {b : Address} (h : step :: a <:+ b)
    (h' : step' :: a <:+ b) : step = step' := by
  have heq : step :: a = step' :: a :=
    (List.suffix_of_suffix_length_le h h' (Nat.le_refl _)).eq_of_length rfl
  exact (List.cons.inj heq).1

/-- The order has every focusable view once. -/
theorem order_nodup (s : Views) (a : Address) : (s.order a).Nodup := by
  induction s generalizing a with
  | nil => exact List.nodup_nil
  | view kind nested children next ihn ihc ihx =>
    have hown : (if kind = .focusable then [a] else []).Nodup := by
      split
      · exact List.nodup_singleton a
      · exact List.nodup_nil
    have hnested : (if kind = .host then nested.order (.nested :: a) else []).Nodup := by
      split
      · exact ihn _
      · exact List.nodup_nil
    have hownMem : ∀ {b}, b ∈ (if kind = .focusable then [a] else []) → b = a := by
      intro b hb
      split at hb
      · exact List.mem_singleton.mp hb
      · cases hb
    have hnestedMem : ∀ {b}, b ∈ (if kind = .host then nested.order (.nested :: a) else []) →
        .nested :: a <:+ b := by
      intro b hb
      split at hb
      · exact suffix_of_mem_order hb
      · cases hb
    rw [order]
    refine List.nodup_append.mpr ⟨List.nodup_append.mpr ⟨List.nodup_append.mpr
      ⟨hown, hnested, ?_⟩, ihc _, ?_⟩, ihx _, ?_⟩
    · intro b hb c hc heq
      rw [heq] at hb
      exact ne_of_suffix_cons (hnestedMem hc) (hownMem hb)
    · intro b hb c hc heq
      have hc' := suffix_of_mem_order hc
      rw [← heq] at hc'
      rcases List.mem_append.mp hb with hb | hb
      · exact ne_of_suffix_cons hc' (hownMem hb)
      · cases step_eq_of_suffix (hnestedMem hb) hc'
    · intro b hb c hc heq
      have hc' := suffix_of_mem_order hc
      rw [← heq] at hc'
      rcases List.mem_append.mp hb with hb | hb
      · rcases List.mem_append.mp hb with hb | hb
        · exact ne_of_suffix_cons hc' (hownMem hb)
        · cases step_eq_of_suffix (hnestedMem hb) hc'
      · cases step_eq_of_suffix (suffix_of_mem_order hb) hc'

theorem flat_stops_sublist (s : Views) (a : Address) : (s.stops a).flat.Sublist (s.order a) := by
  induction s generalizing a with
  | nil => exact List.Sublist.refl _
  | view kind nested children next ihn ihc ihx =>
    cases kind with
    | plain =>
      rw [stops, Stops.flat_append]
      exact (ihc _).append (ihx _)
    | focusable =>
      rw [stops, Stops.flat, Stops.flat_append]
      exact ((ihc _).append (ihx _)).cons_cons a
    | host =>
      rw [stops, Stops.flat]
      exact ((ihn _).trans (List.sublist_append_left _ _)).append (ihx _)

theorem flat_backStops_sublist (fromEnd : Bool) (s : Views) (a : Address) :
    (backStops fromEnd s a).flat.Sublist (s.order a).reverse := by
  induction s generalizing a fromEnd with
  | nil => exact List.Sublist.refl _
  | view kind nested children next ihn ihc ihx =>
    have hreverse : ((view kind nested children next).order a).reverse =
        (next.order (.next :: a)).reverse ++ ((children.order (.child :: a)).reverse ++
          ((if kind = .host then nested.order (.nested :: a) else []).reverse ++
            (if kind = .focusable then [a] else []))) := by
      rw [order, List.reverse_append, List.reverse_append, List.reverse_append]
      congr 3
      split <;> rfl
    rw [hreverse]
    cases kind with
    | plain =>
      rw [backStops, Stops.flat_append]
      apply (ihx fromEnd _).append
      exact (ihc false _).trans (List.sublist_append_left _ _)
    | focusable =>
      rw [backStops, Stops.flat_append, Stops.flat_append]
      apply (ihx fromEnd _).append
      have hchild : (if fromEnd && next.isNil then Stops.nil
          else backStops false children (.child :: a)).flat.Sublist
            (children.order (.child :: a)).reverse := by
        split
        · exact List.nil_sublist _
        · exact ihc false _
      exact hchild.append (List.Sublist.refl [a])
    | host =>
      rw [backStops, Stops.flat_append]
      apply (ihx fromEnd _).append
      have hnested : (Stops.nest a (backStops true nested (.nested :: a)) .nil).flat.Sublist
          (nested.order (.nested :: a)).reverse := by
        rw [Stops.flat, Stops.flat, List.append_nil]
        exact ihn true _
      exact (hnested.trans (List.sublist_append_left _ _)).trans (List.sublist_append_right _ _)

end Order

/-- What it takes for the tab order to be right. No focusable view is below the children of
a host, or (for the way backward) below the last child of a root when that is focusable;
in no traversable do stops with focusable views come after a host without any; and a
focusable view with no other after it in its traversable or in the one around it has
none after it at all. -/
structure Tabbable (tree : Views) : Prop where
  allForward : (tree.stops []).flat = tree.order []
  allBackward : (backStops true tree []).flat = (tree.order []).reverse
  forward : (tree.stops []).Passable
  backward : (backStops true tree []).Passable

/-- Tab and Shift+Tab go through the focusable views in order, round after round, exactly
when the tree is tabbable. -/
theorem tab_order_iff (tree : Views) :
    TabsThrough tree false (tree.order []) ∧ TabsThrough tree true (tree.order []).reverse ↔
      Tabbable tree := by
  have hforward := (forward_searches tree).tabsThrough_iff (forward_spots tree)
    (order_nodup tree []) (flat_stops_sublist tree [])
  have hbackward := (backward_searches tree).tabsThrough_iff (backward_spots tree)
    (List.nodup_reverse.mpr (order_nodup tree [])) (flat_backStops_sublist true tree [])
  constructor
  · rintro ⟨hf, hb⟩
    obtain ⟨hallf, hpassf⟩ := hforward.mp hf
    obtain ⟨hallb, hpassb⟩ := hbackward.mp hb
    exact ⟨hallf, hallb, hpassf, hpassb⟩
  · rintro ⟨hallf, hallb, hpassf, hpassb⟩
    exact ⟨hforward.mpr ⟨hallf, hpassf⟩, hbackward.mpr ⟨hallb, hpassb⟩⟩

/-- A view, a host with a view and a host with one more view in it, and a last view. -/
def nestedTwice : Views :=
  .view .focusable .nil .nil <|
  .view .host
    (.view .focusable .nil .nil <|
     .view .host (.view .focusable .nil .nil .nil) .nil .nil)
    .nil <|
  .view .focusable .nil .nil .nil

/-- From the innermost view the way leads back to the first, never to the last. -/
theorem nestedTwice_not_in_order :
    ¬(TabsThrough nestedTwice false (nestedTwice.order []) ∧
      TabsThrough nestedTwice true (nestedTwice.order []).reverse) := by
  rintro ⟨hforward, -⟩
  have hnodup : (entryStops nestedTwice []).flat.Nodup :=
    (flat_stops_sublist nestedTwice []).nodup (order_nodup nestedTwice [])
  have hcall := (forward_searches nestedTwice).callsFrom_computes (forward_spots nestedTwice)
    hnodup 4
  have hback : (nextView (entryStops nestedTwice) nestedTwice.rest)^[4] none = some [] := by decide
  have hlast : (nestedTwice.order [])[3 % (nestedTwice.order []).length]? =
      some [.next, .next] := by decide
  have heq := hcall.unique (hforward 3)
  rw [hback, hlast] at heq
  cases heq

end ChromiumUI.FocusTraversal
