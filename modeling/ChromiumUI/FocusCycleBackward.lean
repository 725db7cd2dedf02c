import ChromiumUI.FocusCycle
import Mathlib.Data.List.Nodup

/-!
# What the cycling searches return, backward

A search backward leaves a view for the one to the left of it even when it must not go up, and goes
up from there; so a nested search has often been all the way up before its caller looks at itself.
-/
namespace ChromiumUI.FocusCycle

open Fuel Views

variable {tree : Views} {root a : Address}

/-- The focusable views at and under a view, from the last one on. -/
def backOwn (tree : Views) (a : Address) : List Address :=
  (tree.orderUnder a).reverse ++ tree.own a

/-- The focusable views before a view, from the last one on, as far up as a search gets. -/
def before (tree : Views) (root : Address) : Address → List Address
  | [] => []
  | .next :: a => backOwn tree a ++ before tree root a
  | .child :: a => if contains root (.child :: a) then tree.own a ++ before tree root a else []

theorem order_eq {s : Views} (h : tree.viewsAt a = s) (hs : s ≠ nil) : s.order a =
    tree.own a ++ (tree.orderUnder a ++ (tree.viewsAt (.next :: a)).order (.next :: a)) := by
  cases s with
  | nil => exact absurd rfl hs
  | view focusable children next =>
    rw [own, isFocusable_of h, orderUnder, viewsAt_cons .child h, viewsAt_cons .next h]
    rfl

/-- The part of a search backward that follows the look at the view itself. -/
def backFrom (tree : Views) (root a : Address) (canGoUp : Bool) (fuel : Nat) :
    Option (Option Address) :=
  match getPreviousFocusableView a with
  | some sibling => findPreviousFocusableViewImpl tree root fuel sibling true true true
  | none => tryFrom (if canGoUp then getParent root a else none)
      fun parent => findPreviousFocusableViewImpl tree root fuel parent true true false

theorem look_computes {check up : Bool} {s : List Address}
    (h : Computes (backFrom tree root a up) s.head?) :
    Computes (fun fuel => if check && tree.isFocusable a then some (some a)
      else backFrom tree root a up fuel) ((if check then tree.own a else []) ++ s).head? := by
  unfold own
  cases hf : tree.isFocusable a with
  | false => simpa using h
  | true =>
    cases check with
    | false => simpa using h
    | true => exact .pure _

/-- Without going down. -/
theorem previous_computes {check up : Bool} {s : List Address}
    (h : Computes (backFrom tree root a up) s.head?) :
    Computes (fun fuel => findPreviousFocusableViewImpl tree root fuel a check up false)
      ((if check then tree.own a else []) ++ s).head? := by
  refine (look_computes h).succ fun fuel => ?_
  rw [findPreviousFocusableViewImpl]
  rfl

theorem backFrom_child (h : Computes (backFrom tree root a true) (before tree root a).head?) :
    Computes (backFrom tree root (.child :: a) true) (before tree root (.child :: a)).head? := by
  rw [before]
  by_cases ha : contains root (.child :: a) = true
  · have hpar : getParent root (.child :: a) = some a := if_pos ha
    rw [if_pos ha]
    refine (@previous_computes tree root a true true _ h).congr fun fuel => ?_
    simp only [backFrom, getPreviousFocusableView, if_true, hpar]
    rfl
  · have hpar : getParent root (.child :: a) = none := if_neg ha
    rw [if_neg ha]
    refine (tryFrom_none fun _ _ => none).congr fun fuel => ?_
    simp only [backFrom, getPreviousFocusableView, if_true, hpar]
    rfl

theorem backFrom_next (up : Bool)
    (h : Computes (fun fuel => findPreviousFocusableViewImpl tree root fuel a true true true)
      (backOwn tree a ++ before tree root a).head?) :
    Computes (backFrom tree root (.next :: a) up) (before tree root (.next :: a)).head? := h

/-- What a search from a last child that must not go up returns: the first of the views up
to there, or nothing because it did not look beyond a view without any. -/
def FindsLast (tree : Views) (root a : Address) : Prop :=
  ∃ found,
    Computes (fun fuel => findPreviousFocusableViewImpl tree root fuel a true false true) found ∧
    (found = (backOwn tree a ++ before tree root a).head? ∨
      found = none ∧ backOwn tree a = [] ∧ getPreviousFocusableView a = none)

theorem lastOf_single (focusable : Bool) (children : Views) (a : Address) :
    lastOf (view focusable children nil) a = a := rfl

theorem lastOf_more (focusable focusable' : Bool) (children children' next' : Views) (a : Address) :
    lastOf (view focusable children (view focusable' children' next')) a =
      lastOf (view focusable' children' next') (.next :: a) := rfl

theorem lastOf_next (s : Views) (a : Address) : ∃ b, lastOf s (.next :: a) = .next :: b := by
  induction s generalizing a with
  | nil => exact ⟨a, rfl⟩
  | view focusable children next _ ih =>
    unfold lastOf
    split
    · exact ⟨a, rfl⟩
    · exact ih (.next :: a)

theorem backOwn_last {focusable : Bool} {children : Views}
    (h : tree.viewsAt a = view focusable children nil) :
    backOwn tree a = ((view focusable children nil).order a).reverse := by
  rw [order_eq h nofun, viewsAt_cons .next h]
  simp only [follow, order, List.append_nil, List.reverse_append, backOwn]
  congr 1
  unfold own
  split_ifs <;> rfl

/-- The views up to the last of some siblings are those of all of them. -/
theorem lastOf_before {s : Views} (h : tree.viewsAt a = s) (hs : s ≠ nil) :
    backOwn tree (lastOf s a) ++ before tree root (lastOf s a) =
      (s.order a).reverse ++ before tree root a := by
  induction s generalizing a with
  | nil => exact absurd rfl hs
  | view focusable children next _ ih =>
    have hx : tree.viewsAt (.next :: a) = next := viewsAt_cons .next h
    cases next with
    | nil => rw [lastOf_single, backOwn_last h]
    | view focusable' children' next' =>
      have hown : (tree.own a).reverse = tree.own a := by
        unfold own
        split_ifs <;> rfl
      rw [lastOf_more, ih hx nofun, before, order_eq h nofun, hx]
      simp only [List.reverse_append, List.append_assoc, hown, backOwn]

theorem tryLast_none (h : tree.viewsAt (.child :: a) = nil) : tree.lastChild a = none := by
  rw [lastChild, firstChild, existing_of_nil h]
  rfl

theorem tryLast_some (h : tree.viewsAt (.child :: a) ≠ nil) :
    tree.lastChild a = some (lastOf (tree.viewsAt (.child :: a)) (.child :: a)) := by
  rw [lastChild, firstChild, existing_of_ne h]
  rfl

theorem orTry_found {f g : Nat → Option (Option Address)} {x : Address}
    (hf : Computes f (some x)) : Computes (fun fuel => orTry (f fuel) (g fuel)) (some x) :=
  hf.bind (.pure _)

/-- Two results in a row, the second of which the first has gone through already. -/
theorem orTry_again {f g : Nat → Option (Option Address)} {s t : List Address}
    (hf : Computes f (s ++ t).head?) (hg : Computes g t.head?) :
    Computes (fun fuel => orTry (f fuel) (g fuel)) (s ++ t).head? := by
  apply Computes.bind hf
  cases h : (s ++ t).head? with
  | none =>
    have hnil := List.head?_eq_none_iff.mp h
    have ht : t.head? = none := List.head?_eq_none_iff.mpr (List.append_eq_nil_iff.mp hnil).2
    rw [ht] at hg
    exact hg
  | some x => exact .pure _

/-- A search that looks at the view and all that is below it, given what the search from
the last child finds and what lies before the view (or nothing, if it must not go up). -/
theorem previous_computes_down {up : Bool} {s : List Address}
    (hchild : tree.viewsAt (.child :: a) ≠ nil →
      FindsLast tree root (lastOf (tree.viewsAt (.child :: a)) (.child :: a)))
    (hback : Computes (backFrom tree root a up) s.head?) (hs : s = before tree root a ∨ s = []) :
    ∃ found,
      Computes (fun fuel => findPreviousFocusableViewImpl tree root fuel a true up true) found ∧
      (found = (backOwn tree a ++ before tree root a).head? ∨
        found = none ∧ backOwn tree a = [] ∧ s = []) := by
  have hlook := @look_computes tree root a true up s hback
  rw [if_pos rfl] at hlook
  have hsucc : ∀ fuel, findPreviousFocusableViewImpl tree root (fuel + 1) a true up true =
      orTry (tryFrom (tree.lastChild a)
        fun child => findPreviousFocusableViewImpl tree root fuel child true false true)
        (if true && tree.isFocusable a then some (some a) else backFrom tree root a up fuel) :=
    fun fuel => rfl
  -- what is found when the search from the last child has found `below`
  have hwithin : ∀ below : List Address, tree.orderUnder a = below.reverse →
      Computes (fun fuel => findPreviousFocusableViewImpl tree root fuel a true up true)
        (below ++ (tree.own a ++ s)).head? →
      ∃ found,
        Computes (fun fuel => findPreviousFocusableViewImpl tree root fuel a true up true) found ∧
        (found = (backOwn tree a ++ before tree root a).head? ∨
          found = none ∧ backOwn tree a = [] ∧ s = []) := by
    intro below hbelow hrun
    have hown : backOwn tree a = below ++ tree.own a := by
      rw [backOwn, hbelow, List.reverse_reverse]
    refine ⟨_, hrun, ?_⟩
    rw [hown, ← List.append_assoc]
    rcases hs with rfl | rfl
    · exact Or.inl rfl
    · rw [List.append_nil]
      cases hall : below ++ tree.own a with
      | nil => exact Or.inr ⟨rfl, rfl, rfl⟩
      | cons x l => exact Or.inl rfl
  by_cases hnone : tree.viewsAt (.child :: a) = nil
  · refine hwithin [] ?_ (Computes.succ hlook fun fuel => ?_)
    · rw [orderUnder, hnone]
      rfl
    · rw [hsucc, tryLast_none hnone]
      rfl
  · obtain ⟨below, hbelow, hfound⟩ := hchild hnone
    have htry : ∀ fuel, findPreviousFocusableViewImpl tree root (fuel + 1) a true up true =
        orTry (findPreviousFocusableViewImpl tree root fuel
          (lastOf (tree.viewsAt (.child :: a)) (.child :: a)) true false true)
          (if true && tree.isFocusable a then some (some a) else backFrom tree root a up fuel) := by
      intro fuel
      rw [hsucc, tryLast_some hnone]
      rfl
    rcases hfound with rfl | ⟨rfl, hempty, hprev⟩
    · rw [lastOf_before rfl hnone] at hbelow
      by_cases ha : contains root (.child :: a) = true
      · -- the search from the last child has been all the way up already
        have hup : before tree root (.child :: a) = tree.own a ++ before tree root a := if_pos ha
        rw [hup] at hbelow
        rcases hs with rfl | rfl
        · refine ⟨_, Computes.succ (orTry_again hbelow hlook) htry, Or.inl ?_⟩
          rw [backOwn, orderUnder, List.append_assoc]
        · cases hall : ((tree.viewsAt (.child :: a)).order (.child :: a)).reverse ++
              (tree.own a ++ before tree root a) with
          | nil =>
            obtain ⟨hunder, hrest⟩ := List.append_eq_nil_iff.mp hall
            obtain ⟨hself, -⟩ := List.append_eq_nil_iff.mp hrest
            rw [hall] at hbelow
            rw [hself] at hlook
            refine ⟨none, (hbelow.bind hlook).succ htry, Or.inr ⟨rfl, ?_, rfl⟩⟩
            rw [backOwn, orderUnder, hunder, hself]
            rfl
          | cons x l =>
            rw [hall] at hbelow
            refine ⟨some x, Computes.succ (orTry_found hbelow) htry, Or.inl ?_⟩
            rw [backOwn, orderUnder, List.append_assoc, hall]
            rfl
      · have hup : before tree root (.child :: a) = [] := if_neg ha
        rw [hup, List.append_nil] at hbelow
        refine hwithin _ (List.reverse_reverse _).symm ?_
        exact (computes_orTry hbelow hlook).succ htry
    · -- a single child, and nothing under it
      have hunder : tree.orderUnder a = [] := by
        cases hviews : tree.viewsAt (.child :: a) with
        | nil => exact absurd hviews hnone
        | view focusable children next =>
          cases next with
          | nil =>
            rw [hviews, lastOf_single, backOwn_last hviews] at hempty
            rw [orderUnder, hviews]
            exact List.reverse_eq_nil_iff.mp hempty
          | view focusable' children' next' =>
            rw [hviews, lastOf_more] at hprev
            obtain ⟨b, hb⟩ := lastOf_next (view focusable' children' next') (.child :: a)
            rw [hb] at hprev
            cases hprev
      refine hwithin [] hunder ?_
      exact (hbelow.bind hlook).succ htry

/-- A search from a view that must look at it, go down and may go up. -/
theorem previous_computes_view
    (hchild : tree.viewsAt (.child :: a) ≠ nil →
      FindsLast tree root (lastOf (tree.viewsAt (.child :: a)) (.child :: a)))
    (hback : Computes (backFrom tree root a true) (before tree root a).head?) :
    Computes (fun fuel => findPreviousFocusableViewImpl tree root fuel a true true true)
      (backOwn tree a ++ before tree root a).head? := by
  obtain ⟨found, hrun, hfound⟩ := previous_computes_down hchild hback (.inl rfl)
  rcases hfound with rfl | ⟨rfl, hown, hpre⟩
  · exact hrun
  · rw [hown, hpre]
    exact hrun

/-- From the first of some siblings to the last: each is searched once what lies before
it is known to be found. -/
theorem previous_chain {s : Views} (h : tree.viewsAt a = s) (hs : s ≠ nil)
    (hback : Computes (backFrom tree root a true) (before tree root a).head?)
    (hstay : ∃ t : List Address, Computes (backFrom tree root a false) t.head? ∧
      (t = before tree root a ∨ t = [] ∧ getPreviousFocusableView a = none)) :
    Computes (fun fuel => findPreviousFocusableViewImpl tree root fuel a true true true)
      (backOwn tree a ++ before tree root a).head? ∧ FindsLast tree root (lastOf s a) := by
  induction s generalizing a with
  | nil => exact absurd rfl hs
  | view focusable children next ihc ihx =>
    have hc : tree.viewsAt (.child :: a) = children := viewsAt_cons .child h
    have hx : tree.viewsAt (.next :: a) = next := viewsAt_cons .next h
    have hchild : tree.viewsAt (.child :: a) ≠ nil →
        FindsLast tree root (lastOf (tree.viewsAt (.child :: a)) (.child :: a)) := by
      rw [hc]
      exact fun hne => (ihc hc hne (backFrom_child hback)
        ⟨[], tryFrom_none fun _ _ => none, .inr ⟨rfl, rfl⟩⟩).2
    have hview := previous_computes_view hchild hback
    refine ⟨hview, ?_⟩
    cases next with
    | nil =>
      rw [lastOf_single]
      obtain ⟨t, hrun, ht⟩ := hstay
      have ht' : t = before tree root a ∨ t = [] := ht.imp_right And.left
      obtain ⟨found, hfinds, hfound⟩ := previous_computes_down hchild hrun ht'
      refine ⟨found, hfinds, ?_⟩
      rcases hfound with hfound | ⟨hnull, hown, hnil⟩
      · exact .inl hfound
      · rcases ht with rfl | ⟨-, hprev⟩
        · exact .inl (by rw [hnull, hown, hnil]; rfl)
        · exact .inr ⟨hnull, hown, hprev⟩
    | view focusable' children' next' =>
      rw [lastOf_more]
      exact (ihx hx nofun (backFrom_next true hview) ⟨_, backFrom_next false hview, .inl rfl⟩).2

theorem backFrom_top : Computes (backFrom tree root [] true) (before tree root []).head? := by
  refine (tryFrom_none fun _ _ => none).congr fun fuel => ?_
  simp only [backFrom, getPreviousFocusableView, getParent, ancestors, List.head?_nil, ite_self]
  rfl

/-- What lies before a view is found, whatever the view. -/
theorem previous_back (a : Address) :
    Computes (backFrom tree root a true) (before tree root a).head? := by
  induction a with
  | nil => exact backFrom_top
  | cons step a ih =>
    cases step with
    | child => exact backFrom_child ih
    | next =>
      apply backFrom_next
      apply previous_computes_view _ ih
      intro hne
      exact (previous_chain rfl hne (backFrom_child ih)
        ⟨[], tryFrom_none fun _ _ => none, .inr ⟨rfl, rfl⟩⟩).2

/-- Every search backward from a view that goes down and may go up. -/
theorem previous_all (a : Address) :
    Computes (fun fuel => findPreviousFocusableViewImpl tree root fuel a true true true)
      (backOwn tree a ++ before tree root a).head? :=
  previous_back (.next :: a)

/-! ## Focus traversal as a cycle

The views before a view of the root, and those after it, are all the focusable views of the root
but the root itself. What breaks the cycle is a focusable root, which only searches backward return,
and a focusable last child, under which a search that begins there does not go. -/

/-! ## The order of the views -/

theorem follow_nil (step : Step) : nil.follow step = nil := by cases step <;> rfl

theorem viewsAt_ne_of_suffix {b : Address} (h : b <:+ a) (ha : tree.viewsAt a ≠ nil) :
    tree.viewsAt b ≠ nil := by
  obtain ⟨pre, rfl⟩ := h
  induction pre with
  | nil => exact ha
  | cons step pre ih =>
    refine ih fun hnil => ha ?_
    rw [List.cons_append, viewsAt, hnil, follow_nil]

theorem order_unfold (tree : Views) (a : Address) : (tree.viewsAt a).order a =
    tree.own a ++ (tree.orderUnder a ++ (tree.viewsAt (.next :: a)).order (.next :: a)) := by
  by_cases h : tree.viewsAt a = nil
  · simp [own, isFocusable, orderUnder, viewsAt, h, follow_nil, order]
  · exact order_eq rfl h

theorem own_reverse (tree : Views) (a : Address) : (tree.own a).reverse = tree.own a := by
  unfold own
  split_ifs <;> rfl

variable {x : Address}

theorem mem_own : x ∈ tree.own a ↔ x = a ∧ tree.isFocusable x = true := by
  unfold own
  split_ifs with h
  · rw [List.mem_singleton]
    exact ⟨fun heq => ⟨heq, heq ▸ h⟩, fun hx => hx.1⟩
  · simp only [List.not_mem_nil, false_iff, not_and]
    rintro rfl
    exact h

theorem mem_order {s : Views} (h : tree.viewsAt a = s) :
    x ∈ s.order a ↔ a <:+ x ∧ tree.isFocusable x = true := by
  induction s generalizing a with
  | nil =>
    simp only [order, List.not_mem_nil, false_iff, not_and]
    intro hsuf hfocus
    have hne : tree.viewsAt x ≠ nil := by
      intro hnil
      rw [isFocusable, hnil] at hfocus
      cases hfocus
    exact viewsAt_ne_of_suffix hsuf hne h
  | view focusable children next ihc ihx =>
    have hc := ihc (viewsAt_cons .child h)
    have hx := ihx (viewsAt_cons .next h)
    rw [← h, order_unfold, List.mem_append, List.mem_append, mem_own, orderUnder,
      viewsAt_cons .child h, viewsAt_cons .next h]
    simp only [follow]
    rw [hc, hx]
    constructor
    · rintro (⟨rfl, hf⟩ | ⟨hsuf, hf⟩ | ⟨hsuf, hf⟩)
      · exact ⟨List.suffix_refl _, hf⟩
      · exact ⟨(List.suffix_cons _ _).trans hsuf, hf⟩
      · exact ⟨(List.suffix_cons _ _).trans hsuf, hf⟩
    · rintro ⟨⟨pre, rfl⟩, hf⟩
      rcases List.eq_nil_or_concat pre with rfl | ⟨pre, step, rfl⟩
      · exact Or.inl ⟨rfl, hf⟩
      · have hsuf : step :: a <:+ pre.concat step ++ a := ⟨pre, by simp⟩
        cases step with
        | next => exact Or.inr (Or.inr ⟨hsuf, hf⟩)
        | child => exact Or.inr (Or.inl ⟨hsuf, hf⟩)

theorem mem_orderUnder :
    x ∈ tree.orderUnder a ↔ .child :: a <:+ x ∧ tree.isFocusable x = true := mem_order rfl

theorem ne_of_suffix_cons {step : Step} (h : step :: a <:+ x) : x ≠ a := by
  rintro rfl
  exact absurd h.length_le (by simp)

theorem order_nodup {s : Views} (h : tree.viewsAt a = s) : (s.order a).Nodup := by
  induction s generalizing a with
  | nil => exact List.nodup_nil
  | view focusable children next ihc ihx =>
    have hown : (if focusable then [a] else []).Nodup := by split_ifs <;> simp
    refine List.nodup_append.mpr ⟨hown, List.nodup_append.mpr
      ⟨ihc (viewsAt_cons .child h), ihx (viewsAt_cons .next h), ?_⟩, ?_⟩
    · rintro x hx y hy rfl
      exact not_both (suffix_of_mem_order hy) (suffix_of_mem_order hx)
    · rintro x hx y hy rfl
      have hxa : x = a := by
        split_ifs at hx
        · exact List.mem_singleton.mp hx
        · cases hx
      rcases List.mem_append.mp hy with hy | hy <;>
        exact ne_of_suffix_cons (suffix_of_mem_order hy) hxa

theorem mem_focusables : x ∈ tree.focusables root ↔
    contains root x = true ∧ tree.isFocusable x = true := by
  rw [focusables, List.mem_append, mem_own, mem_orderUnder, contains_iff, or_and_right]

theorem focusables_nodup (tree : Views) (root : Address) : (tree.focusables root).Nodup := by
  refine List.nodup_append.mpr ⟨?_, order_nodup rfl, ?_⟩
  · unfold own
    split_ifs <;> simp
  · rintro x hx y hy rfl
    exact ne_of_suffix_cons (mem_orderUnder.mp hy).1 (mem_own.mp hx).1

/-! ## Before a view and after it -/

/-- The views of the root before a view, from the last one on, without the root. -/
def inner (tree : Views) (root : Address) : Address → List Address
  | [] => []
  | .next :: a => backOwn tree a ++ inner tree root a
  | .child :: a => if a = root then [] else tree.own a ++ inner tree root a

theorem inside_of_child (ha : .child :: root <:+ .child :: a) (hroot : a ≠ root) :
    .child :: root <:+ a := by
  rcases List.suffix_cons_iff.mp ha with heq | hsuf
  · exact absurd (List.cons.inj heq).2.symm hroot
  · exact hsuf

/-- What is before, at, under and after a view is everything. -/
theorem orderUnder_split (ha : .child :: root <:+ a) : tree.orderUnder root =
    (inner tree root a).reverse ++ ((tree.viewsAt a).order a ++ above tree root a) := by
  induction a with
  | nil => cases List.suffix_nil.mp ha
  | cons step b ih =>
    cases step with
    | next =>
      rw [ih (suffix_cons_of_ne ha nofun), order_unfold tree b, inner, above, backOwn]
      simp only [List.reverse_append, List.reverse_reverse, own_reverse, List.append_assoc]
    | child =>
      by_cases hroot : b = root
      · subst hroot
        rw [inner, above, if_pos rfl, if_pos rfl, List.append_nil]
        rfl
      · rw [ih (inside_of_child ha hroot), order_unfold tree b, inner, above, if_neg hroot,
          if_neg hroot, orderUnder]
        simp only [List.reverse_append, own_reverse, List.append_assoc]

theorem before_inside (ha : .child :: root <:+ a) : before tree root a =
    inner tree root a ++ (tree.own root ++ before tree root root) := by
  induction a with
  | nil => cases List.suffix_nil.mp ha
  | cons step b ih =>
    cases step with
    | next => rw [before, ih (suffix_cons_of_ne ha (by rintro ⟨⟩)), inner, List.append_assoc]
    | child =>
      rw [before, if_pos (contains_of_inside ha), inner]
      by_cases hroot : b = root
      · subst hroot
        rw [if_pos rfl]
        rfl
      · rw [if_neg hroot, ih (inside_of_child ha hroot), List.append_assoc]

theorem not_suffix_of_mem_backOwn (h : x ∈ backOwn tree a) : ¬ .next :: a <:+ x := by
  intro hnext
  rcases List.mem_append.mp h with h | h
  · exact not_both hnext (mem_orderUnder.mp (List.mem_reverse.mp h)).1
  · exact ne_of_suffix_cons hnext (mem_own.mp h).1

/-- What lies before a view is not under it. -/
theorem not_suffix_of_mem_before (h : x ∈ before tree root a) : ¬ a <:+ x := by
  induction a with
  | nil => cases h
  | cons step b ih =>
    intro hsuf
    have hb : b <:+ x := (List.suffix_cons _ _).trans hsuf
    cases step with
    | next =>
      rcases List.mem_append.mp h with h | h
      · exact not_suffix_of_mem_backOwn h hsuf
      · exact ih h hb
    | child =>
      rw [before] at h
      split_ifs at h with hin
      · rcases List.mem_append.mp h with h | h
        · exact ne_of_suffix_cons hsuf (mem_own.mp h).1
        · exact ih h hb
      · cases h

theorem before_outside (h : x ∈ before tree root root) : contains root x = false := by
  rw [Bool.eq_false_iff]
  intro hin
  refine not_suffix_of_mem_before h ?_
  rcases contains_iff.mp hin with rfl | hsuf
  · exact List.suffix_refl _
  · exact (List.suffix_cons _ _).trans hsuf

theorem filter_head {s t : List Address} (hs : ∀ x ∈ s, contains root x = true)
    (ht : ∀ x ∈ t, contains root x = false) : (s ++ t).head?.filter (contains root) = s.head? := by
  cases s with
  | nil =>
    cases t with
    | nil => rfl
    | cons x t => simp [Option.filter, ht x (by simp)]
  | cons x s => simp [Option.filter, hs x (by simp)]

/-- Of what lies before a view, the part within the root. -/
theorem filter_before {s : List Address} (hs : ∀ x ∈ s, contains root x = true) :
    (s ++ (tree.own root ++ before tree root root)).head?.filter (contains root) =
      (s ++ tree.own root).head? := by
  rw [← List.append_assoc]
  refine filter_head (fun x hx => ?_) fun x hx => before_outside hx
  rcases List.mem_append.mp hx with hx | hx
  · exact hs x hx
  · exact contains_iff.mpr (Or.inl (mem_own.mp hx).1)

theorem contains_of_mem_orderUnder {x : Address} (h : x ∈ tree.orderUnder root) :
    contains root x = true := contains_of_inside (mem_orderUnder.mp h).1

/-! ## One call -/

theorem within_eq (root v : Address) :
    (decide (v = root) || contains root v) = contains root v := by
  unfold contains
  rw [← Bool.or_assoc, Bool.or_self]

theorem findWithin_eq {start : Option Address} {reverse : Bool} {v : Address} (fuel : Nat)
    (hchild : tree.viewsAt (.child :: root) ≠ nil)
    (hstart : (start <|>
      (if reverse then tree.lastChild root else tree.firstChild root)) = some v) :
    findWithin tree root fuel start reverse true false =
      (if reverse then findPreviousFocusableViewImpl tree root fuel v start.isNone true
          (!tree.isFocusable v)
        else findNextFocusableViewImpl tree root fuel v start.isNone true true).map
        fun found => found.filter (contains root) := by
  have hsome : (tree.firstChild root).isNone = false := by
    rw [firstChild, existing_of_ne hchild]
    rfl
  simp only [findWithin, hsome, hstart, tryFrom, within_eq, Bool.false_or, Bool.true_and,
    Bool.false_eq_true, if_false]

theorem forward_from (ha : .child :: root <:+ a) (hne : tree.viewsAt a ≠ nil) :
    Computes (fun fuel => findWithin tree root fuel (some a) false true false)
      (tree.orderUnder a ++
        ((tree.viewsAt (.next :: a)).order (.next :: a) ++ above tree root a)).head? := by
  have hchild := viewsAt_ne_of_suffix ha hne
  cases h : tree.viewsAt a with
  | nil => exact absurd h hne
  | view focusable children next =>
    obtain ⟨found, hfound, hfil⟩ :=
      @next_rest tree root a false _ _ _ _ ha h rfl (climb_inside ha)
    have hmap := hfound.map fun found => found.filter (contains root)
    rw [hfil] at hmap
    rw [orderUnder, viewsAt_cons .child h, viewsAt_cons .next h]
    exact hmap.congr fun fuel => findWithin_eq fuel hchild rfl

theorem forward_none (hchild : tree.viewsAt (.child :: root) ≠ nil) :
    Computes (fun fuel => findWithin tree root fuel none false true false)
      (tree.orderUnder root).head? := by
  have hin : .child :: root <:+ .child :: root := List.suffix_refl _
  obtain ⟨found, hfound, hfil⟩ := next_inside hin rfl hchild (climb_inside hin)
  have habove : above tree root (.child :: root) = [] := if_pos rfl
  rw [habove, List.append_nil] at hfil
  have hmap := hfound.map fun found => found.filter (contains root)
  rw [hfil] at hmap
  exact hmap.congr fun fuel => findWithin_eq fuel hchild (existing_of_ne hchild)

theorem backward_from (ha : .child :: root <:+ a) (hfocus : tree.isFocusable a = true) :
    Computes (fun fuel => findWithin tree root fuel (some a) true true false)
      (inner tree root a ++ tree.own root).head? := by
  have hne : tree.viewsAt a ≠ nil := by
    intro hnil
    rw [isFocusable, hnil] at hfocus
    cases hfocus
  have hinner : ∀ x ∈ inner tree root a, contains root x = true := by
    intro x hx
    refine @contains_of_mem_orderUnder tree root x ?_
    rw [orderUnder_split ha]
    exact List.mem_append_left _ (List.mem_reverse.mpr hx)
  have hrun := @previous_computes tree root a false true _ (previous_back a)
  have hmap := hrun.map fun found => found.filter (contains root)
  rw [if_neg Bool.false_ne_true, List.nil_append, before_inside ha, filter_before hinner] at hmap
  refine hmap.congr fun fuel => ?_
  rw [findWithin_eq fuel (viewsAt_ne_of_suffix ha hne) rfl, hfocus]
  rfl

/-- A focusable last child is what a search backward that begins there returns. -/
theorem backward_none_focusable {last : Address} (hlast : tree.lastChild root = some last)
    (hchild : tree.viewsAt (.child :: root) ≠ nil) (hin : .child :: root <:+ last)
    (hfocus : tree.isFocusable last = true) :
    Computes (fun fuel => findWithin tree root fuel none true true false) (some last) := by
  have hrun : Computes (fun fuel =>
      findPreviousFocusableViewImpl tree root fuel last true true false) (some last) := by
    refine (Computes.pure _).succ fun fuel => ?_
    rw [findPreviousFocusableViewImpl, hfocus]
    rfl
  have hmap := hrun.map fun found => found.filter (contains root)
  have hfil : (some last).filter (contains root) = some last := by
    simp [Option.filter, contains_of_inside hin]
  rw [hfil] at hmap
  refine hmap.congr fun fuel => ?_
  rw [findWithin_eq fuel hchild hlast, hfocus]
  rfl

theorem lastOf_inside (s : Views) (a : Address) : a <:+ lastOf s a := by
  induction s generalizing a with
  | nil => exact List.suffix_refl _
  | view focusable children next _ ih =>
    unfold lastOf
    split
    · exact List.suffix_refl _
    · exact (List.suffix_cons _ _).trans (ih (.next :: a))

/-- The first of all views backward is at or under the last child. -/
theorem filter_last (hchild : tree.viewsAt (.child :: root) ≠ nil) :
    (backOwn tree (lastOf (tree.viewsAt (.child :: root)) (.child :: root)) ++
        before tree root (lastOf (tree.viewsAt (.child :: root)) (.child :: root))).head?.filter
        (contains root) = ((tree.orderUnder root).reverse ++ tree.own root).head? := by
  have hup : before tree root (.child :: root) = tree.own root ++ before tree root root :=
    if_pos (contains_of_inside (List.suffix_refl _))
  rw [lastOf_before rfl hchild, hup]
  exact filter_before fun x hx => contains_of_mem_orderUnder (List.mem_reverse.mp hx)

theorem backward_none_plain {last : Address} (hlast : tree.lastChild root = some last)
    (hchild : tree.viewsAt (.child :: root) ≠ nil) (hfocus : tree.isFocusable last = false) :
    Computes (fun fuel => findWithin tree root fuel none true true false)
      ((tree.orderUnder root).reverse ++ tree.own root).head? := by
  have heq := (tryLast_some hchild).symm.trans hlast
  cases heq
  have hall := @previous_all tree root (lastOf (tree.viewsAt (.child :: root)) (.child :: root))
  have hmap := hall.map fun found => found.filter (contains root)
  rw [filter_last hchild] at hmap
  refine hmap.congr fun fuel => ?_
  rw [findWithin_eq fuel hchild hlast, hfocus]
  rfl

end ChromiumUI.FocusCycle
