import ChromiumUI.FocusCycleBackward

/-!
# When focus traversal is a cycle
-/
namespace ChromiumUI.FocusCycle

open Fuel Views Nat Bool

/-- A call of FindNextFocusableView of a FocusSearch that cycles. -/
def find (tree : Views) (root : Address) (reverse : Bool) (startingView : Option Address)
    (fuel : Nat) : Option (Option Address) :=
  findNextFocusableView tree root true fuel startingView reverse true false

/-- The call without a starting view and the calls after it, each fed back. -/
def callsFrom (tree : Views) (root : Address) (reverse : Bool) : Nat → Nat → Option (Option Address)
  | 0, fuel => find tree root reverse none fuel
  | calls + 1, fuel => (callsFrom tree root reverse calls fuel).bind
      fun v => find tree root reverse v fuel

/-- Forward calls go through the views round after round, backward ones in the reverse order, and a
step back leads to where a step came from. -/
structure Cycles (tree : Views) (root : Address) (l : List Address) : Prop where
  forward : ∀ k, Computes (callsFrom tree root false k) l[k % l.length]?
  backward : ∀ k, Computes (callsFrom tree root true k) l.reverse[k % l.length]?
  back : ∀ v ∈ l, ∃ w ∈ l, Computes (find tree root false (some v)) (some w) ∧
    Computes (find tree root true (some w)) (some v)

/-- The root is not focusable, nor is its last child if there are focusable views under it. -/
def Plain (tree : Views) (root : Address) : Prop :=
  tree.isFocusable root = false ∧ ∀ last, tree.lastChild root = some last →
    tree.isFocusable last = true → tree.orderUnder last = []

variable {tree : Views} {root : Address}

/-! ## Cycling -/

theorem find_none {reverse : Bool} {w : Option Address}
    (h : Computes (fun fuel => findWithin tree root fuel none reverse true false) w) :
    Computes (find tree root reverse none) w := by
  refine (h.map id).congr fun fuel => ?_
  simp only [find, findNextFocusableView, Option.isSome_none, Bool.and_false, Bool.false_eq_true,
    if_false, Option.map_id, id]
  exact Option.bind_fun_some _

/-- A call goes on from the start when there is nothing left. -/
theorem find_some {reverse : Bool} {v : Address} {s t : List Address}
    (h : Computes (fun fuel => findWithin tree root fuel (some v) reverse true false) s.head?)
    (hnone : Computes (fun fuel => findWithin tree root fuel none reverse true false) t.head?) :
    Computes (find tree root reverse (some v)) (s ++ t).head? := by
  apply Computes.bind h
  cases s with
  | nil => exact hnone
  | cons x s => exact .pure _

theorem callsFrom_succ {reverse : Bool} {k : Nat} {v w : Option Address}
    (hk : Computes (callsFrom tree root reverse k) v) (h : Computes (find tree root reverse v) w) :
    Computes (callsFrom tree root reverse (k + 1)) w := hk.bind h

/-- What one step around a list does, steps of any number do. -/
theorem calls_around {reverse : Bool} {l : List Address}
    (hnone : Computes (find tree root reverse none) l[0]?)
    (hsome : ∀ i v, l[i]? = some v → Computes (find tree root reverse (some v))
      l[(i + 1) % l.length]?) (k : Nat) :
    Computes (callsFrom tree root reverse k) l[k % l.length]? := by
  induction k with
  | zero =>
    rw [zero_mod]
    exact hnone
  | succ k ih =>
    refine callsFrom_succ ih ?_
    cases hv : l[k % l.length]? with
    | none =>
      have hlen : l = [] := by
        by_contra hne
        have hlt := mod_lt k (List.length_pos_of_ne_nil hne)
        exact absurd (List.getElem?_eq_none_iff.mp hv) (not_le.mpr hlt)
      subst hlen
      exact hnone
    | some v =>
      have h := hsome _ v hv
      rwa [mod_add_mod] at h

/-! ## The cycle -/

/-- Where a view is in the order, and what is around it. -/
theorem around {i : Nat} {v : Address} (h : (tree.orderUnder root)[i]? = some v) :
    .child :: root <:+ v ∧ tree.isFocusable v = true ∧
      (inner tree root v).reverse = (tree.orderUnder root).take i ∧
      tree.orderUnder v ++ ((tree.viewsAt (.next :: v)).order (.next :: v) ++ above tree root v) =
        (tree.orderUnder root).drop (i + 1) := by
  obtain ⟨hin, hfocus⟩ := mem_orderUnder.mp (List.mem_of_getElem? h)
  have hown : tree.own v = [v] := if_pos hfocus
  have hsplit := @orderUnder_split tree root v hin
  rw [order_unfold, hown] at hsplit
  have hnodup : (tree.orderUnder root).Nodup := order_nodup rfl
  have hi := (List.getElem?_eq_some_iff.mp h).1
  have hat : (tree.orderUnder root)[(inner tree root v).reverse.length]? = some v := by
    rw [hsplit, List.getElem?_append_right (Nat.le_refl _), Nat.sub_self]
    rfl
  have hindex : i = (inner tree root v).reverse.length :=
    (List.getElem?_inj hi hnodup).mp (h.trans hat.symm)
  refine ⟨hin, hfocus, ?_, ?_⟩
  · rw [hindex, hsplit, List.take_left']
    rfl
  · rw [hindex, hsplit]
    simp [List.drop_append]

theorem forward_cycle (hchild : tree.viewsAt (.child :: root) ≠ nil) {i : Nat} {v : Address}
    (h : (tree.orderUnder root)[i]? = some v) : Computes (find tree root false (some v))
      (tree.orderUnder root)[(i + 1) % (tree.orderUnder root).length]? := by
  obtain ⟨hin, hfocus, -, hrest⟩ := around h
  have hne : tree.viewsAt v ≠ nil := by
    intro hnil
    rw [isFocusable, hnil] at hfocus
    cases hfocus
  have hfrom := @forward_from tree root v hin hne
  rw [hrest] at hfrom
  have hrun := find_some hfrom (forward_none hchild)
  have hi := (List.getElem?_eq_some_iff.mp h).1
  by_cases hlast : i + 1 = (tree.orderUnder root).length
  · rw [hlast, List.drop_length, List.nil_append, List.head?_eq_getElem?] at hrun
    rw [hlast, mod_self]
    exact hrun
  · have hlt : i + 1 < (tree.orderUnder root).length := by omega
    rw [mod_eq_of_lt hlt]
    rw [List.head?_append, List.head?_drop, List.getElem?_eq_getElem hlt] at hrun
    rw [List.getElem?_eq_getElem hlt]
    exact hrun

theorem backward_none (hplain : Plain tree root) (hchild : tree.viewsAt (.child :: root) ≠ nil) :
    Computes (fun fuel => findWithin tree root fuel none true true false)
      (tree.orderUnder root).reverse.head? := by
  obtain ⟨hroot, hunder⟩ := hplain
  have hown : tree.own root = [] := if_neg (by rw [hroot]; exact false_ne_true)
  have hlast := tryLast_some hchild
  have hin := lastOf_inside (tree.viewsAt (.child :: root)) (.child :: root)
  cases hfocus : tree.isFocusable
    (lastOf (tree.viewsAt (.child :: root)) (.child :: root)) with
  | false =>
    have hrun := backward_none_plain hlast hchild hfocus
    rwa [hown, List.append_nil] at hrun
  | true =>
    have hrun := backward_none_focusable hlast hchild hin hfocus
    have hfirst := filter_last hchild
    rw [backOwn, hunder _ hlast hfocus, own, if_pos hfocus, hown, List.append_nil] at hfirst
    rw [← hfirst]
    simpa [Option.filter, contains_of_inside hin] using hrun

theorem backward_cycle (hplain : Plain tree root) (hchild : tree.viewsAt (.child :: root) ≠ nil)
    {i : Nat} {v : Address} (h : (tree.orderUnder root)[i]? = some v) :
    Computes (find tree root true (some v))
      (if i = 0 then (tree.orderUnder root).getLast? else (tree.orderUnder root)[i - 1]?) := by
  obtain ⟨hin, hfocus, hinner, -⟩ := around h
  have hown : tree.own root = [] := if_neg (by rw [hplain.1]; exact false_ne_true)
  have hfrom := @backward_from tree root v hin hfocus
  have heq : inner tree root v = ((tree.orderUnder root).take i).reverse := by
    rw [← hinner, List.reverse_reverse]
  rw [hown, List.append_nil, heq] at hfrom
  have hrun := find_some hfrom (backward_none hplain hchild)
  have hi := (List.getElem?_eq_some_iff.mp h).1
  split_ifs with hzero
  · subst hzero
    rw [List.take_zero, List.reverse_nil, List.nil_append, List.head?_reverse] at hrun
    exact hrun
  · have hpos : 0 < i := Nat.pos_of_ne_zero hzero
    have hlt : i - 1 < (tree.orderUnder root).length := by omega
    rw [List.head?_append, List.head?_reverse, List.getLast?_take, if_neg hzero,
      List.getElem?_eq_getElem hlt] at hrun
    rw [List.getElem?_eq_getElem hlt]
    exact hrun

theorem cycles_of_plain (hplain : Plain tree root) : Cycles tree root (tree.orderUnder root) := by
  by_cases hchild : tree.viewsAt (.child :: root) = nil
  · have hempty : tree.orderUnder root = [] := by
      rw [orderUnder, hchild]
      rfl
    have hnothing : ∀ reverse, Computes (find tree root reverse none) none := by
      intro reverse
      refine find_none ((Computes.pure _).congr fun fuel => ?_)
      rw [findWithin, firstChild, existing_of_nil hchild]
      rfl
    rw [hempty]
    exact ⟨calls_around (l := []) (hnothing false) (by rintro _ _ ⟨⟩),
      calls_around (l := []) (hnothing true) (by rintro _ _ ⟨⟩), (by rintro _ ⟨⟩)⟩
  · have hforward := fun i v => @forward_cycle tree root hchild i v
    have hbackward := fun i v => @backward_cycle tree root hplain hchild i v
    refine ⟨calls_around ?_ hforward, ?_, ?_⟩
    · rw [← List.head?_eq_getElem?]
      exact find_none (forward_none hchild)
    · have hcalls := @calls_around tree root true (tree.orderUnder root).reverse ?_ ?_
      · rwa [List.length_reverse] at hcalls
      · rw [← List.head?_eq_getElem?]
        exact find_none (backward_none hplain hchild)
      · intro j v hj
        have hlt := (List.getElem?_eq_some_iff.mp hj).1
        rw [List.length_reverse] at hlt ⊢
        rw [List.getElem?_reverse hlt] at hj
        have hrun := hbackward _ v hj
        split_ifs at hrun with hzero
        · have hround : j + 1 = (tree.orderUnder root).length := by omega
          rw [hround, mod_self, ← List.head?_eq_getElem?, List.head?_reverse]
          exact hrun
        · have hnext : j + 1 < (tree.orderUnder root).length := by omega
          rw [mod_eq_of_lt hnext, List.getElem?_reverse hnext]
          have hindex : (tree.orderUnder root).length - 1 - (j + 1) =
              (tree.orderUnder root).length - 1 - j - 1 := by omega
          rw [hindex]
          exact hrun
    · intro v hv
      obtain ⟨i, hi, hget⟩ := List.getElem_of_mem hv
      have hat : (tree.orderUnder root)[i]? = some v := List.getElem?_eq_some_iff.mpr ⟨hi, hget⟩
      have hlt := mod_lt (i + 1) (zero_lt_of_lt hi)
      obtain ⟨w, hw⟩ : ∃ w, (tree.orderUnder root)[(i + 1) % (tree.orderUnder root).length]? =
          some w := ⟨_, List.getElem?_eq_getElem hlt⟩
      have hrun := hforward i v hat
      rw [hw] at hrun
      refine ⟨w, List.mem_of_getElem? hw, hrun, ?_⟩
      have hback := hbackward _ w hw
      by_cases hlast : i + 1 = (tree.orderUnder root).length
      · rw [hlast, mod_self, if_pos rfl, List.getLast?_eq_getElem?, ← hlast,
          Nat.add_sub_cancel, hat] at hback
        exact hback
      · have hmod : (i + 1) % (tree.orderUnder root).length = i + 1 :=
          mod_eq_of_lt (by omega)
        rw [hmod, if_neg (Nat.succ_ne_zero i), Nat.add_sub_cancel, hat] at hback
        exact hback

theorem not_mem_orderUnder_self : root ∉ tree.orderUnder root := fun h =>
  ne_of_suffix_cons (mem_orderUnder.mp h).1 rfl

/-- A focusable root is not what forward calls begin with, nor what they ever return. -/
theorem not_cycles_of_root (hroot : tree.isFocusable root = true) :
    ¬ Cycles tree root (tree.focusables root) := by
  intro h
  have hfirst : (tree.focusables root)[0]? = some root := by
    rw [focusables, own, if_pos hroot]
    rfl
  have hcall := h.forward 0
  rw [zero_mod, hfirst] at hcall
  by_cases hchild : tree.viewsAt (.child :: root) = nil
  · have hnothing : Computes (find tree root false none) none := by
      refine find_none ((Computes.pure _).congr fun fuel => ?_)
      rw [findWithin, firstChild, existing_of_nil hchild]
      rfl
    cases hcall.unique hnothing
  · have heq := hcall.unique (find_none (forward_none hchild))
    exact not_mem_orderUnder_self (List.mem_of_head? heq.symm)

/-- Under a focusable last child the backward calls do not begin. -/
theorem not_cycles_of_last {last : Address} (hroot : tree.isFocusable root = false)
    (hlast : tree.lastChild root = some last) (hfocus : tree.isFocusable last = true)
    (hunder : tree.orderUnder last ≠ []) : ¬ Cycles tree root (tree.orderUnder root) := by
  intro h
  have hchild : tree.viewsAt (.child :: root) ≠ nil := by
    intro hnil
    rw [tryLast_none hnil] at hlast
    cases hlast
  have heq := (tryLast_some hchild).symm.trans hlast
  cases heq
  have hin := lastOf_inside (tree.viewsAt (.child :: root)) (.child :: root)
  have hcall := h.backward 0
  rw [zero_mod, ← List.head?_eq_getElem?] at hcall
  have hfirst := hcall.unique (find_none (backward_none_focusable hlast hchild hin hfocus))
  have hfil := filter_last hchild
  have hown : tree.own root = [] := if_neg (by rw [hroot]; exact false_ne_true)
  rw [hown, List.append_nil, hfirst, backOwn] at hfil
  obtain ⟨x, l, hl⟩ := List.exists_cons_of_ne_nil (mt List.reverse_eq_nil_iff.mp hunder)
  have hmem : x ∈ tree.orderUnder (lastOf (tree.viewsAt (.child :: root)) (.child :: root)) := by
    rw [← List.mem_reverse, hl]
    exact List.mem_cons_self
  have hx := (mem_orderUnder.mp hmem).1
  rw [hl] at hfil
  have hcont : contains root x = true :=
    contains_of_inside ((hin.trans (List.suffix_cons _ _)).trans hx)
  have hsame : x = lastOf (tree.viewsAt (.child :: root)) (.child :: root) := by
    simpa [Option.filter, hcont] using hfil
  exact ne_of_suffix_cons hx hsame

/-- The focusable views of the root, each once and in pre-order, are what the calls go around in
both directions exactly when neither the root nor a last child above others is focusable. -/
theorem focus_cycles_iff (tree : Views) (root : Address) :
    ((tree.focusables root).Nodup ∧
      ∀ v, v ∈ tree.focusables root ↔ contains root v = true ∧ tree.isFocusable v = true) ∧
    (Cycles tree root (tree.focusables root) ↔ Plain tree root) := by
  refine ⟨⟨focusables_nodup tree root, fun v => mem_focusables⟩, ?_, ?_⟩
  · intro h
    cases hroot : tree.isFocusable root with
    | true => exact absurd h (not_cycles_of_root hroot)
    | false =>
      refine ⟨hroot, fun last hlast hfocusable => ?_⟩
      by_contra hunder
      refine not_cycles_of_last hroot hlast hfocusable hunder ?_
      rwa [focusables, own, if_neg (by rw [hroot]; exact false_ne_true)] at h
  · intro hplain
    rw [focusables, own, if_neg (by rw [hplain.1]; exact false_ne_true)]
    exact cycles_of_plain hplain

/-- A root with a focusable child that has a focusable child. -/
def nestedLast : Views := .view false (.view true (.view true .nil .nil) .nil) .nil

/-- A step back from the outer view, which is the first one, leads to itself. -/
theorem nestedLast_steps_back_to_itself :
    nestedLast.focusables [] = [[.child], [.child, .child]] ∧
      find nestedLast [] true (some [.child]) 10 = some (some [.child]) ∧
      find nestedLast [] false (some [.child, .child]) 10 = some (some [.child]) ∧
      ¬ Cycles nestedLast [] (nestedLast.focusables []) := by
  refine ⟨by decide, by decide, by decide, fun h => ?_⟩
  have hfirst : Computes (callsFrom nestedLast [] true 0) (some [.child]) :=
    find_none (backward_none_focusable (by decide) (by decide) (by decide) (by decide))
  have hlength : (nestedLast.focusables []).reverse[0 % (nestedLast.focusables []).length]? =
      some [.child, .child] := by decide
  have hcall := h.backward 0
  rw [hlength] at hcall
  cases hcall.unique hfirst

end ChromiumUI.FocusCycle
