import Mathlib.Data.List.Nodup
import Mathlib.Logic.Relation
import ChromiumUI.Runs
import ChromiumUI.Slots

/-!
# The order in which siblings are focused

Each view points at the next and at the previous focusable view. Whatever children are added,
moved and removed, the pointers of the children of a view follow its list of children.
-/
namespace ChromiumUI.Views.Siblings

set_option linter.unusedSectionVars false

open Runs Slots List Option Function

variable {ν : Type*}

/-! ## Chains that end in NULL -/

/-- `next_focusable_view_` and `previous_focusable_view_`; `none` is NULL. -/
structure Links (ν : Type*) where
  next : ν → Option ν
  prev : ν → Option ν

/-- The views are linked both ways, with `before` before the first and `after` behind the last. -/
def Path (l : Links ν) : Option ν → List ν → Option ν → Prop
  | _, [], _ => True
  | before, v :: vs, after =>
    l.prev v = before ∧ l.next v = vs.head?.or after ∧ Path l (some v) vs after

variable {l : Links ν} {before after : Option ν} {xs : List ν}

theorem path_append {ys : List ν} :
    Path l before (xs ++ ys) after ↔
      Path l before xs (ys.head?.or after) ∧ Path l (xs.getLast?.or before) ys after := by
  induction xs generalizing before with
  | nil => simp [Path]
  | cons x xs ih =>
    cases xs with
    | nil => simp [Path, and_assoc]
    | cons y xs =>
      simp only [cons_append, Path, head?_cons, some_or, getLast?_cons_cons,
        and_assoc] at ih ⊢
      rw [ih, getLast?_eq_getLast_of_ne_nil (cons_ne_nil y xs)]
      rfl

/-- The pointers of these views are the same. -/
def SameOn (l l' : Links ν) (xs : List ν) : Prop :=
  ∀ v ∈ xs, l'.next v = l.next v ∧ l'.prev v = l.prev v

theorem Path.congr {l' : Links ν} (h : Path l before xs after) (hsame : SameOn l l' xs) :
    Path l' before xs after := by
  induction xs generalizing before with
  | nil => trivial
  | cons x xs ih =>
    obtain ⟨hprev, hnext, hrest⟩ := h
    obtain ⟨hnext', hprev'⟩ := hsame x mem_cons_self
    exact ⟨hprev'.trans hprev, hnext'.trans hnext,
      ih hrest fun v hv => hsame v (mem_cons_of_mem _ hv)⟩

theorem SameOn.trans {l' l'' : Links ν} (h : SameOn l l' xs) (h' : SameOn l' l'' xs) :
    SameOn l l'' xs :=
  fun v hv => ⟨(h' v hv).1.trans (h v hv).1, (h' v hv).2.trans (h v hv).2⟩

theorem find_last (h : Path l before xs none) :
    (xs.find? fun c => (l.next c).isNone) = xs.getLast? := by
  induction xs generalizing before with
  | nil => rfl
  | cons x xs ih =>
    obtain ⟨-, hnext, hrest⟩ := h
    cases xs with
    | nil => simp [hnext]
    | cons y xs => rw [find?_cons_of_neg (by simp [hnext]), ih hrest, getLast?_cons_cons]

variable [DecidableEq ν]

/-- `if (v) v->next_focusable_view_ = w` -/
def Links.setNext (l : Links ν) (v w : Option ν) : Links ν :=
  match v with
  | none => l
  | some v => { l with next := update l.next v w }

def Links.setPrev (l : Links ν) (v w : Option ν) : Links ν :=
  match v with
  | none => l
  | some v => { l with prev := update l.prev v w }

theorem setNext_sameOn (l : Links ν) {v : Option ν} (w : Option ν) {xs : List ν}
    (h : ∀ x ∈ v, x ∉ xs) : SameOn l (l.setNext v w) xs := by
  intro x hx
  cases v with
  | none => exact ⟨rfl, rfl⟩
  | some v => exact ⟨update_of_ne (ne_of_mem_of_not_mem hx (h v rfl)) .., rfl⟩

theorem setPrev_sameOn (l : Links ν) {v : Option ν} (w : Option ν) {xs : List ν}
    (h : ∀ x ∈ v, x ∉ xs) : SameOn l (l.setPrev v w) xs := by
  intro x hx
  cases v with
  | none => exact ⟨rfl, rfl⟩
  | some v => exact ⟨rfl, update_of_ne (ne_of_mem_of_not_mem hx (h v rfl)) ..⟩

theorem Path.setNext_last (h : Path l before xs after) (hnodup : xs.Nodup) (w : Option ν) :
    Path (l.setNext xs.getLast? w) before xs w := by
  induction xs generalizing before with
  | nil => trivial
  | cons x xs ih =>
    obtain ⟨hprev, hnext, hrest⟩ := h
    cases xs with
    | nil => exact ⟨hprev, by simp [Links.setNext], trivial⟩
    | cons y xs =>
      rw [getLast?_cons_cons]
      have hsame : SameOn l (l.setNext (y :: xs).getLast? w) [x] := by
        apply setNext_sameOn
        rintro v hv hx
        obtain rfl := mem_singleton.mp hx
        exact (nodup_cons.mp hnodup).1 (mem_of_getLast? hv)
      obtain ⟨hnext', hprev'⟩ := hsame x mem_cons_self
      exact ⟨hprev'.trans hprev, hnext'.trans hnext, ih hrest (nodup_cons.mp hnodup).2⟩

theorem Path.setPrev_head {l : Links ν} {before after : Option ν} {xs : List ν}
    (h : Path l before xs after) (hnodup : xs.Nodup) (w : Option ν) :
    Path (l.setPrev xs.head? w) w xs after := by
  cases xs with
  | nil => trivial
  | cons x xs =>
    refine ⟨by simp [Links.setPrev], h.2.1, h.2.2.congr (setPrev_sameOn l w ?_)⟩
    rintro v ⟨⟩
    exact (nodup_cons.mp hnodup).1

/-! ## Taking a view out of a chain and putting it in -/

/-- What RemoveChildView and ReorderChildView do first; the view keeps its own pointers. -/
def Links.unlink (l : Links ν) (v : ν) : Links ν :=
  (l.setNext (l.prev v) (l.next v)).setPrev (l.next v) (l.prev v)

variable {v : ν}

theorem Path.unlink {pre post : List ν} (h : Path l none (pre ++ v :: post) none)
    (hnodup : (pre ++ v :: post).Nodup) :
    Path (l.unlink v) none (pre ++ post) none ∧
      ∀ xs : List ν, (∀ x ∈ pre ++ post, x ∉ xs) → SameOn l (l.unlink v) xs := by
  obtain ⟨hpre, hprev, hnext, hpost⟩ := path_append.mp h
  simp only [or_none] at hprev hnext
  rw [nodup_append, nodup_cons] at hnodup
  obtain ⟨hndpre, ⟨-, hndpost⟩, hdisj⟩ := hnodup
  unfold Links.unlink
  rw [hprev, hnext]
  have hsame : ∀ xs : List ν, (∀ x ∈ pre ++ post, x ∉ xs) →
      SameOn l ((l.setNext pre.getLast? post.head?).setPrev post.head? pre.getLast?) xs := by
    intro xs hxs
    have hfirst := @setNext_sameOn _ _ l pre.getLast? post.head? xs fun x hx =>
      hxs x (mem_append_left _ (mem_of_getLast? hx))
    have hsecond := @setPrev_sameOn _ _ (l.setNext pre.getLast? post.head?) post.head?
      pre.getLast? xs fun x hx => hxs x (mem_append_right _ (mem_of_mem_head? hx))
    exact hfirst.trans hsecond
  refine ⟨path_append.mpr ⟨?_, ?_⟩, hsame⟩
  · rw [or_none]
    refine (hpre.setNext_last hndpre _).congr (setPrev_sameOn _ _ fun x hx hin => ?_)
    exact hdisj x hin x (mem_cons_of_mem _ (mem_of_mem_head? hx)) rfl
  · rw [or_none]
    refine @Path.setPrev_head _ _ _ (some v) _ _ (hpost.congr (setNext_sameOn _ _ ?_)) hndpost _
    exact fun x hx hin => hdisj x (mem_of_getLast? hx) x (mem_cons_of_mem _ hin) rfl

/-- `none`: `children_` was read out of range, or a NULL pointer was followed. -/
def Links.initFocusSiblings (l : Links ν) (children : List ν) (v : ν) (index : Nat) :
    Option (Links ν) :=
  if children.length = 0 then some ((l.setNext (some v) none).setPrev (some v) none)
  else if index = children.length then
    match children.find? fun c => (l.next c).isNone with
    | none =>
      children[index - 1]?.bind fun prev =>
        let l := (l.setPrev (some v) (some prev)).setNext (some v) (l.next prev)
        (l.next prev).map fun next => (l.setPrev (some next) (some v)).setNext (some prev) (some v)
    | some last =>
      some (((l.setNext (some last) (some v)).setNext (some v) none).setPrev (some v) (some last))
  else
    children[index]?.map fun c =>
      let prev := l.prev c
      let l := (l.setPrev (some v) prev).setNext (some v) (some c)
      (l.setNext prev (some v)).setPrev (some c) (some v)

/-- The view points at its neighbours and they at it. -/
def Links.link (l : Links ν) (v : ν) (prev next : Option ν) : Links ν :=
  (((l.setPrev (some v) prev).setNext (some v) next).setNext prev (some v)).setPrev next (some v)

theorem initFocusSiblings_eq {pre post : List ν} (h : Path l none (pre ++ post) none) (hv : v ∉ pre)
    :
    l.initFocusSiblings (pre ++ post) v pre.length =
      some (l.link v pre.getLast? post.head?) := by
  unfold Links.initFocusSiblings
  cases post with
  | nil =>
    rw [append_nil] at h ⊢
    cases hlast : pre.getLast? with
    | none =>
      obtain rfl := getLast?_eq_none_iff.mp hlast
      rfl
    | some last =>
      have hne : pre.length ≠ 0 := by
        rintro hnil
        rw [eq_nil_of_length_eq_zero hnil] at hlast
        cases hlast
      have hcomm : last ≠ v := ne_of_mem_of_not_mem (mem_of_getLast? hlast) hv
      rw [if_neg hne, if_pos rfl, find_last h, hlast]
      simp only [Links.link, Links.setNext, Links.setPrev, head?_nil,
        update_comm hcomm]
  | cons c post =>
    obtain ⟨-, hprev, -⟩ := path_append.mp h
    rw [or_none] at hprev
    rw [if_neg (by simp), if_neg (by simp), getElem?_append_right (Nat.le_refl _)]
    simp [Links.link, hprev]

theorem Path.link {pre post : List ν} (h : Path l none (pre ++ post) none)
    (hnodup : (pre ++ v :: post).Nodup) :
    Path (l.link v pre.getLast? post.head?) none (pre ++ v :: post) none ∧
      ∀ xs : List ν, (∀ x ∈ pre ++ v :: post, x ∉ xs) →
        SameOn l (l.link v pre.getLast? post.head?) xs := by
  obtain ⟨hpre, hpost⟩ := path_append.mp h
  simp only [or_none] at hpre hpost
  simp only [nodup_append, nodup_cons, mem_cons, ne_eq] at hnodup
  obtain ⟨hndpre, ⟨hvpost, hndpost⟩, hdisj⟩ := hnodup
  have hvpre : v ∉ pre := fun hin => hdisj v hin v (.inl rfl) rfl
  unfold Links.link
  -- the pointers of the view, those at it from before it, and those from behind it
  have hview : ∀ xs : List ν, v ∉ xs →
      SameOn l ((l.setPrev (some v) pre.getLast?).setNext (some v) post.head?) xs := by
    intro xs hxs
    refine (setPrev_sameOn _ _ ?_).trans (setNext_sameOn _ _ ?_) <;>
      · rintro _ ⟨⟩
        exact hxs
  generalize hl₁ : (l.setPrev (some v) pre.getLast?).setNext (some v) post.head? = l₁ at hview ⊢
  have hprev₁ : l₁.prev v = pre.getLast? := by simp [← hl₁, Links.setNext, Links.setPrev]
  have hnext₁ : l₁.next v = post.head? := by simp [← hl₁, Links.setNext, Links.setPrev]
  have hbefore : ∀ xs : List ν, (∀ x ∈ pre, x ∉ xs) →
      SameOn l₁ (l₁.setNext pre.getLast? (some v)) xs := fun xs hxs =>
    setNext_sameOn _ _ fun x hx => hxs x (mem_of_getLast? hx)
  have hpre₂ := (hpre.congr (hview pre hvpre)).setNext_last hndpre (some v)
  have hpost₂ := (hpost.congr (hview post hvpost)).congr (hbefore post fun x hx hin =>
    hdisj x hx x (.inr hin) rfl)
  generalize l₁.setNext pre.getLast? (some v) = l₂ at hbefore hpre₂ hpost₂ ⊢
  have hbehind : ∀ xs : List ν, (∀ x ∈ post, x ∉ xs) →
      SameOn l₂ (l₂.setPrev post.head? (some v)) xs := fun xs hxs =>
    setPrev_sameOn _ _ fun x hx => hxs x (mem_of_mem_head? hx)
  have hv : SameOn l₁ (l₂.setPrev post.head? (some v)) [v] :=
    (hbefore [v] fun x hx hin => hvpre (mem_singleton.mp hin ▸ hx)).trans
      (hbehind [v] fun x hx hin => hvpost (mem_singleton.mp hin ▸ hx))
  obtain ⟨hnext, hprev⟩ := hv v (mem_singleton_self v)
  refine ⟨path_append.mpr ⟨?_, ?_, ?_, hpost₂.setPrev_head hndpost _⟩, fun xs hxs => ?_⟩
  · exact hpre₂.congr (hbehind pre fun x hx hin => hdisj x hin x (.inr hx) rfl)
  · rw [hprev, hprev₁, or_none]
  · rw [hnext, hnext₁, or_none]
  · exact ((hview xs (hxs v (by simp))).trans (hbefore xs fun x hx => hxs x (by simp [hx]))).trans
      (hbehind xs fun x hx => hxs x (by simp [hx]))

/-! ## Views -/

structure State (ν : Type*) where
  parent : ν → Option ν
  children : ν → List ν
  links : Links ν

namespace State

/-- With the focus cycle updated, as RemoveChildView does it. -/
def removeChildView (s : State ν) (this view : ν) : State ν :=
  if view ∈ s.children this then
    { parent := update s.parent view none
      children := update s.children this ((s.children this).erase view)
      links := s.links.unlink view }
  else s

def reorderChildView (s : State ν) (this view : ν) (index : Int) : Option (State ν) :=
  let count := (s.children this).length
  if 0 ≤ index ∧ (count : Int) ≤ index then some s
  else
    let index := if index < 0 then count - 1 else index.toNat
    if (s.children this)[index]? = some view then some s
    else
      let children := (s.children this).erase view
      ((s.links.unlink view).initFocusSiblings children view index).map fun links =>
        { s with
          children := update s.children this (children.insertIdx index view)
          links := links }

/-- AddChildViewAt behind the place where the old parent is left. -/
def insertChild (s : State ν) (this view : ν) (index : Nat) : Option (State ν) :=
  (s.links.initFocusSiblings (s.children this) view index).map fun links =>
    { parent := update s.parent view (some this)
      children := update s.children this ((s.children this).insertIdx index view)
      links := links }

def addChildViewAt (s : State ν) (this view : ν) (index : Nat) : Option (State ν) :=
  match s.parent view with
  | none => s.insertChild this view index
  | some parent =>
    if parent = this then s.reorderChildView this view index
    else (s.removeChildView parent view).insertChild this view index

def addChildView (s : State ν) (this view : ν) : Option (State ν) :=
  if s.parent view = some this then some s
  else s.addChildViewAt this view (s.children this).length

end State

inductive Call (ν : Type*) where
  | addChildView (this view : ν)
  | addChildViewAt (this view : ν) (index : Nat)
  | reorderChildView (this view : ν) (index : Int)
  | removeChildView (this view : ν)

def step (s : State ν) : Call ν → Option (State ν)
  | .addChildView this view => s.addChildView this view
  | .addChildViewAt this view index => s.addChildViewAt this view index
  | .reorderChildView this view index => s.reorderChildView this view index
  | .removeChildView this view => some (s.removeChildView this view)

/-- What the calls check. -/
def Allowed (s : State ν) : Call ν → Prop
  | .addChildView this view => view ≠ this
  | .addChildViewAt this view index => view ≠ this ∧ index ≤ (s.children this).length
  | .reorderChildView this view _ => s.parent view = some this
  | .removeChildView _ _ => True

/-- No view has a parent yet. -/
def init : State ν := ⟨fun _ => none, fun _ => [], ⟨fun _ => none, fun _ => none⟩⟩

structure Inv (s : State ν) : Prop where
  nodup : ∀ p, (s.children p).Nodup
  parent : ∀ p v, v ∈ s.children p ↔ s.parent v = some p
  path : ∀ p, Path s.links none (s.children p) none

/-- The pointers of the children of a view are their places in its list, the ends are NULL, and they
lead to no other view. -/
structure FocusOrder (s : State ν) (p : ν) : Prop where
  nodup : (s.children p).Nodup
  places : ∀ pre v post, s.children p = pre ++ v :: post →
    s.links.prev v = pre.getLast? ∧ s.links.next v = post.head?
  inverse : ∀ v ∈ s.children p, ∀ w ∈ s.children p,
    s.links.next v = some w ↔ s.links.prev w = some v
  closed : ∀ v ∈ s.children p, ∀ w,
    Relation.ReflTransGen (fun a b => s.links.next a = some b ∨ s.links.prev a = some b) v w →
      w ∈ s.children p

variable {s : State ν}

theorem Inv.focusOrder (h : Inv s) (p : ν) : FocusOrder s p := by
  have hplaces : ∀ pre v post, s.children p = pre ++ v :: post →
      s.links.prev v = pre.getLast? ∧ s.links.next v = post.head? := by
    intro pre v post heq
    have hpath := h.path p
    rw [heq, path_append] at hpath
    exact ⟨by simpa using hpath.2.1, by simpa using hpath.2.2.1⟩
  refine ⟨h.nodup p, hplaces, fun v hv w hw => ⟨fun hnext => ?_, fun hprev => ?_⟩, ?_⟩
  · obtain ⟨pre, post, heq⟩ := append_of_mem hv
    obtain ⟨post, rfl⟩ := head?_eq_some_iff.mp ((hplaces _ _ _ heq).2.symm.trans hnext)
    rw [(hplaces (pre ++ [v]) w post (by simpa using heq)).1, getLast?_concat]
  · obtain ⟨pre, post, heq⟩ := append_of_mem hw
    obtain ⟨pre, rfl⟩ := getLast?_eq_some_iff.mp ((hplaces _ _ _ heq).1.symm.trans hprev)
    rw [(hplaces pre v (w :: post) (by simpa using heq)).2, head?_cons]
  · intro v hv w hreach
    induction hreach with
    | refl => exact hv
    | @tail a b hreach hab ih =>
      obtain ⟨pre, post, heq⟩ := append_of_mem ih
      obtain ⟨hprev, hnext⟩ := hplaces _ _ _ heq
      rw [heq]
      obtain hab | hab := hab
      · exact mem_append_right _ (mem_cons_of_mem _
          (mem_of_mem_head? (hnext.symm.trans hab)))
      · exact mem_append_left _ (mem_of_getLast? (hprev.symm.trans hab))

/-! ## What the calls keep -/

theorem Inv.not_mem (h : Inv s) {p q : ν} (hv : v ∈ s.children p) (hne : q ≠ p) :
    v ∉ s.children q := fun hq =>
  hne (some.inj (((h.parent q v).mp hq).symm.trans ((h.parent p v).mp hv)))

theorem removeChildView_inv (h : Inv s) (p v : ν) : Inv (s.removeChildView p v) := by
  unfold State.removeChildView
  split
  · rename_i hv
    obtain ⟨pre, post, heq⟩ := append_of_mem hv
    have hnodup := h.nodup p
    have hpath := h.path p
    rw [heq] at hnodup hpath
    obtain ⟨hpath', hsame⟩ := hpath.unlink hnodup
    have herase : (s.children p).erase v = pre ++ post := by
      rw [heq, erase_append_right _ (fun hin => ?_), erase_cons_head]
      exact (nodup_append.mp hnodup).2.2 v hin v mem_cons_self rfl
    refine ⟨fun q => ?_, fun q w => ?_, fun q => ?_⟩ <;> by_cases hq : q = p
    · subst hq
      simpa using (h.nodup q).erase v
    · simpa [hq] using h.nodup q
    · subst hq
      by_cases hw : w = v
      · subst hw
        simpa using (h.nodup q).not_mem_erase
      · simpa [hw, (h.nodup q).mem_erase_iff] using h.parent q w
    · by_cases hw : w = v
      · subst hw
        simpa [hq] using h.not_mem hv hq
      · simpa [hq, hw] using h.parent q w
    · subst hq
      simpa [herase] using hpath'
    · simp only [update_of_ne hq]
      refine (h.path q).congr (hsame _ fun x hx => h.not_mem ?_ hq)
      rw [heq]
      simp only [mem_append, mem_cons] at hx ⊢
      tauto
  · exact h

theorem removeChildView_parent (h : Inv s) {p : ν} (hv : s.parent v = some p) :
    (s.removeChildView p v).parent v = none := by
  rw [State.removeChildView, if_pos ((h.parent p v).mpr hv)]
  exact update_self ..

theorem insertChild_inv {s : State ν} (h : Inv s) {p v : ν} {index : Nat} (hv : s.parent v = none)
    (hindex : index ≤ (s.children p).length) :
    ∃ s', s.insertChild p v index = some s' ∧ Inv s' := by
  have hfree : ∀ q, v ∉ s.children q := fun q hin => by
    have := (h.parent q v).mp hin
    rw [hv] at this
    cases this
  obtain ⟨pre, post, heq, rfl⟩ : ∃ pre post, s.children p = pre ++ post ∧ pre.length = index :=
    ⟨_, _, (take_append_drop index _).symm, length_take_of_le hindex⟩
  have hnodup : (pre ++ v :: post).Nodup := by
    rw [nodup_middle, ← heq]
    exact nodup_cons.mpr ⟨hfree p, h.nodup p⟩
  have hpath := h.path p
  rw [heq] at hpath
  obtain ⟨hpath', hsame⟩ := hpath.link hnodup
  have hvpre : v ∉ pre := fun hin => hfree p (heq ▸ mem_append_left _ hin)
  have hmem : ∀ w, w ∈ pre ++ v :: post ↔ w = v ∨ w ∈ s.children p := by
    intro w
    rw [heq]
    simp only [mem_append, mem_cons]
    tauto
  unfold State.insertChild
  rw [heq, initFocusSiblings_eq hpath hvpre, map_some, insertIdx_append]
  refine ⟨_, rfl, fun q => ?_, fun q w => ?_, fun q => ?_⟩ <;> by_cases hq : q = p
  · subst hq
    simpa using hnodup
  · simpa [hq] using h.nodup q
  · subst hq
    simp only [update_self, hmem]
    by_cases hw : w = v
    · subst hw
      simp
    · simpa [hw] using h.parent q w
  · simp only [update_of_ne hq]
    by_cases hw : w = v
    · subst hw
      simpa [Ne.symm hq] using hfree q
    · simpa [hw] using h.parent q w
  · subst hq
    simpa using hpath'
  · simp only [update_of_ne hq]
    refine (h.path q).congr (hsame _ fun x hx => ?_)
    obtain rfl | hx := (hmem x).mp hx
    · exact hfree q
    · exact h.not_mem hx hq

/-- A child that is put elsewhere leaves and comes again. -/
theorem reorderChildView_inv (h : Inv s) {p : ν} (hv : s.parent v = some p) (index : Int) :
    ∃ s', s.reorderChildView p v index = some s' ∧ Inv s' := by
  have hmem := (h.parent p v).mpr hv
  have hpos := length_pos_of_mem hmem
  unfold State.reorderChildView
  simp only
  split
  · exact ⟨s, rfl, h⟩
  · generalize hi : (if index < 0 then (s.children p).length - 1 else index.toNat) = i
    have hlt : i < (s.children p).length := by
      split at hi <;> omega
    split
    · exact ⟨s, rfl, h⟩
    · have hremoved := removeChildView_inv h p v
      have hpar := removeChildView_parent h hv
      obtain ⟨s', hs', hinv⟩ := @insertChild_inv _ _ _ hremoved p v i hpar (by
        rw [State.removeChildView, if_pos hmem]
        simp only [update_self, length_erase_of_mem hmem]
        omega)
      refine ⟨s', ?_, hinv⟩
      rw [← hs', State.insertChild, State.removeChildView, if_pos hmem]
      simp only [update_self, update_idem]
      rw [show update s.parent v (some p) = s.parent from
        update_eq_self_iff.mpr hv.symm]

theorem addChildViewAt_inv (h : Inv s) {p : ν} {index : Nat}
    (hindex : index ≤ (s.children p).length) :
    ∃ s', s.addChildViewAt p v index = some s' ∧ Inv s' := by
  unfold State.addChildViewAt
  cases hv : s.parent v with
  | none => exact insertChild_inv h hv hindex
  | some q =>
    simp only
    split
    · subst q
      exact reorderChildView_inv h hv index
    · rename_i hne
      apply insertChild_inv (removeChildView_inv h q v) (removeChildView_parent h hv)
      rw [State.removeChildView, if_pos ((h.parent q v).mpr hv)]
      simpa [Ne.symm hne] using hindex

theorem step_inv (h : Inv s) {call : Call ν} (hcall : Allowed s call) :
    ∃ s', step s call = some s' ∧ Inv s' := by
  cases call with
  | addChildView p v =>
    simp only [step, State.addChildView]
    split
    · exact ⟨s, rfl, h⟩
    · exact addChildViewAt_inv h (Nat.le_refl _)
  | addChildViewAt p v index => exact addChildViewAt_inv h hcall.2
  | reorderChildView p v index => exact reorderChildView_inv h hcall index
  | removeChildView p v => exact ⟨_, rfl, removeChildView_inv h p v⟩

theorem init_inv : Inv (init : State ν) :=
  ⟨fun _ => nodup_nil, fun p v => by simp [init], fun _ => trivial⟩

theorem run_inv (h : Inv s) {calls : List (Call ν)} (hcalls : EachStep step Allowed calls s) :
    ∃ s', run step calls s = some s' ∧ Inv s' := by
  induction calls generalizing s with
  | nil => exact ⟨s, rfl, h⟩
  | cons call calls ih =>
    obtain ⟨s', hs', h'⟩ := step_inv h hcalls.1
    rw [run_cons, hs']
    exact ih h' (hcalls.2 s' hs')

/-- However children are added, moved and removed, siblings are focused in the order in which they
are children. -/
theorem run_focusOrder {calls : List (Call ν)} (hcalls : EachStep step Allowed calls init) :
    ∃ s, run step calls init = some s ∧ ∀ p, FocusOrder s p := by
  obtain ⟨s, hs, h⟩ := run_inv init_inv hcalls
  exact ⟨s, hs, h.focusOrder⟩

/-- Two children change places, and one of them goes to another view. -/
theorem run_focusOrder_moves :
    EachStep step Allowed [.addChildView 0 1, .addChildViewAt 0 2 0, .reorderChildView 0 2 (-1),
      .addChildView 3 1] (init : State Nat) ∧
    ∃ s, run step [.addChildView 0 1, .addChildViewAt 0 2 0, .reorderChildView 0 2 (-1),
      .addChildView 3 1] (init : State Nat) = some s ∧ ∀ p, FocusOrder s p := by
  have h : EachStep step Allowed [.addChildView 0 1, .addChildViewAt 0 2 0,
      .reorderChildView 0 2 (-1), .addChildView 3 1] (init : State Nat) := by
    refine ⟨Nat.one_ne_zero, ?_⟩
    rintro _ ⟨⟩
    refine ⟨⟨by simp, Nat.zero_le _⟩, ?_⟩
    rintro _ ⟨⟩
    refine ⟨rfl, ?_⟩
    rintro _ ⟨⟩
    exact ⟨by simp [Allowed], fun _ _ => trivial⟩
  exact ⟨h, run_focusOrder h⟩

end ChromiumUI.Views.Siblings
