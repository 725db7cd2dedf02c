import ChromiumUI.ForestDescent
import Mathlib.Data.List.Sublists

/-!
# Items that take others along

An item of a list is moved beside another one, and those that go along with it are stacked on top
of it one by one, each with those that go along with it in turn. An item that is in its place
already stays with all that go along.
-/
namespace ChromiumUI.Forests

open List Relation.ReflTransGen

variable {ι : Type} [DecidableEq ι]

mutual

/-- `l'` is `l` after `a` is stacked above `b`, or below it. -/
inductive Stacks (along : ι → List ι) : Bool → ι → ι → List ι → List ι → Prop
  | stays {above : Bool} {a b : ι} {l : List ι}
      (hplace : inPlace above (l.idxOf a) (l.idxOf b) = true)
      (ha : a ∈ l) (hb : b ∈ l) (hne : a ≠ b) : Stacks along above a b l l
  | moves {above : Bool} {a b : ι} {l l' : List ι} (ha : a ∈ l) (hb : b ∈ l) (hne : a ≠ b)
      (hrest : StacksAll along a (along a) (moveBeside above a b l) l') :
      Stacks along above a b l l'

/-- `l'` is `l` after some items are stacked, the first above `last` and each above the one before
it. -/
inductive StacksAll (along : ι → List ι) : ι → List ι → List ι → List ι → Prop
  | nil {last : ι} {l : List ι} : StacksAll along last [] l l
  | cons {last a : ι} {rest l l₁ l' : List ι} (hfirst : Stacks along true a last l l₁)
      (hrest : StacksAll along a rest l₁ l') : StacksAll along last (a :: rest) l l'

end

/-- An item or one that goes along with it, directly or not. -/
def GoesAlong (along : ι → List ι) (n a : ι) : Prop :=
  Relation.ReflTransGen (fun c p => c ∈ along p) n a

section
variable {along : ι → List ι} {above : Bool} {a b c last : ι} {l l' rest : List ι} {p : ι → Bool}

/-- What holds where nothing moves, and of a move if it holds of the stacking of those that go
along, holds of both. -/
theorem stacks_induction {P : Bool → ι → ι → List ι → List ι → Prop}
    {Q : ι → List ι → List ι → List ι → Prop}
    (stays : ∀ above a b l, inPlace above (l.idxOf a) (l.idxOf b) = true → a ∈ l → b ∈ l → a ≠ b →
      P above a b l l)
    (moves : ∀ above a b l l', a ∈ l → b ∈ l → a ≠ b →
      Q a (along a) (moveBeside above a b l) l' → P above a b l l')
    (nil : ∀ last l, Q last [] l l)
    (cons : ∀ last a rest l l₁ l', P true a last l l₁ → Q a rest l₁ l' → Q last (a :: rest) l l') :
    (∀ above a b l l', Stacks along above a b l l' → P above a b l l') ∧
      ∀ last rest l l', StacksAll along last rest l l' → Q last rest l l' :=
  ⟨fun _ _ _ _ _ h => @Stacks.rec ι _ along (fun above a b l l' _ => P above a b l l')
      (fun last rest l l' _ => Q last rest l l')
      (fun hplace ha hb hne => stays _ _ _ _ hplace ha hb hne)
      (fun ha hb hne _ ih => moves _ _ _ _ _ ha hb hne ih) (nil _ _)
      (fun _ _ ih ih' => cons _ _ _ _ _ _ ih ih') _ _ _ _ _ h,
    fun _ _ _ _ h => @StacksAll.rec ι _ along (fun above a b l l' _ => P above a b l l')
      (fun last rest l l' _ => Q last rest l l')
      (fun hplace ha hb hne => stays _ _ _ _ hplace ha hb hne)
      (fun ha hb hne _ ih => moves _ _ _ _ _ ha hb hne ih) (nil _ _)
      (fun _ _ ih ih' => cons _ _ _ _ _ _ ih ih') _ _ _ _ h⟩

/-! ## Items that do not go along -/

theorem stacks_perm (along : ι → List ι) :
    (∀ above a b l l', Stacks along above a b l l' → l'.Perm l) ∧
      ∀ last rest l l', StacksAll along last rest l l' → l'.Perm l := by
  refine stacks_induction (fun _ _ _ l _ _ _ _ => .refl l) ?_ (fun _ l => .refl l) ?_
  · intro above a b l l' ha hb hne ih
    exact ih.trans (moveBeside_perm ha hb hne)
  · intro last a rest l l₁ l' ih ih'
    exact ih'.trans ih

theorem filter_insertBeside (ha : p a = false) (b : ι) (l : List ι) :
    (insertBeside above a b l).filter p = l.filter p := by
  have hnot : ¬ p a = true := by
    rw [ha]
    exact Bool.false_ne_true
  induction l with
  | nil => rfl
  | cons x l ih =>
    rw [insertBeside]
    split
    · rename_i hx
      subst hx
      split
      · rw [filter_cons, filter_cons_of_neg hnot, filter_cons]
      · rw [filter_cons_of_neg hnot]
    · rw [filter_cons, ih, filter_cons]

theorem filter_erase (ha : p a = false) (l : List ι) : (l.erase a).filter p = l.filter p := by
  have hnot : ¬ p a = true := by
    rw [ha]
    exact Bool.false_ne_true
  induction l with
  | nil => rfl
  | cons x l ih =>
    by_cases hx : x = a
    · subst hx
      rw [erase_cons_head, filter_cons_of_neg hnot]
    · rw [erase_cons_tail (by simpa using hx), filter_cons, ih, filter_cons]

theorem filter_moveBeside (ha : p a = false) (b : ι) (l : List ι) :
    (moveBeside above a b l).filter p = l.filter p := by
  rw [moveBeside, filter_insertBeside ha, filter_erase ha]

/-- Items of a kind that none going along is of keep their order. -/
theorem stacks_filter (hp : ∀ w, p w = false → ∀ c ∈ along w, p c = false) :
    (∀ above a b l l', Stacks along above a b l l' → p a = false → l'.filter p = l.filter p) ∧
      ∀ last rest l l', StacksAll along last rest l l' → (∀ c ∈ rest, p c = false) →
        l'.filter p = l.filter p := by
  refine stacks_induction (fun _ _ _ _ _ _ _ _ _ => rfl) ?_ (fun _ _ _ => rfl) ?_
  · intro above a b l l' _ _ _ ih ha
    rw [ih (hp a ha), filter_moveBeside ha]
  · intro last a rest l l₁ l' ih ih' hall
    rw [ih' fun c hc => hall c (mem_cons_of_mem _ hc), ih (hall a mem_cons_self)]

omit [DecidableEq ι] in
theorem sublist_of_filter {m : List ι} (hfil : l'.filter p = l.filter p)
    (hm : ∀ w ∈ m, p w = true) (h : m.Sublist l) : m.Sublist l' := by
  have hsame : m.filter p = m := filter_eq_self.mpr hm
  have hsub := h.filter p
  rw [hsame, ← hfil] at hsub
  exact hsub.trans filter_sublist

/-! ## Directly above -/

theorem insertBeside_append_left (hb : b ∈ l) (l' : List ι) :
    insertBeside above a b (l ++ l') = insertBeside above a b l ++ l' := by
  induction l with
  | nil => cases hb
  | cons x l ih =>
    rw [cons_append, insertBeside, insertBeside]
    split
    · split <;> rfl
    · rename_i hx
      rw [ih ((mem_cons.mp hb).resolve_left fun h => hx h.symm), cons_append]

theorem insertBeside_append_right (hb : b ∉ l) (l' : List ι) :
    insertBeside above a b (l ++ l') = l ++ insertBeside above a b l' := by
  induction l with
  | nil => rfl
  | cons x l ih =>
    have hx : x ≠ b := by
      rintro rfl
      exact hb mem_cons_self
    rw [cons_append, insertBeside, if_neg hx, ih fun h => hb (mem_cons_of_mem _ h),
      cons_append]

/-- Nothing is between the item and the one below it. -/
def DirectlyAbove (a b : ι) (l : List ι) : Prop := ∃ front back, l = front ++ b :: a :: back

theorem directlyAbove_moveBeside (hb : b ∈ l) (hne : a ≠ b) :
    DirectlyAbove a b (moveBeside true a b l) := by
  have hmem : b ∈ l.erase a := (mem_erase_of_ne hne.symm).mpr hb
  obtain ⟨front, back, hfront, hsplit⟩ := eq_append_cons_of_mem hmem
  refine ⟨front, back, ?_⟩
  rw [moveBeside, hfront, insertBeside_append hsplit]
  rfl

/-- Moving others, and none above the lower of the two, keeps one directly above the other. -/
theorem DirectlyAbove.moveBeside {x y : ι} (h : DirectlyAbove x y l) (hax : a ≠ x) (hay : a ≠ y)
    (hby : b ≠ y) : DirectlyAbove x y (moveBeside true a b l) := by
  obtain ⟨front, back, rfl⟩ := h
  have herase : ∃ front' back', (front ++ y :: x :: back).erase a = front' ++ y :: x :: back' := by
    rw [erase_append]
    split
    · exact ⟨_, _, rfl⟩
    · rw [erase_cons_tail (by simpa using hay.symm),
        erase_cons_tail (by simpa using hax.symm)]
      exact ⟨_, _, rfl⟩
  obtain ⟨front', back', herase⟩ := herase
  rw [Forests.moveBeside, herase]
  by_cases hb : b ∈ front'
  · rw [insertBeside_append_left hb]
    exact ⟨_, _, rfl⟩
  · rw [insertBeside_append_right hb, insertBeside, if_neg hby.symm, insertBeside]
    split
    · exact ⟨front', a :: back', by simp_all⟩
    · exact ⟨_, _, rfl⟩

theorem stacks_directlyAbove {x y : ι} (hp : ∀ w, p w = false → ∀ c ∈ along w, p c = false)
    (hx : p x = true) (hy : p y = true) :
    (∀ above a b l l', Stacks along above a b l l' → above = true → p a = false → b ≠ y →
      DirectlyAbove x y l → DirectlyAbove x y l') ∧
    ∀ last rest l l', StacksAll along last rest l l' → (∀ c ∈ rest, p c = false) → last ≠ y →
      DirectlyAbove x y l → DirectlyAbove x y l' := by
  have hother : ∀ a, p a = false → a ≠ x ∧ a ≠ y := by
    intro a ha
    constructor
    · rintro rfl
      rw [hx] at ha
      cases ha
    · rintro rfl
      rw [hy] at ha
      cases ha
  refine stacks_induction (fun _ _ _ _ _ _ _ _ _ _ _ h => h) ?_ (fun _ _ _ _ h => h) ?_
  · rintro above a b l l' - - - ih rfl ha hb h
    obtain ⟨hax, hay⟩ := hother a ha
    exact ih (hp a ha) hay (h.moveBeside hax hay hb)
  · intro last a rest l l₁ l' ih ih' hall hlast h
    have ha := hall a mem_cons_self
    exact ih' (fun c hc => hall c (mem_cons_of_mem _ hc)) (hother a ha).2
      (ih rfl ha hlast h)

/-! ## One above the other -/

omit [DecidableEq ι] in
theorem sublist_front {m front back : List ι} (h : (m ++ [b]).Sublist (front ++ b :: back))
    (hb : b ∉ back) : m.Sublist front := by
  have hreverse : (b :: m.reverse).Sublist (back.reverse ++ b :: front.reverse) := by
    simpa using h.reverse
  obtain ⟨first, second, hsplit, hfirst, hsecond⟩ := sublist_append_iff.mp hreverse
  cases first with
  | nil =>
    rw [nil_append] at hsplit
    rw [← hsplit] at hsecond
    exact reverse_sublist.mp (cons_sublist_cons.mp hsecond)
  | cons x first =>
    obtain ⟨rfl, -⟩ := cons.inj hsplit
    exact absurd (mem_reverse.mp (hfirst.subset mem_cons_self)) hb

theorem sublist_moveBeside {m : List ι} (h : (m ++ [b]).Sublist l) (hnodup : l.Nodup)
    (ha : a ∉ m ++ [b]) : (m ++ [b] ++ [a]).Sublist (moveBeside true a b l) := by
  have herase : (m ++ [b]).Sublist (l.erase a) := by
    have hsub := h.erase a
    rwa [erase_of_not_mem ha] at hsub
  have hb : b ∈ l.erase a := herase.subset (mem_append_right _ (mem_singleton_self b))
  obtain ⟨front, back, hsplit, hfront⟩ := eq_append_cons_of_mem hb
  have hnodup' : (front ++ b :: back).Nodup := hsplit ▸ hnodup.erase a
  rw [hsplit] at herase
  have hm := sublist_front herase
    (nodup_cons.mp (nodup_append.mp hnodup').2.1).1
  rw [moveBeside, hsplit, insertBeside_append hfront, if_pos rfl, append_assoc]
  exact hm.append (((nil_sublist back).cons_cons a).cons_cons b)

/-- How those that go along with an item lie apart. -/
structure Apart (along : ι → List ι) : Prop where
  acyclic : ∀ a, ∀ c ∈ along a, ¬ GoesAlong along a c
  disjoint : ∀ a, (along a).Pairwise fun c c' => ∀ w, GoesAlong along w c → ¬ GoesAlong along w c'

omit [DecidableEq ι] in
theorem GoesAlong.child (h : GoesAlong along c a) {w : ι} (hw : w ∈ along c) :
    GoesAlong along w a := head hw h

omit [DecidableEq ι] in
theorem goesAlong_iff {w : ι} :
    GoesAlong along w a ↔ w = a ∨ ∃ c ∈ along a, GoesAlong along w c := by
  rw [GoesAlong, cases_tail_iff]
  constructor
  · rintro (h | ⟨c, hc, hca⟩)
    · exact .inl h.symm
    · exact .inr ⟨c, hca, hc⟩
  · rintro (h | ⟨c, hca, hc⟩)
    · exact .inl h.symm
    · exact .inr ⟨c, hc, hca⟩

/-- An item is then above those it was stacked above. -/
theorem Stacks.onTop {m : List ι} (h : Stacks along true a b l l') (hapart : Apart along)
    (hm : (m ++ [b]).Sublist l) (hnodup : l.Nodup)
    (hother : ∀ w, GoesAlong along w a → w ∉ m ++ [b]) : (m ++ [b] ++ [a]).Sublist l' := by
  have ha : a ∉ m ++ [b] := hother a refl
  have hmoved := sublist_moveBeside hm hnodup ha
  cases h with
  | stays hplace hal hbl hne =>
    rw [moveBeside_eq hnodup hal hbl hne, if_pos hplace] at hmoved
    exact hmoved
  | moves hal hbl hne hrest =>
    classical
    have hshut : ∀ w, decide (¬ ∃ c ∈ along a, GoesAlong along w c) = false →
        ∀ c ∈ along w, decide (¬ ∃ d ∈ along a, GoesAlong along c d) = false := by
      intro w hw c hc
      simp only [decide_eq_false_iff_not, not_not] at hw ⊢
      obtain ⟨d, hd, hwd⟩ := hw
      exact ⟨d, hd, hwd.child hc⟩
    have hfil := (stacks_filter hshut).2 _ _ _ _ hrest fun c hc => by
      simp only [decide_eq_false_iff_not, not_not]
      exact ⟨c, hc, refl⟩
    refine sublist_of_filter hfil (fun w hw => ?_) hmoved
    rw [decide_eq_true_iff]
    rintro ⟨c, hc, hwc⟩
    obtain hw | hw := mem_append.mp hw
    · exact hother w (goesAlong_iff.mpr (Or.inr ⟨c, hc, hwc⟩)) hw
    · obtain rfl := mem_singleton.mp hw
      exact hapart.acyclic w c hc hwc

/-- Items that are stacked are above each other in their order. -/
theorem StacksAll.onTop {m : List ι} (h : StacksAll along last rest l l') (hapart : Apart along)
    (hm : (m ++ [last]).Sublist l) (hnodup : l.Nodup)
    (hother : ∀ c ∈ rest, ∀ w, GoesAlong along w c → w ∉ m ++ [last])
    (hdisj : rest.Pairwise fun c c' => ∀ w, GoesAlong along w c → ¬ GoesAlong along w c') :
    (m ++ [last] ++ rest).Sublist l' := by
  induction rest generalizing m last l with
  | nil =>
    cases h
    rw [append_nil]
    exact hm
  | cons a rest ih =>
    cases h with
    | cons hfirst hrest =>
      obtain ⟨hhead, hdisj'⟩ := pairwise_cons.mp hdisj
      have hplaced := hfirst.onTop hapart hm hnodup (hother a mem_cons_self)
      have hnodup' := ((stacks_perm along).1 _ _ _ _ _ hfirst).nodup_iff.mpr hnodup
      have hall := ih hrest hplaced hnodup' (fun c hc w hw hmem => ?_) hdisj'
      · rw [append_assoc] at hall
        exact hall
      · obtain hmem | hmem := mem_append.mp hmem
        · exact hother c (mem_cons_of_mem _ hc) w hw hmem
        · obtain rfl := mem_singleton.mp hmem
          exact hhead c hc w refl hw

/-! ## Between two -/

/-- What lies between two items is what is said. -/
def Between (x y : ι) (M : ι → Prop) (l : List ι) : Prop :=
  ∃ front mid back, l = front ++ x :: (mid ++ y :: back) ∧ ∀ w, w ∈ mid ↔ M w

variable {x y : ι} {M M' : ι → Prop}

omit [DecidableEq ι] in
theorem Between.congr (h : Between x y M l) (hM : ∀ w, M w ↔ M' w) : Between x y M' l := by
  obtain ⟨front, mid, back, hsplit, hmid⟩ := h
  exact ⟨front, mid, back, hsplit, fun w => (hmid w).trans (hM w)⟩

theorem between_moveBeside (hy : y ∈ l) (hne : x ≠ y) :
    Between x y (fun _ => False) (moveBeside false x y l) := by
  have hmem : y ∈ l.erase x := (mem_erase_of_ne hne.symm).mpr hy
  obtain ⟨front, back, hfront, hsplit⟩ := eq_append_cons_of_mem hmem
  refine ⟨front, [], back, ?_, fun w => by simp⟩
  rw [moveBeside, hfront, insertBeside_append hsplit]
  rfl

/-- The item above one of those between the two, or the lower of them, is between them or the
upper of them. -/
theorem Between.place (h : Between x y M l) (hnodup : l.Nodup) (hb : b = x ∨ M b)
    (hplace : inPlace true (l.idxOf a) (l.idxOf b) = true) (ha : a ∈ l) : a = y ∨ M a := by
  obtain ⟨front, mid, back, rfl, hmid⟩ := h
  have hbmem : b ∈ x :: mid := by
    obtain rfl | hb := hb
    · exact mem_cons_self
    · exact mem_cons_of_mem _ ((hmid b).mpr hb)
  obtain ⟨lower, upper, hsplit⟩ := append_of_mem hbmem
  have hwhole : front ++ x :: (mid ++ y :: back) =
      (front ++ lower) ++ b :: (upper ++ y :: back) := by
    rw [← cons_append, hsplit]
    simp
  have hupper : ∀ w ∈ upper, w ∈ mid := by
    intro w hw
    cases lower with
    | nil =>
      obtain ⟨-, rfl⟩ := cons.inj hsplit
      exact hw
    | cons z lower =>
      obtain ⟨-, rfl⟩ := cons.inj hsplit
      exact mem_append_right _ (mem_cons_of_mem _ hw)
  rw [hwhole] at hnodup hplace ha
  have hlower : b ∉ front ++ lower := fun hmem =>
    (nodup_append.mp hnodup).2.2 b hmem b mem_cons_self rfl
  have hindex : ((front ++ lower) ++ b :: (upper ++ y :: back)).idxOf a =
      (front ++ lower).length + 1 := by
    rw [idxOf_split hlower] at hplace
    simpa [inPlace] using hplace
  have hget := getElem?_idxOf ha
  rw [hindex, getElem?_append_right (by omega), Nat.add_sub_cancel_left,
    getElem?_cons_succ] at hget
  cases upper with
  | nil => exact .inl (Option.some.inj hget).symm
  | cons z upper =>
    obtain rfl : z = a := Option.some.inj hget
    exact .inr ((hmid z).mp (hupper z mem_cons_self))

/-- An item that is put above one of those between the two, or the lower of them, is between
them. -/
theorem Between.moveBeside (h : Between x y M l) (hnodup : l.Nodup) (hb : b = x ∨ M b)
    (hax : a ≠ x) (hay : a ≠ y) (hne : a ≠ b) :
    Between x y (fun w => M w ∨ w = a) (moveBeside true a b l) := by
  obtain ⟨front, mid, back, rfl, hmid⟩ := h
  have hkeep : ∀ z : ι, a ≠ z → (fun w => w != a) z = true := by
    intro z hz
    simpa using hz.symm
  have hbmem : b ∈ mid.filter (· != a) ∨ b = x := by
    obtain rfl | hb := hb
    · exact .inr rfl
    · exact .inl (mem_filter.mpr ⟨(hmid b).mpr hb, hkeep b hne⟩)
  have hfront : b ∉ front.filter (· != a) := by
    intro hmem
    have hmem' := mem_of_mem_filter hmem
    refine (nodup_append.mp hnodup).2.2 b hmem' b ?_ rfl
    obtain rfl | hb := hb
    · exact mem_cons_self
    · exact mem_cons_of_mem _ (mem_append_left _ ((hmid b).mpr hb))
  have hmem : ∀ w, w ∈ mid.filter (· != a) ∨ w = a ↔ M w ∨ w = a := by
    intro w
    rw [mem_filter, hmid]
    by_cases hw : w = a <;> simp [hw]
  rw [Forests.moveBeside, hnodup.erase_eq_filter, filter_append,
    @filter_cons_of_pos _ (· != a) x _ (hkeep x hax), filter_append,
    @filter_cons_of_pos _ (· != a) y _ (hkeep y hay), insertBeside_append_right hfront,
    insertBeside]
  split
  · refine ⟨front.filter (· != a), a :: mid.filter (· != a), back.filter (· != a), by simp_all,
      fun w => ?_⟩
    rw [mem_cons, or_comm]
    exact hmem w
  · rename_i hbx
    have hbmid := hbmem.resolve_right fun h => hbx h.symm
    obtain ⟨lower, upper, hsplit, hlower⟩ := eq_append_cons_of_mem hbmid
    rw [insertBeside_append_left hbmid, hsplit, insertBeside_append hlower]
    refine ⟨_, _, _, rfl, fun w => ?_⟩
    beta_reduce
    rw [← hmem w, hsplit]
    simp only [if_true, mem_append, mem_cons]
    tauto

/-- Those that go along all come between the two, and nothing else does. -/
theorem stacks_between (hapart : Apart along) :
    (∀ above a b l l', Stacks along above a b l l' → above = true → ∀ M : ι → Prop, l.Nodup →
      Between x y M l → (b = x ∨ M b) →
      (∀ w, GoesAlong along w a → ¬ M w ∧ w ≠ x ∧ w ≠ y) →
        Between x y (fun w => M w ∨ GoesAlong along w a) l' ∧ l'.Nodup) ∧
    ∀ last rest l l', StacksAll along last rest l l' → ∀ M : ι → Prop, l.Nodup →
      Between x y M l → (last = x ∨ M last) →
      (∀ c ∈ rest, ∀ w, GoesAlong along w c → ¬ M w ∧ w ≠ x ∧ w ≠ y) →
      (rest.Pairwise fun c c' => ∀ w, GoesAlong along w c → ¬ GoesAlong along w c') →
        Between x y (fun w => M w ∨ ∃ c ∈ rest, GoesAlong along w c) l' ∧ l'.Nodup := by
  refine stacks_induction ?_ ?_ ?_ ?_
  · rintro above a b l hplace ha - - rfl M hnodup hbetween hb hfresh
    obtain ⟨hM, -, hy⟩ := hfresh a refl
    obtain hay | hMa := hbetween.place hnodup hb hplace ha
    · exact absurd hay hy
    · exact absurd hMa hM
  · rintro above a b l l' ha hbl hne ih rfl M hnodup hbetween hb hfresh
    obtain ⟨-, hax, hay⟩ := hfresh a refl
    have hmoved := hbetween.moveBeside hnodup hb hax hay hne
    have hall := ih _ ((moveBeside_perm ha hbl hne).nodup_iff.mpr hnodup) hmoved
      (Or.inr (Or.inr rfl)) (fun c hc w hw => ?_) (hapart.disjoint a)
    · refine ⟨hall.1.congr fun w => ?_, hall.2⟩
      rw [or_assoc, ← goesAlong_iff]
    · obtain ⟨hM, hx, hy⟩ := hfresh w (goesAlong_iff.mpr (Or.inr ⟨c, hc, hw⟩))
      refine ⟨?_, hx, hy⟩
      rintro (hno | rfl)
      · exact hM hno
      · exact hapart.acyclic w c hc hw
  · intro last l M hnodup hbetween _ _ _
    refine ⟨hbetween.congr fun w => ?_, hnodup⟩
    simp
  · intro last a rest l l₁ l' ih ih' M hnodup hbetween hlast hfresh hdisj
    obtain ⟨hhead, hdisj'⟩ := pairwise_cons.mp hdisj
    obtain ⟨hfirst, hnodup'⟩ := ih rfl M hnodup hbetween hlast (hfresh a mem_cons_self)
    have hall := ih' _ hnodup' hfirst (Or.inr (Or.inr refl))
      (fun c hc w hw => ?_) hdisj'
    · refine ⟨hall.1.congr fun w => ?_, hall.2⟩
      rw [or_assoc, exists_mem_cons_iff]
    · obtain ⟨hM, hx, hy⟩ := hfresh c (mem_cons_of_mem _ hc) w hw
      refine ⟨?_, hx, hy⟩
      rintro (hno | hno)
      · exact hM hno
      · exact hhead c hc w hno hw

/-! ## An item that moves -/

theorem Stacks.of_moves (h : Stacks along above a b l l')
    (hmoves : ¬ inPlace above (l.idxOf a) (l.idxOf b) = true) :
    a ∈ l ∧ b ∈ l ∧ a ≠ b ∧ StacksAll along a (along a) (moveBeside above a b l) l' := by
  cases h with
  | stays hplace => exact absurd hplace hmoves
  | moves ha hb hne hrest => exact ⟨ha, hb, hne, hrest⟩

/-- Those that go along with an item directly are above it in their order. -/
theorem Stacks.sublist (h : Stacks along above a b l l')
    (hmoves : ¬ inPlace above (l.idxOf a) (l.idxOf b) = true) (hapart : Apart along)
    (hnodup : l.Nodup) : (a :: along a).Sublist l' := by
  obtain ⟨ha, hb, hne, hrest⟩ := h.of_moves hmoves
  have hperm : (moveBeside above a b l).Perm l := moveBeside_perm ha hb hne
  refine @StacksAll.onTop _ _ along a _ l' (along a) [] hrest hapart ?_
    (hperm.nodup_iff.mpr hnodup) (fun c hc w hw => ?_) (hapart.disjoint a)
  · exact singleton_sublist.mpr (hperm.mem_iff.mpr ha)
  · rw [nil_append, mem_singleton]
    rintro rfl
    exact hapart.acyclic w c hc hw

/-- It is directly above the item that it is stacked above. -/
theorem Stacks.directlyAbove (h : Stacks along true a b l l')
    (hmoves : ¬ inPlace true (l.idxOf a) (l.idxOf b) = true) (hapart : Apart along)
    (hb : ¬ GoesAlong along b a) : DirectlyAbove a b l' := by
  classical
  obtain ⟨-, hbl, hne, hrest⟩ := h.of_moves hmoves
  have hshut : ∀ w, decide (¬ ∃ c ∈ along a, GoesAlong along w c) = false →
      ∀ c ∈ along w, decide (¬ ∃ d ∈ along a, GoesAlong along c d) = false := by
    intro w hw c hc
    simp only [decide_eq_false_iff_not, not_not] at hw ⊢
    obtain ⟨d, hd, hwd⟩ := hw
    exact ⟨d, hd, hwd.child hc⟩
  refine (stacks_directlyAbove hshut ?_ ?_).2 _ _ _ _ hrest (fun c hc => ?_) hne
    (directlyAbove_moveBeside hbl hne)
  · rw [decide_eq_true_iff]
    rintro ⟨c, hc, hac⟩
    exact hapart.acyclic a c hc hac
  · rw [decide_eq_true_iff]
    exact fun hno => hb (goesAlong_iff.mpr (Or.inr hno))
  · simp only [decide_eq_false_iff_not, not_not]
    exact ⟨c, hc, refl⟩

/-- Below an item, those that go along with it come between the two, and nothing else does. -/
theorem Stacks.between (h : Stacks along false a b l l')
    (hmoves : ¬ inPlace false (l.idxOf a) (l.idxOf b) = true) (hapart : Apart along)
    (hnodup : l.Nodup) (hb : ¬ GoesAlong along b a) :
    Between a b (fun w => ∃ c ∈ along a, GoesAlong along w c) l' := by
  obtain ⟨ha, hbl, hne, hrest⟩ := h.of_moves hmoves
  have hall := (stacks_between hapart).2 _ _ _ _ hrest (fun _ => False)
    ((moveBeside_perm ha hbl hne).nodup_iff.mpr hnodup) (between_moveBeside hbl hne) (Or.inl rfl)
    (fun c hc w hw => ⟨id, ?_, ?_⟩) (hapart.disjoint a)
  · exact hall.1.congr fun w => by rw [false_or]
  · rintro rfl
    exact hapart.acyclic w c hc hw
  · rintro rfl
    exact hb (goesAlong_iff.mpr (Or.inr ⟨c, hc, hw⟩))

end

end ChromiumUI.Forests
