import Mathlib.Data.List.Nodup
import Mathlib.Logic.Function.Iterate

/-!
# Tours through nested lists of stops

A stop is a place or a list of stops of its own, which is entered at its first one. A tour
that runs out of stops looks at the list around, once, and then starts over. It visits
every place in order exactly when `Passable` holds.
-/
namespace ChromiumUI.NestedTours

open List Nat

inductive Stops (α : Type*) where
  | nil
  | leaf (a : α) (rest : Stops α)
  | nest (a : α) (inner rest : Stops α)

variable {α : Type*}

variable {s : Stops α} {a : α} {outer left : List (Stops α)}

namespace Stops

def append : Stops α → Stops α → Stops α
  | nil, t => t
  | leaf a rest, t => leaf a (append rest t)
  | nest a inner rest, t => nest a inner (append rest t)

instance : Append (Stops α) := ⟨append⟩

@[simp] theorem nil_append (t : Stops α) : nil ++ t = t := rfl
@[simp] theorem leaf_append (a : α) (rest t : Stops α) : leaf a rest ++ t = leaf a
    (rest ++ t) := rfl
@[simp] theorem nest_append (a : α) (inner rest t : Stops α) :
    nest a inner rest ++ t = nest a inner (rest ++ t) := rfl

@[simp] theorem append_nil (s : Stops α) : s ++ nil = s := by
  induction s with
  | nil => rfl
  | leaf a rest ih => rw [leaf_append, ih]
  | nest a inner rest _ ih => rw [nest_append, ih]

theorem append_assoc (s t u : Stops α) : s ++ t ++ u = s ++ (t ++ u) := by
  induction s with
  | nil => rfl
  | leaf a rest ih => simp only [leaf_append, ih]
  | nest a inner rest _ ih => simp only [nest_append, ih]

theorem append_eq_nil {t : Stops α} (h : s ++ t = nil) : s = nil ∧ t = nil := by
  cases s with
  | nil => exact ⟨rfl, h⟩
  | leaf a rest => cases h
  | nest a inner rest => cases h

/-- The places, in order. -/
def flat : Stops α → List α
  | nil => []
  | leaf a rest => a :: flat rest
  | nest _ inner rest => flat inner ++ flat rest

@[simp] theorem flat_append (s t : Stops α) : (s ++ t).flat = s.flat ++ t.flat := by
  induction s with
  | nil => rfl
  | leaf a rest ih => simp only [leaf_append, flat, ih, cons_append]
  | nest a inner rest _ ih => simp only [nest_append, flat, ih, List.append_assoc]

/-- Where entering leads: to the first stop, and to nothing when that has none. -/
def enter : Stops α → Option α
  | nil => none
  | leaf a _ => some a
  | nest _ inner _ => enter inner

/-- The places no empty list of stops lies in front of. -/
def front : Stops α → List α
  | nil => []
  | leaf a rest => a :: front rest
  | nest _ inner rest => if inner.flat = [] then [] else front inner ++ front rest

theorem front_sublist (s : Stops α) : s.front.Sublist s.flat := by
  induction s with
  | nil => exact Sublist.refl _
  | leaf a rest ih => exact ih.cons_cons a
  | nest a inner rest ihi ihr =>
    simp only [front, flat]
    split
    · exact nil_sublist _
    · exact ihi.append ihr

theorem enter_mem_front (h : s.enter = some a) : a ∈ s.front := by
  induction s with
  | nil => cases h
  | leaf b rest _ =>
    cases h
    exact mem_cons_self ..
  | nest b inner rest ih _ =>
    have ha := ih h
    have hne : inner.flat ≠ [] := ne_nil_of_mem ((front_sublist inner).subset ha)
    simp only [front, if_neg hne]
    exact mem_append_left _ ha

/-- An empty list of stops has no places behind it. -/
def Unblocked : Stops α → Prop
  | nil => True
  | leaf _ rest => rest.Unblocked
  | nest _ inner rest => (inner.flat = [] → rest.flat = []) ∧ inner.Unblocked ∧ rest.Unblocked

theorem unblocked_of_flat_nil (h : s.flat = []) : s.Unblocked := by
  induction s with
  | nil => trivial
  | leaf a rest _ => cases h
  | nest a inner rest ihi ihr =>
    obtain ⟨hi, hr⟩ := append_eq_nil_iff.mp h
    exact ⟨fun _ => hr, ihi hi, ihr hr⟩

theorem unblocked_of_front (h : s.front = s.flat) : s.Unblocked := by
  induction s with
  | nil => trivial
  | leaf a rest ih => exact ih (cons_injective h)
  | nest a inner rest ihi ihr =>
    simp only [front, flat] at h
    split at h
    · rename_i hi
      have hr := (append_eq_nil_iff.mp h.symm).2
      exact ⟨fun _ => hr, unblocked_of_flat_nil hi, unblocked_of_flat_nil hr⟩
    · rename_i hi
      have hlen : inner.front.length = inner.flat.length := by
        have hsum := congrArg length h
        have hfi := (front_sublist inner).length_le
        have hfr := (front_sublist rest).length_le
        simp only [length_append] at hsum
        omega
      obtain ⟨hfi, hfr⟩ := append_inj h hlen
      exact ⟨fun h => absurd h hi, ihi hfi, ihr hfr⟩

theorem Unblocked.enter (h : s.Unblocked) : s.enter = s.flat.head? := by
  induction s with
  | nil => rfl
  | leaf a rest _ => rfl
  | nest a inner rest ihi _ =>
    obtain ⟨hempty, hi, -⟩ := h
    rw [Stops.enter, ihi hi, flat]
    cases hflat : inner.flat with
    | nil => rw [hempty hflat]; rfl
    | cons b l => rfl

/-- The places, each with the stops left after it: in its own list, in the list around,
and so on outwards. -/
def spots : Stops α → List (Stops α) → List (α × List (Stops α))
  | nil, _ => []
  | leaf a rest, outer => (a, rest :: outer) :: spots rest outer
  | nest _ inner rest, outer => spots inner (rest :: outer) ++ spots rest outer

theorem mem_flat_of_spot {p : α × List (Stops α)} (h : p ∈ spots s outer) : p.1 ∈ s.flat := by
  induction s generalizing outer with
  | nil => cases h
  | leaf a rest ih =>
    rcases mem_cons.mp h with rfl | h
    · exact mem_cons_self ..
    · exact mem_cons_of_mem _ (ih h)
  | nest a inner rest ihi ihr =>
    rcases mem_append.mp h with h | h
    · exact mem_append_left _ (ihi h)
    · exact mem_append_right _ (ihr h)

theorem exists_spot (outer : List (Stops α)) (h : a ∈ s.flat) :
    ∃ left, (a, left) ∈ spots s outer := by
  induction s generalizing outer with
  | nil => cases h
  | leaf b rest ih =>
    rcases mem_cons.mp h with rfl | h
    · exact ⟨_, mem_cons_self ..⟩
    · obtain ⟨left, hleft⟩ := ih outer h
      exact ⟨left, mem_cons_of_mem _ hleft⟩
  | nest b inner rest ihi ihr =>
    rcases mem_append.mp h with h | h
    · obtain ⟨left, hleft⟩ := ihi (rest :: outer) h
      exact ⟨left, mem_append_left _ hleft⟩
    · obtain ⟨left, hleft⟩ := ihr outer h
      exact ⟨left, mem_append_right _ hleft⟩

/-- The places after a place are those of the stops left after it. -/
theorem spot_follow (h : (a, left) ∈ spots s outer) :
    ∃ before, s.flat ++ outer.flatMap flat = before ++ a :: left.flatMap flat := by
  induction s generalizing outer with
  | nil => cases h
  | leaf b rest ih =>
    rcases mem_cons.mp h with h | h
    · cases h
      exact ⟨[], rfl⟩
    · obtain ⟨before, hpre⟩ := ih h
      exact ⟨b :: before, congrArg (b :: ·) hpre⟩
  | nest b inner rest ihi ihr =>
    rcases mem_append.mp h with h | h
    · obtain ⟨before, hpre⟩ := ihi h
      exact ⟨before, by rw [flat, List.append_assoc, ← List.flatMap_cons, hpre]⟩
    · obtain ⟨before, hpre⟩ := ihr h
      exact ⟨inner.flat ++ before, by rw [flat, List.append_assoc, hpre, List.append_assoc]⟩

/-- Where the tour goes on, given the stops left; at last it starts over. -/
def turn (top : Stops α) (left : List (Stops α)) : Option α :=
  ((left.take 2).findSome? enter).or top.enter

/-- Whatever an unblocked place leads to is unblocked, too. -/
theorem spot_front {places : List α} (hnodup : s.flat.Nodup) (hs : s.front ⊆ places)
    (houter : ∀ t ∈ outer, ∀ b, t.enter = some b → b ∈ places) (h : (a, left) ∈ spots s outer)
    (ha : a ∈ s.front) : ∀ t ∈ left, ∀ b, t.enter = some b → b ∈ places := by
  induction s generalizing outer with
  | nil => cases h
  | leaf c rest ih =>
    have hrest : rest.front ⊆ places := fun b hb => hs (mem_cons_of_mem _ hb)
    rcases mem_cons.mp h with h | h
    · cases h
      intro t ht b hb
      rcases mem_cons.mp ht with rfl | ht
      · exact hrest (enter_mem_front hb)
      · exact houter t ht b hb
    · have hmem : a ∈ rest.flat := mem_flat_of_spot h
      have hne : a ≠ c := fun heq => (nodup_cons.mp hnodup).1 (heq ▸ hmem)
      exact ih (nodup_cons.mp hnodup).2 hrest houter h
        ((mem_cons.mp ha).resolve_left hne)
  | nest c inner rest ihi ihr =>
    obtain ⟨hni, hnr, hdisj⟩ := nodup_append.mp hnodup
    by_cases hempty : inner.flat = []
    · simp [front, hempty] at ha
    · simp only [front, if_neg hempty] at hs ha
      have hrest : rest.front ⊆ places := fun b hb => hs (mem_append_right _ hb)
      rcases mem_append.mp h with h | h
      · have hai : a ∈ inner.front := by
          rcases mem_append.mp ha with ha | ha
          · exact ha
          · exact absurd rfl (hdisj a (mem_flat_of_spot h) a ((front_sublist rest).subset ha))
        apply ihi hni (fun b hb => hs (mem_append_left _ hb)) _ h hai
        intro t ht b hb
        rcases mem_cons.mp ht with rfl | ht
        · exact hrest (enter_mem_front hb)
        · exact houter t ht b hb
      · have har : a ∈ rest.front := by
          rcases mem_append.mp ha with ha | ha
          · exact absurd rfl (hdisj a ((front_sublist inner).subset ha) a (mem_flat_of_spot h))
          · exact ha
        exact ihr hnr hrest houter h har

/-- No empty list of stops lies in front of a place, and a place that is the last one of
its list and of the list around is the last one of all. -/
structure Passable (top : Stops α) : Prop where
  unblocked : top.Unblocked
  turns : ∀ a rest around outer, (a, rest :: around :: outer) ∈ spots top [] →
    rest.flat = [] → around.flat = [] → outer.flatMap flat = []

/-- Going on from a place of `top` follows its stops. -/
structure Follows (top : Stops α) (next : Option α → Option α) : Prop where
  start : next none = top.enter
  turn : ∀ a left, (a, left) ∈ spots top [] → next (some a) = top.turn left

end Stops

/-- Going on over and over visits the list, from its head, and again from its head. -/
def Tours (next : Option α → Option α) (l : List α) : Prop :=
  ∀ k, next^[k + 1] none = l[k % l.length]?

/-- A tour is right when it starts at the head and goes on right from every place. -/
theorem tours_iff {next : Option α → Option α} {l : List α} :
    Tours next l ↔ next none = l.head? ∧
      ∀ before a after, l = before ++ a :: after → next (some a) = after.head?.or l.head? := by
  constructor
  · intro h
    refine ⟨?_, ?_⟩
    · have h0 := h 0
      rwa [zero_mod, ← head?_eq_getElem?] at h0
    · rintro before a after rfl
      have hlen : before.length < (before ++ a :: after).length := by simp
      have hat := h before.length
      rw [mod_eq_of_lt hlen] at hat
      have hnext := h (before.length + 1)
      rw [Function.iterate_succ_apply', hat] at hnext
      rw [getElem?_append_right (Nat.le_refl _), Nat.sub_self, getElem?_cons_zero] at hnext
      rw [hnext]
      cases after with
      | nil =>
        have hwrap : (before.length + 1) % (before ++ [a]).length = 0 := by simp
        rw [hwrap, ← head?_eq_getElem?]
        rfl
      | cons b after =>
        have hlt : before.length + 1 < (before ++ a :: b :: after).length := by simp
        rw [mod_eq_of_lt hlt, getElem?_append_right (le_succ _)]
        simp
  · rintro ⟨hstart, hstep⟩ k
    induction k with
    | zero => rw [zero_mod, ← head?_eq_getElem?]; exact hstart
    | succ k ih =>
      rw [Function.iterate_succ_apply', ih]
      cases hl : l with
      | nil => simpa [hl] using hstart
      | cons b t =>
        rw [← hl]
        have hpos : 0 < l.length := by rw [hl]; exact succ_pos _
        have hk : k % l.length < l.length := mod_lt _ hpos
        have hsplit : l = l.take (k % l.length) ++ l[k % l.length] :: l.drop (k % l.length + 1) := by
          rw [← drop_eq_getElem_cons hk, take_append_drop]
        have hmod : (k + 1) % l.length = (k % l.length + 1) % l.length :=
          (mod_add_mod k l.length 1).symm
        rw [getElem?_eq_getElem hk, hstep _ _ _ hsplit, head?_drop]
        by_cases hlast : k % l.length + 1 = l.length
        · rw [hmod, hlast, Nat.mod_self, List.getElem?_eq_none (Nat.le_refl _),
            ← head?_eq_getElem?]
          rfl
        · have hlt : k % l.length + 1 < l.length := by omega
          rw [hmod, mod_eq_of_lt hlt, getElem?_eq_getElem hlt]
          rfl

namespace Stops

variable {top : Stops α} {next : Option α → Option α}

/-- A tour only ever visits places no empty list of stops lies in front of. -/
theorem Follows.mem_front (h : Follows top next) (hnodup : top.flat.Nodup) (k : Nat) :
    ∀ a, next^[k + 1] none = some a → a ∈ top.front := by
  induction k with
  | zero =>
    intro a ha
    apply enter_mem_front
    rw [← h.start]
    exact ha
  | succ k ih =>
    intro a ha
    rw [Function.iterate_succ_apply'] at ha
    cases hb : next^[k + 1] none with
    | none =>
      rw [hb, h.start] at ha
      exact enter_mem_front ha
    | some b =>
      have hfront := ih b hb
      obtain ⟨left, hleft⟩ := exists_spot [] ((front_sublist top).subset hfront)
      rw [hb, h.turn b left hleft, Stops.turn, Option.or_eq_some_iff] at ha
      rcases ha with ha | ⟨-, ha⟩
      · obtain ⟨t, ht, hta⟩ := exists_of_findSome?_eq_some ha
        exact spot_front hnodup (Subset.refl _) (fun t ht => absurd ht not_mem_nil) hleft hfront t
          (mem_of_mem_take ht) a hta
      · exact enter_mem_front ha

/-- A list the tour visits is made of such places. -/
theorem Follows.subset_front (h : Follows top next) (hnodup : top.flat.Nodup) {l : List α}
    (hl : Tours next l) : l ⊆ top.front := by
  intro a ha
  obtain ⟨i, hi, rfl⟩ := getElem_of_mem ha
  apply h.mem_front hnodup i
  rw [hl i, mod_eq_of_lt hi, getElem?_eq_getElem hi]

theorem spot_after (hnodup : top.flat.Nodup) (hspot : (a, left) ∈ spots top [])
    {before after : List α} (hsplit : top.flat = before ++ a :: after) :
    after = left.flatMap flat := by
  obtain ⟨before', hfollow⟩ := spot_follow hspot
  rw [List.flatMap_nil, List.append_nil, hsplit] at hfollow
  rw [hsplit] at hnodup
  have hafter : a ∉ after := (nodup_cons.mp (nodup_append.mp hnodup).2.1).1
  have hpre : a ∉ before := fun ha => (nodup_append.mp hnodup).2.2 a ha a (mem_cons_self ..) rfl
  exact ((append_cons_inj_of_notMem hpre hafter).mp hfollow).2.2

theorem spot_unblocked (hs : s.Unblocked) (houter : ∀ t ∈ outer, t.Unblocked)
    {p : α × List (Stops α)} (h : p ∈ spots s outer) : ∀ t ∈ p.2, t.Unblocked := by
  induction s generalizing outer with
  | nil => cases h
  | leaf a rest ih =>
    rcases mem_cons.mp h with rfl | h
    · exact forall_mem_cons.mpr ⟨hs, houter⟩
    · exact ih hs houter h
  | nest a inner rest ihi ihr =>
    rcases mem_append.mp h with h | h
    · exact ihi hs.2.1 (forall_mem_cons.mpr ⟨hs.2.2, houter⟩) h
    · exact ihr hs.2.2 houter h

theorem Passable.turn (hpass : Passable top) (hspot : (a, left) ∈ spots top []) :
    turn top left = (left.flatMap flat).head?.or top.flat.head? := by
  have henter : ∀ t ∈ left, t.enter = t.flat.head? := fun t ht =>
    (spot_unblocked hpass.unblocked (fun t ht => absurd ht not_mem_nil) hspot t ht).enter
  rw [Stops.turn, hpass.unblocked.enter]
  match left, hspot, henter with
  | [], _, _ => rfl
  | [rest], _, henter => simp [henter rest (mem_cons_self ..)]
  | rest :: around :: outer, hspot, henter =>
    have hrest := henter rest (mem_cons_self ..)
    have haround := henter around (mem_cons_of_mem _ (mem_cons_self ..))
    cases hr : rest.flat with
    | cons b l => simp [hrest, hr]
    | nil =>
      cases ha : around.flat with
      | cons b l => simp [hrest, hr, haround, ha]
      | nil =>
        have houter := hpass.turns a rest around outer hspot hr ha
        simp [hrest, hr, haround, ha, houter]

theorem Passable.tours (hpass : Passable top) (h : Follows top next) (hnodup : top.flat.Nodup) :
    Tours next top.flat := by
  rw [tours_iff]
  refine ⟨h.start.trans hpass.unblocked.enter, ?_⟩
  intro before a after hsplit
  have ha : a ∈ top.flat := by
    rw [hsplit]
    exact mem_append_right _ (mem_cons_self ..)
  obtain ⟨left, hspot⟩ := exists_spot [] ha
  rw [h.turn a left hspot, hpass.turn hspot, spot_after hnodup hspot hsplit]

theorem enter_none (h : s.flat = []) : s.enter = none := by
  rw [(unblocked_of_flat_nil h).enter, h]
  rfl

/-- The tour visits every place in order exactly when the stops are passable. -/
theorem Follows.tours_iff (h : Follows top next) (hnodup : top.flat.Nodup) :
    Tours next top.flat ↔ Passable top := by
  refine ⟨fun htours => ⟨?_, ?_⟩, fun hpass => hpass.tours h hnodup⟩
  · have hlen : top.flat.length ≤ top.front.length :=
      hnodup.length_le_of_subset (h.subset_front hnodup htours)
    exact unblocked_of_front ((front_sublist top).eq_of_length_le hlen)
  · intro a rest around outer hspot hrest haround
    obtain ⟨hstart, hstep⟩ := NestedTours.tours_iff.mp htours
    obtain ⟨before, hfollow⟩ := spot_follow hspot
    rw [List.flatMap_nil, List.append_nil, List.flatMap_cons, List.flatMap_cons, hrest, haround,
      List.nil_append, List.nil_append] at hfollow
    have hnext := hstep before a _ hfollow
    have hturn : next (some a) = top.flat.head? := by
      rw [h.turn a _ hspot, Stops.turn, ← hstart, h.start]
      simp [enter_none hrest, enter_none haround]
    cases houter : outer.flatMap flat with
    | nil => rfl
    | cons b l =>
      -- the next place would be the head of all, which is `a` or before it
      rw [houter] at hnext hfollow
      have hhead : top.flat.head? = some b := hturn.symm.trans hnext
      rw [hfollow] at hhead hnodup
      obtain ⟨-, hn, hdisj⟩ := nodup_append.mp hnodup
      cases before with
      | nil =>
        cases hhead
        exact absurd (mem_cons_self ..) (nodup_cons.mp hn).1
      | cons c before =>
        cases hhead
        exact absurd rfl (hdisj b (mem_cons_self ..) b
          (mem_cons_of_mem _ (mem_cons_self ..)))

end Stops

end ChromiumUI.NestedTours
