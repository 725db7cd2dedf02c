import ChromiumUI.Fuel
import ChromiumUI.GridElements
import ChromiumUI.Partitions

/-!
# Linked columns

CalculateMasterColumns keeps a forest of pointers to masters, and at each master the list of its
columns.
-/
namespace ChromiumUI.Views.Grid.ColumnSet

open ChromiumUI.Fuel List Function
open ChromiumUI.Partitions (Classifies With join)

/-- GetLastMasterColumn, for pointers that come to a master. -/
inductive LastMaster (master : Nat → Option Nat) : Nat → Nat → Prop where
  | self {i : Nat} : master i = some i → LastMaster master i i
  | next {i j m : Nat} : master i = some j → j ≠ i → LastMaster master j m → LastMaster master i m

/-- The pointers lead to the classes of `cls`, and the lists say who is in which. -/
structure Linked (master : Nat → Option Nat) (members : Nat → List Nat) (cls : Nat → Nat) :
    Prop where
  reaches : ∀ i, master i ≠ none → LastMaster master i (cls i)
  alone : ∀ i, master i = none → cls i = i
  members_iff : ∀ m i, i ∈ members m ↔ master i ≠ none ∧ cls i = m

section
variable {master master' : Nat → Option Nat} {members : Nat → List Nat} {cls : Nat → Nat}
  {i j k m m' x : Nat}

/-! ## Pointers -/

namespace LastMaster

section

variable (h : LastMaster master i m)
include h

theorem unique (h' : LastMaster master i m') : m = m' := by
  induction h with
  | self hi =>
    cases h' with
    | self _ => rfl
    | next hj hne _ =>
      rw [hi] at hj
      exact absurd (Option.some.inj hj).symm hne
  | next hj hne _ ih =>
    cases h' with
    | self hi =>
      rw [hi] at hj
      exact absurd (Option.some.inj hj).symm hne
    | next hj' _ h' =>
      rw [hj] at hj'
      cases hj'
      exact ih h'

theorem master_self : master m = some m := by
  induction h with
  | self hi => exact hi
  | next _ _ _ ih => exact ih

theorem ne_none : master i ≠ none := by
  cases h with
  | self hi =>
    rw [hi]
    exact Option.some_ne_none _
  | next hj _ _ =>
    rw [hj]
    exact Option.some_ne_none _

/-- Pointers that were set stay. -/
theorem mono (hsame : ∀ j, master j ≠ none → master' j = master j) : LastMaster master' i m := by
  induction h with
  | self hi => exact .self (by rw [hsame _ (by rw [hi]; exact Option.some_ne_none _), hi])
  | next hj hne _ ih =>
    exact .next (by rw [hsame _ (by rw [hj]; exact Option.some_ne_none _), hj]) hne ih

/-- A pointer that is not on the way is set. -/
theorem update (hk : master k = none ∨ master k = some k)
    (hne : m ≠ k) (pointer : Option Nat) : LastMaster (update master k pointer) i m := by
  have hnot : ∀ {j}, LastMaster master j m → j ≠ k := by
    rintro j hj rfl
    obtain hk | hk := hk
    · exact hj.ne_none hk
    · exact hne (hj.unique (.self hk))
  induction h with
  | self hi => exact .self (by rw [update_of_ne hne, hi])
  | next hj hne' hrest ih =>
    refine .next ?_ hne' (ih hne hnot)
    rw [update_of_ne (hnot (.next hj hne' hrest)), hj]

end

/-- A master is made to point to a column of another class. -/
theorem redirect (h : LastMaster master i k) (hto : LastMaster master j m) (hne : m ≠ k) :
    LastMaster (Function.update master k (some j)) i m := by
  have hk := h.master_self
  have hjk : j ≠ k := by
    rintro rfl
    exact hne (hto.unique (.self hk))
  have hend : LastMaster (Function.update master k (some j)) k m :=
    .next (update_self ..) hjk (hto.update (Or.inr hk) hne _)
  generalize hlast : k = last at h
  induction h with
  | self _ =>
    subst hlast
    exact hend
  | @next i' j' m' hj' hne' hrest ih =>
    subst hlast
    by_cases hik : i' = k
    · rw [hik]
      exact hend
    · exact .next (by rw [update_of_ne hik, hj']) hne' (ih rfl)

end LastMaster

/-! ## Classes -/

namespace Linked

section

variable (h : Linked master members cls)
include h

theorem cls_self (hi : master i ≠ none) :
    master (cls i) = some (cls i) := (h.reaches i hi).master_self

theorem cls_of_master (hm : master m = some m) : cls m = m :=
  (h.reaches m (by rw [hm]; exact Option.some_ne_none _)).unique (.self hm)

/-- A column that is not linked is by itself. -/
theorem eq_of_cls (hi : master i = none) (hx : cls x = i) : x = i := by
  by_cases hx' : master x = none
  · rw [← h.alone x hx', hx]
  · have hself := h.cls_self hx'
    rw [hx, hi] at hself
    cases hself

theorem members_nil (hi : master i = none) : members i = [] := by
  rw [eq_nil_iff_forall_not_mem]
  intro x hx
  obtain ⟨hne, hcls⟩ := (h.members_iff i x).mp hx
  obtain rfl := h.eq_of_cls hi hcls
  exact hne hi

/-- Both columns are not linked. -/
theorem link (hi : master i = none) (hj : master j = none) :
    Linked (update (update master i (some i)) j (some i))
      (update members i (members i ++ [j, i])) (join cls i j) := by
  have hcls : ∀ x, join cls i j x = if x = j then i else cls x := by
    intro x
    rw [join, h.alone i hi, h.alone j hj]
    refine if_congr ⟨h.eq_of_cls hj, ?_⟩ rfl rfl
    rintro rfl
    exact h.alone x hj
  have hpointer : ∀ x, update (update master i (some i)) j (some i) x =
      if x = j ∨ x = i then some i else master x := by
    intro x
    simp only [update_apply]
    split_ifs <;> first | rfl | tauto
  have hroot : LastMaster (update (update master i (some i)) j (some i)) i i :=
    .self (by rw [hpointer, if_pos (Or.inr rfl)])
  refine ⟨fun x hx => ?_, fun x hx => ?_, fun m x => ?_⟩
  · rw [hcls]
    by_cases hxj : x = j
    · subst hxj
      rw [if_pos rfl]
      by_cases hxi : x = i
      · subst hxi
        exact hroot
      · exact .next (by rw [hpointer, if_pos (Or.inl rfl)]) (Ne.symm hxi) hroot
    · rw [if_neg hxj]
      by_cases hxi : x = i
      · subst hxi
        rw [h.alone x hi]
        exact hroot
      · rw [hpointer, if_neg (by tauto)] at hx
        refine (h.reaches x hx).mono fun y hy => ?_
        rw [hpointer, if_neg]
        rintro (rfl | rfl)
        · exact hy hj
        · exact hy hi
  · rw [hpointer] at hx
    split at hx
    · cases hx
    · rename_i hnot
      rw [hcls, if_neg (by tauto), h.alone x hx]
  · rw [hcls, hpointer]
    by_cases hm : m = i
    · subst hm
      rw [update_self, h.members_nil hi, nil_append]
      by_cases hx : x = j ∨ x = m
      · refine iff_of_true (by simpa using hx) ⟨by rw [if_pos hx]; exact Option.some_ne_none _, ?_⟩
        split
        · rfl
        · obtain hx | rfl := hx
          · contradiction
          · exact h.alone x hi
      · rw [if_neg hx, if_neg (by tauto)]
        refine iff_of_false (by simpa using hx) fun hboth => hx (Or.inr (h.eq_of_cls hi hboth.2))
    · rw [update_of_ne hm, h.members_iff]
      by_cases hx : x = j ∨ x = i
      · rw [if_pos hx]
        have hnone : master x = none := by
          obtain rfl | rfl := hx
          · exact hj
          · exact hi
        refine iff_of_false (fun hboth => hboth.1 hnone) fun hboth => hm ?_
        rw [← hboth.2]
        split
        · rfl
        · obtain hx | rfl := hx
          · contradiction
          · exact h.alone x hi
      · rw [if_neg hx, if_neg (by tauto)]

end

/-- A column that is not linked, or a master with all its columns, is put into the class of
another column. -/
theorem redirect (h : Linked master members cls) (hi : master i ≠ none)
    (hk : master k = none ∨ master k = some k) (hne : cls i ≠ k) {added : List Nat}
    (hadded : ∀ x, x ∈ added ↔ x ∈ members k ∨ x = k ∧ master k = none) :
    Linked (update master k (some i))
      (update (update members (cls i) (members (cls i) ++ added)) k [])
      (join cls i k) := by
  have hclsk : cls k = k := hk.elim (h.alone k) h.cls_of_master
  have hto := h.reaches i hi
  have hik : i ≠ k := by
    rintro rfl
    exact hne hclsk
  refine ⟨fun x hx => ?_, fun x hx => ?_, fun m x => ?_⟩
  · rw [join, hclsk]
    by_cases hxk : x = k
    · subst hxk
      rw [if_pos hclsk]
      exact .next (update_self ..) hik (hto.update hk hne _)
    · rw [update_of_ne hxk] at hx
      split
      · rename_i hcls
        have hreach := h.reaches x hx
        rw [hcls] at hreach
        exact hreach.redirect hto hne
      · rename_i hcls
        exact (h.reaches x hx).update hk hcls _
  · have hxk : x ≠ k := by
      rintro rfl
      rw [update_self] at hx
      cases hx
    rw [update_of_ne hxk] at hx
    rw [join, h.alone x hx, hclsk, if_neg hxk]
  · have htouched : update master k (some i) x ≠ none ↔ master x ≠ none ∨ x = k := by
      by_cases hxk : x = k
      · subst hxk
        rw [update_self]
        exact iff_of_true (Option.some_ne_none _) (Or.inr rfl)
      · rw [update_of_ne hxk, or_iff_left hxk]
    rw [htouched, join, hclsk]
    by_cases hmk : m = k
    · subst hmk
      rw [update_self]
      refine iff_of_false not_mem_nil ?_
      rintro ⟨-, heq⟩
      split at heq
      · exact hne heq
      · contradiction
    · rw [update_of_ne hmk]
      by_cases hm : m = cls i
      · subst hm
        rw [update_self, mem_append, hadded, h.members_iff, h.members_iff]
        constructor
        · rintro (⟨hx, heq⟩ | ⟨hx, heq⟩ | ⟨rfl, hx⟩)
          · exact ⟨.inl hx, by rw [if_neg (by rw [heq]; exact hmk), heq]⟩
          · exact ⟨.inl hx, if_pos heq⟩
          · exact ⟨.inr rfl, if_pos hclsk⟩
        · rintro ⟨hx, heq⟩
          by_cases hcls : cls x = k
          · obtain hx | rfl := hx
            · exact .inr (Or.inl ⟨hx, hcls⟩)
            · by_cases hnone : master x = none
              · exact .inr (Or.inr ⟨rfl, hnone⟩)
              · exact .inr (Or.inl ⟨hnone, hcls⟩)
          · rw [if_neg hcls] at heq
            refine .inl ⟨hx.resolve_right ?_, heq⟩
            rintro rfl
            exact hcls hclsk
      · rw [update_of_ne hm, h.members_iff]
        constructor
        · rintro ⟨hx, heq⟩
          exact ⟨.inl hx, by rw [if_neg (by rw [heq]; exact hmk), heq]⟩
        · rintro ⟨hx, heq⟩
          split at heq
          · exact absurd heq.symm hm
          · rename_i hcls
            refine ⟨hx.resolve_right ?_, heq⟩
            rintro rfl
            exact hcls hclsk

/-- Two lists are made one. -/
theorem nodup_redirect (h : Linked master members cls) (hne : cls i ≠ k) {added : List Nat}
    (hadded : ∀ x, x ∈ added ↔ x ∈ members k ∨ x = k ∧ master k = none)
    (hclsk : cls k = k) (hnodup : added.Nodup ↔ (members k).Nodup) :
    (∀ m, ((update (update members (cls i) (members (cls i) ++ added)) k [])
      m).Nodup) ↔ ∀ m, (members m).Nodup := by
  have hdisj : ∀ x ∈ members (cls i), ∀ y ∈ added, x ≠ y := by
    rintro x hx _ hx' rfl
    have hcls := ((h.members_iff _ x).mp hx).2
    obtain hmem | ⟨rfl, -⟩ := (hadded x).mp hx'
    · exact hne (hcls.symm.trans ((h.members_iff _ x).mp hmem).2)
    · exact hne (hcls.symm.trans hclsk)
  constructor
  · intro hall m
    have hjoined := hall (cls i)
    rw [update_of_ne hne, update_self, nodup_append] at hjoined
    by_cases hmk : m = k
    · subst hmk
      exact hnodup.mp hjoined.2.1
    · by_cases hm : m = cls i
      · subst hm
        exact hjoined.1
      · have := hall m
        rwa [update_of_ne hmk, update_of_ne hm] at this
  · intro hall m
    by_cases hmk : m = k
    · subst hmk
      rw [update_self]
      exact nodup_nil
    · rw [update_of_ne hmk]
      by_cases hm : m = cls i
      · subst hm
        rw [update_self, nodup_append]
        exact ⟨hall _, hnodup.mpr (hall k), hdisj⟩
      · rw [update_of_ne hm]
        exact hall m

theorem nodup_link (h : Linked master members cls) (hi : master i = none) :
    (∀ m, (update members i (members i ++ [j, i]) m).Nodup) ↔
      (∀ m, (members m).Nodup) ∧ j ≠ i := by
  constructor
  · intro hall
    have hi' := hall i
    rw [update_self, h.members_nil hi, nil_append] at hi'
    refine ⟨fun m => ?_, by simpa using hi'⟩
    by_cases hm : m = i
    · subst hm
      rw [h.members_nil hi]
      exact nodup_nil
    · have := hall m
      rwa [update_of_ne hm] at this
  · rintro ⟨hall, hne⟩ m
    by_cases hm : m = i
    · subst hm
      rw [update_self, h.members_nil hi, nil_append]
      simpa using hne
    · rw [update_of_ne hm]
      exact hall m

end Linked

/-! ## The columns -/

/-- `same_size_column_`. -/
def linkOf (columns : List Column) (i : Nat) : Option Nat :=
  columns[i]?.bind Column.sameSizeColumn

variable {columns columns' : List Column}

@[simp] theorem length_setMaster (pointer : Option Nat) :
    (setMaster i pointer columns).length = columns.length := length_modify _ _ _

@[simp] theorem length_setSameSizeColumns (f : List Nat → List Nat) :
    (setSameSizeColumns i f columns).length = columns.length := length_modify _ _ _

theorem masterOf_setMaster (hi : i < columns.length) (pointer : Option Nat) :
    masterOf (setMaster i pointer columns) = update (masterOf columns) i pointer := by
  funext x
  rw [masterOf, setMaster, getElem?_modify_if, update_apply, masterOf]
  by_cases hx : i = x
  · subst hx
    rw [if_pos rfl, if_pos rfl, getElem?_eq_getElem hi]
    rfl
  · rw [if_neg hx, if_neg (Ne.symm hx)]

@[simp] theorem masterOf_setSameSizeColumns (f : List Nat → List Nat) :
    masterOf (setSameSizeColumns i f columns) = masterOf columns := by
  funext x
  rw [masterOf, setSameSizeColumns, getElem?_modify_if, masterOf]
  split
  · cases columns[x]? <;> rfl
  · rfl

@[simp] theorem sameSizeColumnsOf_setMaster (pointer : Option Nat) :
    sameSizeColumnsOf (setMaster i pointer columns) = sameSizeColumnsOf columns := by
  funext x
  rw [sameSizeColumnsOf, setMaster, getElem?_modify_if, sameSizeColumnsOf]
  split
  · cases columns[x]? <;> rfl
  · rfl

theorem sameSizeColumnsOf_setSameSizeColumns (hi : i < columns.length)
    (f : List Nat → List Nat) : sameSizeColumnsOf (setSameSizeColumns i f columns) =
      update (sameSizeColumnsOf columns) i (f (sameSizeColumnsOf columns i)) := by
  funext x
  rw [sameSizeColumnsOf, setSameSizeColumns, getElem?_modify_if, update_apply]
  by_cases hx : i = x
  · subst hx
    rw [if_pos rfl, if_pos rfl, sameSizeColumnsOf, getElem?_eq_getElem hi]
    rfl
  · rw [if_neg hx, if_neg (Ne.symm hx), sameSizeColumnsOf]

@[simp] theorem linkOf_setMaster (pointer : Option Nat) :
    linkOf (setMaster i pointer columns) = linkOf columns := by
  funext x
  rw [linkOf, setMaster, getElem?_modify_if, linkOf]
  split
  · cases columns[x]? <;> rfl
  · rfl

@[simp] theorem linkOf_setSameSizeColumns (f : List Nat → List Nat) :
    linkOf (setSameSizeColumns i f columns) = linkOf columns := by
  funext x
  rw [linkOf, setSameSizeColumns, getElem?_modify_if, linkOf]
  split
  · cases columns[x]? <;> rfl
  · rfl

theorem lt_of_masterOf (h : masterOf columns i ≠ none) : i < columns.length := by
  by_contra hlt
  rw [masterOf, getElem?_eq_none (Nat.not_lt.mp hlt)] at h
  exact h rfl

/-- Where the pointers come to a master, so does GetLastMasterColumn. -/
theorem getLastMasterColumn_computes (h : LastMaster (masterOf columns) i m) :
    Computes (fun fuel => getLastMasterColumn columns fuel i) (some m) := by
  induction h with
  | @self i hi =>
    refine ⟨1, fun fuel hfuel => ?_⟩
    obtain _ | fuel := fuel
    · omega
    simp only [getLastMasterColumn, hi, if_true]
  | next hj hne _ ih =>
    refine ih.succ fun fuel => ?_
    simp only [getLastMasterColumn, hj, if_neg hne]

theorem getLastMasterColumn_none (h : masterOf columns i = none) :
    Computes (fun fuel => getLastMasterColumn columns fuel i) none := by
  refine ⟨1, fun fuel hfuel => ?_⟩
  obtain _ | fuel := fuel
  · omega
  simp only [getLastMasterColumn, h]

/-- The columns account for the links of a relation. -/
structure Accounts (columns : List Column) (R : Nat → Nat → Prop) (cls : Nat → Nat) : Prop where
  linked : Linked (masterOf columns) (sameSizeColumnsOf columns) cls
  classifies : Classifies cls R
  touched : ∀ i, masterOf columns i ≠ none ↔ ∃ y, R i y ∨ R y i

/-- No list holds a column twice. -/
def NoDuplicates (columns : List Column) : Prop := ∀ m, (sameSizeColumnsOf columns m).Nodup

theorem touched_with {R : Nat → Nat → Prop} (i j x : Nat) :
    (∃ y, With R i j x y ∨ With R i j y x) ↔ (∃ y, R x y ∨ R y x) ∨ x = i ∨ x = j := by
  constructor
  · rintro ⟨y, (hR | ⟨rfl, -⟩) | (hR | ⟨-, rfl⟩)⟩
    · exact .inl ⟨y, .inl hR⟩
    · exact .inr (Or.inl rfl)
    · exact .inl ⟨y, .inr hR⟩
    · exact .inr (Or.inr rfl)
  · rintro (⟨y, hR | hR⟩ | rfl | rfl)
    · exact ⟨y, .inl (Or.inl hR)⟩
    · exact ⟨y, .inr (Or.inl hR)⟩
    · exact ⟨j, .inl (Or.inr ⟨rfl, rfl⟩)⟩
    · exact ⟨i, .inr (Or.inr ⟨rfl, rfl⟩)⟩

/-- What one turn of the loop does. -/
structure Turn (columns columns' : List Column) (R : Nat → Nat → Prop) (i j : Nat) : Prop where
  accounts : ∃ cls, Accounts columns' (With R i j) cls
  length : columns'.length = columns.length
  links : linkOf columns' = linkOf columns
  noDuplicates : NoDuplicates columns' ↔
    NoDuplicates columns ∧ (i = j → ∃ y, R i y ∨ R y i)

variable {R : Nat → Nat → Prop}

section

variable (h : Accounts columns R cls)
include h

theorem ne_of_untouched (hi : masterOf columns i ≠ none)
    (hk : masterOf columns k = none) : cls i ≠ k := by
  intro heq
  have hself := h.linked.cls_self hi
  rw [heq, hk] at hself
  cases hself

/-- A pointer is set at a column that is not linked, and the column added to a list. -/
theorem turn_attach (hi : masterOf columns i ≠ none) (hk : masterOf columns k = none)
    (hmaster : masterOf columns' = update (masterOf columns) k (some i))
    (hmembers : sameSizeColumnsOf columns' = update (sameSizeColumnsOf columns) (cls i)
      (sameSizeColumnsOf columns (cls i) ++ [k])) :
    (Linked (masterOf columns') (sameSizeColumnsOf columns') (join cls i k)) ∧
      (NoDuplicates columns' ↔ NoDuplicates columns) := by
  have hne := ne_of_untouched h hi hk
  have hnil := h.linked.members_nil hk
  have hadded : ∀ x, x ∈ [k] ↔ x ∈ sameSizeColumnsOf columns k ∨ x = k ∧
      masterOf columns k = none := by
    intro x
    rw [hnil, hk]
    simp
  have hlists : sameSizeColumnsOf columns' = update (update
      (sameSizeColumnsOf columns) (cls i) (sameSizeColumnsOf columns (cls i) ++ [k])) k [] := by
    rw [hmembers]
    funext x
    by_cases hx : x = k
    · subst hx
      rw [update_self, update_of_ne (Ne.symm hne), hnil]
    · rw [update_of_ne hx]
  rw [NoDuplicates, hmaster, hlists]
  refine ⟨h.linked.redirect hi (Or.inl hk) hne hadded,
    h.linked.nodup_redirect hne hadded (h.linked.alone k hk) ?_⟩
  rw [hnil]
  simp

/-- Neither column is linked. -/
theorem linkColumn_alone (hi : i < columns.length)
    (hj : j < columns.length) (hlink : linkOf columns i = some j)
    (hmi : masterOf columns i = none) (hmj : masterOf columns j = none) :
    ∃ columns', Computes (fun fuel => linkColumn fuel columns i) columns' ∧
      Turn columns columns' R i j := by
  have hlink' : columns[i]?.bind Column.sameSizeColumn = some j := hlink
  have huntouched : ¬ ∃ y, R i y ∨ R y i := by
    rw [← h.touched, hmi]
    exact fun hno => hno rfl
  refine ⟨setSameSizeColumns i (· ++ [j, i]) (setMaster j (some i) (setMaster i (some i) columns)),
    ⟨0, fun fuel _ => by simp only [linkColumn, hlink', hmi, hmj]⟩,
    ⟨join cls i j, ?_, ?_, ?_⟩, by simp, by simp, ?_⟩
  · rw [masterOf_setSameSizeColumns, masterOf_setMaster (by simpa using hj),
      masterOf_setMaster hi, sameSizeColumnsOf_setSameSizeColumns (by simpa using hi),
      sameSizeColumnsOf_setMaster, sameSizeColumnsOf_setMaster]
    exact h.linked.link hmi hmj
  · exact h.classifies.join i j
  · intro x
    rw [touched_with, ← h.touched, masterOf_setSameSizeColumns,
      masterOf_setMaster (by simpa using hj), masterOf_setMaster hi]
    simp only [update_apply]
    split_ifs <;> simp_all
  · rw [NoDuplicates, sameSizeColumnsOf_setSameSizeColumns (by simpa using hi),
      sameSizeColumnsOf_setMaster, sameSizeColumnsOf_setMaster, h.linked.nodup_link hmi,
      NoDuplicates]
    refine and_congr_right fun _ => ⟨fun hne heq => absurd heq.symm hne, ?_⟩
    rintro hall rfl
    exact huntouched (hall rfl)

/-- The column is put into the class of the one it is linked to. -/
theorem linkColumn_first (hi : i < columns.length) (hlink : linkOf columns i = some j)
    (hmi : masterOf columns i = none) (hmj : masterOf columns j ≠ none) :
    ∃ columns', Computes (fun fuel => linkColumn fuel columns i) columns' ∧
      Turn columns columns' R i j := by
  have hlink' : columns[i]?.bind Column.sameSizeColumn = some j := hlink
  obtain ⟨p, hp⟩ := Option.ne_none_iff_exists'.mp hmj
  have hij : i ≠ j := by
    rintro rfl
    exact hmj hmi
  have hroot := lt_of_masterOf (h.linked.cls_self hmj ▸ Option.some_ne_none _)
  obtain ⟨enough, hlast⟩ := getLastMasterColumn_computes (h.linked.reaches j hmj)
  beta_reduce at hlast
  refine ⟨setMaster i (some j) (setSameSizeColumns (cls j) (· ++ [i]) columns),
    ⟨enough, fun fuel hfuel => by
    simp only [linkColumn, hlink', hmi, hp, hlast fuel hfuel]⟩, ?_⟩
  have hattach := @turn_attach cls j i columns (setMaster i (some j)
    (setSameSizeColumns (cls j) (· ++ [i]) columns)) R h hmj hmi
    (by rw [masterOf_setMaster (by simpa using hi), masterOf_setSameSizeColumns])
    (by rw [sameSizeColumnsOf_setMaster, sameSizeColumnsOf_setSameSizeColumns hroot])
  refine ⟨⟨join cls j i, hattach.1, h.classifies.join_symm i j, ?_⟩, by simp, by simp, ?_⟩
  · intro x
    rw [touched_with, ← h.touched, masterOf_setMaster (by simpa using hi),
      masterOf_setSameSizeColumns, update_apply]
    split_ifs <;> simp_all
  · rw [hattach.2]
    exact ⟨fun hall => ⟨hall, fun heq => absurd heq hij⟩, fun hall => hall.1⟩

/-- The column that it is linked to is put into its class. -/
theorem linkColumn_second (hj : j < columns.length) (hlink : linkOf columns i = some j)
    (hmi : masterOf columns i ≠ none) (hmj : masterOf columns j = none) :
    ∃ columns', Computes (fun fuel => linkColumn fuel columns i) columns' ∧
      Turn columns columns' R i j := by
  have hlink' : columns[i]?.bind Column.sameSizeColumn = some j := hlink
  obtain ⟨p, hp⟩ := Option.ne_none_iff_exists'.mp hmi
  have hij : i ≠ j := by
    rintro rfl
    exact hmi hmj
  have hroot := lt_of_masterOf (h.linked.cls_self hmi ▸ Option.some_ne_none _)
  have hreach : LastMaster (masterOf (setMaster j (some i) columns)) i (cls i) := by
    rw [masterOf_setMaster hj]
    exact (h.linked.reaches i hmi).update (Or.inl hmj) (ne_of_untouched h hmi hmj) _
  obtain ⟨enough, hlast⟩ := getLastMasterColumn_computes hreach
  beta_reduce at hlast
  refine ⟨setSameSizeColumns (cls i) (· ++ [j]) (setMaster j (some i) columns),
    ⟨enough, fun fuel hfuel => by
    simp only [linkColumn, hlink', hmj, hp, hlast fuel hfuel]⟩, ?_⟩
  have hattach := @turn_attach cls i j columns (setSameSizeColumns (cls i) (· ++ [j])
    (setMaster j (some i) columns)) R h hmi hmj
    (by rw [masterOf_setSameSizeColumns, masterOf_setMaster hj])
    (by rw [sameSizeColumnsOf_setSameSizeColumns (by simpa using hroot),
      sameSizeColumnsOf_setMaster])
  refine ⟨⟨join cls i j, hattach.1, h.classifies.join i j, ?_⟩, by simp, by simp, ?_⟩
  · intro x
    rw [touched_with, ← h.touched, masterOf_setSameSizeColumns, masterOf_setMaster hj,
      update_apply]
    split_ifs <;> simp_all
  · rw [hattach.2]
    exact ⟨fun hall => ⟨hall, fun heq => absurd heq hij⟩, fun hall => hall.1⟩

/-- Two classes are made one, unless they are one already. -/
theorem linkColumn_both (hlink : linkOf columns i = some j)
    (hmi : masterOf columns i ≠ none) (hmj : masterOf columns j ≠ none) :
    ∃ columns', Computes (fun fuel => linkColumn fuel columns i) columns' ∧
      Turn columns columns' R i j := by
  have hlink' : columns[i]?.bind Column.sameSizeColumn = some j := hlink
  obtain ⟨p, hp⟩ := Option.ne_none_iff_exists'.mp hmi
  obtain ⟨q, hq⟩ := Option.ne_none_iff_exists'.mp hmj
  obtain ⟨enough, hlast⟩ := getLastMasterColumn_computes (h.linked.reaches i hmi)
  obtain ⟨enough', hlast'⟩ := getLastMasterColumn_computes (h.linked.reaches j hmj)
  beta_reduce at hlast hlast'
  have hself := h.linked.cls_self hmj
  have htouched : ∀ x, (∃ y, With R i j x y ∨ With R i j y x) ↔ ∃ y, R x y ∨ R y x := by
    intro x
    rw [touched_with, ← h.touched]
    refine or_iff_left_of_imp ?_
    rintro (rfl | rfl)
    · exact hmi
    · exact hmj
  by_cases hsame : cls i = cls j
  · refine ⟨columns, ⟨max enough enough', fun fuel hfuel => ?_⟩,
      ⟨cls, h.linked, h.classifies.with_of_eq hsame, fun x => ?_⟩, rfl, rfl, ?_⟩
    · simp only [linkColumn, hlink', hp, hq, hlast fuel (by omega), hlast' fuel (by omega),
        hsame, ne_eq, not_true, if_false]
    · rw [htouched, h.touched]
    · exact ⟨fun hall => ⟨hall, fun _ => (h.touched i).mp hmi⟩, fun hall => hall.1⟩
  · have hroot := lt_of_masterOf (h.linked.cls_self hmi ▸ Option.some_ne_none _)
    have hroot' := lt_of_masterOf (hself ▸ Option.some_ne_none _)
    have hclsk : cls (cls j) = cls j := h.linked.cls_of_master hself
    have hadded : ∀ x, x ∈ sameSizeColumnsOf columns (cls j) ↔
        x ∈ sameSizeColumnsOf columns (cls j) ∨ x = cls j ∧ masterOf columns (cls j) = none := by
      intro x
      rw [hself]
      simp
    have hjoin : join cls i (cls j) = join cls i j := by
      funext x
      rw [join, join, hclsk]
    have hmaster : masterOf (setMaster (cls j) (some i) (setSameSizeColumns (cls j) (fun _ => [])
        (setSameSizeColumns (cls i) (· ++ sameSizeColumnsOf columns (cls j)) columns))) =
          update (masterOf columns) (cls j) (some i) := by
      rw [masterOf_setMaster (by simpa using hroot'), masterOf_setSameSizeColumns,
        masterOf_setSameSizeColumns]
    have hmembers : sameSizeColumnsOf (setMaster (cls j) (some i) (setSameSizeColumns (cls j)
        (fun _ => []) (setSameSizeColumns (cls i) (· ++ sameSizeColumnsOf columns (cls j))
          columns))) = update (update (sameSizeColumnsOf columns) (cls i)
            (sameSizeColumnsOf columns (cls i) ++ sameSizeColumnsOf columns (cls j)))
              (cls j) [] := by
      rw [sameSizeColumnsOf_setMaster, sameSizeColumnsOf_setSameSizeColumns (by simpa using hroot'),
        sameSizeColumnsOf_setSameSizeColumns hroot]
    refine ⟨setMaster (cls j) (some i) (setSameSizeColumns (cls j) (fun _ => [])
      (setSameSizeColumns (cls i) (· ++ sameSizeColumnsOf columns (cls j)) columns)),
      ⟨max enough enough', fun fuel hfuel => by
      simp only [linkColumn, hlink', hp, hq, hlast fuel (by omega), hlast' fuel (by omega),
        ne_eq, hsame, not_false_eq_true, if_true]⟩, ⟨join cls i j, ?_, h.classifies.join i j, ?_⟩,
      by simp, by simp, ?_⟩
    · rw [hmaster, hmembers, ← hjoin]
      exact h.linked.redirect hmi (Or.inr hself) hsame hadded
    · intro x
      rw [htouched, ← h.touched, hmaster, update_apply]
      split
      · rename_i hx
        rw [hx, hself]
        simp
      · rfl
    · rw [NoDuplicates, hmembers, h.linked.nodup_redirect hsame hadded hclsk Iff.rfl,
        NoDuplicates]
      exact ⟨fun hall => ⟨hall, fun _ => (h.touched i).mp hmi⟩, fun hall => hall.1⟩

theorem linkColumn_turn (hi : i < columns.length)
    (hj : j < columns.length) (hlink : linkOf columns i = some j) :
    ∃ columns', Computes (fun fuel => linkColumn fuel columns i) columns' ∧
      Turn columns columns' R i j := by
  by_cases hmi : masterOf columns i = none
  · by_cases hmj : masterOf columns j = none
    · exact linkColumn_alone h hi hj hlink hmi hmj
    · exact linkColumn_first h hi hlink hmi hmj
  · by_cases hmj : masterOf columns j = none
    · exact linkColumn_second h hj hlink hmi hmj
    · exact linkColumn_both h hlink hmi hmj

end

end

end ChromiumUI.Views.Grid.ColumnSet
