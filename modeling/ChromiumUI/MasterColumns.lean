import Mathlib
import ChromiumUI.GridColumns
import ChromiumUI.LinkedColumns

/-!
# Master columns

All columns linked in turn, the pointers made short, and the columns of each class given one
width.
-/
namespace ChromiumUI.Views.Grid.ColumnSet

open ChromiumUI.Fuel List Option Nat Function
open ChromiumUI.Partitions (Classifies With join)

/-- The links that the columns before `k` hold. -/
def LinkedBefore (columns : List Column) (k x y : Nat) : Prop := x < k ∧ linkOf columns x = some y

/-- A column linked to itself has been linked to by one before it. -/
def SelfLinksLate (columns : List Column) (k : Nat) : Prop :=
  ∀ x < k, linkOf columns x = some x → ∃ y < x, linkOf columns y = some x

/-- What the links that were asked for are to come to. -/
structure MastersRight (links : List (Nat × Nat)) (s : ColumnSet) : Prop where
  acyclic : ∀ i, masterOf s.columns i ≠ none → ∃ m, LastMaster (masterOf s.columns) i m
  masters : ∀ i j, i ≠ j →
    ((∃ m, masterOf s.columns i = some m ∧ masterOf s.columns j = some m) ↔
      Relation.EqvGen (fun x y => (x, y) ∈ links) i j)
  lists : ∀ m, masterOf s.columns m = some m → (sameSizeColumnsOf s.columns m).Nodup ∧
    ∀ i, i ∈ sameSizeColumnsOf s.columns m ↔ LastMaster (masterOf s.columns) i m
  widths : ∀ i j, Relation.EqvGen (fun x y => (x, y) ∈ links) i j →
    widthOf s.calculateSize.columns i = widthOf s.calculateSize.columns j

section
variable {columns columns' : List Column} {cls : Nat → Nat} {i j k m x : Nat}

theorem linkedBefore_succ (hlink : linkOf columns k = some j) (x y : Nat) :
    LinkedBefore columns (k + 1) x y ↔ With (LinkedBefore columns k) k j x y := by
  constructor
  · rintro ⟨hx, hxy⟩
    by_cases hxk : x = k
    · subst hxk
      rw [hlink] at hxy
      exact .inr ⟨rfl, (some.inj hxy).symm⟩
    · exact .inl ⟨by omega, hxy⟩
  · rintro (⟨hx, hxy⟩ | ⟨rfl, rfl⟩)
    · exact ⟨by omega, hxy⟩
    · exact ⟨by omega, hlink⟩

theorem linkedBefore_succ_of_none (hlink : linkOf columns k = none) (x y : Nat) :
    LinkedBefore columns (k + 1) x y ↔ LinkedBefore columns k x y := by
  constructor
  · rintro ⟨hx, hxy⟩
    refine ⟨lt_of_le_of_ne (le_of_lt_succ hx) ?_, hxy⟩
    rintro rfl
    rw [hlink] at hxy
    cases hxy
  · rintro ⟨hx, hxy⟩
    exact ⟨by omega, hxy⟩

theorem selfLinksLate_succ (k : Nat) : SelfLinksLate columns (k + 1) ↔ SelfLinksLate columns k ∧
    (linkOf columns k = some k → ∃ y < k, linkOf columns y = some k) := by
  constructor
  · intro h
    exact ⟨fun x hx => h x (by omega), h k (by omega)⟩
  · rintro ⟨h, hk⟩ x hx hself
    by_cases hxk : x = k
    · subst hxk
      exact hk hself
    · exact h x (by omega) hself

theorem Accounts.congr {R R' : Nat → Nat → Prop} (h : Accounts columns R cls)
    (hsame : ∀ x y, R' x y ↔ R x y) : Accounts columns R' cls := by
  obtain rfl : R' = R := by
    funext x y
    exact propext (hsame x y)
  exact h

/-- The loop of CalculateMasterColumns. -/
theorem linkColumns_accounts (hrange : ∀ x y, linkOf columns x = some y → y < columns.length)
    (h : Accounts columns (LinkedBefore columns k) cls)
    (hnodup : NoDuplicates columns ↔ SelfLinksLate columns k) (n : Nat)
    (hn : k + n ≤ columns.length) :
    ∃ columns' cls', Computes (fun fuel => linkColumns fuel columns (range' k n)) columns' ∧
      Accounts columns' (LinkedBefore columns (k + n)) cls' ∧
      (NoDuplicates columns' ↔ SelfLinksLate columns (k + n)) ∧
      columns'.length = columns.length := by
  induction n generalizing columns k cls with
  | zero => exact ⟨columns, cls, ⟨0, fun fuel _ => rfl⟩, h, hnodup, rfl⟩
  | succ n ih =>
    cases hlink : linkOf columns k with
    | none =>
      have hnext := h.congr (linkedBefore_succ_of_none hlink)
      have hlate : SelfLinksLate columns (k + 1) ↔ SelfLinksLate columns k := by
        rw [selfLinksLate_succ, hlink]
        exact and_iff_left (fun hno => by cases hno)
      obtain ⟨columns', cls', ⟨enough, hrun⟩, h', hnodup', hlen⟩ :=
        ih hrange hnext (hnodup.trans hlate.symm) (by omega)
      have hsum : k + 1 + n = k + (n + 1) := by omega
      rw [hsum] at h' hnodup'
      refine ⟨columns', cls', ⟨enough, fun fuel hfuel => ?_⟩, h', hnodup', hlen⟩
      have hturn : linkColumn fuel columns k = some columns := by
        have hlink' : columns[k]?.bind Column.sameSizeColumn = none := hlink
        simp only [linkColumn, hlink']
      have hrest := hrun fuel hfuel
      beta_reduce at hrest ⊢
      rw [range'_succ, linkColumns, hturn]
      exact hrest
    | some j =>
      obtain ⟨columns₁, ⟨enough₁, hturn⟩, ⟨cls₁, h₁⟩, hlen₁, hlinks, hnodup₁⟩ :=
        linkColumn_turn h (by omega) (hrange k j hlink) hlink
      have hpre : LinkedBefore columns₁ = LinkedBefore columns := by
        funext k x y
        rw [LinkedBefore, hlinks, LinkedBefore]
      have hselfs : SelfLinksLate columns₁ = SelfLinksLate columns := by
        funext k
        rw [SelfLinksLate, hlinks, SelfLinksLate]
      have hnext : Accounts columns₁ (LinkedBefore columns₁ (k + 1)) cls₁ := by
        rw [hpre]
        exact h₁.congr (linkedBefore_succ hlink)
      have hlate : NoDuplicates columns₁ ↔ SelfLinksLate columns₁ (k + 1) := by
        rw [hnodup₁, hnodup, hselfs, selfLinksLate_succ]
        refine and_congr_right fun _ => ?_
        rw [hlink]
        constructor
        · intro hall hself
          obtain ⟨y, ⟨hlt, -⟩ | hy⟩ := hall (some.inj hself).symm
          · omega
          · exact ⟨y, hy⟩
        · rintro hall rfl
          obtain ⟨y, hy⟩ := hall rfl
          exact ⟨y, .inr hy⟩
      obtain ⟨columns', cls', ⟨enough, hrun⟩, h', hnodup', hlen⟩ :=
        ih (fun x y hxy => by rw [hlinks] at hxy; rw [hlen₁]; exact hrange x y hxy) hnext hlate
          (by omega)
      have hsum : k + 1 + n = k + (n + 1) := by omega
      rw [hpre, hsum] at h'
      rw [hselfs, hsum] at hnodup'
      refine ⟨columns', cls', ⟨max enough enough₁, fun fuel hfuel => ?_⟩, h', hnodup',
        hlen.trans hlen₁⟩
      have hrest := hrun fuel (by omega)
      have hfirst := hturn fuel (by omega)
      beta_reduce at hrest hfirst ⊢
      rw [range'_succ, linkColumns, hfirst]
      exact hrest

/-! ## Short pointers -/

/-- A pointer is made to lead to the master at once. -/
theorem LastMaster.compress {master : Nat → Option Nat} (h : LastMaster master i m)
    (hx : LastMaster master x j) : LastMaster (Function.update master i (some m)) x j := by
  have hroot : LastMaster (Function.update master i (some m)) m m := by
    refine .self ?_
    rw [update_apply]
    split
    · rfl
    · exact h.master_self
  have hhere : LastMaster (Function.update master i (some m)) i m := by
    by_cases him : m = i
    · subst him
      exact hroot
    · exact .next (update_self ..) him hroot
  induction hx with
  | @self x hself =>
    by_cases hxi : x = i
    · subst hxi
      obtain rfl := h.unique (.self hself)
      exact hhere
    · exact .self (by rw [update_of_ne hxi, hself])
  | @next x y j hy hne hrest ih =>
    by_cases hxi : x = i
    · subst hxi
      obtain rfl := h.unique (.next hy hne hrest)
      exact hhere
    · exact .next (by rw [update_of_ne hxi, hy]) hne ih

/-- What AccumulateMasterColumns has done for the columns before `k`. -/
structure Accumulated (columns : List Column) (masterColumns : List Nat) (cls : Nat → Nat)
    (k : Nat) : Prop where
  linked : Linked (masterOf columns) (sameSizeColumnsOf columns) cls
  short : ∀ i < k, masterOf columns i ≠ none → masterOf columns i = some (cls i)
  nodup : masterColumns.Nodup
  mem_iff : ∀ m, m ∈ masterColumns ↔ ∃ i < k, masterOf columns i ≠ none ∧ cls i = m

theorem Linked.compress {master : Nat → Option Nat} {members : Nat → List Nat}
    (h : Linked master members cls) (hi : master i ≠ none) :
    Linked (update master i (some (cls i))) members cls := by
  have htouched : ∀ x, update master i (some (cls i)) x ≠ none ↔ master x ≠ none := by
    intro x
    rw [update_apply]
    split
    · rename_i hx
      subst hx
      exact iff_of_true (some_ne_none _) hi
    · rfl
  refine ⟨fun x hx => ?_, fun x hx => ?_, fun m x => ?_⟩
  · exact (h.reaches i hi).compress (h.reaches x ((htouched x).mp hx))
  · by_contra hne
    refine (htouched x).mpr (fun hnone => hne (h.alone x hnone)) hx
  · rw [htouched, h.members_iff]

theorem accumulate_turn {masterColumns : List Nat} (h : Accumulated columns masterColumns cls k)
    (hk : k < columns.length) :
    ∃ pointer, Computes (fun fuel => getLastMasterColumn columns fuel k) pointer ∧
      Accumulated (setMaster k pointer columns)
        (match pointer with
          | none => masterColumns
          | some m => if m ∈ masterColumns then masterColumns else masterColumns ++ [m]) cls
        (k + 1) := by
  by_cases hmk : masterOf columns k = none
  · have hsame : masterOf (setMaster k none columns) = masterOf columns := by
      rw [masterOf_setMaster hk]
      exact update_eq_self_iff.mpr hmk.symm
    refine ⟨none, getLastMasterColumn_none hmk, ?_, fun i hi hne => ?_, h.nodup, fun m => ?_⟩
    · rw [hsame, sameSizeColumnsOf_setMaster]
      exact h.linked
    · rw [hsame] at hne ⊢
      refine h.short i (lt_of_le_of_ne (le_of_lt_succ hi) ?_) hne
      rintro rfl
      exact hne hmk
    · rw [hsame, h.mem_iff]
      constructor
      · rintro ⟨i, hi, hrest⟩
        exact ⟨i, by omega, hrest⟩
      · rintro ⟨i, hi, hne, hcls⟩
        refine ⟨i, lt_of_le_of_ne (le_of_lt_succ hi) ?_, hne, hcls⟩
        rintro rfl
        exact hne hmk
  · have hpointer := masterOf_setMaster hk (some (cls k))
    have htouched : ∀ x, masterOf (setMaster k (some (cls k)) columns) x ≠ none ↔
        masterOf columns x ≠ none := by
      intro x
      rw [hpointer, update_apply]
      split
      · rename_i hx
        subst hx
        exact iff_of_true (some_ne_none _) hmk
      · rfl
    have hmem : ∀ m, (m ∈ masterColumns ∨ m = cls k) ↔
        ∃ i < k + 1, masterOf (setMaster k (some (cls k)) columns) i ≠ none ∧ cls i = m := by
      intro m
      rw [h.mem_iff]
      constructor
      · rintro (⟨i, hi, hne, hcls⟩ | rfl)
        · exact ⟨i, by omega, (htouched i).mpr hne, hcls⟩
        · exact ⟨k, by omega, (htouched k).mpr hmk, rfl⟩
      · rintro ⟨i, hi, hne, hcls⟩
        by_cases hik : i = k
        · subst hik
          exact .inr hcls.symm
        · exact .inl ⟨i, by omega, (htouched i).mp hne, hcls⟩
    refine ⟨some (cls k), getLastMasterColumn_computes (h.linked.reaches k hmk), ?_,
      fun i hi hne => ?_, ?_, fun m => ?_⟩
    · rw [hpointer, sameSizeColumnsOf_setMaster]
      exact h.linked.compress hmk
    · rw [hpointer, update_apply]
      split
      · rename_i hik
        rw [hik]
      · exact h.short i (by omega) ((htouched i).mp hne)
    · dsimp only
      split
      · exact h.nodup
      · rename_i hnot
        rw [nodup_append]
        refine ⟨h.nodup, nodup_cons.mpr ⟨not_mem_nil, nodup_nil⟩, ?_⟩
        rintro a ha b hb rfl
        rw [mem_singleton] at hb
        exact hnot (hb ▸ ha)
    · rw [← hmem]
      dsimp only
      split
      · rename_i hin
        refine (or_iff_left_of_imp ?_).symm
        rintro rfl
        exact hin
      · rw [mem_append, mem_singleton]

theorem accumulateMasterColumns_accumulates {masterColumns : List Nat}
    (h : Accumulated columns masterColumns cls k) (n : Nat) (hn : k + n ≤ columns.length) :
    ∃ columns' masterColumns', Computes (fun fuel =>
        accumulateMasterColumns fuel columns masterColumns (range' k n))
          (columns', masterColumns') ∧
      Accumulated columns' masterColumns' cls (k + n) ∧ columns'.length = columns.length ∧
      sameSizeColumnsOf columns' = sameSizeColumnsOf columns := by
  induction n generalizing columns k masterColumns with
  | zero => exact ⟨columns, masterColumns, ⟨0, fun fuel _ => rfl⟩, h, rfl, rfl⟩
  | succ n ih =>
    obtain ⟨pointer, ⟨enough, hlast⟩, hnext⟩ := accumulate_turn h (by omega)
    obtain ⟨columns', masterColumns', ⟨enough', hrun⟩, h', hlen, hlists⟩ :=
      ih hnext (by rw [length_setMaster]; omega)
    have hsum : k + 1 + n = k + (n + 1) := by omega
    rw [hsum] at h'
    rw [length_setMaster] at hlen
    rw [sameSizeColumnsOf_setMaster] at hlists
    refine ⟨columns', masterColumns', ⟨max enough enough', fun fuel hfuel => ?_⟩, h', hlen,
      hlists⟩
    have hfirst := hlast fuel (by omega)
    have hrest := hrun fuel (by omega)
    beta_reduce at hfirst hrest ⊢
    rw [range'_succ, accumulateMasterColumns, hfirst]
    exact hrest

/-! ## CalculateMasterColumns -/

/-- What CalculateMasterColumns makes of columns that hold these links. -/
structure Mastered (columns : List Column) (s : ColumnSet) (cls : Nat → Nat) : Prop where
  accumulated : Accumulated s.columns s.masterColumns cls columns.length
  classifies : Classifies cls (fun x y => linkOf columns x = some y)
  length : s.columns.length = columns.length
  noDuplicates : NoDuplicates s.columns ↔ SelfLinksLate columns columns.length

theorem lt_of_linkOf {x y : Nat} (h : linkOf columns x = some y) : x < columns.length := by
  by_contra hlt
  rw [linkOf, getElem?_eq_none (not_lt.mp hlt)] at h
  cases h

/-- Columns that have been added and linked, but no more. -/
structure Unmastered (columns : List Column) : Prop where
  masters : ∀ i, masterOf columns i = none
  lists : ∀ i, sameSizeColumnsOf columns i = []
  range : ∀ x y, linkOf columns x = some y → y < columns.length

theorem Unmastered.accounts (h : Unmastered columns) :
    Accounts columns (LinkedBefore columns 0) id where
  linked := by
    refine ⟨fun i hi => absurd (h.masters i) hi, fun i _ => rfl, fun m i => ?_⟩
    rw [h.lists, h.masters]
    exact iff_of_false not_mem_nil fun hno => hno.1 rfl
  classifies := Classifies.refl.congr_rel fun x y =>
    ⟨fun hno => absurd hno.1 (not_lt_zero x), False.elim⟩
  touched := fun i => by
    rw [h.masters]
    refine iff_of_false (fun hno => hno rfl) ?_
    rintro ⟨y, ⟨hlt, -⟩ | ⟨hlt, -⟩⟩ <;> exact absurd hlt (not_lt_zero _)

theorem calculateMasterColumns_mastered (h : Unmastered columns) (viewStates : List ViewState) :
    ∃ s cls, Computes (fun fuel => calculateMasterColumns fuel ⟨columns, viewStates, []⟩) s ∧
      s.viewStates = viewStates ∧ Mastered columns s cls := by
  have hnodup : NoDuplicates columns ↔ SelfLinksLate columns 0 := by
    refine iff_of_true (fun m => ?_) fun x hx => absurd hx (not_lt_zero x)
    rw [h.lists]
    exact nodup_nil
  obtain ⟨columns₁, cls, ⟨enough₁, hlink⟩, haccounts, hnodup₁, hlen₁⟩ :=
    linkColumns_accounts h.range h.accounts hnodup columns.length (by omega)
  rw [zero_add] at haccounts hnodup₁
  have hstart : Accumulated columns₁ [] cls 0 := by
    refine ⟨haccounts.linked, fun i hi => absurd hi (not_lt_zero i), nodup_nil,
      fun m => iff_of_false not_mem_nil ?_⟩
    rintro ⟨i, hi, -⟩
    exact not_lt_zero i hi
  obtain ⟨columns₂, masterColumns, ⟨enough₂, haccumulate⟩, hdone, hlen₂, hlists⟩ :=
    accumulateMasterColumns_accumulates hstart columns₁.length (by omega)
  rw [zero_add, hlen₁] at hdone
  refine ⟨⟨columns₂, viewStates, masterColumns⟩, cls, ⟨max enough₁ enough₂, fun fuel hfuel => ?_⟩,
    rfl, hdone, ?_, hlen₂.trans hlen₁, ?_⟩
  · have hfirst := hlink fuel (by omega)
    have hrest := haccumulate fuel (by omega)
    beta_reduce at hfirst hrest ⊢
    rw [calculateMasterColumns, range_eq_range', hfirst]
    dsimp only
    rw [range_eq_range', hrest]
  · refine haccounts.classifies.congr_rel fun x y => ?_
    exact ⟨fun hxy => ⟨lt_of_linkOf hxy, hxy⟩, fun hxy => hxy.2⟩
  · rw [← hnodup₁, NoDuplicates, NoDuplicates, hlists]

/-! ## Requests -/

/-- The links that one call of LinkColumnSizes asks for. -/
def requestsOf : Nat → List Nat → List (Nat × Nat)
  | _, [] => []
  | last, next :: rest => (last, next) :: requestsOf next rest

/-- The links that some calls ask for. -/
def requests (calls : List (Nat × List Nat)) : List (Nat × Nat) :=
  calls.flatMap fun call => requestsOf call.1 call.2

/-- Some calls of LinkColumnSizes. -/
def linkAll (calls : List (Nat × List Nat)) (columns : List Column) : List Column :=
  calls.foldl (fun columns call => linkColumnSizes call.1 call.2 columns) columns

/-- The last column that a column was asked to have the size of. -/
def lastRequest (links : List (Nat × Nat)) (x : Nat) : Option Nat :=
  (links.reverse.find? (·.1 = x)).map Prod.snd

theorem lastRequest_append (links links' : List (Nat × Nat)) (x : Nat) :
    lastRequest (links ++ links') x = (lastRequest links' x).or (lastRequest links x) := by
  rw [lastRequest, reverse_append, find?_append, lastRequest, lastRequest]
  cases links'.reverse.find? (·.1 = x) <;> rfl

/-- What LinkColumnSizes stores. -/
theorem linkColumnSizes_links (last : Nat) (rest : List Nat)
    (hrange : ∀ link ∈ requestsOf last rest, link.1 < columns.length) :
    (linkColumnSizes last rest columns).length = columns.length ∧
      (∀ x, linkOf (linkColumnSizes last rest columns) x =
        (lastRequest (requestsOf last rest) x).or (linkOf columns x)) ∧
      masterOf (linkColumnSizes last rest columns) = masterOf columns ∧
      sameSizeColumnsOf (linkColumnSizes last rest columns) = sameSizeColumnsOf columns := by
  induction rest generalizing last columns with
  | nil => exact ⟨rfl, fun x => rfl, rfl, rfl⟩
  | cons next rest ih =>
    have hlast : last < columns.length := hrange (last, next) mem_cons_self
    obtain ⟨hlen, hlinks, hmaster, hlists⟩ := @ih (columns.modify last
      fun c => { c with sameSizeColumn := some next }) next (fun link hlink => by
        rw [length_modify]
        exact hrange link (mem_cons_of_mem _ hlink))
    rw [linkColumnSizes, requestsOf]
    refine ⟨hlen.trans (length_modify _ _ _), fun x => ?_, hmaster.trans ?_,
      hlists.trans ?_⟩
    · have hcons : (last, next) :: requestsOf next rest = [(last, next)] ++ requestsOf next rest :=
        rfl
      rw [hlinks, hcons, lastRequest_append]
      have hhere : linkOf (columns.modify last fun c => { c with sameSizeColumn := some next }) x =
          (lastRequest [(last, next)] x).or (linkOf columns x) := by
        rw [linkOf, getElem?_modify_if]
        by_cases hx : last = x
        · subst hx
          rw [if_pos rfl, getElem?_eq_getElem hlast]
          simp [lastRequest]
        · rw [if_neg hx]
          simp [lastRequest, hx, linkOf]
      rw [hhere, Option.or_assoc]
    · funext x
      rw [masterOf, getElem?_modify_if, masterOf]
      split
      · cases columns[x]? <;> rfl
      · rfl
    · funext x
      rw [sameSizeColumnsOf, getElem?_modify_if, sameSizeColumnsOf]
      split
      · cases columns[x]? <;> rfl
      · rfl

theorem linkAll_links (calls : List (Nat × List Nat))
    (hrange : ∀ link ∈ requests calls, link.1 < columns.length) :
    (linkAll calls columns).length = columns.length ∧
      (∀ x, linkOf (linkAll calls columns) x =
        (lastRequest (requests calls) x).or (linkOf columns x)) ∧
      masterOf (linkAll calls columns) = masterOf columns ∧
      sameSizeColumnsOf (linkAll calls columns) = sameSizeColumnsOf columns := by
  induction calls generalizing columns with
  | nil => exact ⟨rfl, fun x => rfl, rfl, rfl⟩
  | cons call calls ih =>
    have hrequests : requests (call :: calls) =
        requestsOf call.1 call.2 ++ requests calls := flatMap_cons
    rw [hrequests] at hrange ⊢
    obtain ⟨hlen, hlinks, hmaster, hlists⟩ := linkColumnSizes_links call.1 call.2
      fun link hlink => hrange link (mem_append_left _ hlink)
    obtain ⟨hlen', hlinks', hmaster', hlists'⟩ :=
      @ih (linkColumnSizes call.1 call.2 columns) fun link hlink => by
        rw [hlen]
        exact hrange link (mem_append_right _ hlink)
    refine ⟨hlen'.trans hlen, fun x => ?_, hmaster'.trans hmaster, hlists'.trans hlists⟩
    rw [linkAll, foldl_cons, ← linkAll, hlinks', hlinks, lastRequest_append, Option.or_assoc]

/-- What each column was asked for last still connects all that were to be linked, and a column
that was asked to have its own size was asked for by one before it. -/
structure LinksKept (links : List (Nat × Nat)) : Prop where
  connected : ∀ x y, (x, y) ∈ links →
    Relation.EqvGen (fun x y => lastRequest links x = some y) x y
  selfLinks : ∀ x, lastRequest links x = some x → ∃ y < x, lastRequest links y = some x

/-! ## Masters -/

section
variable {s : ColumnSet}

section

variable (h : Mastered columns s cls)
include h

theorem Mastered.masterOf_eq (hi : masterOf s.columns i ≠ none) :
    masterOf s.columns i = some (cls i) := by
  have hlt := lt_of_masterOf hi
  rw [h.length] at hlt
  exact h.accumulated.short i hlt hi

theorem Mastered.same_master_iff (hij : i ≠ j) :
    (∃ m, masterOf s.columns i = some m ∧ masterOf s.columns j = some m) ↔ cls i = cls j := by
  have hlinked := h.accumulated.linked
  constructor
  · rintro ⟨m, hi, hj⟩
    have hi' := h.masterOf_eq (by rw [hi]; exact some_ne_none m)
    have hj' := h.masterOf_eq (by rw [hj]; exact some_ne_none m)
    rw [hi] at hi'
    rw [hj, hi'] at hj'
    exact some.inj hj'
  · intro hcls
    have hi : masterOf s.columns i ≠ none := fun hnone =>
      hij (hlinked.eq_of_cls hnone (by rw [← hcls, hlinked.alone i hnone])).symm
    have hj : masterOf s.columns j ≠ none := fun hnone =>
      hij (hlinked.eq_of_cls hnone (by rw [hcls, hlinked.alone j hnone]))
    exact ⟨cls i, h.masterOf_eq hi, by rw [hcls]; exact h.masterOf_eq hj⟩

theorem Mastered.mem_lists (m i : Nat) :
    i ∈ sameSizeColumnsOf s.columns m ↔ LastMaster (masterOf s.columns) i m := by
  have hlinked := h.accumulated.linked
  rw [hlinked.members_iff]
  constructor
  · rintro ⟨hi, rfl⟩
    exact hlinked.reaches i hi
  · intro hlast
    exact ⟨hlast.ne_none, (hlinked.reaches i hlast.ne_none).unique hlast⟩

/-- The columns of a class are given one width. -/
theorem Mastered.widths (hin : ∀ v ∈ s.viewStates, Inside s.columns v) (hcls : cls i = cls j) :
    widthOf s.calculateSize.columns i = widthOf s.calculateSize.columns j := by
  have hlinked := h.accumulated.linked
  by_cases hij : i = j
  · rw [hij]
  obtain ⟨m, hi, hj⟩ := (h.same_master_iff hij).mpr hcls
  have hi' : masterOf s.columns i ≠ none := by
    rw [hi]
    exact some_ne_none m
  have hj' : masterOf s.columns j ≠ none := by
    rw [hj]
    exact some_ne_none m
  have hsizes := calculateSize_sizesOnly hin
  obtain ⟨columns', hunified⟩ := calculateSize_unified s
  have hsizes' := (unifySameSizedColumnSizes_grown columns' s.masterColumns).sizesOnly
  rw [hunified] at hsizes ⊢
  have hlists : sameSizeColumnsOf columns' = sameSizeColumnsOf s.columns := by
    rw [← sameSizeColumnsOf_of_sizesOnly hsizes', sameSizeColumnsOf_of_sizesOnly hsizes]
  have hlen : columns'.length = s.columns.length := by
    rw [← hsizes'.length_eq, hsizes.length_eq]
  have hmem : ∀ x, masterOf s.columns x ≠ none → x ∈ sameSizeColumnsOf columns' (cls x) := by
    intro x hx
    rw [hlists, hlinked.members_iff]
    exact ⟨hx, rfl⟩
  have hm : cls i ∈ s.masterColumns := by
    rw [h.accumulated.mem_iff]
    exact ⟨i, by rw [← h.length]; exact lt_of_masterOf hi', hi', rfl⟩
  have hdisj : ∀ m m' x, x ∈ sameSizeColumnsOf columns' m →
      x ∈ sameSizeColumnsOf columns' m' → m = m' := by
    intro m m' x hx hx'
    rw [hlists, hlinked.members_iff] at hx hx'
    exact hx.2.symm.trans hx'.2
  rw [widthOf_unify_of_mem hm hdisj h.accumulated.nodup (hmem i hi')
      (by rw [hlen]; exact lt_of_masterOf hi'),
    widthOf_unify_of_mem hm hdisj h.accumulated.nodup (by rw [hcls]; exact hmem j hj')
      (by rw [hlen]; exact lt_of_masterOf hj')]

end

end

theorem mem_of_lastRequest {links : List (Nat × Nat)} {y : Nat} (h : lastRequest links x = some y) :
    (x, y) ∈ links := by
  obtain ⟨link, hlink, rfl⟩ := map_eq_some_iff.mp h
  have hx : link.1 = x := by simpa using find?_some hlink
  have hmem := mem_reverse.mp (mem_of_find?_eq_some hlink)
  rw [← hx]
  exact hmem

/-- Columns as they are added. -/
def Unlinked (c : Column) : Prop :=
  c.sameSizeColumn = none ∧ c.masterColumn = none ∧ c.sameSizeColumns = []

theorem unlinked_new (resizePercent : ℚ) (h : 0 ≤ resizePercent) (sizeType : SizeType)
    (fixedWidth minWidth : Int) : Unlinked (.new resizePercent h sizeType fixedWidth minWidth) :=
  ⟨rfl, rfl, rfl⟩

theorem unmastered_linkAll (hnew : ∀ c ∈ columns, Unlinked c) {calls : List (Nat × List Nat)}
    (hrange : ∀ link ∈ requests calls, link.1 < columns.length ∧ link.2 < columns.length) :
    Unmastered (linkAll calls columns) ∧ (linkAll calls columns).length = columns.length ∧
      ∀ x, linkOf (linkAll calls columns) x = lastRequest (requests calls) x := by
  obtain ⟨hlen, hlinks, hmaster, hlists⟩ := linkAll_links calls fun link hlink =>
    (hrange link hlink).1
  have hlink : ∀ x, linkOf columns x = none := by
    intro x
    rw [linkOf]
    cases hc : columns[x]? with
    | none => rfl
    | some c => exact (hnew c (mem_of_getElem? hc)).1
  have hlast : ∀ x, linkOf (linkAll calls columns) x = lastRequest (requests calls) x := by
    intro x
    rw [hlinks, hlink, or_none]
  refine ⟨⟨fun x => ?_, fun x => ?_, fun x y hxy => ?_⟩, hlen, hlast⟩
  · rw [hmaster, masterOf]
    cases hc : columns[x]? with
    | none => rfl
    | some c => exact (hnew c (mem_of_getElem? hc)).2.1
  · rw [hlists, sameSizeColumnsOf]
    cases hc : columns[x]? with
    | none => rfl
    | some c => exact (hnew c (mem_of_getElem? hc)).2.2
  · rw [hlast] at hxy
    rw [hlen]
    exact (hrange _ (mem_of_lastRequest hxy)).2

/-- Requests that are kept connect what all requests connect. -/
theorem LinksKept.connects_iff {links : List (Nat × Nat)} (h : ∀ x y, (x, y) ∈ links →
      Relation.EqvGen (fun x y => lastRequest links x = some y) x y) (x y : Nat) :
    Relation.EqvGen (fun x y => lastRequest links x = some y) x y ↔
      Relation.EqvGen (fun x y => (x, y) ∈ links) x y := by
  constructor
  · intro hxy
    exact hxy.mono fun _ _ => mem_of_lastRequest
  · intro hxy
    induction hxy with
    | rel x y hmem => exact h x y hmem
    | refl x => exact .refl x
    | symm x y _ ih => exact .symm x y ih
    | trans x y z _ _ ih ih' => exact .trans x y z ih ih'

variable {calls : List (Nat × List Nat)}

theorem selfLinksLate_linkAll
    (hlast : ∀ x, linkOf (linkAll calls columns) x = lastRequest (requests calls) x) :
    SelfLinksLate (linkAll calls columns) (linkAll calls columns).length ↔
      ∀ x, lastRequest (requests calls) x = some x →
        ∃ y < x, lastRequest (requests calls) y = some x := by
  simp only [SelfLinksLate, hlast]
  constructor
  · intro hall x hx
    rw [← hlast] at hx
    have hlt := lt_of_linkOf hx
    rw [hlast] at hx
    exact hall x hlt hx
  · intro hall x _ hx
    exact hall x hx

/-- Where the columns get what was asked for, the last requests are enough for it. -/
theorem linksKept_of_right (hnew : ∀ c ∈ columns, Unlinked c)
    (hrange : ∀ link ∈ requests calls, link.1 < columns.length ∧ link.2 < columns.length)
    {viewStates : List ViewState} {s : ColumnSet} (hrun : Computes (fun fuel =>
      calculateMasterColumns fuel ⟨linkAll calls columns, viewStates, []⟩) s)
    (hright : MastersRight (requests calls) s) : LinksKept (requests calls) := by
  obtain ⟨hunmastered, -, hlast⟩ := unmastered_linkAll hnew hrange
  obtain ⟨s', cls, hrun', -, h⟩ := calculateMasterColumns_mastered hunmastered viewStates
  obtain rfl := hrun.unique hrun'
  have hclassifies : Classifies cls (fun x y => lastRequest (requests calls) x = some y) :=
    h.classifies.congr_rel fun x y => by rw [hlast]
  refine ⟨fun x y hxy => ?_,
    (selfLinksLate_linkAll hlast).mp (h.noDuplicates.mp fun m => ?_)⟩
  · by_cases hne : x = y
    · subst hne
      exact .refl x
    · exact (hclassifies x y).mp ((h.same_master_iff hne).mp
        ((hright.masters x y hne).mpr (.rel x y hxy)))
  · by_cases hm : masterOf s.columns m = some m
    · exact (hright.lists m hm).1
    · have hnil : sameSizeColumnsOf s.columns m = [] := by
        rw [eq_nil_iff_forall_not_mem]
        intro x hx
        exact hm ((h.mem_lists m x).mp hx).master_self
      rw [hnil]
      exact nodup_nil

/-- The columns get the masters and the widths that the calls ask for exactly when what each was
asked for last is enough for that. -/
theorem linked_columns_iff (hnew : ∀ c ∈ columns, Unlinked c)
    (hrange : ∀ link ∈ requests calls, link.1 < columns.length ∧ link.2 < columns.length)
    {viewStates : List ViewState} (hinside : ∀ v ∈ viewStates, Inside columns v) :
    (∃ s, Computes (fun fuel =>
        calculateMasterColumns fuel ⟨linkAll calls columns, viewStates, []⟩) s ∧
      MastersRight (requests calls) s) ↔ LinksKept (requests calls) := by
  constructor
  · rintro ⟨s, hrun, hright⟩
    exact linksKept_of_right hnew hrange hrun hright
  · intro hkept
    obtain ⟨hunmastered, hlength, hlast⟩ := unmastered_linkAll hnew hrange
    obtain ⟨s, cls, hrun, hviews, h⟩ := calculateMasterColumns_mastered hunmastered viewStates
    have hclassifies : Classifies cls (fun x y => lastRequest (requests calls) x = some y) :=
      h.classifies.congr_rel fun x y => by rw [hlast]
    have hcls : ∀ x y, cls x = cls y ↔
        Relation.EqvGen (fun x y => (x, y) ∈ requests calls) x y := fun x y =>
      (hclassifies x y).trans (LinksKept.connects_iff hkept.connected x y)
    have hinside' : ∀ v ∈ s.viewStates, Inside s.columns v := by
      rw [hviews]
      intro v hv
      rw [Inside, h.length, hlength]
      exact hinside v hv
    refine ⟨s, hrun, fun i hi => ⟨_, h.accumulated.linked.reaches i hi⟩, fun i j hij => ?_,
      fun m _ => ⟨h.noDuplicates.mpr ((selfLinksLate_linkAll hlast).mpr hkept.selfLinks) m,
        h.mem_lists m⟩,
      fun i j hij => h.widths hinside' ((hcls i j).mpr hij)⟩
    rw [h.same_master_iff hij, hcls]

end

/-! ## Three columns -/

/-- Columns that are not resizable and have the sizes of their views. -/
def prefColumns (n : Nat) : List Column := replicate n (.new 0 no_resize .usePref 0 0)

theorem prefColumns_unlinked (n : Nat) : ∀ c ∈ prefColumns n, Unlinked c := by
  intro c hc
  obtain rfl := eq_of_mem_replicate hc
  exact unlinked_new _ _ _ _ _

/-- LinkColumnSizes(0, 1, 2, -1). -/
theorem linked_columns_iff_three : ∃ s, Computes (fun fuel =>
    calculateMasterColumns fuel ⟨linkAll [(0, [1, 2])] (prefColumns 3), [], []⟩) s ∧
      MastersRight [(0, 1), (1, 2)] s := by
  refine (@linked_columns_iff (prefColumns 3) [(0, [1, 2])] (prefColumns_unlinked 3) (by decide)
    [] (fun v hv => by cases hv)).mpr ⟨fun x y hxy => .rel x y ?_, fun x hx => ?_⟩
  · obtain hxy | hxy := mem_pair.mp hxy
    · cases hxy
      rfl
    · cases hxy
      rfl
  · obtain hself | hself := mem_pair.mp (mem_of_lastRequest hx) <;> cases hself

/-- LinkColumnSizes(0, 1, -1) and LinkColumnSizes(0, 2, -1): the first is forgotten. -/
theorem linked_twice : ¬ ∃ s, Computes (fun fuel =>
    calculateMasterColumns fuel ⟨linkAll [(0, [1]), (0, [2])] (prefColumns 3), [], []⟩) s ∧
      MastersRight [(0, 1), (0, 2)] s := by
  rintro ⟨s, hrun, hright⟩
  have hkept := @linksKept_of_right (prefColumns 3) [(0, [1]), (0, [2])]
    (prefColumns_unlinked 3) (by decide) [] s hrun hright
  have hconnected := hkept.connected 0 1 (mem_cons_self)
  have hapart : ∀ x y, Relation.EqvGen
      (fun x y => lastRequest (requests [(0, [1]), (0, [2])]) x = some y) x y →
        (x = 1 ↔ y = 1) := by
    intro x y hxy
    induction hxy with
    | rel x y hlast =>
      by_cases hx : x = 0
      · subst hx
        obtain rfl : y = 2 := (some.inj hlast).symm
        decide
      · have hmem := mem_of_lastRequest hlast
        simp only [requests, requestsOf, flatMap_cons, flatMap_nil, append_nil,
          singleton_append, mem_cons, Prod.mk.injEq, not_mem_nil, or_false] at hmem
        omega
    | refl x => rfl
    | symm x y _ ih => exact ih.symm
    | trans x y z _ _ ih ih' => exact ih.trans ih'
  exact absurd ((hapart 0 1 hconnected).mpr rfl) (by decide)

end ChromiumUI.Views.Grid.ColumnSet
