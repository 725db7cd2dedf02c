import ChromiumUI.LongestPrefix
import ChromiumUI.NumberConversions
import ChromiumUI.Pickle

/-!
# ReplaceStringPlaceholders

DoReplaceStringPlaceholders over a format string, which backs its iterator up behind a run of
dollars and behind the digits of a parameter. A size_t is a `Nat` that `Target.sizeT` wraps; the
position of a substitution goes through an `int`.
-/
namespace ChromiumUI.Base.Placeholders

open List Nat LongestPrefix

/-- The characters of a format string, as the `int` they are compared as. -/
structure FormatChar (CHAR : Type) where
  code : CHAR → Int
  dollar : CHAR
  code_dollar : code dollar = 0x24
  eq_dollar : ∀ c, code c = 0x24 → c = dollar

/-- char, which is signed. -/
def charType : FormatChar Int8 := ⟨Int8.toInt, 0x24, rfl, fun _ h => Int8.toInt_inj.mp h⟩

def char16Type : FormatChar UInt16 :=
  ⟨fun c => c.toNat, 0x24, rfl, fun _ h => UInt16.toNat_inj.mp (Int.ofNat.inj h)⟩

/-- ReplacementOffset. -/
structure ReplacementOffset where
  parameter : Nat
  offset : Nat

section Definitions

variable {CHAR : Type} (T : FormatChar CHAR) (target : Target)

def isDollar (c : CHAR) : Bool := T.code c == 0x24

def isDigit (c : CHAR) : Bool := 0x30 ≤ T.code c && T.code c ≤ 0x39

/-- The uintptr_t that the digits of a parameter make, less one. -/
def parameterIndex (digits : List CHAR) : Nat :=
  target.sizeT (digits.foldl
    (fun (index : Nat) c => target.sizeT (target.sizeT (index * 10) + (T.code c - 0x30))) 0 - 1)

/-- Insertion at std::lower_bound with CompareParameter. -/
def insertOffset (rOffsets : List ReplacementOffset) (r : ReplacementOffset) :
    List ReplacementOffset :=
  rOffsets.takeWhile (fun e => e.parameter < r.parameter) ++
    r :: rOffsets.dropWhile fun e => e.parameter < r.parameter

/-- What the loop has made: the formatted string and the offsets by parameter. -/
structure Replaced (CHAR : Type) where
  formatted : List CHAR
  rOffsets : List ReplacementOffset

def Replaced.push (st : Replaced CHAR) (chars : List CHAR) : Replaced CHAR :=
  { st with formatted := st.formatted ++ chars }

/-- A placeholder: its offset, and its substitution if there is one. -/
def Replaced.substitute (subst : List (List CHAR)) (st : Replaced CHAR) (index : Nat) :
    Replaced CHAR where
  formatted := st.formatted ++ subst.getD index []
  rOffsets := insertOffset st.rOffsets ⟨index, target.sizeT (wrapInt st.formatted.length)⟩

/-- The loop over the format string; every turn takes a character at least. -/
def replaceLoop (subst : List (List CHAR)) : Nat → List CHAR → Replaced CHAR → Replaced CHAR
  | 0, _, st => st
  | _ + 1, [], st => st
  | fuel + 1, c :: rest, st =>
    if isDollar T c then
      match rest.head? with
      | none => st
      | some d =>
        if isDollar T d then
          replaceLoop subst fuel (rest.dropWhile (isDollar T))
            (st.push ((rest.takeWhile (isDollar T)).map fun _ => T.dollar))
        else
          replaceLoop subst fuel (rest.dropWhile (isDigit T))
            (st.substitute target subst (parameterIndex T target (rest.takeWhile (isDigit T))))
    else replaceLoop subst fuel rest (st.push [c])

/-- DoReplaceStringPlaceholders: the string, and the offsets behind those there were. -/
def replaceStringPlaceholders (formatString : List CHAR) (subst : List (List CHAR))
    (offsets : List Nat) : List CHAR × List Nat :=
  let st := replaceLoop T target subst formatString.length formatString ⟨[], []⟩
  (st.formatted, offsets ++ st.rOffsets.map ReplacementOffset.offset)

/-! ## Format strings -/

/-- A piece of a format string: a character that is no dollar, a run of dollars, of which one
stands for itself and `k` for themselves, or a placeholder by its digits. -/
inductive Item (CHAR : Type) where
  | literal (c : CHAR)
  | dollars (k : Nat)
  | placeholder (digits : List CHAR)

/-- The number that digits write. -/
def number (digits : List CHAR) : Nat :=
  digits.foldl (fun n c => n * 10 + (T.code c - 0x30).toNat) 0

def Item.render : Item CHAR → List CHAR
  | literal c => [c]
  | dollars k => replicate (k + 2) T.dollar
  | placeholder digits => T.dollar :: digits

/-- What a piece becomes: `k + 2` dollars are one fewer, and a placeholder its substitution. -/
def Item.expand (subst : List (List CHAR)) : Item CHAR → List CHAR
  | literal c => [c]
  | dollars k => replicate (k + 1) T.dollar
  | placeholder digits => subst.getD (number T digits - 1) []

def Item.number? : Item CHAR → Option Nat
  | placeholder digits => some (number T digits)
  | _ => none

/-- Pieces as the scanner divides them: runs of dollars and of digits are as long as they can be,
and a placeholder has one of the numbers 1 to `n`. -/
inductive Format (n : Nat) : List (Item CHAR) → Prop
  | nil : Format n []
  | literal {c : CHAR} {items : List (Item CHAR)} (hc : isDollar T c = false)
      (h : Format n items) : Format n (.literal c :: items)
  | dollars {k : Nat} {items : List (Item CHAR)} (h : Format n items)
      (hnext : ∀ c ∈ (items.flatMap (Item.render T)).head?, isDollar T c = false) :
      Format n (.dollars k :: items)
  | placeholder {digits : List CHAR} {items : List (Item CHAR)} (hne : digits ≠ [])
      (hdigits : ∀ c ∈ digits, isDigit T c = true) (hpos : 1 ≤ number T digits)
      (hle : number T digits ≤ n) (h : Format n items)
      (hnext : ∀ c ∈ (items.flatMap (Item.render T)).head?, isDigit T c = false) :
      Format n (.placeholder digits :: items)

/-- Where the substitution of a parameter begins. -/
def position (subst : List (List CHAR)) (items : List (Item CHAR)) (parameter : Nat) : Nat :=
  ((items.takeWhile fun item => item.number? T != some parameter).flatMap
    (Item.expand T subst)).length

end Definitions

variable {CHAR : Type} {T : FormatChar CHAR} {target : Target}

theorem isDollar_dollar (T : FormatChar CHAR) : isDollar T T.dollar = true := by
  rw [isDollar, T.code_dollar]
  rfl

theorem isDigit_iff {c : CHAR} : isDigit T c = true ↔ 0x30 ≤ T.code c ∧ T.code c ≤ 0x39 := by
  rw [isDigit, Bool.and_eq_true, decide_eq_true_eq, decide_eq_true_eq]

theorem eq_dollar_of_isDollar {c : CHAR} (h : isDollar T c = true) : c = T.dollar :=
  T.eq_dollar c (beq_iff_eq.mp h)

theorem isDollar_of_isDigit {c : CHAR} (h : isDigit T c = true) : isDollar T c = false := by
  rw [isDigit_iff] at h
  rw [isDollar, beq_eq_false_iff_ne]
  omega

/-! ## The parameters -/

theorem sizeT_of_lt {x : Int} (h₀ : 0 ≤ x) (h : x < (2 ^ target.sizeBits : Nat)) :
    (target.sizeT x : Int) = x := by
  rw [Target.sizeT, Int.emod_eq_of_lt h₀ h, Int.toNat_of_nonneg h₀]

theorem number_append (digits : List CHAR) (c : CHAR) :
    number T (digits ++ [c]) = number T digits * 10 + (T.code c - 0x30).toNat := by
  rw [number, foldl_append]
  rfl

/-- The digits of a number that a size_t holds make that number. -/
theorem foldl_sizeT {digits : List CHAR} (hds : ∀ c ∈ digits, isDigit T c = true)
    (h : number T digits < 2 ^ target.sizeBits) :
    digits.foldl
      (fun (index : Nat) c => target.sizeT (target.sizeT (index * 10) + (T.code c - 0x30))) 0 =
      number T digits := by
  induction digits using reverseRecOn with
  | nil => rfl
  | append_singleton digits c ih =>
    rw [number_append] at h ⊢
    have hc := hds c (by simp)
    rw [isDigit_iff] at hc
    have hshort : number T digits < 2 ^ target.sizeBits := by omega
    have hindex := ih (fun d hd => hds d (mem_append_left _ hd)) hshort
    rw [foldl_append, hindex, foldl_cons, foldl_nil]
    have htimes : (target.sizeT ((number T digits : Int) * 10) : Int) = number T digits * 10 :=
      sizeT_of_lt (by omega) (by omega)
    have hsum := @sizeT_of_lt target (number T digits * 10 + (T.code c - 0x30)) (by omega)
      (by omega)
    rw [htimes]
    omega

theorem parameterIndex_eq (target : Target) {digits : List CHAR}
    (hds : ∀ c ∈ digits, isDigit T c = true)
    (hpos : 1 ≤ number T digits) (h : number T digits < 2 ^ target.sizeBits) :
    parameterIndex T target digits = number T digits - 1 := by
  rw [parameterIndex, foldl_sizeT hds h]
  have hindex := @sizeT_of_lt target ((number T digits : Int) - 1) (by omega) (by omega)
  omega

/-! ## The loop goes over the pieces -/

/-- The offsets that the placeholders have from a position on, in the order of the format. -/
def spots (T : FormatChar CHAR) (target : Target) (subst : List (List CHAR)) :
    Nat → List (Item CHAR) → List ReplacementOffset
  | _, [] => []
  | start, item :: items =>
    let rest := spots T target subst (start + (item.expand T subst).length) items
    match item.number? T with
    | some parameter => ⟨parameter - 1, target.sizeT (wrapInt start)⟩ :: rest
    | none => rest

variable {subst : List (List CHAR)} {items : List (Item CHAR)}

theorem replaceLoop_format (hsubst : subst.length < 2 ^ target.sizeBits)
    (h : Format T subst.length items) {fuel : Nat}
    (hfuel : (items.flatMap (Item.render T)).length ≤ fuel) (st : Replaced CHAR) :
    replaceLoop T target subst fuel (items.flatMap (Item.render T)) st =
      ⟨st.formatted ++ items.flatMap (Item.expand T subst),
        (spots T target subst st.formatted.length items).foldl insertOffset st.rOffsets⟩ := by
  induction h generalizing fuel st with
  | nil => cases fuel <;> simp [replaceLoop, spots]
  | @literal c items hc h ih =>
    rw [flatMap_cons, Item.render, singleton_append] at hfuel ⊢
    obtain ⟨fuel, rfl⟩ : ∃ n, fuel = n + 1 := ⟨fuel - 1, by rw [length_cons] at hfuel; omega⟩
    rw [replaceLoop, hc, if_neg Bool.false_ne_true, ih (le_of_succ_le_succ hfuel)]
    simp [Replaced.push, Item.expand, spots, Item.number?]
  | @dollars k items h hnext ih =>
    have hall : ∀ c ∈ replicate (k + 1) T.dollar, isDollar T c = true := by
      intro c hc
      rw [eq_of_mem_replicate hc]
      exact isDollar_dollar T
    have htake := takeWhile_append hall hnext
    have hdrop := dropWhile_append hall hnext
    rw [flatMap_cons, Item.render, replicate_succ, cons_append] at hfuel ⊢
    obtain ⟨fuel, rfl⟩ : ∃ n, fuel = n + 1 := ⟨fuel - 1, by rw [length_cons] at hfuel; omega⟩
    rw [length_cons, length_append] at hfuel
    rw [replicate_succ, cons_append] at htake hdrop ⊢
    rw [replaceLoop, isDollar_dollar, if_pos rfl, head?_cons]
    dsimp only
    rw [isDollar_dollar, if_pos rfl, htake, hdrop, ih (by omega)]
    simp [Replaced.push, Item.expand, spots, Item.number?, replicate_succ]
  | @placeholder digits items hne hds hpos hle h hnext ih =>
    have htake := takeWhile_append hds hnext
    have hdrop := dropWhile_append hds hnext
    rw [flatMap_cons, Item.render, cons_append] at hfuel ⊢
    obtain ⟨fuel, rfl⟩ : ∃ n, fuel = n + 1 := ⟨fuel - 1, by rw [length_cons] at hfuel; omega⟩
    rw [length_cons, length_append] at hfuel
    have hindex := parameterIndex_eq target hds hpos (by omega)
    obtain ⟨d, digits, rfl⟩ := exists_cons_of_ne_nil hne
    have hd : isDollar T d = false := isDollar_of_isDigit (hds d mem_cons_self)
    rw [cons_append] at htake hdrop ⊢
    rw [replaceLoop, isDollar_dollar, if_pos rfl, head?_cons]
    dsimp only
    rw [hd, if_neg Bool.false_ne_true, htake, hdrop, hindex, ih (by omega)]
    simp [Replaced.substitute, Item.expand, spots, Item.number?]

/-! ## The offsets by parameter -/

theorem insertOffset_perm (rOffsets : List ReplacementOffset) (r : ReplacementOffset) :
    (insertOffset rOffsets r).Perm (r :: rOffsets) := by
  have hsplit := takeWhile_append_dropWhile
    (p := fun e : ReplacementOffset => decide (e.parameter < r.parameter)) (l := rOffsets)
  calc insertOffset rOffsets r
      _ |>.Perm (r :: (rOffsets.takeWhile (fun e => e.parameter < r.parameter) ++
          rOffsets.dropWhile fun e => e.parameter < r.parameter)) := perm_middle
      _ = r :: rOffsets := by rw [hsplit]

theorem insertOffset_parameters (rOffsets : List ReplacementOffset) (r : ReplacementOffset) :
    (insertOffset rOffsets r).map ReplacementOffset.parameter =
      (rOffsets.map ReplacementOffset.parameter).orderedInsert (· ≤ ·) r.parameter := by
  induction rOffsets with
  | nil => rfl
  | cons e rOffsets ih =>
    rw [insertOffset] at ih ⊢
    rw [map_cons, orderedInsert_cons]
    by_cases hlt : e.parameter < r.parameter
    · rw [if_neg (not_le.mpr hlt), takeWhile_cons_of_pos (by simpa using hlt),
        dropWhile_cons_of_pos (by simpa using hlt), cons_append, map_cons, ih]
    · rw [if_pos (not_lt.mp hlt), takeWhile_cons_of_neg (by simpa using hlt),
        dropWhile_cons_of_neg (by simpa using hlt)]
      rfl

/-- Inserted one after the other, the offsets are all there and in the order of the parameters. -/
theorem foldl_insertOffset (rs rOffsets : List ReplacementOffset)
    (h : (rOffsets.map ReplacementOffset.parameter).Pairwise (· ≤ ·)) :
    (rs.foldl insertOffset rOffsets).Perm (rs ++ rOffsets) ∧
      ((rs.foldl insertOffset rOffsets).map ReplacementOffset.parameter).Pairwise (· ≤ ·) := by
  induction rs generalizing rOffsets with
  | nil => exact ⟨Perm.refl _, h⟩
  | cons r rs ih =>
    have hsort : ((insertOffset rOffsets r).map ReplacementOffset.parameter).Pairwise
        (· ≤ ·) := by
      rw [insertOffset_parameters]
      exact h.orderedInsert _ _
    obtain ⟨hperm, hpairwise⟩ := ih (insertOffset rOffsets r) hsort
    exact ⟨hperm.trans (((insertOffset_perm rOffsets r).append_left rs).trans perm_middle),
      hpairwise⟩

/-- The numbers of the placeholders, in the order of the format. -/
def numbers (T : FormatChar CHAR) (items : List (Item CHAR)) : List Nat :=
  items.filterMap (Item.number? T)

theorem spots_parameters (subst : List (List CHAR)) (start : Nat) (items : List (Item CHAR)) :
    (spots T target subst start items).map ReplacementOffset.parameter =
      (numbers T items).map (· - 1) := by
  induction items generalizing start with
  | nil => rfl
  | cons item items ih =>
    rw [spots, numbers, filterMap_cons]
    cases item.number? T with
    | none => exact ih _
    | some parameter => rw [map_cons, map_cons, ih]; rfl

theorem position_cons_of_ne {item : Item CHAR} {parameter : Nat}
    (h : item.number? T ≠ some parameter) :
    position T subst (item :: items) parameter =
      (item.expand T subst).length + position T subst items parameter := by
  rw [position, takeWhile_cons_of_pos (by simpa using h), flatMap_cons,
    length_append]
  rfl

/-- An offset is the position of its parameter, when no other placeholder has that. -/
theorem spots_offset (target : Target) (subst : List (List CHAR)) (start : Nat)
    (hpos : ∀ k ∈ numbers T items, 1 ≤ k) (hnodup : (numbers T items).Nodup) :
    ∀ e ∈ spots T target subst start items, e.offset = target.sizeT (wrapInt
      (start + position T subst items (e.parameter + 1) : Nat)) := by
  induction items generalizing start with
  | nil => exact nofun
  | cons item items ih =>
    intro e he
    rw [numbers, filterMap_cons] at hpos hnodup
    rw [spots] at he
    cases hitem : item.number? T with
    | none =>
      rw [hitem] at hpos hnodup he
      rw [position_cons_of_ne (by rw [hitem]; exact nofun), ← Nat.add_assoc]
      exact ih _ hpos hnodup e he
    | some parameter =>
      rw [hitem] at hpos hnodup he
      obtain ⟨hparameter, hpos⟩ := forall_mem_cons.mp hpos
      obtain ⟨hnew, hnodup⟩ := nodup_cons.mp hnodup
      rcases mem_cons.mp he with rfl | he
      · have hzero : position T subst (item :: items) (parameter - 1 + 1) = 0 := by
          rw [position, Nat.sub_add_cancel hparameter,
            takeWhile_cons_of_neg (by simp [hitem])]
          rfl
        rw [hzero, Nat.add_zero]
      · have hmem : e.parameter + 1 ∈ numbers T items := by
          have hindex := mem_map_of_mem (f := ReplacementOffset.parameter) he
          rw [spots_parameters, mem_map] at hindex
          obtain ⟨k, hk, hkindex⟩ := hindex
          rw [← hkindex, Nat.sub_add_cancel (hpos k hk)]
          exact hk
        have hne : item.number? T ≠ some (e.parameter + 1) := by
          rw [hitem]
          intro h
          cases h
          exact hnew hmem
        rw [position_cons_of_ne hne, ← Nat.add_assoc]
        exact ih _ hpos hnodup e he

theorem Format.numbers_pos {n : Nat} (h : Format T n items) : ∀ k ∈ numbers T items, 1 ≤ k := by
  induction h with
  | nil => exact nofun
  | literal _ _ ih => exact ih
  | dollars _ _ ih => exact ih
  | placeholder _ _ hpos _ _ _ ih => exact forall_mem_cons.mpr ⟨hpos, ih⟩

theorem range_eq_map (m : Nat) : (range' 1 m).map (· - 1) = range m := by
  rw [range_eq_range', map_sub_range' (le_refl 1)]

/-- The offsets when the placeholders are those of the parameters 1 to `m`, each once. -/
theorem foldl_spots {n m : Nat} (h : Format T n items) (hm : (numbers T items).Perm (range' 1 m)) :
    ((spots T target subst 0 items).foldl insertOffset []).map ReplacementOffset.offset =
      (List.range m).map fun j => target.sizeT (wrapInt (position T subst items (j + 1))) := by
  obtain ⟨hperm, hsort⟩ := foldl_insertOffset (spots T target subst 0 items) [] .nil
  rw [append_nil] at hperm
  have hparameters : ((spots T target subst 0 items).foldl insertOffset []).map
      ReplacementOffset.parameter = range m := by
    refine Perm.eq_of_pairwise' hsort (pairwise_le_range) ?_
    refine (hperm.map _).trans ?_
    rw [spots_parameters, ← range_eq_map]
    exact hm.map _
  have hoffsets := spots_offset target subst 0 h.numbers_pos
    (hm.nodup_iff.mpr nodup_range')
  rw [← hparameters, map_map]
  refine map_congr_left fun e he => ?_
  have hoff := hoffsets e (hperm.mem_iff.mp he)
  rw [Nat.zero_add] at hoff
  rw [Function.comp_apply, hoff]

/-! ## ReplaceStringPlaceholders -/

/-- The sizes that come back from an `int`: those below 2 ^ 31, and the last 2 ^ 31 of a size_t,
which with 32 bits are the others and with 64 bits the sizes of no string. -/
def Fits (target : Target) (n : Nat) : Prop :=
  n < 2 ^ 31 ∨ (2 ^ target.sizeBits ≤ n + 2 ^ 31 ∧ n < 2 ^ target.sizeBits)

theorem sizeT_wrapInt (n : Nat) : target.sizeT (wrapInt n) = n ↔ Fits target n := by
  have h32 : ((2 ^ 32 : Nat) : Int) = 4294967296 := rfl
  have h64 : ((2 ^ 64 : Nat) : Int) = 18446744073709551616 := rfl
  rw [Target.sizeT, wrapInt, Int.bmod_def, Fits]
  rcases target.sizeBits_eq with h | h
  · rw [h, h32]
    split <;> omega
  · rw [h, h32, h64]
    split <;> omega

/-- What ReplaceStringPlaceholders is for: the pieces replaced, and where the placeholders of the
parameters 1 to `m`, each there once, have begun. -/
structure Replaces (T : FormatChar CHAR) (target : Target) (items : List (Item CHAR))
    (subst : List (List CHAR)) : Prop where
  formatted : ∀ offsets, (replaceStringPlaceholders T target (items.flatMap (Item.render T)) subst
    offsets).1 = items.flatMap (Item.expand T subst)
  offsets : ∀ m, (numbers T items).Perm (range' 1 m) → ∀ offsets,
    (replaceStringPlaceholders T target (items.flatMap (Item.render T)) subst offsets).2 =
      offsets ++ (range m).map fun j => position T subst items (j + 1)

theorem replaceStringPlaceholders_eq {subst : List (List CHAR)}
    (hsubst : subst.length < 2 ^ target.sizeBits) {items : List (Item CHAR)}
    (h : Format T subst.length items) (offsets : List Nat) :
    replaceStringPlaceholders T target (items.flatMap (Item.render T)) subst offsets =
      (items.flatMap (Item.expand T subst), offsets ++
        ((spots T target subst 0 items).foldl insertOffset []).map
          ReplacementOffset.offset) := by
  rw [replaceStringPlaceholders, replaceLoop_format hsubst h (le_refl _)]
  rfl

theorem replaces_iff (hsubst : subst.length < 2 ^ target.sizeBits) (h : Format T subst.length items)
    :
    Replaces T target items subst ↔ ∀ m, (numbers T items).Perm (range' 1 m) →
      ∀ j < m, Fits target (position T subst items (j + 1)) := by
  constructor
  · intro hreplaces m hm j hj
    have hoffsets := hreplaces.offsets m hm []
    rw [replaceStringPlaceholders_eq hsubst h, nil_append, nil_append,
      foldl_spots h hm] at hoffsets
    have hj' := map_inj_left.mp hoffsets j (mem_range.mpr hj)
    exact sizeT_wrapInt _ |>.mp hj'
  · intro hfits
    refine ⟨fun offsets => ?_, fun m hm offsets => ?_⟩
    · rw [replaceStringPlaceholders_eq hsubst h]
    · rw [replaceStringPlaceholders_eq hsubst h, foldl_spots h hm]
      refine congrArg (offsets ++ ·) (map_congr_left fun j hj => ?_)
      exact (sizeT_wrapInt _).mpr (hfits m hm j (mem_range.mp hj))

/-! ## Every format string is of pieces -/

/-- Every dollar is followed by a dollar or by the number of a parameter, or is the last one of
several. -/
def DollarsFollowed (T : FormatChar CHAR) (n : Nat) (format : List CHAR) : Prop :=
  ∀ front rest, format = front ++ T.dollar :: rest →
    (∃ c ∈ rest.head?, isDollar T c = true) ∨
    (1 ≤ number T (rest.takeWhile (isDigit T)) ∧ number T (rest.takeWhile (isDigit T)) ≤ n) ∨
    (∃ c ∈ front.getLast?, isDollar T c = true)

theorem DollarsFollowed.tail {n : Nat} (front : List CHAR) {rest : List CHAR}
    (h : DollarsFollowed T n (front ++ rest))
    (hbetween : (∀ c ∈ front.getLast?, isDollar T c = false) ∨
      ∀ c ∈ rest.head?, isDollar T c = false) : DollarsFollowed T n rest := by
  rintro more rest' rfl
  rcases h (front ++ more) rest' (append_assoc ..).symm with hnext | hnum | hlast
  · exact .inl hnext
  · exact .inr (Or.inl hnum)
  · obtain ⟨c, hc, hdollar⟩ := hlast
    by_cases hmore : more = []
    · subst hmore
      rw [append_nil] at hc
      rcases hbetween with hfront | hrest
      · rw [hfront c hc] at hdollar
        cases hdollar
      · have := hrest T.dollar rfl
        rw [isDollar_dollar] at this
        cases this
    · rw [getLast?_append_of_ne_nil _ hmore] at hc
      exact .inr (Or.inr ⟨c, hc, hdollar⟩)

/-- A run of dollars, to its end. -/
theorem DollarsFollowed.run {n : Nat} {rest : List CHAR}
    (h : DollarsFollowed T n (T.dollar :: T.dollar :: rest)) :
    DollarsFollowed T n (rest.dropWhile (isDollar T)) ∧ ∀ items, Format T n items →
      rest.dropWhile (isDollar T) = items.flatMap (Item.render T) →
        Format T n (.dollars (rest.takeWhile (isDollar T)).length :: items) ∧
          T.dollar :: T.dollar :: rest = (Item.dollars (rest.takeWhile (isDollar T)).length ::
            items).flatMap (Item.render T) := by
  have hsplit := takeWhile_append_dropWhile (p := isDollar T) (l := rest)
  have hrun : rest.takeWhile (isDollar T) =
      replicate (rest.takeWhile (isDollar T)).length T.dollar :=
    eq_replicate_of_mem fun c hc => eq_dollar_of_isDollar (all_eq_true.mp all_takeWhile c hc)
  constructor
  · refine DollarsFollowed.tail (T.dollar :: T.dollar :: rest.takeWhile (isDollar T)) ?_
      (Or.inr (head?_dropWhile _ rest))
    rwa [cons_append, cons_append, hsplit]
  · intro items hitems hrest
    refine ⟨.dollars hitems (hrest ▸ head?_dropWhile _ rest), ?_⟩
    rw [flatMap_cons, ← hrest, Item.render, replicate_succ, replicate_succ, ← hrun,
      cons_append, cons_append, hsplit]

/-- A dollar with the digits behind it. -/
theorem DollarsFollowed.parameter {n : Nat} {rest : List CHAR}
    (h : DollarsFollowed T n (T.dollar :: rest)) (hnext : ¬∃ c ∈ rest.head?, isDollar T c = true) :
    DollarsFollowed T n (rest.dropWhile (isDigit T)) ∧ ∀ items, Format T n items →
      rest.dropWhile (isDigit T) = items.flatMap (Item.render T) →
        Format T n (.placeholder (rest.takeWhile (isDigit T)) :: items) ∧
          T.dollar :: rest = (Item.placeholder (rest.takeWhile (isDigit T)) ::
            items).flatMap (Item.render T) := by
  obtain ⟨hpos, hle⟩ : 1 ≤ number T (rest.takeWhile (isDigit T)) ∧
      number T (rest.takeWhile (isDigit T)) ≤ n := by
    rcases h [] rest rfl with hdollar | hnum | ⟨c, hc, -⟩
    · exact absurd hdollar hnext
    · exact hnum
    · cases hc
  have hne : rest.takeWhile (isDigit T) ≠ [] := by
    intro hnil
    rw [hnil] at hpos
    exact absurd hpos (not_succ_le_zero 0)
  have hds : ∀ c ∈ rest.takeWhile (isDigit T), isDigit T c = true :=
    fun c hc => all_eq_true.mp all_takeWhile c hc
  have hsplit := takeWhile_append_dropWhile (p := isDigit T) (l := rest)
  constructor
  · refine DollarsFollowed.tail (T.dollar :: rest.takeWhile (isDigit T)) ?_ (Or.inl ?_)
    · rwa [cons_append, hsplit]
    · intro c hc
      rw [getLast?_cons_of_ne_nil hne] at hc
      exact isDollar_of_isDigit (hds c (mem_of_mem_getLast? hc))
  · intro items hitems hrest
    refine ⟨.placeholder hne hds hpos hle hitems
      (hrest ▸ head?_dropWhile _ rest), ?_⟩
    rw [flatMap_cons, ← hrest, Item.render, cons_append, hsplit]

theorem format_exists {n : Nat} {format : List CHAR} (h : DollarsFollowed T n format) :
    ∃ items, Format T n items ∧ format = items.flatMap (Item.render T) := by
  generalize hlen : format.length = length
  induction length using Nat.strongRecOn generalizing format with
  | _ length ih =>
    cases format with
    | nil => exact ⟨[], .nil, rfl⟩
    | cons c rest =>
      rw [length_cons] at hlen
      by_cases hc : isDollar T c = true
      · obtain rfl := eq_dollar_of_isDollar hc
        by_cases hnext : ∃ d ∈ rest.head?, isDollar T d = true
        · obtain ⟨d, hd, hdollar⟩ := hnext
          obtain ⟨rest, rfl⟩ : ∃ rest', rest = d :: rest' := head?_eq_some_iff.mp hd
          obtain rfl := eq_dollar_of_isDollar hdollar
          obtain ⟨htail, hrun⟩ := h.run
          have hshort := (dropWhile_sublist (isDollar T) (l := rest)).length_le
          rw [length_cons] at hlen
          obtain ⟨items, hitems, hrest⟩ := ih (rest.dropWhile (isDollar T)).length (by omega)
            htail rfl
          exact ⟨_, hrun items hitems hrest⟩
        · obtain ⟨htail, hparameter⟩ := h.parameter hnext
          have hshort := (dropWhile_sublist (isDigit T) (l := rest)).length_le
          obtain ⟨items, hitems, hrest⟩ := ih (rest.dropWhile (isDigit T)).length (by omega)
            htail rfl
          exact ⟨_, hparameter items hitems hrest⟩
      · obtain ⟨items, hitems, hrest⟩ := ih rest.length (by omega)
          (DollarsFollowed.tail [c] h (Or.inl (by simpa using hc))) rfl
        rw [Bool.not_eq_true] at hc
        exact ⟨.literal c :: items, .literal hc hitems, by rw [hrest]; rfl⟩

/-- A format string whose dollars are followed as they should be is replaced piece by piece, and
the offsets are the positions of the parameters exactly when these come back from an `int`. -/
theorem replace_placeholders_iff {subst : List (List CHAR)}
    (hsubst : subst.length < 2 ^ target.sizeBits) (format : List CHAR) :
    (DollarsFollowed T subst.length format →
      ∃ items, Format T subst.length items ∧ format = items.flatMap (Item.render T)) ∧
    ∀ items, Format T subst.length items → format = items.flatMap (Item.render T) →
      (Replaces T target items subst ↔ ∀ m, (numbers T items).Perm (range' 1 m) →
        ∀ j < m, Fits target (position T subst items (j + 1))) :=
  ⟨format_exists, fun _ hitems _ => replaces_iff hsubst hitems⟩

/-- "$2$1" -/
def secondFirst : List (Item Int8) := [.placeholder [0x32], .placeholder [0x31]]

set_option maxRecDepth 4000 in
theorem format_secondFirst : Format charType 2 secondFirst :=
  .placeholder (cons_ne_nil _ _) (by decide) (by decide) (by decide)
    (.placeholder (cons_ne_nil _ _) (by decide) (by decide) (by decide) .nil nofun)
    (by decide)

theorem replace_placeholders_order :
    Replaces charType .lp64 secondFirst [[0x61], [0x62, 0x63]] := by
  have hsubst : ([[0x61], [0x62, 0x63]] : List (List Int8)).length < 2 ^ Target.lp64.sizeBits := by
    decide
  refine ((replace_placeholders_iff hsubst [0x24, 0x32, 0x24, 0x31]).2 secondFirst
    format_secondFirst rfl).mpr fun m hm j hj => .inl ?_
  have htwo : 2 = m := by
    have hlength := hm.length_eq
    rwa [length_range'] at hlength
  subst htwo
  match j with
  | 0 => decide
  | 1 => decide

/-- Behind a substitution of 2 GiB the position is negative as an `int`, and a size_t of 64 bits
does not get it back. -/
theorem replace_placeholders_far :
    (replaceStringPlaceholders charType .lp64 [0x24, 0x32, 0x24, 0x31]
        [[], replicate (2 ^ 31) 0x78] []).2 = [18446744071562067968, 0] ∧
      ¬Replaces charType .lp64 secondFirst [[], replicate (2 ^ 31) 0x78] := by
  have hnumbers : (numbers charType secondFirst).Perm (range' 1 2) := by decide
  have hfirst : position charType [[], replicate (2 ^ 31) 0x78] secondFirst 1 = 2 ^ 31 := by
    have hexpand : position charType [[], replicate (2 ^ 31) 0x78] secondFirst 1 =
        (replicate (2 ^ 31) (0x78 : Int8) ++ []).length := rfl
    rw [hexpand, append_nil, length_replicate]
  have hsecond : position charType [[], replicate (2 ^ 31) 0x78] secondFirst 2 = 0 := rfl
  have hrange : range 2 = [0, 1] := rfl
  have hoffsets : (replaceStringPlaceholders charType .lp64 (secondFirst.flatMap
      (Item.render charType)) [[], replicate (2 ^ 31) 0x78] []).2 =
      [18446744071562067968, 0] := by
    rw [@replaceStringPlaceholders_eq _ charType .lp64 [[], replicate (2 ^ 31) 0x78]
      (by decide) _ format_secondFirst [], foldl_spots format_secondFirst hnumbers, hrange,
      map_cons, map_cons, hfirst, hsecond]
    rfl
  refine ⟨hoffsets, fun hreplaces => ?_⟩
  have hpositions := hreplaces.offsets 2 hnumbers []
  rw [hoffsets, hrange, map_cons, map_cons, hfirst] at hpositions
  exact absurd (cons.inj hpositions).1 (by decide)

end ChromiumUI.Base.Placeholders
