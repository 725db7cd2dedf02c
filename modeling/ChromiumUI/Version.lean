import ChromiumUI.SignedNumbers
import ChromiumUI.StringSplit

/-!
# Version

A dotted version number is split at its dots, and each component is read and compared with what
IntToString makes of it.
-/
namespace ChromiumUI.Base

open StringNumbers Numerals List Option Int

def periodChar : UInt8 := 0x2e

structure Version where
  components : List UInt16
  deriving DecidableEq

namespace Version

/-- One turn of the constructor's loop: the number that is pushed, unless it returns. -/
def parseNumber (i : Bytes) : Option UInt16 :=
  let (num, ok) := StringNumbers.stringToInt charType i
  if !ok then none
  else if num < 0 then none
  else if num > 0xffff then none
  -- This throws out things like +3, or 032.
  else if intToString charType num ≠ some i then none
  else some (UInt16.ofNat num.toNat)

def parseNumbers : List Bytes → Option (List UInt16)
  | [] => some []
  | i :: numbers => (parseNumber i).bind fun num => (parseNumbers numbers).map (num :: ·)

/-- Version(version_str). -/
def ofString (versionStr : Bytes) : Version :=
  let numbers := splitString versionStr periodChar
  if numbers.isEmpty then ⟨[]⟩ else ⟨(parseNumbers numbers).getD []⟩

def isValid (v : Version) : Bool := !v.components.isEmpty

/-- The components with a period behind each but the last, which there has to be. -/
def appendComponents : List UInt16 → Option Bytes
  | [] => none
  | [component] => intToString charType component.toNat
  | component :: components =>
    (intToString charType component.toNat).bind fun text =>
      (appendComponents components).map fun rest => text ++ periodChar :: rest

def getString (v : Version) : Option Bytes := appendComponents v.components

/-- A decimal number up to 65535 without sign, whitespace or a redundant zero in front. -/
def IsNumber (c : Bytes) : Prop :=
  ∃ ds, DigitsOf charType 10 c ds ∧ Canonical ds ∧ value 10 ds ≤ 0xffff

/-! ## One number -/

theorem charToDigit_inj {b b' : UInt8} {d : Nat} (h : StringNumbers.charToDigit 10 b.toNat = some d)
    (h' : StringNumbers.charToDigit 10 b'.toNat = some d) : b = b' := by
  rw [← UInt8.toNat_inj]
  unfold StringNumbers.charToDigit at h h'
  split_ifs at h h' <;> simp only [Option.some.injEq] at h h' <;> omega

theorem digitsOf_inj {c c' : Bytes} {ds : List Nat} (h : DigitsOf charType 10 c ds)
    (h' : DigitsOf charType 10 c' ds) : c = c' := by
  induction c generalizing c' ds with
  | nil =>
    have hds : ds = [] := map_eq_nil_iff.mp h.symm
    rw [hds, DigitsOf] at h'
    exact (map_eq_nil_iff.mp h').symm
  | cons b c ih =>
    obtain ⟨d, rest, rfl, hd, hrest⟩ := h.cons_inv
    cases c' with
    | nil => exact absurd h'.symm (by simp)
    | cons b' c' =>
      obtain ⟨d', rest', hsame, hd', hrest'⟩ := h'.cons_inv
      obtain ⟨rfl, rfl⟩ := List.cons.inj hsame
      rw [charToDigit_inj hd hd', ih hrest hrest']

/-- What IntToString writes for a component. -/
theorem intToString_component {n : Nat} (hn : n ≤ 0xffff) :
    ∃ text ds, intToString charType n = some text ∧ DigitsOf charType 10 text ds ∧ Canonical ds ∧
      value 10 ds = n := by
  have hmin : IntType.int.min ≤ (n : Int) := by
    show -2 ^ 31 ≤ (n : Int)
    omega
  have hmax : (n : Int) ≤ IntType.int.max := by
    show (n : Int) ≤ 2 ^ 31 - 1
    omega
  have hunsigned := toUnsigned_eq (t := .int) rfl hmin hmax
  rw [natAbs_natCast] at hunsigned
  have hneg : (IntType.int.signed && decide ((n : Int) < 0)) = false := by
    rw [decide_eq_false (by omega), Bool.and_false]
  obtain ⟨cs, ds, hwrite, hcs, hcanon, hvalue⟩ :=
    @writeDigits_denotes _ charType false n (3 * (IntType.int.bits / 8) + 1) 9 [] (by omega)
      (by decide)
  refine ⟨cs, ds, ?_, hcs, hcanon, hvalue⟩
  rw [intToString, intToStringT, hneg, hunsigned]
  rw [append_nil] at hwrite
  exact hwrite

theorem intToString_of_digits {c : Bytes} {ds : List Nat} (hc : DigitsOf charType 10 c ds)
    (hcanon : Canonical ds) (hle : value 10 ds ≤ 0xffff) :
    intToString charType (value 10 ds : Nat) = some c := by
  obtain ⟨text, ds', htext, hds, hcanon', hvalue⟩ := intToString_component hle
  have hsame : ds = ds' := hcanon.eq_of_value_eq (by decide) hcanon' hc.lt_of_mem
    hds.lt_of_mem hvalue.symm
  subst hsame
  rw [htext, digitsOf_inj hc hds]

/-- A component is taken exactly if it is a number, and is written as it was. -/
theorem parseNumber_iff {c : Bytes} : (∃ num, parseNumber c = some num) ↔ IsNumber c := by
  constructor
  · rintro ⟨num, h⟩
    unfold parseNumber at h
    dsimp only at h
    split_ifs at h with hok hneg hbig htext
    obtain ⟨n, hn⟩ := eq_ofNat_of_zero_le (not_lt.mp hneg)
    rw [hn] at hbig htext
    obtain ⟨text, ds, hwrit, hds, hcanon, hvalue⟩ :=
      @intToString_component n (by omega)
    rw [not_not, hwrit] at htext
    cases htext
    exact ⟨ds, hds, hcanon, by omega⟩
  · rintro ⟨ds, hds, hcanon, hle⟩
    have hconv := @converts_signed _ charType .int rfl c
    have hden : Denotes charType 10 c false ds :=
      ⟨[], [], c, rfl, .none, .none, hds, hcanon.ne_nil⟩
    have hmin : IntType.int.min ≤ signed false (value 10 ds) := by
      show -2 ^ 31 ≤ ((value 10 ds : Nat) : Int)
      omega
    have hmax : signed false (value 10 ds) ≤ IntType.int.max := by
      show ((value 10 ds : Nat) : Int) ≤ 2 ^ 31 - 1
      omega
    have hok := hconv.returns.mpr ⟨false, ds, hden, hmin, hmax⟩
    have hnum : (StringNumbers.stringToInt charType c).1 = (value 10 ds : Nat) :=
      hconv.output false ds hden hmin hmax
    refine ⟨UInt16.ofNat (value 10 ds), ?_⟩
    rw [parseNumber]
    dsimp only
    rw [show (StringNumbers.stringToInt charType c).2 = true from hok, hnum, if_neg (by decide),
      if_neg (by omega), if_neg (by omega),
      if_neg (not_not.mpr (intToString_of_digits hds hcanon hle)), toNat_natCast]

theorem parseNumber_written {c : Bytes} {num : UInt16} (h : parseNumber c = some num) :
    intToString charType num.toNat = some c := by
  unfold parseNumber at h
  dsimp only at h
  split_ifs at h with hok hneg hbig htext
  obtain ⟨n, hn⟩ := eq_ofNat_of_zero_le (not_lt.mp hneg)
  rw [hn] at hbig htext h
  cases h
  rw [toNat_natCast, UInt16.toNat_ofNat', Nat.mod_eq_of_lt (by omega)]
  exact not_not.mp htext

/-! ## The whole string -/

theorem parseNumbers_iff {numbers : List Bytes} :
    (∃ nums, parseNumbers numbers = some nums) ↔ ∀ i ∈ numbers, IsNumber i := by
  induction numbers with
  | nil => exact iff_of_true ⟨[], rfl⟩ nofun
  | cons i numbers ih =>
    rw [forall_mem_cons, ← ih, ← parseNumber_iff, parseNumbers]
    constructor
    · rintro ⟨nums, h⟩
      obtain ⟨num, hnum, hrest⟩ := bind_eq_some_iff.mp h
      obtain ⟨rest, hrest, -⟩ := map_eq_some_iff.mp hrest
      exact ⟨⟨num, hnum⟩, rest, hrest⟩
    · rintro ⟨⟨num, hnum⟩, rest, hrest⟩
      exact ⟨num :: rest, by rw [hnum, hrest]; rfl⟩

theorem appendComponents_written {numbers : List Bytes} (hne : numbers ≠ [])
    {nums : List UInt16} (h : parseNumbers numbers = some nums) :
    nums ≠ [] ∧ appendComponents nums = some ([periodChar].intercalate numbers) := by
  induction numbers generalizing nums with
  | nil => exact absurd rfl hne
  | cons i numbers ih =>
    rw [parseNumbers] at h
    obtain ⟨num, hnum, hmap⟩ := bind_eq_some_iff.mp h
    obtain ⟨rest, hrest, rfl⟩ := map_eq_some_iff.mp hmap
    have hwrit := parseNumber_written hnum
    refine ⟨cons_ne_nil _ _, ?_⟩
    cases numbers with
    | nil =>
      cases hrest
      rw [appendComponents, hwrit, intercalate_singleton]
    | cons j numbers =>
      obtain ⟨hrestNe, hrestWritten⟩ := ih (cons_ne_nil _ _) hrest
      obtain ⟨second, rest, rfl⟩ := exists_cons_of_ne_nil hrestNe
      rw [appendComponents, hwrit, hrestWritten, intercalate_cons_cons]
      · simp
      · exact cons_ne_nil _ _

/-- The trimmed pieces of a string are numbers. -/
def Dotted (s : Bytes) : Prop := ∀ piece ∈ s.splitOn periodChar, IsNumber (trimWhitespace piece)

theorem not_isNumber_nil : ¬IsNumber [] := by
  rintro ⟨ds, hds, hcanon, -⟩
  exact hcanon.ne_nil (map_eq_nil_iff.mp hds.symm)

theorem forall_trimmed_iff {s : Bytes} :
    (∀ i ∈ (s.splitOn periodChar).map trimWhitespace, IsNumber i) ↔ Dotted s :=
  forall_mem_map

/-- What the constructor makes of a string. -/
theorem ofString_cases (s : Bytes) :
    (Dotted s ∧ (ofString s).isValid = true ∧
      (ofString s).getString = some ([periodChar].intercalate
        ((s.splitOn periodChar).map trimWhitespace))) ∨
      (¬Dotted s ∧ (ofString s).isValid = false) := by
  have hsplit := splitString_eq s periodChar
  by_cases hempty : (s.splitOn periodChar).map trimWhitespace = [[]]
  · rw [if_pos hempty] at hsplit
    refine Or.inr ⟨fun hdotted => ?_, ?_⟩
    · rw [← forall_trimmed_iff, hempty] at hdotted
      exact not_isNumber_nil (hdotted [] mem_cons_self)
    · rw [ofString, hsplit]
      rfl
  · rw [if_neg hempty] at hsplit
    have hne : (s.splitOn periodChar).map trimWhitespace ≠ [] := fun h =>
      splitOn_ne_nil _ _ (map_eq_nil_iff.mp h)
    have hstr : ofString s =
        ⟨(parseNumbers ((s.splitOn periodChar).map trimWhitespace)).getD []⟩ := by
      rw [ofString, hsplit]
      exact if_neg (by simp)
    rw [hstr, ← forall_trimmed_iff, ← parseNumbers_iff]
    cases hparse : parseNumbers ((s.splitOn periodChar).map trimWhitespace) with
    | none => exact Or.inr ⟨nofun, rfl⟩
    | some nums =>
      obtain ⟨hnums, hwrit⟩ := appendComponents_written hne hparse
      refine Or.inl ⟨⟨nums, rfl⟩, ?_, hwrit⟩
      cases nums with
      | nil => exact absurd rfl hnums
      | cons _ _ => rfl

theorem IsNumber.not_mem {c : Bytes} (h : IsNumber c) {b : UInt8}
    (hb : StringNumbers.charToDigit 10 b.toNat = none) : b ∉ c := by
  obtain ⟨ds, hds, -⟩ := h
  intro hmem
  have hdigit := hds.digit_of_mem hmem
  rw [show StringNumbers.charToDigit 10 (charType.code b) = none from hb] at hdigit
  cases hdigit

set_option maxRecDepth 4000 in
theorem IsNumber.trimmed {c : Bytes} (h : IsNumber c) : trimWhitespace c = c := by
  refine trimString_of_not_mem fun b hb hspace => h.not_mem ?_ hb
  have hall : ∀ b ∈ kWhitespaceASCII, StringNumbers.charToDigit 10 b.toNat = none := by
    decide
  exact hall b hspace

/-- Numbers with a period between each two of them. -/
def IsDotted (s : Bytes) : Prop :=
  ∃ numbers, numbers ≠ [] ∧ (∀ i ∈ numbers, IsNumber i) ∧ s = [periodChar].intercalate numbers

theorem isDotted_iff {s : Bytes} : IsDotted s ↔ ∀ piece ∈ s.splitOn periodChar, IsNumber piece := by
  constructor
  · rintro ⟨numbers, hne, hnumbers, rfl⟩
    rwa [splitOn_intercalate _ (fun i hi => (hnumbers i hi).not_mem (by decide)) hne]
  · intro h
    exact ⟨_, splitOn_ne_nil _ _, h, (intercalate_splitOn periodChar).symm⟩

/-- Numbers with whitespace around at least one of them, and with a period between each two. -/
def Padded (s : Bytes) : Prop :=
  Dotted s ∧ ∃ piece ∈ s.splitOn periodChar, trimWhitespace piece ≠ piece

/-- A string is a valid version exactly if it is one by its form, and is written as it was, unless
there is whitespace around its numbers. -/
theorem version_strings_iff (s : Bytes) :
    (((ofString s).isValid = true ↔ IsDotted s) ∧
      ((ofString s).isValid = true → (ofString s).getString = some s)) ↔ ¬Padded s := by
  have hdotted (h : IsDotted s) : Dotted s := fun piece hpiece => by
    have hnumber := isDotted_iff.mp h piece hpiece
    rwa [hnumber.trimmed]
  constructor
  · rintro ⟨hvalid, -⟩ ⟨htrimmed, piece, hpiece, hne⟩
    obtain ⟨-, hisValid, -⟩ | ⟨hnot, -⟩ := ofString_cases s
    · exact hne (isDotted_iff.mp (hvalid.mp hisValid) piece hpiece).trimmed
    · exact hnot htrimmed
  · intro hpadded
    obtain ⟨htrimmed, hisValid, hstring⟩ | ⟨hnot, hisValid⟩ := ofString_cases s
    · have hall : ∀ piece ∈ s.splitOn periodChar, trimWhitespace piece = piece :=
        fun piece hpiece => by
          by_contra hne
          exact hpadded ⟨htrimmed, piece, hpiece, hne⟩
      refine ⟨iff_of_true hisValid (isDotted_iff.mpr fun piece hpiece => ?_), fun _ => ?_⟩
      · have hnumber := htrimmed piece hpiece
        rwa [hall piece hpiece] at hnumber
      · rw [hstring, List.map_congr_left hall, List.map_id', List.intercalate_splitOn]
    · rw [hisValid]
      exact ⟨iff_of_false Bool.false_ne_true fun h => hnot (hdotted h), nofun⟩

/-- A space in front of a version is let pass, and is not written. -/
theorem space_in_front :
    (ofString [0x20, 0x31]).isValid = true ∧ (ofString [0x20, 0x31]).getString = some [0x31] ∧
      ¬IsDotted [0x20, 0x31] := by
  refine ⟨by decide, by decide, fun h => ?_⟩
  have hpiece : [0x20, 0x31] ∈ ([0x20, 0x31] : Bytes).splitOn periodChar := by
    rw [splitOn_eq_singleton (by decide)]
    exact mem_cons_self
  exact absurd mem_cons_self ((isDotted_iff.mp h _ hpiece).not_mem (b := 0x20) (by decide))

/-! ## Comparison -/

/-- The loop over the components of both, and the one over those that only one has. -/
def compareComponents : List UInt16 → List UInt16 → Int
  | a :: v, b :: w => if a > b then 1 else if a < b then -1 else compareComponents v w
  | a :: v, [] => if a > 0 then 1 else compareComponents v []
  | [], b :: w => if b > 0 then -1 else compareComponents [] w
  | [], [] => 0

def compareTo (v other : Version) : Int := compareComponents v.components other.components

def isOlderThan (v : Version) (versionStr : Bytes) : Bool :=
  (ofString versionStr).isValid && v.compareTo (ofString versionStr) < 0

/-- The first components that differ are in this order, where zeros stand behind the last. -/
def Older (v w : List UInt16) : Prop :=
  ∃ i, v.getD i 0 < w.getD i 0 ∧ ∀ j < i, v.getD j 0 = w.getD j 0

theorem older_iff (v w : List UInt16) : Older v w ↔
    v.getD 0 0 < w.getD 0 0 ∨ v.getD 0 0 = w.getD 0 0 ∧ Older v.tail w.tail := by
  rw [Older, ← Nat.or_exists_add_one]
  simp only [Nat.forall_lt_succ_left]
  simp [Older, and_left_comm]

theorem compareComponents_iff (v w : List UInt16) :
    (compareComponents v w < 0 ↔ Older v w) ∧ (0 < compareComponents v w ↔ Older w v) := by
  fun_induction compareComponents v w
  case case8 => simp [Older]
  all_goals
    simp only [older_iff (_ :: _) _, older_iff _ (_ :: _), getD_cons_zero, getD_nil, tail_cons,
      tail_nil, gt_iff_lt, UInt16.lt_iff_toNat_lt, ← UInt16.toNat_inj, UInt16.toNat_zero] at *
    grind

/-- CompareTo and IsOlderThan go by the first components that differ, if any do. -/
theorem compareTo_order (v w : Version) (s : Bytes) :
    (v.compareTo w < 0 ↔ Older v.components w.components) ∧
      (0 < v.compareTo w ↔ Older w.components v.components) ∧
      (v.compareTo w = 0 ↔ ∀ i, v.components.getD i 0 = w.components.getD i 0) ∧
      (v.isOlderThan s ↔ (ofString s).isValid ∧ Older v.components (ofString s).components) := by
  obtain ⟨hless, hgreater⟩ := compareComponents_iff v.components w.components
  refine ⟨hless, hgreater, ⟨fun hzero i => ?_, fun hsame => ?_⟩, ?_⟩
  · have hnot : ¬Older v.components w.components ∧ ¬Older w.components v.components := by
      rw [← hless, ← hgreater, ← compareTo, hzero]
      exact ⟨lt_irrefl 0, lt_irrefl 0⟩
    induction i using Nat.strong_induction_on with
    | _ i ih => grind [Older]
  · simp only [Older, hsame] at hless hgreater
    grind [compareTo]
  · rw [← (compareComponents_iff v.components (ofString s).components).1, isOlderThan,
      Bool.and_eq_true, decide_eq_true_iff]
    rfl

end Version

end ChromiumUI.Base
