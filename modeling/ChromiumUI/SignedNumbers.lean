import ChromiumUI.StringToNumber

/-!
# Conversions to and from signed integers

StringToInt and StringToInt64 are exact, and read back what IntToString and Int64ToString write.
-/
namespace ChromiumUI.Base.StringNumbers

open Numerals List Nat Int Bool IntType

variable {CHAR : Type} {ct : CharType CHAR}

/-- What a conversion to this type promises of a string of decimal digits, signed or not. -/
structure Converts (ct : CharType CHAR) (t : IntType) (s : List CHAR) (result : Int × Bool) :
    Prop where
  returns : result.2 = true ↔ ∃ negative ds, Denotes ct 10 s negative ds ∧
    t.min ≤ signed negative (value 10 ds) ∧ signed negative (value 10 ds) ≤ t.max
  output : ∀ negative ds, Denotes ct 10 s negative ds →
    t.min ≤ signed negative (value 10 ds) → signed negative (value 10 ds) ≤ t.max →
      result.1 = signed negative (value 10 ds)
  above : ∀ negative ds, Denotes ct 10 s negative ds → t.max < signed negative (value 10 ds) →
    result = (t.max, false)
  below : ∀ negative ds, Denotes ct 10 s negative ds → signed negative (value 10 ds) < t.min →
    result = (t.min, false)

section

variable {t : IntType} {negative : Bool} {s : List CHAR} {ds : List Nat}

/-- The bounds of the traits are those of the type, on the side where the number lies. -/
theorem within_iff {v : Nat} :
    (baseTraits t 10).Within negative v ↔
      t.min ≤ signed negative v ∧ signed negative v ≤ t.max := by
  have hmin := @IntType.min_nonpos t
  have hmax := @IntType.nine_le_max t
  unfold Traits.Within signed
  cases negative with
  | true =>
    simp only [baseTraits_min, if_true]
    omega
  | false =>
    simp only [baseTraits_max, false_eq_true, if_false]
    omega

/-- Without a minus sign, every conversion to a type of its own bounds is exact. -/
theorem exact_positive (t : IntType) : Traits.Exact (baseTraits t 10) false := by
  have hmin := @IntType.min_nonpos t
  have hmax := @IntType.nine_le_max t
  obtain ⟨max, hcast⟩ := eq_ofNat_of_zero_le (show 0 ≤ t.max by omega)
  refine ⟨succ_pos 9, fun d hd => ?_, fun v d hv hd => ?_⟩
  · rw [baseTraits_base] at hd
    rw [Traits.Within, if_neg Bool.false_ne_true, baseTraits_max]
    omega
  · have hle := within_iff.mp hv
    rw [baseTraits_valueType, wrap_of_mem hle.1 hle.2]
    refine (Traits.checkBounds_positive (t := baseTraits t 10) hcast hd ?_).trans ?_
    · refine wrap_of_mem (hmin.trans (natCast_nonneg _)) ?_
      rw [baseTraits_valueType, hcast]
      exact_mod_cast div_le_self _ _
    · rw [Traits.Within, if_neg Bool.false_ne_true, baseTraits_max, hcast]
      norm_cast

/-- With a minus sign, a conversion to a signed type is exact. -/
theorem exact_negative (hsigned : t.signed = true) : Traits.Exact (baseTraits t 10) true := by
  obtain ⟨low, hlow⟩ := exists_eq_neg_ofNat (@IntType.min_nonpos t)
  have hnine : t.min ≤ -9 := by
    obtain ⟨bits, signed, rfl | rfl⟩ := t <;> cases hsigned <;> decide
  refine ⟨succ_pos 9, fun d hd => ?_, fun v d hv hd => ?_⟩
  · rw [baseTraits_base] at hd
    rw [Traits.Within, if_pos rfl, baseTraits_min]
    omega
  · have hle := within_iff.mp hv
    rw [baseTraits_valueType, wrap_of_mem hle.1 hle.2]
    refine (Traits.checkBounds_negative (t := baseTraits t 10) hlow hd).trans ?_
    rw [Traits.Within, if_pos rfl, baseTraits_min, hlow]
    omega

/-- What is left in the output by a digit that is refused. -/
theorem clamped_eq : (baseTraits t 10).clamped negative = if negative then t.min else t.max := by
  have hmin := @IntType.min_nonpos t
  have hmax := @IntType.nine_le_max t
  rw [Traits.clamped, baseTraits_min, baseTraits_max, baseTraits_valueType,
    wrap_of_mem (by omega) (le_refl _)]

/-- A conversion keeps its promise if it does so for all strings that denote a number. -/
theorem converts_of_reads
    (hread : ∀ negative ds, Denotes ct 10 s negative ds → t.min ≤ signed negative (value 10 ds) →
      signed negative (value 10 ds) ≤ t.max →
        stringToIntImpl ct s t = (signed negative (value 10 ds), true))
    (hclamp : ∀ negative ds, Denotes ct 10 s negative ds →
      ¬ (t.min ≤ signed negative (value 10 ds) ∧ signed negative (value 10 ds) ≤ t.max) →
        stringToIntImpl ct s t = (if negative then t.min else t.max, false)) :
    Converts ct t s (stringToIntImpl ct s t) := by
  have hmin := @IntType.min_nonpos t
  have hmax := @IntType.nine_le_max t
  refine ⟨⟨fun h => ?_, ?_⟩, ?_, ?_, ?_⟩
  · obtain ⟨negative, ds, hden⟩ := Traits.denotes_of_invoke h
    refine ⟨negative, ds, hden, ?_⟩
    by_contra hout
    rw [hclamp negative ds hden hout] at h
    cases h
  · rintro ⟨negative, ds, hden, hlow, hhigh⟩
    rw [hread negative ds hden hlow hhigh]
  · intro negative ds hden hlow hhigh
    rw [hread negative ds hden hlow hhigh]
  · intro negative ds hden habove
    rw [hclamp negative ds hden fun h => absurd h.2 (by omega)]
    cases negative with
    | false => rfl
    | true =>
      simp only [signed, if_true] at habove
      omega
  · intro negative ds hden hbelow
    rw [hclamp negative ds hden fun h => absurd h.1 (by omega)]
    cases negative with
    | true => rfl
    | false =>
      simp only [signed, false_eq_true, if_false] at hbelow
      omega

/-- Where the conversion is exact, whether all digits pass is whether the number fits. -/
theorem allPass_iff_fits (hexact : Traits.Exact (baseTraits t 10) negative)
    (h : Denotes ct 10 s negative ds) : (baseTraits t 10).AllPass negative ds ↔
      t.min ≤ signed negative (value 10 ds) ∧ signed negative (value 10 ds) ≤ t.max := by
  obtain ⟨_, _, _, -, -, -, hcs, hne⟩ := h
  exact (hexact.allPass_iff hne hcs.lt_of_mem).trans within_iff

theorem reads_of_exact (hexact : Traits.Exact (baseTraits t 10) negative)
    (h : Denotes ct 10 s negative ds) (hlow : t.min ≤ signed negative (value 10 ds))
    (hhigh : signed negative (value 10 ds) ≤ t.max) :
    stringToIntImpl ct s t = (signed negative (value 10 ds), true) := by
  have hall := ((baseTraits t 10).invoke_cases h (by decide : 10 ≤ 16)).1
    ((allPass_iff_fits hexact h).mpr ⟨hlow, hhigh⟩)
  rw [stringToIntImpl, hall, Traits.outputOf, baseTraits_valueType, baseTraits_base,
    wrap_of_mem hlow hhigh]

/-- Where the conversion is exact, digits that overflow clamp the output, spaces before them and
anything behind them or not. -/
theorem clamps_of_exact (hexact : Traits.Exact (baseTraits t 10) negative)
    (h : Denotes ct 10 s negative ds)
    (hout : ¬ (t.min ≤ signed negative (value 10 ds) ∧ signed negative (value 10 ds) ≤ t.max))
    {ws rest : List CHAR} (hws : ∀ c ∈ ws, ct.isWhitespace c = true) :
    stringToIntImpl ct (ws ++ (s ++ rest)) t = (if negative then t.min else t.max, false) := by
  have hall := ((baseTraits t 10).invoke_cases h (by decide : 10 ≤ 16)).2
    (fun hpass => hout ((allPass_iff_fits hexact h).mp hpass)) ws rest hws (fun h => by cases h)
  rw [stringToIntImpl, hall, clamped_eq]

end

theorem exact_signed {t : IntType} (hsigned : t.signed = true) (negative : Bool) :
    Traits.Exact (baseTraits t 10) negative := by
  cases negative with
  | true => exact exact_negative hsigned
  | false => exact exact_positive t

theorem converts_signed {t : IntType} (hsigned : t.signed = true) (s : List CHAR) :
    Converts ct t s (stringToIntImpl ct s t) := by
  refine converts_of_reads (fun negative ds h => reads_of_exact (exact_signed hsigned negative) h)
    fun negative ds h hout => ?_
  have hclamp : stringToIntImpl ct ([] ++ (s ++ [])) t =
      (if negative then t.min else t.max, false) :=
    clamps_of_exact (exact_signed hsigned negative) h hout nofun
  rwa [nil_append, append_nil] at hclamp

/-! ## Numbers to strings -/

theorem toUnsigned_eq {t : IntType} (hsigned : t.signed = true) {v : Int} (hmin : t.min ≤ v)
    (hmax : v ≤ t.max) : toUnsigned t v = v.natAbs := by
  obtain ⟨bits, signed, rfl | rfl⟩ := t <;> cases hsigned <;>
    simp only [toUnsigned, IntType.toUnsignedType, IntType.min, IntType.max, IntType.wrap, if_true,
      false_eq_true, if_false, bmod] at * <;> split_ifs <;> omega

theorem charToDigit_ofCode {d : Nat} (hd : d < 10) :
    charToDigit 10 (ct.code (ct.ofCode (d + 0x30))) = some d := by
  rw [ct.code_ofCode _ (by omega), charToDigit, if_pos (by decide), if_pos (by omega),
    Nat.add_sub_cancel]

theorem DigitsOf.append {base : Nat} {cs cs' : List CHAR} {ds ds' : List Nat}
    (h : DigitsOf ct base cs ds) (h' : DigitsOf ct base cs' ds') :
    DigitsOf ct base (cs ++ cs') (ds ++ ds') := by
  rw [DigitsOf, map_append, map_append, h, h']

/-- What stands in front of the digits that IntToString writes. -/
def minusSign (ct : CharType CHAR) (isNeg : Bool) : List CHAR :=
  if isNeg then [ct.ofCode 0x2d] else []

theorem sign_minusSign (isNeg : Bool) : Sign ct isNeg (minusSign ct isNeg) := by
  cases isNeg with
  | true => exact .minus (ct.code_ofCode _ (by decide))
  | false => exact .none

/-- The loop has room for the digits and the sign, and writes what denotes the number. -/
theorem writeDigits_denotes {isNeg : Bool} {res it k : Nat} {written : List CHAR}
    (hres : res < 10 ^ (k + 1)) (hroom : k + 1 + isNeg.toNat < it) :
    ∃ cs ds, writeDigits ct isNeg res it written = some (minusSign ct isNeg ++ (cs ++ written)) ∧
      DigitsOf ct 10 cs ds ∧ Canonical ds ∧ value 10 ds = res := by
  induction it generalizing res k written with
  | zero => omega
  | succ it ih =>
    have hdigit : DigitsOf ct 10 [ct.ofCode (res % 10 + 0x30)] [res % 10] :=
      DigitsOf.nil.cons (charToDigit_ofCode (mod_lt _ (by decide)))
    simp only [writeDigits, if_neg (show it ≠ 0 by omega)]
    by_cases hlast : res / 10 = 0
    · have hvalue : value 10 [res % 10] = res := by
        rw [value_singleton]
        omega
      have hcanon : Canonical [res % 10] :=
        ⟨cons_ne_nil _ _, fun h => congrArg (fun d => [d]) (Option.some.inj h)⟩
      rw [if_pos hlast]
      cases isNeg with
      | true =>
        have hit : it - 1 ≠ 0 := by
          rw [toNat_true] at hroom
          omega
        rw [if_pos rfl, if_neg hit]
        exact ⟨_, _, rfl, hdigit, hcanon, hvalue⟩
      | false =>
        rw [if_neg Bool.false_ne_true]
        exact ⟨_, _, rfl, hdigit, hcanon, hvalue⟩
    · rw [if_neg hlast]
      cases k with
      | zero => omega
      | succ k =>
        obtain ⟨cs, ds, hwrite, hcs, hcanon, hvalue⟩ :=
          @ih (res / 10) k (ct.ofCode (res % 10 + 0x30) :: written) (by omega) (by omega)
        refine ⟨cs ++ [ct.ofCode (res % 10 + 0x30)], ds ++ [res % 10], ?_, hcs.append hdigit,
          ⟨by simp, fun hhead => ?_⟩, ?_⟩
        · rw [hwrite, append_assoc cs, singleton_append]
        · -- a first digit 0 would be all that the quotient has
          rw [head?_append_of_ne_nil _ hcanon.ne_nil] at hhead
          rw [hcanon.zero hhead, value_singleton] at hvalue
          exact absurd hvalue.symm hlast
        · rw [value_concat, hvalue]
          omega

/-- What IntToString writes is read back. -/
theorem reads_intToStringT {t : IntType} (hsigned : t.signed = true) {v : Int} (hmin : t.min ≤ v)
    (hmax : v ≤ t.max) :
    ∃ text, intToStringT ct t v = some text ∧ stringToIntImpl ct text t = (v, true) := by
  have hroom : ∃ k, v.natAbs < 10 ^ (k + 1) ∧
      k + 1 + (t.signed && decide (v < 0)).toNat < 3 * (t.bits / 8) + 1 := by
    have hsign := toNat_le (t.signed && decide (v < 0))
    obtain ⟨bits, signed, rfl | rfl⟩ := t <;> cases hsigned <;>
      simp only [IntType.min, IntType.max, if_true] at hmin hmax
    · refine ⟨9, by omega, ?_⟩
      show 9 + 1 + _ < 13
      omega
    · refine ⟨18, by omega, ?_⟩
      show 18 + 1 + _ < 25
      omega
  obtain ⟨k, hlt, hroom⟩ := hroom
  rw [← toUnsigned_eq hsigned hmin hmax] at hlt
  obtain ⟨cs, ds, hwrite, hcs, hcanon, hvalue⟩ :=
    @writeDigits_denotes _ ct _ _ _ _ [] hlt hroom
  rw [append_nil] at hwrite
  refine ⟨_, hwrite, ?_⟩
  have hden : Denotes ct 10 (minusSign ct (t.signed && decide (v < 0)) ++ cs)
      (t.signed && decide (v < 0)) ds :=
    ⟨_, [], cs, rfl, sign_minusSign _, .none, hcs, hcanon.ne_nil⟩
  have hv : signed (t.signed && decide (v < 0)) (value 10 ds) = v := by
    rw [hvalue, toUnsigned_eq hsigned hmin hmax, hsigned, Bool.true_and, signed]
    by_cases hneg : v < 0
    · rw [decide_eq_true hneg, if_pos rfl]
      omega
    · rw [decide_eq_false hneg, if_neg Bool.false_ne_true]
      omega
  have hread := reads_of_exact (exact_signed hsigned _) hden
  rw [hv] at hread
  exact hread hmin hmax

/-- StringToInt and StringToInt64 convert exactly the numbers that fit, clamp the others, whatever
stands around the digits, and read back what IntToString and Int64ToString write. -/
theorem signed_conversions_exact (ct : CharType CHAR) :
    (∀ s, Converts ct .int s (stringToInt ct s) ∧ Converts ct .int64 s (stringToInt64 ct s)) ∧
    (∀ t, t = int ∨ t = int64 → ∀ ws s rest negative ds,
      (∀ c ∈ ws, ct.isWhitespace c = true) → Denotes ct 10 s negative ds →
        (t.max < signed negative (value 10 ds) →
          stringToIntImpl ct (ws ++ (s ++ rest)) t = (t.max, false)) ∧
        (signed negative (value 10 ds) < t.min →
          stringToIntImpl ct (ws ++ (s ++ rest)) t = (t.min, false))) ∧
    (∀ v : BitVec 32, ∃ text, intToString ct v.toInt = some text ∧
      stringToInt ct text = (v.toInt, true)) ∧
    (∀ v : BitVec 64, ∃ text, int64ToString ct v.toInt = some text ∧
      stringToInt64 ct text = (v.toInt, true)) := by
  refine ⟨fun s => ⟨converts_signed rfl s, converts_signed rfl s⟩, ?_, fun v => ?_, fun v => ?_⟩
  · intro t ht ws s rest negative ds hws h
    have hsigned : t.signed = true := by rcases ht with rfl | rfl <;> rfl
    have hmin := @IntType.min_nonpos t
    have hmax := @IntType.nine_le_max t
    have hclamp := fun hout => @clamps_of_exact _ ct t _ _ _ (exact_signed hsigned negative) h hout
      ws rest hws
    constructor
    · intro habove
      rw [hclamp fun hfits => absurd hfits.2 (by omega)]
      cases negative with
      | false => rfl
      | true =>
        simp only [signed, if_true] at habove
        omega
    · intro hbelow
      rw [hclamp fun hfits => absurd hfits.1 (by omega)]
      cases negative with
      | true => rfl
      | false =>
        simp only [signed, false_eq_true, if_false] at hbelow
        omega
  · exact reads_intToStringT (t := .int) rfl v.le_toInt (le_sub_one_of_lt v.toInt_lt)
  · exact reads_intToStringT (t := .int64) rfl v.le_toInt (le_sub_one_of_lt v.toInt_lt)

/-! ## Conversions to unsigned integers

After a minus sign the digits are subtracted from zero, and CheckBounds refuses a digit only where
the output is zero: most negative numbers are accepted, and wrap. -/

variable {CHAR : Type} {ct : CharType CHAR} {t : IntType} {s : List CHAR} {ds : List Nat}

/-- A minus sign and digits that are not all zeros, none but zeros behind a multiple of 2^bits. -/
def WrapsAround (ct : CharType CHAR) (bits : Nat) (s : List CHAR) : Prop :=
  ∃ ds, Denotes ct 10 s true ds ∧ 0 < value 10 ds ∧
    ∀ p d, p ≠ [] → p ++ [d] <+: ds → 2 ^ bits ∣ value 10 p → d = 0

section

variable (hunsigned : t.signed = false)
include hunsigned

theorem min_unsigned : t.min = 0 := by
  rw [IntType.min, hunsigned, if_neg Bool.false_ne_true]

/-- The digits behind a minus sign pass as long as the output is not zero. -/
theorem allPass_unsigned :
    (baseTraits t 10).AllPass true ds ↔
      ∀ p d, p ≠ [] → p ++ [d] <+: ds → 2 ^ t.bits ∣ value 10 p → d = 0 := by
  have hcheck : ∀ p d,
      (baseTraits t 10).checkBounds true ((baseTraits t 10).outputOf true p) d = true ↔
        (2 ^ t.bits ∣ value 10 p → d = 0) := by
    intro p d
    have hout : (baseTraits t 10).outputOf true p = -(value 10 p : Int) % (2 ^ t.bits : Nat) := by
      rw [Traits.outputOf, baseTraits_valueType, IntType.wrap, hunsigned, if_neg Bool.false_ne_true]
      rfl
    have hpos : 0 ≤ -(value 10 p : Int) % (2 ^ t.bits : Nat) :=
      Int.emod_nonneg _ (by exact_mod_cast (Nat.pow_pos (by decide)).ne')
    have hzero : -(value 10 p : Int) % (2 ^ t.bits : Nat) = 0 ↔ 2 ^ t.bits ∣ value 10 p := by
      rw [← Int.dvd_iff_emod_eq_zero, Int.dvd_neg, Int.natCast_dvd_natCast]
    rw [← hzero, hout, Traits.checkBounds, if_pos rfl, baseTraits_min, min_unsigned hunsigned,
      Int.zero_tdiv, Int.zero_tmod]
    simp only [Bool.not_eq_true', Bool.or_eq_false_iff, Bool.and_eq_false_iff,
      decide_eq_false_iff_not, beq_eq_false_iff_ne, ne_eq]
    omega
  unfold Traits.AllPass
  simp only [hcheck]

/-- A conversion to an unsigned type keeps its promise exactly for the strings that do not wrap. -/
theorem converts_unsigned_iff (s : List CHAR) :
    Converts ct t s (stringToIntImpl ct s t) ↔ ¬ WrapsAround ct t.bits s := by
  have hmin := min_unsigned hunsigned
  have hmax := @IntType.nine_le_max t
  constructor
  · rintro h ⟨ds, hden, hpos, hpass⟩
    have hall := ((baseTraits t 10).invoke_cases hden (by decide : 10 ≤ 16)).1
      ((allPass_unsigned hunsigned).mpr hpass)
    have hbelow := h.below true ds hden (by
      rw [signed, if_pos rfl, hmin]
      omega)
    rw [stringToIntImpl, hall] at hbelow
    exact Bool.noConfusion (congrArg Prod.snd hbelow)
  · intro hnot
    refine converts_of_reads (fun negative ds h hlow hhigh => ?_) fun negative ds h hout => ?_
    · cases negative with
      | false => exact reads_of_exact (exact_positive t) h hlow hhigh
      | true =>
        -- the only number behind a minus sign that fits is zero
        have hzero : value 10 ds = 0 := by
          rw [signed, if_pos rfl, hmin] at hlow
          omega
        have hds := (value_eq_zero (by decide)).mp hzero
        have hall := ((baseTraits t 10).invoke_cases h (by decide : 10 ≤ 16)).1
          ((allPass_unsigned hunsigned).mpr fun p d _ hp _ => hds d (hp.subset (by simp)))
        rw [stringToIntImpl, hall, Traits.outputOf, baseTraits_valueType, baseTraits_base,
          IntType.wrap_of_mem hlow hhigh]
    · cases negative with
      | false =>
        have hclamp := @clamps_of_exact _ ct t false s ds (exact_positive t) h hout [] [] nofun
        rwa [List.nil_append, List.append_nil] at hclamp
      | true =>
        have hpos : 0 < value 10 ds := by
          rw [signed, if_pos rfl, hmin] at hout
          omega
        have hrefused : ¬ (baseTraits t 10).AllPass true ds := fun hpass =>
          hnot ⟨ds, h, hpos, (allPass_unsigned hunsigned).mp hpass⟩
        have hall := ((baseTraits t 10).invoke_cases h (by decide : 10 ≤ 16)).2 hrefused [] []
          nofun fun _ => rfl
        rw [List.nil_append, List.append_nil] at hall
        rw [stringToIntImpl, hall, clamped_eq]

end

/-- StringToUint, StringToUint64 and StringToSizeT keep their promise exactly for the strings that
are not a minus sign and digits that wrap around. -/
theorem unsigned_conversions_exact_iff (ct : CharType CHAR) (target : Target) (s : List CHAR) :
    (Converts ct .unsignedInt s (stringToUint ct s) ↔ ¬ WrapsAround ct 32 s) ∧
    (Converts ct .uint64 s (stringToUint64 ct s) ↔ ¬ WrapsAround ct 64 s) ∧
    (Converts ct (.sizeT target) s (stringToSizeT ct s target) ↔
      ¬ WrapsAround ct target.sizeBits s) :=
  ⟨converts_unsigned_iff rfl s, converts_unsigned_iff rfl s, converts_unsigned_iff rfl s⟩

/-- The string -1 is accepted, as the greatest value. -/
theorem minus_one_accepted :
    stringToUint charType [0x2d, 0x31] = (4294967295, true) ∧
      ¬ Converts charType .unsignedInt [0x2d, 0x31] (stringToUint charType [0x2d, 0x31]) := by
  refine ⟨by decide, fun h => ?_⟩
  have hbelow := h.below true [1] ⟨[0x2d], [], [0x31], rfl, .minus rfl, .none, rfl, by decide⟩
    (by decide)
  exact absurd hbelow (by decide)

end ChromiumUI.Base.StringNumbers
