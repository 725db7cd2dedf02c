import ChromiumUI.StringToNumber

/-!
# Hexadecimal conversions

HexStringToInt compares a signed output with an unsigned maximum. Behind eight digits the output
may be negative, and a digit more is then let pass.
-/
namespace ChromiumUI.Base.StringNumbers

open Numerals List Bool IntType

variable {CHAR : Type} {ct : CharType CHAR} {s : List CHAR} {ds : List Nat}

/-- The number may be converted: 32 bits, or the numbers below zero that an int has. -/
def HexFits (negative : Bool) (v : Nat) : Prop := if negative then v ≤ 2 ^ 31 else v ≤ 2 ^ 32 - 1

/-- What HexStringToInt promises of a string. -/
structure HexConverts (ct : CharType CHAR) (s : List CHAR) (result : Int × Bool) : Prop where
  returns : result.2 = true ↔
    ∃ negative ds, Denotes ct 16 s negative ds ∧ HexFits negative (value 16 ds)
  output : ∀ negative ds, Denotes ct 16 s negative ds → HexFits negative (value 16 ds) →
    result.1 = int.wrap (signed negative (value 16 ds))
  refuses : ∀ negative ds, Denotes ct 16 s negative ds → ¬ HexFits negative (value 16 ds) →
    result.2 = false

/-- The digits with eight or more behind them, which a number of 32 bits has no room for. -/
def highDigits (ds : List Nat) : List Nat := ds.take (ds.length - 8)

/-- Digits without a minus sign that do not fit into 32 bits, and of those with eight or more behind
them every one is 0 or at least 8. -/
def HexWraps (ct : CharType CHAR) (s : List CHAR) : Prop :=
  ∃ ds, Denotes ct 16 s false ds ∧ (∃ d ∈ highDigits ds, d ≠ 0) ∧
    ∀ d ∈ highDigits ds, d = 0 ∨ 8 ≤ d

theorem exact_hex_negative : Traits.Exact baseHexTraits true := by
  have hfits : ∀ v, baseHexTraits.Within true v ↔ v ≤ 2 ^ 31 := by
    intro v
    rw [Traits.Within, if_pos rfl, show baseHexTraits.min = -2 ^ 31 from rfl]
    omega
  refine ⟨by decide, fun d hd => (hfits d).mpr ?_, fun v d hv hd => ?_⟩
  · have : d < 16 := hd
    omega
  · have hle := (hfits v).mp hv
    have hwrap : baseHexTraits.valueType.wrap (signed true v) = -(v : Int) :=
      wrap_of_mem (by
        show -2 ^ 31 ≤ -(v : Int)
        omega) (by
        show -(v : Int) ≤ 2 ^ 31 - 1
        omega)
    have hmin : baseHexTraits.min = -(2147483648 : Nat) := by decide
    have hcheck := @Traits.checkBounds_negative baseHexTraits _ v d hmin hd
    rw [show baseHexTraits.base = 16 from rfl] at hcheck ⊢
    rw [hwrap, hcheck, hfits]
    omega

/-- The next digit passes when the highest of the last eight is 0 or makes the output negative. -/
theorem checkBounds_hex {v d : Nat} (hd : d < 16) :
    baseHexTraits.checkBounds false (baseHexTraits.valueType.wrap v) d = true ↔
      v / 16 ^ 7 % 16 = 0 ∨ 8 ≤ v / 16 ^ 7 % 16 := by
  have hdiv : baseHexTraits.valueType.wrap (baseHexTraits.max.tdiv baseHexTraits.base) =
    268435455 := by decide
  have hmod : baseHexTraits.max.tmod baseHexTraits.base = 15 := by decide
  have hwrap : baseHexTraits.valueType.wrap v = (v : Int).bmod (2 ^ 32) := by
    rw [show baseHexTraits.valueType = .int from rfl, wrap,
      show int.bits = 32 from rfl, show int.signed = true from rfl, if_pos rfl]
  rw [Traits.checkBounds, if_neg Bool.false_ne_true, hdiv, hmod, hwrap, Int.bmod]
  simp only [not_eq_true', or_eq_false_iff, and_eq_false_iff,
    decide_eq_false_iff_not, beq_eq_false_iff_ne, ne_eq]
  split_ifs <;> omega

theorem mem_highDigits {d : Nat} : d ∈ highDigits ds ↔ ∃ q r, ds = q ++ d :: r ∧ 8 ≤ r.length := by
  constructor
  · intro hd
    obtain ⟨q, r, hq⟩ := append_of_mem hd
    refine ⟨q, r ++ ds.drop (ds.length - 8), ?_, ?_⟩
    · calc ds = highDigits ds ++ ds.drop (ds.length - 8) := (take_append_drop _ _).symm
        _ = q ++ d :: (r ++ ds.drop (ds.length - 8)) := by
          rw [hq, append_assoc, cons_append]
    · have hlen : 0 < (highDigits ds).length := length_pos_of_mem hd
      rw [highDigits, length_take] at hlen
      rw [length_append, length_drop]
      omega
  · rintro ⟨q, r, rfl, hr⟩
    rw [highDigits, mem_take_iff_getElem]
    refine ⟨q.length, ?_, ?_⟩
    · rw [length_append, length_cons]
      omega
    · simp

theorem allPass_hex (hlt : ∀ d ∈ ds, d < 16) :
    baseHexTraits.AllPass false ds ↔ ∀ d ∈ highDigits ds, d = 0 ∨ 8 ≤ d := by
  -- the highest of the last eight digits of a prefix
  have hhighest : ∀ {q r : List Nat} {d : Nat}, (∀ e ∈ q ++ d :: r, e < 16) → r.length = 7 →
      value 16 (q ++ d :: r) / 16 ^ 7 % 16 = d := by
    intro q r d hall hr
    have hbehind : ∀ e ∈ r, e < 16 := fun e he => hall e (by simp [he])
    have hdigit := value_div_mod (q := q) (by decide) (hall d (by simp)) hbehind
    rwa [hr] at hdigit
  constructor
  · intro hpass d hd
    obtain ⟨q, rest, hds, hrest⟩ := mem_highDigits.mp hd
    obtain ⟨e, tail, htail⟩ := exists_cons_of_length_pos (l := rest.drop 7) (by
      rw [length_drop]
      omega)
    have hsplit : ds = (q ++ d :: rest.take 7) ++ [e] ++ tail := by
      rw [hds, append_assoc, append_assoc, singleton_append, ← htail,
        cons_append, take_append_drop]
    have hpre : (q ++ d :: rest.take 7) ++ [e] <+: ds := ⟨tail, hsplit.symm⟩
    have hcheck := hpass _ e (by simp) hpre
    have hdigits : ∀ x ∈ q ++ d :: rest.take 7, x < 16 := fun x hx =>
      hlt x (hpre.subset (mem_append_left _ hx))
    have hlast := (checkBounds_hex (hlt e (hpre.subset (by simp)))).mp hcheck
    have hvalue := hhighest hdigits (by
      rw [length_take]
      omega)
    rw [show baseHexTraits.base = 16 from rfl, hvalue] at hlast
    exact hlast
  · intro hall p e hne hpre
    refine (checkBounds_hex (hlt e (hpre.subset (by simp)))).mpr ?_
    have hdigits : ∀ x ∈ p, x < 16 := fun x hx => hlt x (hpre.subset (mem_append_left _ hx))
    rw [show baseHexTraits.base = 16 from rfl]
    by_cases hshort : p.length < 8
    · have hvalue := value_lt (by decide) hdigits
      have hpow : 16 ^ p.length ≤ 16 ^ 7 := Nat.pow_le_pow_right (by decide) (by omega)
      omega
    · obtain ⟨d, r, hr⟩ := exists_cons_of_length_pos (l := p.drop (p.length - 8)) (by
        rw [length_drop]
        omega)
      have hlen : r.length = 7 := by
        have := congrArg length hr
        rw [length_drop, length_cons] at this
        omega
      have hp : p = p.take (p.length - 8) ++ d :: r := by rw [← hr, take_append_drop]
      rw [hp] at hdigits hpre ⊢
      rw [hhighest hdigits hlen]
      obtain ⟨tail, htail⟩ := hpre
      refine hall d (mem_highDigits.mpr ⟨p.take (p.length - 8), r ++ [e] ++ tail, ?_, ?_⟩)
      · rw [← htail]
        simp only [append_assoc, cons_append]
      · simp only [length_append, length_singleton]
        omega

theorem hexFits_iff (hlt : ∀ d ∈ ds, d < 16) :
    HexFits false (value 16 ds) ↔ ∀ d ∈ highDigits ds, d = 0 := by
  rw [← value_eq_zero (b := 16) (by decide), HexFits, if_neg Bool.false_ne_true]
  have hsplit := value_append (b := 16) (highDigits ds) (ds.drop (ds.length - 8))
  rw [highDigits, take_append_drop, length_drop] at hsplit
  have hlow := value_lt (b := 16) (by decide) fun d hd => hlt d (mem_of_mem_drop (l := ds)
    (i := ds.length - 8) hd)
  rw [length_drop] at hlow
  rw [highDigits]
  by_cases hshort : ds.length < 8
  · have hpow : 16 ^ (ds.length - (ds.length - 8)) ≤ 16 ^ 8 :=
      Nat.pow_le_pow_right (by decide) (by omega)
    rw [show ds.length - 8 = 0 by omega, take_zero, value_nil] at *
    omega
  · rw [show ds.length - (ds.length - 8) = 8 by omega] at *
    omega

/-- Whether all digits of a string without a minus sign pass. -/
theorem hexStringToInt_positive (h : Denotes ct 16 s false ds) :
    hexStringToInt ct s = if ∀ d ∈ highDigits ds, d = 0 ∨ 8 ≤ d then
      (int.wrap (signed false (value 16 ds)), true) else (-1, false) := by
  have hcases := baseHexTraits.invoke_cases h (by decide)
  have hlt : ∀ d ∈ ds, d < 16 := by
    obtain ⟨_, _, _, -, -, -, hcs, -⟩ := h
    exact hcs.lt_of_mem
  rw [allPass_hex hlt] at hcases
  split_ifs with hpass
  · exact hcases.1 hpass
  · have hread := hcases.2 hpass [] [] nofun fun _ => rfl
    rw [nil_append, append_nil] at hread
    exact hread

theorem hexStringToInt_negative (h : Denotes ct 16 s true ds) :
    hexStringToInt ct s = if value 16 ds ≤ 2 ^ 31 then
      (int.wrap (signed true (value 16 ds)), true) else (-2 ^ 31, false) := by
  have hcases := baseHexTraits.invoke_cases h (by decide)
  have hwithin : baseHexTraits.AllPass true ds ↔ value 16 ds ≤ 2 ^ 31 := by
    obtain ⟨_, _, _, -, -, -, hcs, hne⟩ := h
    rw [exact_hex_negative.allPass_iff hne hcs.lt_of_mem, Traits.Within, if_pos rfl,
      show baseHexTraits.min = -2 ^ 31 from rfl, show baseHexTraits.base = 16 from rfl]
    omega
  rw [hwithin] at hcases
  split_ifs with hfits
  · exact hcases.1 hfits
  · have hread := hcases.2 hfits [] [] nofun fun _ => rfl
    rw [nil_append, append_nil] at hread
    exact hread

/-- What a string without a minus sign must not be. -/
theorem hexFits_of_pass (h : Denotes ct 16 s false ds) (hnot : ¬ HexWraps ct s)
    (hpass : ∀ d ∈ highDigits ds, d = 0 ∨ 8 ≤ d) : HexFits false (value 16 ds) := by
  have hlt : ∀ d ∈ ds, d < 16 := by
    obtain ⟨_, _, _, -, -, -, hcs, -⟩ := h
    exact hcs.lt_of_mem
  rw [hexFits_iff hlt]
  by_contra hsome
  push Not at hsome
  exact hnot ⟨ds, h, hsome, hpass⟩

/-- HexStringToInt keeps its promise exactly for the strings that do not wrap around. -/
theorem hexStringToInt_exact_iff (ct : CharType CHAR) (s : List CHAR) :
    HexConverts ct s (hexStringToInt ct s) ↔ ¬ HexWraps ct s := by
  constructor
  · rintro h ⟨ds, hdenotes, ⟨d, hd, hne⟩, hpass⟩
    have hread := hexStringToInt_positive hdenotes
    rw [if_pos hpass] at hread
    have hrefused := h.refuses false ds hdenotes fun hfits => by
      obtain ⟨_, _, _, -, -, -, hcs, -⟩ := hdenotes
      exact hne ((hexFits_iff hcs.lt_of_mem).mp hfits d hd)
    rw [hread] at hrefused
    cases hrefused
  · intro hnot
    have hread : ∀ negative ds, Denotes ct 16 s negative ds → HexFits negative (value 16 ds) →
        hexStringToInt ct s = (int.wrap (signed negative (value 16 ds)), true) := by
      intro negative ds h hfits
      cases negative with
      | true =>
        rw [hexStringToInt_negative h]
        exact if_pos hfits
      | false =>
        rw [hexStringToInt_positive h, if_pos]
        obtain ⟨_, _, _, -, -, -, hcs, -⟩ := h
        exact fun d hd => Or.inl ((hexFits_iff hcs.lt_of_mem).mp hfits d hd)
    have hrefuse : ∀ negative ds, Denotes ct 16 s negative ds → ¬ HexFits negative (value 16 ds) →
        (hexStringToInt ct s).2 = false := by
      intro negative ds h hout
      cases negative with
      | true =>
        rw [hexStringToInt_negative h]
        exact congrArg Prod.snd (if_neg hout)
      | false =>
        rw [hexStringToInt_positive h, if_neg fun hpass => hout (hexFits_of_pass h hnot hpass)]
    refine ⟨⟨fun h => ?_, ?_⟩, fun negative ds h hfits => ?_, hrefuse⟩
    · obtain ⟨negative, ds, hdenotes⟩ := Traits.denotes_of_invoke h
      refine ⟨negative, ds, hdenotes, ?_⟩
      by_contra hout
      rw [hrefuse negative ds hdenotes hout] at h
      cases h
    · rintro ⟨negative, ds, h, hfits⟩
      rw [hread negative ds h hfits]
    · rw [hread negative ds h hfits]

/-- Nine digits F are accepted, as -1. -/
theorem nine_digits_accepted :
    hexStringToInt charType (replicate 9 0x46) = (-1, true) ∧
      ¬ HexConverts charType (replicate 9 0x46)
        (hexStringToInt charType (replicate 9 0x46)) := by
  refine ⟨by decide, fun h => ?_⟩
  have hrefused := h.refuses false (replicate 9 15)
    ⟨[], [], _, rfl, .none, .none, rfl, by decide⟩ (by unfold HexFits; decide)
  exact absurd hrefused (by decide)

/-! ## Bytes -/

def kHexChars : Bytes := (range 16).map fun n => UInt8.ofNat (if n < 10 then 0x30 + n else 0x37 + n)

def hexEncode (bytes : Bytes) : Bytes :=
  bytes.flatMap fun b => [kHexChars.getD (b.toNat / 16) 0, kHexChars.getD (b.toNat % 16) 0]

/-- The loop of HexStringToBytesT, which is not run for an odd number of characters. -/
def pairsToBytes : Bytes → Option Bytes
  | [] => some []
  | [_] => none
  | c :: c' :: input =>
    (charToDigit 16 c.toNat).bind fun msb => (charToDigit 16 c'.toNat).bind fun lsb =>
      (pairsToBytes input).map (UInt8.ofNat (16 * msb + lsb) :: ·)

def hexStringToBytes (input : Bytes) : Option Bytes :=
  if input = [] then none else pairsToBytes input

/-- A digit as HexEncode writes it. -/
def upper (c : UInt8) : UInt8 := if 0x61 ≤ c ∧ c ≤ 0x66 then c - 0x20 else c

theorem charToDigit_iff (c : UInt8) : ∀ n < 16,
    charToDigit 16 c.toNat = some n ↔ upper c = kHexChars.getD n 0 := by
  have hall : ∀ code : Fin 256, ∀ n < 16, charToDigit 16 code = some n ↔
      upper (UInt8.ofNat code) = kHexChars.getD n 0 := by
    decide +kernel
  simpa using hall ⟨c.toNat, c.toNat_lt⟩

theorem pairsToBytes_iff {input bytes : Bytes} :
    pairsToBytes input = some bytes ↔ input.map upper = hexEncode bytes := by
  induction input using pairsToBytes.induct generalizing bytes with
  | case1 | case2 => cases bytes <;> simp [pairsToBytes, hexEncode]
  | case3 c c' input ih =>
    simp only [pairsToBytes, Option.bind_eq_some_iff, Option.map_eq_some_iff, ih]
    cases bytes with
    | nil => simp [hexEncode]
    | cons b bytes =>
      have hb := b.toNat_lt
      have hdigits := charToDigit_iff c (b.toNat / 16) (by omega)
      have hdigits' := charToDigit_iff c' (b.toNat % 16) (by omega)
      have hright : (c :: c' :: input).map upper = hexEncode (b :: bytes) ↔
          charToDigit 16 c.toNat = some (b.toNat / 16) ∧
            charToDigit 16 c'.toNat = some (b.toNat % 16) ∧ input.map upper = hexEncode bytes := by
        simp [hexEncode, hdigits, hdigits']
      rw [hright]
      constructor
      · rintro ⟨msb, hmsb, lsb, hlsb, a, hrest, hcons⟩
        obtain ⟨rfl, rfl⟩ := cons.inj hcons
        have hmsb' := charToDigit_lt hmsb
        have hlsb' := charToDigit_lt hlsb
        rw [UInt8.toNat_ofNat', hmsb, hlsb]
        exact ⟨by congr; omega, by congr; omega, hrest⟩
      · rintro ⟨hmsb, hlsb, hrest⟩
        exact ⟨_, hmsb, _, hlsb, bytes, hrest, by rw [Nat.div_add_mod, UInt8.ofNat_toNat]⟩

/-- The strings that HexStringToBytes takes are what HexEncode writes of the bytes it returns, in
upper or lower case. -/
theorem hexStringToBytes_iff (input bytes : Bytes) :
    hexStringToBytes input = some bytes ↔ bytes ≠ [] ∧ input.map upper = hexEncode bytes := by
  rw [hexStringToBytes]
  split_ifs with hnil
  · cases bytes <;> simp [hnil, hexEncode]
  · rw [pairsToBytes_iff, iff_and_self]
    rintro heq rfl
    exact hnil (map_eq_nil_iff.mp heq)

end ChromiumUI.Base.StringNumbers
