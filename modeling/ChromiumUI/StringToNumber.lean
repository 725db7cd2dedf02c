import ChromiumUI.NumberConversions
import ChromiumUI.Pickle
import ChromiumUI.Numerals

/-!
# IteratorRangeToNumber and IntToStringT

The templates over a character type and a value type, and their instances. A value of the value
type is an `Int` between its bounds; arithmetic that leaves them wraps.
-/
namespace ChromiumUI.Base.StringNumbers

/-! ## Characters -/

/-- The digit that a character code stands for, as BaseCharToDigit says. -/
def charToDigit (base code : Nat) : Option Nat :=
  if base ≤ 10 then
    if 0x30 ≤ code ∧ code < 0x30 + base then some (code - 0x30) else none
  else if 0x30 ≤ code ∧ code ≤ 0x39 then some (code - 0x30)
  else if 0x61 ≤ code ∧ code < 0x61 + (base - 10) then some (code - 0x61 + 10)
  else if 0x41 ≤ code ∧ code < 0x41 + (base - 10) then some (code - 0x41 + 10)
  else none

/-- CHAR with its WhitespaceHelper, of which no locale says that a sign or a digit is a space. -/
structure CharType (CHAR : Type) where
  code : CHAR → Nat
  ofCode : Nat → CHAR
  isWhitespace : CHAR → Bool
  code_ofCode : ∀ n < 128, code (ofCode n) = n
  graphic : ∀ c, isWhitespace c = true →
    code c ≠ 0x2b ∧ code c ≠ 0x2d ∧ charToDigit 16 (code c) = none

/-- char, with isspace. -/
def charType : CharType UInt8 where
  code := UInt8.toNat
  ofCode := UInt8.ofNat
  isWhitespace := isSpace
  code_ofCode n hn := by
    rw [UInt8.toNat_ofNat']
    omega
  graphic c h := by
    have hcode : c.toNat = 0x20 ∨ (0x09 ≤ c.toNat ∧ c.toNat ≤ 0x0d) := by
      simp only [isSpace, Bool.or_eq_true, beq_iff_eq, Bool.and_eq_true, decide_eq_true_eq,
        ← UInt8.toNat_inj, UInt8.le_iff_toNat_le] at h
      exact h
    refine ⟨by omega, by omega, ?_⟩
    simp only [charToDigit]
    split_ifs <;> first | rfl | omega

/-- char16, with the iswspace of the locale. -/
def char16Type (iswspace : UInt16 → Bool)
    (graphic : ∀ c, iswspace c = true →
      c.toNat ≠ 0x2b ∧ c.toNat ≠ 0x2d ∧ charToDigit 16 c.toNat = none) : CharType UInt16 where
  code := UInt16.toNat
  ofCode := UInt16.ofNat
  isWhitespace := iswspace
  code_ofCode n hn := by
    rw [UInt16.toNat_ofNat']
    omega
  graphic := graphic

/-! ## Value types -/

/-- An integer type of C++. -/
structure IntType where
  bits : Nat
  signed : Bool
  bits_eq : bits = 32 ∨ bits = 64

namespace IntType

def int : IntType := ⟨32, true, .inl rfl⟩

def unsignedInt : IntType := ⟨32, false, .inl rfl⟩

theorem bits_sixty_four : 64 = 32 ∨ 64 = 64 := .inr rfl

def int64 : IntType := ⟨64, true, bits_sixty_four⟩

def uint64 : IntType := ⟨64, false, bits_sixty_four⟩

def sizeT (target : Target) : IntType := ⟨target.sizeBits, false, target.sizeBits_eq⟩

variable (t : IntType)

/-- std::numeric_limits<T>::min(). -/
def min : Int := if t.signed then -2 ^ (t.bits - 1) else 0

/-- std::numeric_limits<T>::max(). -/
def max : Int := if t.signed then 2 ^ (t.bits - 1) - 1 else 2 ^ t.bits - 1

/-- static_cast<T>. -/
def wrap (v : Int) : Int := if t.signed then v.bmod (2 ^ t.bits) else v % (2 ^ t.bits : Nat)

end IntType

/-! ## Strings to numbers -/

/-- IteratorRangeToNumberTraits; `max` may be of another type than the values. -/
structure Traits where
  valueType : IntType
  base : Nat
  min : Int
  max : Int

/-- BaseIteratorRangeToNumberTraits. -/
def baseTraits (valueType : IntType) (base : Nat) : Traits :=
  ⟨valueType, base, valueType.min, valueType.max⟩

@[simp] theorem baseTraits_valueType (t : IntType) (base : Nat) :
    (baseTraits t base).valueType = t := rfl

@[simp] theorem baseTraits_base (t : IntType) (base : Nat) : (baseTraits t base).base = base := rfl

@[simp] theorem baseTraits_min (t : IntType) (base : Nat) : (baseTraits t base).min = t.min := rfl

@[simp] theorem baseTraits_max (t : IntType) (base : Nat) : (baseTraits t base).max = t.max := rfl

/-- BaseHexIteratorRangeToIntTraits: 0xFFFFFFFF may overflow. -/
def baseHexTraits : Traits := { baseTraits .int 16 with max := IntType.unsignedInt.max }

namespace Traits

variable {CHAR : Type} (ct : CharType CHAR) (t : Traits)

/-- CheckBounds of Positive or Negative: whether the next digit may be appended. -/
def checkBounds (negative : Bool) (output : Int) (newDigit : Nat) : Bool :=
  if negative then
    !(output < t.min.tdiv t.base ||
      (output == t.min.tdiv t.base && (newDigit : Int) > 0 - t.min.tmod t.base))
  else
    !(output > t.valueType.wrap (t.max.tdiv t.base) ||
      (output == t.valueType.wrap (t.max.tdiv t.base) && (newDigit : Int) > t.max.tmod t.base))

/-- What CheckBounds leaves in the output when it refuses a digit. -/
def clamped (negative : Bool) : Int := if negative then t.min else t.valueType.wrap t.max

/-- Increment of Positive or Negative. -/
def increment (negative : Bool) (newDigit : Nat) (output : Int) : Int :=
  t.valueType.wrap (if negative then output - newDigit else output + newDigit)

/-- The digit loop of Base::Invoke: the output, and what is returned. -/
def digitLoop (negative : Bool) : Bool → Int → List CHAR → Int × Bool
  | _, output, [] => (output, true)
  | first, output, c :: cs =>
    match charToDigit t.base (ct.code c) with
    | none => (output, false)
    | some newDigit =>
      if first then digitLoop negative false (t.increment negative newDigit output) cs
      else if t.checkBounds negative output newDigit then
        digitLoop negative false
          (t.increment negative newDigit (t.valueType.wrap (output * t.base))) cs
      else (t.clamped negative, false)

/-- Base::Invoke. -/
def invokeSign (negative : Bool) : List CHAR → Int × Bool
  | [] => (0, false)
  | zero :: x :: c :: cs =>
    if t.base = 16 ∧ ct.code zero = 0x30 ∧ (ct.code x = 0x78 ∨ ct.code x = 0x58) then
      t.digitLoop ct negative true 0 (c :: cs)
    else t.digitLoop ct negative true 0 (zero :: x :: c :: cs)
  | input => t.digitLoop ct negative true 0 input

/-- IteratorRangeToNumber::Invoke. -/
def invoke : List CHAR → Int × Bool
  | [] => t.invokeSign ct false []
  | c :: cs =>
    if ct.isWhitespace c then ((invoke cs).1, false)
    else if ct.code c = 0x2d then t.invokeSign ct true cs
    else if ct.code c = 0x2b then t.invokeSign ct false cs
    else t.invokeSign ct false (c :: cs)

end Traits

section Functions

variable {CHAR : Type} (ct : CharType CHAR) (input : List CHAR)

/-- StringToIntImpl and String16ToIntImpl. -/
def stringToIntImpl (valueType : IntType) : Int × Bool := (baseTraits valueType 10).invoke ct input

def stringToInt : Int × Bool := stringToIntImpl ct input .int

def stringToUint : Int × Bool := stringToIntImpl ct input .unsignedInt

def stringToInt64 : Int × Bool := stringToIntImpl ct input .int64

def stringToUint64 : Int × Bool := stringToIntImpl ct input .uint64

def stringToSizeT (target : Target) : Int × Bool := stringToIntImpl ct input (.sizeT target)

def hexStringToInt : Int × Bool := baseHexTraits.invoke ct input

end Functions

/-! ## Numbers to strings -/

/-- An integer type with as many bits and no sign. -/
def IntType.toUnsignedType (t : IntType) : IntType := ⟨t.bits, false, t.bits_eq⟩

section IntToString

variable {CHAR : Type} (ct : CharType CHAR) (t : IntType)

/-- ToUnsignedT::ToUnsigned. -/
def toUnsigned (value : Int) : Nat :=
  (t.toUnsignedType.wrap
    (if t.signed then if value < 0 then t.wrap (-value) else value else value)).toNat

/-- The loop of IntToString. The iterator is an index into the buffer, of which `written` is what
stands from the iterator on; `none` is a failed DCHECK. -/
def writeDigits (isNeg : Bool) : Nat → Nat → List CHAR → Option (List CHAR)
  | _, 0, _ => none
  | res, it + 1, written =>
    if it = 0 then none
    else
      let written := ct.ofCode (res % 10 + 0x30) :: written
      if res / 10 = 0 then
        if isNeg then
          if it - 1 = 0 then none else some (ct.ofCode 0x2d :: written)
        else some written
      else writeDigits isNeg (res / 10) it written

/-- IntToStringT::IntToString. -/
def intToStringT (value : Int) : Option (List CHAR) :=
  let kOutputBufSize := 3 * (t.bits / 8) + 1
  writeDigits ct (t.signed && decide (value < 0)) (toUnsigned t value) kOutputBufSize []

def intToString (value : Int) : Option (List CHAR) := intToStringT ct .int value

def int64ToString (value : Int) : Option (List CHAR) := intToStringT ct .int64 value

end IntToString

/-! ## What the string-to-number templates read

A string that denotes a number, and the loop over its digits up to the first one that CheckBounds
refuses. Where CheckBounds refuses a digit exactly when the number would leave its bounds, the
conversion is exact. -/

open Numerals List Int Bool

/-! ## Value types -/

namespace IntType

variable {t : IntType}

/-- A value of the type is not changed by a cast to it. -/
theorem wrap_of_mem {v : Int} (hmin : t.min ≤ v) (hmax : v ≤ t.max) : t.wrap v = v := by
  obtain ⟨bits, signed, rfl | rfl⟩ := t <;> cases signed <;>
    simp only [min, max, wrap, if_true, false_eq_true, if_false, Int.bmod] at * <;> omega

/-- Multiplying and adding may be done before the casts. -/
theorem wrap_mul_add (v b d : Int) : t.wrap (t.wrap (t.wrap v * b) + d) = t.wrap (v * b + d) := by
  unfold wrap
  split_ifs <;> simp [add_emod, mul_emod]

theorem min_nonpos : t.min ≤ 0 := by
  obtain ⟨bits, signed, rfl | rfl⟩ := t <;> cases signed <;> decide

theorem nine_le_max : 9 ≤ t.max := by
  obtain ⟨bits, signed, rfl | rfl⟩ := t <;> cases signed <;> decide

end IntType

/-! ## Numerals -/

/-- The number with a minus sign, or without. -/
def signed (negative : Bool) (v : Nat) : Int := if negative then -v else v

variable {CHAR : Type} {ct : CharType CHAR} {t : Traits} {negative : Bool}

theorem charToDigit_lt {base code d : Nat} (h : charToDigit base code = some d) : d < base := by
  unfold charToDigit at h
  split_ifs at h with hsmall hdigit hdigit hlower hupper <;>
    (have heq := Option.some.inj h; omega)

/-- Digits of a lower base are digits of base 16. -/
theorem charToDigit_isSome {base code : Nat} (hbase : base ≤ 16)
    (h : (charToDigit base code).isSome) : (charToDigit 16 code).isSome := by
  unfold charToDigit at *
  split_ifs at * <;> first | rfl | (cases h; done) | omega

/-- The characters are digits, and stand for these. -/
def DigitsOf (ct : CharType CHAR) (base : Nat) (cs : List CHAR) (ds : List Nat) : Prop :=
  cs.map (fun c => charToDigit base (ct.code c)) = ds.map some

/-- An optional sign. -/
inductive Sign (ct : CharType CHAR) : Bool → List CHAR → Prop
  | none : Sign ct false []
  | plus {c : CHAR} (h : ct.code c = 0x2b) : Sign ct false [c]
  | minus {c : CHAR} (h : ct.code c = 0x2d) : Sign ct true [c]

/-- An optional 0x or 0X, which only numbers in base 16 have. -/
inductive Prefix (ct : CharType CHAR) (base : Nat) : List CHAR → Prop
  | none : Prefix ct base []
  | hex {zero x : CHAR} (hbase : base = 16) (hzero : ct.code zero = 0x30)
      (hx : ct.code x = 0x78 ∨ ct.code x = 0x58) : Prefix ct base [zero, x]

/-- The string is an optional sign, an optional prefix, and one digit or more. -/
def Denotes (ct : CharType CHAR) (base : Nat) (s : List CHAR) (negative : Bool) (ds : List Nat) :
    Prop :=
  ∃ sign pre cs, s = sign ++ (pre ++ cs) ∧ Sign ct negative sign ∧ Prefix ct base pre ∧
    DigitsOf ct base cs ds ∧ ds ≠ []

namespace DigitsOf

variable {base d : Nat} {c : CHAR} {cs : List CHAR} {ds : List Nat}

theorem nil : DigitsOf ct base [] [] := rfl

theorem cons (hc : charToDigit base (ct.code c) = some d) (h : DigitsOf ct base cs ds) :
    DigitsOf ct base (c :: cs) (d :: ds) := by
  rw [DigitsOf, map_cons, map_cons, hc, h]

theorem cons_inv (h : DigitsOf ct base (c :: cs) ds) :
    ∃ d ds', ds = d :: ds' ∧ charToDigit base (ct.code c) = some d ∧ DigitsOf ct base cs ds' := by
  cases ds with
  | nil => cases h
  | cons d ds' =>
    obtain ⟨hc, hcs⟩ := List.cons.inj h
    exact ⟨d, ds', rfl, hc, hcs⟩

section

variable (h : DigitsOf ct base cs ds)
include h

theorem digit_of_mem (hc : c ∈ cs) : (charToDigit base (ct.code c)).isSome := by
  have hmem : charToDigit base (ct.code c) ∈ ds.map some := h ▸ mem_map_of_mem hc
  obtain ⟨d, -, hd⟩ := mem_map.mp hmem
  rw [← hd]
  rfl

theorem lt_of_mem : ∀ d ∈ ds, d < base := by
  intro d hd
  have hmem : some d ∈ cs.map fun c => charToDigit base (ct.code c) := h ▸ mem_map_of_mem hd
  obtain ⟨c, -, hc⟩ := mem_map.mp hmem
  exact charToDigit_lt hc

theorem ne_nil (hne : ds ≠ []) : cs ≠ [] := by
  rintro rfl
  exact hne (map_eq_nil_iff.mp h.symm)

end

end DigitsOf

/-! ## The loop over the digits -/

variable {cs s : List CHAR} {ds : List Nat}

namespace Traits

/-- The output once these digits are read. -/
def outputOf (t : Traits) (negative : Bool) (ds : List Nat) : Int :=
  t.valueType.wrap (signed negative (value t.base ds))

/-- CheckBounds lets every digit pass but the first, which it is not asked about. -/
def AllPass (t : Traits) (negative : Bool) (ds : List Nat) : Prop :=
  ∀ p d, p ≠ [] → p ++ [d] <+: ds → t.checkBounds negative (t.outputOf negative p) d = true

theorem increment_outputOf (p : List Nat) (d : Nat) :
    t.increment negative d (t.valueType.wrap (t.outputOf negative p * t.base)) =
      t.outputOf negative (p ++ [d]) := by
  unfold increment outputOf signed
  rw [value_concat]
  cases negative with
  | true =>
    have h := @IntType.wrap_mul_add t.valueType (-(value t.base p : Int)) t.base (-d)
    simp only [if_true, ← sub_eq_add_neg] at h ⊢
    rw [h]
    push_cast
    ring_nf
  | false =>
    have h := @IntType.wrap_mul_add t.valueType (value t.base p : Int) t.base d
    simp only [false_eq_true, if_false] at h ⊢
    rw [h]
    push_cast
    rfl

theorem increment_first (d : Nat) : t.increment negative d 0 = t.outputOf negative [d] := by
  unfold increment outputOf signed
  rw [value_singleton]
  cases negative <;> simp

/-- A loop that takes all characters has read digits. -/
theorem digits_of_digitLoop {first : Bool} {output : Int}
    (h : (t.digitLoop ct negative first output cs).2 = true) : ∃ ds, DigitsOf ct t.base cs ds := by
  induction cs generalizing first output with
  | nil => exact ⟨[], .nil⟩
  | cons c cs ih =>
    rw [digitLoop] at h
    cases hc : charToDigit t.base (ct.code c) with
    | none => simp [hc] at h
    | some d =>
      simp only [hc] at h
      split_ifs at h with hfirst hbounds
      · obtain ⟨ds, hds⟩ := ih h
        exact ⟨d :: ds, hds.cons hc⟩
      · obtain ⟨ds, hds⟩ := ih h
        exact ⟨d :: ds, hds.cons hc⟩

theorem digitLoop_cons {c : CHAR} {p : List Nat} {d : Nat}
    (hc : charToDigit t.base (ct.code c) = some d) :
    t.digitLoop ct negative false (t.outputOf negative p) (c :: cs) =
      if t.checkBounds negative (t.outputOf negative p) d then
        t.digitLoop ct negative false (t.outputOf negative (p ++ [d])) cs
      else (t.clamped negative, false) := by
  rw [digitLoop]
  simp only [hc, false_eq_true, if_false]
  rw [increment_outputOf]

/-- From digits already read on: all of the others pass. -/
theorem digitLoop_pass {p : List Nat} {rest : List CHAR} (h : DigitsOf ct t.base cs ds)
    (hpass : ∀ q d, q ++ [d] <+: ds →
      t.checkBounds negative (t.outputOf negative (p ++ q)) d = true) :
    t.digitLoop ct negative false (t.outputOf negative p) (cs ++ rest) =
      t.digitLoop ct negative false (t.outputOf negative (p ++ ds)) rest := by
  induction cs generalizing p ds with
  | nil =>
    obtain rfl := map_eq_nil_iff.mp h.symm
    rw [nil_append, append_nil]
  | cons c cs ih =>
    obtain ⟨d, ds, rfl, hc, hcs⟩ := h.cons_inv
    have hfirst := hpass [] d (cons_prefix_cons.mpr ⟨rfl, nil_prefix⟩)
    rw [append_nil] at hfirst
    rw [cons_append, digitLoop_cons hc, if_pos hfirst, ih hcs, append_assoc,
      singleton_append]
    intro q e hq
    have hcheck := hpass (d :: q) e (cons_prefix_cons.mpr ⟨rfl, hq⟩)
    rwa [append_assoc]

/-- From digits already read on: one of the others is refused. -/
theorem digitLoop_refuse {p : List Nat} {rest : List CHAR} (h : DigitsOf ct t.base cs ds)
    (hrefuse : ∃ q d, q ++ [d] <+: ds ∧
      t.checkBounds negative (t.outputOf negative (p ++ q)) d = false) :
    t.digitLoop ct negative false (t.outputOf negative p) (cs ++ rest) =
      (t.clamped negative, false) := by
  induction cs generalizing p ds with
  | nil =>
    obtain rfl := map_eq_nil_iff.mp h.symm
    obtain ⟨q, d, hq, -⟩ := hrefuse
    simpa using prefix_nil.mp hq
  | cons c cs ih =>
    obtain ⟨d, ds, rfl, hc, hcs⟩ := h.cons_inv
    rw [cons_append, digitLoop_cons hc]
    by_cases hfirst : t.checkBounds negative (t.outputOf negative p) d = true
    · rw [if_pos hfirst]
      refine ih hcs ?_
      obtain ⟨q, e, hq, hcheck⟩ := hrefuse
      cases q with
      | nil =>
        obtain ⟨rfl, -⟩ := cons_prefix_cons.mp hq
        rw [append_nil, hfirst] at hcheck
        cases hcheck
      | cons d' q =>
        obtain ⟨rfl, hq'⟩ := cons_prefix_cons.mp hq
        refine ⟨q, e, hq', ?_⟩
        rwa [append_assoc]
    · rw [if_neg hfirst]

/-- A loop from the start, up to the first digit that is refused. -/
theorem digitLoop_first {ds : List Nat} {cs rest : List CHAR} (h : DigitsOf ct t.base cs ds)
    (hne : ds ≠ []) :
    (t.AllPass negative ds → t.digitLoop ct negative true 0 (cs ++ rest) =
      t.digitLoop ct negative false (t.outputOf negative ds) rest) ∧
    (¬ t.AllPass negative ds → t.digitLoop ct negative true 0 (cs ++ rest) =
      (t.clamped negative, false)) := by
  cases cs with
  | nil => exact absurd (map_eq_nil_iff.mp h.symm) hne
  | cons c cs =>
    obtain ⟨d, ds, rfl, hc, hcs⟩ := h.cons_inv
    have hstep : t.digitLoop ct negative true 0 (c :: cs ++ rest) =
        t.digitLoop ct negative false (t.outputOf negative [d]) (cs ++ rest) := by
      rw [cons_append, digitLoop]
      simp only [hc, if_true]
      rw [increment_first]
    rw [hstep]
    constructor
    · intro hpass
      rw [digitLoop_pass hcs, singleton_append]
      intro q e hq
      exact hpass (d :: q) e (cons_ne_nil _ _) (cons_prefix_cons.mpr ⟨rfl, hq⟩)
    · intro hnot
      refine digitLoop_refuse hcs ?_
      unfold AllPass at hnot
      push Not at hnot
      obtain ⟨q, e, hqne, hq, hcheck⟩ := hnot
      cases q with
      | nil => exact absurd rfl hqne
      | cons d' q =>
        obtain ⟨rfl, hq'⟩ := cons_prefix_cons.mp hq
        exact ⟨q, e, hq', eq_false_iff.mpr hcheck⟩

/-! ## The sign and the prefix -/

theorem invoke_whitespace {ws : List CHAR} (h : ∀ c ∈ ws, ct.isWhitespace c = true) :
    t.invoke ct (ws ++ s) = ((t.invoke ct s).1, ws.isEmpty && (t.invoke ct s).2) := by
  induction ws with
  | nil => rfl
  | cons c ws ih =>
    rw [cons_append, invoke, if_pos (h c mem_cons_self),
      ih fun d hd => h d (mem_cons_of_mem _ hd)]
    rfl

theorem invokeSign_of_pre {pre : List CHAR} (hpre : Prefix ct t.base pre)
    (h : DigitsOf ct t.base cs ds) (hne : ds ≠ []) {rest : List CHAR}
    (hrest : t.base = 16 → rest = []) :
    t.invokeSign ct negative (pre ++ (cs ++ rest)) =
      t.digitLoop ct negative true 0 (cs ++ rest) := by
  have hcs := h.ne_nil hne
  cases hpre with
  | hex hbase hzero hx =>
    obtain ⟨c, cs', hsplit⟩ :=
      exists_cons_of_ne_nil (append_ne_nil_of_left_ne_nil hcs rest)
    rw [hsplit, cons_append, cons_append, nil_append, invokeSign,
      if_pos ⟨hbase, hzero, hx⟩]
  | none =>
    rw [nil_append]
    match hsplit : cs ++ rest with
    | [] => exact absurd (append_eq_nil_iff.mp hsplit).1 hcs
    | [c] => rfl
    | [c, x] => rfl
    | zero :: x :: c :: cs' =>
      rw [invokeSign, if_neg]
      rintro ⟨hbase, -, hx⟩
      -- all of the characters are digits, and x is none
      rw [hrest hbase, append_nil] at hsplit
      have hdigit : (charToDigit t.base (ct.code x)).isSome := h.digit_of_mem (by simp [hsplit])
      rw [hbase] at hdigit
      rcases hx with hx | hx <;> simp [hx, charToDigit] at hdigit

/-- What is read after the sign: the loop over the digits and what stands behind them. -/
theorem invoke_of_denotes {sign pre cs : List CHAR} {ds : List Nat} (hsign : Sign ct negative sign)
    (hpre : Prefix ct t.base pre) (h : DigitsOf ct t.base cs ds) (hne : ds ≠ []) {rest : List CHAR}
    (hrest : t.base = 16 → rest = []) (hbase : t.base ≤ 16) :
    t.invoke ct (sign ++ (pre ++ (cs ++ rest))) = t.digitLoop ct negative true 0 (cs ++ rest) := by
  rw [← invokeSign_of_pre hpre h hne hrest]
  cases hsign with
  | plus hc =>
    rename_i c
    have hspace : ct.isWhitespace c = false := by
      by_contra hs
      exact (ct.graphic c (by simpa using hs)).1 hc
    rw [cons_append, nil_append, invoke, hspace]
    simp [hc]
  | minus hc =>
    rename_i c
    have hspace : ct.isWhitespace c = false := by
      by_contra hs
      exact (ct.graphic c (by simpa using hs)).2.1 hc
    rw [cons_append, nil_append, invoke, hspace]
    simp [hc]
  | none =>
    rw [nil_append]
    obtain ⟨c, cs', hsplit, hdigit⟩ : ∃ c cs', pre ++ (cs ++ rest) = c :: cs' ∧
        (charToDigit 16 (ct.code c)).isSome := by
      cases hpre with
      | hex _ hzero _ => exact ⟨_, _, rfl, by rw [hzero]; rfl⟩
      | none =>
        obtain ⟨c, cs', rfl⟩ := exists_cons_of_ne_nil (h.ne_nil hne)
        refine ⟨c, cs' ++ rest, rfl, ?_⟩
        exact charToDigit_isSome hbase (h.digit_of_mem mem_cons_self)
    have hspace : ct.isWhitespace c = false := by
      by_contra hs
      rw [(ct.graphic c (by simpa using hs)).2.2] at hdigit
      cases hdigit
    have hminus : ct.code c ≠ 0x2d := fun hc => by simp [hc, charToDigit] at hdigit
    have hplus : ct.code c ≠ 0x2b := fun hc => by simp [hc, charToDigit] at hdigit
    rw [hsplit, invoke, hspace]
    simp [hminus, hplus]

/-- The strings that denote a number, with spaces before them and, unless the base is 16, anything
behind them: whether all digits pass decides what is read. -/
theorem invoke_cases (h : Denotes ct t.base s negative ds) (hbase : t.base ≤ 16) :
    (t.AllPass negative ds → t.invoke ct s = (t.outputOf negative ds, true)) ∧
    (¬ t.AllPass negative ds → ∀ ws rest : List CHAR, (∀ c ∈ ws, ct.isWhitespace c = true) →
      (t.base = 16 → rest = []) →
        t.invoke ct (ws ++ (s ++ rest)) = (t.clamped negative, false)) := by
  obtain ⟨sign, pre, cs, rfl, hsign, hpre, hcs, hne⟩ := h
  have hfirst := fun rest => @digitLoop_first _ ct t negative _ _ rest hcs hne
  constructor
  · intro hpass
    have hread := @invoke_of_denotes _ ct t _ _ _ _ _ hsign hpre hcs hne [] (fun _ => rfl) hbase
    rw [append_nil] at hread
    rw [hread, ← append_nil cs, (hfirst []).1 hpass, digitLoop]
  · intro hnot ws rest hws hrest
    have hread := invoke_of_denotes hsign hpre hcs hne hrest hbase
    rw [append_assoc, append_assoc, invoke_whitespace hws, hread, (hfirst rest).2 hnot,
      Bool.and_false]

theorem denotes_of_invokeSign {sign : List CHAR} (hsign : Sign ct negative sign)
    (h : (t.invokeSign ct negative s).2 = true) :
    ∃ ds, Denotes ct t.base (sign ++ s) negative ds := by
  have hplain : ∀ cs : List CHAR, cs ≠ [] → (t.digitLoop ct negative true 0 cs).2 = true →
      ∃ ds, Denotes ct t.base (sign ++ cs) negative ds := by
    intro cs hne hloop
    obtain ⟨ds, hds⟩ := digits_of_digitLoop hloop
    refine ⟨ds, sign, [], cs, rfl, hsign, .none, hds, ?_⟩
    rintro rfl
    exact hne (map_eq_nil_iff.mp hds)
  match s with
  | [] => cases h
  | [c] => exact hplain [c] (cons_ne_nil _ _) h
  | [c, x] => exact hplain [c, x] (cons_ne_nil _ _) h
  | zero :: x :: c :: cs =>
    rw [invokeSign] at h
    split_ifs at h with hhex
    · obtain ⟨ds, hds⟩ := digits_of_digitLoop h
      refine ⟨ds, sign, [zero, x], c :: cs, rfl, hsign, .hex hhex.1 hhex.2.1 hhex.2.2, hds, ?_⟩
      rintro rfl
      cases hds
    · exact hplain _ (cons_ne_nil _ _) h

/-- Nothing is converted but what denotes a number. -/
theorem denotes_of_invoke (h : (t.invoke ct s).2 = true) :
    ∃ negative ds, Denotes ct t.base s negative ds := by
  cases s with
  | nil => cases h
  | cons c cs =>
    rw [invoke] at h
    split_ifs at h with hspace hminus hplus
    · exact ⟨true, denotes_of_invokeSign (.minus hminus) h⟩
    · exact ⟨false, denotes_of_invokeSign (.plus hplus) h⟩
    · exact ⟨false, denotes_of_invokeSign .none h⟩

/-! ## Exact conversions -/

/-- The number is within the bounds of the traits. -/
def Within (t : Traits) (negative : Bool) (v : Nat) : Prop :=
  if negative then t.min ≤ -v else v ≤ t.max

theorem Within.mono {v w : Nat} (h : t.Within negative w) (hle : v ≤ w) : t.Within negative v := by
  unfold Within at *
  split_ifs at * <;> omega

/-- CheckBounds refuses a digit exactly when the number would leave the bounds. -/
structure Exact (t : Traits) (negative : Bool) : Prop where
  base_pos : 0 < t.base
  digit : ∀ d < t.base, t.Within negative d
  check : ∀ v d, t.Within negative v → d < t.base →
    (t.checkBounds negative (t.valueType.wrap (signed negative v)) d = true ↔
      t.Within negative (v * t.base + d))

theorem Exact.allPass_iff (hexact : Exact t negative) (hne : ds ≠ []) (hlt : ∀ d ∈ ds, d < t.base) :
    t.AllPass negative ds ↔ t.Within negative (value t.base ds) := by
  constructor
  · intro hpass
    -- from the first digit on, each prefix stays within the bounds
    have hpre : ∀ p, p <+: ds → p ≠ [] → t.Within negative (value t.base p) := by
      intro p
      induction p using List.reverseRecOn with
      | nil => exact fun _ h => absurd rfl h
      | append_singleton p d ih =>
        intro hp _
        have hd := hlt d (hp.subset (by simp))
        by_cases hnil : p = []
        · subst hnil
          rw [nil_append, value_singleton]
          exact hexact.digit d hd
        · have hwithin := ih ((prefix_append p [d]).trans hp) hnil
          rw [value_concat]
          exact (hexact.check _ d hwithin hd).mp (hpass p d hnil hp)
    exact hpre ds (prefix_refl _) hne
  · intro hwithin p d _ hp
    have hconcat := hwithin.mono (value_le_of_isPrefix hexact.base_pos hp)
    have hd := hlt d (hp.subset (by simp))
    refine (hexact.check _ d (hwithin.mono (value_le_of_isPrefix hexact.base_pos
      ((prefix_append p [d]).trans hp))) hd).mpr ?_
    rwa [← value_concat]

theorem checkBounds_positive {max v d : Nat} (hmax : t.max = max) (hd : d < t.base)
    (hfits : t.valueType.wrap (max / t.base : Nat) = (max / t.base : Nat)) :
    t.checkBounds false v d = true ↔ v * t.base + d ≤ max := by
  have hexceeds := @exceeds_iff t.base v d max hd
  have hdiv : (max : Int).tdiv t.base = (max / t.base : Nat) := rfl
  have hmod : (max : Int).tmod t.base = (max % t.base : Nat) := rfl
  rw [checkBounds, if_neg Bool.false_ne_true, hmax, hdiv, hmod, hfits]
  simp only [not_eq_true', or_eq_false_iff, and_eq_false_iff,
    decide_eq_false_iff_not, beq_eq_false_iff_ne, ne_eq]
  omega

theorem checkBounds_negative {low v d : Nat} (hmin : t.min = -low) (hd : d < t.base) :
    t.checkBounds true (-v) d = true ↔ v * t.base + d ≤ low := by
  have hexceeds := @exceeds_iff t.base v d low hd
  have hdiv : (-(low : Int)).tdiv t.base = -(low / t.base : Nat) := Int.neg_tdiv ..
  have hmod : (-(low : Int)).tmod t.base = -(low % t.base : Nat) := neg_tmod ..
  rw [checkBounds, if_pos rfl, hmin, hdiv, hmod]
  simp only [not_eq_true', or_eq_false_iff, and_eq_false_iff,
    decide_eq_false_iff_not, beq_eq_false_iff_ne, ne_eq]
  omega

end Traits

end ChromiumUI.Base.StringNumbers
