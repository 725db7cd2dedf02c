import ChromiumUI.IcuUtf

/-!
# Strings to numbers

IteratorRangeToNumber over bytes, in the two instances the JSON code uses. An `int` is an
`Int`; what overflows one wraps.
-/
namespace ChromiumUI.Base

def intMin : Int := -2 ^ 31

def intMax : Int := 2 ^ 31 - 1

def uintMax : Int := 2 ^ 32 - 1

def wrapInt (v : Int) : Int := v.bmod (2 ^ 32)

/-- isspace in the C locale. -/
def isSpace (c : UInt8) : Bool := c == 0x20 || (0x09 ≤ c && c ≤ 0x0d)

def charToDigit (base : Nat) (c : UInt8) : Option Nat :=
  if base ≤ 10 then
    if 0x30 ≤ c.toNat ∧ c.toNat < 0x30 + base then some (c.toNat - 0x30) else none
  else if 0x30 ≤ c.toNat ∧ c.toNat ≤ 0x39 then some (c.toNat - 0x30)
  else if 0x61 ≤ c.toNat ∧ c.toNat < 0x61 + (base - 10) then some (c.toNat - 0x61 + 10)
  else if 0x41 ≤ c.toNat ∧ c.toNat < 0x41 + (base - 10) then some (c.toNat - 0x41 + 10)
  else none

/-- IteratorRangeToNumberTraits. -/
structure NumberTraits where
  base : Nat
  min : Int
  max : Int

def intTraits : NumberTraits := ⟨10, intMin, intMax⟩

/-- HexIteratorRangeToIntTraits: 0xFFFFFFFF may overflow. -/
def hexTraits : NumberTraits := ⟨16, intMin, uintMax⟩

/-- Increment of Positive or Negative. -/
def increment (negative : Bool) (digit : Nat) (output : Int) : Int :=
  wrapInt (if negative then output - digit else output + digit)

namespace NumberTraits

variable (t : NumberTraits)

/-- Whether the next digit is refused, as CheckBounds of Positive or Negative says. -/
def outOfBounds (negative : Bool) (output : Int) (digit : Nat) : Bool :=
  if negative then
    output < t.min.tdiv t.base ||
      (output == t.min.tdiv t.base && (digit : Int) > 0 - t.min.tmod t.base)
  else
    output > wrapInt (t.max.tdiv t.base) ||
      (output == wrapInt (t.max.tdiv t.base) && (digit : Int) > t.max.tmod t.base)

/-- The digit loop of Base::Invoke: the output, and whether every character was taken. -/
def digitLoop (negative : Bool) : Bool → Int → Bytes → Int × Bool
  | _, output, [] => (output, true)
  | first, output, c :: cs =>
    match charToDigit t.base c with
    | none => (output, false)
    | some digit =>
      if first then digitLoop negative false (increment negative digit output) cs
      else if t.outOfBounds negative output digit then
        (if negative then t.min else wrapInt t.max, false)
      else digitLoop negative false (increment negative digit (wrapInt (output * t.base))) cs

/-- Base::Invoke. -/
def invokeDigits (negative : Bool) (input : Bytes) : Int × Bool :=
  match input with
  | [] => (0, false)
  | 0x30 :: x :: c :: cs =>
    if t.base = 16 ∧ (x = 0x78 ∨ x = 0x58) then t.digitLoop negative true 0 (c :: cs)
    else t.digitLoop negative true 0 (0x30 :: x :: c :: cs)
  | input => t.digitLoop negative true 0 input

/-- IteratorRangeToNumber::Invoke: the output, and whether the input is valid. -/
def invoke : Bytes → Int × Bool
  | [] => t.invokeDigits false []
  | c :: cs =>
    if isSpace c then ((invoke cs).1, false)
    else if c = 0x2d then t.invokeDigits true cs
    else if c = 0x2b then t.invokeDigits false cs
    else t.invokeDigits false (c :: cs)

end NumberTraits

/-- The output of a conversion that succeeds. -/
def convert (t : NumberTraits) (input : Bytes) : Option Int :=
  if (t.invoke input).2 then some (t.invoke input).1 else none

def stringToInt (input : Bytes) : Option Int := convert intTraits input

def hexStringToInt (input : Bytes) : Option Int := convert hexTraits input

end ChromiumUI.Base
