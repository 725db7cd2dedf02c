import ChromiumUI.ByteMemory

/-!
# UTF-8 and UTF-16

The macros of icu_utf.h that read a code point from UTF-8 and append one, and the tests on
UTF-16 units. A code point is the `Nat` of its `uint32`.
-/
namespace ChromiumUI.Base

open ByteMemory List Nat UInt8

abbrev Bytes := List UInt8

/-- CBU_IS_SURROGATE. -/
def isSurrogate (c : Nat) : Bool := c &&& 0xfffff800 == 0xd800

/-- CBU16_IS_SURROGATE_LEAD. -/
def isSurrogateLead (c : Nat) : Bool := c &&& 0x400 == 0

/-- CBU16_IS_TRAIL. -/
def isTrailUnit (c : Nat) : Bool := c &&& 0xfffffc00 == 0xdc00

/-- CBU16_GET_SUPPLEMENTARY. -/
def getSupplementary (lead trail : Nat) : Nat :=
  lead <<< 10 + trail - (0xd800 <<< 10 + 0xdc00 - 0x10000)

def isValidCharacter (codePoint : Nat) : Bool :=
  codePoint < 0xd800 || (codePoint ≥ 0xe000 && codePoint < 0xfdd0) ||
    (codePoint > 0xfdef && codePoint ≤ 0x10ffff && codePoint &&& 0xfffe != 0xfffe)

/-- The bytes CBU8_APPEND_UNSAFE writes. -/
def appendUnsafe (c : Nat) : Bytes :=
  if c ≤ 0x7f then [ofNat c]
  else if c ≤ 0x7ff then [ofNat (c >>> 6 ||| 0xc0), ofNat (c &&& 0x3f ||| 0x80)]
  else if c ≤ 0xffff then
    [ofNat (c >>> 12 ||| 0xe0), ofNat ((c >>> 6) &&& 0x3f ||| 0x80),
      ofNat (c &&& 0x3f ||| 0x80)]
  else
    [ofNat (c >>> 18 ||| 0xf0), ofNat ((c >>> 12) &&& 0x3f ||| 0x80),
      ofNat ((c >>> 6) &&& 0x3f ||| 0x80), ofNat (c &&& 0x3f ||| 0x80)]

/-- CBU8_IS_LEAD. -/
def isLeadByte (b : UInt8) : Bool := b - 0xc0 < 0x3e

/-- CBU8_IS_TRAIL. -/
def isTrailByte (b : UInt8) : Bool := b &&& 0xc0 == 0x80

/-- utf8_countTrailBytes. -/
def countTrailBytes (b : UInt8) : Nat :=
  if b < 0xc0 then 0 else if b < 0xe0 then 1 else if b < 0xf0 then 2
  else if b < 0xf8 then 3 else if b < 0xfc then 4 else if b < 0xfe then 5 else 0

/-- utf8_minLegal. -/
def minLegal : Nat → Nat
  | 1 => 0x80
  | 2 => 0x800
  | 3 => 0x10000
  | _ => 0

/-- Past at most `n` trail bytes. -/
def skipTrailBytes (mem : Memory) : Nat → Nat → Nat
  | 0, i => i
  | n + 1, i => if isTrailByte (mem i) then skipTrailBytes mem n (i + 1) else i

/-- One trail byte into the code point; whether it is one, and where the next one is. -/
def takeTrail (mem : Memory) : Nat × Bool × Nat → Nat × Bool × Nat
  | (c, illegal, i) =>
    (c <<< 6 ||| ((mem i).toNat &&& 0x3f), illegal || !isTrailByte (mem i), i + 1)

/-- The switch of utf8_nextCharSafeBody over the number of trail bytes: the code point,
`illegal` and the index. -/
def takeTrails (mem : Memory) (c i : Nat) : Nat → Nat × Bool × Nat
  | 1 => takeTrail mem (c, false, i)
  | 2 => takeTrail mem (takeTrail mem (c, false, i))
  | 3 =>
    let first := takeTrail mem (c, false, i)
    if first.1 < 0x110 then takeTrail mem (takeTrail mem first)
    else (first.1, true, first.2.2)
  | _ => (c, true, i)

/-- utf8_nextCharSafeBody with strict -1: the code point if there is one, and the next index. -/
def nextCharSafeBody (mem : Memory) (i length : Nat) (lead : UInt8) : Option Nat × Nat :=
  let count := countTrailBytes lead
  if i + count ≤ length then
    let (c, illegal, j) := takeTrails mem (lead.toNat &&& (1 <<< (6 - count) - 1)) i count
    if illegal || c < minLegal count || isSurrogate c then (none, skipTrailBytes mem count i)
    else (some c, j)
  else (none, skipTrailBytes mem (length - i) i)

/-- CBU8_NEXT. -/
def cbu8Next (mem : Memory) (i length : Nat) : Option Nat × Nat :=
  let b := mem i
  if b ≥ 0x80 then
    if isLeadByte b then nextCharSafeBody mem (i + 1) length b else (none, i + 1)
  else (some b.toNat, i + 1)

/-! ## Bits as arithmetic -/

theorem toNat_ofNat_lt {n : Nat} (h : n < 256) : (ofNat n).toNat = n :=
  mod_eq_of_lt h

variable {b : UInt8}

theorem ofNat_eq_of_toNat {n : Nat} (h : b.toNat = n) : ofNat n = b := by
  rw [← h]
  exact UInt8.ofNat_toNat

theorem or_of_lt {x n : Nat} (k : Nat) (h : x < 2 ^ n) : x ||| k * 2 ^ n = x + k * 2 ^ n := by
  rw [Nat.or_comm, ← Nat.shiftLeft_eq, ← Nat.shiftLeft_add_eq_or_of_lt h, Nat.add_comm]

theorem and_63 (x : Nat) : x &&& 0x3f = x % 64 := and_two_pow_sub_one_eq_mod x 6

theorem trail_bits (x : Nat) : x &&& 0x3f ||| 0x80 = x % 64 + 0x80 := by
  rw [and_63]
  exact or_of_lt 2 (n := 6) (mod_lt x (by decide))

theorem isTrailByte_iff (b : UInt8) : isTrailByte b = true ↔ b.toNat / 64 = 2 := by
  have hbytes : ∀ n : Fin 256, isTrailByte (ofNat n) = true ↔ n.val / 64 = 2 := by
    decide +kernel
  have h := hbytes ⟨b.toNat, b.toNat_lt⟩
  rwa [UInt8.ofNat_toNat] at h

theorem and_high (c k n : Nat) : c &&& ((2 ^ n - 1) * 2 ^ k) = c / 2 ^ k % 2 ^ n * 2 ^ k := by
  have hhigh : (c &&& ((2 ^ n - 1) * 2 ^ k)) / 2 ^ k = c / 2 ^ k % 2 ^ n := by
    rw [← shiftRight_eq_div_pow, shiftRight_and_distrib, shiftRight_eq_div_pow,
      Nat.shiftRight_eq_div_pow, Nat.mul_div_cancel _ (Nat.two_pow_pos k),
      and_two_pow_sub_one_eq_mod]
  have hlow : (c &&& ((2 ^ n - 1) * 2 ^ k)) % 2 ^ k = 0 := by
    rw [and_mod_two_pow, mul_mod_left, and_zero]
  have hsplit := div_add_mod (c &&& ((2 ^ n - 1) * 2 ^ k)) (2 ^ k)
  rw [hhigh, hlow, Nat.add_zero, Nat.mul_comm] at hsplit
  exact hsplit.symm

variable {c : Nat}

theorem isSurrogate_iff (h : c < 2 ^ 32) : isSurrogate c = true ↔ 0xd800 ≤ c ∧ c < 0xe000 := by
  have hbits := and_high c 11 21
  rw [isSurrogate, beq_iff_eq, show 0xfffff800 = (2 ^ 21 - 1) * 2 ^ 11 from rfl, hbits]
  omega

theorem isSurrogateLead_iff (h : isSurrogate c = true) (hc : c < 2 ^ 32) :
    isSurrogateLead c = true ↔ c < 0xdc00 := by
  have hbits := and_high c 10 1
  have hrange := (isSurrogate_iff hc).mp h
  rw [isSurrogateLead, beq_iff_eq, show 0x400 = (2 ^ 1 - 1) * 2 ^ 10 from rfl, hbits]
  omega

theorem isTrailUnit_iff (h : c < 2 ^ 32) : isTrailUnit c = true ↔ 0xdc00 ≤ c ∧ c < 0xe000 := by
  have hbits := and_high c 10 22
  rw [isTrailUnit, beq_iff_eq, show 0xfffffc00 = (2 ^ 22 - 1) * 2 ^ 10 from rfl, hbits]
  omega

/-! ## One code point, written and read -/

/-- A code point that UTF-8 can carry. -/
def IsScalar (c : Nat) : Prop := c < 0x110000 ∧ isSurrogate c = false

theorem isScalar_iff : IsScalar c ↔ c < 0xd800 ∨ (0xe000 ≤ c ∧ c < 0x110000) := by
  constructor
  · intro ⟨hc, hs⟩
    have := isSurrogate_iff (c := c) (by omega)
    simp only [hs, Bool.false_eq_true, false_iff] at this
    omega
  · intro h
    have := isSurrogate_iff (c := c) (by omega)
    exact ⟨by omega, by cases hs : isSurrogate c <;> simp_all; omega⟩

theorem isValidCharacter_isScalar (h : isValidCharacter c = true) : IsScalar c := by
  rw [isScalar_iff]
  simp only [isValidCharacter, Bool.or_eq_true, Bool.and_eq_true, decide_eq_true_eq] at h
  omega

theorem appendUnsafe_one (h : c ≤ 0x7f) : appendUnsafe c = [ofNat c] :=
  if_pos h

theorem appendUnsafe_two (h : 0x7f < c) (h' : c ≤ 0x7ff) :
    appendUnsafe c = [ofNat (c / 64 + 0xc0), ofNat (c % 64 + 0x80)] := by
  have hlead : c >>> 6 ||| 0xc0 = c / 64 + 0xc0 := by
    rw [shiftRight_eq_div_pow]
    exact or_of_lt 3 (n := 6) (by omega)
  rw [appendUnsafe, if_neg (by omega), if_pos h', hlead, trail_bits]

theorem appendUnsafe_three (h : 0x7ff < c) (h' : c ≤ 0xffff) :
    appendUnsafe c = [ofNat (c / 4096 + 0xe0), ofNat (c / 64 % 64 + 0x80),
      ofNat (c % 64 + 0x80)] := by
  have hlead : c >>> 12 ||| 0xe0 = c / 4096 + 0xe0 := by
    rw [shiftRight_eq_div_pow]
    exact or_of_lt 7 (n := 5) (by omega)
  rw [appendUnsafe, if_neg (by omega), if_neg (by omega), if_pos h', hlead, trail_bits, trail_bits,
    shiftRight_eq_div_pow]

theorem appendUnsafe_four (h : 0xffff < c) (h' : c < 0x110000) :
    appendUnsafe c = [ofNat (c / 262144 + 0xf0), ofNat (c / 4096 % 64 + 0x80),
      ofNat (c / 64 % 64 + 0x80), ofNat (c % 64 + 0x80)] := by
  have hlead : c >>> 18 ||| 0xf0 = c / 262144 + 0xf0 := by
    rw [shiftRight_eq_div_pow]
    exact or_of_lt 15 (n := 4) (by omega)
  rw [appendUnsafe, if_neg (by omega), if_neg (by omega), if_neg (by omega), hlead, trail_bits,
    trail_bits, trail_bits, shiftRight_eq_div_pow, shiftRight_eq_div_pow]

theorem takeTrail_eq (mem : Memory) (c i : Nat) (illegal : Bool) :
    takeTrail mem (c, illegal, i) =
      (c * 64 + (mem i).toNat % 64, illegal || !isTrailByte (mem i), i + 1) := by
  have hbits : c <<< 6 ||| ((mem i).toNat &&& 0x3f) = c * 64 + (mem i).toNat % 64 := by
    rw [and_63, Nat.or_comm, Nat.shiftLeft_eq, Nat.add_comm (c * 64)]
    exact or_of_lt c (n := 6) (mod_lt _ (by decide))
  rw [takeTrail, hbits]

/-- The bytes from `i` on are UTF-8 for `c`, none of them behind `length` but perhaps a single
byte. -/
def ReadsScalar (mem : Memory) (i length c j : Nat) : Prop :=
  IsScalar c ∧ load mem i (appendUnsafe c).length = appendUnsafe c ∧
    j = i + (appendUnsafe c).length ∧ (j ≤ length ∨ c ≤ 0x7f)

theorem countTrailBytes_one (h : 0xc0 ≤ b.toNat) (h' : b.toNat < 0xe0) : countTrailBytes b = 1 := by
  simp only [countTrailBytes, lt_iff_toNat_lt, toNat_ofNat]
  rw [if_neg (by omega), if_pos (by omega)]

theorem countTrailBytes_two (h : 0xe0 ≤ b.toNat) (h' : b.toNat < 0xf0) : countTrailBytes b = 2 := by
  simp only [countTrailBytes, lt_iff_toNat_lt, toNat_ofNat]
  rw [if_neg (by omega), if_neg (by omega), if_pos (by omega)]

theorem countTrailBytes_three (h : 0xf0 ≤ b.toNat) (h' : b.toNat < 0xf8) :
    countTrailBytes b = 3 := by
  simp only [countTrailBytes, lt_iff_toNat_lt, toNat_ofNat]
  rw [if_neg (by omega), if_neg (by omega), if_neg (by omega), if_pos (by omega)]

theorem countTrailBytes_more (h : 0xf8 ≤ b.toNat) (h' : b.toNat < 0xfe) :
    4 ≤ countTrailBytes b := by
  simp only [countTrailBytes, lt_iff_toNat_lt, toNat_ofNat]
  rw [if_neg (by omega), if_neg (by omega), if_neg (by omega), if_neg (by omega)]
  split <;> omega

variable {mem : Memory} {length : Nat}

theorem eq_ofNat_iff {n : Nat} (h : n < 256) : b = ofNat n ↔ b.toNat = n :=
  ⟨fun hb => by rw [hb, toNat_ofNat_lt h], fun hb => (ofNat_eq_of_toNat hb).symm⟩

section Shapes

variable {i j : Nat}

theorem readsScalar_two (h : 0x7f < c) (h' : c ≤ 0x7ff) :
    ReadsScalar mem i length c j ↔ isSurrogate c = false ∧ (mem i).toNat = c / 64 + 0xc0 ∧
      (mem (i + 1)).toNat = c % 64 + 0x80 ∧ j = i + 2 ∧ j ≤ length := by
  simp (disch := omega) only [ReadsScalar, IsScalar, appendUnsafe_two h h', length_cons,
    length_nil, load, List.cons.injEq, and_true, eq_ofNat_iff]
  grind

theorem readsScalar_three (h : 0x7ff < c) (h' : c ≤ 0xffff) :
    ReadsScalar mem i length c j ↔ isSurrogate c = false ∧ (mem i).toNat = c / 4096 + 0xe0 ∧
      (mem (i + 1)).toNat = c / 64 % 64 + 0x80 ∧ (mem (i + 1 + 1)).toNat = c % 64 + 0x80 ∧
      j = i + 3 ∧ j ≤ length := by
  simp (disch := omega) only [ReadsScalar, IsScalar, appendUnsafe_three h h', length_cons,
    length_nil, load, List.cons.injEq, and_true, eq_ofNat_iff]
  grind

theorem readsScalar_four (h : 0xffff < c) :
    ReadsScalar mem i length c j ↔ c < 0x110000 ∧ isSurrogate c = false ∧
      (mem i).toNat = c / 262144 + 0xf0 ∧ (mem (i + 1)).toNat = c / 4096 % 64 + 0x80 ∧
      (mem (i + 1 + 1)).toNat = c / 64 % 64 + 0x80 ∧
      (mem (i + 1 + 1 + 1)).toNat = c % 64 + 0x80 ∧ j = i + 4 ∧ j ≤ length := by
  rcases Nat.lt_or_ge c 0x110000 with hc | hc
  · simp (disch := omega) only [ReadsScalar, IsScalar, appendUnsafe_four h hc, length_cons,
      length_nil, load, List.cons.injEq, and_true, eq_ofNat_iff]
    grind
  · exact ⟨fun hread => absurd hread.1.1 (by omega), fun hread => absurd hread.1 (by omega)⟩

end Shapes

theorem nextCharSafeBody_iff (b : UInt8) (i c j : Nat) :
    nextCharSafeBody mem i length b = (some c, j) ↔ i + countTrailBytes b ≤ length ∧
      takeTrails mem (b.toNat &&& (1 <<< (6 - countTrailBytes b) - 1)) i (countTrailBytes b) =
        (c, false, j) ∧ minLegal (countTrailBytes b) ≤ c ∧ isSurrogate c = false := by
  rcases h : takeTrails mem (b.toNat &&& (1 <<< (6 - countTrailBytes b) - 1)) i
    (countTrailBytes b) with ⟨value, illegal, next⟩
  grind [nextCharSafeBody]

theorem nextCharSafeBody_two {i : Nat} (h : 0xc0 ≤ (mem i).toNat) (h' : (mem i).toNat < 0xe0)
    (c j : Nat) :
    nextCharSafeBody mem (i + 1) length (mem i) = (some c, j) ↔
      ReadsScalar mem i length c j ∧ 0x7f < c ∧ c ≤ 0x7ff := by
  have hmask : (mem i).toNat &&& 31 = (mem i).toNat % 32 := and_two_pow_sub_one_eq_mod _ 5
  have htrail := isTrailByte_iff (mem (i + 1))
  simp only [nextCharSafeBody_iff, countTrailBytes_one h h', takeTrails, takeTrail_eq, minLegal,
    Nat.reduceSub, Nat.reduceShiftLeft, hmask, Bool.false_or, Prod.mk.injEq,
    Bool.not_eq_false', htrail]
  constructor
  · rintro ⟨hn, ⟨hc, ht, hj⟩, hmin, hs⟩
    have hhi : c ≤ 0x7ff := by omega
    exact ⟨(readsScalar_two hmin hhi).mpr ⟨hs, by omega⟩, hmin, hhi⟩
  · rintro ⟨hread, hlo, hhi⟩
    obtain ⟨hs, hbytes⟩ := (readsScalar_two hlo hhi).mp hread
    exact ⟨by omega, by omega, hlo, hs⟩

theorem nextCharSafeBody_three {i : Nat} (h : 0xe0 ≤ (mem i).toNat) (h' : (mem i).toNat < 0xf0)
    (c j : Nat) :
    nextCharSafeBody mem (i + 1) length (mem i) = (some c, j) ↔
      ReadsScalar mem i length c j ∧ 0x7ff < c ∧ c ≤ 0xffff := by
  have hmask : (mem i).toNat &&& 15 = (mem i).toNat % 16 := and_two_pow_sub_one_eq_mod _ 4
  have htrail := isTrailByte_iff (mem (i + 1))
  have htrail' := isTrailByte_iff (mem (i + 1 + 1))
  simp only [nextCharSafeBody_iff, countTrailBytes_two h h', takeTrails, takeTrail_eq, minLegal,
    Nat.reduceSub, Nat.reduceShiftLeft, hmask, Bool.false_or, Prod.mk.injEq,
    Bool.or_eq_false_iff, Bool.not_eq_false', htrail, htrail']
  constructor
  · rintro ⟨hn, ⟨hc, ht, hj⟩, hmin, hs⟩
    have hhi : c ≤ 0xffff := by omega
    exact ⟨(readsScalar_three hmin hhi).mpr ⟨hs, by omega⟩, hmin, hhi⟩
  · rintro ⟨hread, hlo, hhi⟩
    obtain ⟨hs, hbytes⟩ := (readsScalar_three hlo hhi).mp hread
    exact ⟨by omega, by omega, hlo, hs⟩

theorem nextCharSafeBody_four {i : Nat} (h : 0xf0 ≤ (mem i).toNat) (h' : (mem i).toNat < 0xf8)
    (c j : Nat) :
    nextCharSafeBody mem (i + 1) length (mem i) = (some c, j) ↔
      ReadsScalar mem i length c j ∧ 0xffff < c := by
  have hmask : (mem i).toNat &&& 7 = (mem i).toNat % 8 := and_two_pow_sub_one_eq_mod _ 3
  have htrail := isTrailByte_iff (mem (i + 1))
  have htrail' := isTrailByte_iff (mem (i + 1 + 1))
  have htrail'' := isTrailByte_iff (mem (i + 1 + 1 + 1))
  simp only [nextCharSafeBody_iff, countTrailBytes_three h h', takeTrails, takeTrail_eq, minLegal,
    Nat.reduceSub, Nat.reduceShiftLeft, hmask, Bool.false_or]
  split
  · simp only [Prod.mk.injEq, Bool.or_eq_false_iff, Bool.not_eq_false', htrail, htrail', htrail'']
    constructor
    · rintro ⟨hn, ⟨hc, ht, hj⟩, hmin, hs⟩
      exact ⟨(readsScalar_four hmin).mpr ⟨by omega, hs, by omega⟩, hmin⟩
    · rintro ⟨hread, hlo⟩
      obtain ⟨hc, hs, hbytes⟩ := (readsScalar_four hlo).mp hread
      exact ⟨by omega, by omega, hlo, hs⟩
  · constructor
    · simp
    · rintro ⟨hread, hlo⟩
      have hbytes := (readsScalar_four hlo).mp hread
      omega

theorem nextCharSafeBody_more (mem : Memory) (i length : Nat) (h : 4 ≤ countTrailBytes b) :
    (nextCharSafeBody mem i length b).1 = none := by
  have hillegal : ∀ c, takeTrails mem c i (countTrailBytes b) = (c, true, i) := by
    intro c
    unfold takeTrails
    split <;> first | omega | rfl
  simp only [nextCharSafeBody, hillegal, Bool.true_or, if_true]
  split <;> rfl

theorem length_appendUnsafe_pos (c : Nat) : 0 < (appendUnsafe c).length := by
  unfold appendUnsafe
  split_ifs <;> simp

/-- What the first byte says about the code point. -/
theorem ReadsScalar.head {i j : Nat} (h : ReadsScalar mem i length c j) :
    ((mem i).toNat < 0x80 ∧ c = (mem i).toNat) ∨
      (0xc0 ≤ (mem i).toNat ∧ (mem i).toNat < 0xe0 ∧ 0x7f < c ∧ c ≤ 0x7ff) ∨
      (0xe0 ≤ (mem i).toNat ∧ (mem i).toNat < 0xf0 ∧ 0x7ff < c ∧ c ≤ 0xffff) ∨
      (0xf0 ≤ (mem i).toNat ∧ (mem i).toNat < 0xf8 ∧ 0xffff < c) := by
  rcases Nat.lt_or_ge 0x7f c with h₁ | h₁
  · rcases Nat.lt_or_ge 0x7ff c with h₂ | h₂
    · rcases Nat.lt_or_ge 0xffff c with h₃ | h₃
      · have hbytes := (readsScalar_four h₃).mp h
        omega
      · have hbytes := (readsScalar_three h₂ h₃).mp h
        omega
    · have hbytes := (readsScalar_two h₁ h₂).mp h
      omega
  · obtain ⟨-, hload, -, -⟩ := h
    rw [appendUnsafe_one h₁] at hload
    have hlead := congrArg toNat (List.cons.inj hload).1
    rw [toNat_ofNat_lt (by omega)] at hlead
    omega

theorem readsScalar_single {mem : Memory} {i length : Nat} (h : (mem i).toNat < 0x80) :
    ReadsScalar mem i length (mem i).toNat (i + 1) := by
  have hbytes : appendUnsafe (mem i).toNat = [mem i] := by
    rw [appendUnsafe_one (by omega), UInt8.ofNat_toNat]
  refine ⟨isScalar_iff.mpr (Or.inl (by omega)), ?_, ?_, .inr (by omega)⟩
  · rw [hbytes]
    rfl
  · rw [hbytes]
    rfl

theorem isLeadByte_iff (b : UInt8) : isLeadByte b = true ↔ 0xc0 ≤ b.toNat ∧ b.toNat < 0xfe := by
  have hbytes : ∀ n : Fin 256,
      isLeadByte (ofNat n) = true ↔ 0xc0 ≤ n.val ∧ n.val < 0xfe := by
    decide +kernel
  have h := hbytes ⟨b.toNat, b.toNat_lt⟩
  rwa [UInt8.ofNat_toNat] at h

/-- CBU8_NEXT reads exactly the UTF-8 of one code point. -/
theorem cbu8Next_iff {i j : Nat} :
    cbu8Next mem i length = (some c, j) ↔ ReadsScalar mem i length c j := by
  have hhigh : mem i ≥ 0x80 ↔ 0x80 ≤ (mem i).toNat := by
    rw [ge_iff_le, le_iff_toNat_le]
    rfl
  by_cases hone : (mem i).toNat < 0x80
  · rw [cbu8Next, if_neg (mt hhigh.mp (by omega))]
    constructor
    · intro h
      obtain ⟨rfl, rfl⟩ : _ = c ∧ _ = j := by simpa using h
      exact readsScalar_single hone
    · intro h
      have hc : c = (mem i).toNat := by
        have := h.head
        omega
      rw [h.2.2.1, hc, appendUnsafe_one (by omega)]
      rfl
  · rw [cbu8Next, if_pos (hhigh.mpr (by omega))]
    by_cases hlead : isLeadByte (mem i) = true
    · rw [if_pos hlead]
      rw [isLeadByte_iff] at hlead
      rcases Nat.lt_or_ge (mem i).toNat 0xe0 with h₁ | h₁
      · rw [nextCharSafeBody_two hlead.1 h₁]
        exact and_iff_left_of_imp fun h => by have := h.head; omega
      · rcases Nat.lt_or_ge (mem i).toNat 0xf0 with h₂ | h₂
        · rw [nextCharSafeBody_three h₁ h₂]
          exact and_iff_left_of_imp fun h => by have := h.head; omega
        · rcases Nat.lt_or_ge (mem i).toNat 0xf8 with h₃ | h₃
          · rw [nextCharSafeBody_four h₂ h₃]
            exact and_iff_left_of_imp fun h => by have := h.head; omega
          · have hnone := nextCharSafeBody_more mem (i + 1) length
              (countTrailBytes_more h₃ hlead.2)
            constructor
            · intro h
              rw [h] at hnone
              cases hnone
            · intro h
              have := h.head
              omega
    · rw [if_neg hlead]
      rw [isLeadByte_iff] at hlead
      constructor
      · intro h
        cases h
      · intro h
        have := h.head
        omega

end ChromiumUI.Base
