import ChromiumUI.NumberConversions
import ChromiumUI.PrefixCodes

/-!
# UTF8ToUTF16 and UTF16ToUTF8

ConvertUnicode over its two readers and two writers. The converter's index is an `int32`, and so
is the length it is given.
-/
namespace ChromiumUI.Base

open ByteMemory PrefixCodes List Nat UInt16

def isValidCodepoint (codePoint : Nat) : Bool :=
  codePoint < 0xd800 || (codePoint ≥ 0xe000 && codePoint ≤ 0x10ffff)

/-- ReadUnicodeCharacter: whether there is one, its code point, and the last unit consumed. -/
def readUnicodeCharacter (src : Bytes) (srcLen charIndex : Nat) : Bool × Nat × Nat :=
  let next := cbu8Next (ofBytes src) charIndex srcLen
  let codePoint := next.1.getD 0xffffffff
  (isValidCodepoint codePoint, codePoint, next.2 - 1)

/-- ReadUnicodeCharacter of char16. -/
def readUnicodeCharacter16 (src : List UInt16) (srcLen charIndex : Nat) : Bool × Nat × Nat :=
  let unit := (src.getD charIndex 0).toNat
  let next := (src.getD (charIndex + 1) 0).toNat
  if isSurrogate unit then
    if !isSurrogateLead unit || charIndex + 1 ≥ srcLen || !isTrailUnit next then
      (false, 0, charIndex)
    else
      (isValidCodepoint (getSupplementary unit next), getSupplementary unit next, charIndex + 1)
  else (isValidCodepoint unit, unit, charIndex)

/-- WriteUnicodeCharacter. -/
def writeUnicodeCharacter (codePoint : Nat) : Bytes :=
  if codePoint ≤ 0x7f then [UInt8.ofNat codePoint] else appendUnsafe codePoint

/-- WriteUnicodeCharacter to a string16. -/
def writeUnicodeCharacter16 (codePoint : Nat) : List UInt16 :=
  if codePoint ≤ 0xffff then [ofNat codePoint]
  else [ofNat (codePoint >>> 10 + 0xd7c0), ofNat (codePoint &&& 0x3ff ||| 0xdc00)]

/-- The loop of ConvertUnicode. -/
def convertLoop {δ : Type} (read : Nat → Bool × Nat × Nat) (write : Nat → List δ)
    (srcLen32 : Nat) : Nat → Nat → Bool → List δ → Bool × List δ
  | 0, _, success, output => (success, output)
  | fuel + 1, i, success, output =>
    if i < srcLen32 then
      let (valid, codePoint, last) := read i
      if valid then convertLoop read write srcLen32 fuel (last + 1) success (output ++ write codePoint)
      else convertLoop read write srcLen32 fuel (last + 1) false (output ++ write 0xfffd)
    else (success, output)

/-- ConvertUnicode. A length that is negative as an `int32` makes no turn of the loop. -/
def convertUnicode {δ : Type} (read : Nat → Nat → Bool × Nat × Nat) (write : Nat → List δ)
    (srcLen : Nat) : Bool × List δ :=
  let srcLen32 := (wrapInt srcLen).toNat
  convertLoop (read srcLen32) write srcLen32 srcLen 0 true []

def utf8ToUTF16 (src : Bytes) : Bool × List UInt16 :=
  convertUnicode (readUnicodeCharacter src) writeUnicodeCharacter16 src.length

def utf16ToUTF8 (src : List UInt16) : Bool × Bytes :=
  convertUnicode (readUnicodeCharacter16 src) writeUnicodeCharacter src.length

/-- Every surrogate unit is part of a lead and trail pair. -/
def surrogatesPaired : List UInt16 → Bool
  | [] => true
  | unit :: units =>
    if isSurrogate unit.toNat then
      match units with
      | [] => false
      | next :: rest =>
        isSurrogateLead unit.toNat && isTrailUnit next.toNat && surrogatesPaired rest
    else surrogatesPaired units

/-! ## The loop decodes -/

section Loop

variable {α δ : Type} {code : Nat → List α} {Valid : Nat → Prop} {src : List α}

/-- What a reader says at a place of the source. -/
structure ReadsAt (code : Nat → List α) (Valid : Nat → Prop) (src : List α)
    (read : Nat → Bool × Nat × Nat) (i : Nat) : Prop where
  le : i ≤ (read i).2.2
  lt : (read i).2.2 < src.length
  valid : (read i).1 = true →
    Valid (read i).2.1 ∧ src.drop i = code (read i).2.1 ++ src.drop ((read i).2.2 + 1)
  invalid : (read i).1 = false → ∀ a, Valid a → ¬code a <+: src.drop i

theorem convertLoop_decodes {read : Nat → Bool × Nat × Nat} (write : Nat → List δ)
    (hread : ∀ i, i < src.length → ReadsAt code Valid src read i) {fuel i : Nat}
    (hfuel : src.length ≤ fuel + i) (success : Bool) (output : List δ) :
    ∃ as : List (Option Nat), Decodes code Valid (src.drop i) as ∧
      convertLoop read write src.length fuel i success output =
        (success && as.all Option.isSome,
          output ++ as.flatMap fun a => write (a.getD 0xfffd)) := by
  induction fuel generalizing i success output with
  | zero =>
    refine ⟨[], ?_, by simp [convertLoop]⟩
    rw [drop_of_length_le (by omega)]
    exact Decodes.nil
  | succ fuel ih =>
    rw [convertLoop]
    by_cases hi : i < src.length
    · rw [if_pos hi]
      obtain ⟨hle, hlt, hvalid, hinvalid⟩ := hread i hi
      cases hr : (read i).1 with
      | true =>
        obtain ⟨hv, hdrop⟩ := hvalid hr
        obtain ⟨as, has, hloop⟩ := ih (i := (read i).2.2 + 1) (by omega) success
          (output ++ write (read i).2.1)
        refine ⟨some (read i).2.1 :: as, ?_, ?_⟩
        · rw [hdrop]
          exact Decodes.word hv has
        · dsimp only
          rw [if_pos hr, hloop]
          simp [append_assoc]
      | false =>
        obtain ⟨as, has, hloop⟩ := ih (i := (read i).2.2 + 1) (by omega) false
          (output ++ write 0xfffd)
        have hsplit : (src.drop i).take ((read i).2.2 + 1 - i) ++ src.drop ((read i).2.2 + 1) =
            src.drop i := by
          rw [show src.drop ((read i).2.2 + 1) = (src.drop i).drop ((read i).2.2 + 1 - i) by
            rw [drop_drop]; congr 1; omega]
          exact take_append_drop _ _
        refine ⟨none :: as, ?_, ?_⟩
        · rw [← hsplit]
          refine Decodes.bad ?_ ?_ has
          · intro hnil
            have := congrArg length hnil
            simp only [length_take, length_drop, length_nil] at this
            omega
          · rw [hsplit]
            exact hinvalid hr
        · dsimp only
          rw [if_neg (by simp [hr]), hloop]
          simp [append_assoc]
    · rw [if_neg hi]
      refine ⟨[], ?_, by simp⟩
      rw [drop_of_length_le (by omega)]
      exact Decodes.nil

end Loop

/-! ## UTF-8 -/

theorem isValidCodepoint_iff {c : Nat} : isValidCodepoint c = true ↔ IsScalar c := by
  rw [isScalar_iff]
  simp only [isValidCodepoint, Bool.or_eq_true, Bool.and_eq_true, decide_eq_true_eq]
  omega

theorem writeUnicodeCharacter_eq (c : Nat) : writeUnicodeCharacter c = appendUnsafe c := by
  rw [writeUnicodeCharacter]
  split
  · exact (appendUnsafe_one ‹_›).symm
  · rfl

theorem load_ofBytes_drop (src : Bytes) {i n : Nat} (h : i + n ≤ src.length) :
    load (ofBytes src) i n = (src.drop i).take n := by
  induction n generalizing i with
  | zero => simp
  | succ n ih =>
    have hi : i < src.length := by omega
    rw [load, ih (by omega), drop_eq_getElem_cons hi, take_succ_cons]
    simp [ofBytes, hi]

/-- A code point whose bytes come next is the one CBU8_NEXT reads. -/
theorem cbu8Next_of_isPrefix {src : Bytes} {i c : Nat} (hc : IsScalar c)
    (h : appendUnsafe c <+: src.drop i) :
    cbu8Next (ofBytes src) i src.length = (some c, i + (appendUnsafe c).length) := by
  have hlen := h.length_le
  have hpos := length_appendUnsafe_pos c
  rw [length_drop] at hlen
  rw [cbu8Next_iff]
  refine ⟨hc, ?_, rfl, Or.inl (by omega)⟩
  rw [load_ofBytes_drop src (by omega)]
  exact (prefix_iff_eq_take.mp h).symm

theorem prefixCode_appendUnsafe : PrefixCode appendUnsafe IsScalar where
  ne_nil := fun _ => length_pos_iff.mp (length_appendUnsafe_pos _)
  unique := by
    intro a b r r' ha hb h
    have hread := @cbu8Next_of_isPrefix (appendUnsafe a ++ r) 0 a ha
      (prefix_append _ _)
    have hread' := @cbu8Next_of_isPrefix (appendUnsafe a ++ r) 0 b hb
      (h ▸ prefix_append _ _)
    exact Option.some.inj (Prod.ext_iff.mp (hread.symm.trans hread')).1

theorem skipTrailBytes_le (mem : Memory) (n i : Nat) :
    i ≤ skipTrailBytes mem n i ∧ skipTrailBytes mem n i ≤ i + n := by
  induction n generalizing i with
  | zero => exact ⟨Nat.le_refl _, Nat.le_refl _⟩
  | succ n ih =>
    rw [skipTrailBytes]
    split
    · have := ih (i + 1)
      omega
    · omega

/-- CBU8_NEXT goes on by at least one byte, and not behind the end. -/
theorem cbu8Next_bounds {mem : Memory} {i length : Nat} (h : i < length) :
    i < (cbu8Next mem i length).2 ∧ (cbu8Next mem i length).2 ≤ length := by
  cases hnext : (cbu8Next mem i length).1 with
  | some c =>
    have hpair : cbu8Next mem i length = (some c, (cbu8Next mem i length).2) :=
      Prod.ext hnext rfl
    obtain ⟨-, -, hj, hle⟩ := cbu8Next_iff.mp hpair
    have hpos := length_appendUnsafe_pos c
    refine ⟨by omega, ?_⟩
    rcases hle with hle | hle
    · exact hle
    · rw [appendUnsafe_one hle] at hj
      rw [hj]
      exact h
  | none =>
    rw [cbu8Next] at hnext ⊢
    split at hnext
    · rename_i hhigh
      rw [if_pos hhigh]
      split at hnext
      · rename_i hlead
        rw [if_pos hlead]
        rw [nextCharSafeBody] at hnext ⊢
        dsimp only at hnext ⊢
        split at hnext
        · rename_i hroom
          rw [if_pos hroom]
          split at hnext
          · rename_i hillegal
            rw [if_pos hillegal]
            have := skipTrailBytes_le mem (countTrailBytes (mem i)) (i + 1)
            omega
          · cases hnext
        · rename_i hroom
          rw [if_neg hroom]
          have := skipTrailBytes_le mem (length - (i + 1)) (i + 1)
          omega
      · rename_i hlead
        rw [if_neg hlead]
        exact ⟨lt_succ_self i, h⟩
    · cases hnext

theorem readUnicodeCharacter_readsAt {src : Bytes} {i : Nat} (h : i < src.length) :
    ReadsAt appendUnsafe IsScalar src (readUnicodeCharacter src src.length) i := by
  obtain ⟨hlt, hle⟩ := @cbu8Next_bounds (ofBytes src) i src.length h
  cases hnext : (cbu8Next (ofBytes src) i src.length).1 with
  | some c =>
    have hpair : cbu8Next (ofBytes src) i src.length =
        (some c, (cbu8Next (ofBytes src) i src.length).2) := Prod.ext hnext rfl
    obtain ⟨hc, hload, hj, -⟩ := cbu8Next_iff.mp hpair
    have hread : readUnicodeCharacter src src.length i =
        (true, c, i + (appendUnsafe c).length - 1) := by
      rw [readUnicodeCharacter, hnext, hj, Option.getD_some, isValidCodepoint_iff.mpr hc]
    refine ⟨?_, ?_, fun _ => ⟨?_, ?_⟩, ?_⟩ <;> rw [hread] <;> dsimp only
    · omega
    · omega
    · exact hc
    · rw [load_ofBytes_drop src (by omega)] at hload
      rw [Nat.sub_add_cancel (by omega)]
      conv => lhs; rw [← take_append_drop (appendUnsafe c).length (src.drop i)]
      rw [hload, drop_drop]
    · exact nofun
  | none =>
    have hread : readUnicodeCharacter src src.length i =
        (false, 0xffffffff, (cbu8Next (ofBytes src) i src.length).2 - 1) := by
      rw [readUnicodeCharacter, hnext]
      rfl
    refine ⟨?_, ?_, ?_, fun _ a ha hprefix => ?_⟩
    · rw [hread]
      dsimp only
      omega
    · rw [hread]
      dsimp only
      omega
    · rw [hread]
      exact nofun
    · rw [cbu8Next_of_isPrefix ha hprefix] at hnext
      cases hnext

/-! ## UTF-16 -/

theorem toNat16_ofNat_lt {n : Nat} (h : n < 0x10000) : (ofNat n).toNat = n :=
  mod_eq_of_lt h

theorem ofNat16_eq {n : Nat} {u : UInt16} (h : u.toNat = n) : ofNat n = u := by
  rw [← h]
  exact UInt16.ofNat_toNat

theorem writeUnicodeCharacter16_one {c : Nat} (h : c ≤ 0xffff) :
    writeUnicodeCharacter16 c = [ofNat c] := if_pos h

theorem writeUnicodeCharacter16_two {c : Nat} (h : 0xffff < c) :
    writeUnicodeCharacter16 c =
      [ofNat (c / 1024 + 0xd7c0), ofNat (c % 1024 + 0xdc00)] := by
  have htrail : c &&& 0x3ff ||| 0xdc00 = c % 1024 + 0xdc00 := by
    rw [show c &&& 0x3ff = c % 1024 from and_two_pow_sub_one_eq_mod c 10]
    exact or_of_lt 55 (n := 10) (mod_lt c (by decide))
  rw [writeUnicodeCharacter16, if_neg (by omega), htrail, shiftRight_eq_div_pow]

theorem getSupplementary_eq {lead trail c : Nat} (h : lead * 1024 + trail = c + 56613888) :
    getSupplementary lead trail = c := by
  have hshift : lead <<< 10 = lead * 1024 := shiftLeft_eq lead 10
  unfold getSupplementary
  omega

theorem getSupplementary_units (c : Nat) :
    getSupplementary (c / 1024 + 0xd7c0) (c % 1024 + 0xdc00) = c :=
  getSupplementary_eq (by omega)

/-- A code point in front of a list of units. -/
theorem isPrefix_writeUnicodeCharacter16 {a : Nat} {u : UInt16} {units : List UInt16}
    (ha : IsScalar a) (h : writeUnicodeCharacter16 a <+: u :: units) :
    (a = u.toNat ∧ isSurrogate u.toNat = false) ∨
      (isSurrogate u.toNat = true ∧ isSurrogateLead u.toNat = true ∧
        ∃ t, units.head? = some t ∧ isTrailUnit t.toNat = true ∧
          a = getSupplementary u.toNat t.toNat) := by
  obtain ⟨r, hr⟩ := h
  rw [isScalar_iff] at ha
  rcases Nat.lt_or_ge 0xffff a with hbig | hsmall
  · right
    rw [writeUnicodeCharacter16_two hbig] at hr
    obtain ⟨hlead, htail⟩ := cons.inj hr
    have hleadNat := congrArg toNat hlead
    rw [toNat16_ofNat_lt (by omega)] at hleadNat
    have hsurr : isSurrogate u.toNat = true :=
      (isSurrogate_iff (by omega)).mpr (by omega)
    refine ⟨hsurr, (isSurrogateLead_iff hsurr (by omega)).mpr (by omega),
      ofNat (a % 1024 + 0xdc00), by rw [← htail]; rfl, ?_, ?_⟩
    · rw [toNat16_ofNat_lt (by omega), isTrailUnit_iff (by omega)]
      omega
    · rw [toNat16_ofNat_lt (by omega), ← hleadNat, getSupplementary_units]
  · left
    rw [writeUnicodeCharacter16_one hsmall] at hr
    have hunit := congrArg toNat (cons.inj hr).1
    rw [toNat16_ofNat_lt (by omega)] at hunit
    refine ⟨hunit, Bool.eq_false_iff.mpr fun hs => ?_⟩
    rw [isSurrogate_iff (by omega)] at hs
    omega

theorem prefixCode_writeUnicodeCharacter16 : PrefixCode writeUnicodeCharacter16 IsScalar where
  ne_nil := by
    intro a _
    unfold writeUnicodeCharacter16
    split <;> simp
  unique := by
    intro a b r r' ha hb h
    have hne : writeUnicodeCharacter16 a ++ r ≠ [] := by
      unfold writeUnicodeCharacter16
      split <;> simp
    obtain ⟨u, units, hunits⟩ := exists_cons_of_ne_nil hne
    have hprefix := isPrefix_writeUnicodeCharacter16 ha ⟨r, hunits⟩
    have hprefix' := isPrefix_writeUnicodeCharacter16 hb ⟨r', h.symm.trans hunits⟩
    rcases hprefix with ⟨hval, hs⟩ | ⟨hs, -, t, ht, -, hval⟩
    · rcases hprefix' with ⟨hval', -⟩ | ⟨hs', -⟩
      · exact hval.trans hval'.symm
      · rw [hs] at hs'
        cases hs'
    · rcases hprefix' with ⟨-, hs'⟩ | ⟨-, -, t', ht', -, hval'⟩
      · rw [hs] at hs'
        cases hs'
      · rw [ht, Option.some.injEq] at ht'
        rw [hval, hval', ht']

theorem supplementary_scalar {u t : UInt16} (hs : isSurrogate u.toNat = true)
    (hlead : isSurrogateLead u.toNat = true) (htrail : isTrailUnit t.toNat = true) :
    IsScalar (getSupplementary u.toNat t.toNat) ∧
      writeUnicodeCharacter16 (getSupplementary u.toNat t.toNat) = [u, t] := by
  have hu := u.toNat_lt
  have ht := t.toNat_lt
  rw [isSurrogateLead_iff hs (by omega)] at hlead
  rw [isSurrogate_iff (by omega)] at hs
  rw [isTrailUnit_iff (by omega)] at htrail
  obtain ⟨c, hc⟩ : ∃ c, u.toNat * 1024 + t.toNat = c + 56613888 :=
    ⟨u.toNat * 1024 + t.toNat - 56613888, by omega⟩
  rw [getSupplementary_eq hc]
  refine ⟨isScalar_iff.mpr (by omega), ?_⟩
  rw [writeUnicodeCharacter16_two (by omega), ofNat16_eq (u := u) (by omega),
    ofNat16_eq (u := t) (by omega)]

theorem unit_scalar {u : UInt16} (hs : isSurrogate u.toNat = false) :
    IsScalar u.toNat ∧ writeUnicodeCharacter16 u.toNat = [u] := by
  have hu := u.toNat_lt
  refine ⟨⟨by omega, hs⟩, ?_⟩
  rw [writeUnicodeCharacter16_one (by omega), UInt16.ofNat_toNat]

theorem readUnicodeCharacter16_readsAt {src : List UInt16} {i : Nat} (h : i < src.length) :
    ReadsAt writeUnicodeCharacter16 IsScalar src (readUnicodeCharacter16 src src.length) i := by
  have hunit : src.getD i 0 = src[i] := by simp [h]
  have hdrop : src.drop i = src[i] :: src.drop (i + 1) := drop_eq_getElem_cons h
  by_cases hs : isSurrogate (src.getD i 0).toNat = true
  · by_cases hbad : (!isSurrogateLead (src.getD i 0).toNat || decide (i + 1 ≥ src.length) ||
        !isTrailUnit (src.getD (i + 1) 0).toNat) = true
    · have hread : readUnicodeCharacter16 src src.length i = (false, 0, i) :=
        (if_pos hs).trans (if_pos hbad)
      refine ⟨by simp [hread], by rw [hread]; exact h,
        by rw [hread]; exact nofun, ?_⟩
      intro _ a ha hprefix
      rw [hdrop, ← hunit] at hprefix
      rcases isPrefix_writeUnicodeCharacter16 ha hprefix with ⟨-, hs'⟩ | ⟨-, hlead, t, ht, htrail, -⟩
      · rw [hs] at hs'
        cases hs'
      · have hnext : i + 1 < src.length := by
          by_contra hend
          rw [drop_of_length_le (by omega)] at ht
          cases ht
        have ht' : src.getD (i + 1) 0 = t := by
          rw [head?_drop, getElem?_eq_getElem hnext, Option.some.injEq] at ht
          rw [← ht]
          simp [hnext]
        rw [hlead, ht', htrail] at hbad
        simp at hbad
        omega
    · obtain ⟨⟨hlead, hnext⟩, htrail⟩ : (isSurrogateLead (src.getD i 0).toNat = true ∧
          i + 1 < src.length) ∧ isTrailUnit (src.getD (i + 1) 0).toNat = true := by
        simpa using hbad
      obtain ⟨hscalar, hcode⟩ := supplementary_scalar hs hlead htrail
      have hdrop' : src.drop i = src.getD i 0 :: src.getD (i + 1) 0 :: src.drop (i + 1 + 1) := by
        rw [hdrop, hunit, drop_eq_getElem_cons hnext]
        simp [hnext]
      have hread : readUnicodeCharacter16 src src.length i = (true,
          getSupplementary (src.getD i 0).toNat (src.getD (i + 1) 0).toNat, i + 1) := by
        refine (if_pos hs).trans ((if_neg hbad).trans ?_)
        rw [isValidCodepoint_iff.mpr hscalar]
      refine ⟨by rw [hread]; exact le_succ i, by rw [hread]; exact hnext, fun _ => ?_,
        by rw [hread]; exact nofun⟩
      rw [hread]
      exact ⟨hscalar, hdrop'.trans (congrArg (· ++ src.drop (i + 1 + 1)) hcode.symm)⟩
  · obtain ⟨hscalar, hcode⟩ := unit_scalar (Bool.eq_false_iff.mpr hs)
    have hread : readUnicodeCharacter16 src src.length i =
        (true, (src.getD i 0).toNat, i) := by
      refine (if_neg hs).trans ?_
      rw [isValidCodepoint_iff.mpr hscalar]
    refine ⟨by simp [hread], by rw [hread]; exact h, fun _ => ?_, by rw [hread]; exact nofun⟩
    rw [hread]
    refine ⟨hscalar, ?_⟩
    rw [hcode, hunit]
    exact hdrop

/-! ## The conversions -/

theorem surrogatesPaired_iff (units : List UInt16) :
    surrogatesPaired units = true ↔ WellFormed writeUnicodeCharacter16 IsScalar units := by
  constructor
  · intro h
    fun_induction surrogatesPaired units with
    | case1 => exact ⟨[], nofun, rfl⟩
    | case2 => cases h
    | case3 u hs t rest ih =>
      simp only [Bool.and_eq_true] at h
      obtain ⟨⟨hlead, htrail⟩, hrest⟩ := h
      obtain ⟨as, has, rfl⟩ := ih hrest
      obtain ⟨hscalar, hcode⟩ := supplementary_scalar hs hlead htrail
      refine ⟨getSupplementary u.toNat t.toNat :: as, ?_, ?_⟩
      · exact forall_mem_cons.mpr ⟨hscalar, has⟩
      · rw [flatMap_cons, hcode]
        rfl
    | case4 u units hs ih =>
      obtain ⟨as, has, rfl⟩ := ih h
      obtain ⟨hscalar, hcode⟩ := unit_scalar (Bool.eq_false_iff.mpr hs)
      refine ⟨u.toNat :: as, forall_mem_cons.mpr ⟨hscalar, has⟩, ?_⟩
      rw [flatMap_cons, hcode]
      rfl
  · rintro ⟨as, has, rfl⟩
    induction as with
    | nil => rfl
    | cons a as ih =>
      obtain ⟨ha, has⟩ := forall_mem_cons.mp has
      have hpaired := ih has
      rw [flatMap_cons]
      have ha' := isScalar_iff.mp ha
      rcases Nat.lt_or_ge 0xffff a with hbig | hsmall
      · rw [writeUnicodeCharacter16_two hbig]
        have hlead : (ofNat (a / 1024 + 0xd7c0)).toNat = a / 1024 + 0xd7c0 :=
          toNat16_ofNat_lt (by omega)
        have htrail : (ofNat (a % 1024 + 0xdc00)).toNat = a % 1024 + 0xdc00 :=
          toNat16_ofNat_lt (by omega)
        have hs : isSurrogate (a / 1024 + 0xd7c0) = true := (isSurrogate_iff (by omega)).mpr (by omega)
        rw [cons_append, cons_append, nil_append, surrogatesPaired, hlead, if_pos hs,
          htrail, (isSurrogateLead_iff hs (by omega)).mpr (by omega),
          (isTrailUnit_iff (by omega)).mpr (by omega), hpaired]
        rfl
      · rw [writeUnicodeCharacter16_one hsmall]
        have hunit : (ofNat a).toNat = a := toNat16_ofNat_lt (by omega)
        rw [cons_append, nil_append, surrogatesPaired.eq_def]
        simp [hunit, ha.2, hpaired]

/-- How the units of a source, decoded front to back, come out of a conversion: U+FFFD stands for
what is no code point. -/
def Converts {α δ : Type} (code : Nat → List α) (write : Nat → List δ) (src : List α)
    (result : Bool × List δ) : Prop :=
  ∃ as : List (Option Nat), Decodes code IsScalar src as ∧
    result = (as.all Option.isSome, as.flatMap fun a => write (a.getD 0xfffd))

theorem wrapInt_of_lt {n : Nat} (h : n < 2 ^ 31) : (wrapInt n).toNat = n := by
  rw [wrapInt, Int.bmod_eq_of_le_mul_two (by omega) (by omega), Int.toNat_natCast]

theorem utf8ToUTF16_converts {src : Bytes} (h : src.length < 2 ^ 31) :
    Converts appendUnsafe writeUnicodeCharacter16 src (utf8ToUTF16 src) := by
  obtain ⟨as, has, hloop⟩ := convertLoop_decodes writeUnicodeCharacter16
    (fun i hi => readUnicodeCharacter_readsAt hi) (i := 0) (Nat.le_refl src.length) true []
  refine ⟨as, has, ?_⟩
  rw [utf8ToUTF16, convertUnicode, wrapInt_of_lt h, hloop]
  simp

theorem utf16ToUTF8_converts {src : List UInt16} (h : src.length < 2 ^ 31) :
    Converts writeUnicodeCharacter16 appendUnsafe src (utf16ToUTF8 src) := by
  obtain ⟨as, has, hloop⟩ := convertLoop_decodes writeUnicodeCharacter
    (fun i hi => readUnicodeCharacter16_readsAt hi) (i := 0) (Nat.le_refl src.length) true []
  refine ⟨as, has, ?_⟩
  rw [utf16ToUTF8, convertUnicode, wrapInt_of_lt h, hloop]
  simp [writeUnicodeCharacter_eq]

section Converts

variable {α δ : Type} {code : Nat → List α} {write : Nat → List δ} {src : List α}
  {result : Bool × List δ}

theorem Converts.success_iff (hcode : PrefixCode code IsScalar)
    (h : Converts code write src result) : result.1 = true ↔ WellFormed code IsScalar src := by
  obtain ⟨as, has, rfl⟩ := h
  rw [has.wellFormed_iff hcode, all_eq_true]

theorem replacement_isScalar : IsScalar 0xfffd := isScalar_iff.mpr (by omega)

theorem Converts.wellFormed (h : Converts code write src result) :
    WellFormed write IsScalar result.2 := by
  obtain ⟨as, has, rfl⟩ := h
  refine WellFormed.flatMap fun a ha => ?_
  cases a with
  | none => exact replacement_isScalar
  | some c => exact has.valid _ ha c rfl

theorem Converts.of_flatMap (hcode : PrefixCode code IsScalar) {cs : List Nat}
    (hcs : ∀ c ∈ cs, IsScalar c) (h : Converts code write (cs.flatMap code) result) :
    result = (true, cs.flatMap write) := by
  obtain ⟨as, has, rfl⟩ := h
  rw [has.of_flatMap hcode hcs]
  simp [flatMap_map]

theorem Converts.exists_of_success (h : Converts code write src result)
    (hsuccess : result.1 = true) :
    ∃ cs : List Nat, (∀ c ∈ cs, IsScalar c) ∧ src = cs.flatMap code ∧
      result.2 = cs.flatMap write := by
  obtain ⟨as, has, rfl⟩ := h
  obtain ⟨cs, hcs, rfl, hsrc⟩ := has.eq_flatMap (all_eq_true.mp hsuccess)
  exact ⟨cs, hcs, hsrc, by simp [flatMap_map]⟩

end Converts

theorem length_writeUnicodeCharacter16_le (c : Nat) :
    (writeUnicodeCharacter16 c).length ≤ (appendUnsafe c).length := by
  unfold writeUnicodeCharacter16 appendUnsafe
  split_ifs <;> first | omega | simp

theorem length_flatMap_le {cs : List Nat} :
    (cs.flatMap writeUnicodeCharacter16).length ≤ (cs.flatMap appendUnsafe).length := by
  induction cs with
  | nil => exact Nat.le_refl _
  | cons c cs ih =>
    have := length_writeUnicodeCharacter16_le c
    simp only [flatMap_cons, length_append]
    omega

end ChromiumUI.Base
