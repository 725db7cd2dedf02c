import ChromiumUI.JsonTexts
import ChromiumUI.JsonWriter

/-!
# Quoted strings read back

The string literal that the writer makes of a string, as the parser reads it. U+0000 is lost, and
so is what the conversion to UTF-16 leaves out of a long string.
-/
namespace ChromiumUI.Json

open ByteMemory Base PrefixCodes List Option Nat

/-! ## Escapes -/

theorem charToDigit_hexDigit {n : Nat} (h : n < 16) : charToDigit 16 (hexDigit n) = some n := by
  revert n
  decide

variable {c : Nat}

theorem hexValue_hexDigits (h : c < 0x10000) : hexValue (hexDigits c) = some (c : Int) := by
  simp only [hexValue, hexDigits, foldlM_cons, foldlM_nil,
    charToDigit_hexDigit (mod_lt _ (by decide : 0 < 16)), map_some,
    Option.bind_eq_bind, Option.bind_some, Option.pure_def, Option.some.injEq]
  omega

theorem hexStringToInt_hexDigits (h : c < 0x10000) :
    hexStringToInt (hexDigits c) = some (c : Int) :=
  hexStringToInt_of_hexValue (le_refl 4) (cons_ne_nil _ _) (hexValue_hexDigits h)

theorem toUInt32_natCast (h : c < 0x10000) : toUInt32 (c : Int) = c := by
  unfold toUInt32
  omega

theorem jsonSingleEscapeChar_some {b : UInt8} (h : jsonSingleEscapeChar c = some b) :
    c < 0x80 ∧ c ≠ 0 ∧ simpleEscape b = some (UInt8.ofNat c) := by
  have hsmall : ∀ c < 0x80, (jsonSingleEscapeChar c).all
      (fun b => c != 0 && simpleEscape b == some (UInt8.ofNat c)) = true := by
    decide
  by_cases hc : c < 0x80
  · have := hsmall c hc
    rw [h] at this
    simpa [hc] using this
  · have hnone : jsonSingleEscapeChar c = none := by
      rw [jsonSingleEscapeChar, lookup_eq_none_iff]
      simp
      omega
    rw [hnone] at h
    cases h

theorem jsonSingleEscapeChar_none (h : jsonSingleEscapeChar c = none) :
    c ≠ backslash.toNat ∧ c ≠ quote.toNat := by
  constructor
  · rintro rfl
    cases h
  · rintro rfl
    cases h

/-- No escape sequence of one character above the ASCII range. -/
theorem escapeUnit_high (h : 126 < c) : escapeUnit c = backslash :: letterU :: hexDigits c := by
  unfold escapeUnit
  cases hc : jsonSingleEscapeChar c with
  | some b =>
    have hall : ∀ c < 0x80, 126 < c → jsonSingleEscapeChar c = none := by decide
    rw [hall c (jsonSingleEscapeChar_some hc).1 h] at hc
    cases hc
  | none => rw [if_pos (by omega)]

/-- The bytes of a code point, without NUL. -/
def keptBytes (c : Nat) : Bytes := cString (appendUnsafe c)

theorem cString_of_not_mem {bytes : Bytes} (h : 0 ∉ bytes) : cString bytes = bytes := by
  unfold cString
  rw [takeWhile_eq_self_iff]
  intro b hb
  rw [bne_iff_ne]
  rintro rfl
  exact h hb

theorem zero_not_mem_appendUnsafe (hc : c < 0x110000) (h : c ≠ 0) :
    (0 : UInt8) ∉ appendUnsafe c := by
  have hbyte : ∀ k, 0 < k → k < 256 → (0 : UInt8) ≠ UInt8.ofNat k := by
    intro k hpos hk heq
    have := congrArg UInt8.toNat heq
    rw [toNat_ofNat_lt hk] at this
    exact hpos.ne this
  rcases lt_or_ge 0x7f c with h₁ | h₁
  · rcases lt_or_ge 0x7ff c with h₂ | h₂
    · rcases lt_or_ge 0xffff c with h₃ | h₃
      · rw [appendUnsafe_four h₃ hc]
        simp only [mem_cons, not_mem_nil, or_false, not_or]
        refine ⟨?_, ?_, ?_, ?_⟩ <;> exact hbyte _ (by omega) (by omega)
      · rw [appendUnsafe_three h₂ h₃]
        simp only [mem_cons, not_mem_nil, or_false, not_or]
        refine ⟨?_, ?_, ?_⟩ <;> exact hbyte _ (by omega) (by omega)
    · rw [appendUnsafe_two h₁ h₂]
      simp only [mem_cons, not_mem_nil, or_false, not_or]
      refine ⟨?_, ?_⟩ <;> exact hbyte _ (by omega) (by omega)
  · rw [appendUnsafe_one h₁]
    simp only [mem_singleton]
    exact hbyte c (by omega) (by omega)

theorem keptBytes_of_ne (hc : c < 0x110000) (h : c ≠ 0) : keptBytes c = appendUnsafe c :=
  cString_of_not_mem (zero_not_mem_appendUnsafe hc h)

theorem keptBytes_zero : keptBytes 0 = [] := rfl

/-- What one code point is written as is read as its bytes. -/
theorem escape_reads (hc : IsScalar c) :
    CharReads hexStringToInt
      ((writeUnicodeCharacter16 c).flatMap fun unit => escapeUnit unit.toNat) (keptBytes c) := by
  have hscalar := isScalar_iff.mp hc
  rcases lt_or_ge 0xffff c with hlarge | hsmall
  · have hlead : c / 1024 + 0xd7c0 < 0x10000 := by omega
    have htrail : c % 1024 + 0xdc00 < 0x10000 := by omega
    have hsurr := (isSurrogate_iff (c := c / 1024 + 0xd7c0) (by omega)).mpr (by omega)
    have h := @CharReads.pair hexStringToInt (hexDigits (c / 1024 + 0xd7c0))
      (hexDigits (c % 1024 + 0xdc00)) _ _ rfl rfl (hexStringToInt_hexDigits hlead)
      (hexStringToInt_hexDigits htrail)
      (by rw [toUInt32_natCast hlead]; exact hsurr)
      (by rw [toUInt32_natCast hlead, isSurrogateLead_iff hsurr (by omega)]; omega)
      (by rw [toUInt32_natCast htrail, isTrailUnit_iff (by omega)]; omega)
    rw [toUInt32_natCast hlead, toUInt32_natCast htrail, getSupplementary_units] at h
    rw [writeUnicodeCharacter16_two hlarge]
    simp only [flatMap_cons, flatMap_nil, append_nil, toNat16_ofNat_lt hlead,
      toNat16_ofNat_lt htrail]
    rw [escapeUnit_high (by omega), escapeUnit_high (by omega)]
    exact h
  · have hunit : c < 0x10000 := by omega
    rw [writeUnicodeCharacter16_one hsmall]
    simp only [flatMap_cons, flatMap_nil, append_nil, toNat16_ofNat_lt hunit]
    unfold escapeUnit
    cases hone : jsonSingleEscapeChar c with
    | some b =>
      obtain ⟨hascii, hne, hesc⟩ := jsonSingleEscapeChar_some hone
      rw [keptBytes_of_ne (by omega) hne, appendUnsafe_one (by omega)]
      exact .simple hesc
    | none =>
      dsimp only
      split
      · have h := @CharReads.unit hexStringToInt (hexDigits c) _ rfl
          (hexStringToInt_hexDigits hunit) (by rw [toUInt32_natCast hunit]; exact hc.2)
        rw [toUInt32_natCast hunit] at h
        exact h
      · obtain ⟨hslash, hquote⟩ := jsonSingleEscapeChar_none hone
        have hplain : isValidCharacter c = true := by
          simp only [isValidCharacter, Bool.or_eq_true, decide_eq_true_eq]
          omega
        rw [keptBytes_of_ne (by omega) (by omega), ← appendUnsafe_one (by omega)]
        exact .plain hplain hslash hquote

/-! ## Strings -/

/-- What is read of a string with these code points. -/
def keptText (cs : List Nat) : Bytes := cs.flatMap keptBytes

variable {cs : List Nat}

section

variable (hcs : ∀ c ∈ cs, IsScalar c)
include hcs

theorem BodyReads.of_scalars :
    BodyReads hexStringToInt ((cs.flatMap writeUnicodeCharacter16).flatMap fun unit =>
      escapeUnit unit.toNat) (keptText cs) := by
  induction cs with
  | nil => exact .nil
  | cons c cs ih =>
    rw [flatMap_cons, flatMap_append, keptText, flatMap_cons]
    exact .cons (escape_reads (hcs c (mem_cons_self ..)))
      (ih fun a ha => hcs a (mem_cons_of_mem _ ha))

theorem appendQuotedString_reads {str : Bytes}
    (hunits : (utf8ToUTF16 str).2 = cs.flatMap writeUnicodeCharacter16) :
    StringReads hexStringToInt (appendQuotedString str) (keptText cs) := by
  have hbody := BodyReads.of_scalars hcs
  rw [appendQuotedString, jsonDoubleQuote, if_pos rfl, hunits, flatMap_map]
  exact .mk hbody

theorem keptText_eq (h : 0 ∉ cs) : keptText cs = cs.flatMap appendUnsafe := by
  unfold keptText
  induction cs with
  | nil => rfl
  | cons c cs ih =>
    rw [flatMap_cons, flatMap_cons,
      ih (fun a ha => hcs a (mem_cons_of_mem _ ha)) (mt (mem_cons_of_mem _) h),
      keptBytes_of_ne (hcs c (mem_cons_self ..)).1]
    rintro rfl
    exact h (mem_cons_self ..)

end

theorem length_keptText_le (cs : List Nat) :
    (keptText cs).length ≤ (cs.flatMap appendUnsafe).length := by
  unfold keptText
  induction cs with
  | nil => exact le_refl _
  | cons c cs ih =>
    have : (keptBytes c).length ≤ (appendUnsafe c).length := (takeWhile_sublist _).length_le
    simp only [flatMap_cons, length_append]
    omega

theorem length_keptText_lt (h : 0 ∈ cs) :
    (keptText cs).length < (cs.flatMap appendUnsafe).length := by
  obtain ⟨front, back, rfl⟩ := append_of_mem h
  have hfront := length_keptText_le front
  have hback := length_keptText_le back
  unfold keptText at hfront hback ⊢
  rw [flatMap_append, flatMap_cons, flatMap_append, flatMap_cons,
    keptBytes_zero, show appendUnsafe 0 = [0] from rfl]
  simp only [length_append, length_nil, length_singleton]
  omega

theorem cbu8Next_of_valid {src : Bytes} {n i : Nat}
    (hvalid : (readUnicodeCharacter src n i).1 = true) : (cbu8Next (ofBytes src) i n).2 =
      i + (appendUnsafe (readUnicodeCharacter src n i).2.1).length := by
  cases hnext : (cbu8Next (ofBytes src) i n).1 with
  | some c =>
    have hpair : cbu8Next (ofBytes src) i n = (some c, (cbu8Next (ofBytes src) i n).2) :=
      Prod.ext hnext rfl
    obtain ⟨-, -, hj, -⟩ := cbu8Next_iff.mp hpair
    rw [readUnicodeCharacter, hnext]
    exact hj
  | none =>
    rw [readUnicodeCharacter, hnext] at hvalid
    cases hvalid

/-- However long the source is, what the conversion makes of it is not more than three times as
long as what it looks at. -/
theorem convertLoop_length {src : Bytes} {n fuel i : Nat} {success : Bool} {output : List UInt16} :
    ∃ cs : List Nat, (∀ c ∈ cs, IsScalar c) ∧
      (convertLoop (readUnicodeCharacter src n) writeUnicodeCharacter16 n fuel i success output).2 =
        output ++ cs.flatMap writeUnicodeCharacter16 ∧
      (cs.flatMap appendUnsafe).length ≤ 3 * (n - i) := by
  induction fuel generalizing i success output with
  | zero => exact ⟨[], nofun, by simp [convertLoop], by simp⟩
  | succ fuel ih =>
    rw [convertLoop]
    by_cases hi : i < n
    · rw [if_pos hi]
      obtain ⟨hlt, hle⟩ := @cbu8Next_bounds (ofBytes src) i n hi
      have hnext : (readUnicodeCharacter src n i).2.2 + 1 = (cbu8Next (ofBytes src) i n).2 := by
        unfold readUnicodeCharacter
        dsimp only
        omega
      dsimp only
      rw [hnext]
      split
      · rename_i hvalid
        obtain ⟨cs, hcs, hloop, hlen⟩ := @ih (cbu8Next (ofBytes src) i n).2 success
          (output ++ writeUnicodeCharacter16 (readUnicodeCharacter src n i).2.1)
        have hscalar := isValidCodepoint_iff.mp hvalid
        refine ⟨(readUnicodeCharacter src n i).2.1 :: cs, ?_, ?_, ?_⟩
        · intro c hc
          obtain rfl | hc := mem_cons.mp hc
          · exact hscalar
          · exact hcs c hc
        · rw [hloop, flatMap_cons, append_assoc]
        · have hread := cbu8Next_of_valid hvalid
          rw [flatMap_cons, length_append]
          omega
      · obtain ⟨cs, hcs, hloop, hlen⟩ := @ih (cbu8Next (ofBytes src) i n).2 false
          (output ++ writeUnicodeCharacter16 0xfffd)
        refine ⟨0xfffd :: cs, ?_, ?_, ?_⟩
        · intro c hc
          obtain rfl | hc := mem_cons.mp hc
          · exact replacement_isScalar
          · exact hcs c hc
        · rw [hloop, flatMap_cons, append_assoc]
        · have : (appendUnsafe 0xfffd).length = 3 := rfl
          rw [flatMap_cons, length_append]
          omega
    · rw [if_neg hi]
      exact ⟨[], nofun, by simp, by simp⟩

/-- A string that comes back whole. -/
def Kept (str : Bytes) : Prop := 0 ∉ str ∧ str.length < 2 ^ 31

/-- Valid UTF-8, of code points that the parser admits. -/
def ValidText (str : Bytes) : Prop :=
  ∃ cs : List Nat, (∀ c ∈ cs, isValidCharacter c = true) ∧ str = cs.flatMap appendUnsafe

theorem wrapInt_long {n : Nat} (h : 2 ^ 31 ≤ n) : 3 * (wrapInt n).toNat < n := by
  rw [wrapInt, Int.bmod_def]
  omega

/-- A quoted string is read as the string itself, or as a shorter one. -/
theorem quoted_reads {str : Bytes} (h : ValidText str) :
    ∃ d, StringReads hexStringToInt (appendQuotedString str) d ∧ (Kept str → d = str) ∧
      (¬Kept str → d.length < str.length) := by
  obtain ⟨cs, hvalid, hstr⟩ := h
  have hcs : ∀ c ∈ cs, IsScalar c := fun c hc => isValidCharacter_isScalar (hvalid c hc)
  by_cases hlen : str.length < 2 ^ 31
  · have hconv := utf8ToUTF16_converts hlen
    rw [hstr] at hconv
    have hunits := congrArg Prod.snd (hconv.of_flatMap prefixCode_appendUnsafe hcs)
    rw [← hstr] at hunits
    refine ⟨keptText cs, appendQuotedString_reads hcs hunits, ?_, ?_⟩
    · rintro ⟨hzero, -⟩
      rw [hstr, keptText_eq hcs]
      intro hmem
      refine hzero ?_
      rw [hstr, mem_flatMap]
      exact ⟨0, hmem, mem_singleton_self _⟩
    · intro hnot
      rw [hstr]
      refine length_keptText_lt ?_
      have hzero : 0 ∈ str := by
        by_contra hzero
        exact hnot ⟨hzero, hlen⟩
      rw [hstr, mem_flatMap] at hzero
      obtain ⟨c, hc, hzero⟩ := hzero
      by_contra hnone
      refine zero_not_mem_appendUnsafe (hcs c hc).1 ?_ hzero
      rintro rfl
      exact hnone hc
  · obtain ⟨cs', hcs', hloop, hbound⟩ := @convertLoop_length str (wrapInt str.length).toNat
      str.length 0 true []
    refine ⟨keptText cs', appendQuotedString_reads hcs' hloop, fun hkept => absurd hkept.2 hlen,
      fun _ => ?_⟩
    have hwrap := wrapInt_long (Nat.le_of_not_lt hlen)
    have hle := length_keptText_le cs'
    omega

/-! ## What is written is read

The parser's grammar reads what the writer writes: the same value, or one whose strings are
shorter in all. -/

open NumberTraits

/-! ## Integers -/

theorem digitLoop_append {t : NumberTraits} {negative first : Bool} {output result : Int}
    {ds : Bytes} (hne : ds ≠ []) (h : t.digitLoop negative first output ds = (result, true))
    (es : Bytes) : t.digitLoop negative first output (ds ++ es) =
      t.digitLoop negative false result es := by
  induction ds generalizing first output with
  | nil => exact absurd rfl hne
  | cons c ds ih =>
    have hnext : ∀ {output : Int}, t.digitLoop negative false output ds = (result, true) →
        t.digitLoop negative false output (ds ++ es) = t.digitLoop negative false result es := by
      intro output h
      cases ds with
      | nil =>
        obtain rfl := congrArg Prod.fst h
        rfl
      | cons d ds => exact ih (cons_ne_nil _ _) h
    rw [digitLoop] at h
    rw [cons_append, digitLoop]
    cases hdigit : charToDigit t.base c with
    | none =>
      rw [hdigit] at h
      cases h
    | some digit =>
      rw [hdigit] at h
      dsimp only at h ⊢
      split at h
      · rename_i hfirst
        rw [if_pos hfirst]
        exact hnext h
      · rename_i hfirst
        rw [if_neg hfirst]
        split at h
        · cases h
        · rename_i hbounds
          rw [if_neg hbounds]
          exact hnext h

theorem decimal_digit {n : Nat} (h : n < 10) : charToDigit 10 (UInt8.ofNat (0x30 + n)) = some n ∧
    isAsciiDigit (UInt8.ofNat (0x30 + n)) = true ∧
    (UInt8.ofNat (0x30 + n) = 0x30 → n = 0) := by
  revert n
  decide

theorem decimalDigits_ne_nil (n : Nat) : decimalDigits n ≠ [] := by
  rw [decimalDigits]
  split
  · exact cons_ne_nil _ _
  · exact append_ne_nil_of_right_ne_nil _ (cons_ne_nil _ _)

theorem decimalDigits_digits (n : Nat) : ∀ b ∈ decimalDigits n, isAsciiDigit b = true := by
  induction n using Nat.strong_induction_on with
  | _ n ih =>
    intro b hb
    rw [decimalDigits] at hb
    split at hb
    · rename_i hsmall
      rw [mem_singleton.mp hb]
      exact (decimal_digit hsmall).2.1
    · obtain hb | hb := mem_append.mp hb
      · exact ih (n / 10) (by omega) b hb
      · rw [mem_singleton.mp hb]
        exact (decimal_digit (Nat.mod_lt n (by decide))).2.1

theorem decimalDigits_leading {n : Nat} (h : (decimalDigits n).head? = some 0x30) : n = 0 := by
  induction n using Nat.strong_induction_on with
  | _ n ih =>
    rw [decimalDigits] at h
    split at h
    · rename_i hsmall
      exact (decimal_digit hsmall).2.2 (Option.some.inj h)
    · rename_i hlarge
      rw [head?_append_of_ne_nil _ (decimalDigits_ne_nil _)] at h
      have := ih (n / 10) (by omega) h
      omega

def signed (negative : Bool) (n : Nat) : Int := if negative then -(n : Int) else n

theorem wrapInt_range {v : Int} (hlow : -2 ^ 31 ≤ v) (hhigh : v < 2 ^ 31) : wrapInt v = v := by
  unfold wrapInt
  rw [Int.bmod_def]
  omega

theorem signed_step {negative : Bool} {n digit : Nat} :
    signed negative (n * 10 + digit) =
      if negative then signed negative n * 10 - digit else signed negative n * 10 + digit := by
  unfold signed
  cases negative
  · simp
  · simp
    omega

/-- The digits of a number in the range of an int. -/
theorem digitLoop_decimalDigits {negative : Bool} {n : Nat} (hlow : -2 ^ 31 ≤ signed negative n)
    (hhigh : signed negative n < 2 ^ 31) :
    intTraits.digitLoop negative true 0 (decimalDigits n) = (signed negative n, true) := by
  induction n using Nat.strong_induction_on with
  | _ n ih =>
    rw [decimalDigits]
    split
    · rename_i hsmall
      rw [digitLoop, show charToDigit intTraits.base _ = some n from
        (decimal_digit hsmall).1]
      dsimp only
      rw [if_pos rfl, digitLoop, increment]
      unfold signed at hlow hhigh ⊢
      cases negative
      · simp at hlow hhigh ⊢
        exact wrapInt_range (by omega) (by omega)
      · simp at hlow hhigh ⊢
        exact wrapInt_range (by omega) (by omega)
    · rename_i hlarge
      have hparts : n / 10 * 10 + n % 10 = n := by omega
      have hstep := @signed_step negative (n / 10) (n % 10)
      rw [hparts] at hstep
      have hlt := Nat.mod_lt n (by decide : 0 < 10)
      have hfront : -2 ^ 31 ≤ signed negative (n / 10) ∧ signed negative (n / 10) < 2 ^ 31 := by
        unfold signed at hlow hhigh ⊢
        cases negative <;> simp at hlow hhigh ⊢ <;> omega
      have hscaled : -2 ^ 31 ≤ signed negative (n / 10) * 10 ∧
          signed negative (n / 10) * 10 < 2 ^ 31 := by
        unfold signed at hlow hhigh ⊢
        cases negative <;> simp at hlow hhigh ⊢ <;> omega
      have hbounds : intTraits.outOfBounds negative (signed negative (n / 10)) (n % 10) = false := by
        unfold NumberTraits.outOfBounds signed
        unfold signed at hlow hhigh
        cases negative
        · rw [if_neg (by decide), if_neg (by decide),
            show wrapInt (intTraits.max.tdiv (intTraits.base : Int)) = 214748364 from rfl,
            show intTraits.max.tmod (intTraits.base : Int) = 7 from rfl]
          simp at hlow hhigh ⊢
          omega
        · rw [if_pos rfl, if_pos rfl,
            show intTraits.min.tdiv (intTraits.base : Int) = -214748364 from rfl,
            show intTraits.min.tmod (intTraits.base : Int) = -8 from rfl]
          simp at hlow hhigh ⊢
          omega
      rw [digitLoop_append (decimalDigits_ne_nil _) (ih (n / 10) (by omega) hfront.1 hfront.2),
        digitLoop, show charToDigit intTraits.base _ = some (n % 10) from
        (decimal_digit hlt).1]
      dsimp only
      rw [if_neg (by decide), hbounds, if_neg (by decide), digitLoop,
        show (intTraits.base : Int) = 10 from rfl, wrapInt_range hscaled.1 hscaled.2, increment,
        ← hstep, wrapInt_range hlow hhigh]
/-- The text of an integer, as a number of the grammar. -/
def decimalNumber (value : Int) : Number where
  sign := if value < 0 then [minus] else []
  int := decimalDigits value.natAbs
  fraction := []
  exponent := []
  sign_ok := by split <;> simp
  int_ok := by
    refine ⟨⟨decimalDigits_ne_nil _, decimalDigits_digits _⟩, fun h => ?_⟩
    rw [decimalDigits_leading h, decimalDigits]
    rfl
  fraction_ok := Or.inl rfl
  exponent_ok := Or.inl rfl

theorem decimalNumber_text (value : Int) : (decimalNumber value).text = decimalText value := by
  unfold Number.text decimalNumber decimalText
  split <;> simp

theorem digit_no_sign (b : UInt8) : isAsciiDigit b = true →
    isSpace b = false ∧ b ≠ 0x2d ∧ b ≠ 0x2b := by
  revert b
  apply forall_byte
  decide +kernel

theorem invokeDigits_decimal (negative : Bool) (ds : Bytes) (hne : ds ≠ []) :
    intTraits.invokeDigits negative ds = intTraits.digitLoop negative true 0 ds := by
  unfold invokeDigits
  split
  · exact absurd rfl hne
  · exact if_neg fun h => absurd h.1 (by decide)
  · rfl

theorem stringToInt_decimalText {value : Int} (hlow : intMin ≤ value) (hhigh : value ≤ intMax) :
    stringToInt (decimalText value) = some value := by
  have hmin : intMin = -2 ^ 31 := rfl
  have hmax : intMax = 2 ^ 31 - 1 := rfl
  have hne := decimalDigits_ne_nil value.natAbs
  have hinvoke : intTraits.invoke (decimalText value) = (value, true) := by
    unfold decimalText
    split
    · rename_i hnegative
      have hvalue : signed true value.natAbs = value := by
        unfold signed
        rw [if_pos rfl]
        omega
      rw [invoke, if_neg (by decide), if_pos rfl, invokeDigits_decimal _ _ hne,
        digitLoop_decimalDigits (by omega) (by omega), hvalue]
    · rename_i hnonnegative
      have hvalue : signed false value.natAbs = value := by
        unfold signed
        rw [if_neg (by decide)]
        omega
      have hloop := @digitLoop_decimalDigits false value.natAbs (by omega) (by omega)
      rw [hvalue, ← invokeDigits_decimal _ _ hne] at hloop
      have hdigits := decimalDigits_digits value.natAbs
      cases hds : decimalDigits value.natAbs with
      | nil => exact absurd hds hne
      | cons b ds =>
        rw [hds] at hdigits hloop
        obtain ⟨hspace, hminus, hplus⟩ := digit_no_sign b (hdigits b (mem_cons_self ..))
        rw [invoke, hspace, if_neg (by decide), if_neg hminus, if_neg hplus]
        exact hloop
  unfold stringToInt convert
  rw [hinvoke, if_pos rfl]

end ChromiumUI.Json
