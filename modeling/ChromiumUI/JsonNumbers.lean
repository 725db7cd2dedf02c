import ChromiumUI.JsonGrammar
import ChromiumUI.LongestPrefix

/-!
# Numbers and literals

ConsumeNumber succeeds exactly on a `Number` in front of a token that ends a value, ConsumeLiteral
exactly on one of the three words. What a number at the very end of the input still depends on is
the byte behind it.
-/
namespace ChromiumUI.Json

open ByteMemory Base List Nat State

variable {input : Input}

/-! ## Bytes -/

/-- What holds of all 256 bytes holds of every byte. -/
theorem forall_byte {P : UInt8 → Prop} (h : ∀ n : Fin 256, P (UInt8.ofNat n)) (b : UInt8) :
    P b := by
  have hb := h ⟨b.toNat, b.toNat_lt⟩
  rwa [UInt8.ofNat_toNat] at hb

/-- No digit is in front. -/
def NoDigit (r : Bytes) : Prop := ∀ b ∈ r.head?, isAsciiDigit b = false

theorem number_byte (b : UInt8) :
    isAsciiDigit b = true ∨ b = dot ∨ b = letterE ∨ b = capitalE →
      isWhitespace b = false ∧ b ≠ slash ∧ tokenOf b ≠ .objectEnd ∧ tokenOf b ≠ .arrayEnd ∧
        tokenOf b ≠ .listSeparator ∧ tokenOf b ≠ .endOfInput := by
  revert b
  apply forall_byte
  decide +kernel

variable {r : Bytes}

/-- Nothing that would go on with a number can stand behind one. -/
theorem Follows.head {b : UInt8} (h : Follows (b :: r)) :
    isAsciiDigit b = false ∧ b ≠ dot ∧ b ≠ letterE ∧ b ≠ capitalE := by
  by_contra hcontra
  have hb : isAsciiDigit b = true ∨ b = dot ∨ b = letterE ∨ b = capitalE := by
    cases hdigit : isAsciiDigit b
    · simp [hdigit] at hcontra
      tauto
    · exact Or.inl rfl
  obtain ⟨hblack, hslash, h₁, h₂, h₃, h₄⟩ := number_byte b hb
  rw [Follows, dropGap_here hblack hslash] at h
  exact h.elim h₁ (Or.rec h₂ (Or.rec h₃ h₄))

theorem Follows.noDigit (h : Follows r) : NoDigit r := by
  cases r with
  | nil => exact nofun
  | cons b r =>
    intro c hc
    obtain rfl : b = c := by simpa using hc
    exact h.head.1

/-! ## Runs of digits -/

variable {s : State}

theorem readDigits_eq {fuel : Nat} (hfuel : input.length ≤ s.pos + fuel) (len : Nat) :
    input.readDigits fuel s len =
      (len + ((input.rest s.pos).takeWhile isAsciiDigit).length,
        s.nextNChars ((input.rest s.pos).takeWhile isAsciiDigit).length) := by
  induction fuel generalizing s len with
  | zero =>
    rw [rest_of_le (by omega)]
    rfl
  | succ fuel ih =>
    rw [Input.readDigits]
    rcases lt_or_ge s.pos input.length with hpos | hpos
    · rw [rest_of_lt hpos, takeWhile_cons]
      by_cases hdigit : isAsciiDigit (input.cur s) = true
      · rw [if_pos ⟨hpos, hdigit⟩, if_pos hdigit, ih (by rw [nextChar_pos]; omega)]
        rw [nextChar_pos, length_cons]
        simp only [nextChar, nextNChars, Prod.mk.injEq, State.mk.injEq, and_true]
        omega
      · rw [if_neg (fun h => hdigit h.2), if_neg hdigit]
        rfl
    · rw [rest_of_le hpos, if_neg (fun h => absurd h.1 (by simp; omega))]
      rfl

theorem head_of_rest {p : Nat} {ds : Bytes} (h : input.rest p = ds ++ r) (hne : ds ≠ []) :
    ds.head? = some (input.mem p) := by
  cases ds with
  | nil => exact absurd rfl hne
  | cons b ds => rw [(mem_of_rest h).1, List.head?_cons]

variable {s' : State}

/-- ReadInt takes all the digits there are, at least one, and without a leading zero unless
that is allowed. -/
theorem readInt_iff {allowLeadingZeros : Bool} :
    input.readInt allowLeadingZeros s = (true, s') ↔
      ∃ ds r, input.rest s.pos = ds ++ r ∧ Digits ds ∧ NoDigit r ∧
        (allowLeadingZeros = false → ds.head? = some 0x30 → ds.length = 1) ∧
        s' = s.nextNChars ds.length := by
  rw [Input.readInt, readDigits_eq (Nat.le_add_left _ _), Nat.zero_add]
  dsimp only
  constructor
  · intro h
    split at h
    · cases h
    · rename_i hlen
      split at h
      · cases h
      · rename_i hzero
        obtain rfl : _ = s' := by simpa using h
        have hrest := (takeWhile_append_dropWhile
          (p := isAsciiDigit) (l := input.rest s.pos)).symm
        have hne : (input.rest s.pos).takeWhile isAsciiDigit ≠ [] :=
          fun hnil => hlen (by rw [hnil]; rfl)
        refine ⟨_, _, hrest, ⟨hne, fun b hb => mem_takeWhile_imp hb⟩,
          LongestPrefix.head?_dropWhile _ _, ?_, rfl⟩
        intro hallow hhead
        rw [head_of_rest hrest hne, Option.some.injEq] at hhead
        by_contra hone
        exact hzero ⟨by simp [hallow], by omega, hhead⟩
  · rintro ⟨ds, r, hrest, ⟨hne, hds⟩, hr, hzero, rfl⟩
    rw [hrest, LongestPrefix.takeWhile_append hds hr,
      if_neg (fun h => hne (length_eq_zero_iff.mp h)), if_neg]
    rintro ⟨hallow, hlong, hcur⟩
    have := hzero (by simpa using hallow) (by rw [head_of_rest hrest hne]; exact congrArg some hcur)
    omega

theorem readInt_true {ds : Bytes} (allowLeadingZeros : Bool) (hrest : input.rest s.pos = ds ++ r)
    (hds : Digits ds) (hr : NoDigit r)
    (hzero : allowLeadingZeros = false → ds.head? = some 0x30 → ds.length = 1) :
    input.readInt allowLeadingZeros s = (true, s.nextNChars ds.length) :=
  readInt_iff.mpr ⟨ds, r, hrest, hds, hr, hzero, rfl⟩

/-! ## The optional parts -/

theorem nextNChars_add (s : State) (m n : Nat) :
    (s.nextNChars m).nextNChars n = s.nextNChars (m + n) := by
  simp only [nextNChars, Nat.add_assoc]

theorem readFraction_iff (hnoDigit : NoDigit (input.rest s.pos)) :
    input.readFraction s = .ok s' ↔
      ∃ text r, input.rest s.pos = text ++ r ∧ FractionText text ∧ NoDigit r ∧
        (text = [] → input.mem s.pos ≠ dot) ∧ s' = s.nextNChars text.length := by
  constructor
  · intro h
    unfold Input.readFraction at h
    split at h
    · rename_i hdot
      split at h
      · cases h
      · rename_i hpos
        split at h
        · cases h
        · rename_i t hint
          obtain rfl : t = s' := by simpa using h
          obtain ⟨ds, r, hrest, hds, hr, -, rfl⟩ := readInt_iff.mp hint
          refine ⟨dot :: ds, r, ?_, Or.inr ⟨ds, rfl, hds⟩, hr, nofun, ?_⟩
          · rw [rest_of_lt (not_not.mp hpos), show input.mem s.pos = dot from hdot]
            exact congrArg _ hrest
          · rw [nextChar, nextNChars_add, Nat.add_comm]
            rfl
    · rename_i hdot
      obtain rfl : s = s' := by simpa using h
      exact ⟨[], _, rfl, Or.inl rfl, hnoDigit, fun _ => hdot, rfl⟩
  · rintro ⟨text, r, hrest, htext | ⟨ds, rfl, hds⟩, hr, hdot, rfl⟩
    · rw [Input.readFraction, if_neg (hdot htext), htext]
      rfl
    · have hpos := lt_of_rest_cons hrest
      obtain ⟨hfirst, htail⟩ := mem_of_rest hrest
      rw [Input.readFraction, if_pos (show input.cur s = dot from hfirst),
        if_neg (not_not.mpr (show input.canConsume s 1 from hpos)),
        readInt_true (s := s.nextChar) true htail hds hr (fun h => nomatch h)]
      rw [nextChar, nextNChars_add, Nat.add_comm]
      rfl

theorem digit_not_sign (b : UInt8) : isAsciiDigit b = true → b ≠ minus ∧ b ≠ plus := by
  revert b
  apply forall_byte
  decide +kernel

theorem readExponent_iff (hnoDigit : NoDigit (input.rest s.pos)) :
    input.readExponent s = .ok s' ↔
      ∃ text r, input.rest s.pos = text ++ r ∧ ExponentText text ∧ NoDigit r ∧
        (text = [] → input.mem s.pos ≠ letterE ∧ input.mem s.pos ≠ capitalE) ∧
        s' = s.nextNChars text.length := by
  constructor
  · intro h
    unfold Input.readExponent at h
    split at h
    · rename_i he
      dsimp only at h
      split at h
      · cases h
      · rename_i t hint
        obtain rfl : t = s' := by simpa using h
        obtain ⟨ds, r, hrest, hds, hr, -, rfl⟩ := readInt_iff.mp hint
        have hne : ds ++ r ≠ [] := fun h => hds.1 (append_eq_nil_iff.mp h).1
        split at hrest
        · rename_i hsign
          have hpos : s.pos + 2 < input.length := by
            by_contra hle
            exact hne (hrest.symm.trans (rest_of_le (by simp only [nextChar_pos]; omega)))
          refine ⟨input.mem s.pos :: ([input.mem (s.pos + 1)] ++ ds), r, ?_,
            Or.inr ⟨_, _, ds, rfl, he, ?_, hds⟩, hr, nofun, ?_⟩
          · rw [rest_of_lt (by omega), rest_of_lt (p := s.pos + 1) (by omega)]
            exact congrArg (fun l => input.mem s.pos :: input.mem (s.pos + 1) :: l) hrest
          · rcases hsign with hsign | hsign
            · exact Or.inr (Or.inl (congrArg (fun b => [b]) hsign))
            · exact Or.inr (Or.inr (congrArg (fun b => [b]) hsign))
          · rw [if_pos hsign]
            simp only [nextChar, nextNChars_add]
            rw [show 1 + 1 + ds.length = ds.length + 1 + 1 by omega]
            rfl
        · rename_i hsign
          have hpos : s.pos + 1 < input.length := by
            by_contra hle
            exact hne (hrest.symm.trans (rest_of_le (by simp only [nextChar_pos]; omega)))
          refine ⟨input.mem s.pos :: ([] ++ ds), r, ?_, Or.inr ⟨_, _, ds, rfl, he, Or.inl rfl, hds⟩,
            hr, nofun, ?_⟩
          · rw [rest_of_lt (by omega)]
            exact congrArg (input.mem s.pos :: ·) hrest
          · rw [if_neg hsign]
            simp only [nextChar, nextNChars_add]
            rw [Nat.add_comm]
            rfl
    · rename_i he
      obtain rfl : s = s' := by simpa using h
      exact ⟨[], _, rfl, Or.inl rfl, hnoDigit, fun _ => not_or.mp he, rfl⟩
  · rintro ⟨text, r, hrest, htext | ⟨e, sgn, ds, rfl, he, hsgn, hds⟩, hr, hstop, rfl⟩
    · rw [Input.readExponent, if_neg (not_or.mpr (hstop htext)), htext]
      rfl
    · obtain ⟨hfirst, htail⟩ := mem_of_rest hrest
      rw [Input.readExponent, if_pos (show input.cur s = letterE ∨ input.cur s = capitalE by
        rw [← hfirst] at he
        exact he)]
      dsimp only
      have hsigned : ∀ b : UInt8, b = minus ∨ b = plus → sgn = [b] →
          (if input.cur s.nextChar = minus ∨ input.cur s.nextChar = plus then s.nextChar.nextChar
            else s.nextChar) = s.nextNChars 2 ∧ input.rest (s.pos + 2) = ds ++ r := by
        intro b hb hsgn
        rw [hsgn] at htail
        obtain ⟨hsecond, htail'⟩ := mem_of_rest htail
        refine ⟨?_, htail'⟩
        rw [← hsecond] at hb
        rw [if_pos (show input.cur s.nextChar = minus ∨ input.cur s.nextChar = plus from hb)]
        rfl
      rcases hsgn with rfl | hsgn
      · have hhead := head_of_rest (p := s.pos + 1) htail hds.1
        have hdigit := hds.2 _ (mem_of_mem_head? hhead)
        obtain ⟨hminus, hplus⟩ := digit_not_sign _ hdigit
        rw [if_neg (fun h => h.elim hminus hplus),
          readInt_true (s := s.nextChar) true htail hds hr (fun h => nomatch h)]
        rw [nextChar, nextNChars_add, Nat.add_comm]
        rfl
      · obtain ⟨b, hb, hsgn⟩ : ∃ b, (b = minus ∨ b = plus) ∧ sgn = [b] := by
          rcases hsgn with h | h
          · exact ⟨_, Or.inl rfl, h⟩
          · exact ⟨_, Or.inr rfl, h⟩
        obtain ⟨hstate, htail'⟩ := hsigned b hb hsgn
        rw [hstate, readInt_true (s := s.nextNChars 2) true htail' hds hr (fun h => nomatch h), hsgn]
        rw [nextNChars_add, Nat.add_comm]
        rfl

/-! ## ConsumeNumber -/

/-- Where a number without an exponent ends, `b` would make the parser go on with it. -/
def Number.GoesOn (num : Number) (b : UInt8) : Prop :=
  num.exponent = [] ∧ (b = letterE ∨ b = capitalE ∨ (b = dot ∧ num.fraction = []))

variable {F : Type} {stringToDouble : Bytes → Option F}

variable {start : State}

theorem finishNumber_iff {v : Value F} (hsync : s.index = s.pos) :
    input.finishNumber stringToDouble start s = .ok (v, s') ↔
      Follows (input.rest s.pos) ∧
        numberValue stringToDouble (load input.mem start.pos (s.index - start.index)) = some v ∧
        s' = { (input.getNextToken s).2 with pos := s.pos - 1, index := s.index - 1 } := by
  obtain ⟨-, htoken⟩ := @getNextToken_leaves input s hsync
  rw [Follows, ← htoken, Input.finishNumber]
  cases hnext : input.getNextToken s with
  | mk token t =>
    cases hvalue : numberValue stringToDouble
        (load input.mem start.pos (s.index - start.index)) with
    | none => cases token <;> simp
    | some w => cases token <;> simp [eq_comm]

/-- A number that ConsumeNumber has read. -/
structure NumberAt (input : Input) (p : Nat) (num : Number) (r : Bytes) : Prop where
  rest : input.rest p = num.text ++ r
  follows : Follows r
  stops : r = [] → ¬num.GoesOn (input.mem input.length)

/-- The sign in front of a number. -/
theorem exists_sign (hpos : start.pos < input.length) :
    ∃ sgn, (sgn = [] ∨ sgn = [minus]) ∧
      input.rest start.pos = sgn ++ input.rest (start.pos + sgn.length) ∧
      (if input.cur start = minus then start.nextChar else start) =
        start.nextNChars sgn.length := by
  by_cases hminus : input.cur start = minus
  · refine ⟨[minus], Or.inr rfl, ?_, if_pos hminus⟩
    rw [rest_of_lt hpos, show input.mem start.pos = minus from hminus]
    rfl
  · exact ⟨[], Or.inl rfl, rfl, if_neg hminus⟩

theorem rest_nil_eq {p : Nat} (h : input.rest p = []) (hle : p ≤ input.length) :
    p = input.length := le_antisymm hle (rest_eq_nil_iff.mp h)

theorem rest_add {p : Nat} {s : Bytes} (h : input.rest p = s ++ r) :
    input.rest (p + s.length) = r := (load_of_rest h).2

theorem consumeNumber_sound {v : Value F} (hsync : start.index = start.pos)
    (hpos : start.pos < input.length) (h : input.consumeNumber stringToDouble start = .ok (v, s')) :
    ∃ num r, NumberAt input start.pos num r ∧ numberValue stringToDouble num.text = some v ∧
      s'.index = s'.pos ∧ s'.pos + 1 = start.pos + num.text.length := by
  obtain ⟨sgn, hsgn, hrest₀, hstate⟩ := exists_sign hpos
  rw [Input.consumeNumber, hstate] at h
  split at h
  · cases h
  · rename_i s₁ hint
    obtain ⟨ds, r₁, hrest₁, hds, hr₁, hzero, rfl⟩ := readInt_iff.mp hint
    rw [nextNChars_add] at h
    rw [nextNChars_pos] at hrest₁
    have hrest₂ := rest_add hrest₁
    split at h
    · cases h
    · rename_i s₃ hparts
      obtain ⟨s₂, hfrac, hexp⟩ : ∃ s₂,
          input.readFraction (start.nextNChars (sgn.length + ds.length)) = .ok s₂ ∧
            input.readExponent s₂ = .ok s₃ := by
        cases hfrac : input.readFraction (start.nextNChars (sgn.length + ds.length)) with
        | error e => rw [hfrac] at hparts; cases hparts
        | ok s₂ => rw [hfrac] at hparts; exact ⟨s₂, rfl, hparts⟩
      have hpos₂ : (start.nextNChars (sgn.length + ds.length)).pos =
          start.pos + sgn.length + ds.length := by
        rw [nextNChars_pos]
        omega
      obtain ⟨ftext, r₂, hrest₃, hftext, hr₂, hdot, rfl⟩ :=
        (readFraction_iff (by rw [hpos₂, hrest₂]; exact hr₁)).mp hfrac
      rw [hpos₂] at hrest₃ hdot
      have hrest₄ := rest_add hrest₃
      rw [nextNChars_add] at hexp
      have hpos₃ : (start.nextNChars (sgn.length + ds.length + ftext.length)).pos =
          start.pos + sgn.length + ds.length + ftext.length := by
        rw [nextNChars_pos]
        omega
      obtain ⟨etext, r₃, hrest₅, hetext, hr₃, hletter, rfl⟩ :=
        (readExponent_iff (by rw [hpos₃, hrest₄]; exact hr₂)).mp hexp
      rw [hpos₃] at hrest₅ hletter
      rw [nextNChars_add] at h
      set num : Number := ⟨sgn, ds, ftext, etext, hsgn, ⟨hds, hzero rfl⟩, hftext, hetext⟩ with hnum
      have hlen : num.text.length = sgn.length + ds.length + ftext.length + etext.length := by
        simp [Number.text, hnum]
        omega
      have hdigits : 0 < ds.length := length_pos_iff.mpr hds.1
      have hrest : input.rest start.pos = num.text ++ r₃ := by
        rw [hrest₀, hrest₁, ← hrest₂, hrest₃, ← hrest₄, hrest₅]
        simp [Number.text, hnum]
      obtain ⟨hload, hrest₆⟩ := load_of_rest hrest
      rw [← hlen] at h
      obtain ⟨hfol, hvalue, rfl⟩ := (finishNumber_iff (by
        rw [nextNChars_index, nextNChars_pos, hsync])).mp h
      rw [nextNChars_pos, hrest₆] at hfol
      rw [nextNChars_index, Nat.add_sub_cancel_left, hload] at hvalue
      refine ⟨num, r₃, ⟨hrest, hfol, ?_⟩, hvalue, ?_, ?_⟩
      · rintro rfl ⟨hexponentNil, hgoes⟩
        have hle := le_of_rest hrest (by
          intro hnil
          rw [hnil] at hlen
          simp only [length_nil] at hlen
          omega)
        have hend := rest_nil_eq hrest₆ hle
        have hnil : etext = [] := hexponentNil
        rw [hlen, hnil, length_nil] at hend
        obtain hgoes | hgoes | ⟨hgoes, hfractionNil⟩ := hgoes
        · apply (hletter hnil).1
          rw [show start.pos + sgn.length + ds.length + ftext.length = input.length by omega, hgoes]
        · apply (hletter hnil).2
          rw [show start.pos + sgn.length + ds.length + ftext.length = input.length by omega, hgoes]
        · have hfnil : ftext = [] := hfractionNil
          apply hdot hfnil
          rw [hfnil, length_nil] at hend
          rw [show start.pos + sgn.length + ds.length = input.length by omega, hgoes]
      · dsimp only
        rw [nextNChars_index, nextNChars_pos, hsync]
      · dsimp only
        rw [nextNChars_pos]
        omega

/-- What stands behind a part of a number begins with none of the bytes that go on with it. -/
theorem NumberAt.behind {p q : Nat} {num : Number} {t : Bytes} (h : NumberAt input p num r)
    (hrest : input.rest q = t ++ r) (hle : q ≤ input.length) {b : UInt8} (ht : ∀ c ∈ t.head?, c ≠ b)
    (hr : ∀ c r', r = c :: r' → c ≠ b) (hend : t = [] → r = [] → input.mem input.length ≠ b) :
    input.mem q ≠ b := by
  cases t with
  | cons c t =>
    rw [(mem_of_rest hrest).1]
    exact ht c rfl
  | nil =>
    cases r with
    | cons c r =>
      rw [(mem_of_rest hrest).1]
      exact hr c r rfl
    | nil =>
      rw [rest_nil_eq hrest hle]
      exact hend rfl rfl

theorem not_digit_parts : isAsciiDigit dot = false ∧ isAsciiDigit letterE = false ∧
    isAsciiDigit capitalE = false := by
  decide

theorem FractionText.noDigit {text : Bytes} (h : FractionText text) (hr : NoDigit r) :
    NoDigit (text ++ r) := by
  obtain rfl | ⟨ds, rfl, -⟩ := h
  · exact hr
  · intro b hb
    obtain rfl : dot = b := by simpa using hb
    exact not_digit_parts.1

theorem ExponentText.noDigit {text : Bytes} (h : ExponentText text) (hr : NoDigit r) :
    NoDigit (text ++ r) := by
  obtain rfl | ⟨e, sgn, ds, rfl, he, -, -⟩ := h
  · exact hr
  · intro b hb
    obtain rfl : e = b := by simpa using hb
    obtain rfl | rfl := he
    · exact not_digit_parts.2.1
    · exact not_digit_parts.2.2

theorem consumeNumber_complete {v : Value F} {num : Number} (hsync : start.index = start.pos)
    (h : NumberAt input start.pos num r) (hvalue : numberValue stringToDouble num.text = some v) :
    ∃ s', input.consumeNumber stringToDouble start = .ok (v, s') ∧ s'.index = s'.pos ∧
      s'.pos + 1 = start.pos + num.text.length := by
  have hrest := h.rest
  rw [Number.text, append_assoc, append_assoc, append_assoc] at hrest
  have hds : 0 < num.int.length := length_pos_iff.mpr num.int_ok.1.1
  have hlen : num.text.length =
      num.sign.length + num.int.length + num.fraction.length + num.exponent.length := by
    simp [Number.text]
    omega
  have hle := le_of_rest h.rest (by
    intro hnil
    rw [hnil] at hlen
    simp only [length_nil] at hlen
    omega)
  have hr := h.follows.noDigit
  have hrest₁ := rest_add hrest
  have hrest₂ := rest_add hrest₁
  have hrest₃ := rest_add hrest₂
  -- The sign.
  have hsign : (if input.cur start = minus then start.nextChar else start) =
      start.nextNChars num.sign.length := by
    obtain hnil | hminus := num.sign_ok
    · rw [hnil, nil_append] at hrest
      rw [hnil]
      have hhead := head_of_rest (p := start.pos) hrest num.int_ok.1.1
      have hdigit := num.int_ok.1.2 _ (mem_of_mem_head? hhead)
      rw [if_neg (digit_not_sign _ hdigit).1]
      rfl
    · rw [hminus] at hrest ⊢
      rw [if_pos (mem_of_rest hrest).1]
      rfl
  have hint := readInt_true (s := start.nextNChars num.sign.length) false hrest₁ num.int_ok.1
    (num.fraction_ok.noDigit (num.exponent_ok.noDigit hr)) fun _ => num.int_ok.2
  have hfrac : input.readFraction (start.nextNChars (num.sign.length + num.int.length)) =
      .ok (start.nextNChars (num.sign.length + num.int.length + num.fraction.length)) := by
    rw [← nextNChars_add start (num.sign.length + num.int.length)]
    have hpos : (start.nextNChars (num.sign.length + num.int.length)).pos =
        start.pos + num.sign.length + num.int.length := by
      rw [nextNChars_pos]
      omega
    rw [readFraction_iff (by
      rw [hpos, hrest₂]
      exact num.fraction_ok.noDigit (num.exponent_ok.noDigit hr)), hpos]
    refine ⟨num.fraction, num.exponent ++ r, hrest₂, num.fraction_ok, num.exponent_ok.noDigit hr,
      fun hnil => ?_, rfl⟩
    rw [hnil] at hrest₂
    apply h.behind hrest₂ (by omega)
    · intro c hc
      obtain hexp | ⟨e, sgn, ds, hexp, he, -, -⟩ := num.exponent_ok
      · rw [hexp] at hc
        cases hc
      · rw [hexp] at hc
        obtain rfl : e = c := by simpa using hc
        obtain rfl | rfl := he <;> decide
    · rintro c r' rfl
      exact h.follows.head.2.1
    · intro hexp hend hdot
      exact h.stops hend ⟨hexp, Or.inr (Or.inr ⟨hdot, hnil⟩)⟩
  have hexp : input.readExponent
      (start.nextNChars (num.sign.length + num.int.length + num.fraction.length)) =
        .ok (start.nextNChars num.text.length) := by
    rw [hlen, ← nextNChars_add start (num.sign.length + num.int.length + num.fraction.length)]
    have hpos : (start.nextNChars (num.sign.length + num.int.length + num.fraction.length)).pos =
        start.pos + num.sign.length + num.int.length + num.fraction.length := by
      rw [nextNChars_pos]
      omega
    rw [readExponent_iff (by
      rw [hpos, hrest₃]
      exact num.exponent_ok.noDigit hr), hpos]
    refine ⟨num.exponent, r, hrest₃, num.exponent_ok, hr, fun hnil => ?_, rfl⟩
    rw [hnil] at hrest₃
    constructor
    · apply h.behind hrest₃ (by omega) nofun
      · rintro c r' rfl
        exact h.follows.head.2.2.1
      · intro _ hend hletter
        exact h.stops hend ⟨hnil, Or.inl hletter⟩
    · apply h.behind hrest₃ (by omega) nofun
      · rintro c r' rfl
        exact h.follows.head.2.2.2
      · intro _ hend hletter
        exact h.stops hend ⟨hnil, Or.inr (Or.inl hletter)⟩
  obtain ⟨hload, hrest₅⟩ := load_of_rest h.rest
  set final : State := { (input.getNextToken (start.nextNChars num.text.length)).2 with
    pos := start.pos + num.text.length - 1
    index := start.index + num.text.length - 1 } with hfinal
  have hfin : input.finishNumber stringToDouble start (start.nextNChars num.text.length) =
      .ok (v, final) := by
    rw [finishNumber_iff (by rw [nextNChars_index, nextNChars_pos, hsync]),
      nextNChars_pos, hrest₅, nextNChars_index, Nat.add_sub_cancel_left, hload]
    exact ⟨h.follows, hvalue, rfl⟩
  refine ⟨final, ?_, congrArg (fun p => p + num.text.length - 1) hsync, ?_⟩
  · rw [Input.consumeNumber, hsign, hint, nextNChars_add]
    dsimp only
    rw [hfrac, Except.bind, hexp]
    exact hfin
  · show start.pos + num.text.length - 1 + 1 = start.pos + num.text.length
    omega

end ChromiumUI.Json
