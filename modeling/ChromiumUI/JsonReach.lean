import ChromiumUI.JsonStrings
import ChromiumUI.UtfConversions

/-!
# What the parser reads

The parser reads no byte behind the terminator of its input: two memories that agree up to it lead
to the same results and to the same errors.
-/
namespace ChromiumUI.Json

open ByteMemory Base Input State

/-- The same bytes up to the one behind the input, which is a NUL. -/
structure Terminated (n : Nat) (mem mem' : Memory) : Prop where
  same : ∀ i, i ≤ n → mem i = mem' i
  nul : mem n = 0

variable {n : Nat} {mem mem' : Memory}

variable {s : State} {b : StringBuilder}

namespace Terminated

variable (h : Terminated n mem mem')

include h

theorem load {p k : Nat} (hle : p + k ≤ n + 1) : load mem p k = load mem' p k :=
  load_congr fun i _ hi => h.same i (by omega)

theorem lt_of_ne {p : Nat} (hle : p ≤ n) (hne : mem p ≠ 0) : p < n := by
  by_contra hge
  obtain rfl : p = n := by omega
  exact hne h.nul

theorem cur (hpos : s.pos ≤ n) : (Input.mk mem n).cur s = (Input.mk mem' n).cur s :=
  h.same _ hpos

/-! ## Gaps -/

theorem eatLine (fuel : Nat) (s : State) :
    (Input.mk mem n).eatLine fuel s = (Input.mk mem' n).eatLine fuel s := by
  induction fuel generalizing s with
  | zero => rfl
  | succ fuel ih =>
    rw [Input.eatLine, Input.eatLine]
    by_cases hone : s.pos + 1 ≤ n
    · have hcur := h.cur (s := s.nextChar) hone
      simp only [hcur, ih]
    · rw [if_neg hone, if_neg hone]

theorem eatBlock (fuel : Nat) (s : State) :
    (Input.mk mem n).eatBlock fuel s = (Input.mk mem' n).eatBlock fuel s := by
  induction fuel generalizing s with
  | zero => rfl
  | succ fuel ih =>
    rw [Input.eatBlock, Input.eatBlock]
    by_cases htwo : s.pos + 2 ≤ n
    · have hcur := h.cur (s := s.nextChar) (by simp only [nextChar_pos]; omega)
      have hnext := h.cur (s := s.nextChar.nextChar) htwo
      simp only [hcur, hnext, ih]
    · rw [if_neg htwo, if_neg htwo]

theorem eatComment (hpos : s.pos < n) :
    (Input.mk mem n).eatComment s = (Input.mk mem' n).eatComment s := by
  have hcur := h.cur (s := s) (by omega)
  have hnext := h.cur (s := s.nextChar) hpos
  unfold Input.eatComment
  simp only [hcur, hnext, h.eatLine, h.eatBlock]

theorem eatLoop (fuel : Nat) (s : State) :
    (Input.mk mem n).eatLoop fuel s = (Input.mk mem' n).eatLoop fuel s := by
  induction fuel generalizing s with
  | zero => rfl
  | succ fuel ih =>
    rw [Input.eatLoop, Input.eatLoop]
    by_cases hpos : s.pos < n
    · have hcur := h.cur (s := s) (by omega)
      simp only [hcur, h.eatComment hpos, ih]
    · rw [if_neg hpos, if_neg hpos]

theorem getNextToken (s : State) :
    (Input.mk mem n).getNextToken s = (Input.mk mem' n).getNextToken s := by
  unfold Input.getNextToken Input.eatWhitespaceAndComments
  simp only [h.eatLoop]
  generalize (Input.mk mem' n).eatLoop n s = t
  by_cases hone : t.pos + 1 ≤ n
  · have hcur := h.cur (s := t) (by omega)
    simp only [hcur]
  · rw [if_neg hone, if_neg hone]

/-! ## Strings -/

theorem skipTrailBytes (count i : Nat) (hle : i + count ≤ n + 1) :
    skipTrailBytes mem count i = skipTrailBytes mem' count i := by
  induction count generalizing i with
  | zero => rfl
  | succ count ih =>
    rw [Base.skipTrailBytes, Base.skipTrailBytes, h.same i (by omega), ih (i + 1) (by omega)]

theorem takeTrail {t : Nat × Bool × Nat} (hle : t.2.2 ≤ n) :
    takeTrail mem t = takeTrail mem' t := by
  obtain ⟨c, illegal, i⟩ := t
  rw [Base.takeTrail, Base.takeTrail, h.same i hle]

theorem takeTrails (c i count : Nat) (hle : i + count ≤ n + 1) :
    takeTrails mem c i count = takeTrails mem' c i count := by
  have hone (hi : i ≤ n) : Base.takeTrail mem (c, false, i) = Base.takeTrail mem' (c, false, i) :=
    h.takeTrail hi
  have htwo (hi : i + 1 ≤ n) : Base.takeTrail mem (Base.takeTrail mem' (c, false, i)) =
      Base.takeTrail mem' (Base.takeTrail mem' (c, false, i)) :=
    h.takeTrail hi
  have hthree (hi : i + 2 ≤ n) :
      Base.takeTrail mem (Base.takeTrail mem' (Base.takeTrail mem' (c, false, i))) =
        Base.takeTrail mem' (Base.takeTrail mem' (Base.takeTrail mem' (c, false, i))) :=
    h.takeTrail hi
  unfold Base.takeTrails
  split
  · exact hone (by omega)
  · rw [hone (by omega), htwo (by omega)]
  · simp only [hone (show i ≤ n by omega), htwo (show i + 1 ≤ n by omega),
      hthree (show i + 2 ≤ n by omega)]
  · rfl

theorem cbu8Next {i : Nat} (hi : i ≤ n) : cbu8Next mem i n = cbu8Next mem' i n := by
  unfold Base.cbu8Next Base.nextCharSafeBody
  rw [h.same i hi]
  by_cases hroom : i + 1 + countTrailBytes (mem' i) ≤ n
  · have htrails (c : Nat) := h.takeTrails c (i + 1) (countTrailBytes (mem' i)) (by omega)
    have hskip := h.skipTrailBytes (countTrailBytes (mem' i)) (i + 1) (by omega)
    simp only [if_pos hroom, htrails, hskip]
  · have hskip := h.skipTrailBytes (n - (i + 1)) (i + 1) (by omega)
    simp only [if_neg hroom, hskip]

theorem decodeUTF16 (s : State) :
    (Input.mk mem n).decodeUTF16 s = (Input.mk mem' n).decodeUTF16 s := by
  unfold Input.decodeUTF16
  by_cases hfour : s.pos + 4 ≤ n
  · have hhigh := h.load (p := s.pos) (k := 4) (by omega)
    simp only [hhigh]
    by_cases hsix : s.pos + 3 + 6 ≤ n
    · have hslash := h.cur (s := (s.nextNChars 3).nextChar) (show s.pos + 3 + 1 ≤ n by omega)
      have hu := h.cur (s := (s.nextNChars 3).nextChar.nextChar) (show s.pos + 3 + 1 + 1 ≤ n by omega)
      have hlow := @Terminated.load n mem mem' h (s.pos + 3 + 1 + 1 + 1) 4 (by omega)
      simp only [hslash, hu, nextNChars_pos, nextChar_pos, hlow]
    · have hroom : ¬(Input.mk mem n).canConsume (s.nextNChars 3) 6 := hsix
      simp only [if_pos hroom]
  · rw [if_pos hfour, if_pos hfour]

omit h in
/-- A builder that has copied its string reads no byte any more. -/
theorem decodeUTF8_of_some {b : StringBuilder} {d : Bytes} (hb : b.string = some d) (c : Nat) :
    decodeUTF8 mem c b = decodeUTF8 mem' c b := by
  have hconvert (m : Memory) : b.convert m = b := by
    rw [StringBuilder.convert, hb]
  rw [decodeUTF8, decodeUTF8, hconvert, hconvert]

theorem convert (hb : b.string = none → b.pos + b.length ≤ n + 1) :
    b.convert mem = b.convert mem' := by
  unfold StringBuilder.convert
  cases hstr : b.string with
  | some d => rfl
  | none => simp only [h.load (hb hstr)]

theorem consumeEscape {d : Bytes} (hb : b.string = some d) :
    (Input.mk mem n).consumeEscape s b = (Input.mk mem' n).consumeEscape s b := by
  unfold Input.consumeEscape
  by_cases hone : s.pos + 1 ≤ n
  · have hcur := h.cur (s := s.nextChar) hone
    by_cases htwo : s.pos + 1 + 2 ≤ n
    · have hload := @Terminated.load n mem mem' h (s.pos + 1 + 1) 2 (by omega)
      simp only [hcur, h.decodeUTF16, nextChar_pos, hload,
        @decodeUTF8_of_some mem mem' b d hb]
    · have hroom : ¬(Input.mk mem n).canConsume s.nextChar 2 := htwo
      simp only [hcur, h.decodeUTF16, if_pos hroom]
  · rw [if_pos hone, if_pos hone]

theorem symm : Terminated n mem' mem :=
  ⟨fun i hi => (h.same i hi).symm, (h.same n (Nat.le_refl n)).symm.trans h.nul⟩

theorem lt_cbu8Next {i : Nat} (hi : i ≤ n) : i < (Base.cbu8Next mem i n).2 := by
  rcases Nat.lt_or_eq_of_le hi with hlt | rfl
  · exact (cbu8Next_bounds hlt).1
  · rw [@cbu8Next_ascii ⟨mem, i⟩ 0 i i h.nul (by decide)]
    exact Nat.lt_succ_self i

theorem decodeUTF8 (hb : b.string = none → b.pos + b.length ≤ n + 1)
    (c : Nat) : decodeUTF8 mem c b = decodeUTF8 mem' c b := by
  rw [Json.decodeUTF8, Json.decodeUTF8, h.convert hb]

omit h in
theorem decodeUTF8_string {c : Nat} (hc : ¬c < 0x80) (b : StringBuilder) :
    (Json.decodeUTF8 mem c b).string ≠ none := by
  rw [Json.decodeUTF8, if_neg hc]
  cases hstr : b.string <;> simp [StringBuilder.convert, StringBuilder.appendString, hstr]

omit h in
theorem convert_string (mem : Memory) (b : StringBuilder) :
    (b.convert mem).string = some (b.asString mem) := by
  unfold StringBuilder.convert StringBuilder.asString
  cases hstr : b.string with
  | some d => exact hstr
  | none => rfl

/-- The loop over a string: the piece, if it is one still, is in front of `index`. -/
theorem consumeChars (fuel : Nat) (hchar : s.pos < n → s.index ≤ n)
    (hb : b.string = none → b.pos + b.length ≤ s.index) :
    (Input.mk mem n).consumeChars fuel s b = (Input.mk mem' n).consumeChars fuel s b := by
  induction fuel generalizing s b with
  | zero => rfl
  | succ fuel ih =>
    rw [consumeChars, consumeChars]
    by_cases hpos : s.pos + 1 ≤ n
    · have hindex := hchar hpos
      have hlt := h.symm.lt_cbu8Next hindex
      have hpiece : b.string = none → b.pos + b.length ≤ n + 1 := fun hnone => by
        have := hb hnone
        omega
      have hnext : s.index < n → (Base.cbu8Next mem' s.index n).2 ≤ n := fun hlt =>
        (cbu8Next_bounds hlt).2
      rw [if_pos hpos, if_pos hpos]
      simp only [h.cbu8Next hindex]
      cases hc : (Base.cbu8Next mem' s.index n).1 with
      | none => rfl
      | some c =>
        have hreads := cbu8Next_iff.mp
          (Prod.ext hc rfl : Base.cbu8Next mem' s.index n = (some c, _))
        simp only
        by_cases hvalid : ¬isValidCharacter c = true
        · rw [if_pos hvalid, if_pos hvalid]
        rw [if_neg hvalid, if_neg hvalid]
        by_cases hslash : c = backslash.toNat
        · have hstep : (Base.cbu8Next mem' s.index n).2 = s.index + 1 := by
            refine hreads.2.2.1.trans ?_
            rw [appendUnsafe_one (by rw [hslash]; decide)]
            rfl
          have hconverted := convert_string mem' b
          rw [if_pos hslash, if_pos hslash, h.convert hpiece, h.consumeEscape hconverted]
          cases hesc : (Input.mk mem' n).consumeEscape
              { s with pos := s.index, index := (Base.cbu8Next mem' s.index n).2 }
              (b.convert mem') with
          | error e => rfl
          | ok r =>
            obtain ⟨b', s'⟩ := r
            obtain ⟨e, k, -, hb', rfl⟩ := consumeEscape_sound hconverted hesc
            refine ih (fun hlt => ?_) fun hnone => ?_
            · simp only [nextNChars_pos, nextNChars_index, hstep] at hlt ⊢
              omega
            · rw [hb'] at hnone
              cases hnone
        rw [if_neg hslash, if_neg hslash]
        by_cases hquote : c = quote.toNat
        · rw [if_pos hquote, if_pos hquote]
        rw [if_neg hquote, if_neg hquote]
        by_cases hascii : c < 0x80
        · rw [if_pos hascii, if_pos hascii]
          refine ih hnext fun hnone => ?_
          cases hstr : b.string with
          | none =>
            have hle := hb hstr
            simp only [StringBuilder.append, hstr]
            omega
          | some d =>
            rw [StringBuilder.append_of_some hstr] at hnone
            cases hnone
        · rw [if_neg hascii, if_neg hascii, h.decodeUTF8 hpiece]
          exact ih hnext fun hnone => absurd hnone (decodeUTF8_string hascii b)
    · rw [if_neg hpos, if_neg hpos]

theorem consumeStringRaw (hsync : s.index = s.pos) (hpos : s.pos ≤ n)
    :
    (Input.mk mem n).consumeStringRaw s = (Input.mk mem' n).consumeStringRaw s := by
  have hcur := h.cur (s := s) hpos
  unfold Input.consumeStringRaw
  rw [hcur, h.consumeChars (n + 1) (fun hlt => ?_) fun _ => ?_]
  · simp only [nextChar_index, nextChar_pos, hsync] at hlt ⊢
    omega
  · simp only [nextChar_index, hsync]
    omega

end Terminated

/-- The piece of a string literal that was read is in the input, and the cursors are at its closing
quote. -/
theorem piece_inside {input : Input} {s' : State} (hsync : s.index = s.pos)
    (h : input.consumeStringRaw s = .ok (b, s')) :
    s'.index = s'.pos ∧ (b.string = none → b.pos + b.length ≤ input.length) := by
  unfold consumeStringRaw at h
  split at h
  · cases h
  · have hb : StringBuilder.Holds input.mem ⟨s.pos + 1, 0, none⟩ s.nextChar.index [] := by
      rw [nextChar_index, hsync]
      exact holds_empty _ _
    have hchar : AtChar input s.nextChar := by
      intro hlt
      rw [nextChar_pos] at hlt
      rw [nextChar_index]
      omega
    obtain ⟨e, k, -, -, hle, hb', hpos, hindex⟩ := consumeChars_sound hchar hb h
    refine ⟨hindex.trans hpos.symm, fun hnone => ?_⟩
    rcases hb' with hsome | ⟨-, hend, -⟩
    · rw [hsome] at hnone
      cases hnone
    · omega

/-! ## Numbers and literals -/

/-- Both cursors are at one place, at the terminator at most. -/
structure At (n : Nat) (s : State) : Prop where
  synced : s.index = s.pos
  le : s.pos ≤ n

theorem At.nextChar (h : At n s) (hlt : s.pos < n) : At n s.nextChar :=
  ⟨congrArg (· + 1) h.synced, hlt⟩

theorem readDigits_at {input : Input} (fuel : Nat) (len : Nat) (h : At input.length s) :
    At input.length (input.readDigits fuel s len).2 := by
  induction fuel generalizing s len with
  | zero => exact h
  | succ fuel ih =>
    rw [readDigits]
    split
    · rename_i hdigit
      exact ih (len + 1) (h.nextChar hdigit.1)
    · exact h

theorem readInt_at {input : Input} (allowLeadingZeros : Bool) {s : State}
    (h : At input.length s) : At input.length (input.readInt allowLeadingZeros s).2 := by
  have hds := readDigits_at input.length 0 h
  unfold readInt
  simp only
  split
  · exact hds
  · split <;> exact hds

theorem readFraction_at {input : Input} {s s' : State} (h : At input.length s)
    (hread : input.readFraction s = .ok s') : At input.length s' := by
  unfold readFraction at hread
  split at hread
  · split at hread
    · cases hread
    · rename_i hroom
      have hnext := readInt_at true (h.nextChar (Nat.lt_of_succ_le (not_not.mp hroom)))
      split at hread
      · cases hread
      · rename_i t hint
        cases hread
        rw [hint] at hnext
        exact hnext
  · cases hread
    exact h

namespace Terminated

variable (h : Terminated n mem mem')

include h

theorem readDigits (fuel : Nat) (s : State) (len : Nat) :
    (Input.mk mem n).readDigits fuel s len = (Input.mk mem' n).readDigits fuel s len := by
  induction fuel generalizing s len with
  | zero => rfl
  | succ fuel ih =>
    rw [Input.readDigits, Input.readDigits]
    by_cases hone : s.pos + 1 ≤ n
    · have hcur := h.cur (s := s) (by omega)
      simp only [hcur, ih]
    · rw [if_neg fun hdigit => hone hdigit.1, if_neg fun hdigit => hone hdigit.1]

theorem readInt (allowLeadingZeros : Bool) (hat : At n s) :
    (Input.mk mem n).readInt allowLeadingZeros s =
      (Input.mk mem' n).readInt allowLeadingZeros s := by
  have hcur := h.cur hat.le
  unfold Input.readInt
  simp only [h.readDigits, hcur]

theorem readFraction (hat : At n s) :
    (Input.mk mem n).readFraction s = (Input.mk mem' n).readFraction s := by
  have hcur := h.cur hat.le
  unfold Input.readFraction
  by_cases hone : s.pos + 1 ≤ n
  · rw [hcur, h.readInt true (hat.nextChar hone)]
  · have hroom : ¬(Input.mk mem n).canConsume s 1 := hone
    simp only [hcur, if_pos hroom]

/-- Where the cursor is behind an exponent letter and a sign, neither of which is the terminator. -/
theorem exponent_at (hat : At n s)
    (hletter : (Input.mk mem n).cur s = letterE ∨ (Input.mk mem n).cur s = capitalE) :
    At n s.nextChar ∧ At n (if (Input.mk mem n).cur s.nextChar = minus ∨
      (Input.mk mem n).cur s.nextChar = plus then s.nextChar.nextChar else s.nextChar) := by
  have hlt : s.pos < n := h.lt_of_ne hat.le (by
    rcases hletter with hletter | hletter <;>
      exact fun hzero => absurd (hletter.symm.trans hzero) (by decide))
  have hnext := hat.nextChar hlt
  refine ⟨hnext, ?_⟩
  split
  · rename_i hsign
    refine hnext.nextChar (h.lt_of_ne hnext.le ?_)
    rcases hsign with hsign | hsign <;>
      exact fun hzero => absurd (hsign.symm.trans hzero) (by decide)
  · exact hnext

theorem readExponent (hat : At n s) :
    (Input.mk mem n).readExponent s = (Input.mk mem' n).readExponent s := by
  have hcur := h.cur hat.le
  unfold Input.readExponent
  by_cases hletter : (Input.mk mem n).cur s = letterE ∨ (Input.mk mem n).cur s = capitalE
  · obtain ⟨hnext, hsigned⟩ := h.exponent_at hat hletter
    have hcurNext := h.cur (s := s.nextChar) hnext.le
    rw [if_pos hletter, if_pos (hcur ▸ hletter)]
    simp only
    rw [h.readInt true hsigned, hcurNext]
  · rw [if_neg hletter, if_neg (hcur ▸ hletter)]

theorem readExponent_at {s' : State} (hat : At n s)
    (hread : (Input.mk mem n).readExponent s = .ok s') : At n s' := by
  unfold Input.readExponent at hread
  split at hread
  · rename_i hletter
    have hint := @readInt_at ⟨mem, n⟩ true _ (h.exponent_at hat hletter).2
    simp only at hread
    split at hread
    · cases hread
    · rename_i t hread'
      cases hread
      rw [hread'] at hint
      exact hint
  · cases hread
    exact hat

end Terminated

variable {F : Type} {stringToDouble : Bytes → Option F}

/-- What a parsing function leaves: both cursors at one place. -/
def Settles {α : Type} (o : Outcome α) : Prop := ∀ v s, o = .ok (v, s) → s.index = s.pos

theorem settles_error {α : Type} (e : ParseError) : Settles (.error e : Outcome α) := nofun

theorem settles_ok {α : Type} {v : α} (h : s.index = s.pos) : Settles (.ok (v, s) : Outcome α) := by
  rintro _ _ ⟨⟩
  exact h

theorem finishNumber_settles {input : Input} (start : State) (h : s.index = s.pos) :
    Settles (input.finishNumber stringToDouble start s) := by
  unfold finishNumber
  split
  case h_5 => exact settles_error _
  all_goals
    split
    · exact settles_ok (congrArg (· - 1) h)
    · exact settles_error _

namespace Terminated

variable (h : Terminated n mem mem')

include h

theorem finishNumber {start : State} (hstart : At n start)
    (hat : At n s) : (Input.mk mem n).finishNumber stringToDouble start s =
      (Input.mk mem' n).finishNumber stringToDouble start s := by
  have hload := @Terminated.load n mem mem' h start.pos (s.index - start.index) (by
    have hs := hat.synced
    have hstart' := hstart.synced
    have hle := hat.le
    have hle' := hstart.le
    omega)
  unfold Input.finishNumber
  rw [h.getNextToken]
  simp only [hload]

theorem consumeNumber (hat : At n s) (hlt : s.pos < n) :
    (Input.mk mem n).consumeNumber stringToDouble s =
        (Input.mk mem' n).consumeNumber stringToDouble s ∧
      Settles ((Input.mk mem n).consumeNumber stringToDouble s) := by
  have hcur := h.cur hat.le
  unfold Input.consumeNumber
  simp only [← hcur]
  have hsigned : At n (if (Input.mk mem n).cur s = minus then s.nextChar else s) := by
    split
    · exact hat.nextChar hlt
    · exact hat
  generalize (if (Input.mk mem n).cur s = minus then s.nextChar else s) = t at hsigned
  have hint := @readInt_at ⟨mem, n⟩ false _ hsigned
  rw [← h.readInt false hsigned]
  generalize (Input.mk mem n).readInt false t = r at hint
  obtain ⟨ok, u⟩ := r
  cases ok with
  | false => exact ⟨rfl, settles_error _⟩
  | true =>
    simp only
    rw [← h.readFraction hint]
    cases hfrac : (Input.mk mem n).readFraction u with
    | error e => exact ⟨rfl, settles_error _⟩
    | ok v =>
      have hv := @readFraction_at ⟨mem, n⟩ _ _ hint hfrac
      simp only [Except.bind]
      rw [← h.readExponent hv]
      cases hexp : (Input.mk mem n).readExponent v with
      | error e => exact ⟨rfl, settles_error _⟩
      | ok w =>
        have hw := h.readExponent_at hv hexp
        exact ⟨h.finishNumber hat hw, finishNumber_settles s hw.synced⟩

theorem consumeWord (word : Bytes) (value : Value F) (hat : At n s) :
    (Input.mk mem n).consumeWord word value s =
        (Input.mk mem' n).consumeWord word value s ∧
      Settles ((Input.mk mem n).consumeWord word value s) := by
  unfold Input.consumeWord
  by_cases hroom : s.pos + (word.length - 1) ≤ n
  · have hload := @Terminated.load n mem mem' h s.pos word.length (by omega)
    simp only [hload]
    refine ⟨trivial, ?_⟩
    split
    · exact settles_ok (congrArg (· + (word.length - 1)) hat.synced)
    · exact settles_error _
  · rw [if_neg fun hword => hroom hword.1, if_neg fun hword => hroom hword.1]
    exact ⟨rfl, settles_error _⟩

theorem consumeLiteral (hat : At n s) :
    (Input.mk mem n).consumeLiteral s = ((Input.mk mem' n).consumeLiteral s : Outcome (Value F)) ∧
      Settles ((Input.mk mem n).consumeLiteral s : Outcome (Value F)) := by
  have hcur := h.cur hat.le
  unfold Input.consumeLiteral
  simp only [← hcur]
  split
  · exact h.consumeWord _ _ hat
  · split
    · exact h.consumeWord _ _ hat
    · split
      · exact h.consumeWord _ _ hat
      · exact ⟨rfl, settles_error _⟩

theorem asString (hb : b.string = none → b.pos + b.length ≤ n + 1) :
    b.asString mem = b.asString mem' := by
  unfold StringBuilder.asString
  cases hstr : b.string with
  | some d => rfl
  | none => exact h.load (hb hstr)

theorem consumeString (hat : At n s) :
    (Input.mk mem n).consumeString s = ((Input.mk mem' n).consumeString s : Outcome (Value F)) ∧
      Settles ((Input.mk mem n).consumeString s : Outcome (Value F)) := by
  unfold Input.consumeString
  rw [← h.consumeStringRaw hat.synced hat.le]
  cases hraw : (Input.mk mem n).consumeStringRaw s with
  | error e => exact ⟨rfl, settles_error _⟩
  | ok r =>
    obtain ⟨b, t⟩ := r
    obtain ⟨hsync, hpiece⟩ := piece_inside hat.synced hraw
    simp only
    rw [h.asString fun hnone => Nat.le_succ_of_le (hpiece hnone)]
    exact ⟨rfl, settles_ok hsync⟩

end Terminated

/-! ## Containers -/

/-- What GetNextToken leaves: both cursors are at the token, which is in the input unless it is its
end. -/
structure Ready (n : Nat) (token : Token) (s : State) : Prop where
  synced : s.index = s.pos
  lt : token ≠ .endOfInput → s.pos < n

theorem getNextToken_ready {input : Input} {s : State} (h : s.index = s.pos) :
    Ready input.length (input.getNextToken s).1 (input.getNextToken s).2 := by
  have hsync := (@getNextToken_leaves input s h).1.synced
  unfold getNextToken at hsync ⊢
  by_cases hone : input.canConsume (input.eatWhitespaceAndComments s) 1
  · rw [if_pos hone] at hsync ⊢
    exact ⟨hsync, fun _ => hone⟩
  · rw [if_neg hone] at hsync ⊢
    exact ⟨hsync, fun htoken => absurd rfl htoken⟩

/-- The token behind the one the cursors are at the end of. -/
theorem nextToken_ready (mem : Memory) {s : State} (h : s.index = s.pos) :
    Ready n ((Input.mk mem n).getNextToken s.nextChar).1
      ((Input.mk mem n).getNextToken s.nextChar).2 :=
  @getNextToken_ready ⟨mem, n⟩ s.nextChar (congrArg (· + 1) h)

/-- Two parsing functions do the same with every token, and settle. -/
def Agree {α : Type} (n : Nat) (parse parse' : Token → State → Outcome α) : Prop :=
  ∀ token s, Ready n token s → parse token s = parse' token s ∧ Settles (parse token s)

namespace Terminated

variable {options options' : Options} {parse parse' : Token → State → Outcome (Value F)}

variable {s : State}

variable (h : Terminated n mem mem')

include h

section

variable (hcommas : options.allowTrailingCommas = options'.allowTrailingCommas)
include hcommas

section

variable (hparse : Agree n parse parse')
include hparse

theorem listLoop (fuel : Nat) {token : Token} (hready : Ready n token s) (list : List (Value F)) :
    (Input.mk mem n).listLoop options parse fuel token s list =
        (Input.mk mem' n).listLoop options' parse' fuel token s list ∧
      Settles ((Input.mk mem n).listLoop options parse fuel token s list) := by
  induction fuel generalizing token s list with
  | zero => exact ⟨rfl, settles_error _⟩
  | succ fuel ih =>
    rw [listLoop, listLoop]
    by_cases hend : token = .arrayEnd
    · rw [if_pos hend, if_pos hend]
      exact ⟨rfl, settles_ok hready.synced⟩
    rw [if_neg hend, if_neg hend]
    obtain ⟨heq, hsettles⟩ := hparse token s hready
    rw [← heq]
    cases hitem : parse token s with
    | error e => exact ⟨rfl, settles_error _⟩
    | ok r =>
      obtain ⟨item, t⟩ := r
      have hsync := hsettles item t hitem
      have hnext := @nextToken_ready n mem t hsync
      simp only [← h.getNextToken, ← hcommas]
      generalize (Input.mk mem n).getNextToken t.nextChar = next at hnext
      split
      · split
        · exact ⟨rfl, settles_error _⟩
        · exact ih (nextToken_ready mem hnext.synced) _
      · exact ih hnext _
      · exact ⟨rfl, settles_error _⟩

theorem dictionaryLoop (fuel : Nat) {token : Token} (hready : Ready n token s)
    (dict : List (Bytes × Value F)) :
    (Input.mk mem n).dictionaryLoop options parse fuel token s dict =
        (Input.mk mem' n).dictionaryLoop options' parse' fuel token s dict ∧
      Settles ((Input.mk mem n).dictionaryLoop options parse fuel token s dict) := by
  induction fuel generalizing token s dict with
  | zero => exact ⟨rfl, settles_error _⟩
  | succ fuel ih =>
    rw [dictionaryLoop, dictionaryLoop]
    by_cases hend : token = .objectEnd
    · rw [if_pos hend, if_pos hend]
      exact ⟨rfl, settles_ok hready.synced⟩
    rw [if_neg hend, if_neg hend]
    by_cases hstr : token = .string
    · have hlt := hready.lt (hstr ▸ nofun)
      rw [if_neg (not_not.mpr hstr), if_neg (not_not.mpr hstr),
        ← h.consumeStringRaw hready.synced (Nat.le_of_lt hlt)]
      cases hraw : (Input.mk mem n).consumeStringRaw s with
      | error e => exact ⟨rfl, settles_error _⟩
      | ok r =>
        obtain ⟨key, t⟩ := r
        obtain ⟨hsync, hpiece⟩ := piece_inside hready.synced hraw
        have hkey := h.asString fun hnone => Nat.le_succ_of_le (hpiece hnone)
        have hpair := @nextToken_ready n mem t hsync
        simp only [← h.getNextToken, ← hcommas, ← hkey]
        generalize (Input.mk mem n).getNextToken t.nextChar = pair at hpair
        obtain ⟨pairToken, u⟩ := pair
        split
        · exact ⟨rfl, settles_error _⟩
        have hvalue := @nextToken_ready n mem u hpair.synced
        generalize (Input.mk mem n).getNextToken u.nextChar = first at hvalue
        obtain ⟨heq, hsettles⟩ := hparse first.1 first.2 hvalue
        rw [← heq]
        cases hparsed : parse first.1 first.2 with
        | error e => exact ⟨rfl, settles_error _⟩
        | ok r' =>
          obtain ⟨value, v⟩ := r'
          have hnext := @nextToken_ready n mem v (hsettles value v hparsed)
          simp only
          generalize (Input.mk mem n).getNextToken v.nextChar = next at hnext
          split
          · split
            · exact ⟨rfl, settles_error _⟩
            · exact ih (nextToken_ready mem hnext.synced) _
          · exact ih hnext _
          · exact ⟨rfl, settles_error _⟩
    · rw [if_pos hstr, if_pos hstr]
      exact ⟨rfl, settles_error _⟩

theorem consumeList (hat : At n s) :
    (Input.mk mem n).consumeList options (some parse) s =
        (Input.mk mem' n).consumeList options' (some parse') s ∧
      Settles ((Input.mk mem n).consumeList options (some parse) s) := by
  have hcur := h.cur hat.le
  unfold Input.consumeList
  simp only [← hcur, ← h.getNextToken]
  split
  · exact ⟨rfl, settles_error _⟩
  · exact h.listLoop hcommas hparse _ (nextToken_ready mem hat.synced) _

theorem consumeDictionary (hat : At n s) :
    (Input.mk mem n).consumeDictionary options (some parse) s =
        (Input.mk mem' n).consumeDictionary options' (some parse') s ∧
      Settles ((Input.mk mem n).consumeDictionary options (some parse) s) := by
  have hcur := h.cur hat.le
  unfold Input.consumeDictionary
  simp only [← hcur, ← h.getNextToken]
  split
  · exact ⟨rfl, settles_error _⟩
  · exact h.dictionaryLoop hcommas hparse _ (nextToken_ready mem hat.synced) _

end

end

/-- With no room on the stack only the first byte of a container is read. -/
theorem consumeList_none (hat : At n s) :
    (Input.mk mem n).consumeList options none s =
        ((Input.mk mem' n).consumeList options' none s : Outcome (Value F)) ∧
      Settles ((Input.mk mem n).consumeList options none s : Outcome (Value F)) := by
  have hcur := h.cur hat.le
  unfold Input.consumeList
  simp only [← hcur]
  refine ⟨trivial, ?_⟩
  split <;> exact settles_error _

theorem consumeDictionary_none (hat : At n s) :
    (Input.mk mem n).consumeDictionary options none s =
        ((Input.mk mem' n).consumeDictionary options' none s : Outcome (Value F)) ∧
      Settles ((Input.mk mem n).consumeDictionary options none s : Outcome (Value F)) := by
  have hcur := h.cur hat.le
  unfold Input.consumeDictionary
  simp only [← hcur]
  refine ⟨trivial, ?_⟩
  split <;> exact settles_error _

/-- A level of ParseToken agrees when its containers do. -/
theorem parseTokenWith {below below' : Option (Token → State → Outcome (Value F))}
    (hlist : ∀ s, At n s → (Input.mk mem n).consumeList options below s =
        (Input.mk mem' n).consumeList options' below' s ∧
      Settles ((Input.mk mem n).consumeList options below s))
    (hdictionary : ∀ s, At n s → (Input.mk mem n).consumeDictionary options below s =
        (Input.mk mem' n).consumeDictionary options' below' s ∧
      Settles ((Input.mk mem n).consumeDictionary options below s)) :
    Agree n ((Input.mk mem n).parseTokenWith stringToDouble options below)
      ((Input.mk mem' n).parseTokenWith stringToDouble options' below') := by
  intro token s hready
  have hat (htoken : token ≠ .endOfInput) : At n s :=
    ⟨hready.synced, Nat.le_of_lt (hready.lt htoken)⟩
  cases token with
  | objectBegin => exact hdictionary s (hat nofun)
  | arrayBegin => exact hlist s (hat nofun)
  | string => exact h.consumeString (hat nofun)
  | number => exact h.consumeNumber (hat nofun) (hready.lt nofun)
  | boolTrue | boolFalse | null => exact h.consumeLiteral (hat nofun)
  | objectEnd | arrayEnd | listSeparator | objectPairSeparator | endOfInput | invalidToken =>
    exact ⟨rfl, settles_error _⟩

theorem parseToken (hcommas : options.allowTrailingCommas = options'.allowTrailingCommas)
    (levels : Nat) :
    Agree n ((Input.mk mem n).parseToken stringToDouble options levels)
      ((Input.mk mem' n).parseToken stringToDouble options' levels) := by
  induction levels with
  | zero =>
    exact h.parseTokenWith (fun s hat => h.consumeList_none hat)
      fun s hat => h.consumeDictionary_none hat
  | succ levels ih =>
    exact h.parseTokenWith (fun s hat => h.consumeList hcommas ih hat)
      fun s hat => h.consumeDictionary hcommas ih hat

/-! ## The whole input -/

theorem atEnd (s : State) : (Input.mk mem n).atEnd s = (Input.mk mem' n).atEnd s := by
  unfold Input.atEnd
  simp only [h.getNextToken]

theorem skipByteOrderMark (s : State) :
    (Input.mk mem n).skipByteOrderMark s = (Input.mk mem' n).skipByteOrderMark s := by
  unfold Input.skipByteOrderMark
  by_cases hthree : s.pos + 3 ≤ n
  · have hload := @Terminated.load n mem mem' h s.pos 3 (by omega)
    simp only [hload]
  · rw [if_neg fun hmark => hthree hmark.1, if_neg fun hmark => hthree hmark.1]

end Terminated

theorem skipByteOrderMark_synced {input : Input} {s : State} (h : s.index = s.pos) :
    (input.skipByteOrderMark s).index = (input.skipByteOrderMark s).pos := by
  unfold skipByteOrderMark
  split
  · exact congrArg (· + 3) h
  · exact h

/-- The input and the copy that Parse may make of it have the same bytes up to a NUL. -/
theorem inputFor_terminated {input : Input} (hnul : input.mem input.length = 0)
    (options : Options) : ∃ mem, inputFor options input = ⟨mem, input.length⟩ ∧
      Terminated input.length input.mem mem := by
  unfold inputFor
  split
  · exact ⟨input.mem, rfl, fun i hi => rfl, hnul⟩
  · refine ⟨_, rfl, fun i hi => ?_, hnul⟩
    rcases Nat.lt_or_eq_of_le hi with hlt | rfl
    · rw [if_pos hlt]
    · rw [if_neg (Nat.lt_irrefl _), hnul]

theorem Terminated.trans {mem'' : Memory} (h : Terminated n mem mem')
    (h' : Terminated n mem' mem'') : Terminated n mem mem'' :=
  ⟨fun i hi => (h.same i hi).trans (h'.same i hi), h.nul⟩

/-- Whether the children are detachable makes no difference to what is parsed. -/
theorem parse_congr {input : Input} (hnul : input.mem input.length = 0) {options options' : Options}
    (hcommas : options.allowTrailingCommas = options'.allowTrailingCommas) :
    parse stringToDouble options input = parse stringToDouble options' input := by
  obtain ⟨mem, hinput, hmem⟩ := inputFor_terminated hnul options
  obtain ⟨mem', hinput', hmem'⟩ := inputFor_terminated hnul options'
  have h := hmem.symm.trans hmem'
  unfold parse
  simp only [hinput, hinput', ← h.skipByteOrderMark, ← h.getNextToken, ← h.atEnd]
  have hfirst := @getNextToken_ready ⟨mem, input.length⟩ _
    (@skipByteOrderMark_synced ⟨mem, input.length⟩ ⟨0, 0, 1, 0⟩ rfl)
  rw [(h.parseToken hcommas (kStackMaxDepth - 1) _ _ hfirst).1]

end ChromiumUI.Json
