import ChromiumUI.JsonReach
import ChromiumUI.JsonDocuments

/-!
# String literals that the end of the input cuts

Where a text ends inside a string literal the parser looks at the byte behind the text.
`OpenString` says what it makes of each byte that may stand there.
-/
namespace ChromiumUI.Json

open ByteMemory Base List Nat

/-- The error code that a byte leads to; none where it completes the token. -/
abbrev Codes := UInt8 → Option ErrorCode

/-- The code when an escape is taken, or is not, and then the input ends. -/
def escapeCode (taken : Bool) : Option ErrorCode :=
  some (if taken then .syntaxError else .invalidEscape)

/-- What a string literal may end with in front of a byte that decides. -/
inductive StringTail : Bytes → Codes → Prop
  | plain : StringTail [] fun b =>
      if b = quote then none
      else if b = backslash then some .invalidEscape
      else if b < 0x80 then some .syntaxError
      else some .unsupportedEncoding
  | escape : StringTail [backslash] fun b => escapeCode (simpleEscape b).isSome
  | hex (d : UInt8) : StringTail [backslash, letterX, d] fun b =>
      escapeCode (hexStringToInt [d, b]).isSome
  | pair {ds ds' : Bytes} {high : Int} (hlength : ds.length = 4) (hlength' : ds'.length = 3)
      (hhigh : hexStringToInt ds = some high) (hsurrogate : isSurrogate (toUInt32 high) = true)
      (hlead : isSurrogateLead (toUInt32 high) = true) :
      StringTail (backslash :: letterU :: (ds ++ backslash :: letterU :: ds')) fun b =>
        escapeCode ((hexStringToInt (ds' ++ [b])).any fun low => isTrailUnit (toUInt32 low))

/-- A string literal without its end. -/
inductive OpenString : Bytes → Codes → Prop
  | mk {chars d tail : Bytes} {codes : Codes} (hchars : BodyReads hexStringToInt chars d)
      (htail : StringTail tail codes) (hne : chars ++ tail ≠ []) :
      OpenString (quote :: (chars ++ tail)) codes

/-! ## Two buffers -/

/-- The same bytes in front of the same end. -/
structure Below (input input' : Input) : Prop where
  length : input.length = input'.length
  same : ∀ i, i < input.length → input.mem i = input'.mem i

/-- The same error code, or the cursors at the same place. -/
def Alike {α β : Type} : Outcome α → Outcome β → Prop
  | .error e, .error e' => e.code = e'.code
  | .ok (_, s), .ok (_, s') => s.pos = s'.pos ∧ s.index = s'.index
  | _, _ => False

/-- The byte behind the input decides the outcome. -/
def Answers {α : Type} (input : Input) (codes : Codes) (o : Outcome α) : Prop :=
  match codes (input.mem input.length) with
  | some code => ∃ e, o = .error e ∧ e.code = code
  | none => ∃ v s, o = .ok (v, s) ∧ s.index = s.pos ∧ input.length ≤ s.pos + 1

variable {input input' : Input}

theorem Below.symm (h : Below input input') : Below input' input :=
  ⟨h.length.symm, fun i hi => (h.same i (h.length ▸ hi)).symm⟩

theorem Below.load (h : Below input input') {p k : Nat} (hle : p + k ≤ input.length) :
    load input.mem p k = load input'.mem p k :=
  load_congr fun i _ hi => h.same i (by omega)

theorem Below.rest (h : Below input input') (p : Nat) : input.rest p = input'.rest p := by
  unfold Input.rest
  rw [← h.length]
  rcases lt_or_ge p input.length with hlt | hge
  · exact h.load (by omega)
  · rw [Nat.sub_eq_zero_of_le hge]
    rfl

theorem Alike.errors {α β : Type} {e e' : ParseError} (h : e.code = e'.code) :
    Alike (.error e : Outcome α) (.error e' : Outcome β) := h

/-! ## String literals -/

theorem rest_split {p k : Nat} (h : p + k ≤ input.length) :
    input.rest p = load input.mem p k ++ input.rest (p + k) := by
  have hlen : input.length - p = k + (input.length - (p + k)) := by omega
  rw [Input.rest, hlen, load_add]
  rfl

/-- An escape whose last byte is the one behind the text. -/
theorem EscapeReads.tail {p k : Nat} {e : Bytes} (hreads : EscapeReads input p e k)
    (hmem : input.mem p = backslash) (hend : input.length ≤ p + k) :
    ∃ codes, StringTail (input.rest p) codes := by
  have hone {q : Nat} (hq : q + 1 = input.length) : input.rest q = [input.mem q] := by
    rw [rest_of_lt (by omega), rest_of_le (by omega)]
  cases hreads with
  | simple hroom hesc =>
    rw [hone (by omega), hmem]
    exact ⟨_, .escape⟩
  | hex hroom hx hv =>
    rw [rest_of_lt (by omega), rest_of_lt (by omega), hone (by omega), hmem, hx]
    exact ⟨_, .hex _⟩
  | units hu hunits =>
    cases hunits with
    | single hroom hv hsingle => omega
    | pair hroom hhigh hslash hu' hlow hsurr hlead htrail =>
      have hrest : input.rest p = backslash :: letterU :: (load input.mem (p + 2) 4 ++
          backslash :: letterU :: load input.mem (p + 2 + 6) 3) := by
        rw [rest_of_lt (by omega), rest_of_lt (by omega), hmem, hu,
          rest_split (show p + 1 + 1 + 4 ≤ input.length by omega),
          rest_of_lt (p := p + 1 + 1 + 4) (by omega),
          rest_of_lt (p := p + 1 + 1 + 4 + 1) (by omega),
          rest_split (show p + 1 + 1 + 4 + 1 + 1 + 3 ≤ input.length by omega),
          rest_of_le (p := p + 1 + 1 + 4 + 1 + 1 + 3) (by omega), append_nil,
          show input.mem (p + 1 + 1 + 4) = backslash from hslash,
          show input.mem (p + 1 + 1 + 4 + 1) = letterU from hu']
      rw [hrest]
      exact ⟨_, .pair (length_load _ _ _) (length_load _ _ _) hhigh hsurr hlead⟩

/-- A character is in front of the end, or its escape ends behind it. -/
theorem CharAt.inside_or_tail {p k : Nat} {e : Bytes} (h : CharAt input p e k)
    (hlt : p < input.length) : p + k < input.length ∨ ∃ codes, StringTail (input.rest p) codes := by
  cases h with
  | plain h hvalid hslash hquote =>
    refine .inl ?_
    rcases h.2.2.2 with hj | hj
    · exact hj
    · have hlast := h.2.2.1
      rw [appendUnsafe_one hj] at hlast
      simp only [length_singleton] at hlast
      omega
  | escape hslash h =>
    rcases lt_or_ge (p + k) input.length with hin | hend
    · exact .inl hin
    · exact .inr (h.tail hslash hend)

theorem CharAt.of_below (h : Below input input') {p k : Nat} {e : Bytes}
    (hchar : CharAt input p e k) (hlt : p + k < input.length) : CharAt input' p e k := by
  have hload := h.load (p := p) (k := k + 1) (by omega)
  obtain ⟨k', hk, hchar'⟩ := @CharReads.charAt input' p _ e hchar.charReads
    (by rw [length_load, hload]) (by rw [length_load, ← h.length]; omega)
  rw [length_load] at hk
  obtain rfl : k = k' := by omega
  exact hchar'

variable {s : State} {b : StringBuilder}

theorem consumeEscape_code {e : ParseError} (h : input.consumeEscape s b = .error e) :
    e.code = .invalidEscape := by
  unfold Input.consumeEscape at h
  dsimp only at h
  split at h
  · cases h
    rfl
  split at h
  · split at h
    · cases h
      rfl
    split at h
    · cases h
      rfl
    · split at h <;> cases h
  split at h
  · split at h
    · cases h
      rfl
    split at h
    · cases h
      rfl
    · cases h
  · split at h
    · cases h
    · cases h
      rfl

/-- Where neither a quote nor a character is, the loop over a string fails. -/
theorem consumeChars_stuck (fuel : Nat) (b : StringBuilder) (hpos : s.pos < input.length)
    (hquote : input.mem s.index ≠ quote) (hstuck : ∀ e k, ¬CharAt input s.index e k) :
    ∃ e, input.consumeChars (fuel + 1) s b = .error e ∧
      e.code = if input.mem s.index = backslash then .invalidEscape else .unsupportedEncoding := by
  rw [Input.consumeChars, if_pos (show input.canConsume s 1 from hpos)]
  by_cases hslash : input.mem s.index = backslash
  · rw [cbu8Next_ascii _ _ hslash (by decide), if_pos hslash]
    dsimp only
    rw [if_neg (by decide), if_pos rfl]
    cases hesc : input.consumeEscape { s with pos := s.index, index := s.index + 1 }
        (b.convert input.mem) with
    | error e => exact ⟨e, rfl, consumeEscape_code hesc⟩
    | ok r =>
      obtain ⟨b', s'⟩ := r
      obtain ⟨e, k, hreads, -⟩ :=
        consumeEscape_sound (Terminated.convert_string input.mem b) hesc
      exact absurd (CharAt.escape hslash hreads) (hstuck e k)
  · rw [if_neg hslash]
    cases hnext : cbu8Next input.mem s.index input.length with
    | mk o j =>
      cases o with
      | none => exact ⟨_, rfl, rfl⟩
      | some c =>
        have hreads := cbu8Next_iff.mp hnext
        have hbyte {x : UInt8} (hx : c = x.toNat) (hlt : x.toNat < 0x80) :
            input.mem s.index = x := by
          have := hreads.head
          exact UInt8.toNat_inj.mp (by omega)
        dsimp only
        by_cases hvalid : isValidCharacter c = true
        · exfalso
          have hnotBackslash : c ≠ backslash.toNat := fun hx => hslash (hbyte hx (by decide))
          have hnotQuote : c ≠ quote.toNat := fun hx => hquote (hbyte hx (by decide))
          have hlen := length_appendUnsafe_pos c
          have hend := hreads.2.2.1
          refine hstuck _ (j - s.index - 1) (.plain (c := c) ?_ hvalid hnotBackslash hnotQuote)
          rwa [show s.index + (j - s.index - 1) + 1 = j by omega]
        · rw [if_pos hvalid]
          exact ⟨_, rfl, rfl⟩

/-- The loop over a string does the same in both buffers, or the text ends in the string. -/
theorem consumeChars_alike (h : Below input input') (fuel : Nat) {s' : State} {b' : StringBuilder}
    {d d' : Bytes} (hpos : s.pos < input.length) (hpos' : s'.pos < input.length)
    (hindex : s.index = s'.index) (hle : s.index ≤ input.length) (hb : b.Holds input.mem s.index d)
    (hb' : b'.Holds input'.mem s'.index d') :
    Alike (input.consumeChars fuel s b) (input'.consumeChars fuel s' b') ∨
      ∃ chars d tail codes, BodyReads hexStringToInt chars d ∧ StringTail tail codes ∧
        input.rest s.index = chars ++ tail := by
  induction fuel generalizing s s' b b' d d' with
  | zero => exact .inl (Alike.errors rfl)
  | succ fuel ih =>
    rcases lt_or_eq_of_le hle with hlt | hend
    swap
    · refine .inr ⟨[], [], [], _, .nil, .plain, ?_⟩
      rw [hend, rest_of_le (le_refl _)]
      rfl
    have hopen : (∃ codes, StringTail (input.rest s.index) codes) →
        ∃ chars d tail codes, BodyReads hexStringToInt chars d ∧ StringTail tail codes ∧
          input.rest s.index = chars ++ tail := by
      rintro ⟨codes, htail⟩
      exact ⟨[], [], _, codes, .nil, htail, rfl⟩
    have hlen := h.length
    have hmem : input.mem s.index = input'.mem s'.index := hindex ▸ h.same _ hlt
    by_cases hquote : input.mem s.index = quote
    · rw [consumeChars_quote hpos hquote, consumeChars_quote (hlen ▸ hpos') (hmem ▸ hquote)]
      exact .inl ⟨hindex, hindex⟩
    by_cases hchar : ∃ e k, CharAt input s.index e k
    · obtain ⟨e, k, hchar⟩ := hchar
      rcases hchar.inside_or_tail hlt with hin | htail
      swap
      · exact .inr (hopen htail)
      have hchar' := hindex ▸ hchar.of_below h hin
      obtain ⟨b₁, s₁, hstep, hb₁, hindex₁, -, hlow, hhigh⟩ := consumeChars_char fuel hpos hb hchar
      obtain ⟨b₁', s₁', hstep', hb₁', hindex₁', -, hlow', hhigh'⟩ :=
        consumeChars_char fuel (hlen ▸ hpos') hb' hchar'
      rw [hstep, hstep']
      refine (ih (by omega) (by omega) (by omega) (by omega) hb₁ hb₁').imp_right ?_
      rintro ⟨chars, d, tail, codes, hchars, htail, hrest⟩
      refine ⟨load input.mem s.index (k + 1) ++ chars, e ++ d, tail, codes,
        .cons hchar.charReads hchars, htail, ?_⟩
      rw [rest_split (show s.index + (k + 1) ≤ input.length by omega), append_assoc,
        ← hrest, hindex₁]
      rfl
    by_cases hchar' : ∃ e k, CharAt input' s'.index e k
    · obtain ⟨e, k, hchar'⟩ := hchar'
      rcases hchar'.inside_or_tail (by omega) with hin | htail
      · exact absurd ⟨e, k, hindex ▸ hchar'.of_below h.symm hin⟩ hchar
      · rw [← h.rest, ← hindex] at htail
        exact .inr (hopen htail)
    obtain ⟨e, hrun, hcode⟩ := consumeChars_stuck fuel b hpos hquote fun e k hk => hchar ⟨e, k, hk⟩
    obtain ⟨e', hrun', hcode'⟩ := consumeChars_stuck fuel b' (hlen ▸ hpos') (hmem ▸ hquote)
      fun e k hk => hchar' ⟨e, k, hk⟩
    rw [hrun, hrun']
    refine .inl (Alike.errors ?_)
    rw [hcode, hcode', hmem]

theorem consumeChars_end (fuel : Nat) {s : State} (b : StringBuilder)
    (hpos : input.length ≤ s.pos) :
    ∃ e, input.consumeChars fuel s b = .error e ∧ e.code = .syntaxError := by
  cases fuel with
  | zero => exact ⟨_, rfl, rfl⟩
  | succ fuel =>
    rw [Input.consumeChars, if_neg (show ¬s.pos + 1 ≤ input.length by omega)]
    exact ⟨_, rfl, rfl⟩

theorem consumeStringRaw_alike (h : Below input input') {s' : State} (hsync : s.index = s.pos)
    (hsync' : s'.index = s'.pos) (hpos : s.pos = s'.pos) (hlt : s.pos < input.length) :
    Alike (input.consumeStringRaw s) (input'.consumeStringRaw s') ∨
      ∃ codes, OpenString (input.rest s.pos) codes := by
  have hcur : input.cur s = input'.cur s' := (h.same _ hlt).trans (congrArg input'.mem hpos)
  unfold Input.consumeStringRaw
  rw [← hcur]
  by_cases hquote : input.cur s ≠ quote
  · rw [if_pos hquote, if_pos hquote]
    exact .inl (Alike.errors rfl)
  rw [if_neg hquote, if_neg hquote, ← h.length]
  rcases lt_or_ge (s.pos + 1) input.length with hnext | hend
  swap
  · obtain ⟨e, hrun, hcode⟩ :=
      @consumeChars_end input (input.length + 1) s.nextChar ⟨s.pos + 1, 0, none⟩ hend
    obtain ⟨e', hrun', hcode'⟩ :=
      @consumeChars_end input' (input.length + 1) s'.nextChar ⟨s'.pos + 1, 0, none⟩
        (show input'.length ≤ s'.pos + 1 by rw [← h.length, ← hpos]; exact hend)
    rw [hrun, hrun']
    exact .inl (Alike.errors (hcode.trans hcode'.symm))
  have hindex : s.nextChar.index = s.pos + 1 := congrArg (· + 1) hsync
  have hindex' : s'.nextChar.index = s'.pos + 1 := congrArg (· + 1) hsync'
  have hb : StringBuilder.Holds input.mem ⟨s.pos + 1, 0, none⟩ s.nextChar.index [] :=
    hindex ▸ holds_empty _ _
  have hb' : StringBuilder.Holds input'.mem ⟨s'.pos + 1, 0, none⟩ s'.nextChar.index [] :=
    hindex' ▸ holds_empty _ _
  refine (consumeChars_alike h _ (show s.pos + 1 < input.length from hnext)
    (show s'.pos + 1 < input.length by omega) (by omega) (by omega) hb hb').imp_right ?_
  rintro ⟨chars, d, tail, codes, hchars, htail, hrest⟩
  rw [hindex] at hrest
  refine ⟨codes, ?_⟩
  rw [rest_of_lt hlt, show input.mem s.pos = quote from not_not.mp hquote, hrest]
  refine .mk hchars htail ?_
  rw [← hrest, rest_of_lt hnext]
  exact cons_ne_nil _ _

/-! ## What follows an open string literal -/

/-- An escape that ends behind the text is not gone on from. -/
theorem consumeChars_escape_end (fuel : Nat) (b : StringBuilder) {k : Nat} {e : Bytes}
    (hpos : s.pos < input.length) (hslash : input.mem s.index = backslash)
    (h : EscapeReads input s.index e k) (hend : input.length ≤ s.index + k) :
    ∃ e, input.consumeChars (fuel + 1) s b = .error e ∧ e.code = .syntaxError := by
  rw [Input.consumeChars, if_pos (show input.canConsume s 1 from hpos),
    cbu8Next_ascii _ _ hslash (by decide)]
  dsimp only
  rw [if_neg (by decide), if_pos rfl]
  obtain ⟨b', hesc, -⟩ := consumeEscape_complete
    (s := { s with pos := s.index, index := s.index + 1 })
    (Terminated.convert_string input.mem b) h
  rw [hesc]
  exact consumeChars_end fuel b' hend

variable {codes : Codes}

/-- The byte behind the text completes the escape, or spoils it. -/
theorem StringTail.escape_cases {tail : Bytes} (h : StringTail tail codes) {p : Nat}
    (hrest : input.rest p = tail) (hne : tail ≠ []) :
    input.mem p = backslash ∧
      (codes (input.mem input.length) = some .syntaxError ∧
          (∃ e k, EscapeReads input p e k ∧ input.length ≤ p + k) ∨
        codes (input.mem input.length) = some .invalidEscape ∧
          ∀ e k, ¬EscapeReads input p e k) := by
  have hlength := congrArg length hrest
  rw [Input.rest, length_load] at hlength
  have hletters := simpleEscape_letters
  cases h with
  | plain => exact absurd rfl hne
  | escape =>
    simp only [length_singleton] at hlength
    have hend : p + 1 = input.length := by omega
    refine ⟨(mem_of_rest hrest).1, ?_⟩
    rw [← hend]
    cases hesc : simpleEscape (input.mem (p + 1)) with
    | some c =>
      exact .inl ⟨by simp [escapeCode, hesc], [c], 1, .simple (by omega) hesc, by omega⟩
    | none =>
      refine .inr ⟨by simp [escapeCode, hesc], fun e k hreads => ?_⟩
      cases hreads with
      | simple _ h => rw [hesc] at h; cases h
      | hex hroom => omega
      | units _ hunits =>
        cases hunits with
        | single hroom => omega
        | pair hroom => omega
  | hex d =>
    simp only [length_cons, length_nil] at hlength
    have hend : p + 3 = input.length := by omega
    obtain ⟨hslash, hrest₁⟩ := mem_of_rest hrest
    obtain ⟨hx, hrest₂⟩ := mem_of_rest hrest₁
    obtain ⟨hd, -⟩ := mem_of_rest hrest₂
    have hload : load input.mem (p + 2) 2 = [d, input.mem input.length] := by
      rw [← hend, ← hd]
      rfl
    refine ⟨hslash, ?_⟩
    cases hv : hexStringToInt [d, input.mem input.length] with
    | some v =>
      refine .inl ⟨by simp [escapeCode, hv], hexBytes v, 3, .hex (by omega) hx ?_, by omega⟩
      rw [hload, hv]
    | none =>
      refine .inr ⟨by simp [escapeCode, hv], fun e k hreads => ?_⟩
      cases hreads with
      | simple _ h => rw [hx, hletters.1] at h; cases h
      | hex _ _ h => rw [hload, hv] at h; cases h
      | units hu => rw [hx] at hu; cases hu
  | @pair ds ds' high hlen hlen' hhigh hsurr hlead =>
    simp only [length_cons, length_append, hlen, hlen'] at hlength
    have hend : p + 11 = input.length := by omega
    obtain ⟨hslash, hrest₁⟩ := mem_of_rest hrest
    obtain ⟨hu, hrest₂⟩ := mem_of_rest hrest₁
    obtain ⟨hds, hrest₃⟩ := load_of_rest hrest₂
    rw [hlen] at hds hrest₃
    obtain ⟨hslash', hrest₄⟩ := mem_of_rest hrest₃
    obtain ⟨hu', hrest₅⟩ := mem_of_rest hrest₄
    rw [← append_nil ds'] at hrest₅
    have hds' := (load_of_rest hrest₅).1
    rw [hlen'] at hds'
    have hload : load input.mem (p + 2 + 6) 4 = ds' ++ [input.mem input.length] := by
      rw [StringBuilder.load_succ, show p + 2 + 6 + 3 = input.length by omega, ← hds']
    have hds₂ : load input.mem (p + 2) 4 = ds := hds
    have hnoLow : ∀ {low}, hexStringToInt (ds' ++ [input.mem input.length]) = some low →
        isTrailUnit (toUInt32 low) = true →
          ∃ e k, EscapeReads input p e k ∧ input.length ≤ p + k := fun hlow htrail =>
      ⟨_, 2 + 9, .units hu (.pair (by omega) (hds₂.symm ▸ hhigh) hslash' hu'
        (hload.symm ▸ hlow) hsurr hlead htrail), by omega⟩
    refine ⟨hslash, ?_⟩
    by_cases htaken : (hexStringToInt (ds' ++ [input.mem input.length])).any
        (fun low => isTrailUnit (toUInt32 low)) = true
    · obtain ⟨low, hlow, htrail⟩ := (Option.any_eq_true ..).mp htaken
      exact .inl ⟨by simp [escapeCode, htaken], hnoLow hlow htrail⟩
    · refine .inr ⟨by simp [escapeCode, htaken], fun e k hreads => ?_⟩
      cases hreads with
      | simple _ h => rw [hu, hletters.2] at h; cases h
      | hex _ hx => rw [hu] at hx; cases hx
      | units _ hunits =>
        cases hunits with
        | single _ hv hone =>
          rw [hds₂, hhigh] at hv
          cases hv
          rw [hsurr] at hone
          cases hone
        | pair _ _ _ _ hlow _ _ htrail =>
          rw [hload] at hlow
          exact htaken ((Option.any_eq_true ..).mpr ⟨_, hlow, htrail⟩)

theorem Answers.of_error {α : Type} {o : Outcome α} {code : ErrorCode}
    (hcodes : codes (input.mem input.length) = some code) (h : ∃ e, o = .error e ∧ e.code = code) :
    Answers input codes o := by
  unfold Answers
  rw [hcodes]
  exact h

theorem Answers.of_ok {α : Type} {o : Outcome α} (hcodes : codes (input.mem input.length) = none)
    (h : ∃ v s, o = .ok (v, s) ∧ s.index = s.pos ∧ input.length ≤ s.pos + 1) :
    Answers input codes o := by
  unfold Answers
  rw [hcodes]
  exact h

theorem ReadsScalar.ascii {mem : Memory} {i n c j : Nat} {x : UInt8} (h : ReadsScalar mem i n c j)
    (hx : mem i = x) (hlt : x.toNat < 0x80) : c = x.toNat := by
  have := h.head
  rw [hx] at this
  omega

/-- The last turns of the loop, from the tail of the literal on. -/
theorem StringTail.answers {tail : Bytes} {codes : Codes} (h : StringTail tail codes) (fuel : Nat)
    {s : State} {b : StringBuilder} {d : Bytes} (hpos : s.pos < input.length)
    (hle : s.index ≤ input.length) (hb : b.Holds input.mem s.index d)
    (hrest : input.rest s.index = tail) :
    Answers input codes (input.consumeChars (fuel + 1) s b) := by
  by_cases hne : tail = []
  · subst hne
    have hend := rest_nil_eq hrest hle
    have hnoEscape : input.mem s.index = backslash → ∀ e k, ¬CharAt input s.index e k := by
      intro hslash e k hchar
      cases hchar with
      | plain hreads _ hnot _ => exact hnot (ReadsScalar.ascii hreads hslash (by decide))
      | escape _ hreads =>
        cases hreads with
        | simple hroom => omega
        | hex hroom => omega
        | units _ hunits =>
          cases hunits with
          | single hroom => omega
          | pair hroom => omega
    cases h
    by_cases hquote : input.mem s.index = quote
    · rw [consumeChars_quote hpos hquote]
      exact Answers.of_ok (if_pos (hend ▸ hquote)) ⟨_, _, rfl, rfl, by dsimp only; omega⟩
    have hquote' : input.mem input.length ≠ quote := hend ▸ hquote
    by_cases hslash : input.mem s.index = backslash
    · obtain ⟨e, hrun, hcode⟩ := consumeChars_stuck fuel b hpos hquote (hnoEscape hslash)
      rw [if_pos hslash] at hcode
      refine Answers.of_error ?_ ⟨e, hrun, hcode⟩
      rw [if_neg hquote', if_pos (hend ▸ hslash)]
    have hslash' : input.mem input.length ≠ backslash := hend ▸ hslash
    by_cases hascii : (input.mem s.index).toNat < 0x80
    · have hchar : CharAt input s.index (appendUnsafe (input.mem s.index).toNat) 0 := by
        refine .plain (readsScalar_single hascii) ?_ (fun hx => hslash (UInt8.toNat_inj.mp hx))
          fun hx => hquote (UInt8.toNat_inj.mp hx)
        simp only [isValidCharacter, Bool.or_eq_true, decide_eq_true_eq]
        exact .inl (Or.inl (by omega))
      obtain ⟨b', s', hstep, -, -, -, hlow, -⟩ := consumeChars_char fuel hpos hb hchar
      rw [hstep]
      refine Answers.of_error ?_ (consumeChars_end fuel b' (by omega))
      rw [if_neg hquote', if_neg hslash', if_pos (hend ▸ hascii)]
    · have hstuck : ∀ e k, ¬CharAt input s.index e k := by
        intro e k hchar
        cases hchar with
        | plain hreads =>
          rcases hreads.2.2.2 with hj | hj
          · omega
          · have := hreads.head
            omega
        | escape hx => exact hslash hx
      obtain ⟨e, hrun, hcode⟩ := consumeChars_stuck fuel b hpos hquote hstuck
      rw [if_neg hslash] at hcode
      refine Answers.of_error ?_ ⟨e, hrun, hcode⟩
      rw [if_neg hquote', if_neg hslash', if_neg (hend ▸ hascii)]
  · obtain ⟨hslash, ⟨hcodes, e, k, hreads, hend⟩ | ⟨hcodes, hnone⟩⟩ := h.escape_cases hrest hne
    · exact Answers.of_error hcodes (consumeChars_escape_end fuel b hpos hslash hreads hend)
    · obtain ⟨e, hrun, hcode⟩ := consumeChars_stuck fuel b hpos (by rw [hslash]; decide)
        fun e k hchar => by
          cases hchar with
          | plain hreads _ hnot _ => exact hnot (ReadsScalar.ascii hreads hslash (by decide))
          | escape _ hreads => exact hnone e k hreads
      rw [if_pos hslash] at hcode
      exact Answers.of_error hcodes ⟨e, hrun, hcode⟩

theorem consumeChars_answers {chars d tail : Bytes} (hchars : BodyReads hexStringToInt chars d)
    (htail : StringTail tail codes) {fuel : Nat} {e : Bytes} (hpos : s.pos < input.length)
    (hle : s.index ≤ input.length) (hb : b.Holds input.mem s.index e)
    (hrest : input.rest s.index = chars ++ tail) (hfuel : input.length < fuel + s.index) :
    Answers input codes (input.consumeChars fuel s b) := by
  induction hchars generalizing fuel s b e with
  | nil =>
    obtain _ | fuel := fuel
    · omega
    exact htail.answers fuel hpos hle hb hrest
  | @cons t f t' f' head tail' ih =>
    rw [append_assoc] at hrest
    obtain ⟨hload, hrest'⟩ := load_of_rest hrest
    have hne : t ≠ [] := by
      rintro rfl
      obtain ⟨k, hk, -⟩ := @CharReads.charAt input s.index [] f head rfl hle
      cases hk
    have hroom := le_of_rest hrest hne
    obtain ⟨k, hk, hchar⟩ := head.charAt hload hroom
    obtain _ | fuel := fuel
    · omega
    obtain ⟨b₁, s₁, hstep, hb₁, hindex, -, -, hhigh⟩ := consumeChars_char fuel hpos hb hchar
    rw [hstep]
    refine ih (by omega) (by omega) hb₁ ?_ (by omega)
    rw [hindex, ← hrest', hk]
    rfl

/-- The byte behind an open literal decides what ConsumeStringRaw does. -/
theorem OpenString.answers {text : Bytes} {codes : Codes} (h : OpenString text codes) {s : State}
    (hsync : s.index = s.pos) (hrest : input.rest s.pos = text) :
    Answers input codes (input.consumeStringRaw s) := by
  obtain ⟨hchars, htail, hne⟩ := h
  obtain ⟨hquote, hrest'⟩ := mem_of_rest hrest
  have hnext : s.pos + 1 < input.length := by
    by_contra hend
    rw [rest_of_le (by omega)] at hrest'
    exact hne hrest'.symm
  have hindex : s.nextChar.index = s.pos + 1 := congrArg (· + 1) hsync
  have hb : StringBuilder.Holds input.mem ⟨s.pos + 1, 0, none⟩ s.nextChar.index [] :=
    hindex ▸ holds_empty _ _
  unfold Input.consumeStringRaw
  rw [if_neg (not_not.mpr hquote)]
  exact consumeChars_answers hchars htail (show s.pos + 1 < input.length from hnext) (by omega) hb
    (hindex ▸ hrest') (by omega)

end ChromiumUI.Json
