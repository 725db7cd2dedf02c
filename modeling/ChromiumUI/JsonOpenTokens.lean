import ChromiumUI.JsonOpenStrings

/-!
# Tokens that the end of the input cuts

A text may also end inside a number or a word. `OpenScalar` collects what the parser then makes of
the byte behind the text.
-/
namespace ChromiumUI.Json

open ByteMemory Base List

section Definitions

variable {F : Type} (stringToDouble : Bytes → Option F)

instance (num : Number) (b : UInt8) : Decidable (num.GoesOn b) :=
  inferInstanceAs (Decidable (num.exponent = [] ∧ _))

/-- A number behind which the parser looks for a fraction or an exponent. -/
def numberCodes (num : Number) : Codes := fun b =>
  if num.GoesOn b then some .syntaxError
  else if (numberValue stringToDouble num.text).isSome then none
  else some .noError

/-- A scalar that the end of the text cuts. -/
inductive OpenScalar : Bytes → Codes → Prop
  | string {text : Bytes} {codes : Codes} (h : OpenString text codes) : OpenScalar text codes
  | number (num : Number) (hexponent : num.exponent = []) :
      OpenScalar num.text (numberCodes stringToDouble num)
  | word {word : Bytes} {value : Value F} (h : (word, value) ∈ words) :
      OpenScalar word.dropLast fun b => if word.getLast? = some b then none else some .syntaxError

end Definitions

variable {input input' : Input}

/-! ## Numbers -/

variable {s s' : State}

section Scalars

variable {F : Type} {stringToDouble : Bytes → Option F}

theorem numberValue_some (text : Bytes) : ∃ v, numberValue some text = some v := by
  unfold numberValue
  cases stringToInt text with
  | some v => exact ⟨_, rfl⟩
  | none => exact ⟨_, rfl⟩

theorem readFraction_code {e : ParseError} (h : input.readFraction s = .error e) :
    e.code = .syntaxError := by
  unfold Input.readFraction at h
  split at h
  · split at h
    · cases h
      rfl
    · split at h
      · cases h
        rfl
      · cases h
  · cases h

theorem readExponent_code {e : ParseError} (h : input.readExponent s = .error e) :
    e.code = .syntaxError := by
  unfold Input.readExponent at h
  split at h
  · dsimp only at h
    split at h
    · cases h
      rfl
    · cases h
  · cases h

/-- Only the last step of ConsumeNumber asks for the value of the text. -/
theorem consumeNumber_compare (stringToDouble : Bytes → Option F) (start : State) :
    (∃ e, input.consumeNumber some start = .error e ∧ e.code = .syntaxError ∧
        input.consumeNumber stringToDouble start = .error e) ∨
      ∃ u t, input.consumeNumber some start = .ok (u, t) ∧
        ((∃ v, input.consumeNumber stringToDouble start = .ok (v, t)) ∨
          ∃ e, input.consumeNumber stringToDouble start = .error e ∧ e.code = .noError) := by
  have hfin (s : State) :
      (∃ e, input.finishNumber some start s = .error e ∧ e.code = .syntaxError ∧
          input.finishNumber stringToDouble start s = .error e) ∨
        ∃ u t, input.finishNumber some start s = .ok (u, t) ∧
          ((∃ v, input.finishNumber stringToDouble start s = .ok (v, t)) ∨
            ∃ e, input.finishNumber stringToDouble start s = .error e ∧ e.code = .noError) := by
    obtain ⟨u, hu⟩ := numberValue_some (load input.mem start.pos (s.index - start.index))
    unfold Input.finishNumber
    rw [hu]
    split
    case h_5 => exact .inl ⟨_, rfl, rfl, rfl⟩
    all_goals
      refine .inr ⟨_, _, rfl, ?_⟩
      split
      · exact .inl ⟨_, rfl⟩
      · exact .inr ⟨_, rfl, rfl⟩
  unfold Input.consumeNumber
  dsimp only
  split
  · exact .inl ⟨_, rfl, rfl, rfl⟩
  · rename_i s hint
    cases hfrac : input.readFraction s with
    | error e => exact .inl ⟨e, rfl, readFraction_code hfrac, rfl⟩
    | ok s₁ =>
      cases hexp : input.readExponent s₁ with
      | error e =>
        simp only [Except.bind, hexp]
        exact .inl ⟨e, rfl, readExponent_code hexp, rfl⟩
      | ok s₂ =>
        simp only [Except.bind, hexp]
        exact hfin s₂

/-- What is no number, or one that goes on, is a syntax error. -/
theorem consumeNumber_no (start : State) (hsync : start.index = start.pos)
    (hpos : start.pos < input.length) (hno : ∀ num r, ¬NumberAt input start.pos num r) :
    ∃ e, input.consumeNumber stringToDouble start = .error e ∧ e.code = .syntaxError := by
  obtain ⟨e, -, hcode, hrun⟩ | ⟨u, t, hrun, -⟩ := consumeNumber_compare stringToDouble start
  · exact ⟨e, hrun, hcode⟩
  · obtain ⟨num, r, hat, -⟩ := consumeNumber_sound hsync hpos hrun
    exact absurd hat (hno num r)

/-- A number without a value leaves no error behind. -/
theorem consumeNumber_none {start : State} {num : Number} {r : Bytes}
    (hsync : start.index = start.pos) (hat : NumberAt input start.pos num r)
    (hvalue : numberValue stringToDouble num.text = none) :
    ∃ e, input.consumeNumber stringToDouble start = .error e ∧ e.code = .noError := by
  have hpos : start.pos < input.length := by
    have := le_of_rest hat.rest num.text_ne_nil
    have := length_pos_iff.mpr num.text_ne_nil
    omega
  obtain ⟨u, hu⟩ := numberValue_some num.text
  obtain ⟨t, hrun, -, hend⟩ := consumeNumber_complete hsync hat hu
  obtain ⟨e, hrun', -⟩ | ⟨u', t', hrun', hsame⟩ := consumeNumber_compare stringToDouble start
  · rw [hrun] at hrun'
    cases hrun'
  · rw [hrun] at hrun'
    cases hrun'
    obtain ⟨v, hv⟩ | herror := hsame
    · -- A value would be one of the same text.
      obtain ⟨num', r', hat', hvalue', -, hend'⟩ := consumeNumber_sound hsync hpos hv
      have hload := (load_of_rest hat.rest).1
      have hload' := (load_of_rest hat'.rest).1
      rw [show num'.text.length = num.text.length by omega, hload] at hload'
      rw [← hload', hvalue] at hvalue'
      cases hvalue'
    · exact herror

theorem NumberAt.of_below (h : Below input input') {p : Nat} {num : Number} {r : Bytes}
    (hat : NumberAt input p num r) (hstops : r = [] → ¬num.GoesOn (input'.mem input'.length)) :
    NumberAt input' p num r :=
  ⟨h.rest p ▸ hat.rest, hat.follows, hstops⟩

theorem consumeNumber_alike (h : Below input input') (hsync : s.index = s.pos)
    (hsync' : s'.index = s'.pos) (hpos : s.pos = s'.pos) (hlt : s.pos < input.length) :
    Alike (input.consumeNumber stringToDouble s) (input'.consumeNumber stringToDouble s') ∨
      ∃ codes, OpenScalar stringToDouble (input.rest s.pos) codes := by
  have hlt' : s'.pos < input'.length := by
    rw [← hpos, ← h.length]
    exact hlt
  have hopen {num : Number} {r : Bytes} (hrest : input.rest s.pos = num.text ++ r) (hnil : r = [])
      (hexp : num.exponent = []) :
      ∃ codes, OpenScalar stringToDouble (input.rest s.pos) codes := by
    rw [hrest, hnil, append_nil]
    exact ⟨_, .number num hexp⟩
  -- A number of one buffer is one of the other, or its text is open.
  have hboth {num : Number} {r : Bytes} (hat : NumberAt input s.pos num r)
      (hat' : NumberAt input' s'.pos num r) :
      Alike (input.consumeNumber stringToDouble s) (input'.consumeNumber stringToDouble s') := by
    cases hvalue : numberValue stringToDouble num.text with
    | some v =>
      obtain ⟨t, hrun, hs, hend⟩ := consumeNumber_complete hsync hat hvalue
      obtain ⟨t', hrun', hs', hend'⟩ := consumeNumber_complete hsync' hat' hvalue
      rw [hrun, hrun']
      exact ⟨by omega, by omega⟩
    | none =>
      obtain ⟨e, hrun, hcode⟩ := consumeNumber_none hsync hat hvalue
      obtain ⟨e', hrun', hcode'⟩ := consumeNumber_none hsync' hat' hvalue
      rw [hrun, hrun']
      exact Alike.errors (hcode.trans hcode'.symm)
  by_cases hnum : ∃ num r, NumberAt input s.pos num r
  · obtain ⟨num, r, hat⟩ := hnum
    by_cases hend : r = [] ∧ num.exponent = []
    · exact .inr (hopen hat.rest hend.1 hend.2)
    · refine .inl (hboth hat (hpos ▸ hat.of_below h fun hnil hgoes => ?_))
      exact hend ⟨hnil, hgoes.1⟩
  by_cases hnum' : ∃ num r, NumberAt input' s'.pos num r
  · obtain ⟨num, r, hat'⟩ := hnum'
    have hrest : input.rest s.pos = num.text ++ r := by
      rw [h.rest, hpos]
      exact hat'.rest
    by_cases hend : r = [] ∧ num.exponent = []
    · exact .inr (hopen hrest hend.1 hend.2)
    · refine .inl (hboth (hpos ▸ hat'.of_below h.symm fun hnil hgoes => ?_) hat')
      exact hend ⟨hnil, hgoes.1⟩
  obtain ⟨e, hrun, hcode⟩ := @consumeNumber_no input F stringToDouble s hsync hlt
    fun num r hat => hnum ⟨num, r, hat⟩
  obtain ⟨e', hrun', hcode'⟩ := @consumeNumber_no input' F stringToDouble s' hsync' hlt'
    fun num r hat => hnum' ⟨num, r, hat⟩
  rw [hrun, hrun']
  exact .inl (Alike.errors (hcode.trans hcode'.symm))

theorem consumeNumber_answers {num : Number} (hsync : s.index = s.pos)
    (hrest : input.rest s.pos = num.text) :
    Answers input (numberCodes stringToDouble num) (input.consumeNumber stringToDouble s) := by
  have hlen := congrArg length hrest
  have hne := length_pos_iff.mpr num.text_ne_nil
  rw [Input.rest, length_load] at hlen
  by_cases hgoes : num.GoesOn (input.mem input.length)
  · refine Answers.of_error (if_pos hgoes) ?_
    refine consumeNumber_no s hsync (by omega) fun num' r hat => hat.not_cutShort ?_
    exact ⟨num, hrest, hgoes⟩
  have hat : NumberAt input s.pos num [] :=
    ⟨by rw [hrest, append_nil], by simp [Follows, dropGap_nil, headToken], fun _ => hgoes⟩
  cases hvalue : numberValue stringToDouble num.text with
  | some v =>
    obtain ⟨t, hrun, hs, hend⟩ := consumeNumber_complete hsync hat hvalue
    refine Answers.of_ok ?_ ⟨v, t, hrun, hs, by omega⟩
    simp [numberCodes, hgoes, hvalue]
  | none =>
    refine Answers.of_error ?_ (consumeNumber_none hsync hat hvalue)
    simp [numberCodes, hgoes, hvalue]

/-! ## Words -/

theorem consumeWord_alike (h : Below input input') {word : Bytes} {value : Value F}
    (hword : (word, value) ∈ words) (hsync : s.index = s.pos) (hsync' : s'.index = s'.pos)
    (hpos : s.pos = s'.pos) :
    Alike (input.consumeWord word value s) (input'.consumeWord word value s') ∨
      ∃ codes, OpenScalar stringToDouble (input.rest s.pos) codes := by
  have hne := length_pos_iff.mpr (word_facts hword).1
  have hlen := h.length
  unfold Input.consumeWord
  rcases Nat.lt_trichotomy (s.pos + (word.length - 1)) input.length with hlt | heq | hgt
  · have hload : load input.mem s.pos word.length = load input'.mem s'.pos word.length := by
      rw [← hpos]
      exact h.load (by omega)
    have hroom : input.canConsume s (word.length - 1) := Nat.le_of_lt hlt
    have hroom' : input'.canConsume s' (word.length - 1) := by
      omega
    left
    by_cases hsame : load input.mem s.pos word.length = word
    · rw [if_pos ⟨hroom, hsame⟩, if_pos ⟨hroom', hload ▸ hsame⟩]
      exact ⟨by simp only [State.nextNChars_pos, hpos],
        by simp only [State.nextNChars_index, hsync, hsync', hpos]⟩
    · rw [if_neg fun hboth => hsame hboth.2, if_neg fun hboth => hsame (hload ▸ hboth.2)]
      exact Alike.errors rfl
  · by_cases hrest : input.rest s.pos = word.dropLast
    · rw [hrest]
      exact .inr ⟨_, .word hword⟩
    · have hno {i : Input} (hi : i.rest s.pos = input.rest s.pos) (hil : i.length = input.length) :
          load i.mem s.pos word.length ≠ word := by
        intro hload
        apply hrest
        rw [← hi, Input.rest, hil, show input.length - s.pos = word.length - 1 by omega, ← hload,
          show word.length = word.length - 1 + 1 by omega, StringBuilder.load_succ,
          dropLast_concat]
        simp
      have hno' : load input'.mem s'.pos word.length ≠ word :=
        hpos ▸ hno (h.rest _).symm h.length.symm
      rw [if_neg fun hboth => hno rfl rfl hboth.2, if_neg fun hboth => hno' hboth.2]
      exact .inl (Alike.errors rfl)
  · have hroom : ¬input.canConsume s (word.length - 1) := by
      omega
    have hroom' : ¬input'.canConsume s' (word.length - 1) := by
      omega
    rw [if_neg fun hboth => hroom hboth.1, if_neg fun hboth => hroom' hboth.1]
    exact .inl (Alike.errors rfl)

theorem consumeLiteral_alike (h : Below input input') (hsync : s.index = s.pos)
    (hsync' : s'.index = s'.pos) (hpos : s.pos = s'.pos) (hlt : s.pos < input.length) :
    Alike (input.consumeLiteral s : Outcome (Value F))
        (input'.consumeLiteral s' : Outcome (Value F)) ∨
      ∃ codes, OpenScalar stringToDouble (input.rest s.pos) codes := by
  have hcur : input.cur s = input'.cur s' := (h.same _ hlt).trans (congrArg input'.mem hpos)
  unfold Input.consumeLiteral
  rw [← hcur]
  split
  · exact consumeWord_alike h (by simp [words]) hsync hsync' hpos
  · split
    · exact consumeWord_alike h (by simp [words]) hsync hsync' hpos
    · split
      · exact consumeWord_alike h (by simp [words]) hsync hsync' hpos
      · exact .inl (Alike.errors rfl)

theorem consumeLiteral_answers {word : Bytes} {value : Value F} (hword : (word, value) ∈ words)
    (hsync : s.index = s.pos) (hrest : input.rest s.pos = word.dropLast) :
    Answers input (fun b => if word.getLast? = some b then none else some .syntaxError)
      (input.consumeLiteral s : Outcome (Value F)) := by
  have hlen := congrArg length hrest
  rw [Input.rest, length_load, length_dropLast] at hlen
  have hlong : 1 < word.length ∧ word.head? = word.dropLast.head? ∧
      word = word.dropLast ++ word.getLast?.toList := by
    simp only [words, mem_cons, Prod.mk.injEq, not_mem_nil, or_false] at hword
    obtain ⟨rfl, -⟩ | ⟨rfl, -⟩ | ⟨rfl, -⟩ := hword <;> decide
  obtain ⟨hlong, hhead, hsplit⟩ := hlong
  have hhead' : word.head? = some (input.cur s) := by
    rw [hhead, ← hrest, rest_of_lt (by omega)]
    rfl
  have hload : load input.mem s.pos word.length = word.dropLast ++ [input.mem input.length] := by
    rw [show word.length = word.length - 1 + 1 by omega, StringBuilder.load_succ,
      show s.pos + (word.length - 1) = input.length by omega, ← hrest, Input.rest,
      show input.length - s.pos = word.length - 1 by omega]
  rw [consumeLiteral_word hword hhead']
  unfold Input.consumeWord
  by_cases hlast : word.getLast? = some (input.mem input.length)
  · rw [hlast] at hsplit
    have hroom : input.canConsume s (word.length - 1) := by
      omega
    have htaken : load input.mem s.pos word.length = word := hload.trans hsplit.symm
    refine Answers.of_ok (if_pos hlast)
      ⟨value, s.nextNChars (word.length - 1), if_pos ⟨hroom, htaken⟩, ?_, ?_⟩
    · simp only [State.nextNChars_index, State.nextNChars_pos, hsync]
    · simp only [State.nextNChars_pos]
      omega
  · refine Answers.of_error (if_neg hlast) ⟨_, if_neg fun hboth => hlast ?_, rfl⟩
    rw [hload] at hboth
    rw [← hboth.2, getLast?_concat]

/-! ## Scalars -/

theorem consumeString_alike (h : Below input input') (hsync : s.index = s.pos)
    (hsync' : s'.index = s'.pos) (hpos : s.pos = s'.pos) (hlt : s.pos < input.length) :
    Alike (input.consumeString s : Outcome (Value F))
        (input'.consumeString s' : Outcome (Value F)) ∨
      ∃ codes, OpenScalar stringToDouble (input.rest s.pos) codes := by
  obtain halike | ⟨codes, hopen⟩ := consumeStringRaw_alike h hsync hsync' hpos hlt
  · left
    unfold Input.consumeString
    rcases hraw : input.consumeStringRaw s with e | ⟨b, t⟩ <;>
      rcases hraw' : input'.consumeStringRaw s' with e' | ⟨b', t'⟩ <;>
        rw [hraw, hraw'] at halike <;> exact halike
  · exact .inr ⟨codes, .string hopen⟩

/-- ParseToken where no container begins. -/
theorem parseScalar_alike (h : Below input input') {options : Options}
    {below below' : Option (Token → State → Outcome (Value F))} {token : Token}
    (hobject : token ≠ .objectBegin) (harray : token ≠ .arrayBegin) (hsync : s.index = s.pos)
    (hsync' : s'.index = s'.pos) (hpos : s.pos = s'.pos) (hlt : s.pos < input.length) :
    Alike (input.parseTokenWith stringToDouble options below token s)
        (input'.parseTokenWith stringToDouble options below' token s') ∨
      ∃ codes, OpenScalar stringToDouble (input.rest s.pos) codes := by
  cases token with
  | objectBegin => exact absurd rfl hobject
  | arrayBegin => exact absurd rfl harray
  | string => exact consumeString_alike h hsync hsync' hpos hlt
  | number => exact consumeNumber_alike h hsync hsync' hpos hlt
  | boolTrue | boolFalse | null => exact consumeLiteral_alike h hsync hsync' hpos hlt
  | _ => exact .inl (Alike.errors rfl)

/-- The tokens that a scalar begins with. -/
def IsScalarToken (token : Token) : Prop :=
  token = .string ∨ token = .number ∨ token = .boolTrue ∨ token = .boolFalse ∨ token = .null

theorem OpenScalar.headToken {text : Bytes} {codes : Codes}
    (h : OpenScalar stringToDouble text codes) : IsScalarToken (headToken text) := by
  cases h with
  | string h =>
    obtain ⟨-, -, -⟩ := h
    exact .inl rfl
  | number num =>
    have hnum := num.headToken []
    rw [append_nil] at hnum
    exact .inr (Or.inl hnum)
  | word hword =>
    simp only [words, mem_cons, Prod.mk.injEq, not_mem_nil, or_false] at hword
    obtain ⟨rfl, -⟩ | ⟨rfl, -⟩ | ⟨rfl, -⟩ := hword <;> simp only [IsScalarToken] <;> decide

theorem OpenScalar.answers {text : Bytes} {codes : Codes}
    (h : OpenScalar stringToDouble text codes) {options : Options}
    {below : Option (Token → State → Outcome (Value F))} {s : State} (hsync : s.index = s.pos)
    (hrest : input.rest s.pos = text) :
    Answers input codes
      (input.parseTokenWith stringToDouble options below (Json.headToken text) s) := by
  cases h with
  | string h =>
    have hraw := h.answers hsync hrest
    obtain ⟨-, -, -⟩ := h
    show Answers input codes (input.consumeString s)
    unfold Answers Input.consumeString at *
    split at hraw
    · obtain ⟨e, hrun, hcode⟩ := hraw
      rw [hrun]
      exact ⟨e, rfl, hcode⟩
    · obtain ⟨b, t, hrun, hs, hend⟩ := hraw
      rw [hrun]
      exact ⟨_, t, rfl, hs, hend⟩
  | number num =>
    have hnum := num.headToken []
    rw [append_nil] at hnum
    rw [hnum]
    exact consumeNumber_answers hsync hrest
  | @word word value hword =>
    have hliteral := consumeLiteral_answers hword hsync hrest
    simp only [words, mem_cons, Prod.mk.injEq, not_mem_nil, or_false] at hword
    obtain ⟨rfl, -⟩ | ⟨rfl, -⟩ | ⟨rfl, -⟩ := hword <;> exact hliteral

theorem Overruns.openScalar {last : UInt8} {text : Bytes} {v : Value F} (h : Overruns last text v) :
    ∃ codes, OpenScalar stringToDouble text codes := by
  cases h with
  | @string body d hne hbody _ =>
    have hopen := OpenString.mk hbody .plain (show body ++ [] ≠ [] by rwa [append_nil])
    rw [append_nil] at hopen
    exact ⟨_, .string hopen⟩
  | word hword _ => exact ⟨_, .word hword⟩

end Scalars

/-! ## Texts that end inside a token

Everything in front of the token is what the grammar reads. In a container the end of the text is a
syntax error even when the byte behind it completes the token. -/

/-- A token that is cut inside a container. -/
def nested (codes : Codes) : Codes := fun b => some ((codes b).getD .syntaxError)

/-- Items, the last of which is cut. -/
inductive OpenItems {α : Type} (item : Bytes → α → Bytes → Prop)
    (openItem : Bytes → Codes → Prop) : Bytes → Codes → Prop
  | head {r : Bytes} {codes : Codes} (h : openItem r codes) : OpenItems item openItem r codes
  | next {r r₁ r₂ : Bytes} {v : α} {codes : Codes} (head : item r v r₁)
      (hcomma : dropGap r₁ = comma :: r₂) (tail : OpenItems item openItem (dropGap r₂) codes) :
      OpenItems item openItem r codes

/-- A member whose key or whose value is cut. -/
inductive OpenMember (openValue : Bytes → Codes → Prop) : Bytes → Codes → Prop
  | key {r : Bytes} {codes : Codes} (h : OpenString r codes) : OpenMember openValue r codes
  | value {s key r r₂ : Bytes} {codes : Codes} (hkey : StringReads hexStringToInt s key)
      (hcolon : dropGap r = colon :: r₂) (h : openValue (dropGap r₂) codes) :
      OpenMember openValue (s ++ r) codes

section Definitions

variable {F : Type} (stringToDouble : Bytes → Option F) (trailingCommas : Bool)

inductive OpenValue (value : Bytes → Value F → Bytes → Prop) (openValue : Bytes → Codes → Prop) :
    Bytes → Codes → Prop
  | scalar {text : Bytes} {codes : Codes} (h : OpenScalar stringToDouble text codes) :
      OpenValue value openValue text codes
  | list {r : Bytes} {codes : Codes} (h : OpenItems value openValue (dropGap r) codes) :
      OpenValue value openValue (openBracket :: r) (nested codes)
  | dictionary {r : Bytes} {codes : Codes}
      (h : OpenItems (MemberReads hexStringToInt value) (OpenMember openValue) (dropGap r) codes) :
      OpenValue value openValue (openBrace :: r) (nested codes)

/-- A value that the end of the text cuts inside a token. -/
def Opens : Nat → Bytes → Codes → Prop
  | 0 => OpenScalar stringToDouble
  | levels + 1 =>
    OpenValue stringToDouble (Reads stringToDouble hexStringToInt trailingCommas levels)
      (Opens levels)

end Definitions

variable {input input' : Input} {F : Type}

theorem not_close_of_scalar {token : Token} (h : IsScalarToken token) :
    token ≠ .arrayEnd ∧ token ≠ .objectEnd ∧ token ≠ .endOfInput := by
  obtain rfl | rfl | rfl | rfl | rfl := h <;> decide

variable {text : Bytes} {codes : Codes}

theorem Opens.headToken {stringToDouble : Bytes → Option F} {trailingCommas : Bool} {levels : Nat}
    (h : Opens stringToDouble trailingCommas levels text codes) :
    headToken text ≠ .arrayEnd ∧ headToken text ≠ .objectEnd ∧ headToken text ≠ .endOfInput := by
  cases levels with
  | zero => exact not_close_of_scalar (OpenScalar.headToken h)
  | succ levels =>
    cases (h : OpenValue _ _ _ _ _) with
    | scalar h => exact not_close_of_scalar h.headToken
    | list | dictionary => exact ⟨nofun, nofun, nofun⟩

/-! ## The byte behind the text decides -/

theorem token_at_end {s : State} (hsync : s.index = s.pos) (hend : input.length ≤ s.pos + 1) :
    ∃ t, input.getNextToken s.nextChar = (.endOfInput, t) := by
  cases hnext : input.getNextToken s.nextChar with
  | mk token t =>
    obtain ⟨-, -, hrest, rfl⟩ := getNextToken_after hsync hnext
    rw [hrest, rest_of_le hend, dropGap_nil]
    exact ⟨t, rfl⟩

/-- A value that is cut in a container leaves an error. -/
theorem Answers.nested {α β : Type} {o : Outcome α} {o' : Outcome β} (h : Answers input codes o)
    (herror : ∀ e, o = .error e → o' = .error e)
    (hok : ∀ v s, o = .ok (v, s) → s.index = s.pos → input.length ≤ s.pos + 1 →
      ∃ e, o' = .error e ∧ e.code = .syntaxError) : Answers input (nested codes) o' := by
  unfold Answers at h
  cases hcode : codes (input.mem input.length) with
  | some code =>
    rw [hcode] at h
    obtain ⟨e, he, rfl⟩ := h
    exact Answers.of_error (by simp [Json.nested, hcode]) ⟨e, herror e he, rfl⟩
  | none =>
    rw [hcode] at h
    obtain ⟨v, s, hv, hs, hend⟩ := h
    exact Answers.of_error (by simp [Json.nested, hcode]) (hok v s hv hs hend)

section Loops

variable {options : Options} {parse : Token → State → Outcome (Value F)}
  {item : Bytes → Value F → Bytes → Prop} {openItem : Bytes → Codes → Prop}

/-- The parser gives one of its codes for an item that is cut. -/
abbrev AnswersOpen (input : Input) (parse : Token → State → Outcome (Value F))
    (openItem : Bytes → Codes → Prop) : Prop :=
  ∀ {s : State} {codes : Codes}, s.index = s.pos → openItem (input.rest s.pos) codes →
    Answers input codes (parse (headToken (input.rest s.pos)) s)

theorem listLoop_answers (hparse : Complete input parse item)
    (hclose : ∀ s, ∃ e, parse .arrayEnd s = .error e)
    (hopens : AnswersOpen input parse openItem)
    (hstart : ∀ {text : Bytes} {codes : Codes}, openItem text codes →
      headToken text ≠ .arrayEnd ∧ headToken text ≠ .endOfInput)
    (h : OpenItems item openItem text codes) {fuel : Nat} {s : State} {list : List (Value F)}
    (hsync : s.index = s.pos) (htext : input.rest s.pos = text)
    (hfuel : input.length < fuel + s.pos) :
    Answers input (nested codes)
      (input.listLoop options parse fuel (headToken (input.rest s.pos)) s list) := by
  induction h generalizing s list fuel with
  | head h =>
    rw [← htext] at h
    obtain ⟨htoken, hmore⟩ := hstart h
    have hlt := pos_lt_of_token hmore
    obtain _ | fuel := fuel
    · omega
    rw [Input.listLoop, if_neg htoken]
    refine (hopens hsync h).nested (fun e he => by rw [he]) fun v t hv ht hend => ?_
    obtain ⟨u, hnext⟩ := token_at_end ht hend
    rw [hv]
    dsimp only
    rw [hnext]
    exact ⟨_, rfl, rfl⟩
  | next head hcomma tail ih =>
    rw [← htext] at head
    obtain ⟨s₁, fuel, hends, rfl, -, heq⟩ :=
      listLoop_round hparse hclose hsync hfuel head (ne_nil_of_dropGap hcomma)
    obtain ⟨s₂, hnext, hs₂, hlt₂, hrest₂⟩ := hends.nextToken
    rw [hcomma] at hrest₂
    obtain ⟨s₃, hnext₃, hs₃, hlt₃, hrest₃⟩ := (ends_here hs₂ hrest₂ ⟨rfl, by decide⟩).nextToken
    rw [hrest₂] at hnext
    rw [heq s₂ _ s₃ hnext hnext₃]
    · exact ih hs₃ hrest₃ (by omega)
    · rintro ⟨htoken, -⟩
      cases tail with
      | head h => exact (hstart h).1 (hrest₃ ▸ htoken)
      | next head hcomma' tail =>
        obtain ⟨s₄, hrun, -⟩ := hparse hs₃ (hrest₃ ▸ head) fun hnil =>
          absurd hnil (ne_nil_of_dropGap hcomma')
        obtain ⟨e, he⟩ := hclose s₃
        rw [htoken, he] at hrun
        cases hrun

theorem OpenString.headToken (h : OpenString text codes) : headToken text = .string := by
  obtain ⟨-, -, -⟩ := h
  rfl

theorem OpenMember.headToken {openValue : Bytes → Codes → Prop}
    (h : OpenMember openValue text codes) : headToken text = .string := by
  cases h with
  | key h => exact h.headToken
  | value hkey =>
    obtain ⟨-⟩ := hkey
    rfl

/-- The turn of the loop over a dictionary in which a member is cut. -/
theorem dictionaryLoop_member (hopens : AnswersOpen input parse openItem)
    (h : OpenMember openItem text codes) (fuel : Nat) {s : State} (dict : List (Bytes × Value F))
    (hsync : s.index = s.pos) (htext : input.rest s.pos = text) :
    Answers input (nested codes)
      (input.dictionaryLoop options parse (fuel + 1) (headToken (input.rest s.pos)) s dict) := by
  have htoken : Json.headToken (input.rest s.pos) = .string := by
    rw [htext]
    exact h.headToken
  rw [htoken, Input.dictionaryLoop, if_neg (by rintro ⟨⟩), if_neg (not_not.mpr rfl)]
  cases h with
  | key h =>
    refine (h.answers hsync htext).nested (fun e he => by rw [he]) fun b t hb ht hend => ?_
    obtain ⟨u, hnext⟩ := token_at_end ht hend
    rw [hb]
    dsimp only
    rw [hnext]
    exact ⟨_, if_pos (by rintro ⟨⟩), rfl⟩
  | @value text key r r₂ codes hkey hcolon h =>
    obtain ⟨b, s₁, hraw, -, hends₁⟩ := consumeStringRaw_reads hsync hkey htext
    obtain ⟨s₂, hnext₂, hs₂, -, hrest₂⟩ := hends₁.nextToken
    rw [hcolon] at hrest₂
    obtain ⟨s₃, hnext₃, hs₃, -, hrest₃⟩ := (ends_here hs₂ hrest₂ ⟨rfl, by decide⟩).nextToken
    rw [hrest₂, show Json.headToken (colon :: r₂) = .objectPairSeparator from rfl] at hnext₂
    rw [← hrest₃] at h
    rw [hraw]
    dsimp only
    rw [hnext₂]
    rw [if_neg (not_not.mpr rfl), hnext₃]
    refine (hopens hs₃ h).nested (fun e he => by rw [he]) fun v t hv ht hend => ?_
    obtain ⟨u, hnext⟩ := token_at_end ht hend
    rw [hv]
    dsimp only
    rw [hnext]
    exact ⟨_, rfl, rfl⟩

theorem dictionaryLoop_answers (hparse : Complete input parse item)
    (hopens : AnswersOpen input parse openItem)
    (h : OpenItems (MemberReads hexStringToInt item) (OpenMember openItem) text codes) {fuel : Nat}
    {s : State} {dict : List (Bytes × Value F)} (hsync : s.index = s.pos)
    (htext : input.rest s.pos = text) (hfuel : input.length < fuel + s.pos) :
    Answers input (nested codes)
      (input.dictionaryLoop options parse fuel (headToken (input.rest s.pos)) s dict) := by
  induction h generalizing s dict fuel with
  | head h =>
    have hlt : s.pos < input.length := by
      apply pos_lt_of_token
      rw [htext, h.headToken]
      nofun
    obtain _ | fuel := fuel
    · omega
    exact dictionaryLoop_member hopens h fuel dict hsync htext
  | next head hcomma tail ih =>
    rw [← htext] at head
    obtain ⟨s₁, fuel, hends, rfl, -, heq⟩ :=
      dictionaryLoop_round hparse hsync hfuel head (ne_nil_of_dropGap hcomma)
    obtain ⟨s₂, hnext, hs₂, hlt₂, hrest₂⟩ := hends.nextToken
    rw [hcomma] at hrest₂
    obtain ⟨s₃, hnext₃, hs₃, hlt₃, hrest₃⟩ := (ends_here hs₂ hrest₂ ⟨rfl, by decide⟩).nextToken
    rw [hrest₂] at hnext
    rw [heq s₂ _ s₃ hnext hnext₃]
    · exact ih hs₃ hrest₃ (by omega)
    · rintro ⟨htoken, -⟩
      rw [hrest₃] at htoken
      cases tail with
      | head h | next h => rw [h.headToken] at htoken; cases htoken

end Loops

/-- The byte behind a text that is cut decides what ParseToken does. -/
theorem Opens.answers {stringToDouble : Bytes → Option F} {options : Options} {levels : Nat}
    {codes : Codes} {s : State} (hsync : s.index = s.pos)
    (h : Opens stringToDouble options.allowTrailingCommas levels (input.rest s.pos) codes) :
    Answers input codes
      (input.parseToken stringToDouble options levels (Json.headToken (input.rest s.pos)) s) := by
  induction levels generalizing s codes with
  | zero => exact OpenScalar.answers h hsync rfl
  | succ levels ih =>
    have hfuel : ∀ {s₁ : State}, input.length < input.length + 1 + s₁.pos := by omega
    generalize hrest : input.rest s.pos = text at h
    cases (h : OpenValue _ _ _ _ _) with
    | scalar h => exact h.answers hsync hrest
    | @list r codes h =>
      obtain ⟨s₁, hnext, hs₁, hlt, hrest₁⟩ :=
        (ends_here hsync hrest ⟨rfl, by decide⟩).nextToken
      have hopen : input.cur s = openBracket := (mem_of_rest hrest).1
      show Answers input (nested codes) (input.consumeList options
        (some (input.parseToken stringToDouble options levels)) s)
      rw [Input.consumeList, if_neg (not_not.mpr hopen)]
      rw [hnext]
      exact listLoop_answers (parseToken_reads levels) (parseToken_close levels) ih
        (fun h => ⟨h.headToken.1, h.headToken.2.2⟩) h hs₁ hrest₁ hfuel
    | @dictionary r codes h =>
      obtain ⟨s₁, hnext, hs₁, hlt, hrest₁⟩ :=
        (ends_here hsync hrest ⟨rfl, by decide⟩).nextToken
      have hopen : input.cur s = openBrace := (mem_of_rest hrest).1
      show Answers input (nested codes) (input.consumeDictionary options
        (some (input.parseToken stringToDouble options levels)) s)
      rw [Input.consumeDictionary, if_neg (not_not.mpr hopen)]
      rw [hnext]
      exact dictionaryLoop_answers (parseToken_reads levels) ih h hs₁ hrest₁ hfuel

end ChromiumUI.Json
