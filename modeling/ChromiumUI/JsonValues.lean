import ChromiumUI.JsonNumbers
import ChromiumUI.JsonStrings

/-!
# What ParseToken reads

A value that ParseToken returns is read by the grammar, or it is a string literal or a word of
which the last byte stands right behind the end of the input.
-/
namespace ChromiumUI.Json

open ByteMemory Base List Nat StringBuilder Number

variable {input : Input}

/-! ## Where a value ends -/

/-- A value that starts at `s` ends with the byte at `s'`, which no gap would drop. -/
structure Ends (input : Input) (s s' : State) (r : Bytes) : Prop where
  rest : input.rest (s'.pos + 1) = r
  synced : s'.index = s'.pos
  le : s.pos ≤ s'.pos
  lt : s'.pos < input.length
  black : isWhitespace (input.mem s'.pos) = false
  noSlash : input.mem s'.pos ≠ slash

/-- The last byte of the value is the one behind the input. -/
structure EndsBehind (input : Input) (s' : State) : Prop where
  pos : s'.pos = input.length
  synced : s'.index = s'.pos

/-- A byte that can end a value. -/
def Solid (b : UInt8) : Prop := isWhitespace b = false ∧ b ≠ slash

variable {text r : Bytes}

theorem getLast?_of_rest {p : Nat} (h : input.rest p = text ++ r) (hne : text ≠ []) :
    text.getLast? = some (input.mem (p + text.length - 1)) := by
  have hload := (load_of_rest h).1
  obtain ⟨n, hn⟩ := exists_eq_succ_of_ne_zero (mt length_eq_zero_iff.mp hne)
  rw [hn, succ_eq_add_one, load_succ] at hload
  rw [← hload, getLast?_concat, hload, hn]
  rfl

variable {s s' : State}

theorem Ends.of_text (h : input.rest s.pos = text ++ r) (hne : text ≠ [])
    (hpos : s'.pos + 1 = s.pos + text.length) (hsync : s'.index = s'.pos)
    (hlast : ∀ b ∈ text.getLast?, Solid b) : Ends input s s' r := by
  have hlen := length_pos_iff.mpr hne
  have hle := le_of_rest h hne
  have hmem := getLast?_of_rest h hne
  rw [show s.pos + text.length - 1 = s'.pos by omega] at hmem
  obtain ⟨hblack, hslash⟩ := hlast _ hmem
  refine ⟨?_, hsync, by omega, by omega, hblack, hslash⟩
  rw [hpos, rest_add h]

variable {b : UInt8}

theorem solid_digit (h : isAsciiDigit b = true) : Solid b := by
  obtain ⟨hblack, hslash, -⟩ := number_byte b (Or.inl h)
  exact ⟨hblack, hslash⟩

theorem Digits.last {ds : Bytes} (h : Digits ds) (pre : Bytes) :
    ∀ b ∈ (pre ++ ds).getLast?, isAsciiDigit b = true := by
  intro b hb
  rw [getLast?_append_of_ne_nil _ h.1] at hb
  exact h.2 b (mem_of_getLast? hb)

theorem Number.last (num : Number) : ∀ b ∈ num.text.getLast?, isAsciiDigit b = true := by
  unfold text
  obtain hexp | ⟨e, sgn, ds, hexp, -, -, hds⟩ := num.exponent_ok
  · obtain hfrac | ⟨ds, hfrac, hds⟩ := num.fraction_ok
    · rw [hexp, hfrac, append_nil, append_nil]
      exact num.int_ok.1.last _
    · rw [hexp, hfrac, append_nil, ← append_assoc, ← singleton_append,
        ← append_assoc]
      exact hds.last _
  · rw [hexp, ← cons_append, ← append_assoc, ← append_assoc,
      ← append_assoc]
    exact hds.last _

theorem Number.text_ne_nil (num : Number) : num.text ≠ [] := by
  unfold text
  simp [num.int_ok.1.1]

theorem solid_quote : Solid quote := ⟨rfl, by decide⟩

/-! ## Strings -/

theorem consumeStringRaw_ends {b : StringBuilder} (hsync : s.index = s.pos)
    (h : input.consumeStringRaw s = .ok (b, s')) :
    (∃ text r, StringReads hexStringToInt text (b.asString input.mem) ∧
      input.rest s.pos = text ++ r ∧ Ends input s s' r) ∨
    EndsBehind input s' ∧ ∃ body, body ≠ [] ∧
      BodyReads hexStringToInt body (b.asString input.mem) ∧
      input.rest s.pos = quote :: body ∧ input.mem input.length = quote := by
  obtain ⟨body, hbody, hopen, hload, hclose, hpos, hle, hp, hi⟩ := consumeStringRaw_sound hsync h
  have hsync' : s'.index = s'.pos := hi.trans hp.symm
  have hload' : load input.mem s.pos (body.length + 1) = quote :: body := by
    rw [load, hopen, hload]
  rcases lt_or_ge (s.pos + 1 + body.length) input.length with hlt | hge
  · have hrest : input.rest s.pos = (quote :: (body ++ [quote])) ++
        input.rest (s.pos + (body.length + 2)) := by
      have hlen : (quote :: (body ++ [quote])).length = body.length + 2 := by simp
      rw [← hlen]
      apply rest_append
      · rw [hlen, load_succ, hload',
          show s.pos + (body.length + 1) = s.pos + 1 + body.length by omega, hclose]
        rfl
      · rw [hlen]
        omega
    refine .inl ⟨_, _, ⟨hbody⟩, hrest, Ends.of_text hrest (by simp) ?_ hsync' ?_⟩
    · rw [hp]
      simp
      omega
    · intro c hc
      rw [← cons_append, getLast?_concat] at hc
      obtain rfl : quote = c := Option.some.inj hc
      exact solid_quote
  · have hend : s.pos + 1 + body.length = input.length := by omega
    refine .inr ⟨⟨hp.trans hend, hsync'⟩, body, ?_, hbody, ?_, hend ▸ hclose⟩
    · rintro rfl
      simp only [length_nil] at hend
      omega
    · rw [Input.rest, show input.length - s.pos = body.length + 1 by omega, hload']

theorem consumeStringRaw_reads {d : Bytes} (hsync : s.index = s.pos)
    (h : StringReads hexStringToInt text d) (hrest : input.rest s.pos = text ++ r) :
    ∃ b s', input.consumeStringRaw s = .ok (b, s') ∧ b.asString input.mem = d ∧
      Ends input s s' r := by
  obtain ⟨hbody⟩ := h
  rename_i body
  have hlen : (quote :: (body ++ [quote])).length = body.length + 2 := by simp
  have hle := le_of_rest hrest (by simp)
  obtain ⟨hload, -⟩ := load_of_rest hrest
  rw [hlen] at hle hload
  rw [load_succ, load] at hload
  obtain ⟨hopen, htail⟩ := cons.inj hload
  obtain ⟨hload', hclose⟩ := append_inj htail (length_load _ _ _)
  rw [show s.pos + (body.length + 1) = s.pos + 1 + body.length by omega] at hclose
  obtain ⟨b, s', hrun, hd, hp, hi⟩ := consumeStringRaw_complete hsync hbody hopen hload'
    (cons.inj hclose).1 (by omega) (by omega)
  refine ⟨b, s', hrun, hd, Ends.of_text hrest (by simp) ?_ (hi.trans hp.symm) ?_⟩
  · rw [hp, hlen]
    omega
  · intro c hc
    rw [← cons_append, getLast?_concat] at hc
    obtain rfl : quote = c := Option.some.inj hc
    exact solid_quote

/-! ## Numbers at the end of the input -/

/-- The text is one number, and `b` behind it would make the parser go on with it. -/
def CutShort (text : Bytes) (b : UInt8) : Prop := ∃ num : Number, text = num.text ∧ num.GoesOn b

/-- The bytes of a number. -/
def isNumberByte (b : UInt8) : Bool :=
  isAsciiDigit b || b == dot || b == letterE || b == capitalE || b == minus || b == plus

theorem numberByte_digit (h : isAsciiDigit b = true) : isNumberByte b = true := by
  simp [isNumberByte, h]

theorem Digits.numberBytes {ds : Bytes} (h : Digits ds) : ∀ b ∈ ds, isNumberByte b = true :=
  fun b hb => numberByte_digit (h.2 b hb)

theorem digit_no_letter (b : UInt8) : isAsciiDigit b = true →
    b ≠ letterE ∧ b ≠ capitalE ∧ b ≠ dot ∧ tokenOf b = .number := by
  revert b
  apply forall_byte
  decide +kernel

theorem Number.numberBytes (num : Number) : ∀ b ∈ num.text, isNumberByte b = true := by
  intro b hb
  simp only [text, mem_append] at hb
  obtain hb | hb | hb | hb := hb
  · obtain hsign | hsign := num.sign_ok <;> rw [hsign] at hb
    · cases hb
    · rw [mem_singleton.mp hb]
      rfl
  · exact num.int_ok.1.numberBytes b hb
  · obtain hfrac | ⟨ds, hfrac, hds⟩ := num.fraction_ok <;> rw [hfrac] at hb
    · cases hb
    · obtain rfl | hb := mem_cons.mp hb
      · rfl
      · exact hds.numberBytes b hb
  · obtain hexp | ⟨e, sgn, ds, hexp, he, hsgn, hds⟩ := num.exponent_ok <;>
      rw [hexp] at hb
    · cases hb
    · obtain rfl | hb := mem_cons.mp hb
      · obtain rfl | rfl := he <;> rfl
      · obtain hb | hb := mem_append.mp hb
        · obtain rfl | rfl | rfl := hsgn
          · cases hb
          · rw [mem_singleton.mp hb]
            rfl
          · rw [mem_singleton.mp hb]
            rfl
        · exact hds.numberBytes b hb

/-- A number begins like one. -/
theorem Number.headToken (num : Number) (r : Bytes) : headToken (num.text ++ r) = .number := by
  have hhead : ∀ b ∈ num.text.head?, tokenOf b = .number := by
    intro b hb
    rw [text] at hb
    obtain hsign | hsign := num.sign_ok <;> rw [hsign] at hb
    · rw [nil_append, head?_append_of_ne_nil _ num.int_ok.1.1] at hb
      exact (digit_no_letter b (num.int_ok.1.2 b (mem_of_mem_head? hb))).2.2.2
    · obtain rfl : minus = b := by simpa using hb
      rfl
  cases htext : num.text with
  | nil => exact absurd htext num.text_ne_nil
  | cons b text => exact hhead b (by rw [htext]; rfl)

theorem CutShort.headToken (h : CutShort text b) : headToken text = .number := by
  obtain ⟨num, rfl, -⟩ := h
  have h := num.headToken []
  rwa [append_nil] at h

theorem letter_mem_text {num : Number} (hb : b = letterE ∨ b = capitalE) (h : b ∈ num.text) :
    num.exponent ≠ [] := by
  intro hnil
  have hnotDigit : isAsciiDigit b = false := by
    obtain rfl | rfl := hb <;> rfl
  have hdigits : ∀ {ds : Bytes}, Digits ds → b ∉ ds := by
    intro ds hds hmem
    rw [hds.2 b hmem] at hnotDigit
    cases hnotDigit
  simp only [text, mem_append, hnil, not_mem_nil, or_false] at h
  obtain h | h | h := h
  · obtain hsign | hsign := num.sign_ok <;> rw [hsign] at h
    · cases h
    · obtain rfl := mem_singleton.mp h
      obtain hb | hb := hb <;> cases hb
  · exact hdigits num.int_ok.1 h
  · obtain hfrac | ⟨ds, hfrac, hds⟩ := num.fraction_ok <;> rw [hfrac] at h
    · cases h
    · obtain rfl | h := mem_cons.mp h
      · obtain hb | hb := hb <;> cases hb
      · exact hdigits hds h

/-- Whether a number goes on can be seen from its text. -/
theorem Number.goesOn_iff (num : Number) (b : UInt8) : num.GoesOn b ↔
    (letterE ∉ num.text ∧ capitalE ∉ num.text) ∧
      (b = letterE ∨ b = capitalE ∨ b = dot ∧ dot ∉ num.text) := by
  have hexp : num.exponent = [] ↔ letterE ∉ num.text ∧ capitalE ∉ num.text := by
    constructor
    · intro hnil
      exact ⟨fun h => letter_mem_text (Or.inl rfl) h hnil,
        fun h => letter_mem_text (Or.inr rfl) h hnil⟩
    · rintro ⟨hsmall, hcapital⟩
      obtain hnil | ⟨e, sgn, ds, hexp, he, -⟩ := num.exponent_ok
      · exact hnil
      · have hmem : e ∈ num.text := by simp [text, hexp]
        obtain rfl | rfl := he
        · exact absurd hmem hsmall
        · exact absurd hmem hcapital
  have hfrac : num.exponent = [] → (num.fraction = [] ↔ dot ∉ num.text) := by
    intro hnil
    constructor
    · intro hfrac hmem
      simp only [text, hnil, hfrac, append_nil, mem_append] at hmem
      obtain hmem | hmem := hmem
      · obtain hsign | hsign := num.sign_ok <;> rw [hsign] at hmem
        · cases hmem
        · cases mem_singleton.mp hmem
      · have := num.int_ok.1.2 _ hmem
        cases this
    · intro hmem
      obtain hnil | ⟨ds, hfrac, -⟩ := num.fraction_ok
      · exact hnil
      · exact absurd (by simp [text, hfrac]) hmem
  rw [Number.GoesOn, ← hexp]
  constructor
  · rintro ⟨hnil, hb | hb | ⟨hb, hnil'⟩⟩
    · exact ⟨hnil, .inl hb⟩
    · exact ⟨hnil, .inr (Or.inl hb)⟩
    · exact ⟨hnil, .inr (Or.inr ⟨hb, (hfrac hnil).mp hnil'⟩)⟩
  · rintro ⟨hnil, hb | hb | ⟨hb, hnil'⟩⟩
    · exact ⟨hnil, .inl hb⟩
    · exact ⟨hnil, .inr (Or.inl hb)⟩
    · exact ⟨hnil, .inr (Or.inr ⟨hb, (hfrac hnil).mpr hnil'⟩)⟩

theorem numberByte_no_end (b : UInt8) : isNumberByte b = true →
    isWhitespace b = false ∧ b ≠ slash ∧ tokenOf b ≠ .objectEnd ∧ tokenOf b ≠ .arrayEnd ∧
      tokenOf b ≠ .listSeparator ∧ tokenOf b ≠ .endOfInput := by
  revert b
  apply forall_byte
  decide +kernel

/-- What ConsumeNumber takes at the end of the input was not cut short. -/
theorem NumberAt.not_cutShort {p : Nat} {num : Number} {r : Bytes} (h : NumberAt input p num r) :
    ¬CutShort (input.rest p) (input.mem input.length) := by
  rintro ⟨num', htext, hgoes⟩
  have hrest := h.rest
  rw [htext] at hrest
  have hnil : r = [] := by
    cases hr : r with
    | nil => rfl
    | cons b r' =>
      have hb := num'.numberBytes b (by rw [hrest, hr]; simp)
      obtain ⟨hblack, hslash, h₁, h₂, h₃, h₄⟩ := numberByte_no_end b hb
      have hfol := h.follows
      rw [hr, Follows, dropGap_here hblack hslash] at hfol
      exact (hfol.elim h₁ (Or.rec h₂ (Or.rec h₃ h₄))).elim
  rw [hnil, append_nil] at hrest
  rw [goesOn_iff, hrest, ← goesOn_iff] at hgoes
  exact h.stops hnil hgoes

/-! ## Scalars -/

variable {F : Type}

/-- The words of ConsumeLiteral. -/
def words : List (Bytes × Value F) :=
  [(trueLiteral, .boolean true), (falseLiteral, .boolean false), (nullLiteral, .null)]

/-- The text lacks the last byte of the value, which is `last`. -/
inductive Overruns (last : UInt8) : Bytes → Value F → Prop
  | string {body d : Bytes} (hne : body ≠ []) (hbody : BodyReads hexStringToInt body d)
      (hlast : last = quote) : Overruns last (quote :: body) (.string d)
  | word {word : Bytes} {value : Value F} (h : (word, value) ∈ words)
      (hlast : word.getLast? = some last) : Overruns last word.dropLast value

variable {word : Bytes} {value v : Value F}

theorem consumeWord_ends (hne : word ≠ []) (hlast : ∀ b ∈ word.getLast?, Solid b)
    (hsync : s.index = s.pos) (h : input.consumeWord word value s = .ok (v, s')) : v = value ∧
      ((∃ r, input.rest s.pos = word ++ r ∧ Ends input s s' r) ∨
        EndsBehind input s' ∧ input.rest s.pos = word.dropLast ∧
          word.getLast? = some (input.mem input.length)) := by
  unfold Input.consumeWord at h
  split at h
  · rename_i hword
    obtain ⟨hroom, hload⟩ := hword
    obtain ⟨rfl, rfl⟩ := Prod.mk.inj (Except.ok.inj h)
    have hsync' : (s.nextNChars (word.length - 1)).index =
        (s.nextNChars (word.length - 1)).pos := by
      rw [State.nextNChars_index, State.nextNChars_pos, hsync]
    have hlen := length_pos_iff.mpr hne
    refine ⟨rfl, ?_⟩
    rcases lt_or_ge (s.pos + (word.length - 1)) input.length with hlt | hge
    · have hrest := rest_append word hload (by omega)
      refine .inl ⟨_, hrest, Ends.of_text hrest hne ?_ hsync' hlast⟩
      rw [State.nextNChars_pos]
      omega
    · have hend : s.pos + (word.length - 1) = input.length := by
        have : s.pos + (word.length - 1) ≤ input.length := hroom
        omega
      have hsplit : load input.mem s.pos (word.length - 1) ++ [input.mem input.length] = word := by
        rw [← hend, ← load_succ, Nat.sub_add_cancel hlen, hload]
      refine .inr ⟨⟨hend, hsync'⟩, ?_, ?_⟩
      · rw [← hsplit, dropLast_concat, Input.rest,
          show input.length - s.pos = word.length - 1 by omega]
      · rw [← hsplit, getLast?_concat]
  · cases h

theorem consumeWord_reads (hne : word ≠ []) (hlast : ∀ b ∈ word.getLast?, Solid b)
    (hsync : s.index = s.pos) (hrest : input.rest s.pos = word ++ r) :
    ∃ s', input.consumeWord word value s = .ok (value, s') ∧ Ends input s s' r := by
  have hle := le_of_rest hrest hne
  have hlen := length_pos_iff.mpr hne
  have hroom : s.pos + (word.length - 1) ≤ input.length := by omega
  refine ⟨s.nextNChars (word.length - 1), if_pos ⟨hroom, (load_of_rest hrest).1⟩,
    Ends.of_text hrest hne ?_ ?_ hlast⟩
  · rw [State.nextNChars_pos]
    omega
  · rw [State.nextNChars_index, State.nextNChars_pos, hsync]

theorem headToken_append (hne : text ≠ []) (r : Bytes) :
    headToken (text ++ r) = headToken text := by
  cases text with
  | nil => exact absurd rfl hne
  | cons b text => rfl

theorem word_facts (h : (word, value) ∈ words) :
    word ≠ [] ∧ (∀ b ∈ word.getLast?, Solid b) ∧ (∀ r, headToken (word ++ r) ≠ .number) ∧
      headToken word.dropLast ≠ .number := by
  simp only [words, mem_cons, Prod.mk.injEq, not_mem_nil, or_false] at h
  obtain ⟨rfl, -⟩ | ⟨rfl, -⟩ | ⟨rfl, -⟩ := h
  all_goals
    refine ⟨by decide, ?_, fun r => by rw [headToken_append (by decide)]; decide, by decide⟩
    intro b hb
    cases hb
    exact ⟨rfl, by decide⟩

/-- The token in front tells the byte in front. -/
theorem head_of_token {token : Token} (h : headToken r = token) (htoken : token ≠ .endOfInput)
    (hb : ∀ c, tokenOf c = token → c = b) : ∃ r', r = b :: r' := by
  cases r with
  | nil => exact absurd h.symm htoken
  | cons c r => exact ⟨r, by rw [hb c h]⟩

theorem tokenOf_inj (c : UInt8) :
    (tokenOf c = .objectBegin → c = openBrace) ∧ (tokenOf c = .objectEnd → c = closeBrace) ∧
      (tokenOf c = .arrayBegin → c = openBracket) ∧ (tokenOf c = .arrayEnd → c = closeBracket) ∧
      (tokenOf c = .string → c = quote) ∧ (tokenOf c = .listSeparator → c = comma) ∧
      (tokenOf c = .objectPairSeparator → c = colon) ∧ tokenOf c ≠ .endOfInput := by
  revert c
  apply forall_byte
  decide +kernel

variable {stringToDouble : Bytes → Option F} {trailingCommas : Bool}

/-- What a successful ParseToken says of the input. -/
structure Parsed (input : Input) (value : Bytes → Value F → Bytes → Prop) (s s' : State)
    (v : Value F) : Prop where
  ends : (∃ r, value (input.rest s.pos) v r ∧ Ends input s s' r) ∨
    EndsBehind input s' ∧ Overruns (input.mem input.length) (input.rest s.pos) v
  notCutShort : ¬CutShort (input.rest s.pos) (input.mem input.length)

theorem scalarReads_word (h : (word, value) ∈ words) (r : Bytes) :
    ScalarReads stringToDouble hexStringToInt (word ++ r) value r := by
  simp only [words, mem_cons, Prod.mk.injEq, not_mem_nil, or_false] at h
  obtain ⟨rfl, rfl⟩ | ⟨rfl, rfl⟩ | ⟨rfl, rfl⟩ := h
  · exact .boolTrue r
  · exact .boolFalse r
  · exact .null r

theorem consumeString_parsed (hsync : s.index = s.pos) (h : input.consumeString s = .ok (v, s')) :
    Parsed input (ScalarReads stringToDouble hexStringToInt) s s' v := by
  unfold Input.consumeString at h
  split at h
  · cases h
  · rename_i b t hraw
    obtain ⟨rfl, rfl⟩ := Prod.mk.inj (Except.ok.inj h)
    obtain ⟨text, r, hreads, hrest, hends⟩ | ⟨hends, body, hne, hbody, hrest, hlast⟩ :=
      consumeStringRaw_ends hsync hraw
    · refine ⟨.inl ⟨r, ?_, hends⟩, fun hcut => ?_⟩
      · rw [hrest]
        exact .string r hreads
      · have htoken := hcut.headToken
        rw [hrest] at htoken
        obtain ⟨-⟩ := hreads
        cases htoken
    · refine ⟨.inr ⟨hends, ?_⟩, fun hcut => ?_⟩
      · rw [hrest]
        exact .string hne hbody hlast
      · have htoken := hcut.headToken
        rw [hrest] at htoken
        cases htoken

theorem consumeWord_parsed (hword : (word, value) ∈ words) (hsync : s.index = s.pos)
    (h : input.consumeWord word value s = .ok (v, s')) :
    Parsed input (ScalarReads stringToDouble hexStringToInt) s s' v := by
  obtain ⟨hne, hlast, hnum, hnum'⟩ := word_facts hword
  obtain ⟨rfl, ⟨r, hrest, hends⟩ | ⟨hends, hrest, hbehind⟩⟩ :=
    consumeWord_ends hne hlast hsync h
  · refine ⟨.inl ⟨r, ?_, hends⟩, fun hcut => ?_⟩
    · rw [hrest]
      exact scalarReads_word hword r
    · exact hnum r (hrest ▸ hcut.headToken)
  · refine ⟨.inr ⟨hends, ?_⟩, fun hcut => hnum' (hrest ▸ hcut.headToken)⟩
    rw [hrest]
    exact .word hword hbehind

theorem consumeLiteral_parsed (hsync : s.index = s.pos) (h : input.consumeLiteral s = .ok (v, s'))
    :
    Parsed input (ScalarReads stringToDouble hexStringToInt) s s' v := by
  unfold Input.consumeLiteral at h
  split at h
  · exact consumeWord_parsed (by simp [words]) hsync h
  · split at h
    · exact consumeWord_parsed (by simp [words]) hsync h
    · split at h
      · exact consumeWord_parsed (by simp [words]) hsync h
      · cases h

theorem consumeNumber_parsed (hsync : s.index = s.pos) (hpos : s.pos < input.length)
    (h : input.consumeNumber stringToDouble s = .ok (v, s')) :
    Parsed input (ScalarReads stringToDouble hexStringToInt) s s' v := by
  obtain ⟨num, r, hat, hvalue, hsync', hpos'⟩ := consumeNumber_sound hsync hpos h
  refine ⟨.inl ⟨r, ?_, Ends.of_text hat.rest num.text_ne_nil hpos' hsync' ?_⟩,
    hat.not_cutShort⟩
  · rw [hat.rest]
    exact .number num hvalue hat.follows
  · exact fun b hb => solid_digit (num.last b hb)

theorem pos_lt_of_token {p : Nat} (h : headToken (input.rest p) ≠ .endOfInput) :
    p < input.length := by
  by_contra hle
  rw [rest_of_le (by omega)] at h
  exact h rfl

variable {parse : Option (Token → State → Outcome (Value F))}

/-- ParseToken where no container begins. -/
theorem parseScalar_parsed {options : Options} (hsync : s.index = s.pos)
    (hobject : headToken (input.rest s.pos) ≠ .objectBegin)
    (harray : headToken (input.rest s.pos) ≠ .arrayBegin)
    (h : input.parseTokenWith stringToDouble options parse (headToken (input.rest s.pos)) s =
      .ok (v, s')) : Parsed input (ScalarReads stringToDouble hexStringToInt) s s' v := by
  unfold Input.parseTokenWith at h
  split at h
  · rename_i htoken
    exact absurd htoken hobject
  · rename_i htoken
    exact absurd htoken harray
  · exact consumeString_parsed hsync h
  · rename_i htoken
    exact consumeNumber_parsed hsync (pos_lt_of_token (by rw [htoken]; nofun)) h
  · exact consumeLiteral_parsed hsync h
  · exact consumeLiteral_parsed hsync h
  · exact consumeLiteral_parsed hsync h
  · cases h

theorem consumeLiteral_word (hword : (word, value) ∈ words)
    (hhead : word.head? = some (input.cur s)) :
    input.consumeLiteral s = input.consumeWord word value s := by
  simp only [words, mem_cons, Prod.mk.injEq, not_mem_nil, or_false] at hword
  unfold Input.consumeLiteral
  obtain ⟨rfl, rfl⟩ | ⟨rfl, rfl⟩ | ⟨rfl, rfl⟩ := hword
  all_goals
    rw [← Option.some.inj hhead]
    rfl

/-- What ParseToken has to be given to read a value. -/
def Parses (input : Input) (parse : Token → State → Outcome (Value F)) (s : State) (v : Value F)
    (r : Bytes) : Prop :=
  ∃ s', parse (headToken (input.rest s.pos)) s = .ok (v, s') ∧ Ends input s s' r

theorem parseScalar_reads {options : Options} (hsync : s.index = s.pos)
    (h : ScalarReads stringToDouble hexStringToInt (input.rest s.pos) v r)
    (hend : r = [] → ¬CutShort (input.rest s.pos) (input.mem input.length)) :
    Parses input (input.parseTokenWith stringToDouble options parse) s v r := by
  have hword : ∀ {word : Bytes}, (word, v) ∈ words → input.rest s.pos = word ++ r →
      ∃ s', input.consumeLiteral s = .ok (v, s') ∧ Ends input s s' r := by
    intro word hword hrest
    obtain ⟨hne, hlast, -⟩ := word_facts hword
    rw [consumeLiteral_word hword (head_of_rest hrest hne)]
    exact consumeWord_reads hne hlast hsync hrest
  generalize hrest : input.rest s.pos = text at h
  unfold Parses
  cases h with
  | null r | boolTrue r | boolFalse r =>
    rw [hrest]
    exact hword (by simp [words]) hrest
  | string r hreads =>
    obtain ⟨b, s', hraw, hd, hends⟩ := consumeStringRaw_reads hsync hreads hrest
    refine ⟨s', ?_, hends⟩
    have htoken : headToken (input.rest s.pos) = .string := by
      rw [hrest]
      obtain ⟨-⟩ := hreads
      rfl
    rw [htoken]
    show input.consumeString s = _
    rw [Input.consumeString, hraw]
    dsimp only
    rw [hd]
  | number num hvalue hfol =>
    have hat : NumberAt input s.pos num r := by
      refine ⟨hrest, hfol, ?_⟩
      rintro rfl hgoes
      apply hend rfl
      exact ⟨num, by rw [hrest, append_nil], hgoes⟩
    obtain ⟨s', hrun, hsync', hpos'⟩ := consumeNumber_complete hsync hat hvalue
    refine ⟨s', ?_, Ends.of_text hrest num.text_ne_nil hpos' hsync'
      fun b hb => solid_digit (num.last b hb)⟩
    rw [hrest, num.headToken]
    exact hrun

end ChromiumUI.Json
