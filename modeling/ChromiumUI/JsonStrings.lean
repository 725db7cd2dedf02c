import ChromiumUI.JsonGrammar

/-!
# String literals

ConsumeStringRaw succeeds exactly on the characters of `BodyReads` up to a quote. The quote may be
the byte behind the input.
-/
namespace ChromiumUI.Json

open ByteMemory Base List Input State

/-! ## The builder -/

/-- The builder stands for the bytes `d`, read up to `index`. -/
def StringBuilder.Holds (mem : Memory) (b : StringBuilder) (index : Nat) (d : Bytes) : Prop :=
  b.string = some d ∨
    (b.string = none ∧ b.pos + b.length = index ∧ load mem b.pos b.length = d)

namespace StringBuilder

variable {mem : Memory} {b : StringBuilder} {index : Nat} {d : Bytes}

theorem Holds.asString (h : b.Holds mem index d) : b.asString mem = d := by
  rcases h with h | ⟨h, -, hload⟩
  · rw [StringBuilder.asString, h]
    rfl
  · rw [StringBuilder.asString, h]
    exact hload

theorem Holds.convert (h : b.Holds mem index d) : (b.convert mem).string = some d := by
  rcases h with h | ⟨h, -, hload⟩
  · rw [StringBuilder.convert, h]
    exact h
  · rw [StringBuilder.convert, h]
    exact congrArg some hload

theorem append_of_some (h : b.string = some d) (c : UInt8) :
    (b.append c).string = some (d ++ [c]) := by
  rw [append, h]

theorem appendString_of_some (h : b.string = some d) (str : Bytes) :
    (b.appendString str).string = some (d ++ str) := by
  rw [appendString, h]
  rfl

theorem load_succ (mem : Memory) (p n : Nat) : load mem p (n + 1) = load mem p n ++
    [mem (p + n)] := by
  rw [load_add]
  rfl

theorem Holds.append (h : b.Holds mem index d) :
    (b.append (mem index)).Holds mem (index + 1) (d ++ [mem index]) := by
  rcases h with h | ⟨h, hindex, hload⟩
  · exact .inl (append_of_some h _)
  · refine .inr ?_
    rw [StringBuilder.append, h]
    refine ⟨rfl, by rw [← hindex]; rfl, ?_⟩
    rw [load_succ, hload, hindex]

theorem Holds.decodeUTF8 (h : b.Holds mem index d) {c : Nat} (hc : 0x80 ≤ c) :
    (decodeUTF8 mem c b).string = some (d ++ appendUnsafe c) := by
  rw [ChromiumUI.Json.decodeUTF8, if_neg (by omega)]
  exact appendString_of_some h.convert _

end StringBuilder

variable {input : Input}

/-! ## Escapes -/

variable {b : StringBuilder} {d : Bytes}

theorem hexBytes_append (mem : Memory) (h : b.string = some d) (v : Int) :
    (if v < 0x80 then b.append (toChar v) else decodeUTF8 mem v.toNat b).string =
      some (d ++ hexBytes v) := by
  unfold hexBytes
  split
  · exact StringBuilder.append_of_some h _
  · exact StringBuilder.Holds.decodeUTF8 (show b.Holds mem 0 d from .inl h) (by omega)

/-- DecodeUTF16 reads one unit, or two that are a surrogate pair. -/
inductive UnitsRead (input : Input) (p : Nat) : Bytes → Nat → Prop
  | single {v : Int} (hroom : p + 4 ≤ input.length)
      (hv : hexStringToInt (load input.mem p 4) = some v)
      (hsingle : isSurrogate (toUInt32 v) = false) :
      UnitsRead input p (cString (appendUnsafe (toUInt32 v))) 3
  | pair {high low : Int} (hroom : p + 9 ≤ input.length)
      (hhigh : hexStringToInt (load input.mem p 4) = some high)
      (hbackslash : input.mem (p + 4) = backslash) (hu : input.mem (p + 5) = letterU)
      (hlow : hexStringToInt (load input.mem (p + 6) 4) = some low)
      (hsurrogate : isSurrogate (toUInt32 high) = true)
      (hlead : isSurrogateLead (toUInt32 high) = true)
      (htrail : isTrailUnit (toUInt32 low) = true) :
      UnitsRead input p
        (cString (appendUnsafe (getSupplementary (toUInt32 high) (toUInt32 low)))) 9

variable {s : State}

theorem decodeUTF16_iff {s' : State} {units : Bytes} :
    input.decodeUTF16 s = (some units, s') ↔
      ∃ k, UnitsRead input s.pos units k ∧ s' = s.nextNChars k := by
  constructor
  · intro h
    unfold decodeUTF16 at h
    split at h
    · cases h
    · rename_i hroom
      split at h
      · cases h
      · rename_i high hhigh
        dsimp only at h
        split at h
        · rename_i hsurr
          split at h
          · cases h
          · rename_i hlead
            split at h
            · cases h
            · rename_i hroom'
              split at h
              · cases h
              · rename_i hslash
                split at h
                · cases h
                · rename_i hu
                  split at h
                  · cases h
                  · rename_i low hlow
                    split at h
                    · cases h
                    · rename_i htrail
                      obtain ⟨rfl, rfl⟩ : _ = units ∧ _ = s' := by simpa using h
                      refine ⟨9, UnitsRead.pair ?_ hhigh ?_ ?_ hlow hsurr ?_ ?_, rfl⟩
                      · simpa [canConsume, Nat.add_assoc] using hroom'
                      · exact not_not.mp hslash
                      · exact not_not.mp hu
                      · simpa using hlead
                      · simpa using htrail
        · rename_i hone
          obtain ⟨rfl, rfl⟩ : _ = units ∧ _ = s' := by simpa using h
          exact ⟨3, UnitsRead.single (by simpa using hroom) hhigh (by simpa using hone), rfl⟩
  · rintro ⟨k, hunits, rfl⟩
    unfold decodeUTF16
    cases hunits with
    | single hroom hv hone =>
      rw [if_neg (by simpa using hroom), hv]
      dsimp only
      rw [if_neg (by simpa using hone)]
    | pair hroom hhigh hslash hu hlow hsurr hlead htrail =>
      have hslash' : input.cur (s.nextNChars 3).nextChar = backslash := hslash
      have hu' : input.cur (s.nextNChars 3).nextChar.nextChar = letterU := hu
      rw [if_neg (by simp; omega), hhigh]
      dsimp only
      rw [if_pos hsurr, if_neg (by simpa using hlead), if_neg (by simp; omega),
        if_neg (not_not.mpr hslash'), if_neg (not_not.mpr hu')]
      simp only [nextChar_pos, nextNChars_pos]
      rw [hlow]
      dsimp only
      rw [if_neg (by simpa using htrail)]
      rfl

/-- The switch of ConsumeStringRaw reads one escape. -/
inductive EscapeReads (input : Input) (p : Nat) : Bytes → Nat → Prop
  | simple {c : UInt8} (hroom : p + 1 ≤ input.length)
      (h : simpleEscape (input.mem (p + 1)) = some c) : EscapeReads input p [c] 1
  | hex {v : Int} (hroom : p + 3 ≤ input.length) (hx : input.mem (p + 1) = letterX)
      (hv : hexStringToInt (load input.mem (p + 2) 2) = some v) :
      EscapeReads input p (hexBytes v) 3
  | units {e : Bytes} {k : Nat} (hu : input.mem (p + 1) = letterU)
      (h : UnitsRead input (p + 2) e k) : EscapeReads input p e (2 + k)

theorem simpleEscape_letters : simpleEscape letterX = none ∧ simpleEscape letterU = none := by
  decide

theorem consumeEscape_sound {s' : State} {b' : StringBuilder} (hb : b.string = some d)
    (h : input.consumeEscape s b = .ok (b', s')) :
    ∃ e k, EscapeReads input s.pos e k ∧ b'.string = some (d ++ e) ∧ s' = s.nextNChars k := by
  unfold consumeEscape at h
  split at h
  · cases h
  · rename_i hroom
    dsimp only at h
    split at h
    · rename_i hx
      split at h
      · cases h
      · rename_i hroom'
        split at h
        · cases h
        · rename_i v hv
          refine ⟨hexBytes v, 3, EscapeReads.hex (by simpa [Nat.add_assoc] using hroom') hx hv, ?_⟩
          have hbytes := hexBytes_append input.mem hb v
          split at h <;> obtain ⟨rfl, rfl⟩ : _ = b' ∧ _ = s' := by simpa using h
          · exact ⟨by rwa [if_pos ‹_›] at hbytes, rfl⟩
          · exact ⟨by rwa [if_neg ‹_›] at hbytes, rfl⟩
    · rename_i hx
      split at h
      · rename_i hu
        split at h
        · cases h
        · split at h
          · cases h
          · rename_i units t hunits
            obtain ⟨rfl, rfl⟩ : _ = b' ∧ _ = s' := by simpa using h
            obtain ⟨k, hreads, rfl⟩ := decodeUTF16_iff.mp hunits
            refine ⟨units, 2 + k, EscapeReads.units hu hreads,
              StringBuilder.appendString_of_some hb _, ?_⟩
            rw [Nat.add_comm]
            simp only [nextChar, nextNChars, State.mk.injEq, and_true]
            omega
      · rename_i hu
        split at h
        · rename_i c hc
          obtain ⟨rfl, rfl⟩ : _ = b' ∧ _ = s' := by simpa using h
          exact ⟨[c], 1, EscapeReads.simple (by simpa using hroom) hc,
            StringBuilder.append_of_some hb c, rfl⟩
        · cases h

variable {e : Bytes}

theorem consumeEscape_complete {k : Nat} (hb : b.string = some d) (h : EscapeReads input s.pos e k)
    :
    ∃ b', input.consumeEscape s b = .ok (b', s.nextNChars k) ∧ b'.string = some (d ++ e) := by
  unfold consumeEscape
  cases h with
  | simple hroom h =>
    rename_i c
    have hx : ¬input.cur s.nextChar = letterX := by
      intro hx
      rw [show input.mem (s.pos + 1) = letterX from hx, simpleEscape_letters.1] at h
      cases h
    have hu : ¬input.cur s.nextChar = letterU := by
      intro hu
      rw [show input.mem (s.pos + 1) = letterU from hu, simpleEscape_letters.2] at h
      cases h
    rw [if_neg (not_not.mpr hroom)]
    rw [if_neg hx, if_neg hu, show simpleEscape (input.cur s.nextChar) = some c from h]
    exact ⟨_, rfl, StringBuilder.append_of_some hb c⟩
  | hex hroom hx hv =>
    rename_i v
    have hbytes := hexBytes_append input.mem hb v
    rw [if_neg (by simp; omega)]
    dsimp only
    rw [if_pos (show input.cur s.nextChar = letterX from hx), if_neg (by simp; omega),
      show load input.mem s.nextChar.nextChar.pos 2 = load input.mem (s.pos + 2) 2 from rfl, hv]
    dsimp only
    split
    · exact ⟨_, rfl, by rwa [if_pos ‹_›] at hbytes⟩
    · exact ⟨_, rfl, by rwa [if_neg ‹_›] at hbytes⟩
  | units hu h =>
    rename_i k
    have hroom : s.pos + 2 + 4 ≤ input.length := by
      cases h with
      | single hroom _ _ => exact hroom
      | pair hroom _ _ _ _ _ _ _ => omega
    have hx : ¬input.cur s.nextChar = letterX := by
      rw [show input.cur s.nextChar = letterU from hu]
      decide
    rw [if_neg (by simp; omega)]
    rw [if_neg hx, if_pos (show input.cur s.nextChar = letterU from hu), if_neg (by simp; omega),
      decodeUTF16_iff.mpr ⟨k, h, rfl⟩]
    refine ⟨_, ?_, StringBuilder.appendString_of_some hb e⟩
    simp only [nextChar, nextNChars, Except.ok.injEq, Prod.mk.injEq, State.mk.injEq,
      true_and, and_true]
    omega

/-! ## Characters -/

theorem EscapeReads.charReads {p k : Nat} (h : EscapeReads input p e k)
    (hslash : input.mem p = backslash) :
    CharReads hexStringToInt (load input.mem p (k + 1)) e := by
  rw [load, hslash]
  cases h with
  | simple hroom h => exact CharReads.simple h
  | hex hroom hx hv =>
    rw [load, hx]
    exact CharReads.hex (length_load _ _ _) hv
  | units hu h =>
    cases h with
    | single hroom hv hone =>
      rw [show 2 + 3 = 4 + 1 from rfl, load, hu]
      exact CharReads.unit (length_load _ _ _) hv hone
    | pair hroom hhigh hslash' hu' hlow hsurr hlead htrail =>
      rw [show 2 + 9 = 10 + 1 from rfl, load, hu, show 10 = 4 + (1 + (1 + 4)) from rfl, load_add,
        load_add _ (p + 1 + 1 + 4), load_add _ (p + 1 + 1 + 4 + 1)]
      have hsecond : load input.mem (p + 1 + 1 + 4) 1 = [backslash] := by
        rw [← hslash']
        rfl
      have hthird : load input.mem (p + 1 + 1 + 4 + 1) 1 = [letterU] := by
        rw [← hu']
        rfl
      rw [hsecond, hthird]
      exact CharReads.pair (length_load _ _ _) (length_load _ _ _) hhigh hlow hsurr hlead htrail

/-- A character of a string literal in the buffer, read by CBU8_NEXT and, behind a backslash, by
the switch over escapes; `k` is how far behind its first byte the last one is. -/
inductive CharAt (input : Input) (p : Nat) : Bytes → Nat → Prop
  | plain {c j : Nat} (h : ReadsScalar input.mem p input.length c (p + j + 1))
      (hvalid : isValidCharacter c = true) (hbackslash : c ≠ backslash.toNat)
      (hquote : c ≠ quote.toNat) : CharAt input p (appendUnsafe c) j
  | escape {e : Bytes} {k : Nat} (hbackslash : input.mem p = backslash)
      (h : EscapeReads input p e k) : CharAt input p e k

theorem CharAt.charReads {p k : Nat} (h : CharAt input p e k) :
    CharReads hexStringToInt (load input.mem p (k + 1)) e := by
  cases h with
  | escape hslash h => exact h.charReads hslash
  | plain h hvalid hslash hquote =>
    rename_i c
    have hlen : k + 1 = (appendUnsafe c).length := by
      have := h.2.2.1
      omega
    rw [hlen, h.2.1]
    exact CharReads.plain hvalid hslash hquote

theorem CharReads.charAt {p : Nat} {s e : Bytes} (h : CharReads hexStringToInt s e)
    (hload : load input.mem p s.length = s) (hroom : p + s.length ≤ input.length) :
    ∃ k, s.length = k + 1 ∧ CharAt input p e k := by
  cases h with
  | plain hvalid hslash hquote =>
    rename_i c
    have hpos := length_appendUnsafe_pos c
    refine ⟨(appendUnsafe c).length - 1, by omega, CharAt.plain ?_ hvalid hslash hquote⟩
    exact ⟨isValidCharacter_isScalar hvalid, hload, by omega, .inl (by omega)⟩
  | simple h =>
    obtain ⟨hfirst, htail⟩ := cons.inj hload
    obtain ⟨hsecond, -⟩ := cons.inj htail
    exact ⟨1, rfl, CharAt.escape hfirst (EscapeReads.simple (Nat.le_of_succ_le hroom)
      (by rw [hsecond]; exact h))⟩
  | hex hlen hv =>
    rename_i ds v
    obtain ⟨hfirst, htail⟩ := cons.inj hload
    obtain ⟨hsecond, hds⟩ := cons.inj htail
    simp only [length_cons, hlen] at hroom hds ⊢
    exact ⟨3, rfl, CharAt.escape hfirst (EscapeReads.hex (by omega) hsecond
      (by rw [show load input.mem (p + 2) 2 = ds from hds]; exact hv))⟩
  | unit hlen hv hone =>
    rename_i ds v
    obtain ⟨hfirst, htail⟩ := cons.inj hload
    obtain ⟨hsecond, hds⟩ := cons.inj htail
    simp only [length_cons, hlen] at hroom hds ⊢
    exact ⟨2 + 3, rfl, CharAt.escape hfirst (EscapeReads.units hsecond
      (UnitsRead.single (by omega) (by rw [show load input.mem (p + 2) 4 = ds from hds]; exact hv)
        hone))⟩
  | pair hlen hlen' hhigh hlow hsurr hlead htrail =>
    rename_i ds ds' high low
    obtain ⟨hfirst, htail⟩ := cons.inj hload
    obtain ⟨hsecond, hall⟩ := cons.inj htail
    rw [length_append, load_add] at hall
    obtain ⟨hds, hrest⟩ := append_inj hall (length_load _ _ _)
    rw [hlen] at hds hrest
    obtain ⟨hfifth, htail'⟩ := cons.inj hrest
    obtain ⟨hsixth, hds'⟩ := cons.inj htail'
    simp only [length_cons, length_append, hlen, hlen'] at hroom hds' ⊢
    exact ⟨2 + 9, rfl, CharAt.escape hfirst (EscapeReads.units hsecond (UnitsRead.pair (by omega)
      (by rw [show load input.mem (p + 2) 4 = ds from hds]; exact hhigh) hfifth hsixth
      (by rw [show load input.mem (p + 2 + 6) 4 = ds' from hds']; exact hlow)
      hsurr hlead htrail))⟩

/-! ## The loop of ConsumeStringRaw -/

theorem cbu8Next_ascii {b : UInt8} (p n : Nat) (h : input.mem p = b) (hb : b.toNat < 0x80) :
    cbu8Next input.mem p n = (some b.toNat, p + 1) := by
  rw [cbu8Next_iff, ← h]
  exact readsScalar_single (by rw [h]; exact hb)

/-- The cursors at the head of the loop: `index` is in the input, or the loop is over. -/
def AtChar (input : Input) (s : State) : Prop := s.pos < input.length → s.index ≤ input.length

theorem consumeChars_char (fuel : Nat) {k : Nat} (hpos : s.pos < input.length)
    (hb : b.Holds input.mem s.index d) (h : CharAt input s.index e k) :
    ∃ b' s', input.consumeChars (fuel + 1) s b = input.consumeChars fuel s' b' ∧
      b'.Holds input.mem s'.index (d ++ e) ∧ s'.index = s.index + k + 1 ∧ AtChar input s' ∧
      s.index ≤ s'.pos ∧ s'.pos ≤ s.index + k := by
  rw [consumeChars, if_pos (show input.canConsume s 1 from hpos)]
  cases h with
  | plain h hvalid hslash hquote =>
    rename_i c
    rw [cbu8Next_iff.mpr h]
    dsimp only
    rw [if_neg (by simpa using hvalid), if_neg hslash, if_neg hquote]
    have hchar : AtChar input { s with pos := s.index, index := s.index + k + 1 } := by
      intro hlt
      have hlt' : s.index < input.length := hlt
      rcases h.2.2.2 with hj | hj
      · exact hj
      · have hlast := h.2.2.1
        rw [appendUnsafe_one hj] at hlast
        exact (show s.index + k + 1 ≤ input.length by simp at hlast; omega)
    by_cases hascii : c < 0x80
    · rw [if_pos hascii]
      have hone := appendUnsafe_one (c := c) (by omega)
      have hk : k = 0 := by
        have := h.2.2.1
        rw [hone] at this
        simpa using this
      have hmem : input.mem s.index = UInt8.ofNat c := by
        have := h.2.1
        rw [hone] at this
        exact (cons.inj this).1
      refine ⟨_, _, rfl, ?_, rfl, hchar, Nat.le_refl _, Nat.le_add_right _ _⟩
      rw [hone, ← hmem, hk]
      exact hb.append
    · rw [if_neg hascii]
      exact ⟨_, _, rfl, .inl (hb.decodeUTF8 (by omega)), rfl, hchar, Nat.le_refl _,
        Nat.le_add_right _ _⟩
  | escape hslash h =>
    rw [cbu8Next_ascii _ _ hslash (by decide)]
    dsimp only
    rw [if_neg (by decide), if_pos rfl]
    obtain ⟨b', hesc, hb'⟩ := consumeEscape_complete
      (s := { s with pos := s.index, index := s.index + 1 }) hb.convert h
    rw [hesc]
    refine ⟨b', _, rfl, .inl hb', ?_, ?_, Nat.le_add_right _ _, Nat.le_refl _⟩
    · simp only [nextNChars_index]
      omega
    · intro hlt
      simp only [nextNChars_index, nextNChars_pos] at hlt ⊢
      omega

theorem consumeChars_quote {fuel : Nat} (hpos : s.pos < input.length)
    (h : input.mem s.index = quote) :
    input.consumeChars (fuel + 1) s b =
      .ok (b, { s with pos := s.index, index := s.index }) := by
  rw [consumeChars, if_pos (show input.canConsume s 1 from hpos),
    cbu8Next_ascii _ _ h (by decide)]
  dsimp only
  rw [if_neg (by decide), if_neg (by decide), if_pos rfl]
  rfl

theorem consumeChars_inv {fuel : Nat} {r : StringBuilder × State} (hb : b.Holds input.mem s.index d)
    (h : input.consumeChars (fuel + 1) s b = .ok r) :
    s.pos < input.length ∧
      (input.mem s.index = quote ∨ ∃ e k, CharAt input s.index e k) := by
  rw [consumeChars] at h
  split at h
  · rename_i hpos
    refine ⟨hpos, ?_⟩
    dsimp only at h
    split at h
    · cases h
    · rename_i c hnext
      obtain ⟨j, hj⟩ : ∃ j, cbu8Next input.mem s.index input.length = (some c, j) :=
        ⟨_, Prod.ext hnext rfl⟩
      have hreads := cbu8Next_iff.mp hj
      have hascii : ∀ {x : UInt8}, c = x.toNat → x.toNat < 0x80 → input.mem s.index = x := by
        intro x hx hlt
        have := hreads.head
        exact UInt8.toNat_inj.mp (by omega)
      split at h
      · cases h
      · rename_i hvalid
        split at h
        · rename_i hslash
          rw [hj] at h
          have hmem := hascii hslash (by decide)
          rw [hslash] at hj
          have hnext' := cbu8Next_ascii s.index input.length hmem (by decide)
          have hj' : j = s.index + 1 := (Prod.ext_iff.mp (hj.symm.trans hnext')).2
          split at h
          · cases h
          · rename_i b' s' hesc
            obtain ⟨e, k, hreads', -, -⟩ := consumeEscape_sound hb.convert hesc
            exact .inr ⟨e, k, CharAt.escape hmem hreads'⟩
        · rename_i hslash
          split at h
          · rename_i hquote
            exact .inl (hascii hquote (by decide))
          · rename_i hquote
            have hpos' := length_appendUnsafe_pos c
            have hj' := hreads.2.2.1
            refine .inr ⟨appendUnsafe c, j - s.index - 1, CharAt.plain (c := c) ?_
              (by simpa using hvalid) hslash hquote⟩
            rwa [show s.index + (j - s.index - 1) + 1 = j by omega]
  · cases h

theorem consumeChars_sound {fuel : Nat} {s' : State} {b' : StringBuilder} (hchar : AtChar input s)
    (hb : b.Holds input.mem s.index d) (h : input.consumeChars fuel s b = .ok (b', s')) :
    ∃ e k, BodyReads hexStringToInt (load input.mem s.index k) e ∧
      input.mem (s.index + k) = quote ∧ s.index + k ≤ input.length ∧
      b'.Holds input.mem s'.index (d ++ e) ∧ s'.pos = s.index + k ∧ s'.index = s.index + k := by
  induction fuel generalizing s b d with
  | zero => cases h
  | succ fuel ih =>
    obtain ⟨hpos, hquote | ⟨e, k, hat⟩⟩ := consumeChars_inv hb h
    · rw [consumeChars_quote hpos hquote] at h
      obtain ⟨rfl, rfl⟩ : b = b' ∧ _ = s' := by simpa using h
      exact ⟨[], 0, BodyReads.nil, hquote, hchar hpos, by rwa [append_nil], rfl, rfl⟩
    · obtain ⟨b₁, s₁, hstep, hb₁, hindex, hchar₁, -, -⟩ := consumeChars_char fuel hpos hb hat
      rw [hstep] at h
      obtain ⟨e', k', hbody, hquote, hle, hb', hpos', hindex'⟩ := ih hchar₁ hb₁ h
      rw [hindex] at hbody hquote hle hpos' hindex'
      refine ⟨e ++ e', k + 1 + k', ?_, ?_, by omega, by rwa [← append_assoc], by omega,
        by omega⟩
      · rw [load_add]
        exact BodyReads.cons hat.charReads hbody
      · rw [← hquote, ← Nat.add_assoc, ← Nat.add_assoc]

theorem consumeChars_complete {body : Bytes} (hbody : BodyReads hexStringToInt body e) {fuel : Nat}
    (hpos : s.pos < input.length) (hb : b.Holds input.mem s.index d)
    (hload : load input.mem s.index body.length = body) (hle : s.index + body.length ≤ input.length)
    (hquote : input.mem (s.index + body.length) = quote) (hfuel : input.length + 2 ≤ fuel + s.index)
    :
    ∃ b' s', input.consumeChars fuel s b = .ok (b', s') ∧ b'.asString input.mem = d ++ e ∧
      s'.pos = s.index + body.length ∧ s'.index = s.index + body.length := by
  induction hbody generalizing fuel s b d with
  | nil =>
    obtain ⟨fuel, rfl⟩ : ∃ n, fuel = n + 1 := ⟨fuel - 1, by simp at hle; omega⟩
    exact ⟨b, _, consumeChars_quote hpos hquote, by rw [hb.asString, append_nil], rfl, rfl⟩
  | @cons t f t' f' head tail ih =>
    simp only [length_append] at hload hle hquote ⊢
    rw [load_add] at hload
    obtain ⟨hhead, htail⟩ := append_inj hload (length_load _ _ _)
    obtain ⟨k, hk, hat⟩ := head.charAt hhead (by omega)
    obtain _ | fuel := fuel
    · omega
    obtain ⟨b₁, s₁, hstep, hb₁, hindex, -, -, hlast⟩ := consumeChars_char fuel hpos hb hat
    rw [hk] at htail hle hquote ⊢
    obtain ⟨b', s', hrun, hd, hp, hi⟩ := ih (s := s₁) (b := b₁) (by omega) hb₁
      (by rw [hindex]; exact htail) (by omega)
      (by rw [hindex, ← hquote]; congr 1; omega)
      (show input.length + 2 ≤ fuel + s₁.index by omega)
    exact ⟨b', s', hstep.trans hrun, by rw [hd, append_assoc], by omega, by omega⟩

theorem holds_empty (mem : Memory) (p : Nat) : StringBuilder.Holds mem ⟨p, 0, none⟩ p [] :=
  .inr ⟨rfl, rfl, rfl⟩

/-- A literal that ConsumeStringRaw has read, its closing quote perhaps behind the input. -/
theorem consumeStringRaw_sound {s' : State} (hsync : s.index = s.pos)
    (h : input.consumeStringRaw s = .ok (b, s')) :
    ∃ body, BodyReads hexStringToInt body (b.asString input.mem) ∧ input.mem s.pos = quote ∧
      load input.mem (s.pos + 1) body.length = body ∧
      input.mem (s.pos + 1 + body.length) = quote ∧ s.pos + 1 < input.length ∧
      s.pos + 1 + body.length ≤ input.length ∧ s'.pos = s.pos + 1 + body.length ∧
      s'.index = s.pos + 1 + body.length := by
  unfold consumeStringRaw at h
  split at h
  · cases h
  · rename_i hopen
    have hb : StringBuilder.Holds input.mem ⟨s.pos + 1, 0, none⟩ s.nextChar.index [] := by
      rw [nextChar_index, hsync]
      exact holds_empty _ _
    have hchar : AtChar input s.nextChar := by
      intro hlt
      rw [nextChar_pos] at hlt
      rw [nextChar_index]
      omega
    obtain ⟨hpos, -⟩ := consumeChars_inv hb h
    obtain ⟨e, k, hbody, hquote, hle, hb', hp, hi⟩ := consumeChars_sound hchar hb h
    rw [nextChar_index, hsync] at hbody hquote hle hp hi
    refine ⟨load input.mem (s.pos + 1) k, ?_, not_not.mp hopen, ?_⟩
    · rw [hb'.asString]
      exact hbody
    · rw [length_load]
      exact ⟨rfl, hquote, hpos, hle, hp, hi⟩

theorem consumeStringRaw_complete {body : Bytes} (hsync : s.index = s.pos)
    (hbody : BodyReads hexStringToInt body d) (hopen : input.mem s.pos = quote)
    (hload : load input.mem (s.pos + 1) body.length = body)
    (hquote : input.mem (s.pos + 1 + body.length) = quote) (hpos : s.pos + 1 < input.length)
    (hle : s.pos + 1 + body.length ≤ input.length) :
    ∃ b s', input.consumeStringRaw s = .ok (b, s') ∧ b.asString input.mem = d ∧
      s'.pos = s.pos + 1 + body.length ∧ s'.index = s.pos + 1 + body.length := by
  have hindex : s.nextChar.index = s.pos + 1 := congrArg (· + 1) hsync
  have hb : StringBuilder.Holds input.mem ⟨s.pos + 1, 0, none⟩ s.nextChar.index [] := by
    rw [hindex]
    exact holds_empty _ _
  obtain ⟨b, s', hrun, hd, hp, hi⟩ := consumeChars_complete hbody hpos hb
    (by rwa [hindex]) (by rwa [hindex]) (by rwa [hindex])
    (show input.length + 2 ≤ input.length + 1 + s.nextChar.index by omega)
  rw [hindex] at hp hi
  exact ⟨b, s', (if_neg (not_not.mpr hopen)).trans hrun, hd, hp, hi⟩

end ChromiumUI.Json
