import ChromiumUI.JsonParser

/-!
# The grammar behind the parser

Texts are lists of bytes. `Reads levels r v r'` says that a value stands at the front of `r` and
leaves `r'`, gaps being dropped the way the parser drops them.
-/
namespace ChromiumUI.Json

open ByteMemory Base Nat

/-! ## Gaps between tokens -/

def isWhitespace (b : UInt8) : Bool :=
  b == carriageReturn || b == newline || b == space || b == tab

/-- Up to the end of a line. -/
def dropLine : Bytes → Bytes
  | [] => []
  | b :: r => if b = newline ∨ b = carriageReturn then b :: r else dropLine r

/-- Past the end of a block comment, from the byte the cursor is on; whether there is an end. -/
def dropBlock : Bytes → Bool × Bytes
  | _ :: b :: r =>
    if b = star then
      match r with
      | [] => (false, [])
      | c :: r' => if c = slash then (true, r') else dropBlock r
    else dropBlock (b :: r)
  | r => (false, r)

theorem length_dropLine_le (r : Bytes) : (dropLine r).length ≤ r.length := by
  induction r with
  | nil => exact Nat.le_refl _
  | cons b r ih =>
    rw [dropLine]
    split
    · exact Nat.le_refl _
    · exact le_succ_of_le ih

theorem length_dropBlock_le (r : Bytes) : (dropBlock r).2.length ≤ r.length := by
  fun_induction dropBlock r with
  | case1 => simp
  | case2 => simp; omega
  | case3 a c r' hc ih => exact Nat.le_trans ih (by simp)
  | case4 a b r hb ih => exact Nat.le_trans ih (by simp)
  | case5 => exact Nat.le_refl _

/-- What EatWhitespaceAndComments leaves. -/
def dropGap : Bytes → Bytes
  | [] => []
  | b :: r =>
    if isWhitespace b then dropGap r
    else if b = slash then
      match r with
      | [] => []
      | c :: r' =>
        if c = slash then dropGap (dropLine r')
        else if c = star then
          if (dropBlock (c :: r')).1 then dropGap (dropBlock (c :: r')).2
          else (dropBlock (c :: r')).2
        else c :: r'
    else b :: r
  termination_by r => r.length
  decreasing_by
    · simp
    · have := length_dropLine_le r'
      simp only [List.length_cons]
      omega
    · have := length_dropBlock_le (c :: r')
      simp only [List.length_cons] at this ⊢
      omega

/-- The token GetNextToken finds at the front. -/
def headToken : Bytes → Token
  | [] => .endOfInput
  | b :: _ => tokenOf b

/-! ## Strings -/

/-- What a \x escape stands for. -/
def hexBytes (v : Int) : Bytes := if v < 0x80 then [toChar v] else appendUnsafe v.toNat

/-- One character of a string literal, and the bytes it stands for. -/
inductive CharReads (operand : Bytes → Option Int) : Bytes → Bytes → Prop
  | plain {c : Nat} (hvalid : isValidCharacter c = true) (hbackslash : c ≠ backslash.toNat)
      (hquote : c ≠ quote.toNat) : CharReads operand (appendUnsafe c) (appendUnsafe c)
  | simple {b c : UInt8} (h : simpleEscape b = some c) : CharReads operand [backslash, b] [c]
  | hex {ds : Bytes} {v : Int} (hlength : ds.length = 2) (hv : operand ds = some v) :
      CharReads operand (backslash :: letterX :: ds) (hexBytes v)
  | unit {ds : Bytes} {v : Int} (hlength : ds.length = 4) (hv : operand ds = some v)
      (hsingle : isSurrogate (toUInt32 v) = false) :
      CharReads operand (backslash :: letterU :: ds) (cString (appendUnsafe (toUInt32 v)))
  | pair {ds ds' : Bytes} {high low : Int} (hlength : ds.length = 4) (hlength' : ds'.length = 4)
      (hhigh : operand ds = some high) (hlow : operand ds' = some low)
      (hsurrogate : isSurrogate (toUInt32 high) = true)
      (hlead : isSurrogateLead (toUInt32 high) = true)
      (htrail : isTrailUnit (toUInt32 low) = true) :
      CharReads operand (backslash :: letterU :: (ds ++ backslash :: letterU :: ds'))
        (cString (appendUnsafe (getSupplementary (toUInt32 high) (toUInt32 low))))

/-- What stands between the quotes of a string literal. -/
inductive BodyReads (operand : Bytes → Option Int) : Bytes → Bytes → Prop
  | nil : BodyReads operand [] []
  | cons {s d t e : Bytes} (head : CharReads operand s d) (tail : BodyReads operand t e) :
      BodyReads operand (s ++ t) (d ++ e)

/-- A string literal and the bytes of its value. -/
inductive StringReads (operand : Bytes → Option Int) : Bytes → Bytes → Prop
  | mk {body d : Bytes} (h : BodyReads operand body d) :
      StringReads operand (quote :: (body ++ [quote])) d

/-! ## Numbers -/

/-- [0-9]+ -/
def Digits (ds : Bytes) : Prop := ds ≠ [] ∧ ∀ b ∈ ds, isAsciiDigit b = true

/-- (.[0-9]+)? -/
def FractionText (text : Bytes) : Prop := text = [] ∨ ∃ ds, text = dot :: ds ∧ Digits ds

/-- ([eE][+-]?[0-9]+)? -/
def ExponentText (text : Bytes) : Prop :=
  text = [] ∨ ∃ e sgn ds, text = e :: (sgn ++ ds) ∧ (e = letterE ∨ e = capitalE) ∧
    (sgn = [] ∨ sgn = [minus] ∨ sgn = [plus]) ∧ Digits ds

/-- A number, in its parts. -/
structure Number where
  sign : Bytes
  int : Bytes
  fraction : Bytes
  exponent : Bytes
  sign_ok : sign = [] ∨ sign = [minus]
  int_ok : Digits int ∧ (int.head? = some 0x30 → int.length = 1)
  fraction_ok : FractionText fraction
  exponent_ok : ExponentText exponent

def Number.text (num : Number) : Bytes :=
  num.sign ++ (num.int ++ (num.fraction ++ num.exponent))

/-- A number may stand in front: the next token is one that ends a value. -/
def Follows (r : Bytes) : Prop :=
  headToken (dropGap r) = .objectEnd ∨ headToken (dropGap r) = .arrayEnd ∨
    headToken (dropGap r) = .listSeparator ∨ headToken (dropGap r) = .endOfInput

/-! ## Values -/

section Values

variable {F : Type} (stringToDouble : Bytes → Option F) (operand : Bytes → Option Int)
  (trailingCommas : Bool)

inductive ScalarReads : Bytes → Value F → Bytes → Prop
  | null (r : Bytes) : ScalarReads (nullLiteral ++ r) .null r
  | boolTrue (r : Bytes) : ScalarReads (trueLiteral ++ r) (.boolean true) r
  | boolFalse (r : Bytes) : ScalarReads (falseLiteral ++ r) (.boolean false) r
  | string {s d : Bytes} (r : Bytes) (h : StringReads operand s d) :
      ScalarReads (s ++ r) (.string d) r
  | number {v : Value F} {r : Bytes} (num : Number)
      (h : numberValue stringToDouble num.text = some v) (hfollows : Follows r) :
      ScalarReads (num.text ++ r) v r

/-- The items of a container from the first one on, up to the closing bracket. -/
inductive ItemsRead {α : Type} (item : Bytes → α → Bytes → Prop) (close : UInt8) :
    Bytes → List α → Bytes → Prop
  | last {r r₁ r' : Bytes} {v : α} (head : item r v r₁) (hclose : dropGap r₁ = close :: r') :
      ItemsRead item close r [v] r'
  | trailing {r r₁ r₂ r' : Bytes} {v : α} (head : item r v r₁)
      (hcomma : dropGap r₁ = comma :: r₂) (hclose : dropGap r₂ = close :: r')
      (hallowed : trailingCommas = true) : ItemsRead item close r [v] r'
  | cons {r r₁ r₂ r' : Bytes} {v : α} {vs : List α} (head : item r v r₁)
      (hcomma : dropGap r₁ = comma :: r₂) (tail : ItemsRead item close (dropGap r₂) vs r') :
      ItemsRead item close r (v :: vs) r'

/-- All that stands in a container, from behind its opening bracket on. -/
inductive ContainerReads {α : Type} (item : Bytes → α → Bytes → Prop) (close : UInt8) :
    Bytes → List α → Bytes → Prop
  | empty {r r' : Bytes} (h : dropGap r = close :: r') : ContainerReads item close r [] r'
  | items {r r' : Bytes} {vs : List α} (h : ItemsRead trailingCommas item close (dropGap r) vs r') :
      ContainerReads item close r vs r'

/-- A key and its value. -/
inductive MemberReads (value : Bytes → Value F → Bytes → Prop) :
    Bytes → Bytes × Value F → Bytes → Prop
  | mk {s key r r₂ r' : Bytes} {v : Value F} (hkey : StringReads operand s key)
      (hcolon : dropGap r = colon :: r₂) (hvalue : value (dropGap r₂) v r') :
      MemberReads value (s ++ r) (key, v) r'

/-- The dictionary that setting the members one after the other makes. -/
def setAll (members dict : List (Bytes × Value F)) : List (Bytes × Value F) :=
  members.foldl (fun dict member => setWithoutPathExpansion member.1 member.2 dict) dict

inductive ValueReads (value : Bytes → Value F → Bytes → Prop) : Bytes → Value F → Bytes → Prop
  | scalar {r r' : Bytes} {v : Value F} (h : ScalarReads stringToDouble operand r v r') :
      ValueReads value r v r'
  | list {r r' : Bytes} {vs : List (Value F)}
      (h : ContainerReads trailingCommas value closeBracket r vs r') :
      ValueReads value (openBracket :: r) (.list vs) r'
  | dictionary {r r' : Bytes} {members : List (Bytes × Value F)}
      (h : ContainerReads trailingCommas (MemberReads operand value) closeBrace r members r') :
      ValueReads value (openBrace :: r) (.dictionary (setAll members [])) r'

/-- A value with at most so many levels of containers. -/
def Reads : Nat → Bytes → Value F → Bytes → Prop
  | 0 => ScalarReads stringToDouble operand
  | levels + 1 => ValueReads stringToDouble operand trailingCommas (Reads levels)

end Values

/-! ## What the cursors leave

`rest p` is the input from `p` on. Outside of string literals the two cursors are one, and a gap
moves them as `dropGap` says. -/

/-- The input from `p` on. -/
def Input.rest (input : Input) (p : Nat) : Bytes := load input.mem p (input.length - p)

variable {input : Input}

variable {p : Nat}

theorem rest_of_lt (h : p < input.length) : input.rest p = input.mem p :: input.rest (p + 1) := by
  have hlen : input.length - p = input.length - (p + 1) + 1 := by omega
  rw [Input.rest, hlen]
  rfl

theorem rest_of_le (h : input.length ≤ p) : input.rest p = [] := by
  rw [Input.rest, Nat.sub_eq_zero_of_le h]
  rfl

theorem rest_eq_nil_iff : input.rest p = [] ↔ input.length ≤ p := by
  constructor
  · intro h
    by_contra hlt
    rw [rest_of_lt (by omega)] at h
    cases h
  · exact rest_of_le

variable {b : UInt8} {r : Bytes}

theorem lt_of_rest_cons (h : input.rest p = b :: r) : p < input.length := by
  by_contra hle
  rw [rest_of_le (by omega)] at h
  cases h

theorem mem_of_rest (h : input.rest p = b :: r) : input.mem p = b ∧ input.rest (p + 1) = r := by
  rw [rest_of_lt (lt_of_rest_cons h)] at h
  exact List.cons.inj h

theorem rest_append (s : Bytes) (hload : load input.mem p s.length = s)
    (h : p + s.length ≤ input.length) : input.rest p = s ++ input.rest (p + s.length) := by
  have hlen : input.length - p = s.length + (input.length - (p + s.length)) := by omega
  rw [Input.rest, hlen, load_add, hload]
  rfl

theorem load_of_rest {s : Bytes} (h : input.rest p = s ++ r) :
    load input.mem p s.length = s ∧ input.rest (p + s.length) = r := by
  have hlen : input.length - p = s.length + r.length := by
    have := congrArg List.length h
    simpa [Input.rest] using this
  rw [Input.rest, hlen, load_add] at h
  obtain ⟨hload, hrest⟩ := List.append_inj h (length_load _ _ _)
  refine ⟨hload, ?_⟩
  rw [Input.rest, ← hrest]
  congr 1
  omega

theorem le_of_rest {s : Bytes} (h : input.rest p = s ++ r) (hs : s ≠ []) :
    p + s.length ≤ input.length := by
  have hlen : input.length - p = s.length + r.length := by
    have := congrArg List.length h
    simpa [Input.rest] using this
  have := List.length_pos_iff.mpr hs
  omega

/-- From `s` the cursors have come, together, to where `r` is left. -/
structure Leaves (input : Input) (s s' : State) (r : Bytes) : Prop where
  rest : input.rest s'.pos = r
  synced : s'.index = s'.pos
  le : s.pos ≤ s'.pos

variable {s : State}

theorem Leaves.after {s₁ s₂ : State} (h : Leaves input s₁ s₂ r) (hle : s.pos ≤ s₁.pos) :
    Leaves input s s₂ r :=
  ⟨h.rest, h.synced, Nat.le_trans hle h.le⟩

theorem Leaves.here {s' : State} (hsync : s'.index = s'.pos) (hle : s.pos ≤ s'.pos) :
    Leaves input s s' (input.rest s'.pos) := ⟨rfl, hsync, hle⟩

theorem eatLine_leaves {fuel : Nat} (hfuel : input.length ≤ s.pos + fuel)
    (hsync : s.index = s.pos) :
    Leaves input s (input.eatLine fuel s).2 (dropLine (input.rest (s.pos + 1))) ∧
      ((input.eatLine fuel s).1 = false → input.length ≤ (input.eatLine fuel s).2.pos) := by
  have hnil : ∀ {p}, input.length ≤ p → dropLine (input.rest p) = [] := by
    intro p hp
    rw [rest_of_le hp]
    rfl
  induction fuel generalizing s with
  | zero =>
    rw [hnil (by omega)]
    exact ⟨⟨rest_of_le hfuel, hsync, Nat.le_refl _⟩, fun _ => hfuel⟩
  | succ fuel ih =>
    rw [Input.eatLine]
    have hsync' : s.nextChar.index = s.nextChar.pos := congrArg (· + 1) hsync
    obtain ⟨hleaves, hfalse⟩ := ih (s := s.nextChar)
      (by rw [State.nextChar_pos]; omega) hsync'
    rw [State.nextChar_pos] at hleaves
    by_cases hend : s.pos + 1 ≤ input.length
    · rw [if_pos hend]
      by_cases hline : input.cur s.nextChar = newline ∨ input.cur s.nextChar = carriageReturn
      · have hline' : input.mem (s.pos + 1) = newline ∨ input.mem (s.pos + 1) = carriageReturn :=
          hline
        rw [if_pos hline]
        refine ⟨?_, nofun⟩
        rcases Nat.lt_or_ge (s.pos + 1) input.length with hnext | hend
        · rw [rest_of_lt hnext, dropLine, if_pos hline', ← rest_of_lt hnext]
          exact Leaves.here hsync' (Nat.le_succ _)
        · rw [hnil hend]
          exact ⟨rest_of_le hend, hsync', Nat.le_succ _⟩
      · have hline' : ¬(input.mem (s.pos + 1) = newline ∨ input.mem (s.pos + 1) = carriageReturn) :=
          hline
        rw [if_neg hline]
        refine ⟨?_, hfalse⟩
        rcases Nat.lt_or_ge (s.pos + 1) input.length with hnext | hend
        · rw [rest_of_lt hnext, dropLine, if_neg hline']
          exact hleaves.after (Nat.le_succ _)
        · rw [hnil hend]
          rw [hnil (by omega)] at hleaves
          exact hleaves.after (Nat.le_succ _)
    · have hpast : input.length ≤ s.pos := Nat.le_of_lt_succ (Nat.lt_of_not_le hend)
      rw [if_neg hend, hnil (by omega)]
      exact ⟨⟨rest_of_le hpast, hsync, Nat.le_refl _⟩, fun _ => hpast⟩

theorem dropBlock_cons (a b : UInt8) (r : Bytes) :
    dropBlock (a :: b :: r) =
      if b = star then
        match r with
        | [] => (false, [])
        | c :: r' => if c = slash then (true, r') else dropBlock (c :: r')
      else dropBlock (b :: r) := by
  conv => lhs; rw [dropBlock.eq_def]
  cases r <;> rfl

theorem eatBlock_leaves {fuel : Nat} (hfuel : input.length ≤ s.pos + fuel)
    (hsync : s.index = s.pos) :
    Leaves input s (input.eatBlock fuel s).2 (dropBlock (input.rest s.pos)).2 ∧
      ((input.eatBlock fuel s).1 = (dropBlock (input.rest s.pos)).1 ∨
        input.length ≤ (input.eatBlock fuel s).2.pos) := by
  have hnil : ∀ {p}, input.length ≤ p → dropBlock (input.rest p) = (false, []) := by
    intro p hp
    rw [rest_of_le hp]
    rfl
  induction fuel generalizing s with
  | zero =>
    rw [hnil (by omega)]
    exact ⟨⟨rest_of_le hfuel, hsync, Nat.le_refl _⟩, Or.inr hfuel⟩
  | succ fuel ih =>
    rw [Input.eatBlock]
    have hsync' : s.nextChar.index = s.nextChar.pos := congrArg (· + 1) hsync
    have hsync'' : s.nextChar.nextChar.index = s.nextChar.nextChar.pos :=
      congrArg (· + 1) hsync'
    by_cases htwo : s.pos + 2 ≤ input.length
    · rw [if_pos htwo, rest_of_lt (p := s.pos) (by omega), rest_of_lt (p := s.pos + 1) (by omega)]
      by_cases hstar : input.cur s.nextChar = star
      · have hstar' : input.mem (s.pos + 1) = star := hstar
        rw [if_pos hstar]
        obtain ⟨hleaves, hsame⟩ := ih (s := s.nextChar.nextChar)
          (by simp only [State.nextChar_pos]; omega) hsync''
        simp only [State.nextChar_pos] at hleaves hsame
        rcases Nat.lt_or_ge (s.pos + 1 + 1) input.length with hthird | hend
        · rw [rest_of_lt hthird, dropBlock_cons, if_pos hstar']
          dsimp only
          by_cases hslash : input.cur s.nextChar.nextChar = slash
          · have hslash' : input.mem (s.pos + 1 + 1) = slash := hslash
            rw [if_pos hslash, if_pos hslash']
            exact ⟨⟨rfl, congrArg (· + 1) hsync'', by simp only [State.nextChar_pos]; omega⟩,
              .inl rfl⟩
          · have hslash' : ¬input.mem (s.pos + 1 + 1) = slash := hslash
            rw [if_neg hslash, if_neg hslash', ← rest_of_lt hthird]
            exact ⟨hleaves.after (by simp only [State.nextChar_pos]; omega), hsame⟩
        · rw [rest_of_le hend, dropBlock_cons, if_pos hstar']
          rw [hnil hend] at hleaves hsame
          by_cases hslash : input.cur s.nextChar.nextChar = slash
          · rw [if_pos hslash]
            have hpast : input.length ≤ s.nextChar.nextChar.nextChar.pos := by
              simp only [State.nextChar_pos]
              omega
            exact ⟨⟨rest_of_le hpast, congrArg (· + 1) hsync'',
              by simp only [State.nextChar_pos]; omega⟩, .inr hpast⟩
          · rw [if_neg hslash]
            exact ⟨hleaves.after (by simp only [State.nextChar_pos]; omega), hsame⟩
      · have hstar' : ¬input.mem (s.pos + 1) = star := hstar
        rw [if_neg hstar]
        obtain ⟨hleaves, hsame⟩ := ih (s := s.nextChar)
          (by simp only [State.nextChar_pos]; omega) hsync'
        simp only [State.nextChar_pos] at hleaves hsame
        rw [dropBlock_cons, if_neg hstar', ← rest_of_lt (by omega)]
        exact ⟨hleaves.after (Nat.le_succ _), hsame⟩
    · rw [if_neg htwo]
      rcases Nat.lt_or_ge s.pos input.length with hone | hend
      · have hrest : input.rest s.pos = [input.mem s.pos] := by
          rw [rest_of_lt hone, rest_of_le (p := s.pos + 1) (by omega)]
        rw [hrest]
        exact ⟨⟨hrest, hsync, Nat.le_refl _⟩, Or.inl rfl⟩
      · rw [hnil hend]
        exact ⟨⟨rest_of_le hend, hsync, Nat.le_refl _⟩, Or.inl rfl⟩

theorem isWhitespace_iff :
    isWhitespace b = true ↔ (b = carriageReturn ∨ b = newline) ∨ (b = space ∨ b = tab) := by
  simp [isWhitespace, or_assoc]

theorem dropGap_nil : dropGap [] = [] := by
  rw [dropGap.eq_def]

theorem dropGap_whitespace (h : isWhitespace b = true) : dropGap (b :: r) = dropGap r := by
  rw [dropGap.eq_def]
  exact if_pos h

theorem dropGap_here (h : isWhitespace b = false) (hslash : b ≠ slash) :
    dropGap (b :: r) = b :: r := by
  rw [dropGap.eq_def]
  simp [h, hslash]

/-- What EatWhitespaceAndComments leaves behind a slash. -/
theorem dropGap_slash (r : Bytes) :
    dropGap (slash :: r) =
      match r with
      | [] => []
      | c :: r' =>
        if c = slash then dropGap (dropLine r')
        else if c = star then
          if (dropBlock (c :: r')).1 then dropGap (dropBlock (c :: r')).2
          else (dropBlock (c :: r')).2
        else c :: r' := by
  conv => lhs; rw [dropGap.eq_def]
  rfl

theorem eatComment_leaves (hsync : s.index = s.pos) (hslash : input.cur s = slash)
    (hpos : s.pos < input.length) :
    (input.eatComment s).2.index = (input.eatComment s).2.pos ∧
      s.pos < (input.eatComment s).2.pos ∧
      dropGap (input.rest s.pos) =
        if (input.eatComment s).1 then dropGap (input.rest (input.eatComment s).2.pos)
        else input.rest (input.eatComment s).2.pos := by
  have hsync' : s.nextChar.index = s.nextChar.pos := congrArg (· + 1) hsync
  have hrest : input.rest s.pos = slash :: input.rest (s.pos + 1) := by
    rw [rest_of_lt hpos, show input.mem s.pos = slash from hslash]
  have hpast : ∀ {eaten : Bool} {p : Nat}, input.length ≤ p →
      (if eaten then dropGap (input.rest p) else input.rest p) = [] := by
    intro eaten p hp
    rw [rest_of_le hp, dropGap_nil]
    exact ite_self _
  rw [Input.eatComment, if_neg (fun h => h.elim (· hslash) (· hpos)), hrest, dropGap_slash]
  by_cases hline : input.cur s.nextChar = slash
  · rw [if_pos hline]
    obtain ⟨⟨hleft, hs, hle⟩, hfalse⟩ := eatLine_leaves
      (Nat.le_add_left input.length s.nextChar.pos) hsync'
    refine ⟨hs, hle, ?_⟩
    rcases Nat.lt_or_ge (s.pos + 1) input.length with hnext | hend
    · rw [rest_of_lt hnext]
      dsimp only
      rw [if_pos (show input.mem (s.pos + 1) = slash from hline)]
      rw [State.nextChar_pos] at hleft
      rw [← hleft]
      cases heaten : (input.eatLine input.length s.nextChar).1 with
      | true => rfl
      | false =>
        rw [rest_of_le (hfalse heaten), dropGap_nil]
        rfl
    · rw [rest_of_le hend]
      exact (hpast (Nat.le_trans hend hle)).symm
  · rw [if_neg hline]
    by_cases hblock : input.cur s.nextChar = star
    · rw [if_pos hblock]
      obtain ⟨⟨hleft, hs, hle⟩, hsame⟩ := eatBlock_leaves
        (Nat.le_add_left input.length s.nextChar.pos) hsync'
      refine ⟨hs, hle, ?_⟩
      rcases Nat.lt_or_ge (s.pos + 1) input.length with hnext | hend
      · rw [State.nextChar_pos, rest_of_lt hnext] at hleft hsame
        rw [rest_of_lt hnext]
        dsimp only
        rw [if_neg (show input.mem (s.pos + 1) ≠ slash from hline),
          if_pos (show input.mem (s.pos + 1) = star from hblock), ← hleft]
        rcases hsame with heaten | hp
        · rw [heaten]
        · rw [rest_of_le hp, dropGap_nil]
          simp
      · rw [rest_of_le hend]
        exact (hpast (Nat.le_trans hend hle)).symm
    · rw [if_neg hblock]
      refine ⟨hsync', Nat.lt_succ_self _, ?_⟩
      rcases Nat.lt_or_ge (s.pos + 1) input.length with hnext | hend
      · rw [rest_of_lt hnext]
        dsimp only
        rw [if_neg (show input.mem (s.pos + 1) ≠ slash from hline),
          if_neg (show input.mem (s.pos + 1) ≠ star from hblock), ← rest_of_lt hnext]
        rfl
      · rw [rest_of_le hend]
        exact (hpast hend).symm

theorem eatLoop_leaves {fuel : Nat} (hfuel : input.length ≤ s.pos + fuel)
    (hsync : s.index = s.pos) :
    Leaves input s (input.eatLoop fuel s) (dropGap (input.rest s.pos)) := by
  induction fuel generalizing s with
  | zero =>
    rw [rest_of_le (by omega), dropGap_nil]
    exact ⟨rest_of_le hfuel, hsync, Nat.le_refl _⟩
  | succ fuel ih =>
    have hnext : ∀ s' : State, s'.index = s'.pos → s'.pos = s.pos + 1 →
        Leaves input s (input.eatLoop fuel s') (dropGap (input.rest (s.pos + 1))) := by
      intro s' hs' hpos'
      have h := ih (s := s') (by omega) hs'
      rw [hpos'] at h
      exact h.after (by omega)
    rw [Input.eatLoop]
    by_cases hpos : s.pos < input.length
    · rw [if_pos hpos, rest_of_lt hpos]
      by_cases hline : input.cur s = carriageReturn ∨ input.cur s = newline
      · rw [if_pos hline, dropGap_whitespace (isWhitespace_iff.mpr (Or.inl hline))]
        exact hnext _ (congrArg (· + 1) hsync) rfl
      · rw [if_neg hline]
        by_cases hspace : input.cur s = space ∨ input.cur s = tab
        · rw [if_pos hspace, dropGap_whitespace (isWhitespace_iff.mpr (Or.inr hspace))]
          exact hnext _ (congrArg (· + 1) hsync) rfl
        · rw [if_neg hspace]
          by_cases hslash : input.cur s = slash
          · rw [if_pos hslash, ← rest_of_lt hpos]
            dsimp only
            obtain ⟨hs, hlt, hgap⟩ := eatComment_leaves hsync hslash hpos
            rw [hgap]
            cases heaten : (input.eatComment s).1 with
            | true => exact (ih (by omega) hs).after (Nat.le_of_lt hlt)
            | false => exact ⟨rfl, hs, Nat.le_of_lt hlt⟩
          · have hblack : isWhitespace (input.cur s) = false :=
              Bool.eq_false_iff.mpr (mt isWhitespace_iff.mp (not_or.mpr ⟨hline, hspace⟩))
            rw [if_neg hslash, dropGap_here hblack hslash, ← rest_of_lt hpos]
            exact Leaves.here hsync (Nat.le_refl _)
    · rw [if_neg hpos, rest_of_le (by omega), dropGap_nil]
      exact ⟨rest_of_le (by omega), hsync, Nat.le_refl _⟩

/-- GetNextToken drops a gap and looks at what is in front then. -/
theorem getNextToken_leaves {s : State} (hsync : s.index = s.pos) :
    Leaves input s (input.getNextToken s).2 (dropGap (input.rest s.pos)) ∧
      (input.getNextToken s).1 = headToken (dropGap (input.rest s.pos)) := by
  have h := eatLoop_leaves (Nat.le_add_left input.length s.pos) hsync
  rw [← h.rest, Input.getNextToken, Input.eatWhitespaceAndComments]
  by_cases hone : input.canConsume (input.eatLoop input.length s) 1
  · rw [if_pos hone, rest_of_lt hone]
    exact ⟨⟨rest_of_lt hone, h.synced, h.le⟩, rfl⟩
  · have hpast : input.length ≤ (input.eatLoop input.length s).pos :=
      Nat.le_of_lt_succ (Nat.lt_of_not_le hone)
    rw [if_neg hone, rest_of_le hpast]
    exact ⟨⟨rest_of_le hpast, h.synced, h.le⟩, rfl⟩

end ChromiumUI.Json
