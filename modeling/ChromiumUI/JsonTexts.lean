import ChromiumUI.JsonDocuments

/-!
# JSON texts

The grammar that the parser documents, as a description of texts: tokens with whitespace between
them and no comments. It is related to what the parser reads in both directions, for texts whose
slashes all stand in string literals.
-/
namespace ChromiumUI.Json

open ByteMemory Base List Nat

/-! ## The grammar -/

def Whitespace (w : Bytes) : Prop := ∀ b ∈ w, isWhitespace b = true

section Grammar

variable (operand : Bytes → Option Int) (trailingCommas : Bool)

inductive ScalarText : Bytes → Prop
  | null : ScalarText nullLiteral
  | boolTrue : ScalarText trueLiteral
  | boolFalse : ScalarText falseLiteral
  | string {s d : Bytes} (h : StringReads operand s d) : ScalarText s
  | number (num : Number) : ScalarText num.text

/-- The items of a container up to its closing bracket. -/
inductive ItemsText (item : Bytes → Prop) : Bytes → Prop
  | last {t w : Bytes} (head : item t) (hw : Whitespace w) : ItemsText item (t ++ w)
  | trailing {t w w' : Bytes} (head : item t) (hw : Whitespace w) (hw' : Whitespace w')
      (hallowed : trailingCommas = true) : ItemsText item (t ++ (w ++ comma :: w'))
  | cons {t w w' ts : Bytes} (head : item t) (hw : Whitespace w) (hw' : Whitespace w')
      (tail : ItemsText item ts) : ItemsText item (t ++ (w ++ comma :: (w' ++ ts)))

/-- All that stands between the brackets of a container. -/
inductive ContainerText (item : Bytes → Prop) : Bytes → Prop
  | empty {w : Bytes} (hw : Whitespace w) : ContainerText item w
  | items {w ts : Bytes} (hw : Whitespace w) (h : ItemsText trailingCommas item ts) :
      ContainerText item (w ++ ts)

/-- A quoted key and its value. -/
inductive MemberText (value : Bytes → Prop) : Bytes → Prop
  | mk {s key w w' t : Bytes} (hkey : StringReads operand s key) (hw : Whitespace w)
      (hw' : Whitespace w') (hvalue : value t) :
      MemberText value (s ++ (w ++ colon :: (w' ++ t)))

inductive ValueText (value : Bytes → Prop) : Bytes → Prop
  | scalar {t : Bytes} (h : ScalarText operand t) : ValueText value t
  | list {t : Bytes} (h : ContainerText trailingCommas value t) :
      ValueText value (openBracket :: (t ++ [closeBracket]))
  | dictionary {t : Bytes} (h : ContainerText trailingCommas (MemberText operand value) t) :
      ValueText value (openBrace :: (t ++ [closeBrace]))

/-- A value with at most so many levels of containers. -/
def TextOf : Nat → Bytes → Prop
  | 0 => ScalarText operand
  | levels + 1 => ValueText operand trailingCommas (TextOf levels)

/-- One value of at most 99 nested containers, after an optional byte order mark. -/
def Document (text : Bytes) : Prop :=
  ∃ w t w', dropByteOrderMark text = w ++ (t ++ w') ∧ Whitespace w ∧ Whitespace w' ∧
    TextOf operand trailingCommas 99 t

end Grammar

def isHexDigit (b : UInt8) : Bool := (charToDigit 16 b).isSome

/-- The value of hex digits, and of nothing else. -/
def hexValue (ds : Bytes) : Option Int :=
  ds.foldlM (fun v b => (charToDigit 16 b).map fun digit : Nat => v * 16 + (digit : Int)) 0

/-- The slashes all stand in string literals; whether the text begins in one. -/
def slashesInStrings : Bool → Bytes → Bool
  | _, [] => true
  | false, b :: r => b != slash && slashesInStrings (b == quote) r
  | true, [_] => true
  | true, b :: c :: r =>
    if b = backslash then slashesInStrings true r else slashesInStrings (b != quote) (c :: r)

/-! ## Gaps -/

theorem dropGap_append {w : Bytes} (hw : Whitespace w) (r : Bytes) :
    dropGap (w ++ r) = dropGap r := by
  induction w with
  | nil => rfl
  | cons b w ih =>
    rw [cons_append, dropGap_whitespace (hw b (mem_cons_self ..)),
      ih fun c hc => hw c (mem_cons_of_mem _ hc)]

theorem dropGap_solid {b : UInt8} (h : Solid b) (r : Bytes) : dropGap (b :: r) = b :: r :=
  dropGap_here h.1 h.2

theorem dropGap_of_whitespace {w : Bytes} (hw : Whitespace w) : dropGap w = [] := by
  rw [← append_nil w, dropGap_append hw, dropGap_nil]

theorem slashes_append {t : Bytes} (h : ∀ b ∈ t, b ≠ slash ∧ b ≠ quote) (r : Bytes) :
    slashesInStrings false (t ++ r) = slashesInStrings false r := by
  induction t with
  | nil => rfl
  | cons b t ih =>
    obtain ⟨hslash, hquote⟩ := h b (mem_cons_self ..)
    rw [cons_append, slashesInStrings, beq_false_of_ne hquote,
      ih fun c hc => h c (mem_cons_of_mem _ hc)]
    simp [hslash]

theorem slashes_cons {b : UInt8} {r : Bytes} (hslash : b ≠ slash) (hquote : b ≠ quote) :
    slashesInStrings false (b :: r) = slashesInStrings false r :=
  slashes_append (t := [b]) (by simp [hslash, hquote]) r

theorem whitespace_no_quote (b : UInt8) : isWhitespace b = true → b ≠ slash ∧ b ≠ quote := by
  revert b
  apply forall_byte
  decide +kernel

/-- A gap without comments. -/
theorem exists_whitespace {r : Bytes} (h : slashesInStrings false r = true) :
    ∃ w, Whitespace w ∧ r = w ++ dropGap r ∧ slashesInStrings false (dropGap r) = true := by
  induction r with
  | nil => exact ⟨[], nofun, by rw [dropGap_nil]; rfl, by rw [dropGap_nil]; rfl⟩
  | cons b r ih =>
    cases hblack : isWhitespace b with
    | true =>
      obtain ⟨hslash, hquote⟩ := whitespace_no_quote b hblack
      rw [slashes_cons hslash hquote] at h
      obtain ⟨w, hw, hr, hrest⟩ := ih h
      rw [dropGap_whitespace hblack]
      refine ⟨b :: w, ?_, congrArg _ hr, hrest⟩
      intro c hc
      obtain rfl | hc := mem_cons.mp hc
      · exact hblack
      · exact hw c hc
    | false =>
      have hslash : b ≠ slash := by
        rintro rfl
        rw [slashesInStrings] at h
        cases h
      rw [dropGap_here hblack hslash]
      exact ⟨[], nofun, rfl, h⟩

/-! ## Operands of escapes -/

theorem digitLoop_digits {t : NumberTraits} {negative first : Bool} {output : Int} {cs : Bytes}
    (h : (t.digitLoop negative first output cs).2 = true) :
    ∀ c ∈ cs, (charToDigit t.base c).isSome := by
  induction cs generalizing first output with
  | nil => nofun
  | cons c cs ih =>
    intro b hb
    rw [NumberTraits.digitLoop] at h
    cases hdigit : charToDigit t.base c with
    | none =>
      rw [hdigit] at h
      cases h
    | some digit =>
      rw [hdigit] at h
      dsimp only at h
      obtain rfl | hb := mem_cons.mp hb
      · rw [hdigit]
        rfl
      · split at h
        · exact ih h b hb
        · split at h
          · cases h
          · exact ih h b hb

/-- A byte that HexStringToInt can take. -/
def isOperandByte (b : UInt8) : Bool :=
  isHexDigit b || b == 0x2b || b == 0x2d || b == 0x78 || b == 0x58

theorem isOperandByte_safe (b : UInt8) : isOperandByte b = true →
    b ≠ quote ∧ b ≠ backslash := by
  revert b
  apply forall_byte
  decide +kernel

theorem invokeDigits_bytes {negative : Bool} {cs : Bytes}
    (h : (hexTraits.invokeDigits negative cs).2 = true) : ∀ c ∈ cs, isOperandByte c = true := by
  have hds : ∀ {first : Bool} {output : Int} {cs : Bytes},
      (hexTraits.digitLoop negative first output cs).2 = true →
        ∀ c ∈ cs, isOperandByte c = true := by
    intro first output cs h c hc
    have := digitLoop_digits h c hc
    simp [isOperandByte, isHexDigit, show charToDigit 16 c = charToDigit hexTraits.base c from rfl,
      this]
  unfold NumberTraits.invokeDigits at h
  split at h
  · cases h
  · rename_i x c cs
    split at h
    · rename_i hprefix
      intro b hb
      obtain rfl | hb := mem_cons.mp hb
      · rfl
      · obtain rfl | hb := mem_cons.mp hb
        · obtain hx | hx := hprefix.2 <;> rw [hx] <;> rfl
        · exact hds h b hb
    · exact hds h
  · exact hds h

theorem hexStringToInt_bytes {ds : Bytes} {v : Int} (h : hexStringToInt ds = some v) :
    ∀ b ∈ ds, b ≠ quote ∧ b ≠ backslash := by
  have hvalid : (hexTraits.invoke ds).2 = true := by
    unfold hexStringToInt Base.convert at h
    split at h
    · assumption
    · cases h
  have hbytes : ∀ b ∈ ds, isOperandByte b = true := by
    cases ds with
    | nil => nofun
    | cons c cs =>
      unfold NumberTraits.invoke at hvalid
      split at hvalid
      · cases hvalid
      · split at hvalid
        · rename_i hminus
          intro b hb
          obtain rfl | hb := mem_cons.mp hb
          · rw [hminus]
            rfl
          · exact invokeDigits_bytes hvalid b hb
        · split at hvalid
          · rename_i hplus
            intro b hb
            obtain rfl | hb := mem_cons.mp hb
            · rw [hplus]
              rfl
            · exact invokeDigits_bytes hvalid b hb
          · exact invokeDigits_bytes hvalid
  exact fun b hb => isOperandByte_safe b (hbytes b hb)

/-! ## Slashes and string literals -/

theorem slashes_inside {t : Bytes} (h : ∀ b ∈ t, b ≠ quote ∧ b ≠ backslash) (r : Bytes) :
    slashesInStrings true (t ++ r) = slashesInStrings true r := by
  induction t with
  | nil => rfl
  | cons b t ih =>
    obtain ⟨hquote, hslash⟩ := h b (mem_cons_self ..)
    rw [cons_append, ← ih fun c hc => h c (mem_cons_of_mem _ hc)]
    cases t ++ r with
    | nil => rfl
    | cons c r' => rw [slashesInStrings, if_neg hslash, bne_iff_ne.mpr hquote]

theorem slashes_escape (b : UInt8) (r : Bytes) :
    slashesInStrings true (backslash :: b :: r) = slashesInStrings true r := by
  rw [slashesInStrings, if_pos rfl]

theorem appendUnsafe_safe {c : Nat} (hvalid : isValidCharacter c = true)
    (hslash : c ≠ backslash.toNat) (hquote : c ≠ quote.toNat) :
    ∀ b ∈ appendUnsafe c, b ≠ quote ∧ b ≠ backslash := by
  have hscalar := isScalar_iff.mp (isValidCharacter_isScalar hvalid)
  have hbyte : ∀ k, k < 256 → k ≠ quote.toNat → k ≠ backslash.toNat →
      UInt8.ofNat k ≠ quote ∧ UInt8.ofNat k ≠ backslash := by
    intro k hk hq hb
    constructor
    · intro heq
      have h := congrArg UInt8.toNat heq
      rw [UInt8.toNat_ofNat', mod_eq_of_lt hk] at h
      exact hq h
    · intro heq
      have h := congrArg UInt8.toNat heq
      rw [UInt8.toNat_ofNat', mod_eq_of_lt hk] at h
      exact hb h
  have hhigh : ∀ k, k < 256 → 0x80 ≤ k → UInt8.ofNat k ≠ quote ∧ UInt8.ofNat k ≠ backslash := by
    intro k hk hge
    refine hbyte k hk ?_ ?_
    · show k ≠ 0x22
      omega
    · show k ≠ 0x5c
      omega
  intro b hb
  rcases lt_or_ge 0x7f c with h₁ | h₁
  · rcases lt_or_ge 0x7ff c with h₂ | h₂
    · rcases lt_or_ge 0xffff c with h₃ | h₃
      · rw [appendUnsafe_four h₃ (by omega)] at hb
        simp only [mem_cons, not_mem_nil, or_false] at hb
        obtain rfl | rfl | rfl | rfl := hb <;> exact hhigh _ (by omega) (by omega)
      · rw [appendUnsafe_three h₂ h₃] at hb
        simp only [mem_cons, not_mem_nil, or_false] at hb
        obtain rfl | rfl | rfl := hb <;> exact hhigh _ (by omega) (by omega)
    · rw [appendUnsafe_two h₁ h₂] at hb
      simp only [mem_cons, not_mem_nil, or_false] at hb
      obtain rfl | rfl := hb <;> exact hhigh _ (by omega) (by omega)
  · rw [appendUnsafe_one h₁] at hb
    rw [mem_singleton.mp hb]
    exact hbyte c (by omega) hquote hslash

theorem CharReads.slashes {s d : Bytes} (h : CharReads hexStringToInt s d) (r : Bytes) :
    slashesInStrings true (s ++ r) = slashesInStrings true r := by
  cases h with
  | plain hvalid hslash hquote =>
    exact slashes_inside (appendUnsafe_safe hvalid hslash hquote) r
  | simple h => exact slashes_escape _ r
  | hex hlen hv | unit hlen hv =>
    rw [cons_append, cons_append, slashes_escape]
    exact slashes_inside (hexStringToInt_bytes hv) r
  | pair hlen hlen' hhigh hlow =>
    rw [cons_append, cons_append, slashes_escape, append_assoc,
      slashes_inside (hexStringToInt_bytes hhigh), cons_append, cons_append,
      slashes_escape]
    exact slashes_inside (hexStringToInt_bytes hlow) r

theorem BodyReads.slashes {body d : Bytes} (h : BodyReads hexStringToInt body d) (r : Bytes) :
    slashesInStrings true (body ++ r) = slashesInStrings true r := by
  induction h with
  | nil => rfl
  | cons head tail ih => rw [append_assoc, head.slashes, ih]

theorem StringReads.slashes {s d : Bytes} (h : StringReads hexStringToInt s d) (r : Bytes) :
    slashesInStrings false (s ++ r) = slashesInStrings false r := by
  obtain ⟨hbody⟩ := h
  rw [cons_append, slashesInStrings, append_assoc, show (quote == quote) = true from rfl,
    hbody.slashes]
  cases r with
  | nil => rfl
  | cons b r =>
    have hclose : slashesInStrings true (quote :: b :: r) =
        slashesInStrings (quote != quote) (b :: r) := if_neg (by decide)
    rw [singleton_append, hclose]
    rfl

/-! ## Texts and what is read from them

A text of the grammar is read as a value when something that may follow a value stands behind it.
What is read is a text of the grammar, when no slash stands outside a string literal. -/

/-! ## Texts are read -/

/-- The text begins with a byte that ends a gap. -/
def StartsSolid (t : Bytes) : Prop := ∃ b t', t = b :: t' ∧ Solid b

theorem StartsSolid.append {t : Bytes} (h : StartsSolid t) (r : Bytes) : StartsSolid (t ++ r) := by
  obtain ⟨b, t', rfl, hb⟩ := h
  exact ⟨b, t' ++ r, rfl, hb⟩

theorem StartsSolid.dropGap {t : Bytes} (h : StartsSolid t) : dropGap t = t := by
  obtain ⟨b, t', rfl, hb⟩ := h
  exact dropGap_solid hb t'

theorem number_token_solid (b : UInt8) : tokenOf b = .number → Solid b := by
  unfold Solid
  revert b
  apply forall_byte
  decide +kernel

theorem Number.startsSolid (num : Number) : StartsSolid num.text := by
  have htoken := num.headToken []
  rw [append_nil] at htoken
  cases htext : num.text with
  | nil => exact absurd htext num.text_ne_nil
  | cons b t' =>
    rw [htext] at htoken
    exact ⟨b, t', rfl, number_token_solid b htoken⟩

section Reading

variable {F : Type} {stringToDouble : Bytes → Option F} {operand : Bytes → Option Int}
  {trailingCommas : Bool}

theorem StringReads.startsSolid {s d : Bytes} (h : StringReads operand s d) : StartsSolid s := by
  obtain ⟨hbody⟩ := h
  exact ⟨quote, _, rfl, solid_quote⟩

theorem ScalarText.startsSolid {t : Bytes} (h : ScalarText operand t) : StartsSolid t := by
  cases h with
  | null | boolTrue | boolFalse => exact ⟨_, _, rfl, rfl, by decide⟩
  | string h => exact h.startsSolid
  | number num => exact num.startsSolid

theorem TextOf.startsSolid {levels : Nat} {t : Bytes}
    (h : TextOf operand trailingCommas levels t) : StartsSolid t := by
  cases levels with
  | zero => exact ScalarText.startsSolid h
  | succ levels =>
    cases (h : ValueText operand trailingCommas _ t) with
    | scalar h => exact h.startsSolid
    | list h | dictionary h => exact ⟨_, _, rfl, rfl, by decide⟩

theorem MemberText.startsSolid {value : Bytes → Prop} {t : Bytes}
    (h : MemberText operand value t) : StartsSolid t := by
  cases h with
  | mk hkey hw hw' hvalue => exact hkey.startsSolid.append _

/-- A bracket that closes a container, a comma, or nothing. -/
theorem follows_cons {w : Bytes} {b : UInt8} (hw : Whitespace w) (hb : Solid b)
    (htoken : tokenOf b = .objectEnd ∨ tokenOf b = .arrayEnd ∨ tokenOf b = .listSeparator)
    (r : Bytes) : Follows (w ++ b :: r) := by
  unfold Follows
  rw [dropGap_append hw, dropGap_solid hb, headToken]
  obtain h | h | h := htoken
  · exact Or.inl h
  · exact Or.inr (Or.inl h)
  · exact Or.inr (Or.inr (Or.inl h))

theorem follows_whitespace {w : Bytes} (hw : Whitespace w) : Follows w := by
  unfold Follows
  rw [dropGap_of_whitespace hw]
  exact Or.inr (Or.inr (Or.inr rfl))

theorem solid_comma : Solid comma := ⟨rfl, by decide⟩

theorem solid_colon : Solid colon := ⟨rfl, by decide⟩

theorem dropGap_to {w : Bytes} {b : UInt8} (hw : Whitespace w) (hb : Solid b) (r : Bytes) :
    dropGap (w ++ b :: r) = b :: r := by
  rw [dropGap_append hw, dropGap_solid hb]

/-- Numbers have values: StringToDouble succeeds where StringToInt does not. -/
def Converts (stringToDouble : Bytes → Option F) : Prop :=
  ∀ num : Number, (stringToDouble num.text).isSome = true

theorem Converts.numberValue (hconv : Converts stringToDouble) (num : Number) :
    ∃ v, numberValue stringToDouble num.text = some v := by
  unfold Json.numberValue
  split
  · exact ⟨_, rfl⟩
  · obtain ⟨value, hvalue⟩ := Option.isSome_iff_exists.mp (hconv num)
    exact ⟨.double value, by rw [hvalue]; rfl⟩

theorem ScalarText.reads (hconv : Converts stringToDouble) {t r : Bytes}
    (h : ScalarText operand t) (hfol : Follows r) :
    ∃ v, ScalarReads stringToDouble operand (t ++ r) v r := by
  cases h with
  | null => exact ⟨_, .null r⟩
  | boolTrue => exact ⟨_, .boolTrue r⟩
  | boolFalse => exact ⟨_, .boolFalse r⟩
  | string h => exact ⟨_, .string r h⟩
  | number num =>
    obtain ⟨v, hv⟩ := hconv.numberValue num
    exact ⟨v, .number num hv hfol⟩

section Containers

variable {α : Type} {item : Bytes → Prop} {itemReads : Bytes → α → Bytes → Prop} {close : UInt8}

theorem ItemsText.startsSolid (hstart : ∀ {t}, item t → StartsSolid t) {ts : Bytes}
    (h : ItemsText trailingCommas item ts) : StartsSolid ts := by
  cases h with
  | last head | trailing head | cons head => exact (hstart head).append _

theorem ItemsText.reads (hsolid : Solid close)
    (hends : tokenOf close = .objectEnd ∨ tokenOf close = .arrayEnd)
    (hstart : ∀ {t}, item t → StartsSolid t)
    (hitem : ∀ {t r}, item t → Follows r → ∃ v, itemReads (t ++ r) v r) {ts : Bytes}
    (h : ItemsText trailingCommas item ts) (r : Bytes) :
    ∃ vs, ItemsRead trailingCommas itemReads close (ts ++ close :: r) vs r := by
  induction h with
  | last head hw =>
    rw [append_assoc]
    obtain ⟨v, hv⟩ := hitem head (follows_cons hw hsolid (by tauto) r)
    exact ⟨[v], .last hv (dropGap_to hw hsolid r)⟩
  | @trailing t w w' head hw hw' hallow =>
    rw [append_assoc, append_assoc, cons_append]
    obtain ⟨v, hv⟩ := hitem head
      (follows_cons hw solid_comma (Or.inr (Or.inr rfl)) (w' ++ close :: r))
    exact ⟨[v], .trailing hv (dropGap_to hw solid_comma _) (dropGap_to hw' hsolid r) hallow⟩
  | @cons t w w' ts head hw hw' tail ih =>
    obtain ⟨vs, hvs⟩ := ih
    rw [append_assoc, append_assoc, cons_append, append_assoc]
    obtain ⟨v, hv⟩ := hitem head
      (follows_cons hw solid_comma (Or.inr (Or.inr rfl)) (w' ++ (ts ++ close :: r)))
    refine ⟨v :: vs, .cons hv (dropGap_to hw solid_comma _) ?_⟩
    rwa [dropGap_append hw', ((tail.startsSolid hstart).append _).dropGap]

theorem ContainerText.reads (hsolid : Solid close)
    (hends : tokenOf close = .objectEnd ∨ tokenOf close = .arrayEnd)
    (hstart : ∀ {t}, item t → StartsSolid t)
    (hitem : ∀ {t r}, item t → Follows r → ∃ v, itemReads (t ++ r) v r) {t : Bytes}
    (h : ContainerText trailingCommas item t) (r : Bytes) :
    ∃ vs, ContainerReads trailingCommas itemReads close (t ++ close :: r) vs r := by
  cases h with
  | empty hw => exact ⟨[], .empty (dropGap_to hw hsolid r)⟩
  | @items w ts hw h =>
    obtain ⟨vs, hvs⟩ := h.reads hsolid hends hstart hitem r
    refine ⟨vs, .items ?_⟩
    rwa [append_assoc, dropGap_append hw, ((h.startsSolid hstart).append _).dropGap]

end Containers

theorem MemberText.reads {value : Bytes → Prop} {valueReads : Bytes → Value F → Bytes → Prop}
    (hstart : ∀ {t}, value t → StartsSolid t)
    (hvalue : ∀ {t r}, value t → Follows r → ∃ v, valueReads (t ++ r) v r) {t r : Bytes}
    (h : MemberText operand value t) (hfol : Follows r) :
    ∃ member, MemberReads operand valueReads (t ++ r) member r := by
  cases h with
  | @mk s key w w' t hkey hw hw' ht =>
    obtain ⟨v, hv⟩ := hvalue ht hfol
    rw [append_assoc, append_assoc, cons_append, append_assoc]
    refine ⟨(key, v), .mk hkey (dropGap_to hw solid_colon _) ?_⟩
    rwa [dropGap_append hw', ((hstart ht).append r).dropGap]

/-- A text of the grammar is read as a value. -/
theorem TextOf.reads (hconv : Converts stringToDouble) {levels : Nat} {t r : Bytes}
    (h : TextOf operand trailingCommas levels t) (hfol : Follows r) :
    ∃ v, Reads stringToDouble operand trailingCommas levels (t ++ r) v r := by
  induction levels generalizing t r with
  | zero => exact ScalarText.reads hconv h hfol
  | succ levels ih =>
    cases (h : ValueText operand trailingCommas _ t) with
    | scalar h =>
      obtain ⟨v, hv⟩ := h.reads hconv hfol
      exact ⟨v, .scalar hv⟩
    | list h =>
      obtain ⟨vs, hvs⟩ := h.reads solid_close.1 (Or.inr rfl) TextOf.startsSolid ih r
      rw [cons_append, append_assoc]
      exact ⟨.list vs, .list hvs⟩
    | dictionary h =>
      obtain ⟨members, hmembers⟩ := h.reads solid_close.2 (Or.inl rfl) MemberText.startsSolid
        (MemberText.reads TextOf.startsSolid ih) r
      rw [cons_append, append_assoc]
      exact ⟨.dictionary (setAll members []), .dictionary hmembers⟩

end Reading

/-! ## What is read is a text -/

variable {r r' : Bytes}

section Texts

variable {F : Type} {stringToDouble : Bytes → Option F} {trailingCommas : Bool}

/-- The front of the bytes is such a text, and `r'` is what it leaves. -/
def Fronts (item : Bytes → Prop) (r r' : Bytes) : Prop :=
  ∃ t, r = t ++ r' ∧ item t ∧ slashesInStrings false r' = true

theorem number_byte_slash (b : UInt8) : isNumberByte b = true → b ≠ slash ∧ b ≠ quote := by
  revert b
  apply forall_byte
  decide +kernel

theorem word_plain {word : Bytes} (h : word.all (fun b => b != slash && b != quote) = true) :
    ∀ b ∈ word, b ≠ slash ∧ b ≠ quote := by
  simpa using h

theorem ScalarReads.text {v : Value F} (h : ScalarReads stringToDouble hexStringToInt r v r')
    (hs : slashesInStrings false r = true) : Fronts (ScalarText hexStringToInt) r r' := by
  cases h with
  | null =>
    rw [slashes_append (word_plain rfl)] at hs
    exact ⟨_, rfl, .null, hs⟩
  | boolTrue =>
    rw [slashes_append (word_plain rfl)] at hs
    exact ⟨_, rfl, .boolTrue, hs⟩
  | boolFalse =>
    rw [slashes_append (word_plain rfl)] at hs
    exact ⟨_, rfl, .boolFalse, hs⟩
  | string r h =>
    rw [h.slashes] at hs
    exact ⟨_, rfl, .string h, hs⟩
  | number num h hfol =>
    rw [slashes_append fun b hb => number_byte_slash b (num.numberBytes b hb)] at hs
    exact ⟨_, rfl, .number num, hs⟩

/-- A gap in front of a byte. -/
theorem whitespace_to {b : UInt8} (h : dropGap r = b :: r') (hslash : b ≠ slash)
    (hquote : b ≠ quote) (hs : slashesInStrings false r = true) :
    ∃ w, Whitespace w ∧ r = w ++ b :: r' ∧ slashesInStrings false r' = true := by
  obtain ⟨w, hw, hr, hrest⟩ := exists_whitespace hs
  rw [h] at hr hrest
  rw [slashes_cons hslash hquote] at hrest
  exact ⟨w, hw, hr, hrest⟩

section Containers

variable {α : Type} {item : Bytes → Prop} {itemReads : Bytes → α → Bytes → Prop} {close : UInt8}

theorem ItemsRead.text (hclose : close ≠ slash ∧ close ≠ quote)
    (hitem : ∀ {r v r'}, itemReads r v r' → slashesInStrings false r = true → Fronts item r r')
    {vs : List α} (h : ItemsRead trailingCommas itemReads close r vs r')
    (hs : slashesInStrings false r = true) :
    ∃ ts, r = ts ++ close :: r' ∧ ItemsText trailingCommas item ts ∧
      slashesInStrings false r' = true := by
  have hcommas : comma ≠ slash ∧ comma ≠ quote := ⟨by decide, by decide⟩
  induction h with
  | last head hlast =>
    obtain ⟨t, rfl, ht, hs₁⟩ := hitem head hs
    obtain ⟨w, hw, rfl, hs₂⟩ := whitespace_to hlast hclose.1 hclose.2 hs₁
    exact ⟨t ++ w, (append_assoc ..).symm, .last ht hw, hs₂⟩
  | trailing head hcomma hlast hallow =>
    obtain ⟨t, rfl, ht, hs₁⟩ := hitem head hs
    obtain ⟨w, hw, rfl, hs₂⟩ := whitespace_to hcomma hcommas.1 hcommas.2 hs₁
    obtain ⟨w', hw', rfl, hs₃⟩ := whitespace_to hlast hclose.1 hclose.2 hs₂
    exact ⟨t ++ (w ++ comma :: w'), by simp, .trailing ht hw hw' hallow, hs₃⟩
  | cons head hcomma tail ih =>
    obtain ⟨t, rfl, ht, hs₁⟩ := hitem head hs
    obtain ⟨w, hw, rfl, hs₂⟩ := whitespace_to hcomma hcommas.1 hcommas.2 hs₁
    obtain ⟨w', hw', hr, hs₃⟩ := exists_whitespace hs₂
    obtain ⟨ts, hts, htail, hs₄⟩ := ih hs₃
    rw [hts] at hr
    exact ⟨t ++ (w ++ comma :: (w' ++ ts)), by rw [hr]; simp, .cons ht hw hw' htail, hs₄⟩

theorem ContainerReads.text (hclose : close ≠ slash ∧ close ≠ quote)
    (hitem : ∀ {r v r'}, itemReads r v r' → slashesInStrings false r = true → Fronts item r r')
    {vs : List α} (h : ContainerReads trailingCommas itemReads close r vs r')
    (hs : slashesInStrings false r = true) :
    ∃ t, r = t ++ close :: r' ∧ ContainerText trailingCommas item t ∧
      slashesInStrings false r' = true := by
  cases h with
  | empty h =>
    obtain ⟨w, hw, hr, hs⟩ := whitespace_to h hclose.1 hclose.2 hs
    exact ⟨w, hr, .empty hw, hs⟩
  | items h =>
    obtain ⟨w, hw, hr, hs⟩ := exists_whitespace hs
    obtain ⟨ts, hts, htext, hs⟩ := h.text hclose hitem hs
    rw [hts] at hr
    exact ⟨w ++ ts, by rw [hr, append_assoc], .items hw htext, hs⟩

end Containers

theorem MemberReads.text {value : Bytes → Prop} {valueReads : Bytes → Value F → Bytes → Prop}
    (hvalue : ∀ {r v r'}, valueReads r v r' → slashesInStrings false r = true → Fronts value r r')
    {member : Bytes × Value F} (h : MemberReads hexStringToInt valueReads r member r')
    (hs : slashesInStrings false r = true) : Fronts (MemberText hexStringToInt value) r r' := by
  cases h with
  | @mk s key r r₂ r' v hkey hcolon hv =>
    rw [hkey.slashes] at hs
    obtain ⟨w, hw, rfl, hs₁⟩ := whitespace_to hcolon (by decide) (by decide) hs
    obtain ⟨w', hw', hr, hs₂⟩ := exists_whitespace hs₁
    obtain ⟨t, ht, htext, hs₃⟩ := hvalue hv hs₂
    rw [ht] at hr
    exact ⟨s ++ (w ++ colon :: (w' ++ t)), by rw [hr]; simp, .mk hkey hw hw' htext, hs₃⟩

/-- What is read as a value is a text of the grammar. -/
theorem Reads.text {levels : Nat} {v : Value F}
    (h : Reads stringToDouble hexStringToInt trailingCommas levels r v r')
    (hs : slashesInStrings false r = true) :
    Fronts (TextOf hexStringToInt trailingCommas levels) r r' := by
  induction levels generalizing r r' v with
  | zero => exact ScalarReads.text h hs
  | succ levels ih =>
    cases (h : ValueReads stringToDouble hexStringToInt trailingCommas _ r v r') with
    | scalar h =>
      obtain ⟨t, hr, ht, hs⟩ := h.text hs
      exact ⟨t, hr, .scalar ht, hs⟩
    | list h =>
      rw [slashes_cons (by decide) (by decide)] at hs
      obtain ⟨t, rfl, ht, hs'⟩ := h.text ⟨by decide, by decide⟩ ih hs
      exact ⟨openBracket :: (t ++ [closeBracket]), by simp, .list ht, hs'⟩
    | dictionary h =>
      rw [slashes_cons (by decide) (by decide)] at hs
      obtain ⟨t, rfl, ht, hs'⟩ := h.text ⟨by decide, by decide⟩ (MemberReads.text ih) hs
      exact ⟨openBrace :: (t ++ [closeBrace]), by simp, .dictionary ht, hs'⟩

end Texts

/-! ## The language of the parser

The documents for which `parse` returns a value. -/

/-! ## Hex digits -/

theorem charToDigit_lt {c : UInt8} {digit : Nat} (h : charToDigit 16 c = some digit) :
    digit < 16 := by
  unfold charToDigit at h
  split_ifs at h <;> obtain rfl := Option.some.inj h <;> omega

theorem wrapInt_small {v : Int} (hlow : 0 ≤ v) (hhigh : v < 2 ^ 31) : wrapInt v = v := by
  unfold wrapInt
  rw [Int.bmod_def]
  omega

/-- The digit loop over few enough hex digits. -/
theorem digitLoop_hexValue {first : Bool} {output v : Int} {ds : Bytes}
    (hfirst : first = true → output = 0) (hlow : 0 ≤ output)
    (hroom : (output + 1) * 16 ^ ds.length ≤ 2 ^ 28)
    (h : ds.foldlM (fun v b => (charToDigit 16 b).map fun digit : Nat => v * 16 + (digit : Int))
      output = some v) : hexTraits.digitLoop false first output ds = (v, true) := by
  induction ds generalizing first output with
  | nil =>
    cases h
    rfl
  | cons b ds ih =>
    rw [List.foldlM_cons] at h
    cases hdigit : charToDigit 16 b with
    | none =>
      rw [hdigit] at h
      cases h
    | some digit =>
      rw [hdigit] at h
      have hdigit' := charToDigit_lt hdigit
      have hpow : (0 : Int) < 16 ^ ds.length := by positivity
      rw [List.length_cons, pow_succ] at hroom
      have hsmall : output + 1 ≤ 2 ^ 24 := by nlinarith
      have hnext : (output * 16 + digit + 1) * 16 ^ ds.length ≤ 2 ^ 28 := by
        calc (output * 16 + digit + 1) * 16 ^ ds.length
            ≤ (output * 16 + 16) * 16 ^ ds.length :=
              Int.mul_le_mul_of_nonneg_right (by omega) hpow.le
          _ = (output + 1) * (16 ^ ds.length * 16) := by ring
          _ ≤ 2 ^ 28 := hroom
      have hrun : hexTraits.digitLoop false false (output * 16 + digit) ds = (v, true) :=
        ih nofun (by omega) hnext h
      rw [NumberTraits.digitLoop]
      rw [show charToDigit hexTraits.base b = some digit from hdigit]
      dsimp only
      cases first with
      | true =>
        have hzero := hfirst rfl
        rw [if_pos rfl]
        rw [hzero] at hrun ⊢
        rw [increment, wrapInt_small (by simp) (by simp; omega)]
        simpa using hrun
      | false =>
        have hbounds : hexTraits.outOfBounds false output digit = false := by
          have hlimit : wrapInt (hexTraits.max.tdiv (hexTraits.base : Int)) = 2 ^ 28 - 1 := rfl
          unfold NumberTraits.outOfBounds
          rw [if_neg (by decide), hlimit]
          simp
          omega
        rw [if_neg (by decide), hbounds, if_neg (by decide),
          show (hexTraits.base : Int) = 16 from rfl, wrapInt_small (by omega) (by omega), increment,
          if_neg (by decide), wrapInt_small (by omega) (by omega)]
        exact hrun

theorem hexDigit_facts (b : UInt8) : isHexDigit b = true →
    isSpace b = false ∧ b ≠ 0x2d ∧ b ≠ 0x2b ∧ b ≠ 0x78 ∧ b ≠ 0x58 := by
  revert b
  apply forall_byte
  decide +kernel

theorem foldlM_hexDigits {output v : Int} {ds : Bytes}
    (h : ds.foldlM (fun v b => (charToDigit 16 b).map fun digit : Nat => v * 16 + (digit : Int))
      output = some v) : ∀ b ∈ ds, isHexDigit b = true := by
  induction ds generalizing output with
  | nil => nofun
  | cons b ds ih =>
    rw [List.foldlM_cons] at h
    unfold isHexDigit
    cases hdigit : charToDigit 16 b with
    | none =>
      rw [hdigit] at h
      cases h
    | some digit =>
      rw [hdigit] at h
      intro c hc
      obtain rfl | hc := List.mem_cons.mp hc
      · rw [hdigit]
        rfl
      · exact ih h c hc

/-- HexStringToInt takes hex digits at their value. -/
theorem hexStringToInt_of_hexValue {ds : Bytes} {v : Int} (hlen : ds.length ≤ 4)
    (hne : ds ≠ []) (h : hexValue ds = some v) : hexStringToInt ds = some v := by
  have hroom : ((0 : Int) + 1) * 16 ^ ds.length ≤ 2 ^ 28 := by
    calc ((0 : Int) + 1) * 16 ^ ds.length = 16 ^ ds.length := by ring
      _ ≤ 16 ^ 4 := pow_le_pow_right₀ (by omega) hlen
      _ ≤ 2 ^ 28 := by decide
  have hloop : hexTraits.digitLoop false true 0 ds = (v, true) :=
    digitLoop_hexValue (fun _ => rfl) (le_refl 0) hroom h
  have hds := foldlM_hexDigits h
  have hinvoke : hexTraits.invokeDigits false ds = (v, true) := by
    unfold NumberTraits.invokeDigits
    split
    · exact absurd rfl hne
    · rename_i x c cs
      obtain ⟨-, -, -, hx, hx'⟩ := hexDigit_facts x (hds x (by simp))
      rw [if_neg (by tauto)]
      exact hloop
    · exact hloop
  have hall : hexTraits.invoke ds = (v, true) := by
    cases ds with
    | nil => exact absurd rfl hne
    | cons c cs =>
      obtain ⟨hspace, hminus, hplus, -⟩ := hexDigit_facts c (hds c (List.mem_cons_self ..))
      unfold NumberTraits.invoke
      rw [hspace, if_neg (by decide), if_neg hminus, if_neg hplus]
      exact hinvoke
  unfold hexStringToInt convert
  rw [hall, if_pos rfl]

/-! ## Larger grammars -/

section Mono

variable {operand operand' : Bytes → Option Int} {trailingCommas : Bool}

/-- The operands of escapes, of two and of four bytes, mean the same in the other grammar. -/
def Extends (operand operand' : Bytes → Option Int) : Prop :=
  ∀ {ds : Bytes} {v : Int}, ds.length = 2 ∨ ds.length = 4 → operand ds = some v →
    operand' ds = some v

section

variable (h : Extends operand operand')
include h

theorem CharReads.mono {s d : Bytes} (hs : CharReads operand s d) : CharReads operand' s d := by
  cases hs with
  | plain hvalid hslash hquote => exact .plain hvalid hslash hquote
  | simple hesc => exact .simple hesc
  | hex hlen hv => exact .hex hlen (h (Or.inl hlen) hv)
  | unit hlen hv hone => exact .unit hlen (h (Or.inr hlen) hv) hone
  | pair hlen hlen' hhigh hlow hsurr hlead htrail =>
    exact .pair hlen hlen' (h (Or.inr hlen) hhigh) (h (Or.inr hlen') hlow) hsurr
      hlead htrail

theorem StringReads.mono {s d : Bytes}
    (hs : StringReads operand s d) : StringReads operand' s d := by
  obtain ⟨hbody⟩ := hs
  refine ⟨?_⟩
  induction hbody with
  | nil => exact .nil
  | cons head tail ih => exact .cons (head.mono h) ih

theorem ScalarText.mono {t : Bytes} (ht : ScalarText operand t) : ScalarText operand' t := by
  cases ht with
  | null => exact .null
  | boolTrue => exact .boolTrue
  | boolFalse => exact .boolFalse
  | string hs => exact .string (hs.mono h)
  | number num => exact .number num

end

theorem ContainerText.mono {item item' : Bytes → Prop} (hitem : ∀ {t}, item t → item' t)
    {t : Bytes} (ht : ContainerText trailingCommas item t) :
    ContainerText trailingCommas item' t := by
  cases ht with
  | empty hw => exact .empty hw
  | items hw hts =>
    refine .items hw ?_
    induction hts with
    | last head hw => exact .last (hitem head) hw
    | trailing head hw hw' hallow => exact .trailing (hitem head) hw hw' hallow
    | cons head hw hw' tail ih => exact .cons (hitem head) hw hw' ih

section

variable (h : Extends operand operand')
include h

theorem MemberText.mono {value value' : Bytes → Prop}
    (hvalue : ∀ {t}, value t → value' t) {t : Bytes} (ht : MemberText operand value t) :
    MemberText operand' value' t := by
  cases ht with
  | mk hkey hw hw' hv => exact .mk (hkey.mono h) hw hw' (hvalue hv)

theorem TextOf.mono {levels : Nat} {t : Bytes}
    (ht : TextOf operand trailingCommas levels t) : TextOf operand' trailingCommas levels t := by
  induction levels generalizing t with
  | zero => exact ScalarText.mono h ht
  | succ levels ih =>
    cases (ht : ValueText operand trailingCommas _ t) with
    | scalar ht => exact .scalar (ht.mono h)
    | list ht => exact .list (ht.mono ih)
    | dictionary ht => exact .dictionary (ht.mono (MemberText.mono h ih))

theorem Document.mono {text : Bytes}
    (ht : Document operand trailingCommas text) : Document operand' trailingCommas text := by
  obtain ⟨w, t, w', htext, hw, hw', ht⟩ := ht
  exact ⟨w, t, w', htext, hw, hw', ht.mono h⟩

end

end Mono

theorem hexValue_extends : Extends hexValue hexStringToInt := by
  intro ds v hlen h
  refine hexStringToInt_of_hexValue (by omega) ?_ h
  rintro rfl
  simp at hlen

/-! ## Documents and roots -/

section Documents

variable {F : Type} {stringToDouble : Bytes → Option F} {options : Options} {input : Input}

/-- The copy holds the same bytes. -/
theorem inputFor_rest : (inputFor options input).rest 0 = input.rest 0 := by
  unfold inputFor
  split
  · rfl
  · refine load_congr fun i _ hi => if_pos ?_
    dsimp only at hi
    omega

theorem dropByteOrderMark_slashes {text : Bytes} (h : slashesInStrings false text = true) :
    slashesInStrings false (dropByteOrderMark text) = true := by
  unfold dropByteOrderMark
  split
  · rwa [slashes_cons (by decide) (by decide), slashes_cons (by decide) (by decide),
      slashes_cons (by decide) (by decide)] at h
  · exact h

/-- A document is read. -/
theorem Document.rootReads (hconv : Converts stringToDouble)
    (h : Document hexStringToInt options.allowTrailingCommas (input.rest 0)) :
    ∃ v, RootReads stringToDouble options input.root v := by
  obtain ⟨w, t, w', htext, hw, hw', ht⟩ := h
  obtain ⟨v, hv⟩ := ht.reads hconv (follows_whitespace hw')
  refine ⟨v, w', ?_, dropGap_of_whitespace hw'⟩
  rw [Input.root, htext, dropGap_append hw, (ht.startsSolid.append w').dropGap]
  exact hv

/-- What is read is a document. -/
theorem RootReads.document (hslashes : slashesInStrings false (input.rest 0) = true) {v : Value F}
    (h : RootReads stringToDouble options input.root v) :
    Document hexStringToInt options.allowTrailingCommas (input.rest 0) := by
  obtain ⟨r, hreads, hgap⟩ := h
  obtain ⟨w, hw, htext, hs⟩ := exists_whitespace (dropByteOrderMark_slashes hslashes)
  obtain ⟨t, ht, htextOf, hs'⟩ := hreads.text hs
  obtain ⟨w', hw', hr, -⟩ := exists_whitespace hs'
  rw [hgap, List.append_nil] at hr
  rw [← hr] at hw'
  refine ⟨w, t, r, ?_, hw, hw', htextOf⟩
  rw [htext, ← ht]
  rfl

/-- A number up to the end of the input is a document. -/
theorem CutShort.document {operand : Bytes → Option Int} {b : UInt8}
    (hslashes : slashesInStrings false (input.rest 0) = true) (h : CutShort input.root b) :
    Document operand options.allowTrailingCommas (input.rest 0) := by
  obtain ⟨num, htext, -⟩ := h
  obtain ⟨w, hw, hgap, -⟩ := exists_whitespace (dropByteOrderMark_slashes hslashes)
  refine ⟨w, num.text, [], ?_, hw, nofun, .scalar (.number num)⟩
  rw [List.append_nil, ← htext]
  exact hgap

end Documents

end ChromiumUI.Json
