import ChromiumUI.JsonValues

/-!
# Lists, dictionaries and whole values

The loops of ConsumeList and ConsumeDictionary read the items of the grammar, and ParseToken by
induction on the levels that are left reads its values.
-/
namespace ChromiumUI.Json

open ByteMemory Base Input

variable {input : Input} {F : Type}

/-! ## The token behind a value -/

variable {s : State}

/-- NextChar and GetNextToken, with the cursor on the last byte of something. -/
theorem getNextToken_after {t : State} {token : Token} (hsync : s.index = s.pos)
    (h : input.getNextToken s.nextChar = (token, t)) :
    t.index = t.pos ∧ s.pos < t.pos ∧ input.rest t.pos = dropGap (input.rest (s.pos + 1)) ∧
      token = headToken (input.rest t.pos) := by
  obtain ⟨⟨hrest, hs, hle⟩, htoken⟩ := @getNextToken_leaves input s.nextChar
    (congrArg (· + 1) hsync)
  rw [h] at hrest hs hle htoken
  dsimp only at hrest hs hle htoken
  exact ⟨hs, hle, hrest, by rw [htoken, hrest]⟩

/-- Behind the end of the input there is no more token. -/
theorem EndsBehind.token {t : State} {token : Token} (h : EndsBehind input s)
    (hnext : input.getNextToken s.nextChar = (token, t)) : token = .endOfInput := by
  obtain ⟨-, -, hrest, htoken⟩ := getNextToken_after h.synced hnext
  rw [rest_of_le (p := s.pos + 1) (by rw [h.pos]; omega), dropGap_nil] at hrest
  rw [htoken, hrest]
  rfl

variable {r : Bytes}

theorem ends_here {b : UInt8} (hsync : s.index = s.pos) (h : input.rest s.pos = b :: r)
    (hb : Solid b) : Ends input s s r := by
  obtain ⟨hmem, hrest⟩ := mem_of_rest h
  exact ⟨hrest, hsync, Nat.le_refl _, lt_of_rest_cons h, hmem ▸ hb.1, hmem ▸ hb.2⟩

variable {s' : State}

theorem Ends.after {s₀ : State} (h : Ends input s s' r) (hle : s₀.pos ≤ s.pos) :
    Ends input s₀ s' r :=
  ⟨h.rest, h.synced, Nat.le_trans hle h.le, h.lt, h.black, h.noSlash⟩

theorem solid_close : Solid closeBracket ∧ Solid closeBrace := by
  refine ⟨⟨rfl, by decide⟩, ⟨rfl, by decide⟩⟩

/-- In front of the items of a container, or of its closing bracket. -/
def LoopReads {α : Type} (trailingCommas : Bool) (item : Bytes → α → Bytes → Prop)
    (close : UInt8) (r : Bytes) (vs : List α) (r' : Bytes) : Prop :=
  r = close :: r' ∧ vs = [] ∨ ItemsRead trailingCommas item close r vs r'

variable {r' : Bytes}

/-- A comma behind an item, and what the loop then reads. -/
theorem LoopReads.behind_comma {α : Type} {trailingCommas : Bool} {item : Bytes → α → Bytes → Prop}
    {close : UInt8} {r₁ r₂ : Bytes} {v : α} {vs : List α} (hitem : item r v r₁)
    (hcomma : dropGap r₁ = comma :: r₂) (h : LoopReads trailingCommas item close (dropGap r₂) vs r')
    (hallow : dropGap r₂ = close :: r' → trailingCommas = true) :
    LoopReads trailingCommas item close r (v :: vs) r' := by
  obtain ⟨hclose, rfl⟩ | h := h
  · exact .inr (.trailing hitem hcomma hclose (hallow hclose))
  · exact .inr (.cons hitem hcomma h)

variable {fuel : Nat} {list : List (Value F)} {v : Value F} {dict : List (Bytes × Value F)}

section Loops

variable {options : Options} {parse : Token → State → Outcome (Value F)}
  {item : Bytes → Value F → Bytes → Prop}

/-- What the parser accepts is an item. -/
abbrev Sound (input : Input) (parse : Token → State → Outcome (Value F))
    (item : Bytes → Value F → Bytes → Prop) : Prop :=
  ∀ {s s' : State} {v : Value F}, s.index = s.pos →
    parse (headToken (input.rest s.pos)) s = .ok (v, s') → Parsed input item s s' v

/-- The parser accepts the items. -/
abbrev Complete (input : Input) (parse : Token → State → Outcome (Value F))
    (item : Bytes → Value F → Bytes → Prop) : Prop :=
  ∀ {s : State} {v : Value F} {r : Bytes}, s.index = s.pos → item (input.rest s.pos) v r →
    (r = [] → ¬CutShort (input.rest s.pos) (input.mem input.length)) → Parses input parse s v r

/-! ## Loops over items -/

/-- GetNextToken behind a value that the grammar has read. -/
theorem Ends.nextToken {s₁ : State} (h : Ends input s s₁ r) :
    ∃ s₂, input.getNextToken s₁.nextChar = (headToken (input.rest s₂.pos), s₂) ∧
      s₂.index = s₂.pos ∧ s.pos < s₂.pos ∧ input.rest s₂.pos = dropGap r := by
  cases hnext : input.getNextToken s₁.nextChar with
  | mk token s₂ =>
    obtain ⟨hs₂, hlt, hrest, rfl⟩ := getNextToken_after h.synced hnext
    have := h.le
    exact ⟨s₂, rfl, hs₂, by omega, by rw [hrest, h.rest]⟩

theorem ne_nil_of_dropGap {b : UInt8} (h : dropGap r = b :: r') : r ≠ [] := by
  rintro rfl
  rw [dropGap_nil] at h
  cases h

/-- An item in front of a loop is taken, and the token behind it decides. -/
def Takes (input : Input) (options : Options) {γ : Type}
    (loop : Nat → Token → State → γ → Outcome (Value F)) (closing : Token) (fuel : Nat) (s : State)
    (acc : γ) (r : Bytes) (acc' : γ) : Prop :=
  ∃ s₁ fuel', Ends input s s₁ r ∧ fuel = fuel' + 1 ∧
    (∀ s₂, input.getNextToken s₁.nextChar = (closing, s₂) →
      loop fuel (headToken (input.rest s.pos)) s acc = loop fuel' closing s₂ acc') ∧
    ∀ s₂ token s₃, input.getNextToken s₁.nextChar = (.listSeparator, s₂) →
      input.getNextToken s₂.nextChar = (token, s₃) →
      ¬(token = closing ∧ ¬options.allowTrailingCommas) →
      loop fuel (headToken (input.rest s.pos)) s acc = loop fuel' token s₃ acc'

/-- A loop that takes every item and ends at the closing bracket reads what the grammar reads. -/
theorem loop_reads {β γ : Type} {loop : Nat → Token → State → γ → Outcome (Value F)}
    {closing : Token} {close : UInt8} {item : Bytes → β → Bytes → Prop} {push : γ → β → γ}
    {done : γ → Value F} (hsolid : Solid close) (htoken : ∀ r, headToken (close :: r) = closing)
    (hcloses : ∀ fuel s acc {r}, input.rest s.pos = close :: r → input.length < fuel + s.pos →
      loop fuel (headToken (input.rest s.pos)) s acc = .ok (done acc, s))
    (htakes : ∀ fuel s acc {v r}, s.index = s.pos → input.length < fuel + s.pos →
      item (input.rest s.pos) v r → r ≠ [] →
      Takes input options loop closing fuel s acc r (push acc v))
    (hopens : ∀ (s : State) {v r}, s.index = s.pos → item (input.rest s.pos) v r → r ≠ [] →
      headToken (input.rest s.pos) ≠ closing)
    {r' : Bytes} {vs : List β} {text : Bytes}
    (h : ItemsRead options.allowTrailingCommas item close text vs r')
    {fuel : Nat} {s : State} {acc : γ} (hsync : s.index = s.pos)
    (htext : input.rest s.pos = text) (hfuel : input.length < fuel + s.pos) :
    ∃ s', loop fuel (headToken (input.rest s.pos)) s acc = .ok (done (vs.foldl push acc), s') ∧
      Ends input s s' r' := by
  induction h generalizing s acc fuel with
  | last head hclosing =>
    rename_i r r₁ r' v
    rw [← htext] at head
    obtain ⟨s₁, fuel, hends, rfl, heq, -⟩ :=
      htakes _ s acc hsync hfuel head (ne_nil_of_dropGap hclosing)
    obtain ⟨s₂, hnext, hs₂, hlt₂, hrest₂⟩ := hends.nextToken
    rw [hclosing] at hrest₂
    have hend := hcloses fuel s₂ (push acc v) hrest₂ (by omega)
    rw [hrest₂, htoken] at hnext hend
    rw [heq s₂ hnext]
    exact ⟨s₂, hend, (ends_here hs₂ hrest₂ hsolid).after (by omega)⟩
  | trailing head hcomma hclosing hallow =>
    rename_i r r₁ r₂ r' v
    rw [← htext] at head
    obtain ⟨s₁, fuel, hends, rfl, -, heq⟩ :=
      htakes _ s acc hsync hfuel head (ne_nil_of_dropGap hcomma)
    obtain ⟨s₂, hnext, hs₂, hlt₂, hrest₂⟩ := hends.nextToken
    rw [hcomma] at hrest₂
    obtain ⟨s₃, hnext₃, hs₃, hlt₃, hrest₃⟩ := (ends_here hs₂ hrest₂ ⟨rfl, by decide⟩).nextToken
    rw [hclosing] at hrest₃
    have hend := hcloses fuel s₃ (push acc v) hrest₃ (by omega)
    rw [hrest₂] at hnext
    rw [heq s₂ _ s₃ hnext hnext₃ fun hno => hno.2 hallow]
    exact ⟨s₃, hend, (ends_here hs₃ hrest₃ hsolid).after (by omega)⟩
  | cons head hcomma tail ih =>
    rename_i r r₁ r₂ r' v vs
    rw [← htext] at head
    obtain ⟨s₁, fuel, hends, rfl, -, heq⟩ :=
      htakes _ s acc hsync hfuel head (ne_nil_of_dropGap hcomma)
    obtain ⟨s₂, hnext, hs₂, hlt₂, hrest₂⟩ := hends.nextToken
    rw [hcomma] at hrest₂
    obtain ⟨s₃, hnext₃, hs₃, hlt₃, hrest₃⟩ := (ends_here hs₂ hrest₂ ⟨rfl, by decide⟩).nextToken
    obtain ⟨s', hloop, hends'⟩ := @ih fuel s₃ (push acc v) hs₃ hrest₃ (by omega)
    rw [hrest₂] at hnext
    refine ⟨s', ?_, hends'.after (by omega)⟩
    rw [heq s₂ _ s₃ hnext hnext₃, hloop]
    · rfl
    · -- Nothing that begins an item closes the container.
      rintro ⟨hclosing, -⟩
      obtain ⟨v', r₃, hitem, hne⟩ : ∃ v' r₃, item (input.rest s₃.pos) v' r₃ ∧ r₃ ≠ [] := by
        rw [hrest₃]
        cases tail with
        | last head hclosing => exact ⟨_, _, head, ne_nil_of_dropGap hclosing⟩
        | trailing head hcomma | cons head hcomma => exact ⟨_, _, head, ne_nil_of_dropGap hcomma⟩
      exact hopens s₃ hs₃ hitem hne hclosing

/-! ## Lists -/

theorem listLoop_sound (hparse : Sound input parse item) (hsync : s.index = s.pos)
    (h : input.listLoop options parse fuel (headToken (input.rest s.pos)) s list = .ok (v, s')) :
    ∃ vs r, v = .list (list ++ vs) ∧
      LoopReads options.allowTrailingCommas item closeBracket (input.rest s.pos) vs r ∧
      Ends input s s' r := by
  induction fuel generalizing s list with
  | zero => cases h
  | succ fuel ih =>
    rw [listLoop] at h
    split at h
    · rename_i htoken
      obtain ⟨rfl, rfl⟩ := Prod.mk.inj (Except.ok.inj h)
      obtain ⟨r, hr⟩ := head_of_token htoken nofun fun c => (tokenOf_inj c).2.2.2.1
      exact ⟨[], r, by rw [List.append_nil], .inl ⟨hr, rfl⟩, ends_here hsync hr solid_close.1⟩
    · split at h
      · cases h
      · rename_i v₁ s₁ hrun
        have hparsed := hparse hsync hrun
        obtain ⟨r₁, hitem, hends⟩ | ⟨hends, -⟩ := hparsed.ends
        · split at h
          · rename_i s₂ hnext
            obtain ⟨hs₂, hlt₂, hrest₂, htoken₂⟩ := getNextToken_after hends.synced hnext
            rw [hends.rest] at hrest₂
            obtain ⟨r₂, hr₂⟩ := head_of_token htoken₂.symm nofun
              fun c => (tokenOf_inj c).2.2.2.2.2.1
            dsimp only at h
            split at h
            · cases h
            · rename_i hallow
              cases hnext₃ : input.getNextToken s₂.nextChar with
              | mk token₃ s₃ =>
                rw [hnext₃] at h hallow
                obtain ⟨hs₃, hlt₃, hrest₃, rfl⟩ := getNextToken_after hs₂ hnext₃
                rw [(mem_of_rest hr₂).2] at hrest₃
                obtain ⟨vs, r, rfl, hreads, hends'⟩ := ih hs₃ h
                refine ⟨v₁ :: vs, r, by rw [List.append_assoc]; rfl, ?_, ?_⟩
                · rw [hrest₃] at hreads
                  apply hreads.behind_comma hitem (hrest₂.symm.trans hr₂)
                  intro hclose
                  by_contra hno
                  apply hallow
                  rw [hrest₃, hclose]
                  exact ⟨rfl, hno⟩
                · have := hends.le
                  exact hends'.after (by omega)
          · rename_i s₂ hnext
            obtain ⟨hs₂, hlt₂, hrest₂, htoken₂⟩ := getNextToken_after hends.synced hnext
            rw [hends.rest] at hrest₂
            obtain ⟨r₂, hr₂⟩ := head_of_token htoken₂.symm nofun fun c => (tokenOf_inj c).2.2.2.1
            cases fuel with
            | zero => cases h
            | succ fuel =>
              rw [listLoop, if_pos rfl] at h
              obtain ⟨rfl, rfl⟩ := Prod.mk.inj (Except.ok.inj h)
              have := hends.le
              exact ⟨[v₁], r₂, rfl, .inr (.last hitem (hrest₂.symm.trans hr₂)),
                (ends_here hs₂ hr₂ solid_close.1).after (by omega)⟩
          · cases h
        · split at h
          · rename_i hnext
            cases hends.token hnext
          · rename_i hnext
            cases hends.token hnext
          · cases h

/-- The loop at the closing bracket. -/
theorem listLoop_close (h : input.rest s.pos = closeBracket :: r)
    (hfuel : input.length < fuel + s.pos) :
    input.listLoop options parse fuel (headToken (input.rest s.pos)) s list =
      .ok (.list list, s) := by
  have hlt := lt_of_rest_cons h
  cases fuel with
  | zero => omega
  | succ fuel =>
    rw [h]
    exact if_pos rfl

section

variable (hparse : Complete input parse item)
include hparse

/-- A value in front of the loop is parsed, and the token behind it decides. -/
theorem listLoop_round (hclose : ∀ s, ∃ e, parse .arrayEnd s = .error e) (hsync : s.index = s.pos)
    (hfuel : input.length < fuel + s.pos) (hitem : item (input.rest s.pos) v r) (hne : r ≠ []) :
    Takes input options (input.listLoop options parse) .arrayEnd fuel s list r (list ++ [v]) := by
  obtain ⟨s₁, hrun, hends⟩ := hparse hsync hitem fun hnil => absurd hnil hne
  have hlt := hends.lt
  have hle := hends.le
  cases fuel with
  | zero => omega
  | succ fuel =>
    have hopen : headToken (input.rest s.pos) ≠ .arrayEnd := by
      intro htoken
      rw [htoken] at hrun
      obtain ⟨e, he⟩ := hclose s
      rw [he] at hrun
      cases hrun
    refine ⟨s₁, fuel, hends, rfl, fun s₂ hnext => ?_, fun s₂ token s₃ hnext hnext₃ hgo => ?_⟩
    · rw [listLoop, if_neg hopen, hrun]
      dsimp only
      rw [hnext]
    · rw [listLoop, if_neg hopen, hrun]
      dsimp only
      rw [hnext]
      dsimp only
      rw [hnext₃]
      exact if_neg hgo

theorem listLoop_reads (hclose : ∀ s, ∃ e, parse .arrayEnd s = .error e) {r' : Bytes}
    {vs : List (Value F)}
    {text : Bytes} (h : ItemsRead options.allowTrailingCommas item closeBracket text vs r')
    {fuel : Nat} {s : State} {list : List (Value F)} (hsync : s.index = s.pos)
    (htext : input.rest s.pos = text) (hfuel : input.length < fuel + s.pos) :
    ∃ s', input.listLoop options parse fuel (headToken (input.rest s.pos)) s list =
      .ok (.list (list ++ vs), s') ∧ Ends input s s' r' := by
  obtain ⟨s', hloop, hends⟩ := loop_reads solid_close.1 (fun _ => rfl)
    (fun _ _ _ _ => listLoop_close) (fun _ _ _ _ _ => listLoop_round hparse hclose)
    (fun _ _ _ hs hitem hne htoken => by
      obtain ⟨s₁, hrun, -⟩ := hparse hs hitem fun hnil => absurd hnil hne
      obtain ⟨e, he⟩ := hclose _
      rw [htoken, he] at hrun
      cases hrun) h hsync htext hfuel
  rw [List.foldl_append_eq_append, ← List.flatMap_def, List.flatMap_singleton'] at hloop
  exact ⟨s', hloop, hends⟩

end

/-! ## Dictionaries -/

/-- A key, its colon and the token in front of its value. -/
theorem consumeKey_reads {s₁ s₂ : State} {b : StringBuilder} (hsync : s.index = s.pos)
    (hkey : input.consumeStringRaw s = .ok (b, s₁))
    (hcolon : input.getNextToken s₁.nextChar = (.objectPairSeparator, s₂)) :
    ∃ text r r₂, StringReads hexStringToInt text (b.asString input.mem) ∧
      input.rest s.pos = text ++ r ∧ dropGap r = colon :: r₂ ∧ s₂.index = s₂.pos ∧
      s.pos < s₂.pos ∧ input.rest (s₂.pos + 1) = r₂ := by
  obtain ⟨text, r, hreads, hrest, hends⟩ | ⟨hends, -⟩ := consumeStringRaw_ends hsync hkey
  · obtain ⟨hs₂, hlt, hrest₂, htoken⟩ := getNextToken_after hends.synced hcolon
    obtain ⟨r₂, hr₂⟩ := head_of_token htoken.symm nofun fun c => (tokenOf_inj c).2.2.2.2.2.2.1
    have := hends.le
    rw [hends.rest, hr₂] at hrest₂
    exact ⟨text, r, r₂, hreads, hrest, hrest₂.symm, hs₂, by omega, (mem_of_rest hr₂).2⟩
  · cases hends.token hcolon

theorem dictionaryLoop_sound (hparse : Sound input parse item) (hsync : s.index = s.pos)
    (h : input.dictionaryLoop options parse fuel (headToken (input.rest s.pos)) s dict =
      .ok (v, s')) :
    ∃ members r, v = .dictionary (setAll members dict) ∧
      LoopReads options.allowTrailingCommas (MemberReads hexStringToInt item) closeBrace
        (input.rest s.pos) members r ∧ Ends input s s' r := by
  induction fuel generalizing s dict with
  | zero => cases h
  | succ fuel ih =>
    rw [dictionaryLoop] at h
    split at h
    · rename_i htoken
      obtain ⟨rfl, rfl⟩ := Prod.mk.inj (Except.ok.inj h)
      obtain ⟨r, hr⟩ := head_of_token htoken nofun fun c => (tokenOf_inj c).2.1
      exact ⟨[], r, rfl, .inl ⟨hr, rfl⟩, ends_here hsync hr solid_close.2⟩
    · split at h
      · cases h
      · split at h
        · cases h
        · rename_i key s₁ hkey
          cases hnext₁ : input.getNextToken s₁.nextChar with
          | mk token₁ s₂ =>
            rw [hnext₁] at h
            dsimp only at h
            split at h
            · cases h
            · rename_i hcolon
              rw [not_not] at hcolon
              subst hcolon
              obtain ⟨text, r₀, r₂, hreads, hrest, hgap, hs₂, hlt₂, hrest₂⟩ :=
                consumeKey_reads hsync hkey hnext₁
              cases hnext₂ : input.getNextToken s₂.nextChar with
              | mk token₂ s₃ =>
                rw [hnext₂] at h
                obtain ⟨hs₃, hlt₃, hrest₃, rfl⟩ := getNextToken_after hs₂ hnext₂
                rw [hrest₂] at hrest₃
                split at h
                · cases h
                · rename_i v₁ s₄ hrun
                  obtain ⟨r₄, hitem, hends⟩ | ⟨hends, -⟩ := (hparse hs₃ hrun).ends
                  · have hmember : MemberReads hexStringToInt item (input.rest s.pos)
                        (key.asString input.mem, v₁) r₄ := by
                      rw [hrest]
                      exact .mk hreads hgap (hrest₃ ▸ hitem)
                    have hle₄ := hends.le
                    split at h
                    · rename_i s₅ hnext
                      obtain ⟨hs₅, hlt₅, hrest₅, htoken₅⟩ := getNextToken_after hends.synced hnext
                      rw [hends.rest] at hrest₅
                      obtain ⟨r₅, hr₅⟩ := head_of_token htoken₅.symm nofun
                        fun c => (tokenOf_inj c).2.2.2.2.2.1
                      split at h
                      · cases h
                      · rename_i hallow
                        cases hnext₆ : input.getNextToken s₅.nextChar with
                        | mk token₆ s₆ =>
                          rw [hnext₆] at h hallow
                          obtain ⟨hs₆, hlt₆, hrest₆, rfl⟩ := getNextToken_after hs₅ hnext₆
                          rw [(mem_of_rest hr₅).2] at hrest₆
                          obtain ⟨members, r, rfl, hloop, hends'⟩ := ih hs₆ h
                          refine ⟨(key.asString input.mem, v₁) :: members, r, rfl, ?_,
                            hends'.after (by omega)⟩
                          rw [hrest₆] at hloop
                          apply hloop.behind_comma hmember (hrest₅.symm.trans hr₅)
                          intro hclose
                          by_contra hno
                          apply hallow
                          rw [hrest₆, hclose]
                          exact ⟨rfl, hno⟩
                    · rename_i s₅ hnext
                      obtain ⟨hs₅, hlt₅, hrest₅, htoken₅⟩ := getNextToken_after hends.synced hnext
                      rw [hends.rest] at hrest₅
                      obtain ⟨r₅, hr₅⟩ := head_of_token htoken₅.symm nofun
                        fun c => (tokenOf_inj c).2.1
                      cases fuel with
                      | zero => cases h
                      | succ fuel =>
                        rw [dictionaryLoop, if_pos rfl] at h
                        obtain ⟨rfl, rfl⟩ := Prod.mk.inj (Except.ok.inj h)
                        exact ⟨[_], r₅, rfl, .inr (.last hmember (hrest₅.symm.trans hr₅)),
                          (ends_here hs₅ hr₅ solid_close.2).after (by omega)⟩
                    · cases h
                  · split at h
                    · rename_i hnext
                      cases hends.token hnext
                    · rename_i hnext
                      cases hends.token hnext
                    · cases h

theorem MemberReads.headToken {operand : Bytes → Option Int} {member : Bytes × Value F}
    (h : MemberReads operand item r member r') : headToken r = .string := by
  obtain ⟨⟨-⟩, -, -⟩ := h
  rfl

/-- The loop at the closing brace. -/
theorem dictionaryLoop_close (h : input.rest s.pos = closeBrace :: r)
    (hfuel : input.length < fuel + s.pos) :
    input.dictionaryLoop options parse fuel (headToken (input.rest s.pos)) s dict =
      .ok (.dictionary dict, s) := by
  have hlt := lt_of_rest_cons h
  cases fuel with
  | zero => omega
  | succ fuel =>
    rw [h]
    exact if_pos rfl

section

variable (hparse : Complete input parse item)
include hparse

/-- A member in front of the loop is parsed, and the token behind it decides. -/
theorem dictionaryLoop_round {member : Bytes × Value F} (hsync : s.index = s.pos)
    (hfuel : input.length < fuel + s.pos)
    (hmember : MemberReads hexStringToInt item (input.rest s.pos) member r) (hne : r ≠ []) :
    Takes input options (input.dictionaryLoop options parse) .objectEnd fuel s dict r
      (setAll [member] dict) := by
  unfold Takes
  generalize hrest : input.rest s.pos = text at hmember
  obtain ⟨hkey, hcolon, hvalue⟩ := hmember
  rename_i text key r₀ r₂ v
  obtain ⟨b, s₁, hraw, rfl, hends₁⟩ := consumeStringRaw_reads hsync hkey hrest
  obtain ⟨s₂, hnext₂, hs₂, hlt₂, hrest₂⟩ := hends₁.nextToken
  rw [hcolon] at hrest₂
  obtain ⟨s₃, hnext₃, hs₃, hlt₃, hrest₃⟩ := (ends_here hs₂ hrest₂ ⟨rfl, by decide⟩).nextToken
  rw [hrest₂, show headToken (colon :: r₂) = .objectPairSeparator from rfl] at hnext₂
  rw [← hrest₃] at hvalue
  obtain ⟨s₄, hrun, hends₄⟩ := hparse hs₃ hvalue fun hnil => absurd hnil hne
  have hlt₄ := hends₄.lt
  have hle₄ := hends₄.le
  have hstr : headToken (text ++ r₀) = .string := by
    obtain ⟨-⟩ := hkey
    rfl
  cases fuel with
  | zero => omega
  | succ fuel =>
    refine ⟨s₄, fuel, hends₄.after (by omega), rfl, fun s₅ hnext => ?_,
      fun s₅ token s₆ hnext hnext₆ hgo => ?_⟩
    all_goals
      rw [dictionaryLoop, hstr, if_neg (by rintro ⟨⟩), if_neg (not_not.mpr rfl), hraw]
      dsimp only
      rw [hnext₂]
      rw [if_neg (not_not.mpr rfl), hnext₃]
      rw [hrun]
      dsimp only
      rw [hnext]
    · rfl
    · dsimp only
      rw [hnext₆]
      exact if_neg hgo

theorem dictionaryLoop_reads {members : List (Bytes × Value F)} {text : Bytes}
    (h : ItemsRead options.allowTrailingCommas (MemberReads hexStringToInt item) closeBrace text
      members r') (hsync : s.index = s.pos) (htext : input.rest s.pos = text)
    (hfuel : input.length < fuel + s.pos) :
    ∃ s', input.dictionaryLoop options parse fuel (headToken (input.rest s.pos)) s dict =
      .ok (.dictionary (setAll members dict), s') ∧ Ends input s s' r' :=
  loop_reads solid_close.2 (fun _ => rfl) (fun _ _ _ _ => dictionaryLoop_close)
    (fun _ _ _ _ _ => dictionaryLoop_round hparse)
    (fun _ _ _ _ hmember _ htoken => by
      rw [hmember.headToken] at htoken
      cases htoken) h hsync htext hfuel

end

end Loops

/-! ## Values -/

variable {parse : Token → State → Outcome (Value F)} {item : Bytes → Value F → Bytes → Prop}

section Values

variable {stringToDouble : Bytes → Option F} {options : Options}

theorem LoopReads.container {α : Type} {trailingCommas : Bool} {item : Bytes → α → Bytes → Prop}
    {close : UInt8} {vs : List α} (h : LoopReads trailingCommas item close (dropGap r) vs r') :
    ContainerReads trailingCommas item close r vs r' := by
  obtain ⟨hclose, rfl⟩ | h := h
  · exact .empty hclose
  · exact .items h

section

variable (hparse : Sound input parse item)
include hparse

theorem consumeList_parsed (hsync : s.index = s.pos)
    (htoken : headToken (input.rest s.pos) = .arrayBegin)
    (h : input.consumeList options (some parse) s = .ok (v, s')) :
    Parsed input (ValueReads stringToDouble hexStringToInt options.allowTrailingCommas item)
      s s' v := by
  obtain ⟨r, hr⟩ := head_of_token htoken nofun fun c => (tokenOf_inj c).2.2.1
  have hcut : ¬CutShort (input.rest s.pos) (input.mem input.length) := by
    intro hcut
    rw [hcut.headToken] at htoken
    cases htoken
  unfold consumeList at h
  split at h
  · cases h
  · cases hnext : input.getNextToken s.nextChar with
    | mk token s₁ =>
      rw [hnext] at h
      obtain ⟨hs₁, hlt, hrest, rfl⟩ := getNextToken_after hsync hnext
      rw [(mem_of_rest hr).2] at hrest
      obtain ⟨vs, r', rfl, hloop, hends⟩ := listLoop_sound hparse hs₁ h
      refine ⟨.inl ⟨r', ?_, hends.after (by omega)⟩, hcut⟩
      rw [hr, List.nil_append]
      rw [hrest] at hloop
      exact .list hloop.container

theorem consumeDictionary_parsed (hsync : s.index = s.pos)
    (htoken : headToken (input.rest s.pos) = .objectBegin)
    (h : input.consumeDictionary options (some parse) s = .ok (v, s')) :
    Parsed input (ValueReads stringToDouble hexStringToInt options.allowTrailingCommas item)
      s s' v := by
  obtain ⟨r, hr⟩ := head_of_token htoken nofun fun c => (tokenOf_inj c).1
  have hcut : ¬CutShort (input.rest s.pos) (input.mem input.length) := by
    intro hcut
    rw [hcut.headToken] at htoken
    cases htoken
  unfold consumeDictionary at h
  split at h
  · cases h
  · cases hnext : input.getNextToken s.nextChar with
    | mk token s₁ =>
      rw [hnext] at h
      obtain ⟨hs₁, hlt, hrest, rfl⟩ := getNextToken_after hsync hnext
      rw [(mem_of_rest hr).2] at hrest
      obtain ⟨members, r', rfl, hloop, hends⟩ := dictionaryLoop_sound hparse hs₁ h
      refine ⟨.inl ⟨r', ?_, hends.after (by omega)⟩, hcut⟩
      rw [hr]
      rw [hrest] at hloop
      exact .dictionary hloop.container

end

/-- What ParseToken returns is read by the grammar, or lacks its last byte. -/
theorem parseToken_parsed (levels : Nat) {s s' : State} {v : Value F} (hsync : s.index = s.pos)
    (h : input.parseToken stringToDouble options levels (headToken (input.rest s.pos)) s =
      .ok (v, s')) :
    Parsed input (Reads stringToDouble hexStringToInt options.allowTrailingCommas levels)
      s s' v := by
  induction levels generalizing s s' v with
  | zero =>
    apply parseScalar_parsed hsync _ _ h
    · intro htoken
      rw [htoken] at h
      unfold parseToken parseTokenWith consumeDictionary at h
      dsimp only at h
      split at h <;> cases h
    · intro htoken
      rw [htoken] at h
      unfold parseToken parseTokenWith consumeList at h
      dsimp only at h
      split at h <;> cases h
  | succ levels ih =>
    by_cases hobject : headToken (input.rest s.pos) = .objectBegin
    · rw [hobject] at h
      exact consumeDictionary_parsed ih hsync hobject h
    · by_cases harray : headToken (input.rest s.pos) = .arrayBegin
      · rw [harray] at h
        exact consumeList_parsed ih hsync harray h
      · have hparsed := parseScalar_parsed hsync hobject harray h
        refine ⟨?_, hparsed.notCutShort⟩
        obtain ⟨r, hscalar, hends⟩ | hbehind := hparsed.ends
        · exact .inl ⟨r, .scalar hscalar, hends⟩
        · exact .inr hbehind

theorem parseToken_close (levels : Nat) (s : State) :
    ∃ e, input.parseToken stringToDouble options levels .arrayEnd s = .error e := by
  cases levels <;> exact ⟨_, rfl⟩

/-- ParseToken returns what the grammar reads, unless it is a number that the byte behind the
input goes on with. -/
theorem parseToken_reads (levels : Nat) (hsync : s.index = s.pos)
    (h : Reads stringToDouble hexStringToInt options.allowTrailingCommas levels
      (input.rest s.pos) v r)
    (hend : r = [] → ¬CutShort (input.rest s.pos) (input.mem input.length)) :
    Parses input (input.parseToken stringToDouble options levels) s v r := by
  induction levels generalizing s v r with
  | zero => exact parseScalar_reads hsync h hend
  | succ levels ih =>
    generalize hrest : input.rest s.pos = text at h
    have hfuel : ∀ {s₁ : State}, input.length < input.length + 1 + s₁.pos := by omega
    cases h with
    | scalar hscalar =>
      rw [← hrest] at hscalar
      exact parseScalar_reads hsync hscalar hend
    | list hcontainer =>
      rename_i r₀ vs
      obtain ⟨s₁, hnext, hs₁, hlt, hrest₁⟩ :=
        (ends_here hsync hrest ⟨rfl, by decide⟩).nextToken
      have hopen : input.cur s = openBracket := (mem_of_rest hrest).1
      obtain ⟨s', hloop, hends⟩ : ∃ s', input.listLoop options
          (input.parseToken stringToDouble options levels) (input.length + 1)
          (headToken (input.rest s₁.pos)) s₁ [] = .ok (.list vs, s') ∧ Ends input s₁ s' r := by
        cases hcontainer with
        | empty hclose =>
          rw [hclose] at hrest₁
          exact ⟨s₁, listLoop_close hrest₁ hfuel, ends_here hs₁ hrest₁ solid_close.1⟩
        | items hitems =>
          have hloop := @listLoop_reads input F options _ _ ih (parseToken_close levels) r vs _
            hitems (input.length + 1) s₁ [] hs₁ hrest₁ hfuel
          rwa [List.nil_append] at hloop
      refine ⟨s', ?_, hends.after (by omega)⟩
      rw [hrest, show headToken (openBracket :: r₀) = .arrayBegin from rfl]
      show input.consumeList options (some (input.parseToken stringToDouble options levels)) s = _
      rw [consumeList, if_neg (not_not.mpr hopen)]
      rw [hnext]
      exact hloop
    | dictionary hcontainer =>
      rename_i r₀ members
      obtain ⟨s₁, hnext, hs₁, hlt, hrest₁⟩ :=
        (ends_here hsync hrest ⟨rfl, by decide⟩).nextToken
      have hopen : input.cur s = openBrace := (mem_of_rest hrest).1
      obtain ⟨s', hloop, hends⟩ : ∃ s', input.dictionaryLoop options
          (input.parseToken stringToDouble options levels) (input.length + 1)
          (headToken (input.rest s₁.pos)) s₁ [] =
            .ok (.dictionary (setAll members []), s') ∧ Ends input s₁ s' r := by
        cases hcontainer with
        | empty hclose =>
          rw [hclose] at hrest₁
          exact ⟨s₁, dictionaryLoop_close hrest₁ hfuel, ends_here hs₁ hrest₁ solid_close.2⟩
        | items hitems => exact dictionaryLoop_reads ih hitems hs₁ hrest₁ hfuel
      refine ⟨s', ?_, hends.after (by omega)⟩
      rw [hrest, show headToken (openBrace :: r₀) = .objectBegin from rfl]
      show input.consumeDictionary options
        (some (input.parseToken stringToDouble options levels)) s = _
      rw [consumeDictionary, if_neg (not_not.mpr hopen)]
      rw [hnext]
      exact hloop

end Values

end ChromiumUI.Json
