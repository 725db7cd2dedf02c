import ChromiumUI.JsonOpenTokens

/-!
# Bytes behind the end

Over two buffers with the same bytes in front of the end, Parse does the same, or the text ends
inside a token; there the bytes behind the two texts decide.
-/
namespace ChromiumUI.Json

open ByteMemory Base Input Alike

variable {input input' : Input} {F : Type}

theorem pos_of_rest {p q : Nat} (h : input.rest p = input.rest q) (hlt : p < input.length) :
    p = q := by
  have hlen := congrArg List.length h
  simp only [rest, length_load] at hlen
  omega

variable {s s' : State}

/-- The token behind the same place is the same in both buffers. -/
theorem nextToken_alike (h : Below input input') (hsync : s.index = s.pos)
    (hsync' : s'.index = s'.pos) (hpos : s.pos = s'.pos) :
    ∃ t t', input.getNextToken s.nextChar = (headToken (input.rest t.pos), t) ∧
      input'.getNextToken s'.nextChar = (headToken (input.rest t.pos), t') ∧
      t.index = t.pos ∧ t'.index = t'.pos ∧
      input.rest t.pos = dropGap (input.rest (s.pos + 1)) ∧
      input.rest t.pos = input.rest t'.pos := by
  cases hnext : input.getNextToken s.nextChar with
  | mk token t =>
    cases hnext' : input'.getNextToken s'.nextChar with
    | mk token' t' =>
      obtain ⟨ht, -, hrest, rfl⟩ := getNextToken_after hsync hnext
      obtain ⟨ht', -, hrest', rfl⟩ := getNextToken_after hsync' hnext'
      rw [← h.rest, ← h.rest, ← hpos, ← hrest] at hrest'
      refine ⟨t, t', rfl, ?_, ht, ht', hrest, hrest'.symm⟩
      rw [← h.rest, hrest']

/-- What is known of ParseToken over two buffers, one level down. -/
structure Decides (input input' : Input) (item : Bytes → Value F → Bytes → Prop)
    (openItem : Bytes → Codes → Prop) (parse parse' : Token → State → Outcome (Value F)) :
    Prop where
  alike : ∀ {s s' : State}, s.index = s.pos → s'.index = s'.pos → s.pos = s'.pos →
    s.pos < input.length →
      Alike (parse (headToken (input.rest s.pos)) s) (parse' (headToken (input.rest s.pos)) s') ∨
        ∃ codes, openItem (input.rest s.pos) codes
  parsed : ∀ {s s' : State} {v : Value F}, s.index = s.pos →
    parse (headToken (input.rest s.pos)) s = .ok (v, s') → Parsed input item s s' v
  overruns : ∀ {last : UInt8} {text : Bytes} {v : Value F}, Overruns last text v →
    ∃ codes, openItem text codes
  atEnd : ∀ s s', ∃ e e', parse .endOfInput s = .error e ∧ parse' .endOfInput s' = .error e' ∧
    e.code = e'.code

/-- An item in front of the loop: it fails in both buffers, or the text behind it goes on alike. -/
theorem Decides.item_alike {item : Bytes → Value F → Bytes → Prop} {openItem : Bytes → Codes → Prop}
    {parse parse' : Token → State → Outcome (Value F)}
    (h : Decides input input' item openItem parse parse') (hsync : s.index = s.pos)
    (hsync' : s'.index = s'.pos) (hrest : input.rest s.pos = input.rest s'.pos) :
    (∃ e e', parse (headToken (input.rest s.pos)) s = .error e ∧
        parse' (headToken (input.rest s.pos)) s' = .error e' ∧ e.code = e'.code) ∨
      (∃ codes, openItem (input.rest s.pos) codes) ∨
      ∃ v v' t t' r, parse (headToken (input.rest s.pos)) s = .ok (v, t) ∧
        parse' (headToken (input.rest s.pos)) s' = .ok (v', t') ∧ t.index = t.pos ∧
        t'.index = t'.pos ∧ t.pos = t'.pos ∧ item (input.rest s.pos) v r ∧
        input.rest (t.pos + 1) = r := by
  have hcases {o o' : Outcome (Value F)} (halike : Alike o o') :
      (∃ e e', o = .error e ∧ o' = .error e' ∧ e.code = e'.code) ∨
        ∃ v v' t t', o = .ok (v, t) ∧ o' = .ok (v', t') ∧ t.pos = t'.pos ∧ t.index = t'.index := by
    rcases o with e | ⟨v, t⟩ <;> rcases o' with e' | ⟨v', t'⟩
    · exact .inl ⟨e, e', rfl, rfl, halike⟩
    · exact halike.elim
    · exact halike.elim
    · exact .inr ⟨v, v', t, t', rfl, rfl, halike⟩
  rcases Nat.lt_or_ge s.pos input.length with hlt | hge
  swap
  · rw [rest_of_le hge]
    exact .inl (h.atEnd s s')
  have hpos := pos_of_rest hrest hlt
  obtain halike | hopen := h.alike hsync hsync' hpos hlt
  swap
  · exact .inr (Or.inl hopen)
  rcases hcases halike with herrors | ⟨v, v', t, t', hrun, hrun', hpos', hindex'⟩
  · exact .inl herrors
  obtain ⟨r, hitem, hends⟩ | ⟨-, hover⟩ := (h.parsed hsync hrun).ends
  · have ht' : t'.index = t'.pos := by
      rw [← hindex', ← hpos']
      exact hends.synced
    exact .inr (Or.inr ⟨v, v', t, t', r, hrun, hrun', hends.synced, ht', hpos', hitem,
      hends.rest⟩)
  · exact .inr (Or.inl (h.overruns hover))

section Loops

variable {options : Options} {parse parse' : Token → State → Outcome (Value F)}
  {item : Bytes → Value F → Bytes → Prop} {openItem : Bytes → Codes → Prop}

theorem lt_of_token {p : Nat} {token : Token} (h : headToken (input.rest p) = token)
    (htoken : token ≠ .endOfInput) : p < input.length :=
  pos_lt_of_token (h ▸ htoken)

theorem listLoop_close_alike (fuel : Nat) (hsync : s.index = s.pos) (hsync' : s'.index = s'.pos)
    (hpos : s.pos = s'.pos) (list list' : List (Value F)) :
    Alike (input.listLoop options parse fuel .arrayEnd s list)
      (input'.listLoop options parse' fuel .arrayEnd s' list') := by
  cases fuel with
  | zero => exact errors rfl
  | succ fuel => exact ⟨hpos, by omega⟩

theorem listLoop_alike (hbelow : Below input input')
    (h : Decides input input' item openItem parse parse') (fuel : Nat) (hsync : s.index = s.pos)
    (hsync' : s'.index = s'.pos) (hrest : input.rest s.pos = input.rest s'.pos)
    (list list' : List (Value F)) :
    Alike (input.listLoop options parse fuel (headToken (input.rest s.pos)) s list)
        (input'.listLoop options parse' fuel (headToken (input.rest s.pos)) s' list') ∨
      ∃ codes, OpenItems item openItem (input.rest s.pos) codes := by
  induction fuel generalizing s s' list list' with
  | zero => exact .inl (errors rfl)
  | succ fuel ih =>
    by_cases hclose : headToken (input.rest s.pos) = .arrayEnd
    · have hpos := pos_of_rest hrest (lt_of_token hclose (by rintro ⟨⟩))
      rw [hclose]
      exact .inl (listLoop_close_alike (fuel + 1) hsync hsync' hpos list list')
    rw [listLoop, listLoop, if_neg hclose, if_neg hclose]
    obtain ⟨e, e', hrun, hrun', hcode⟩ | ⟨codes, hopen⟩ |
      ⟨v, v', t, t', r, hrun, hrun', ht, ht', hpos, hitem, hr⟩ :=
        h.item_alike hsync hsync' hrest
    · rw [hrun, hrun']
      exact .inl (errors hcode)
    · exact .inr ⟨codes, .head hopen⟩
    rw [hrun, hrun']
    dsimp only
    obtain ⟨u, u', hnext, hnext', hu, hu', hrestU, hsame⟩ := nextToken_alike hbelow ht ht' hpos
    rw [hnext, hnext']
    cases htoken : headToken (input.rest u.pos) with
    | listSeparator =>
      have hposU := pos_of_rest hsame (lt_of_token htoken (by rintro ⟨⟩))
      obtain ⟨r₂, hr₂⟩ := head_of_token htoken (by rintro ⟨⟩) fun c => (tokenOf_inj c).2.2.2.2.2.1
      obtain ⟨w, w', hnext₂, hnext₂', hw, hw', hrestW, hsameW⟩ :=
        nextToken_alike hbelow hu hu' hposU
      dsimp only
      rw [hnext₂, hnext₂']
      by_cases htrailing : headToken (input.rest w.pos) = .arrayEnd ∧ ¬options.allowTrailingCommas
      · rw [if_pos htrailing, if_pos htrailing]
        exact .inl (errors rfl)
      rw [if_neg htrailing, if_neg htrailing]
      refine (ih hw hw' hsameW _ _).imp_right ?_
      rintro ⟨codes, hopen⟩
      rw [hrestW, (mem_of_rest hr₂).2] at hopen
      exact ⟨codes, .next hitem (by rw [← hr, ← hrestU, hr₂]) hopen⟩
    | arrayEnd =>
      have hposU := pos_of_rest hsame (lt_of_token htoken (by rintro ⟨⟩))
      exact .inl (listLoop_close_alike fuel hu hu' hposU _ _)
    | _ => exact .inl (errors rfl)

theorem dictionaryLoop_close_alike (fuel : Nat) (hsync : s.index = s.pos)
    (hsync' : s'.index = s'.pos) (hpos : s.pos = s'.pos) (dict dict' : List (Bytes × Value F)) :
    Alike (input.dictionaryLoop options parse fuel .objectEnd s dict)
      (input'.dictionaryLoop options parse' fuel .objectEnd s' dict') := by
  cases fuel with
  | zero => exact errors rfl
  | succ fuel => exact ⟨hpos, by omega⟩

theorem dictionaryLoop_alike (hbelow : Below input input')
    (h : Decides input input' item openItem parse parse') (fuel : Nat) (hsync : s.index = s.pos)
    (hsync' : s'.index = s'.pos) (hrest : input.rest s.pos = input.rest s'.pos)
    (dict dict' : List (Bytes × Value F)) :
    Alike (input.dictionaryLoop options parse fuel (headToken (input.rest s.pos)) s dict)
        (input'.dictionaryLoop options parse' fuel (headToken (input.rest s.pos)) s' dict') ∨
      ∃ codes, OpenItems (MemberReads hexStringToInt item) (OpenMember openItem)
        (input.rest s.pos) codes := by
  induction fuel generalizing s s' dict dict' with
  | zero => exact .inl (errors rfl)
  | succ fuel ih =>
    by_cases hclose : headToken (input.rest s.pos) = .objectEnd
    · have hpos := pos_of_rest hrest (lt_of_token hclose (by rintro ⟨⟩))
      rw [hclose]
      exact .inl (dictionaryLoop_close_alike (fuel + 1) hsync hsync' hpos dict dict')
    rw [dictionaryLoop, dictionaryLoop, if_neg hclose, if_neg hclose]
    by_cases hkey : headToken (input.rest s.pos) ≠ .string
    · rw [if_pos hkey, if_pos hkey]
      exact .inl (errors rfl)
    rw [if_neg hkey, if_neg hkey]
    have hlt := lt_of_token (not_not.mp hkey) (by rintro ⟨⟩)
    have hpos := pos_of_rest hrest hlt
    obtain halike | ⟨codes, hopen⟩ := consumeStringRaw_alike hbelow hsync hsync' hpos hlt
    swap
    · exact .inr ⟨codes, .head (.key hopen)⟩
    rcases hraw : input.consumeStringRaw s with e | ⟨b, t⟩ <;>
      rcases hraw' : input'.consumeStringRaw s' with e' | ⟨b', t'⟩ <;> rw [hraw, hraw'] at halike
    · exact .inl (errors halike)
    · exact halike.elim
    · exact halike.elim
    obtain ⟨text, r, hreads, htext, hends⟩ | ⟨-, body, hne, hbody, htext, -⟩ :=
      consumeStringRaw_ends hsync hraw
    swap
    · have hopen := OpenString.mk hbody .plain (show body ++ [] ≠ [] by rwa [List.append_nil])
      rw [List.append_nil, ← htext] at hopen
      exact .inr ⟨_, .head (.key hopen)⟩
    have ht' : t'.index = t'.pos := by
      rw [← halike.2, ← halike.1]
      exact hends.synced
    obtain ⟨u, u', hnext, hnext', hu, hu', hrestU, hsameU⟩ :=
      nextToken_alike hbelow hends.synced ht' halike.1
    dsimp only
    rw [hnext, hnext']
    by_cases hcolon : headToken (input.rest u.pos) ≠ .objectPairSeparator
    · rw [if_pos hcolon, if_pos hcolon]
      exact .inl (errors rfl)
    rw [if_neg hcolon, if_neg hcolon]
    have hcolon := not_not.mp hcolon
    obtain ⟨r₂, hr₂⟩ := head_of_token hcolon (by rintro ⟨⟩) fun c => (tokenOf_inj c).2.2.2.2.2.2.1
    obtain ⟨w, w', hnext₂, hnext₂', hw, hw', hrestW, hsameW⟩ :=
      nextToken_alike hbelow hu hu' (pos_of_rest hsameU (lt_of_token hcolon (by rintro ⟨⟩)))
    rw [hnext₂, hnext₂']
    rw [hends.rest, hr₂] at hrestU
    rw [(mem_of_rest hr₂).2] at hrestW
    obtain ⟨e, e', hrun, hrun', hcode⟩ | ⟨codes, hopen⟩ |
      ⟨v, v', x, x', r₃, hrun, hrun', hx, hx', hposX, hitem, hr₃⟩ :=
        h.item_alike hw hw' hsameW
    · rw [hrun, hrun']
      exact .inl (errors hcode)
    · rw [hrestW] at hopen
      rw [htext]
      exact .inr ⟨codes, .head (.value hreads hrestU.symm hopen)⟩
    rw [hrun, hrun']
    dsimp only
    have hmember : MemberReads hexStringToInt item (input.rest s.pos)
        (b.asString input.mem, v) r₃ := by
      rw [hrestW] at hitem
      rw [htext]
      exact .mk hreads hrestU.symm hitem
    obtain ⟨y, y', hnext₃, hnext₃', hy, hy', hrestY, hsameY⟩ := nextToken_alike hbelow hx hx' hposX
    rw [hnext₃, hnext₃']
    cases htoken : headToken (input.rest y.pos) with
    | listSeparator =>
      obtain ⟨r₄, hr₄⟩ := head_of_token htoken (by rintro ⟨⟩) fun c => (tokenOf_inj c).2.2.2.2.2.1
      obtain ⟨z, z', hnext₄, hnext₄', hz, hz', hrestZ, hsameZ⟩ :=
        nextToken_alike hbelow hy hy' (pos_of_rest hsameY (lt_of_token htoken (by rintro ⟨⟩)))
      dsimp only
      rw [hnext₄, hnext₄']
      by_cases htrailing : headToken (input.rest z.pos) = .objectEnd ∧ ¬options.allowTrailingCommas
      · rw [if_pos htrailing, if_pos htrailing]
        exact .inl (errors rfl)
      rw [if_neg htrailing, if_neg htrailing]
      refine (ih hz hz' hsameZ _ _).imp_right ?_
      rintro ⟨codes, hopen⟩
      rw [hrestZ, (mem_of_rest hr₄).2] at hopen
      exact ⟨codes, .next hmember (by rw [← hr₃, ← hrestY, hr₄]) hopen⟩
    | objectEnd =>
      have hposY := pos_of_rest hsameY (lt_of_token htoken (by rintro ⟨⟩))
      exact .inl (dictionaryLoop_close_alike fuel hy hy' hposY _ _)
    | _ => exact .inl (errors rfl)

end Loops

/-! ## Values and documents -/

section Values

variable {stringToDouble : Bytes → Option F} {options : Options}

theorem Opens.of_scalar {trailingCommas : Bool} {levels : Nat} {text : Bytes} {codes : Codes}
    (h : OpenScalar stringToDouble text codes) :
    Opens stringToDouble trailingCommas levels text codes := by
  cases levels with
  | zero => exact h
  | succ levels => exact OpenValue.scalar h

/-- ParseToken over two buffers does the same, or the text is cut inside a token. -/
theorem parseToken_decides (hbelow : Below input input') (levels : Nat) :
    Decides input input' (Reads stringToDouble hexStringToInt options.allowTrailingCommas levels)
      (Opens stringToDouble options.allowTrailingCommas levels)
      (input.parseToken stringToDouble options levels)
      (input'.parseToken stringToDouble options levels) := by
  have hparsed := @parseToken_parsed input F stringToDouble options
  have hoverruns {levels : Nat} {last : UInt8} {text : Bytes} {v : Value F}
      (hover : Overruns last text v) :
      ∃ codes, Opens stringToDouble options.allowTrailingCommas levels text codes := by
    obtain ⟨codes, hopen⟩ := @Overruns.openScalar F stringToDouble last text v hover
    exact ⟨codes, .of_scalar hopen⟩
  induction levels with
  | zero =>
    refine ⟨fun {s s'} hsync hsync' hpos hlt => ?_, hparsed 0, hoverruns, fun s s' =>
      ⟨_, _, rfl, rfl, rfl⟩⟩
    have hcur : input.cur s = input'.cur s' :=
      (hbelow.same _ hlt).trans (congrArg input'.mem hpos)
    by_cases hobject : headToken (input.rest s.pos) = .objectBegin
    · left
      rw [hobject]
      show Alike (input.consumeDictionary options none s) (input'.consumeDictionary options none s')
      unfold consumeDictionary
      rw [← hcur]
      split <;> exact errors rfl
    by_cases harray : headToken (input.rest s.pos) = .arrayBegin
    · left
      rw [harray]
      show Alike (input.consumeList options none s) (input'.consumeList options none s')
      unfold consumeList
      rw [← hcur]
      split <;> exact errors rfl
    exact parseScalar_alike hbelow hobject harray hsync hsync' hpos hlt
  | succ levels ih =>
    refine ⟨fun {s s'} hsync hsync' hpos hlt => ?_, hparsed (levels + 1), hoverruns, fun s s' =>
      ⟨_, _, rfl, rfl, rfl⟩⟩
    have hcur : input.cur s = input'.cur s' :=
      (hbelow.same _ hlt).trans (congrArg input'.mem hpos)
    obtain ⟨t, t', hnext, hnext', ht, ht', hrest, hsame⟩ :=
      nextToken_alike hbelow hsync hsync' hpos
    by_cases hobject : headToken (input.rest s.pos) = .objectBegin
    · obtain ⟨r, hr⟩ := head_of_token hobject nofun fun c => (tokenOf_inj c).1
      have hopen : input.cur s = openBrace := (mem_of_rest hr).1
      rw [hobject]
      show Alike
        (input.consumeDictionary options (some (input.parseToken stringToDouble options levels)) s)
        (input'.consumeDictionary options (some (input'.parseToken stringToDouble options levels))
          s') ∨ _
      unfold consumeDictionary
      rw [← hcur, if_neg (not_not.mpr hopen), if_neg (not_not.mpr hopen)]
      rw [hnext, hnext', ← hbelow.length]
      refine (dictionaryLoop_alike hbelow ih _ ht ht' hsame [] []).imp_right ?_
      rintro ⟨codes, hcodes⟩
      rw [hrest, (mem_of_rest hr).2] at hcodes
      rw [hr]
      exact ⟨_, OpenValue.dictionary hcodes⟩
    by_cases harray : headToken (input.rest s.pos) = .arrayBegin
    · obtain ⟨r, hr⟩ := head_of_token harray nofun fun c => (tokenOf_inj c).2.2.1
      have hopen : input.cur s = openBracket := (mem_of_rest hr).1
      rw [harray]
      show Alike
        (input.consumeList options (some (input.parseToken stringToDouble options levels)) s)
        (input'.consumeList options (some (input'.parseToken stringToDouble options levels))
          s') ∨ _
      unfold consumeList
      rw [← hcur, if_neg (not_not.mpr hopen), if_neg (not_not.mpr hopen)]
      rw [hnext, hnext', ← hbelow.length]
      refine (listLoop_alike hbelow ih _ ht ht' hsame [] []).imp_right ?_
      rintro ⟨codes, hcodes⟩
      rw [hrest, (mem_of_rest hr).2] at hcodes
      rw [hr]
      exact ⟨_, OpenValue.list hcodes⟩
    refine (parseScalar_alike hbelow hobject harray hsync hsync' hpos hlt).imp_right ?_
    rintro ⟨codes, hcodes⟩
    exact ⟨codes, OpenValue.scalar hcodes⟩

theorem Below.root (h : Below input input') : input.root = input'.root := by
  unfold Input.root
  rw [h.rest]

theorem atEnd_code {e : ParseError} (h : input.atEnd s = .error e) :
    e.code = .unexpectedDataAfterRoot := by
  unfold atEnd at h
  split at h
  · cases h
  · split at h
    · cases h
      rfl
    · split at h
      · cases h
      · cases h
        rfl

/-- The options of a parse whose children are detachable: the buffer itself is parsed. -/
abbrev detachable (allowTrailingCommas : Bool) : Options := ⟨allowTrailingCommas, true⟩

variable {trailingCommas : Bool}

/-- The same value, or the same error code. -/
def SameResult : Except ParseError (Value F) → Except ParseError (Value F) → Prop
  | .error e, .error e' => e.code = e'.code
  | .ok v, .ok v' => v = v'
  | _, _ => False

/-- The error code of a result; none of a value. -/
def resultCode : Except ParseError (Value F) → Option ErrorCode
  | .error e => some e.code
  | .ok _ => none

theorem SameResult.resultCode {r r' : Except ParseError (Value F)} (h : SameResult r r') :
    resultCode r = resultCode r' := by
  cases r with
  | error e =>
    cases r' with
    | error e' => exact congrArg some h
    | ok v' => exact h.elim
  | ok v =>
    cases r' with
    | error e' => exact h.elim
    | ok v' => rfl

theorem sameResult_of_code {r r' : Except ParseError (Value F)}
    (hcode : resultCode r = resultCode r') (hvalue : ∀ {v v'}, r = .ok v → r' = .ok v' → v = v') :
    SameResult r r' := by
  cases r with
  | error e =>
    cases r' with
    | error e' => exact Option.some.inj hcode
    | ok v' => cases hcode
  | ok v =>
    cases r' with
    | error e' => cases hcode
    | ok v' => exact hvalue rfl rfl

/-- Where the root is cut inside a token, the byte behind it decides what Parse returns. -/
theorem parse_answers {codes : Codes}
    (h : Opens stringToDouble trailingCommas (kStackMaxDepth - 1) input.root codes) :
    resultCode (parse stringToDouble (detachable trailingCommas) input) =
      codes (input.mem input.length) := by
  obtain ⟨s, hroot, hs, hrest⟩ := @root_token input
  rw [← hrest] at h hroot
  have hrun := @Opens.answers input F stringToDouble (detachable trailingCommas) _ _ _ hs h
  unfold Answers at hrun
  unfold parse
  dsimp only [inputFor]
  rw [if_pos rfl, hroot]
  cases hcode : codes (input.mem input.length) with
  | some code =>
    rw [hcode] at hrun
    obtain ⟨e, he, hecode⟩ := hrun
    rw [he]
    exact congrArg some hecode
  | none =>
    rw [hcode] at hrun
    obtain ⟨v, t, hv, -, hend⟩ := hrun
    have hatEnd : input.atEnd t = .ok () := by
      obtain ⟨r, -, hends⟩ | ⟨hends, -⟩ := (parseToken_parsed _ hs hv).ends
      · rw [hends.atEnd_iff, ← hends.rest, rest_of_le hend, dropGap_nil]
      · exact hends.atEnd
    rw [hv]
    dsimp only
    rw [hatEnd]
    rfl

theorem CutShort.opens {levels : Nat} {text : Bytes} {b : UInt8} (h : CutShort text b) :
    ∃ codes, Opens stringToDouble trailingCommas levels text codes := by
  obtain ⟨num, rfl, hgoes⟩ := h
  exact ⟨_, .of_scalar (.number num hgoes.1)⟩

/-- Where the root is not cut inside a token, the grammar alone decides. -/
theorem parse_ok_of_not_open
    (hno : ¬∃ codes, Opens stringToDouble trailingCommas (kStackMaxDepth - 1) input.root codes)
    {v : Value F} : parse stringToDouble (detachable trailingCommas) input = .ok v ↔
      RootReads stringToDouble (detachable trailingCommas) input.root v := by
  rw [parse_ok_iff]
  constructor
  · rintro (⟨hreads, -⟩ | hover)
    · exact hreads
    · obtain ⟨codes, hopen⟩ := @Overruns.openScalar F stringToDouble _ _ _ hover
      exact absurd ⟨codes, .of_scalar hopen⟩ hno
  · exact fun hreads => .inl ⟨hreads, fun hcut => hno hcut.opens⟩

/-- Two errors have one code, or the root is cut inside a token. -/
theorem parse_errors_alike (hbelow : Below input input') {e e' : ParseError}
    (he : parse stringToDouble (detachable trailingCommas) input = .error e)
    (he' : parse stringToDouble (detachable trailingCommas) input' = .error e') :
    e.code = e'.code ∨
      ∃ codes, Opens stringToDouble trailingCommas (kStackMaxDepth - 1) input.root codes := by
  obtain ⟨s, hroot, hs, hrest⟩ := @root_token input
  obtain ⟨s', hroot', hs', hrest'⟩ := @root_token input'
  rw [← hbelow.rest, ← hbelow.root] at hrest'
  rw [← hbelow.root] at hroot'
  have hdecides := @parseToken_decides input input' F stringToDouble (detachable trailingCommas)
    hbelow (kStackMaxDepth - 1)
  unfold parse at he he'
  dsimp only [inputFor] at he he'
  rw [if_pos rfl, hroot] at he
  rw [if_pos rfl, hroot'] at he'
  have hitem := hdecides.item_alike hs hs' (hrest.trans hrest'.symm)
  rw [hrest] at hitem
  obtain ⟨e₁, e₁', hrun, hrun', hcode⟩ | hopen | ⟨v, v', t, t', r, hrun, hrun', -⟩ := hitem
  · rw [hrun] at he
    rw [hrun'] at he'
    cases he
    cases he'
    exact .inl hcode
  · exact .inr hopen
  · rw [hrun] at he
    rw [hrun'] at he'
    dsimp only at he he'
    left
    cases hend : input.atEnd t with
    | ok _ => rw [hend] at he; cases he
    | error e₂ =>
      cases hend' : input'.atEnd t' with
      | ok _ => rw [hend'] at he'; cases he'
      | error e₂' =>
        rw [hend] at he
        rw [hend'] at he'
        cases he
        cases he'
        exact (atEnd_code hend).trans (atEnd_code hend').symm

/-- A text tells the byte that it lacks. -/
theorem Overruns.last {last last' : UInt8} {text : Bytes} {v v' : Value F}
    (h : Overruns last text v) (h' : Overruns last' text v') : last = last' := by
  have hword {word : Bytes} {value : Value F} (h : (word, value) ∈ words) :
      word.dropLast.head? ≠ some quote ∧ word.getLast? =
        some (if word.dropLast.head? = some 0x6e then 0x6c else letterE) := by
    simp only [words, List.mem_cons, Prod.mk.injEq, List.not_mem_nil, or_false] at h
    obtain ⟨rfl, -⟩ | ⟨rfl, -⟩ | ⟨rfl, -⟩ := h <;> decide
  generalize htext : text = text' at h'
  cases h with
  | string _ _ hlast =>
    cases h' with
    | string _ _ hlast' => exact hlast.trans hlast'.symm
    | word hmem _ =>
      have hne := (hword hmem).1
      rw [← htext] at hne
      exact absurd rfl hne
  | word hmem hlast =>
    cases h' with
    | string _ _ _ =>
      have hne := (hword hmem).1
      rw [htext] at hne
      exact absurd rfl hne
    | word hmem' hlast' =>
      have hfirst := (hword hmem).2
      have hsecond := (hword hmem').2
      rw [htext, hlast] at hfirst
      rw [hlast'] at hsecond
      exact Option.some.inj (hfirst.trans hsecond.symm)

/-- Two values that are both returned are one. -/
theorem parse_values_alike (hbelow : Below input input') {v v' : Value F}
    (hv : parse stringToDouble (detachable trailingCommas) input = .ok v)
    (hv' : parse stringToDouble (detachable trailingCommas) input' = .ok v') : v = v' := by
  have hroot := hbelow.root
  have hreturns {i i' : Input} (hroot : i.root = i'.root) {w w' : Value F}
      (hw : parse stringToDouble (detachable trailingCommas) i = .ok w)
      (hcut : ¬CutShort i.root (i.mem i.length))
      (hreads' : RootReads stringToDouble (detachable trailingCommas) i'.root w') : w = w' := by
    have hother := (@parse_ok_iff i F stringToDouble (detachable trailingCommas) w').mpr
      (Or.inl ⟨hroot ▸ hreads', hcut⟩)
    rw [hw] at hother
    exact Except.ok.inj hother
  obtain ⟨hreads, hcut⟩ | hover := parse_ok_iff.mp hv
  · obtain ⟨hreads', -⟩ | hover' := parse_ok_iff.mp hv'
    · exact hreturns hroot hv hcut hreads'
    · have hreads' : RootReads stringToDouble (detachable trailingCommas) input'.root v :=
        hroot ▸ hreads
      exact absurd hover' (@RootReads.not_overruns input' F stringToDouble
        (detachable trailingCommas) v v' hreads')
  · obtain ⟨hreads', -⟩ | hover' := parse_ok_iff.mp hv'
    · have hreads : RootReads stringToDouble (detachable trailingCommas) input.root v' :=
        hroot ▸ hreads'
      exact absurd hover (@RootReads.not_overruns input F stringToDouble
        (detachable trailingCommas) v' v hreads)
    · -- Both roots lack the same byte, so it stands behind both.
      have hsame : Overruns (input'.mem input'.length) input.root v := by
        have hother : Overruns (input'.mem input'.length) input.root v' := hroot ▸ hover'
        exact hover.last hother ▸ hover
      have hother := (@parse_ok_iff input' F stringToDouble (detachable trailingCommas) v).mpr
        (Or.inr (hroot ▸ hsame))
      rw [hv'] at hother
      exact (Except.ok.inj hother).symm

theorem parse_codes_of_not_open (hbelow : Below input input')
    (hno : ¬∃ codes, Opens stringToDouble trailingCommas (kStackMaxDepth - 1) input.root codes) :
    resultCode (parse stringToDouble (detachable trailingCommas) input) =
      resultCode (parse stringToDouble (detachable trailingCommas) input') := by
  have hno' : ¬∃ codes,
      Opens stringToDouble trailingCommas (kStackMaxDepth - 1) input'.root codes := by
    rw [← hbelow.root]
    exact hno
  cases hrun : parse stringToDouble (detachable trailingCommas) input with
  | ok v =>
    have hreads := (parse_ok_of_not_open hno).mp hrun
    rw [hbelow.root] at hreads
    rw [(parse_ok_of_not_open hno').mpr hreads]
  | error e =>
    cases hrun' : parse stringToDouble (detachable trailingCommas) input' with
    | ok v' =>
      have hreads := (parse_ok_of_not_open hno').mp hrun'
      rw [← hbelow.root] at hreads
      have hother := (parse_ok_of_not_open hno).mpr hreads
      rw [hrun] at hother
      cases hother
    | error e' =>
      obtain hcode | hopen := parse_errors_alike hbelow hrun hrun'
      · exact congrArg some hcode
      · exact absurd hopen hno

end Values

end ChromiumUI.Json
