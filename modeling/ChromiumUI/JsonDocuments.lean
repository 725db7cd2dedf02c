import ChromiumUI.JsonContainers

/-!
# What Parse accepts

The root of an input is what stands behind a byte order mark and a gap. Parse returns a value when
the grammar reads the root and leaves a gap, with two exceptions at the end of the input: a number
there that the next byte would go on with is refused, and a string literal or a word that lacks
its last byte is accepted when that byte stands right behind the input.
-/
namespace ChromiumUI.Json

open ByteMemory Base List

variable {input : Input}

def dropByteOrderMark : Bytes → Bytes
  | 0xef :: 0xbb :: 0xbf :: r => r
  | r => r

/-- The bytes from the first token on. -/
def Input.root (input : Input) : Bytes := dropGap (dropByteOrderMark (input.rest 0))

theorem skipByteOrderMark_rest {s : State} (hsync : s.index = s.pos) :
    (input.skipByteOrderMark s).index = (input.skipByteOrderMark s).pos ∧
      input.rest (input.skipByteOrderMark s).pos = dropByteOrderMark (input.rest s.pos) := by
  unfold Input.skipByteOrderMark
  split
  · rename_i hmark
    refine ⟨?_, ?_⟩
    · rw [State.nextNChars_index, State.nextNChars_pos, hsync]
    · have hrest := rest_append [0xef, 0xbb, 0xbf] hmark.2 hmark.1
      rw [hrest]
      rfl
  · rename_i hmark
    refine ⟨hsync, ?_⟩
    generalize hrest : input.rest s.pos = text
    unfold dropByteOrderMark
    split
    · rename_i r
      have hload := (load_of_rest (s := [0xef, 0xbb, 0xbf]) hrest).1
      have hle := le_of_rest (s := [0xef, 0xbb, 0xbf]) hrest (by simp)
      exact absurd ⟨hle, hload⟩ hmark
    · rfl

/-- Where ParseToken begins. -/
theorem root_token : ∃ s, input.getNextToken (input.skipByteOrderMark ⟨0, 0, 1, 0⟩) =
    (headToken input.root, s) ∧ s.index = s.pos ∧ input.rest s.pos = input.root := by
  obtain ⟨hsync, hrest⟩ := @skipByteOrderMark_rest input ⟨0, 0, 1, 0⟩ rfl
  obtain ⟨⟨hleft, hs, -⟩, htoken⟩ := getNextToken_leaves hsync
  rw [hrest] at hleft htoken
  exact ⟨_, Prod.ext htoken rfl, hs, hleft⟩

/-- The check behind the root, with the cursor on its last byte. -/
theorem Ends.atEnd_iff {s s' : State} {r : Bytes} (h : Ends input s s' r) :
    input.atEnd s' = .ok () ↔ dropGap r = [] := by
  have hhere : dropGap (input.rest s'.pos) = input.rest s'.pos := by
    rw [rest_of_lt h.lt, dropGap_here h.black h.noSlash]
  obtain ⟨⟨hleft, hs, hle⟩, htoken⟩ := @getNextToken_leaves input s' h.synced
  rw [hhere] at hleft htoken
  unfold Input.atEnd
  cases hnext : input.getNextToken s' with
  | mk token t =>
    rw [hnext] at hleft hs hle htoken
    dsimp only at hleft hs hle htoken
    have hpos : t.pos = s'.pos := by
      have hlen := congrArg length hleft
      simp only [Input.rest, length_load] at hlen
      have := h.lt
      omega
    have hroom : input.canConsume t 1 := by
      have := h.lt
      omega
    have hmore : token ≠ .endOfInput := by
      rw [htoken, rest_of_lt h.lt]
      exact (tokenOf_inj _).2.2.2.2.2.2.2
    cases hnext' : input.getNextToken t.nextChar with
    | mk token' t' =>
      obtain ⟨-, -, hrest', htoken'⟩ := getNextToken_after hs hnext'
      rw [hpos, h.rest] at hrest'
      have hend : token' = .endOfInput ↔ dropGap r = [] := by
        rw [htoken', hrest']
        cases dropGap r with
        | nil => exact ⟨fun _ => rfl, fun _ => rfl⟩
        | cons b r' =>
          constructor
          · intro htoken
            exact absurd htoken (tokenOf_inj b).2.2.2.2.2.2.2
          · rintro ⟨⟩
      rw [← hend]
      cases token with
      | endOfInput => exact absurd rfl hmore
      | _ =>
        dsimp only
        rw [if_neg (not_not.mpr hroom), hnext']
        cases token' <;> simp

theorem EndsBehind.atEnd {s : State} (h : EndsBehind input s) : input.atEnd s = .ok () := by
  obtain ⟨⟨hleft, -, -⟩, htoken⟩ := @getNextToken_leaves input s h.synced
  rw [rest_of_le (by rw [h.pos]), dropGap_nil] at htoken
  unfold Input.atEnd
  cases hnext : input.getNextToken s with
  | mk token t =>
    rw [hnext] at htoken
    obtain rfl : token = .endOfInput := htoken
    rfl

variable {F : Type} {stringToDouble : Bytes → Option F} {options : Options}

theorem Overruns.not_cutShort {last b : UInt8} {text : Bytes} {v : Value F}
    (h : Overruns last text v) : ¬CutShort text b := by
  intro hcut
  have htoken := hcut.headToken
  cases h with
  | string => cases htoken
  | word hword => exact (word_facts hword).2.2.2 htoken

/-- A value that lacks its last byte is returned all the same. -/
theorem parseToken_overruns {levels : Nat} {s : State} {v : Value F} (hsync : s.index = s.pos)
    (h : Overruns (input.mem input.length) (input.rest s.pos) v) :
    ∃ s', input.parseToken stringToDouble options levels (headToken (input.rest s.pos)) s =
      .ok (v, s') ∧ EndsBehind input s' := by
  generalize hrest : input.rest s.pos = text at h
  have hlen := congrArg length hrest
  simp only [Input.rest, length_load] at hlen
  cases h with
  | string hne hbody hlast =>
    rename_i body d
    have hbodyLength := length_pos_iff.mpr hne
    rw [length_cons] at hlen
    obtain ⟨hopen, htail⟩ := mem_of_rest hrest
    have hload := (load_of_rest (r := []) (htail.trans (append_nil body).symm)).1
    obtain ⟨b, s', hraw, hd, hpos, hindex⟩ := consumeStringRaw_complete hsync hbody hopen hload
      (by rw [show s.pos + 1 + body.length = input.length by omega, hlast]) (by omega) (by omega)
    refine ⟨s', ?_, by rw [hpos]; omega, hindex.trans hpos.symm⟩
    have hstr : input.consumeString (F := F) s = .ok (.string d, s') := by
      rw [Input.consumeString, hraw]
      dsimp only
      rw [hd]
    cases levels <;> exact hstr
  | word hword hlast =>
    rename_i word
    obtain ⟨hne, -, -, -⟩ := word_facts hword
    have hlong : 1 < word.length := by
      simp only [words, mem_cons, Prod.mk.injEq, not_mem_nil, or_false] at hword
      obtain ⟨rfl, -⟩ | ⟨rfl, -⟩ | ⟨rfl, -⟩ := hword <;> decide
    have hdrop : word.dropLast.length = word.length - 1 := length_dropLast
    have hload := (load_of_rest (r := []) (hrest.trans (append_nil _).symm)).1
    have hwhole : load input.mem s.pos word.length = word := by
      rw [show word.length = word.dropLast.length + 1 by omega, StringBuilder.load_succ, hload,
        show s.pos + word.dropLast.length = input.length by omega]
      exact dropLast_append_getLast? _ hlast
    have hhead : word.head? = some (input.cur s) := by
      rw [← hwhole, show word.length = word.length - 1 + 1 by omega]
      rfl
    refine ⟨s.nextNChars (word.length - 1), ?_, ?_, ?_⟩
    · have hrun : input.consumeLiteral s = .ok (v, s.nextNChars (word.length - 1)) := by
        rw [consumeLiteral_word hword hhead]
        refine if_pos ⟨?_, hwhole⟩
        omega
      simp only [words, mem_cons, Prod.mk.injEq, not_mem_nil, or_false] at hword
      obtain ⟨rfl, -⟩ | ⟨rfl, -⟩ | ⟨rfl, -⟩ := hword <;> cases levels <;> exact hrun
    · rw [State.nextNChars_pos]
      omega
    · rw [State.nextNChars_index, State.nextNChars_pos, hsync]

/-! ## Parse -/

/-- The root is read by the grammar, and leaves a gap. -/
def RootReads (stringToDouble : Bytes → Option F) (options : Options) (root : Bytes)
    (v : Value F) : Prop :=
  ∃ r, Reads stringToDouble hexStringToInt options.allowTrailingCommas (kStackMaxDepth - 1) root v
    r ∧ dropGap r = []

theorem parse_of_token {v : Value F} {s s' : State}
    (hroot : (inputFor options input).getNextToken
      ((inputFor options input).skipByteOrderMark ⟨0, 0, 1, 0⟩) =
        (headToken (inputFor options input).root, s))
    (hrun : (inputFor options input).parseToken stringToDouble options (kStackMaxDepth - 1)
      (headToken (inputFor options input).root) s = .ok (v, s'))
    (hend : (inputFor options input).atEnd s' = .ok ()) :
    parse stringToDouble options input = .ok v := by
  unfold parse
  dsimp only
  rw [hroot]
  rw [hrun]
  dsimp only
  rw [hend]

/-- Parse returns exactly the roots that the grammar reads, and those that lack a last byte which
stands behind the input. -/
theorem parse_ok_iff {v : Value F} : parse stringToDouble options input = .ok v ↔
    RootReads stringToDouble options (inputFor options input).root v ∧
        ¬CutShort (inputFor options input).root ((inputFor options input).mem input.length) ∨
      Overruns ((inputFor options input).mem input.length) (inputFor options input).root v := by
  have hlen : (inputFor options input).length = input.length := by
    unfold inputFor
    split <;> rfl
  obtain ⟨s, hroot, hs, hrest⟩ := @root_token (inputFor options input)
  constructor
  · intro h
    unfold parse at h
    dsimp only at h
    rw [hroot] at h
    split at h
    · cases h
    · rename_i root s' hrun
      split at h
      · cases h
      · rename_i hend
        obtain rfl := Except.ok.inj h
        rw [← hrest] at hrun
        obtain ⟨hends, hcut⟩ := parseToken_parsed (kStackMaxDepth - 1) hs hrun
        rw [hrest, hlen] at hends hcut
        obtain ⟨r, hreads, hends⟩ | ⟨-, hover⟩ := hends
        · exact Or.inl ⟨⟨r, hreads, hends.atEnd_iff.mp hend⟩, hcut⟩
        · exact Or.inr hover
  · rintro (⟨⟨r, hreads, hgap⟩, hcut⟩ | hover)
    · rw [← hrest] at hreads
      rw [← hrest, ← hlen] at hcut
      obtain ⟨s', hrun, hends⟩ := parseToken_reads (kStackMaxDepth - 1) hs hreads fun _ => hcut
      rw [hrest] at hrun
      exact parse_of_token hroot hrun (hends.atEnd_iff.mpr hgap)
    · rw [← hrest, ← hlen] at hover
      obtain ⟨s', hrun, hends⟩ := @parseToken_overruns (inputFor options input) F stringToDouble
        options (kStackMaxDepth - 1) s v hs hover
      rw [hrest] at hrun
      exact parse_of_token hroot hrun hends.atEnd

/-- What lacks its last byte is not read by the grammar. -/
theorem RootReads.not_overruns {v w : Value F}
    (h : RootReads stringToDouble options (inputFor options input).root v) :
    ¬Overruns ((inputFor options input).mem input.length) (inputFor options input).root w := by
  intro hover
  have hlen : (inputFor options input).length = input.length := by
    unfold inputFor
    split <;> rfl
  obtain ⟨s, -, hs, hrest⟩ := @root_token (inputFor options input)
  obtain ⟨r, hreads, -⟩ := h
  have hcut := @Overruns.not_cutShort F _ ((inputFor options input).mem input.length) _ _ hover
  rw [← hrest] at hreads hcut hover
  rw [← hlen] at hcut hover
  obtain ⟨s', hrun, hends⟩ := parseToken_reads (kStackMaxDepth - 1) hs hreads fun _ => hcut
  obtain ⟨s'', hrun', hends'⟩ := @parseToken_overruns (inputFor options input) F stringToDouble
    options (kStackMaxDepth - 1) s w hs hover
  rw [hrun] at hrun'
  obtain ⟨-, rfl⟩ := Prod.mk.inj (Except.ok.inj hrun')
  exact absurd hends'.pos hends.lt.ne

/-! ## The values of documents

What Parse returns lists the keys of its dictionaries in their order, and its doubles are what
StringToDouble returned. -/

/-- Every dictionary lists its keys in their order, each once, and the doubles are among some. -/
inductive Value.Ordered {F : Type} (doubles : F → Prop) : Value F → Prop
  | null : Ordered doubles .null
  | boolean (value : Bool) : Ordered doubles (.boolean value)
  | integer (value : Int) : Ordered doubles (.integer value)
  | double {value : F} (h : doubles value) : Ordered doubles (.double value)
  | string (value : Bytes) : Ordered doubles (.string value)
  | list {values : List (Value F)} (h : ∀ value ∈ values, Ordered doubles value) :
      Ordered doubles (.list values)
  | dictionary {entries : List (Bytes × Value F)}
      (hsorted : entries.Pairwise fun a b => a.1 < b.1)
      (h : ∀ entry ∈ entries, Ordered doubles entry.2) : Ordered doubles (.dictionary entries)

variable {F : Type} {stringToDouble : Bytes → Option F} {operand : Bytes → Option Int}
  {trailingCommas : Bool} {doubles : F → Prop}

theorem mem_setWithoutPathExpansion {V : Type} {key : Bytes} {value : V}
    {dict : List (Bytes × V)} {entry : Bytes × V}
    (h : entry ∈ setWithoutPathExpansion key value dict) : entry = (key, value) ∨ entry ∈ dict := by
  induction dict with
  | nil => exact Or.inl (mem_singleton.mp h)
  | cons other dict ih =>
    rw [setWithoutPathExpansion] at h
    split at h
    · exact mem_cons.mp h
    · split at h
      · exact (mem_cons.mp h).imp_right (mem_cons_of_mem _)
      · rcases mem_cons.mp h with rfl | h
        · exact Or.inr (mem_cons_self ..)
        · exact (ih h).imp_right (mem_cons_of_mem _)

theorem setWithoutPathExpansion_sorted {V : Type} {key : Bytes} {value : V}
    {dict : List (Bytes × V)} (h : dict.Pairwise fun a b => a.1 < b.1) :
    (setWithoutPathExpansion key value dict).Pairwise fun a b => a.1 < b.1 := by
  induction dict with
  | nil => exact pairwise_singleton _ _
  | cons other dict ih =>
    obtain ⟨hother, hdict⟩ := pairwise_cons.mp h
    rw [setWithoutPathExpansion]
    split
    · rename_i hlt
      refine pairwise_cons.mpr ⟨fun entry hentry => ?_, h⟩
      rcases mem_cons.mp hentry with rfl | hentry
      · exact hlt
      · exact List.lt_trans hlt (hother entry hentry)
    · split
      · rename_i heq
        exact pairwise_cons.mpr ⟨fun entry hentry => heq ▸ hother entry hentry, hdict⟩
      · rename_i hnot hne
        refine pairwise_cons.mpr ⟨fun entry hentry => ?_, ih hdict⟩
        rcases mem_setWithoutPathExpansion hentry with rfl | hentry
        · exact Std.lt_of_le_of_ne (List.not_lt.mp hnot) (Ne.symm hne)
        · exact hother entry hentry

/-- Setting members keeps the order of the keys. -/
theorem setAll_ordered {members dict : List (Bytes × Value F)}
    (hsort : dict.Pairwise fun a b => a.1 < b.1) (hdict : ∀ entry ∈ dict, entry.2.Ordered doubles)
    (hmembers : ∀ entry ∈ members, entry.2.Ordered doubles) :
    (Value.dictionary (setAll members dict)).Ordered doubles := by
  induction members generalizing dict with
  | nil => exact .dictionary hsort hdict
  | cons member members ih =>
    refine ih (setWithoutPathExpansion_sorted hsort) (fun entry hentry => ?_) fun entry hentry =>
      hmembers entry (mem_cons_of_mem _ hentry)
    rcases mem_setWithoutPathExpansion hentry with rfl | hentry
    · exact hmembers member (mem_cons_self ..)
    · exact hdict entry hentry

/-- The doubles that StringToDouble converts to. -/
def Converted (stringToDouble : Bytes → Option F) (d : F) : Prop :=
  ∃ text, stringToDouble text = some d

theorem ContainerReads.items_hold {α : Type} {item : Bytes → α → Bytes → Prop} {close : UInt8}
    (p : α → Prop) (hitem : ∀ {r v r'}, item r v r' → p v) {r r' : Bytes} {vs : List α}
    (h : ContainerReads trailingCommas item close r vs r') : ∀ v ∈ vs, p v := by
  cases h with
  | empty => nofun
  | items h =>
    generalize dropGap r = text at h
    induction h with
    | last head _ | trailing head _ _ _ => exact fun v hv => mem_singleton.mp hv ▸ hitem head
    | cons head _ _ ih =>
      intro v hv
      rcases mem_cons.mp hv with rfl | hv
      · exact hitem head
      · exact ih v hv

theorem numberValue_ordered {text : Bytes} {v : Value F}
    (h : numberValue stringToDouble text = some v) : v.Ordered (Converted stringToDouble) := by
  unfold numberValue at h
  split at h
  · cases h
    exact .integer _
  · obtain ⟨d, hd, rfl⟩ := Option.map_eq_some_iff.mp h
    exact .double ⟨text, hd⟩

theorem ScalarReads.ordered {r r' : Bytes} {v : Value F}
    (h : ScalarReads stringToDouble operand r v r') : v.Ordered (Converted stringToDouble) := by
  cases h with
  | null => exact .null
  | boolTrue => exact .boolean _
  | boolFalse => exact .boolean _
  | string => exact .string _
  | number _ hvalue _ => exact numberValue_ordered hvalue

/-- What the grammar reads is in order. -/
theorem Reads.ordered {levels : Nat} {r r' : Bytes} {v : Value F}
    (h : Reads stringToDouble operand trailingCommas levels r v r') :
    v.Ordered (Converted stringToDouble) := by
  induction levels generalizing r v r' with
  | zero => exact ScalarReads.ordered h
  | succ levels ih =>
    cases (h : ValueReads stringToDouble operand trailingCommas _ r v r') with
    | scalar h => exact h.ordered
    | list h => exact .list (h.items_hold (Value.Ordered _) ih)
    | dictionary h =>
      have hmembers := h.items_hold (fun member => member.2.Ordered (Converted stringToDouble))
        fun hmember => by
          cases hmember with
          | mk _ _ hvalue => exact ih hvalue
      exact setAll_ordered List.Pairwise.nil nofun hmembers

theorem Overruns.ordered {last : UInt8} {text : Bytes} {v : Value F} (h : Overruns last text v) :
    v.Ordered doubles := by
  cases h with
  | string => exact .string _
  | word hword _ =>
    simp only [words, mem_cons, Prod.mk.injEq, not_mem_nil, or_false] at hword
    obtain ⟨-, rfl⟩ | ⟨-, rfl⟩ | ⟨-, rfl⟩ := hword
    · exact .boolean _
    · exact .boolean _
    · exact .null

theorem parse_ordered {options : Options} {input : Input} {v : Value F}
    (h : parse stringToDouble options input = .ok v) : v.Ordered (Converted stringToDouble) := by
  obtain ⟨⟨r, hreads, -⟩, -⟩ | hover := parse_ok_iff.mp h
  · exact hreads.ordered
  · exact hover.ordered

end ChromiumUI.Json
