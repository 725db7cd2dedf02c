import ChromiumUI.JsonWriter
import ChromiumUI.JsonQuoting

/-!
# Values written and parsed

What `writeWithOptions` writes of a value is parsed as that value, unless one of its strings or
keys holds U+0000 or is too long for a conversion.
-/
namespace ChromiumUI.Json

open ByteMemory Base List

variable {F : Type}

/-! ## The strings of a value -/

mutual

/-- All strings and keys of a value. -/
def strings : Value F → List Bytes
  | .null => []
  | .boolean _ => []
  | .integer _ => []
  | .double _ => []
  | .string value => [value]
  | .list values => itemStrings values
  | .dictionary entries => entryStrings entries

def itemStrings : List (Value F) → List Bytes
  | [] => []
  | value :: values => strings value ++ itemStrings values

def entryStrings : List (Bytes × Value F) → List Bytes
  | [] => []
  | (key, value) :: entries => key :: (strings value ++ entryStrings entries)

end

/-- How many bytes the strings have together. -/
def total (strs : List Bytes) : Nat := (strs.map List.length).sum

@[simp] theorem total_nil : total [] = 0 := rfl

@[simp] theorem total_cons (str : Bytes) (strs : List Bytes) :
    total (str :: strs) = str.length + total strs := by
  simp [total]

@[simp] theorem total_append (strs strs' : List Bytes) :
    total (strs ++ strs') = total strs + total strs' := by
  simp [total]

/-- A value of null, booleans, integers, valid strings, lists and dictionaries in the order of
their keys, with at most so many levels of containers. -/
inductive Writable : Nat → Value F → Prop
  | null (levels : Nat) : Writable levels .null
  | boolean (levels : Nat) (value : Bool) : Writable levels (.boolean value)
  | integer (levels : Nat) {value : Int} (hlow : intMin ≤ value) (hhigh : value ≤ intMax) :
      Writable levels (.integer value)
  | string (levels : Nat) {value : Bytes} (h : ValidText value) : Writable levels (.string value)
  | list {levels : Nat} {values : List (Value F)} (h : ∀ value ∈ values, Writable levels value) :
      Writable (levels + 1) (.list values)
  | dictionary {levels : Nat} {entries : List (Bytes × Value F)}
      (hsorted : entries.Pairwise fun a b => a.1 < b.1)
      (hkeys : ∀ entry ∈ entries, ValidText entry.1)
      (h : ∀ entry ∈ entries, Writable levels entry.2) : Writable (levels + 1) (.dictionary entries)

/-! ## Members set in order -/

theorem setWithoutPathExpansion_last {V : Type} {key : Bytes} {value : V}
    {dict : List (Bytes × V)} (h : ∀ entry ∈ dict, entry.1 < key) :
    setWithoutPathExpansion key value dict = dict ++ [(key, value)] := by
  induction dict with
  | nil => rfl
  | cons entry dict ih =>
    have hlt : entry.1 < key := h entry (mem_cons_self ..)
    rw [setWithoutPathExpansion, if_neg (List.lt_asymm hlt), if_neg, ih]
    · rfl
    · exact fun other hother => h other (mem_cons_of_mem _ hother)
    · rintro rfl
      exact List.lt_irrefl _ hlt

/-- Members in the order of their keys make the dictionary that lists them. -/
theorem setAll_sorted {members dict : List (Bytes × Value F)}
    (hsort : (dict ++ members).Pairwise fun a b => a.1 < b.1) :
    setAll members dict = dict ++ members := by
  induction members generalizing dict with
  | nil => exact (append_nil dict).symm
  | cons member members ih =>
    have hlast : setWithoutPathExpansion member.1 member.2 dict = dict ++ [member] :=
      setWithoutPathExpansion_last fun entry hentry =>
        (pairwise_append.mp hsort).2.2 entry hentry member (mem_cons_self ..)
    rw [append_cons] at hsort ⊢
    rw [setAll, foldl_cons, hlast]
    exact ih hsort

theorem total_set (key : Bytes) (value : Value F) (dict : List (Bytes × Value F)) :
    total (entryStrings (setWithoutPathExpansion key value dict)) ≤
      key.length + total (strings value) + total (entryStrings dict) := by
  induction dict with
  | nil => simp [setWithoutPathExpansion, entryStrings]
  | cons entry dict ih =>
    obtain ⟨k, v⟩ := entry
    rw [setWithoutPathExpansion]
    split_ifs
    · simp [entryStrings]
      omega
    · simp [entryStrings]
      omega
    · simp only [entryStrings, total_cons, total_append]
      omega

theorem total_setAll (members dict : List (Bytes × Value F)) :
    total (entryStrings (setAll members dict)) ≤
      total (entryStrings members) + total (entryStrings dict) := by
  induction members generalizing dict with
  | nil => simp [setAll, entryStrings]
  | cons member members ih =>
    have hset := total_set member.1 member.2 dict
    have hrest := ih (setWithoutPathExpansion member.1 member.2 dict)
    rw [setAll] at hrest ⊢
    rw [foldl_cons]
    simp only [entryStrings, total_cons, total_append]
    omega

/-! ## What is read back -/

/-- The same, when every string is kept, and otherwise less. -/
structure ReadBack {α : Type} (strings : α → List Bytes) (a a' : α) : Prop where
  same : (∀ str ∈ strings a, Kept str) → a' = a
  less : (∃ str ∈ strings a, ¬Kept str) → total (strings a') < total (strings a)

theorem ReadBack.le {α : Type} {strings : α → List Bytes} {a a' : α}
    (h : ReadBack strings a a') : total (strings a') ≤ total (strings a) := by
  by_cases hkept : ∀ str ∈ strings a, Kept str
  · rw [h.same hkept]
  · push Not at hkept
    exact (h.less hkept).le

theorem ReadBack.all {α : Type} {strings : α → List Bytes} {as as' : List α}
    (h : List.Forall₂ (ReadBack strings) as as') : ReadBack (List.flatMap strings) as as' := by
  induction h with
  | nil => exact ⟨fun _ => rfl, by simp⟩
  | @cons a a' as as' head tail ih =>
    have hhead := head.le
    have htail := ih.le
    constructor
    · intro hkept
      rw [head.same fun str hstr => hkept str (mem_flatMap.mpr
          ⟨a, mem_cons_self .., hstr⟩),
        ih.same fun str hstr => hkept str (mem_append_right _ hstr)]
    · rintro ⟨str, hstr, hnot⟩
      rw [flatMap_cons, flatMap_cons, total_append, total_append]
      obtain hstr | hstr := mem_append.mp (flatMap_cons ▸ hstr)
      · have := head.less ⟨str, hstr, hnot⟩
        omega
      · have := ih.less ⟨str, hstr, hnot⟩
        omega

def memberStrings (member : Bytes × Value F) : List Bytes := member.1 :: strings member.2

theorem itemStrings_eq (values : List (Value F)) : itemStrings values = values.flatMap strings := by
  induction values with
  | nil => rfl
  | cons value values ih => rw [itemStrings, ih, flatMap_cons]

theorem entryStrings_eq (entries : List (Bytes × Value F)) :
    entryStrings entries = entries.flatMap memberStrings := by
  induction entries with
  | nil => rfl
  | cons entry entries ih =>
    rw [entryStrings, ih, flatMap_cons]
    rfl

theorem readBack_scalar {value : Value F} (h : strings value = []) : ReadBack strings value value :=
  ⟨fun _ => rfl, by simp [h]⟩

theorem readBack_list {values values' : List (Value F)}
    (h : List.Forall₂ (ReadBack strings) values values') :
    ReadBack strings (.list values) (.list values') := by
  obtain ⟨hsame, hless⟩ := ReadBack.all h
  constructor
  · intro hkept
    rw [strings, itemStrings_eq] at hkept
    rw [hsame hkept]
  · rw [strings, strings, itemStrings_eq, itemStrings_eq]
    exact hless

theorem readBack_dictionary {entries members : List (Bytes × Value F)}
    (hsort : entries.Pairwise fun a b => a.1 < b.1)
    (h : List.Forall₂ (ReadBack memberStrings) entries members) :
    ReadBack strings (.dictionary entries) (.dictionary (setAll members [])) := by
  obtain ⟨hsame, hless⟩ := ReadBack.all h
  have htotal := total_setAll members []
  rw [entryStrings_eq members] at htotal
  constructor
  · intro hkept
    rw [strings, entryStrings_eq] at hkept
    rw [hsame hkept, setAll_sorted (by simpa using hsort), nil_append]
  · intro hnot
    rw [strings, entryStrings_eq] at hnot
    have := hless hnot
    rw [strings, strings, entryStrings_eq entries]
    simp only [entryStrings, total_nil] at htotal
    omega

/-! ## Items with separators -/

/-- The items behind the first one. -/
def joined {α : Type} (gap : Bytes) (text : α → Bytes) : List α → Bytes
  | [] => []
  | a :: as => comma :: (gap ++ (text a ++ joined gap text as))

section Joined

variable {α β : Type} {text : α → Bytes} {itemReads : Bytes → β → Bytes → Prop}
  {R : α → β → Prop} {gap pad : Bytes} {close : UInt8} {trailingCommas : Bool}

theorem follows_joined (gap : Bytes) (text : α → Bytes) (hpad : Whitespace pad)
    (hsolid : Solid close) (hends : tokenOf close = .objectEnd ∨ tokenOf close = .arrayEnd)
    (as : List α) (r : Bytes) : Follows (joined gap text as ++ (pad ++ close :: r)) := by
  cases as with
  | nil => exact follows_cons hpad hsolid (by tauto) r
  | cons a as => exact @follows_cons [] _ nofun solid_comma (Or.inr (Or.inr rfl)) _

theorem joined_reads (trailingCommas : Bool) (hgap : Whitespace gap) (hpad : Whitespace pad)
    (hsolid : Solid close)
    (hends : tokenOf close = .objectEnd ∨ tokenOf close = .arrayEnd) {a : α} {as : List α}
    (hstart : ∀ b ∈ a :: as, StartsSolid (text b))
    (hitem : ∀ b ∈ a :: as, ∀ {r}, Follows r → ∃ v, itemReads (text b ++ r) v r ∧ R b v)
    (r : Bytes) :
    ∃ vs, ItemsRead trailingCommas itemReads close
      (text a ++ (joined gap text as ++ (pad ++ close :: r))) vs r ∧
        List.Forall₂ R (a :: as) vs := by
  induction as generalizing a with
  | nil =>
    obtain ⟨v, hv, hR⟩ := hitem a (mem_cons_self ..)
      (follows_joined gap text hpad hsolid hends [] r)
    exact ⟨[v], .last hv (dropGap_to hpad hsolid r), .cons hR .nil⟩
  | cons b as ih =>
    obtain ⟨v, hv, hR⟩ := hitem a (mem_cons_self ..)
      (follows_joined gap text hpad hsolid hends (b :: as) r)
    obtain ⟨vs, hvs, hRs⟩ := ih (fun c hc => hstart c (mem_cons_of_mem _ hc))
      fun c hc => hitem c (mem_cons_of_mem _ hc)
    have htail : dropGap (gap ++ (text b ++ (joined gap text as ++ (pad ++ close :: r)))) =
        text b ++ (joined gap text as ++ (pad ++ close :: r)) := by
      have hb := hstart b (mem_cons_of_mem _ (mem_cons_self ..))
      rw [dropGap_append hgap, (hb.append _).dropGap]
    rw [← htail] at hvs
    refine ⟨v :: vs, .cons hv ?_ hvs, .cons hR hRs⟩
    rw [joined, cons_append, dropGap_solid solid_comma, append_assoc, append_assoc]

end Joined

/-! ## What is written is read -/

section Written

variable {stringToDouble : Bytes → Option F} {trailingCommas : Bool} {doubles : Doubles F}
  {o : WriterOptions}

theorem WriterOptions.pretty_whitespace (o : WriterOptions) {w : Bytes} (h : Whitespace w) :
    Whitespace (o.pretty w) := by
  unfold WriterOptions.pretty
  split
  · exact h
  · nofun

theorem whitespace_space : Whitespace [space] := by
  intro b hb
  rw [mem_singleton.mp hb]
  rfl

theorem whitespace_lineEnding : Whitespace o.kPrettyPrintLineEnding := by
  unfold WriterOptions.kPrettyPrintLineEnding
  intro b hb
  split at hb
  · obtain rfl | hb := mem_cons.mp hb
    · rfl
    · rw [mem_singleton.mp hb]
      rfl
  · rw [mem_singleton.mp hb]
    rfl

theorem whitespace_indentLine (depth : Nat) : Whitespace (indentLine depth) := by
  intro b hb
  rw [eq_of_mem_replicate hb]
  rfl

theorem Whitespace.append {w w' : Bytes} (h : Whitespace w) (h' : Whitespace w') :
    Whitespace (w ++ w') := by
  intro b hb
  obtain hb | hb := mem_append.mp hb
  · exact h b hb
  · exact h' b hb

theorem buildItems_false (depth : Nat) (values : List (Value F)) :
    buildItems doubles o depth false values =
      joined (o.pretty [space]) (buildJSONString doubles o depth) values := by
  induction values with
  | nil => rw [buildItems, joined]
  | cons value values ih =>
    rw [buildItems, joined, ih]
    rfl

/-- A key with its value. -/
def entryText (doubles : Doubles F) (o : WriterOptions) (depth : Nat) (entry : Bytes × Value F) :
    Bytes :=
  appendQuotedString entry.1 ++
    (colon :: (o.pretty [space] ++ buildJSONString doubles o (depth + 1) entry.2))

theorem buildEntries_false (depth : Nat) (entries : List (Bytes × Value F)) :
    buildEntries doubles o depth false entries =
      joined (o.pretty o.kPrettyPrintLineEnding ++ o.pretty (indentLine (depth + 1)))
        (entryText doubles o depth) entries := by
  induction entries with
  | nil => rw [buildEntries, joined]
  | cons entry entries ih =>
    rw [buildEntries, joined, ih]
    simp [entryText]

theorem Reads.of_scalar {levels : Nat} {r r' : Bytes} {v : Value F}
    (h : ScalarReads stringToDouble hexStringToInt r v r') :
    Reads stringToDouble hexStringToInt trailingCommas levels r v r' := by
  cases levels with
  | zero => exact h
  | succ levels => exact ValueReads.scalar h

theorem appendQuotedString_startsSolid (str : Bytes) : StartsSolid (appendQuotedString str) :=
  ⟨quote, _, rfl, solid_quote⟩

theorem Writable.startsSolid (doubles : Doubles F) (ho : o.doNotEscape = false) {levels : Nat}
    {value : Value F} (h : Writable levels value) (depth : Nat) :
    StartsSolid (buildJSONString doubles o depth value) := by
  cases h with
  | null => exact ⟨_, _, by rw [buildJSONString]; rfl, rfl, by decide⟩
  | boolean levels value =>
    rw [buildJSONString]
    cases value with
    | true | false => exact ⟨_, _, rfl, rfl, by decide⟩
  | @integer _ value =>
    rw [buildJSONString, ← decimalNumber_text]
    exact (decimalNumber value).startsSolid
  | @string _ value =>
    rw [buildJSONString, ho]
    exact appendQuotedString_startsSolid value
  | list h | dictionary h => exact ⟨_, _, by rw [buildJSONString], rfl, by decide⟩

section

variable (ho : o.doNotEscape = false)
include ho

/-- The values of the items are read; so is the list. -/
theorem list_reads {levels depth : Nat} {values : List (Value F)}
    (hwritable : ∀ value ∈ values, Writable levels value)
    (hread : ∀ value ∈ values, ∀ {r}, Follows r → ∃ v,
      Reads stringToDouble hexStringToInt trailingCommas levels
        (buildJSONString doubles o depth value ++ r) v r ∧ ReadBack strings value v) (r : Bytes) :
    ∃ v, Reads stringToDouble hexStringToInt trailingCommas (levels + 1)
      (buildJSONString doubles o depth (.list values) ++ r) v r ∧
        ReadBack strings (.list values) v := by
  have hpad : Whitespace (o.pretty [space]) := o.pretty_whitespace whitespace_space
  rw [buildJSONString, cons_append]
  cases values with
  | nil =>
    refine ⟨.list [], .list (.empty ?_), readBack_list .nil⟩
    rw [buildItems, nil_append, append_assoc, dropGap_append hpad, append_assoc]
    exact dropGap_to hpad solid_close.1 r
  | cons value values =>
    obtain ⟨vs, hvs, hback⟩ := joined_reads trailingCommas hpad hpad
      solid_close.1 (Or.inr rfl)
      (fun v hv => (hwritable v hv).startsSolid doubles ho depth) hread r
    refine ⟨.list vs, .list (.items ?_), readBack_list hback⟩
    have hstart := (hwritable value (mem_cons_self ..)).startsSolid
      doubles ho depth
    rw [buildItems, buildItems_false, if_pos rfl, nil_append]
    simp only [append_assoc]
    rw [dropGap_append hpad, (hstart.append _).dropGap]
    exact hvs

theorem entry_reads {levels depth : Nat} {entry : Bytes × Value F}
    (hkey : ValidText entry.1) (hwritable : Writable levels entry.2)
    (hread : ∀ {r}, Follows r → ∃ v,
      Reads stringToDouble hexStringToInt trailingCommas levels
        (buildJSONString doubles o (depth + 1) entry.2 ++ r) v r ∧ ReadBack strings entry.2 v)
    {r : Bytes} (hfol : Follows r) :
    ∃ member, MemberReads hexStringToInt (Reads stringToDouble hexStringToInt trailingCommas levels)
      (entryText doubles o depth entry ++ r) member r ∧ ReadBack memberStrings entry member := by
  obtain ⟨key, value⟩ := entry
  have hpad : Whitespace (o.pretty [space]) := o.pretty_whitespace whitespace_space
  obtain ⟨v, hv, hback⟩ := hread hfol
  obtain ⟨k, hk, hsame, hless⟩ := quoted_reads hkey
  refine ⟨(k, v), ?_, ?_, ?_⟩
  · rw [entryText, append_assoc, cons_append, append_assoc]
    refine .mk hk (dropGap_solid solid_colon _) ?_
    rwa [dropGap_append hpad, ((hwritable.startsSolid doubles ho (depth + 1)).append r).dropGap]
  · intro hkept
    rw [hsame (hkept key (mem_cons_self ..)),
      hback.same fun str hstr => hkept str (mem_cons_of_mem _ hstr)]
  · rintro ⟨str, hstr, hnot⟩
    have hle := hback.le
    have hstr : str ∈ key :: strings value := hstr
    dsimp only at hle hless hsame hback
    simp only [memberStrings, total_cons]
    obtain heq | hstr := mem_cons.mp hstr
    · rw [heq] at hnot
      have := hless hnot
      omega
    · have hkeys : k.length ≤ key.length := by
        by_cases hkept : Kept key
        · rw [hsame hkept]
        · exact (hless hkept).le
      have := hback.less ⟨str, hstr, hnot⟩
      omega

theorem dictionary_reads {levels depth : Nat}
    {entries : List (Bytes × Value F)} (hsort : entries.Pairwise fun a b => a.1 < b.1)
    (hkeys : ∀ entry ∈ entries, ValidText entry.1)
    (hwritable : ∀ entry ∈ entries, Writable levels entry.2)
    (hread : ∀ entry ∈ entries, ∀ {r}, Follows r → ∃ v,
      Reads stringToDouble hexStringToInt trailingCommas levels
        (buildJSONString doubles o (depth + 1) entry.2 ++ r) v r ∧ ReadBack strings entry.2 v)
    (r : Bytes) :
    ∃ v, Reads stringToDouble hexStringToInt trailingCommas (levels + 1)
      (buildJSONString doubles o depth (.dictionary entries) ++ r) v r ∧
        ReadBack strings (.dictionary entries) v := by
  have hline : Whitespace (o.pretty o.kPrettyPrintLineEnding) :=
    o.pretty_whitespace whitespace_lineEnding
  have hindent : Whitespace (o.pretty (indentLine (depth + 1))) :=
    o.pretty_whitespace (whitespace_indentLine _)
  have hpad : Whitespace (o.pretty (o.kPrettyPrintLineEnding ++ indentLine depth)) :=
    o.pretty_whitespace (whitespace_lineEnding.append (whitespace_indentLine depth))
  rw [buildJSONString, cons_append]
  cases entries with
  | nil =>
    refine ⟨_, .dictionary (.empty ?_), readBack_dictionary hsort .nil⟩
    rw [buildEntries, nil_append, append_assoc, dropGap_append hline, append_assoc]
    exact dropGap_to hpad solid_close.2 r
  | cons entry entries =>
    obtain ⟨members, hmembers, hback⟩ := joined_reads trailingCommas
      (hline.append hindent) hpad solid_close.2 (Or.inl rfl)
      (fun e he => (appendQuotedString_startsSolid e.1).append _)
      (fun e he => entry_reads ho (hkeys e he) (hwritable e he) (hread e he)) r
    refine ⟨_, .dictionary (.items ?_), readBack_dictionary hsort hback⟩
    have hstart : StartsSolid (entryText doubles o depth entry) :=
      (appendQuotedString_startsSolid entry.1).append _
    have htext : buildEntries doubles o depth true (entry :: entries) =
        o.pretty (indentLine (depth + 1)) ++ (entryText doubles o depth entry ++
          joined (o.pretty o.kPrettyPrintLineEnding ++ o.pretty (indentLine (depth + 1)))
            (entryText doubles o depth) entries) := by
      rw [buildEntries, buildEntries_false]
      simp [entryText]
    rw [htext]
    simp only [append_assoc]
    rw [dropGap_append hline, dropGap_append hindent, (hstart.append _).dropGap]
    exact hmembers

/-- What the writer makes of a value is read. -/
theorem Writable.reads {levels : Nat} {value : Value F}
    (h : Writable levels value) {depth : Nat} {r : Bytes} (hfol : Follows r) :
    ∃ v, Reads stringToDouble hexStringToInt trailingCommas levels
      (buildJSONString doubles o depth value ++ r) v r ∧ ReadBack strings value v := by
  induction h generalizing depth r with
  | null levels =>
    rw [buildJSONString]
    exact ⟨_, .of_scalar (.null r), readBack_scalar rfl⟩
  | boolean levels value =>
    rw [buildJSONString]
    refine ⟨.boolean value, ?_, readBack_scalar rfl⟩
    cases value with
    | true => exact .of_scalar (.boolTrue r)
    | false => exact .of_scalar (.boolFalse r)
  | @integer levels value hlow hhigh =>
    refine ⟨.integer value, .of_scalar ?_, readBack_scalar rfl⟩
    rw [buildJSONString, ← decimalNumber_text]
    refine .number _ ?_ hfol
    rw [decimalNumber_text, numberValue, stringToInt_decimalText hlow hhigh]
  | @string levels value h =>
    rw [buildJSONString, ho, if_neg (by decide)]
    obtain ⟨d, hd, hsame, hless⟩ := quoted_reads h
    refine ⟨.string d, .of_scalar (.string r hd), ?_, ?_⟩
    · intro hkept
      rw [hsame (hkept value (by simp [strings]))]
    · rintro ⟨str, hstr, hnot⟩
      rw [strings, mem_singleton] at hstr
      subst hstr
      simpa [strings] using hless hnot
  | list h ih => exact list_reads ho h (fun value hvalue _ hr => ih value hvalue hr) r
  | dictionary hsort hkeys h ih =>
    exact dictionary_reads ho hsort hkeys h (fun entry hentry _ hr => ih entry hentry hr) r

end

/-! ## The round trip -/

theorem Reads.token_valid {levels : Nat} {r r' : Bytes} {v : Value F}
    (h : Reads stringToDouble hexStringToInt trailingCommas levels r v r') :
    headToken r ≠ .invalidToken := by
  have hscalar : ∀ {r r' : Bytes} {v : Value F},
      ScalarReads stringToDouble hexStringToInt r v r' → headToken r ≠ .invalidToken := by
    intro r r' v h
    cases h with
    | null => exact nofun
    | boolTrue => exact nofun
    | boolFalse => exact nofun
    | string r h =>
      obtain ⟨hbody⟩ := h
      exact nofun
    | number num h hfol =>
      rw [num.headToken]
      decide
  cases levels with
  | zero => exact hscalar h
  | succ levels =>
    cases (h : ValueReads stringToDouble hexStringToInt trailingCommas _ r v r') with
    | scalar h => exact hscalar h
    | list h => exact nofun
    | dictionary h => exact nofun

/-- No value begins with a byte order mark. -/
theorem dropByteOrderMark_of_token {text : Bytes} (h : headToken text ≠ .invalidToken) :
    dropByteOrderMark text = text := by
  unfold dropByteOrderMark
  split
  · exact absurd rfl h
  · rfl

theorem ofBytes_behind (text : Bytes) : ofBytes text text.length = 0 := by
  simp [ofBytes]

/-- Nothing goes on with a number behind a string's bytes. -/
theorem ofString_behind (options : Options) (text : Bytes) :
    (inputFor options (Input.ofString text)).mem text.length = 0 := by
  unfold inputFor Input.ofString
  split
  · exact ofBytes_behind text
  · exact if_neg (Nat.lt_irrefl _)

/-- What is written is parsed, as the same value or as one with less in its strings. -/
theorem parse_written (ho : o.doNotEscape = false) {value : Value F} (h : Writable 99 value)
    (options : Options) : ∃ v,
      parse stringToDouble options (Input.ofString (writeWithOptions doubles o value)) = .ok v ∧
        ReadBack strings value v := by
  have hpad : Whitespace (o.pretty o.kPrettyPrintLineEnding) :=
    o.pretty_whitespace whitespace_lineEnding
  obtain ⟨v, hreads, hback⟩ := @Writable.reads F stringToDouble options.allowTrailingCommas
    doubles o ho 99 value h 0 _ (follows_whitespace hpad)
  have hrest : (inputFor options (Input.ofString (writeWithOptions doubles o value))).rest 0 =
      writeWithOptions doubles o value := by
    rw [inputFor_rest]
    exact load_ofBytes _
  have hroot : (inputFor options (Input.ofString (writeWithOptions doubles o value))).root =
      buildJSONString doubles o 0 value ++ o.pretty o.kPrettyPrintLineEnding := by
    rw [Input.root, hrest, writeWithOptions, dropByteOrderMark_of_token hreads.token_valid,
      ((h.startsSolid doubles ho 0).append _).dropGap]
  refine ⟨v, parse_ok_iff.mpr (Or.inl ⟨⟨_, ?_, dropGap_of_whitespace hpad⟩, ?_⟩), hback⟩
  · rw [hroot]
    exact hreads
  · rintro ⟨num, -, -, hletter⟩
    rw [show (Input.ofString (writeWithOptions doubles o value)).length =
      (writeWithOptions doubles o value).length from rfl, ofString_behind] at hletter
    obtain h | h | ⟨h, -⟩ := hletter <;> cases h

end Written

end ChromiumUI.Json
