import ChromiumUI.JsonParser
import ChromiumUI.UtfConversions
import ChromiumUI.SeparatedLists

/-!
# JSONWriter

The writer of values, and the quoting of strings. What is said about doubles is a parameter.
-/
namespace ChromiumUI.Json

open ByteMemory Base

/-! ## Quoting -/

/-- JsonSingleEscapeChar: what stands behind the backslash. -/
def jsonSingleEscapeChar (c : Nat) : Option UInt8 :=
  [(0x08, 0x62), (0x0c, 0x66), (0x0a, 0x6e), (0x0d, 0x72), (0x09, 0x74), (0x5c, backslash),
    (0x22, quote)].lookup c

/-- A digit of %X. -/
def hexDigit (n : Nat) : UInt8 := UInt8.ofNat (if n < 10 then 0x30 + n else 0x37 + n)

/-- %04X of 16 bits. -/
def hexDigits (c : Nat) : Bytes :=
  [hexDigit (c / 4096 % 16), hexDigit (c / 256 % 16), hexDigit (c / 16 % 16), hexDigit (c % 16)]

/-- A turn of the loop of JsonDoubleQuoteT. -/
def escapeUnit (c : Nat) : Bytes :=
  match jsonSingleEscapeChar c with
  | some b => [backslash, b]
  | none =>
    if c < 32 ∨ c > 126 ∨ c = 0x3c ∨ c = 0x3e then backslash :: letterU :: hexDigits c
    else [UInt8.ofNat c]

/-- JsonDoubleQuoteT over the units of a string. -/
def jsonDoubleQuote (units : List Nat) (putInQuotes : Bool) : Bytes :=
  if putInQuotes then quote :: (units.flatMap escapeUnit ++ [quote])
  else units.flatMap escapeUnit

/-- AppendQuotedString. -/
def appendQuotedString (str : Bytes) : Bytes :=
  jsonDoubleQuote ((utf8ToUTF16 str).2.map UInt16.toNat) true

/-! ## Numbers -/

def decimalDigits (n : Nat) : Bytes :=
  if n < 10 then [UInt8.ofNat (0x30 + n)]
  else decimalDigits (n / 10) ++ [UInt8.ofNat (0x30 + n % 10)]

/-- %d. -/
def decimalText (value : Int) : Bytes :=
  if value < 0 then minus :: decimalDigits value.natAbs else decimalDigits value.natAbs

/-- DoubleToString, and the value as an int64 when it is a whole number that fits. -/
structure Doubles (F : Type) where
  doubleToString : F → Bytes
  toInt64 : F → Option Int

/-! ## The writer -/

/-- The options of JSONWriter, and whether the build is one for Windows. -/
structure WriterOptions where
  doNotEscape : Bool
  omitDoubleTypePreservation : Bool
  prettyPrint : Bool
  osWin : Bool

namespace WriterOptions

variable (o : WriterOptions)

def kPrettyPrintLineEnding : Bytes := if o.osWin then [carriageReturn, newline] else [newline]

/-- What is written only when the output is a pretty one. -/
def pretty (text : Bytes) : Bytes := if o.prettyPrint then text else []

end WriterOptions

def indentLine (depth : Nat) : Bytes := List.replicate (depth * 3) space

section Writer

variable {F : Type} (doubles : Doubles F) (o : WriterOptions)

/-- The case TYPE_DOUBLE of BuildJSONString. -/
def doubleText (value : F) : Bytes :=
  match if o.omitDoubleTypePreservation then doubles.toInt64 value else none with
  | some whole => decimalText whole
  | none =>
    let real := doubles.doubleToString value
    let real := if dot ∈ real ∨ letterE ∈ real ∨ capitalE ∈ real then real else real ++ [dot, 0x30]
    if real.head? = some dot then 0x30 :: real
    else if real.take 2 = [minus, dot] then minus :: 0x30 :: real.drop 1
    else real

mutual

def buildJSONString (depth : Nat) : Value F → Bytes
  | .null => nullLiteral
  | .boolean value => if value then trueLiteral else falseLiteral
  | .integer value => decimalText value
  | .double value => doubleText doubles o value
  | .string value =>
    if o.doNotEscape then jsonDoubleQuote (value.map UInt8.toNat) true
    else appendQuotedString value
  | .list values =>
    openBracket :: (o.pretty [space] ++
      (buildItems depth true values ++ (o.pretty [space] ++ [closeBracket])))
  | .dictionary entries =>
    openBrace :: (o.pretty o.kPrettyPrintLineEnding ++ (buildEntries depth true entries ++
      (o.pretty (o.kPrettyPrintLineEnding ++ indentLine depth) ++ [closeBrace])))

/-- The loop over a list; whether this is its first turn. -/
def buildItems (depth : Nat) : Bool → List (Value F) → Bytes
  | _, [] => []
  | first, value :: values =>
    (if first then [] else comma :: o.pretty [space]) ++
      (buildJSONString depth value ++ buildItems depth false values)

/-- The loop over a dictionary; whether this is its first turn. -/
def buildEntries (depth : Nat) : Bool → List (Bytes × Value F) → Bytes
  | _, [] => []
  | first, (key, value) :: entries =>
    (if first then [] else comma :: o.pretty o.kPrettyPrintLineEnding) ++
      (o.pretty (indentLine (depth + 1)) ++ (appendQuotedString key ++
        (colon :: o.pretty [space] ++
          (buildJSONString (depth + 1) value ++ buildEntries depth false entries))))

end

def writeWithOptions (node : Value F) : Bytes :=
  buildJSONString doubles o 0 node ++ o.pretty o.kPrettyPrintLineEnding

end Writer

/-- A `std::string` as an input: a NUL stands behind its bytes. -/
def Input.ofString (text : Bytes) : Input := ⟨ofBytes text, text.length⟩

/-! ## JSONWriter with OPTIONS_OMIT_BINARY_VALUES

Value trees that may hold binary values, and the writer with the option that leaves these out.
Whether a separator is due is told by the place of a value in its container, left out or not. -/

open SeparatedLists List

/-- base::Value, binary values included. -/
inductive ValueTree (F : Type)
  | null
  | boolean (value : Bool)
  | integer (value : Int)
  | double (value : F)
  | string (value : Bytes)
  | binary (buffer : Bytes)
  | list (values : List (ValueTree F))
  | dictionary (entries : List (Bytes × ValueTree F))

namespace ValueTree

variable {F : Type}

/-- GetType() == Value::TYPE_BINARY. -/
def isBinary : ValueTree F → Bool
  | .binary _ => true
  | _ => false

mutual

/-- A value the parser makes. -/
def ofValue : Value F → ValueTree F
  | .null => .null
  | .boolean value => .boolean value
  | .integer value => .integer value
  | .double value => .double value
  | .string value => .string value
  | .list values => .list (ofValues values)
  | .dictionary entries => .dictionary (ofEntries entries)

def ofValues : List (Value F) → List (ValueTree F)
  | [] => []
  | value :: values => ofValue value :: ofValues values

def ofEntries : List (Bytes × Value F) → List (Bytes × ValueTree F)
  | [] => []
  | (key, value) :: entries => (key, ofValue value) :: ofEntries entries

end

theorem ofValue_isBinary (value : Value F) : (ofValue value).isBinary = false := by
  cases value <;> rfl

/-- An entry of a dictionary whose value is a binary one. -/
def entryIsBinary (entry : Bytes × ValueTree F) : Bool := entry.2.isBinary

section Writer

variable (doubles : Doubles F) (o : WriterOptions) (omitBinaryValues : Bool)

mutual

/-- BuildJSONString. A binary value is NOTREACHED unless they are omitted: a release build writes
nothing then either. -/
def buildJSONString (depth : Nat) : ValueTree F → Bytes
  | .null => nullLiteral
  | .boolean value => if value then trueLiteral else falseLiteral
  | .integer value => decimalText value
  | .double value => doubleText doubles o value
  | .string value =>
    if o.doNotEscape then jsonDoubleQuote (value.map UInt8.toNat) true
    else appendQuotedString value
  | .binary _ => []
  | .list values =>
    openBracket :: (o.pretty [space] ++
      (buildItems depth true values ++ (o.pretty [space] ++ [closeBracket])))
  | .dictionary entries =>
    openBrace :: (o.pretty o.kPrettyPrintLineEnding ++ (buildEntries depth true entries ++
      (o.pretty (o.kPrettyPrintLineEnding ++ indentLine depth) ++ [closeBrace])))

/-- The loop over a list; whether i is 0. -/
def buildItems (depth : Nat) : Bool → List (ValueTree F) → Bytes
  | _, [] => []
  | first, value :: values =>
    if omitBinaryValues && value.isBinary then buildItems depth false values
    else (if first then [] else comma :: o.pretty [space]) ++
      (buildJSONString depth value ++ buildItems depth false values)

/-- The loop over a dictionary; whether key_itr is begin_keys(). -/
def buildEntries (depth : Nat) : Bool → List (Bytes × ValueTree F) → Bytes
  | _, [] => []
  | first, (key, value) :: entries =>
    if omitBinaryValues && value.isBinary then buildEntries depth false entries
    else (if first then [] else comma :: o.pretty o.kPrettyPrintLineEnding) ++
      (o.pretty (indentLine (depth + 1)) ++ (appendQuotedString key ++
        (colon :: o.pretty [space] ++
          (buildJSONString (depth + 1) value ++ buildEntries depth false entries))))

end

def writeWithOptions (node : ValueTree F) : Bytes :=
  node.buildJSONString doubles o omitBinaryValues 0 ++ o.pretty o.kPrettyPrintLineEnding

/-- What is written of an entry of a dictionary. -/
def entryText (depth : Nat) (entry : Bytes × ValueTree F) : Bytes :=
  o.pretty (indentLine (depth + 1)) ++ (appendQuotedString entry.1 ++
    (colon :: o.pretty [space] ++
      entry.2.buildJSONString doubles o omitBinaryValues (depth + 1)))

variable {doubles o omitBinaryValues}

mutual

/-- Without binary values the option makes no difference: this is the writer of `Value`. -/
theorem buildJSONString_ofValue (depth : Nat) : ∀ value : Value F,
    (ofValue value).buildJSONString doubles o omitBinaryValues depth =
      Json.buildJSONString doubles o depth value
  | .null => rfl
  | .boolean _ => rfl
  | .integer _ => rfl
  | .double _ => rfl
  | .string _ => rfl
  | .list values => by
    rw [ofValue, buildJSONString, Json.buildJSONString, buildItems_ofValues depth true values]
  | .dictionary entries => by
    rw [ofValue, buildJSONString, Json.buildJSONString,
      buildEntries_ofEntries depth true entries]

theorem buildItems_ofValues (depth : Nat) (first : Bool) : ∀ values : List (Value F),
    buildItems doubles o omitBinaryValues depth first (ofValues values) =
      Json.buildItems doubles o depth first values
  | [] => by rw [ofValues, buildItems, Json.buildItems]
  | value :: values => by
    rw [ofValues, buildItems, Json.buildItems, buildJSONString_ofValue depth value,
      buildItems_ofValues depth false values, ofValue_isBinary, Bool.and_false,
      if_neg Bool.false_ne_true]

theorem buildEntries_ofEntries (depth : Nat) (first : Bool) :
    ∀ entries : List (Bytes × Value F),
      buildEntries doubles o omitBinaryValues depth first (ofEntries entries) =
        Json.buildEntries doubles o depth first entries
  | [] => by rw [ofEntries, buildEntries, Json.buildEntries]
  | (key, value) :: entries => by
    rw [ofEntries, buildEntries, Json.buildEntries, buildJSONString_ofValue (depth + 1) value,
      buildEntries_ofEntries depth false entries, ofValue_isBinary, Bool.and_false,
      if_neg Bool.false_ne_true]

end

theorem buildItems_eq (depth : Nat) (first : Bool) (values : List (ValueTree F)) :
    buildItems doubles o omitBinaryValues depth first values =
      joined (comma :: o.pretty [space]) (fun value => omitBinaryValues && value.isBinary)
        (buildJSONString doubles o omitBinaryValues depth) first values := by
  induction values generalizing first with
  | nil => rw [buildItems, joined]
  | cons value values ih => rw [buildItems, joined, ih]

theorem buildEntries_eq (depth : Nat) (first : Bool) (entries : List (Bytes × ValueTree F)) :
    buildEntries doubles o omitBinaryValues depth first entries =
      joined (comma :: o.pretty o.kPrettyPrintLineEnding)
        (fun entry => omitBinaryValues && entryIsBinary entry)
        (entryText doubles o omitBinaryValues depth) first entries := by
  induction entries generalizing first with
  | nil => rw [buildEntries, joined]
  | cons entry entries ih =>
    obtain ⟨key, value⟩ := entry
    rw [buildEntries, joined, ih, entryText, entryIsBinary]
    simp only [append_assoc, cons_append]

end Writer

/-! ## Trees without binary values -/

mutual

/-- The tree with every binary value deleted from every list and every dictionary. -/
def withoutBinaries : ValueTree F → ValueTree F
  | .list values => .list (itemsWithoutBinaries values)
  | .dictionary entries => .dictionary (entriesWithoutBinaries entries)
  | node => node

def itemsWithoutBinaries : List (ValueTree F) → List (ValueTree F)
  | [] => []
  | value :: values =>
    if value.isBinary then itemsWithoutBinaries values
    else value.withoutBinaries :: itemsWithoutBinaries values

def entriesWithoutBinaries : List (Bytes × ValueTree F) → List (Bytes × ValueTree F)
  | [] => []
  | (key, value) :: entries =>
    if value.isBinary then entriesWithoutBinaries entries
    else (key, value.withoutBinaries) :: entriesWithoutBinaries entries

end

def entryWithoutBinaries (entry : Bytes × ValueTree F) : Bytes × ValueTree F :=
  (entry.1, entry.2.withoutBinaries)

theorem itemsWithoutBinaries_eq (values : List (ValueTree F)) :
    itemsWithoutBinaries values = kept isBinary withoutBinaries values := by
  induction values with
  | nil => rw [itemsWithoutBinaries]; rfl
  | cons value values ih =>
    rw [itemsWithoutBinaries, ih]
    cases hbinary : value.isBinary with
    | true => rw [kept_cons_skip hbinary, if_pos rfl]
    | false => rw [kept_cons hbinary, if_neg Bool.false_ne_true]

theorem entriesWithoutBinaries_eq (entries : List (Bytes × ValueTree F)) :
    entriesWithoutBinaries entries = kept entryIsBinary entryWithoutBinaries entries := by
  induction entries with
  | nil => rw [entriesWithoutBinaries]; rfl
  | cons entry entries ih =>
    obtain ⟨key, value⟩ := entry
    rw [entriesWithoutBinaries, ih]
    cases hbinary : value.isBinary with
    | true =>
      have hskip : entryIsBinary (key, value) = true := hbinary
      rw [kept_cons_skip hskip, if_pos rfl]
    | false =>
      have hskip : entryIsBinary (key, value) = false := hbinary
      rw [kept_cons hskip, if_neg Bool.false_ne_true, entryWithoutBinaries]

/-- Somewhere in the tree a list or a dictionary begins with a binary value and has another one
that is none. -/
inductive LeadingBinary : ValueTree F → Prop
  | list {values : List (ValueTree F)} (h : LosesFirst isBinary values) :
      LeadingBinary (.list values)
  | dictionary {entries : List (Bytes × ValueTree F)}
      (h : LosesFirst entryIsBinary entries) : LeadingBinary (.dictionary entries)
  | item {values : List (ValueTree F)} {value : ValueTree F} (hmem : value ∈ values)
      (h : LeadingBinary value) : LeadingBinary (.list values)
  | entry {entries : List (Bytes × ValueTree F)} {entry : Bytes × ValueTree F}
      (hmem : entry ∈ entries) (h : LeadingBinary entry.2) : LeadingBinary (.dictionary entries)

theorem LeadingBinary.not_isBinary {value : ValueTree F} (h : LeadingBinary value) :
    value.isBinary = false := by
  cases h <;> rfl

/-- A property of the leaves that passes from what is in a container to the container. -/
theorem tree_induction {P : ValueTree F → Prop}
    (leaf : ∀ value, (∀ values, value ≠ .list values) → (∀ entries, value ≠ .dictionary entries) →
      P value)
    (list : ∀ values, (∀ value ∈ values, P value) → P (.list values))
    (dictionary : ∀ entries : List (Bytes × ValueTree F),
      (∀ entry ∈ entries, P entry.2) → P (.dictionary entries)) (value : ValueTree F) : P value := by
  cases value with
  | list values =>
    refine list values fun value hmem => ?_
    have := sizeOf_lt_of_mem hmem
    exact tree_induction leaf list dictionary value
  | dictionary entries =>
    refine dictionary entries fun entry hmem => ?_
    have := sizeOf_lt_of_mem hmem
    exact tree_induction leaf list dictionary entry.2
  | _ => exact leaf _ nofun nofun
termination_by sizeOf value
decreasing_by
  · simp_wf
    omega
  · obtain ⟨key, value⟩ := entry
    simp_wf
    simp at this
    omega

/-! ## The two texts -/

variable {doubles : Doubles F} {o : WriterOptions}

theorem buildItems_omit (depth : Nat) (first : Bool) (values : List (ValueTree F)) :
    buildItems doubles o true depth first values =
      joined (comma :: o.pretty [space]) isBinary (buildJSONString doubles o true depth) first
        values := by
  rw [buildItems_eq]
  rfl

theorem buildItems_keep (depth : Nat) (first : Bool) (values : List (ValueTree F)) :
    buildItems doubles o false depth first values =
      joined (comma :: o.pretty [space]) (fun _ => false) (buildJSONString doubles o false depth)
        first values := by
  rw [buildItems_eq]
  rfl

theorem buildEntries_omit (depth : Nat) (first : Bool) (entries : List (Bytes × ValueTree F)) :
    buildEntries doubles o true depth first entries =
      joined (comma :: o.pretty o.kPrettyPrintLineEnding) entryIsBinary
        (entryText doubles o true depth) first entries := by
  rw [buildEntries_eq]
  rfl

theorem buildEntries_keep (depth : Nat) (first : Bool) (entries : List (Bytes × ValueTree F)) :
    buildEntries doubles o false depth first entries =
      joined (comma :: o.pretty o.kPrettyPrintLineEnding) (fun _ => false)
        (entryText doubles o false depth) first entries := by
  rw [buildEntries_eq]
  rfl

variable (doubles o) in
/-- The text of a tree is that of its clean tree, and longer if a separator has nothing in front
of it. -/
def WrittenClean (value : ValueTree F) (depth : Nat) : Prop :=
  (¬LeadingBinary value → value.buildJSONString doubles o true depth =
    value.withoutBinaries.buildJSONString doubles o false depth) ∧
  (LeadingBinary value → (value.withoutBinaries.buildJSONString doubles o false depth).length <
    (value.buildJSONString doubles o true depth).length)

theorem WrittenClean.le {value : ValueTree F} {depth : Nat}
    (h : WrittenClean doubles o value depth) :
    (value.withoutBinaries.buildJSONString doubles o false depth).length ≤
      (value.buildJSONString doubles o true depth).length := by
  by_cases hlead : LeadingBinary value
  · exact Nat.le_of_lt (h.2 hlead)
  · exact Nat.le_of_eq (congrArg List.length (h.1 hlead)).symm

theorem writtenClean_leaf {value : ValueTree F} (hlist : ∀ values, value ≠ .list values)
    (hdictionary : ∀ entries, value ≠ .dictionary entries) (depth : Nat) :
    WrittenClean doubles o value depth := by
  cases value with
  | list values => exact absurd rfl (hlist values)
  | dictionary entries => exact absurd rfl (hdictionary entries)
  | _ => exact ⟨fun _ => rfl, nofun⟩

theorem writtenClean_list {values : List (ValueTree F)} {depth : Nat}
    (h : ∀ value ∈ values, WrittenClean doubles o value depth) :
    WrittenClean doubles o (.list values) depth := by
  constructor
  · intro hnot
    have hitems : buildItems doubles o true depth true values =
        buildItems doubles o false depth true (itemsWithoutBinaries values) := by
      rw [buildItems_omit, buildItems_keep, itemsWithoutBinaries_eq]
      exact joined_eq (fun value hmem _ => (h value hmem).1 fun hlead => hnot (.item hmem hlead))
        fun hfirst => hnot (.list hfirst)
    rw [withoutBinaries, buildJSONString, buildJSONString, hitems]
  · intro hlead
    have hlonger : LosesFirst isBinary values ∨ ∃ value ∈ values, value.isBinary = false ∧
        (value.withoutBinaries.buildJSONString doubles o false depth).length <
          (value.buildJSONString doubles o true depth).length := by
      cases hlead with
      | list hfirst => exact .inl hfirst
      | item hmem hlead => exact .inr ⟨_, hmem, hlead.not_isBinary, (h _ hmem).2 hlead⟩
    have hitems : (buildItems doubles o false depth true (itemsWithoutBinaries values)).length <
        (buildItems doubles o true depth true values).length := by
      rw [buildItems_omit, buildItems_keep, itemsWithoutBinaries_eq]
      exact length_joined_lt (cons_ne_nil _ _) (fun value hmem _ => (h value hmem).le) hlonger
    rw [withoutBinaries, buildJSONString, buildJSONString]
    simp only [length_cons, length_append]
    omega

theorem writtenClean_dictionary {entries : List (Bytes × ValueTree F)} {depth : Nat}
    (h : ∀ entry ∈ entries, WrittenClean doubles o entry.2 (depth + 1)) :
    WrittenClean doubles o (.dictionary entries) depth := by
  constructor
  · intro hnot
    have hents : buildEntries doubles o true depth true entries =
        buildEntries doubles o false depth true (entriesWithoutBinaries entries) := by
      rw [buildEntries_omit, buildEntries_keep, entriesWithoutBinaries_eq]
      refine joined_eq (fun entry hmem _ => ?_) fun hfirst => hnot (.dictionary hfirst)
      rw [entryText, entryText, entryWithoutBinaries,
        (h entry hmem).1 fun hlead => hnot (.entry hmem hlead)]
    rw [withoutBinaries, buildJSONString, buildJSONString, hents]
  · intro hlead
    have hlonger : LosesFirst entryIsBinary entries ∨
        ∃ entry ∈ entries, entryIsBinary entry = false ∧
          (entryText doubles o false depth (entryWithoutBinaries entry)).length <
            (entryText doubles o true depth entry).length := by
      cases hlead with
      | dictionary hfirst => exact .inl hfirst
      | @entry _ entry hmem hlead =>
        have hlt := (h entry hmem).2 hlead
        refine .inr ⟨entry, hmem, hlead.not_isBinary, ?_⟩
        simp only [entryText, entryWithoutBinaries, length_cons, length_append]
        omega
    have hents :
        (buildEntries doubles o false depth true (entriesWithoutBinaries entries)).length <
          (buildEntries doubles o true depth true entries).length := by
      rw [buildEntries_omit, buildEntries_keep, entriesWithoutBinaries_eq]
      refine length_joined_lt (cons_ne_nil _ _) (fun entry hmem _ => ?_) hlonger
      have hle := (h entry hmem).le
      simp only [entryText, entryWithoutBinaries, length_cons, length_append]
      omega
    rw [withoutBinaries, buildJSONString, buildJSONString]
    simp only [length_cons, length_append]
    omega

variable (doubles o) in
theorem writtenClean (value : ValueTree F) : ∀ depth, WrittenClean doubles o value depth := by
  induction value using tree_induction with
  | leaf value hlist hdictionary => exact writtenClean_leaf hlist hdictionary
  | list values ih => exact fun depth => writtenClean_list fun value hmem => ih value hmem depth
  | dictionary entries ih =>
    exact fun depth => writtenClean_dictionary fun entry hmem => ih entry hmem (depth + 1)

/-- Leaving binary values out writes what is written of the tree without them, unless some
container begins with a binary value and goes on with another one: then a separator follows the
opening bracket. -/
theorem omitBinaryValues_exact_iff (doubles : Doubles F) (o : WriterOptions) (node : ValueTree F) :
    node.writeWithOptions doubles o true = node.withoutBinaries.writeWithOptions doubles o false ↔
      ¬LeadingBinary node := by
  have hclean := writtenClean doubles o node 0
  constructor
  · intro heq hlead
    have hlt := hclean.2 hlead
    rw [append_cancel_right heq] at hlt
    exact Nat.lt_irrefl _ hlt
  · intro hnot
    rw [writeWithOptions, writeWithOptions, hclean.1 hnot]

/-- `[<binary>, true]` is written `[,true]`. -/
theorem leading_separator_kept :
    let doubles : Doubles Unit := ⟨fun _ => [], fun _ => none⟩
    let o : WriterOptions := ⟨false, false, false, false⟩
    let node : ValueTree Unit := .list [.binary [], .boolean true]
    node.writeWithOptions doubles o true = openBracket :: comma :: trueLiteral ++ [closeBracket] ∧
      node.withoutBinaries.writeWithOptions doubles o false =
        openBracket :: trueLiteral ++ [closeBracket] ∧
      node.writeWithOptions doubles o true ≠
        node.withoutBinaries.writeWithOptions doubles o false :=
  ⟨rfl, rfl, by decide⟩

end ValueTree

end ChromiumUI.Json
