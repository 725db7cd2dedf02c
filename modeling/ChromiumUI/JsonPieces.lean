import ChromiumUI.JsonDocuments
import ChromiumUI.JsonReach
import ChromiumUI.JsonRoundTrip

/-!
# JSONStringValue

What Parse really builds: a string is one of its own, or a StringPiece into the input, which the
hidden root then keeps. `resolve` reads the pieces; it takes what is built to the values of
`parse`.
-/
namespace ChromiumUI.Json

open ByteMemory Base List

/-- A Value as Parse builds it. `jsonString` is JSONStringValue: where its piece is in the input. -/
inductive Tree (F : Type)
  | null
  | boolean (value : Bool)
  | integer (value : Int)
  | double (value : F)
  | string (value : Bytes)
  | jsonString (pos length : Nat)
  | list (values : List (Tree F))
  | dictionary (entries : List (Bytes × Tree F))

namespace Tree

variable {F : Type}

mutual

/-- A value none of whose strings is a piece. -/
def ofValue : Value F → Tree F
  | .null => .null
  | .boolean value => .boolean value
  | .integer value => .integer value
  | .double value => .double value
  | .string value => .string value
  | .list values => .list (ofValues values)
  | .dictionary entries => .dictionary (ofEntries entries)

def ofValues : List (Value F) → List (Tree F)
  | [] => []
  | value :: values => ofValue value :: ofValues values

def ofEntries : List (Bytes × Value F) → List (Bytes × Tree F)
  | [] => []
  | (key, value) :: entries => (key, ofValue value) :: ofEntries entries

end

/-! ## What a tree stands for -/

section Resolve

variable (mem : Memory)

mutual

/-- The value, its pieces read in the memory they point into. -/
def resolve : Tree F → Value F
  | .null => .null
  | .boolean value => .boolean value
  | .integer value => .integer value
  | .double value => .double value
  | .string value => .string value
  | .jsonString pos length => .string (load mem pos length)
  | .list values => .list (resolveValues values)
  | .dictionary entries => .dictionary (resolveEntries entries)

def resolveValues : List (Tree F) → List (Value F)
  | [] => []
  | value :: values => resolve value :: resolveValues values

def resolveEntries : List (Bytes × Tree F) → List (Bytes × Value F)
  | [] => []
  | (key, value) :: entries => (key, resolve value) :: resolveEntries entries

end

/-! ## DeepCopy -/

mutual

/-- DeepCopy, of the subclass that the value is of. -/
def deepCopy : Tree F → Tree F
  | .null => .null
  | .boolean value => .boolean value
  | .integer value => .integer value
  | .double value => .double value
  | .string value => .string value
  | .jsonString pos length => .string (load mem pos length)
  | .list values => .list (deepCopyValues values)
  | .dictionary entries => .dictionary (deepCopyEntries [] entries)

def deepCopyValues : List (Tree F) → List (Tree F)
  | [] => []
  | value :: values => deepCopy value :: deepCopyValues values

/-- The loop of DictionaryValue::DeepCopy. -/
def deepCopyEntries : List (Bytes × Tree F) → List (Bytes × Tree F) → List (Bytes × Tree F)
  | result, [] => result
  | result, (key, value) :: entries =>
    deepCopyEntries (setWithoutPathExpansion key (deepCopy value) result) entries

end

/-- GetAsString. -/
def getAsString : Tree F → Option Bytes
  | .string value => some value
  | .jsonString pos length => some (load mem pos length)
  | _ => none

end Resolve

/-! ## Equals -/

section Equals

variable (doubleEq : F → F → Bool) (mem mem' : Memory)

mutual

/-- Equals of a value with pieces into `mem` and another with pieces into `mem'`. -/
def equals : Tree F → Tree F → Bool
  | .null, .null => true
  | .boolean lhs, .boolean rhs => lhs == rhs
  | .integer lhs, .integer rhs => lhs == rhs
  | .double lhs, .double rhs => doubleEq lhs rhs
  | .string lhs, other => other.getAsString mem' == some lhs
  | .jsonString pos length, other => other.getAsString mem' == some (load mem pos length)
  | .list lhs, .list rhs => equalsValues lhs rhs
  | .dictionary lhs, .dictionary rhs => equalsEntries lhs rhs
  | _, _ => false

def equalsValues : List (Tree F) → List (Tree F) → Bool
  | [], [] => true
  | lhs :: values, rhs :: values' => equals lhs rhs && equalsValues values values'
  | _, _ => false

/-- The loop of DictionaryValue::Equals. What GetWithoutPathExpansion finds under the key an
iterator is at is the value beside it: a map has each key once. -/
def equalsEntries : List (Bytes × Tree F) → List (Bytes × Tree F) → Bool
  | [], [] => true
  | (key, lhs) :: entries, (key', rhs) :: entries' =>
    key == key' && equals lhs rhs && equalsEntries entries entries'
  | _, _ => false

end

end Equals

/-! ## Reading the pieces -/

section Lemmas

variable {mem mem' : Memory}

mutual

theorem resolve_ofValue : ∀ value : Value F, (ofValue value).resolve mem = value
  | .null => rfl
  | .boolean _ => rfl
  | .integer _ => rfl
  | .double _ => rfl
  | .string _ => rfl
  | .list values => by rw [ofValue, resolve, resolve_ofValues values]
  | .dictionary entries => by rw [ofValue, resolve, resolve_ofEntries entries]

theorem resolve_ofValues : ∀ values : List (Value F), resolveValues mem (ofValues values) = values
  | [] => rfl
  | value :: values => by
    rw [ofValues, resolveValues, resolve_ofValue value, resolve_ofValues values]

theorem resolve_ofEntries : ∀ entries : List (Bytes × Value F),
    resolveEntries mem (ofEntries entries) = entries
  | [] => rfl
  | (key, value) :: entries => by
    rw [ofEntries, resolveEntries, resolve_ofValue value, resolve_ofEntries entries]

end

theorem resolveValues_append (values values' : List (Tree F)) :
    resolveValues mem (values ++ values') =
      resolveValues mem values ++ resolveValues mem values' := by
  induction values with
  | nil => rfl
  | cons value values ih => rw [cons_append, resolveValues, resolveValues, ih, cons_append]

theorem resolveEntries_set (key : Bytes) (value : Tree F) (dict : List (Bytes × Tree F)) :
    resolveEntries mem (setWithoutPathExpansion key value dict) =
      setWithoutPathExpansion key (value.resolve mem) (resolveEntries mem dict) := by
  induction dict with
  | nil => rfl
  | cons entry dict ih =>
    obtain ⟨k, v⟩ := entry
    rw [resolveEntries, setWithoutPathExpansion, setWithoutPathExpansion]
    split
    · rfl
    · split
      · rfl
      · rw [resolveEntries, ih]

end Lemmas

/-! ## Copies and comparisons -/

variable {doubles : F → Prop}

section Copies

variable {mem mem' : Memory}

mutual

/-- A copy has no pieces: wherever they are read, it stands for what the copied value does. -/
theorem resolve_deepCopy : ∀ tree : Tree F, (tree.resolve mem).Ordered doubles →
    (tree.deepCopy mem).resolve mem' = tree.resolve mem
  | .null, _ => rfl
  | .boolean _, _ => rfl
  | .integer _, _ => rfl
  | .double _, _ => rfl
  | .string _, _ => rfl
  | .jsonString _ _, _ => rfl
  | .list values, h => by
    rw [resolve] at h ⊢
    cases h with
    | list h => rw [deepCopy, resolve, resolve_deepCopyValues values h]
  | .dictionary entries, h => by
    rw [resolve] at h ⊢
    cases h with
    | dictionary hsort h =>
      rw [deepCopy, resolve, resolve_deepCopyEntries [] entries h]
      exact congrArg _ (setAll_sorted hsort)

theorem resolve_deepCopyValues : ∀ values : List (Tree F),
    (∀ value ∈ resolveValues mem values, value.Ordered doubles) →
      resolveValues mem' (deepCopyValues mem values) = resolveValues mem values
  | [], _ => rfl
  | value :: values, h => by
    rw [resolveValues] at h
    rw [deepCopyValues, resolveValues, resolveValues,
      resolve_deepCopy value (h _ (mem_cons_self ..)),
      resolve_deepCopyValues values fun v hv => h v (mem_cons_of_mem _ hv)]

theorem resolve_deepCopyEntries : ∀ result entries : List (Bytes × Tree F),
    (∀ entry ∈ resolveEntries mem entries, entry.2.Ordered doubles) →
      resolveEntries mem' (deepCopyEntries mem result entries) =
        setAll (resolveEntries mem entries) (resolveEntries mem' result)
  | _, [], _ => rfl
  | result, (key, value) :: entries, h => by
    rw [resolveEntries] at h
    rw [deepCopyEntries, resolve_deepCopyEntries _ entries fun e he =>
      h e (mem_cons_of_mem _ he), resolveEntries_set,
      resolve_deepCopy value (h (key, value.resolve mem) (mem_cons_self ..))]
    rfl

end

variable {doubleEq : F → F → Bool}

theorem equals_string {value : Bytes} {other : Tree F}
    (h : Value.string value = other.resolve mem') : other.getAsString mem' = some value := by
  cases other <;> simp [resolve] at h <;> subst h <;> rfl

mutual

/-- Trees that stand for one value are Equal. -/
theorem equals_of_resolve (hdoubles : ∀ d, doubles d → doubleEq d d = true) :
    ∀ tree other : Tree F, (tree.resolve mem).Ordered doubles →
      tree.resolve mem = other.resolve mem' → tree.equals doubleEq mem mem' other = true
  | .null, other, _, h => by
    cases other <;> simp [resolve] at h
    rfl
  | .boolean value, other, _, h => by
    cases other <;> simp [resolve] at h
    simp [equals, h]
  | .integer value, other, _, h => by
    cases other <;> simp [resolve] at h
    simp [equals, h]
  | .double value, other, hord, h => by
    cases other <;> simp [resolve] at h
    rw [resolve] at hord
    cases hord with
    | double hvalue =>
      rw [equals, ← h]
      exact hdoubles value hvalue
  | .string value, other, _, h => by
    rw [equals, equals_string h]
    exact beq_self_eq_true _
  | .jsonString pos length, other, _, h => by
    rw [equals, equals_string h]
    exact beq_self_eq_true _
  | .list values, other, hord, h => by
    cases other <;> simp [resolve] at h
    rw [resolve] at hord
    cases hord with
    | list hord =>
      rw [equals]
      exact equalsValues_of_resolve hdoubles values _ hord h
  | .dictionary entries, other, hord, h => by
    cases other <;> simp [resolve] at h
    rw [resolve] at hord
    cases hord with
    | dictionary _ hord =>
      rw [equals]
      exact equalsEntries_of_resolve hdoubles entries _ hord h

theorem equalsValues_of_resolve (hdoubles : ∀ d, doubles d → doubleEq d d = true) :
    ∀ values others : List (Tree F),
      (∀ value ∈ resolveValues mem values, value.Ordered doubles) →
        resolveValues mem values = resolveValues mem' others →
          equalsValues doubleEq mem mem' values others = true
  | [], [], _, _ => rfl
  | [], _ :: _, _, h => by simp [resolveValues] at h
  | _ :: _, [], _, h => by simp [resolveValues] at h
  | value :: values, other :: others, hord, h => by
    rw [resolveValues, resolveValues] at h
    rw [resolveValues] at hord
    obtain ⟨hvalue, hvalues⟩ := cons.inj h
    rw [equalsValues, equals_of_resolve hdoubles value other
        (hord _ (mem_cons_self ..)) hvalue,
      equalsValues_of_resolve hdoubles values others
        (fun v hv => hord v (mem_cons_of_mem _ hv)) hvalues]
    rfl

theorem equalsEntries_of_resolve (hdoubles : ∀ d, doubles d → doubleEq d d = true) :
    ∀ entries others : List (Bytes × Tree F),
      (∀ entry ∈ resolveEntries mem entries, entry.2.Ordered doubles) →
        resolveEntries mem entries = resolveEntries mem' others →
          equalsEntries doubleEq mem mem' entries others = true
  | [], [], _, _ => rfl
  | [], _ :: _, _, h => by simp [resolveEntries] at h
  | _ :: _, [], _, h => by simp [resolveEntries] at h
  | (key, value) :: entries, (key', other) :: others, hord, h => by
    rw [resolveEntries, resolveEntries] at h
    rw [resolveEntries] at hord
    obtain ⟨hentry, hents⟩ := cons.inj h
    obtain ⟨rfl, hvalue⟩ := Prod.mk.inj hentry
    rw [equalsEntries, equals_of_resolve hdoubles value other
        (hord (key, value.resolve mem) (mem_cons_self ..)) hvalue,
      equalsEntries_of_resolve hdoubles entries others
        (fun e he => hord e (mem_cons_of_mem _ he)) hents]
    simp

end

end Copies

end Tree

/-! ## Parse -/

/-- An outcome of `parse`, as one of the parser that makes trees. -/
abbrev Outcome.map {α β : Type} (f : α → β) (o : Outcome α) : Outcome β :=
  Except.map (fun r => (f r.1, r.2)) o

namespace TreeParser

variable {F : Type} (stringToDouble : Bytes → Option F) (options : Options) (input : Input)

/-- ConsumeString. -/
def consumeString (s : State) : Outcome (Tree F) :=
  match input.consumeStringRaw s with
  | .error e => .error e
  | .ok (string, s) =>
    if string.string = none ∧ ¬options.detachableChildren then
      .ok (.jsonString string.pos string.length, s)
    else .ok (.string (string.asString input.mem), s)

/-- The loop of ConsumeList; `parse` is ParseToken one level down. -/
def listLoop (parse : Token → State → Outcome (Tree F)) :
    Nat → Token → State → List (Tree F) → Outcome (Tree F)
  | 0, _, s, _ => .error (reportError .syntaxError 1 s)
  | fuel + 1, token, s, list =>
    if token = .arrayEnd then .ok (.list list, s)
    else
      match parse token s with
      | .error e => .error e
      | .ok (item, s) =>
        match input.getNextToken s.nextChar with
        | (.listSeparator, s) =>
          let (token, s) := input.getNextToken s.nextChar
          if token = .arrayEnd ∧ ¬options.allowTrailingCommas then
            .error (reportError .trailingComma 1 s)
          else listLoop parse fuel token s (list ++ [item])
        | (.arrayEnd, s) => listLoop parse fuel .arrayEnd s (list ++ [item])
        | (_, s) => .error (reportError .syntaxError 1 s)

/-- ConsumeList. -/
def consumeList (parse : Option (Token → State → Outcome (Tree F))) (s : State) :
    Outcome (Tree F) :=
  if input.cur s ≠ openBracket then .error (reportError .unexpectedToken 1 s)
  else
    match parse with
    | none => .error (reportError .tooMuchNesting 1 s)
    | some parse =>
      let (token, s) := input.getNextToken s.nextChar
      listLoop options input parse (input.length + 1) token s []

/-- The loop of ConsumeDictionary. -/
def dictionaryLoop (parse : Token → State → Outcome (Tree F)) :
    Nat → Token → State → List (Bytes × Tree F) → Outcome (Tree F)
  | 0, _, s, _ => .error (reportError .syntaxError 0 s)
  | fuel + 1, token, s, dict =>
    if token = .objectEnd then .ok (.dictionary dict, s)
    else if token ≠ .string then .error (reportError .unquotedDictionaryKey 1 s)
    else
      match input.consumeStringRaw s with
      | .error e => .error e
      | .ok (key, s) =>
        let (token, s) := input.getNextToken s.nextChar
        if token ≠ .objectPairSeparator then .error (reportError .syntaxError 1 s)
        else
          let (token, s) := input.getNextToken s.nextChar
          match parse token s with
          | .error e => .error e
          | .ok (value, s) =>
            let dict := setWithoutPathExpansion (key.asString input.mem) value dict
            match input.getNextToken s.nextChar with
            | (.listSeparator, s) =>
              let (token, s) := input.getNextToken s.nextChar
              if token = .objectEnd ∧ ¬options.allowTrailingCommas then
                .error (reportError .trailingComma 1 s)
              else dictionaryLoop parse fuel token s dict
            | (.objectEnd, s) => dictionaryLoop parse fuel .objectEnd s dict
            | (_, s) => .error (reportError .syntaxError 0 s)

/-- ConsumeDictionary. -/
def consumeDictionary (parse : Option (Token → State → Outcome (Tree F))) (s : State) :
    Outcome (Tree F) :=
  if input.cur s ≠ openBrace then .error (reportError .unexpectedToken 1 s)
  else
    match parse with
    | none => .error (reportError .tooMuchNesting 1 s)
    | some parse =>
      let (token, s) := input.getNextToken s.nextChar
      dictionaryLoop options input parse (input.length + 1) token s []

/-- The switch of ParseToken. Numbers and literals are no strings. -/
def parseTokenWith (parse : Option (Token → State → Outcome (Tree F))) (token : Token)
    (s : State) : Outcome (Tree F) :=
  match token with
  | .objectBegin => consumeDictionary options input parse s
  | .arrayBegin => consumeList options input parse s
  | .string => consumeString options input s
  | .number => (input.consumeNumber stringToDouble s).map Tree.ofValue
  | .boolTrue | .boolFalse | .null => (input.consumeLiteral s).map Tree.ofValue
  | _ => .error (reportError .unexpectedToken 1 s)

/-- ParseToken with room for so many more levels of the stack. -/
def parseToken : Nat → Token → State → Outcome (Tree F)
  | 0 => parseTokenWith stringToDouble options input none
  | levels + 1 => parseTokenWith stringToDouble options input (some (parseToken levels))

end TreeParser

/-- What Parse returns: a value, and the json_ that a hidden root keeps. -/
structure Root (F : Type) where
  json : Memory
  value : Tree F

/-- No json_ is kept. -/
def noJson : Memory := fun _ => 0

namespace Root

variable {F : Type}

/-- The end of Parse: a dictionary or a list is wrapped in a hidden root, a string is copied. -/
def ofTree (options : Options) (inputCopy : Memory) (root : Tree F) : Root F :=
  if options.detachableChildren then ⟨noJson, root⟩
  else
    match root with
    | .dictionary _ | .list _ => ⟨inputCopy, root⟩
    | .string _ | .jsonString _ _ => ⟨noJson, root.deepCopy inputCopy⟩
    | _ => ⟨noJson, root⟩

/-- JSONParser::Parse; on Windows the children are always detachable. -/
def parse (stringToDouble : Bytes → Option F) (options : Options) (input : Input) :
    Except ParseError (Root F) :=
  let input := inputFor options input
  let (token, s) := input.getNextToken (input.skipByteOrderMark ⟨0, 0, 1, 0⟩)
  match TreeParser.parseToken stringToDouble options input (kStackMaxDepth - 1) token s with
  | .error e => .error e
  | .ok (root, s) =>
    match input.atEnd s with
    | .error e => .error e
    | .ok () => .ok (ofTree options input.mem root)

def equals (doubleEq : F → F → Bool) (root other : Root F) : Bool :=
  root.value.equals doubleEq root.json other.json other.value

/-- A copy of a hidden root is none. -/
def deepCopy (root : Root F) : Root F := ⟨noJson, root.value.deepCopy root.json⟩

def resolve (root : Root F) : Value F := root.value.resolve root.json

end Root

/-! ## What the trees stand for -/

section Simulation

variable {F : Type} {stringToDouble : Bytes → Option F} {options : Options} {input : Input}
  {mem : Memory}

@[simp] theorem Outcome.map_ok {α β : Type} (f : α → β) (v : α) (s : State) :
    Outcome.map f (.ok (v, s)) = .ok (f v, s) := rfl

theorem Outcome.map_map {α β γ : Type} (f : α → β) (g : β → γ) (o : Outcome α) :
    Outcome.map g (Outcome.map f o) = Outcome.map (g ∘ f) o := by
  cases o <;> rfl

/-- Pieces point into `mem`, if there are any. -/
def PiecesIn (options : Options) (input : Input) (mem : Memory) : Prop :=
  options.detachableChildren = false → mem = input.mem

theorem consumeString_resolve (hmem : PiecesIn options input mem) (s : State) :
    Outcome.map (Tree.resolve mem) (TreeParser.consumeString options input s) =
      (input.consumeString s : Outcome (Value F)) := by
  unfold TreeParser.consumeString Input.consumeString
  cases hraw : input.consumeStringRaw s with
  | error e => rfl
  | ok r =>
    obtain ⟨string, s'⟩ := r
    simp only
    split
    · rename_i hpiece
      have hattached : options.detachableChildren = false := by simpa using hpiece.2
      rw [Outcome.map_ok, Tree.resolve, hmem hattached, StringBuilder.asString, hpiece.1]
      rfl
    · rfl

variable {parse : Token → State → Outcome (Tree F)} {parse' : Token → State → Outcome (Value F)}

section

variable (hparse : ∀ token s, Outcome.map (Tree.resolve mem) (parse token s) = parse' token s)
include hparse

theorem listLoop_resolve (fuel : Nat) (token : Token) (s : State) (list : List (Tree F)) :
    Outcome.map (Tree.resolve mem) (TreeParser.listLoop options input parse fuel token s list) =
      input.listLoop options parse' fuel token s (Tree.resolveValues mem list) := by
  induction fuel generalizing token s list with
  | zero => rfl
  | succ fuel ih =>
    rw [TreeParser.listLoop, Input.listLoop]
    split
    · rw [Outcome.map_ok, Tree.resolve]
    rw [← hparse]
    cases parse token s with
    | error e => rfl
    | ok r =>
      obtain ⟨item, t⟩ := r
      have hlist : Tree.resolveValues mem (list ++ [item]) =
          Tree.resolveValues mem list ++ [item.resolve mem] :=
        Tree.resolveValues_append list [item]
      simp only [Outcome.map_ok, ← hlist, ← ih]
      obtain ⟨nextToken, u⟩ := input.getNextToken t.nextChar
      cases nextToken with
      | listSeparator =>
        dsimp only
        split_ifs <;> rfl
      | _ => rfl

theorem dictionaryLoop_resolve
    (fuel : Nat) (token : Token) (s : State) (dict : List (Bytes × Tree F)) :
    Outcome.map (Tree.resolve mem)
        (TreeParser.dictionaryLoop options input parse fuel token s dict) =
      input.dictionaryLoop options parse' fuel token s (Tree.resolveEntries mem dict) := by
  induction fuel generalizing token s dict with
  | zero => rfl
  | succ fuel ih =>
    rw [TreeParser.dictionaryLoop, Input.dictionaryLoop]
    split
    · rw [Outcome.map_ok, Tree.resolve]
    split
    · rfl
    cases input.consumeStringRaw s with
    | error e => rfl
    | ok r =>
      obtain ⟨key, t⟩ := r
      simp only
      generalize input.getNextToken t.nextChar = pair
      split
      · rfl
      generalize input.getNextToken pair.2.nextChar = first
      rw [← hparse]
      cases parse first.1 first.2 with
      | error e => rfl
      | ok r' =>
        obtain ⟨value, u⟩ := r'
        simp only [Outcome.map_ok, ← Tree.resolveEntries_set, ← ih]
        obtain ⟨nextToken, v⟩ := input.getNextToken u.nextChar
        cases nextToken with
        | listSeparator =>
          dsimp only
          split_ifs <;> rfl
        | _ => rfl

end

/-- A level of ParseToken, when its containers are the same. -/
theorem parseTokenWith_resolve (hmem : PiecesIn options input mem)
    {below : Option (Token → State → Outcome (Tree F))}
    {below' : Option (Token → State → Outcome (Value F))}
    (hlist : ∀ s, Outcome.map (Tree.resolve mem) (TreeParser.consumeList options input below s) =
      input.consumeList options below' s)
    (hdictionary : ∀ s, Outcome.map (Tree.resolve mem)
        (TreeParser.consumeDictionary options input below s) =
      input.consumeDictionary options below' s) (token : Token) (s : State) :
    Outcome.map (Tree.resolve mem)
        (TreeParser.parseTokenWith stringToDouble options input below token s) =
      input.parseTokenWith stringToDouble options below' token s := by
  have hvalue (o : Outcome (Value F)) :
      Outcome.map (Tree.resolve mem) (Outcome.map Tree.ofValue o) = o := by
    rw [Outcome.map_map]
    rcases o with e | ⟨v, s'⟩
    · rfl
    · exact congrArg (fun v => (Except.ok (v, s') : Outcome (Value F))) (Tree.resolve_ofValue v)
  cases token with
  | objectBegin => exact hdictionary s
  | arrayBegin => exact hlist s
  | string => exact consumeString_resolve hmem s
  | number => exact hvalue _
  | boolTrue => exact hvalue _
  | boolFalse => exact hvalue _
  | null => exact hvalue _
  | _ => rfl

/-- ParseToken makes a tree of the value that `Input.parseToken` returns. -/
theorem parseToken_resolve (hmem : PiecesIn options input mem) (levels : Nat) (token : Token)
    (s : State) :
    Outcome.map (Tree.resolve mem)
        (TreeParser.parseToken stringToDouble options input levels token s) =
      input.parseToken stringToDouble options levels token s := by
  induction levels generalizing token s with
  | zero =>
    refine parseTokenWith_resolve hmem (fun s => ?_) (fun s => ?_) token s
    · unfold TreeParser.consumeList Input.consumeList
      split <;> rfl
    · unfold TreeParser.consumeDictionary Input.consumeDictionary
      split <;> rfl
  | succ levels ih =>
    refine parseTokenWith_resolve hmem (fun s => ?_) (fun s => ?_) token s
    · unfold TreeParser.consumeList Input.consumeList
      split
      · rfl
      · exact listLoop_resolve ih _ _ _ []
    · unfold TreeParser.consumeDictionary Input.consumeDictionary
      split
      · rfl
      · exact dictionaryLoop_resolve ih _ _ _ []

/-- What a hidden root does not keep has no pieces. -/
theorem ofTree_resolve (root : Tree F) (hdetached : options.detachableChildren = true →
    root.resolve noJson = root.resolve input.mem) :
    (Root.ofTree options input.mem root).resolve = root.resolve input.mem := by
  unfold Root.ofTree
  split
  · rename_i hdet
    exact hdetached hdet
  · cases root <;> rfl

theorem parse_resolve : (Root.parse stringToDouble options input).map Root.resolve =
    Json.parse stringToDouble options input := by
  unfold Root.parse Json.parse
  dsimp only
  generalize inputFor options input = copy
  generalize copy.getNextToken (copy.skipByteOrderMark ⟨0, 0, 1, 0⟩) = first
  have hmem : PiecesIn options copy copy.mem := fun _ => rfl
  rw [← parseToken_resolve hmem (kStackMaxDepth - 1) first.1 first.2]
  have hdetached (hdet : options.detachableChildren = true) :
      Outcome.map (Tree.resolve noJson) (TreeParser.parseToken stringToDouble options copy
          (kStackMaxDepth - 1) first.1 first.2) =
        Outcome.map (Tree.resolve copy.mem) (TreeParser.parseToken stringToDouble options copy
          (kStackMaxDepth - 1) first.1 first.2) := by
    have hnone : PiecesIn options copy noJson := fun hattached => by
      rw [hdet] at hattached
      cases hattached
    rw [parseToken_resolve hmem, parseToken_resolve hnone]
  cases hroot : TreeParser.parseToken stringToDouble options copy (kStackMaxDepth - 1) first.1
      first.2 with
  | error e => rfl
  | ok r =>
    obtain ⟨root, s⟩ := r
    rw [hroot] at hdetached
    simp only [Outcome.map_ok]
    cases copy.atEnd s with
    | error e => rfl
    | ok _ =>
      refine congrArg Except.ok (ofTree_resolve root fun hdet => ?_)
      exact (Prod.mk.inj (Except.ok.inj (hdetached hdet))).1

end Simulation

/-! ## With and without pieces -/

section Pieces

variable {F : Type} {stringToDouble : Bytes → Option F} {doubleEq : F → F → Bool}

/-- Equal both ways. -/
def Root.Equal (doubleEq : F → F → Bool) (root other : Root F) : Prop :=
  root.equals doubleEq other = true ∧ other.equals doubleEq root = true

/-- Roots that stand for one value are Equal. -/
theorem Root.equal_of_resolve (hdoubles : ∀ d, Converted stringToDouble d → doubleEq d d = true)
    {root other : Root F} {v : Value F} (hord : v.Ordered (Converted stringToDouble))
    (hroot : root.resolve = v) (hother : other.resolve = v) : root.Equal doubleEq other := by
  subst hroot
  constructor
  · exact Tree.equals_of_resolve hdoubles root.value other.value hord hother.symm
  · rw [← hother] at hord
    exact Tree.equals_of_resolve hdoubles other.value root.value hord hother

theorem Root.resolve_deepCopy {root : Root F} {doubles : F → Prop}
    (hord : root.resolve.Ordered doubles) : root.deepCopy.resolve = root.resolve :=
  Tree.resolve_deepCopy root.value hord

theorem map_eq_error {α β : Type} {f : α → β} {o : Except ParseError α} {e : ParseError}
    (h : o.map f = .error e) : o = .error e := by
  cases o with
  | error e' => exact congrArg Except.error (Except.error.inj h)
  | ok v => cases h

theorem map_eq_ok {α β : Type} {f : α → β} {o : Except ParseError α} {w : β}
    (h : o.map f = .ok w) : ∃ v, o = .ok v ∧ f v = w := by
  cases o with
  | error e => cases h
  | ok v => exact ⟨v, rfl, Except.ok.inj h⟩

/-- A list of a plain string, of one with an escape and a two byte character, and of a double. -/
def mixedText : Bytes :=
  [openBracket, quote, 0x61, quote, comma, quote, backslash, 0x6e, 0xc3, 0xa9, quote, comma,
    0x30, dot, 0x35, closeBracket]

/-- StringToDouble, of one half only. -/
def halfOnly (text : Bytes) : Option Bool := if text = [0x30, dot, 0x35] then some true else none

end Pieces

end ChromiumUI.Json
