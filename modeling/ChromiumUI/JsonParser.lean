import ChromiumUI.NumberConversions

/-!
# JSONParser

The recursive descent parser over a buffer with two cursors, `pos` and `index`. Offsets count
from start_pos_. StringToDouble, with the check that its result is finite, is a parameter.
-/
namespace ChromiumUI.Json

open ByteMemory Base

/-- JsonParseError. -/
inductive ErrorCode
  | noError
  | invalidEscape
  | syntaxError
  | unexpectedToken
  | trailingComma
  | tooMuchNesting
  | unexpectedDataAfterRoot
  | unsupportedEncoding
  | unquotedDictionaryKey
  deriving DecidableEq, Repr

/-- error_code_, error_line_ and error_column_ when no value is returned. -/
structure ParseError where
  code : ErrorCode
  line : Nat
  column : Int
  deriving DecidableEq, Repr

/-- A Value without binaries; a dictionary in the order of its keys. -/
inductive Value (F : Type)
  | null
  | boolean (value : Bool)
  | integer (value : Int)
  | double (value : F)
  | string (value : Bytes)
  | list (values : List (Value F))
  | dictionary (entries : List (Bytes × Value F))

/-- DictionaryValue::SetWithoutPathExpansion. -/
def setWithoutPathExpansion {V : Type} (key : Bytes) (value : V) :
    List (Bytes × V) → List (Bytes × V)
  | [] => [(key, value)]
  | (k, v) :: entries =>
    if key < k then (key, value) :: (k, v) :: entries
    else if key = k then (key, value) :: entries
    else (k, v) :: setWithoutPathExpansion key value entries

/-- JSONParserOptions. -/
structure Options where
  allowTrailingCommas : Bool
  detachableChildren : Bool

/-- The buffer from start_pos_ on, and end_pos_. -/
structure Input where
  mem : Memory
  length : Nat

structure State where
  pos : Nat
  index : Nat
  lineNumber : Nat
  indexLastLine : Nat
  deriving DecidableEq, Repr

abbrev Outcome (α : Type) := Except ParseError (α × State)

inductive Token
  | objectBegin
  | objectEnd
  | arrayBegin
  | arrayEnd
  | string
  | number
  | boolTrue
  | boolFalse
  | null
  | listSeparator
  | objectPairSeparator
  | endOfInput
  | invalidToken
  deriving DecidableEq, Repr

/-! ## Bytes the parser looks for -/

abbrev quote : UInt8 := 0x22
abbrev comma : UInt8 := 0x2c
abbrev minus : UInt8 := 0x2d
abbrev plus : UInt8 := 0x2b
abbrev dot : UInt8 := 0x2e
abbrev slash : UInt8 := 0x2f
abbrev star : UInt8 := 0x2a
abbrev colon : UInt8 := 0x3a
abbrev openBracket : UInt8 := 0x5b
abbrev backslash : UInt8 := 0x5c
abbrev closeBracket : UInt8 := 0x5d
abbrev openBrace : UInt8 := 0x7b
abbrev closeBrace : UInt8 := 0x7d
abbrev space : UInt8 := 0x20
abbrev tab : UInt8 := 0x09
abbrev newline : UInt8 := 0x0a
abbrev carriageReturn : UInt8 := 0x0d
abbrev letterE : UInt8 := 0x65
abbrev capitalE : UInt8 := 0x45
abbrev letterU : UInt8 := 0x75
abbrev letterX : UInt8 := 0x78

def trueLiteral : Bytes := [0x74, 0x72, 0x75, 0x65]

def falseLiteral : Bytes := [0x66, 0x61, 0x6c, 0x73, 0x65]

def nullLiteral : Bytes := [0x6e, 0x75, 0x6c, 0x6c]

/-- IsAsciiDigit. -/
def isAsciiDigit (b : UInt8) : Bool := 0x30 ≤ b && b ≤ 0x39

/-- The switch of GetNextToken. -/
def tokenOf (b : UInt8) : Token :=
  if b = openBrace then .objectBegin
  else if b = closeBrace then .objectEnd
  else if b = openBracket then .arrayBegin
  else if b = closeBracket then .arrayEnd
  else if b = quote then .string
  else if isAsciiDigit b ∨ b = minus then .number
  else if b = 0x74 then .boolTrue
  else if b = 0x66 then .boolFalse
  else if b = 0x6e then .null
  else if b = comma then .listSeparator
  else if b = colon then .objectPairSeparator
  else .invalidToken

/-- The single characters allowed behind a backslash, and what they stand for. -/
def simpleEscape (b : UInt8) : Option UInt8 :=
  [(quote, quote), (backslash, backslash), (slash, slash), (0x62, 0x08), (0x66, 0x0c),
    (0x6e, 0x0a), (0x72, 0x0d), (0x74, 0x09), (0x76, 0x0b)].lookup b

/-! ## StringBuilder -/

structure StringBuilder where
  pos : Nat
  length : Nat
  string : Option Bytes

namespace StringBuilder

def append (b : StringBuilder) (c : UInt8) : StringBuilder :=
  match b.string with
  | some str => { b with string := some (str ++ [c]) }
  | none => { b with length := b.length + 1 }

def appendString (b : StringBuilder) (str : Bytes) : StringBuilder :=
  { b with string := b.string.map (· ++ str) }

def convert (mem : Memory) (b : StringBuilder) : StringBuilder :=
  match b.string with
  | some _ => b
  | none => { b with string := some (load mem b.pos b.length) }

def asString (mem : Memory) (b : StringBuilder) : Bytes :=
  b.string.getD (load mem b.pos b.length)

end StringBuilder

/-- DecodeUTF8. -/
def decodeUTF8 (mem : Memory) (point : Nat) (dest : StringBuilder) : StringBuilder :=
  if point < 0x80 then dest.append (UInt8.ofNat point)
  else (dest.convert mem).appendString (appendUnsafe point)

/-- An `int` converted to `char`. -/
def toChar (v : Int) : UInt8 := UInt8.ofNat (v % 256).toNat

/-- An `int` converted to `uint32`. -/
def toUInt32 (v : Int) : Nat := (v % 2 ^ 32).toNat

/-- The value of the text of a number. -/
def numberValue {F : Type} (stringToDouble : Bytes → Option F) (text : Bytes) :
    Option (Value F) :=
  match stringToInt text with
  | some v => some (.integer v)
  | none => (stringToDouble text).map .double

/-- What append takes of a char array: the bytes in front of the first NUL. -/
def cString (bytes : Bytes) : Bytes := bytes.takeWhile (· != 0)

/-! ## Cursors -/

namespace State

/-- NextNChars. -/
def nextNChars (s : State) (n : Nat) : State := { s with pos := s.pos + n, index := s.index + n }

/-- NextChar. -/
def nextChar (s : State) : State := s.nextNChars 1

@[simp] theorem nextNChars_pos (s : State) (n : Nat) : (s.nextNChars n).pos = s.pos + n := rfl

@[simp] theorem nextNChars_index (s : State) (n : Nat) : (s.nextNChars n).index = s.index + n :=
  rfl

@[simp] theorem nextChar_pos (s : State) : s.nextChar.pos = s.pos + 1 := rfl

@[simp] theorem nextChar_index (s : State) : s.nextChar.index = s.index + 1 := rfl

end State

def reportError (code : ErrorCode) (columnAdjust : Int) (s : State) : ParseError :=
  ⟨code, s.lineNumber, s.index - s.indexLastLine + columnAdjust⟩

namespace Input

variable (input : Input)

variable (s : State)

/-- CanConsume. -/
abbrev canConsume (length : Nat) : Prop := s.pos + length ≤ input.length

/-- The byte at pos_. -/
abbrev cur : UInt8 := input.mem s.pos

/-! ## Whitespace and comments -/

/-- The loop over a single line comment. -/
def eatLine : Nat → State → Bool × State
  | 0, s => (false, s)
  | fuel + 1, s =>
    if input.canConsume s 1 then
      let s := s.nextChar
      if input.cur s = newline ∨ input.cur s = carriageReturn then (true, s) else eatLine fuel s
    else (false, s)

/-- The loop over a block comment. -/
def eatBlock : Nat → State → Bool × State
  | 0, s => (false, s)
  | fuel + 1, s =>
    if input.canConsume s 2 then
      let s := s.nextChar
      if input.cur s = star then
        let s := s.nextChar
        if input.cur s = slash then (true, s.nextChar) else eatBlock fuel s
      else eatBlock fuel s
    else (false, s)

/-- EatComment. -/
def eatComment : Bool × State :=
  if input.cur s ≠ slash ∨ ¬input.canConsume s 1 then (false, s)
  else
    let s := s.nextChar
    if input.cur s = slash then input.eatLine input.length s
    else if input.cur s = star then input.eatBlock input.length s
    else (false, s)

/-- The loop of EatWhitespaceAndComments. -/
def eatLoop : Nat → State → State
  | 0, s => s
  | fuel + 1, s =>
    if s.pos < input.length then
      if input.cur s = carriageReturn ∨ input.cur s = newline then
        eatLoop fuel { s with indexLastLine := s.index, lineNumber := s.lineNumber + 1 }.nextChar
      else if input.cur s = space ∨ input.cur s = tab then eatLoop fuel s.nextChar
      else if input.cur s = slash then
        let (eaten, s) := input.eatComment s
        if eaten then eatLoop fuel s else s
      else s
    else s

/-- EatWhitespaceAndComments. -/
def eatWhitespaceAndComments : State := input.eatLoop input.length s

def getNextToken : Token × State :=
  let s := input.eatWhitespaceAndComments s
  if input.canConsume s 1 then (tokenOf (input.cur s), s) else (.endOfInput, s)

/-! ## Strings -/

/-- DecodeUTF16. -/
def decodeUTF16 : Option Bytes × State :=
  if ¬input.canConsume s 4 then (none, s)
  else match hexStringToInt (load input.mem s.pos 4) with
  | none => (none, s)
  | some high =>
    let s := s.nextNChars 3
    if isSurrogate (toUInt32 high) then
      if ¬isSurrogateLead (toUInt32 high) then (none, s)
      else if ¬input.canConsume s 6 then (none, s)
      else
        let s := s.nextChar
        if input.cur s ≠ backslash then (none, s)
        else
          let s := s.nextChar
          if input.cur s ≠ letterU then (none, s)
          else
            let s := s.nextChar
            match hexStringToInt (load input.mem s.pos 4) with
            | none => (none, s)
            | some low =>
              let s := s.nextNChars 3
              if ¬isTrailUnit (toUInt32 low) then (none, s)
              else
                (some (cString (appendUnsafe (getSupplementary (toUInt32 high) (toUInt32 low)))),
                  s)
    else (some (cString (appendUnsafe (toUInt32 high))), s)

/-- The switch of ConsumeStringRaw over what follows a backslash. -/
def consumeEscape (string : StringBuilder) :
    Except ParseError (StringBuilder × State) :=
  if ¬input.canConsume s 1 then .error (reportError .invalidEscape 0 s)
  else
    let s := s.nextChar
    if input.cur s = letterX then
      if ¬input.canConsume s 2 then .error (reportError .invalidEscape 1 s)
      else
        let s := s.nextChar
        match hexStringToInt (load input.mem s.pos 2) with
        | none => .error (reportError .invalidEscape (-1) s)
        | some hexDigit =>
          let s := s.nextChar
          if hexDigit < 0x80 then .ok (string.append (toChar hexDigit), s)
          else .ok (decodeUTF8 input.mem hexDigit.toNat string, s)
    else if input.cur s = letterU then
      if ¬input.canConsume s 5 then .error (reportError .invalidEscape 0 s)
      else
        match input.decodeUTF16 s.nextChar with
        | (none, s) => .error (reportError .invalidEscape (-1) s)
        | (some units, s) => .ok (string.appendString units, s)
    else
      match simpleEscape (input.cur s) with
      | some c => .ok (string.append c, s)
      | none => .error (reportError .invalidEscape 0 s)

/-- The loop of ConsumeStringRaw. -/
def consumeChars : Nat → State → StringBuilder → Except ParseError (StringBuilder × State)
  | 0, s, _ => .error (reportError .syntaxError 0 s)
  | fuel + 1, s, string =>
    if input.canConsume s 1 then
      let next := cbu8Next input.mem s.index input.length
      let s := { s with pos := s.index, index := next.2 }
      match next.1 with
      | none => .error (reportError .unsupportedEncoding 1 s)
      | some nextChar =>
        if ¬isValidCharacter nextChar then .error (reportError .unsupportedEncoding 1 s)
        else if nextChar = backslash.toNat then
          match input.consumeEscape s (string.convert input.mem) with
          | .error e => .error e
          | .ok (string, s) => consumeChars fuel s string
        else if nextChar = quote.toNat then .ok (string, { s with index := s.index - 1 })
        else if nextChar < 0x80 then consumeChars fuel s (string.append (UInt8.ofNat nextChar))
        else consumeChars fuel s (decodeUTF8 input.mem nextChar string)
    else .error (reportError .syntaxError 0 s)

/-- ConsumeStringRaw. -/
def consumeStringRaw : Except ParseError (StringBuilder × State) :=
  if input.cur s ≠ quote then .error (reportError .unexpectedToken 1 s)
  else input.consumeChars (input.length + 1) s.nextChar ⟨s.pos + 1, 0, none⟩

/-! ## Numbers and literals -/

/-- The loop of ReadInt: how many digits, and where it stops. -/
def readDigits : Nat → State → Nat → Nat × State
  | 0, s, len => (len, s)
  | fuel + 1, s, len =>
    if input.canConsume s 1 ∧ isAsciiDigit (input.cur s) then
      readDigits fuel s.nextChar (len + 1)
    else (len, s)

def readInt (allowLeadingZeros : Bool) (s : State) : Bool × State :=
  let (len, s') := input.readDigits input.length s 0
  if len = 0 then (false, s')
  else if ¬allowLeadingZeros ∧ len > 1 ∧ input.cur s = 0x30 then (false, s')
  else (true, s')

/-- The optional fraction part of ConsumeNumber. -/
def readFraction : Except ParseError State :=
  if input.cur s = dot then
    if ¬input.canConsume s 1 then .error (reportError .syntaxError 1 s)
    else
      match input.readInt true s.nextChar with
      | (false, s) => .error (reportError .syntaxError 1 s)
      | (true, s) => .ok s
  else .ok s

/-- The optional exponent part of ConsumeNumber. -/
def readExponent : Except ParseError State :=
  if input.cur s = letterE ∨ input.cur s = capitalE then
    let s := s.nextChar
    let s := if input.cur s = minus ∨ input.cur s = plus then s.nextChar else s
    match input.readInt true s with
    | (false, s) => .error (reportError .syntaxError 1 s)
    | (true, s) => .ok s
  else .ok s

variable {F : Type} (stringToDouble : Bytes → Option F)

/-- The end of ConsumeNumber: the next token is looked at, and the cursors go back. -/
def finishNumber (start s : State) : Outcome (Value F) :=
  match input.getNextToken s with
  | (.objectEnd, t) | (.arrayEnd, t) | (.listSeparator, t) | (.endOfInput, t) =>
    match numberValue stringToDouble (load input.mem start.pos (s.index - start.index)) with
    | some v => .ok (v, { t with pos := s.pos - 1, index := s.index - 1 })
    | none => .error ⟨.noError, 0, 0⟩
  | (_, t) => .error (reportError .syntaxError 1 t)

def consumeNumber (start : State) : Outcome (Value F) :=
  let s := if input.cur start = minus then start.nextChar else start
  match input.readInt false s with
  | (false, s) => .error (reportError .syntaxError 1 s)
  | (true, s) =>
    match (input.readFraction s).bind input.readExponent with
    | .error e => .error e
    | .ok s => input.finishNumber stringToDouble start s

/-- A case of ConsumeLiteral. -/
def consumeWord (word : Bytes) (value : Value F) (s : State) : Outcome (Value F) :=
  if input.canConsume s (word.length - 1) ∧ load input.mem s.pos word.length = word then
    .ok (value, s.nextNChars (word.length - 1))
  else .error (reportError .syntaxError 1 s)

def consumeLiteral : Outcome (Value F) :=
  if input.cur s = 0x74 then input.consumeWord trueLiteral (.boolean true) s
  else if input.cur s = 0x66 then input.consumeWord falseLiteral (.boolean false) s
  else if input.cur s = 0x6e then input.consumeWord nullLiteral .null s
  else .error (reportError .unexpectedToken 1 s)

/-- ConsumeString. -/
def consumeString : Outcome (Value F) :=
  match input.consumeStringRaw s with
  | .error e => .error e
  | .ok (string, s) => .ok (.string (string.asString input.mem), s)

/-! ## Containers -/

variable (options : Options)

/-- The loop of ConsumeList; `parse` is ParseToken one level down. -/
def listLoop (parse : Token → State → Outcome (Value F)) :
    Nat → Token → State → List (Value F) → Outcome (Value F)
  | 0, _, s, _ => .error (reportError .syntaxError 1 s)
  | fuel + 1, token, s, list =>
    if token = .arrayEnd then .ok (.list list, s)
    else
      match parse token s with
      | .error e => .error e
      | .ok (item, s) =>
        match input.getNextToken s.nextChar with
        | (.listSeparator, s) =>
          let (token, s) := input.getNextToken s.nextChar
          if token = .arrayEnd ∧ ¬options.allowTrailingCommas then
            .error (reportError .trailingComma 1 s)
          else listLoop parse fuel token s (list ++ [item])
        | (.arrayEnd, s) => listLoop parse fuel .arrayEnd s (list ++ [item])
        | (_, s) => .error (reportError .syntaxError 1 s)

/-- ConsumeList; `parse` is there when the stack is not too deep. -/
def consumeList (parse : Option (Token → State → Outcome (Value F))) (s : State) :
    Outcome (Value F) :=
  if input.cur s ≠ openBracket then .error (reportError .unexpectedToken 1 s)
  else
    match parse with
    | none => .error (reportError .tooMuchNesting 1 s)
    | some parse =>
      let (token, s) := input.getNextToken s.nextChar
      input.listLoop options parse (input.length + 1) token s []

/-- The loop of ConsumeDictionary. -/
def dictionaryLoop (parse : Token → State → Outcome (Value F)) :
    Nat → Token → State → List (Bytes × Value F) → Outcome (Value F)
  | 0, _, s, _ => .error (reportError .syntaxError 0 s)
  | fuel + 1, token, s, dict =>
    if token = .objectEnd then .ok (.dictionary dict, s)
    else if token ≠ .string then .error (reportError .unquotedDictionaryKey 1 s)
    else
      match input.consumeStringRaw s with
      | .error e => .error e
      | .ok (key, s) =>
        let (token, s) := input.getNextToken s.nextChar
        if token ≠ .objectPairSeparator then .error (reportError .syntaxError 1 s)
        else
          let (token, s) := input.getNextToken s.nextChar
          match parse token s with
          | .error e => .error e
          | .ok (value, s) =>
            let dict := setWithoutPathExpansion (key.asString input.mem) value dict
            match input.getNextToken s.nextChar with
            | (.listSeparator, s) =>
              let (token, s) := input.getNextToken s.nextChar
              if token = .objectEnd ∧ ¬options.allowTrailingCommas then
                .error (reportError .trailingComma 1 s)
              else dictionaryLoop parse fuel token s dict
            | (.objectEnd, s) => dictionaryLoop parse fuel .objectEnd s dict
            | (_, s) => .error (reportError .syntaxError 0 s)

/-- ConsumeDictionary. -/
def consumeDictionary (parse : Option (Token → State → Outcome (Value F))) (s : State) :
    Outcome (Value F) :=
  if input.cur s ≠ openBrace then .error (reportError .unexpectedToken 1 s)
  else
    match parse with
    | none => .error (reportError .tooMuchNesting 1 s)
    | some parse =>
      let (token, s) := input.getNextToken s.nextChar
      input.dictionaryLoop options parse (input.length + 1) token s []

/-- The switch of ParseToken. -/
def parseTokenWith (parse : Option (Token → State → Outcome (Value F))) (token : Token)
    (s : State) : Outcome (Value F) :=
  match token with
  | .objectBegin => input.consumeDictionary options parse s
  | .arrayBegin => input.consumeList options parse s
  | .string => input.consumeString s
  | .number => input.consumeNumber stringToDouble s
  | .boolTrue | .boolFalse | .null => input.consumeLiteral s
  | _ => .error (reportError .unexpectedToken 1 s)

/-- ParseToken with room for so many more levels of the stack. -/
def parseToken : Nat → Token → State → Outcome (Value F)
  | 0 => input.parseTokenWith stringToDouble options none
  | levels + 1 => input.parseTokenWith stringToDouble options (some (parseToken levels))

end Input

def kStackMaxDepth : Nat := 100

/-- Past a UTF-8 byte order mark. -/
def Input.skipByteOrderMark (input : Input) (s : State) : State :=
  if input.canConsume s 3 ∧ load input.mem s.pos 3 = [0xef, 0xbb, 0xbf] then s.nextNChars 3 else s

/-- The check of Parse that the input is at its end. -/
def Input.atEnd (input : Input) (s : State) : Except ParseError Unit :=
  match input.getNextToken s with
  | (.endOfInput, _) => .ok ()
  | (_, s) =>
    if ¬input.canConsume s 1 then .error (reportError .unexpectedDataAfterRoot 1 s)
    else
      match input.getNextToken s.nextChar with
      | (.endOfInput, _) => .ok ()
      | (_, s) => .error (reportError .unexpectedDataAfterRoot 1 s)

/-- The input itself, or a copy of it in a string of its own. -/
def inputFor (options : Options) (input : Input) : Input :=
  if options.detachableChildren then input
  else ⟨fun i => if i < input.length then input.mem i else 0, input.length⟩

/-- JSONParser::Parse: the value, or the error that is left when there is none. -/
def parse {F : Type} (stringToDouble : Bytes → Option F) (options : Options) (input : Input) :
    Except ParseError (Value F) :=
  let input := inputFor options input
  let (token, s) := input.getNextToken (input.skipByteOrderMark ⟨0, 0, 1, 0⟩)
  match input.parseToken stringToDouble options (kStackMaxDepth - 1) token s with
  | .error e => .error e
  | .ok (root, s) =>
    match input.atEnd s with
    | .error e => .error e
    | .ok () => .ok root

end ChromiumUI.Json
