import PersistedQueries.Json.Basic
import PersistedQueries.Text.Lines

/-!
# Reading JSON

A reader of RFC 8259 that also takes the three words for numbers that are not finite, and
that says where and why a text is no value.

- `Json.parse`: the value of a text, or the first fault in it. A field that comes twice
  keeps its first place and its last value.
- `FaultKind`, `Fault`: the causes, and a cause at an offset.
- `Fault.message`: the words, with the line, the column and the offset. Lines end at a line
  feed only.
- `digitLimit`: how many digits a whole number may have.
-/

namespace PersistedQueries.Json

/-- Why a text is no JSON value. -/
inductive FaultKind where
  | expectedValue
  | expectedName
  | expectedColon
  | expectedComma
  | extraData
  | unterminatedString
  | invalidEscape
  | invalidUnicodeEscape
  | invalidControl
  | byteOrderMark
  /-- A whole number has more digits than are read. -/
  | tooManyDigits (count : Nat)
  deriving DecidableEq, Repr

/-- A fault and the offset it is found at. -/
structure Fault where
  kind : FaultKind
  offset : Nat
  deriving DecidableEq, Repr

/-- The words for a cause. -/
def FaultKind.text : FaultKind → String
  | .expectedValue => "Expecting value"
  | .expectedName => "Expecting property name enclosed in double quotes"
  | .expectedColon => "Expecting ':' delimiter"
  | .expectedComma => "Expecting ',' delimiter"
  | .extraData => "Extra data"
  | .unterminatedString => "Unterminated string starting at"
  | .invalidEscape => "Invalid \\escape"
  | .invalidUnicodeEscape => "Invalid \\uXXXX escape"
  | .invalidControl => "Invalid control character at"
  | .byteOrderMark => "Unexpected UTF-8 BOM (decode using utf-8-sig)"
  | .tooManyDigits count =>
    s!"Exceeds the limit (4300 digits) for integer string conversion: value has {count} digits; " ++
      "use sys.set_int_max_str_digits() to increase the limit"

/-- The text is none of JSON; a limit of the reader is no fault of the text. -/
def Fault.isOfText (fault : Fault) : Bool :=
  match fault.kind with
  | .tooManyDigits _ => false
  | _ => true

/-- The words for a fault in a document. -/
def Fault.message (fault : Fault) (document : Text) : String :=
  if fault.isOfText then
    let before := document.take fault.offset
    let line := Text.lineFeeds before + 1
    let column := Text.lastLineLength before + 1
    s!"{fault.kind.text}: line {line} column {column} (char {fault.offset})"
  else fault.kind.text

/-- A place in a document: the offset, and the text from there on. -/
abbrev Place := Nat × Text

/-- A reader of a part of a document: what it read and the place behind it. -/
abbrev Reader (α : Type) := Nat → Text → Except Fault (α × Place)

/-- The four characters that may stand between tokens. -/
def isSpace (c : Char) : Bool := c = ' ' || c = '\t' || c = '\n' || c = '\r'

/-- The place behind the space at a place. -/
def skipSpace (offset : Nat) (rest : Text) : Place :=
  let space := rest.takeWhile isSpace
  (offset + space.length, rest.drop space.length)

/-- The value of a hexadecimal digit. -/
def hexValue? (c : Char) : Option Nat :=
  if '0' ≤ c ∧ c ≤ '9' then some (c.toNat - 48)
  else if 'a' ≤ c ∧ c ≤ 'f' then some (c.toNat - 87)
  else if 'A' ≤ c ∧ c ≤ 'F' then some (c.toNat - 55)
  else none

/-- The value of four hexadecimal digits at the front of a text that goes on behind them: the
quote that closes the string at least must follow. -/
def fourHex? : Text → Option Nat
  | a :: b :: c :: d :: _ :: _ => do
    let a ← hexValue? a
    let b ← hexValue? b
    let c ← hexValue? c
    let d ← hexValue? d
    return ((a * 16 + b) * 16 + c) * 16 + d
  | _ => none

/-- The character that a one-letter escape stands for. -/
def shortEscape? (c : Char) : Option Char :=
  if c = '\x22' || c = '\\' || c = '/' then some c
  else if c = 'b' then some '\x08'
  else if c = 'f' then some '\x0c'
  else if c = 'n' then some '\n'
  else if c = 'r' then some '\r'
  else if c = 't' then some '\t'
  else none

/-- The character of a four-digit escape and the number of characters it takes behind the
`u`: a high surrogate joins with the low one escaped right behind it, unless the text ends with
that escape. `behind` is the text behind the four digits. A surrogate that is alone stands for the
replacement character. -/
def joinSurrogates (value : Nat) (behind : Text) : Char × Nat :=
  if 0xD800 ≤ value ∧ value < 0xDC00 then
    match behind with
    | '\\' :: 'u' :: more =>
      match fourHex? more with
      | some low =>
        if 0xDC00 ≤ low ∧ low < 0xE000 then
          (Char.ofNat (0x10000 + (value - 0xD800) * 0x400 + (low - 0xDC00)), 10)
        else ('\uFFFD', 4)
      | none => ('\uFFFD', 4)
    | _ => ('\uFFFD', 4)
  else if 0xDC00 ≤ value ∧ value < 0xE000 then ('\uFFFD', 4)
  else (Char.ofNat value, 4)

/-- Read the characters of a string up to its closing quote. `start` is the offset of the
opening quote. The fuel is greater than the length of the text. -/
def readString (start : Nat) : (fuel : Nat) → Reader Text
  | 0, _, _ => .error ⟨.unterminatedString, start⟩
  | _ + 1, _, [] => .error ⟨.unterminatedString, start⟩
  | fuel + 1, offset, c :: rest =>
    if c = '\x22' then .ok ([], offset + 1, rest)
    else if c = '\\' then
      match rest with
      | [] => .error ⟨.unterminatedString, start⟩
      | 'u' :: digits =>
        match fourHex? digits with
        | none => .error ⟨.invalidUnicodeEscape, offset + 1⟩
        | some value =>
          let (joined, used) := joinSurrogates value (digits.drop 4)
          (readString start fuel (offset + 2 + used) (digits.drop used)).map
            fun (tail, place) => (joined :: tail, place)
      | e :: rest' =>
        match shortEscape? e with
        | none => .error ⟨.invalidEscape, offset⟩
        | some escaped =>
          (readString start fuel (offset + 2) rest').map fun (tail, place) => (escaped :: tail, place)
    else if c.toNat < 0x20 then .error ⟨.invalidControl, offset⟩
    else (readString start fuel (offset + 1) rest).map fun (tail, place) => (c :: tail, place)

/-- The number that decimal digits stand for. -/
def digitsValue (digits : Text) : Nat := digits.foldl (fun n c => n * 10 + (c.toNat - 48)) 0

/-- The fraction at the front of a text: a point and at least one digit. -/
def fraction? : Text → Option (Text × Text)
  | '.' :: rest =>
    let digits := rest.takeWhile Char.isDigit
    if digits.isEmpty then none else some (digits, rest.drop digits.length)
  | _ => none

/-- The exponent at the front of a text: its value, its length, and the rest. -/
def exponent? : Text → Option (Int × Nat × Text)
  | c :: rest =>
    if c = 'e' || c = 'E' then
      let (negative, signed, rest) :=
        match rest with
        | '-' :: more => (true, 1, more)
        | '+' :: more => (false, 1, more)
        | _ => (false, 0, rest)
      let digits := rest.takeWhile Char.isDigit
      if digits.isEmpty then none
      else
        let size : Int := digitsValue digits
        some (if negative then -size else size, 1 + signed + digits.length, rest.drop digits.length)
    else none
  | [] => none

/-- How many digits a whole number may have. -/
def digitLimit : Nat := 4300

/-- Read a number, which begins at a place with a digit or a minus sign. -/
def readNumber : Reader Json := fun offset text =>
  let (negative, body) :=
    match text with
    | '-' :: rest => (true, rest)
    | _ => (false, text)
  let run := body.takeWhile Char.isDigit
  -- a leading zero is a whole number of its own
  let whole := if run.head? = some '0' then ['0'] else run
  if whole.isEmpty then .error ⟨.expectedValue, offset⟩
  else
    let behind := offset + (if negative then 1 else 0) + whole.length
    let rest := body.drop whole.length
    let (digits, behindFraction, rest', hasFraction) :=
      match fraction? rest with
      | some (digits, more) => (digits, behind + 1 + digits.length, more, true)
      | none => ([], behind, rest, false)
    let (power, behindExponent, rest'', hasExponent) :=
      match exponent? rest' with
      | some (power, length, more) => (power, behindFraction + length, more, true)
      | none => (0, behindFraction, rest', false)
    if hasFraction || hasExponent then
      let value := digitsValue (whole ++ digits)
      .ok (.real (Binary64.ofDecimal negative value (power - digits.length)), behindExponent, rest'')
    else if whole.length > digitLimit then .error ⟨.tooManyDigits whole.length, offset⟩
    else
      let value : Int := digitsValue whole
      .ok (.int (if negative then -value else value), behind, rest)

/-- The values that are written as a word. -/
def wordValues : List (Text × Json) :=
  [("null".toList, .null), ("true".toList, .bool true), ("false".toList, .bool false),
   ("NaN".toList, .real .nan), ("Infinity".toList, .real (.infinite false)),
   ("-Infinity".toList, .real (.infinite true))]

/-- Read a value that is a word or a number. -/
def readPlain : Reader Json := fun offset text =>
  match wordValues.find? fun (word, _) => word.isPrefixOf text with
  | some (word, value) => .ok (value, offset + word.length, text.drop word.length)
  | none => readNumber offset text

/-- Read the items of an array from a value on, up to the closing bracket. The fuel is greater than
the length of the text. -/
def readItems (readValue : Reader Json) : (fuel : Nat) → Reader (List Json)
  | 0, offset, _ => .error ⟨.expectedValue, offset⟩
  | fuel + 1, offset, text => do
    let (value, behind, rest) ← readValue offset text
    let (offset, rest) := skipSpace behind rest
    match rest with
    | ']' :: rest => return ([value], offset + 1, rest)
    | ',' :: rest =>
      let (next, rest) := skipSpace (offset + 1) rest
      let (values, place) ← readItems readValue fuel next rest
      return (value :: values, place)
    | _ => throw ⟨.expectedComma, offset⟩

/-- Read the fields of an object from a name on, up to the closing brace. The fuel is greater than
the length of the text. -/
def readFields (readValue : Reader Json) : (fuel : Nat) → Reader (List (String × Json))
  | 0, offset, _ => .error ⟨.expectedName, offset⟩
  | fuel + 1, offset, text =>
    match text with
    | '\x22' :: quoted => do
      let (name, behind, rest) ← readString offset fuel (offset + 1) quoted
      let (offset, rest) := skipSpace behind rest
      match rest with
      | ':' :: rest =>
        let (start, rest) := skipSpace (offset + 1) rest
        let (value, behind, rest) ← readValue start rest
        let (offset, rest) := skipSpace behind rest
        match rest with
        | '}' :: rest => return ([(String.ofList name, value)], offset + 1, rest)
        | ',' :: rest =>
          let (next, rest) := skipSpace (offset + 1) rest
          let (fields, place) ← readFields readValue fuel next rest
          return ((String.ofList name, value) :: fields, place)
        | _ => throw ⟨.expectedComma, offset⟩
      | _ => throw ⟨.expectedColon, offset⟩
    | _ => .error ⟨.expectedName, offset⟩

/-- The fields of an object as written: a repeated name keeps its first place and its last
value. -/
def mergeFields (fields : List (String × Json)) : List (String × Json) :=
  fields.foldl (fun merged (name, value) => setField name value merged) []

/-- Read a value. The fuel is greater than the length of the text, and a part of the text is shorter
by at least one character, so the fuel less one suffices for each part. -/
def readValue : (fuel : Nat) → Reader Json
  | 0, offset, _ => .error ⟨.expectedValue, offset⟩
  | fuel + 1, offset, text =>
    match text with
    | '\x22' :: rest => do
      let (content, place) ← readString offset fuel (offset + 1) rest
      return (.string (String.ofList content), place)
    | '[' :: rest =>
      let (next, rest) := skipSpace (offset + 1) rest
      match rest with
      | ']' :: rest => .ok (.array [], next + 1, rest)
      | _ => do
        let (items, place) ← readItems (readValue fuel) fuel next rest
        return (.array items, place)
    | '{' :: rest =>
      let (next, rest) := skipSpace (offset + 1) rest
      match rest with
      | '}' :: rest => .ok (.object [], next + 1, rest)
      | _ => do
        let (fields, place) ← readFields (readValue fuel) fuel next rest
        return (.object (mergeFields fields), place)
    | _ => readPlain offset text

/-- The value of a text. -/
def parse (text : Text) : Except Fault Json := do
  if text.head? = some '\uFEFF' then throw ⟨.byteOrderMark, 0⟩
  let (start, rest) := skipSpace 0 text
  let (value, behind, rest) ← readValue (text.length + 1) start rest
  let (stop, rest) := skipSpace behind rest
  if rest.isEmpty then return value else throw ⟨.extraData, stop⟩

end PersistedQueries.Json
