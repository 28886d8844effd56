import PersistedQueries.Text.Lines

/-!
# Syntax faults

- `Cause`: why a text is no document.
- `Fault`: a cause at an offset.
- `locate`: the line and the column of an offset. An offset right behind a line end is the
  first column of the next line.
- `excerpt`: the line of a fault with a caret below it, between its neighbours. A line of
  more than 120 characters is shown in pieces of 80.
- `showPlace`: the place and the excerpt, as they stand below a message.
- `Fault.message`: the words for a cause, the place and the excerpt.
-/

namespace PersistedQueries.GraphQL

/-- Why a text is no document. -/
inductive Cause where
  | unexpectedCharacter (c : Char)
  | singleQuote
  /-- A digit behind a leading zero. -/
  | digitAfterZero (c : Char)
  /-- Something else, or the end of the text, where a number needs a digit or has to end. -/
  | expectedDigit (found : Option Char)
  | unterminatedString
  | invalidEscape (written : String)
  | invalidUnicodeEscape (written : String)
  | expected (what found : String)
  | unexpected (found : String)
  | variableInConstant (name : String)
  | reservedEnumValue (found : String)
  | describedShorthand
  | describedExtension
  | nestedTooDeeply
  deriving DecidableEq, Repr

/-- A cause at an offset. -/
structure Fault where
  cause : Cause
  offset : Nat
  deriving DecidableEq, Repr

/-- A character as a message names it: itself when it is printable ASCII. -/
def showChar (c : Char) : String :=
  if 0x20 ≤ c.toNat ∧ c.toNat ≤ 0x7E then String.ofList ['\x27', c, '\x27']
  else
    let digits := Nat.toDigits 16 c.toNat
    let padded := List.replicate (4 - digits.length) '0' ++ digits
    "U+" ++ String.ofList (padded.map Char.toUpper)

/-- The words for a cause. -/
def Cause.text : Cause → String
  | .unexpectedCharacter c => s!"Unexpected character: {showChar c}."
  | .singleQuote =>
    "Unexpected single quote character ('), did you mean to use a double quote (\")?"
  | .digitAfterZero c => s!"Invalid number, unexpected digit after 0: {showChar c}."
  | .expectedDigit found =>
    let found := found.elim "<EOF>" showChar
    s!"Invalid number, expected digit but got: {found}."
  | .unterminatedString => "Unterminated string."
  | .invalidEscape written => s!"Invalid character escape sequence: '{written}'."
  | .invalidUnicodeEscape written => s!"Invalid Unicode escape sequence: '{written}'."
  | .expected what found => s!"Expected {what}, found {found}."
  | .unexpected found => s!"Unexpected {found}."
  | .variableInConstant name => s!"Unexpected variable '${name}' in constant value."
  | .reservedEnumValue found => s!"{found} is reserved and cannot be used for an enum value."
  | .describedShorthand =>
    "Unexpected description, descriptions are not supported on shorthand queries."
  | .describedExtension => "Unexpected description, only GraphQL definitions support descriptions."
  | .nestedTooDeeply => "Document is nested too deeply. Parsing aborted."

/-- The line and the column of an offset, both counted from one. -/
def locate (document : Text) (offset : Nat) : Nat × Nat :=
  let lines := Text.documentLines (document.take offset)
  (lines.length, (lines.getLastD []).length + 1)

/-- A text padded on the left to a width. -/
def padLeft (width : Nat) (text : Text) : Text :=
  List.replicate (width - text.length) ' ' ++ text

/-- Lines with their labels, the labels padded to one width. Nothing follows the label of an
empty line. -/
def labelled (lines : List (Text × Text)) : List Text :=
  let width := (lines.map fun (label, _) => label.length).foldl max 0
  lines.map fun (label, line) => padLeft width label ++ (if line.isEmpty then [] else ' ' :: line)

/-- The pieces of a text of at most `size` characters. The fuel bounds their number. -/
def piecesOf (size : Nat) : (fuel : Nat) → Text → List Text
  | 0, _ => []
  | fuel + 1, text =>
    if text.isEmpty then [] else text.take size :: piecesOf size fuel (text.drop size)

/-- The label of a line. -/
def lineLabel (number : Nat) : Text := (toString number).toList ++ [' ', '|']

/-- The part of a document around a line and a column. -/
def excerpt (document : Text) (line column : Nat) : List Text :=
  let lines := Text.documentLines document
  let index := line - 1
  let current := lines.getD index []
  let caret (width : Nat) : Text := padLeft width ['^']
  if current.length > 120 then
    let pieces := piecesOf 80 current.length current
    let piece := column / 80
    labelled <|
      (pieces.take 1).map (fun p => (lineLabel line, p)) ++
      ((pieces.drop 1).take piece).map (fun p => (['|'], p)) ++
      [(['|'], caret (column % 80))] ++
      ((pieces.drop (piece + 1)).take 1).map (fun p => (['|'], p))
  else
    let before := if index > 0 then (lines[index - 1]?).toList else []
    let after := (lines[index + 1]?).toList
    labelled <|
      before.map (fun l => (lineLabel (line - 1), l)) ++ [(lineLabel line, current)] ++
      [(['|'], caret column)] ++ after.map (fun l => (lineLabel (line + 1), l))

/-- A line and a column with the part of the document around them, as they stand below a
message. -/
def showPlace (document : Text) (line column : Nat) : String :=
  let shown := String.ofList (Text.joinWith ['\n'] (excerpt document line column))
  s!"\n\nGraphQL request:{line}:{column}\n{shown}"

/-- The place of an offset with the part of the document around it. -/
def showOffset (document : Text) (offset : Nat) : String :=
  let (line, column) := locate document offset
  showPlace document line column

/-- The words for a fault: the cause, the place and the part of the document around it. -/
def Fault.message (fault : Fault) (document : Text) : String :=
  s!"Syntax Error: {fault.cause.text}" ++ showOffset document fault.offset

end PersistedQueries.GraphQL
