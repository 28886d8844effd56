import PersistedQueries.Json.Basic
import PersistedQueries.Text.Basic
import PersistedQueries.Text.Quoted

/-!
# Writing JSON

Values are written in printable ASCII: every other character is escaped, in two surrogate
halves above U+FFFF.

- `escape`: a text as it stands between quotes.
- `Layout`: the characters between items, and behind names, and whether each item starts a
  line of its own.
- `compact`, `spaced`, `indented`: the three layouts in use.
- `write`: the text of a value in a layout.
- `sortKeys`: the value with the fields of every object in ascending order.
- `digestText`: the text that identifies a value up to the order of its fields.
- `display`: the value as a message shows it.
-/

namespace PersistedQueries.Json

/-! ## Strings -/

/-- A four-digit escape. -/
def unicodeEscape (unit : Nat) : Text := ("\\u" ++ Text.hexDigits 4 unit).toList

/-- A character between quotes. -/
def escapeChar (c : Char) : Text :=
  if c = '\x22' then ['\\', '\x22']
  else if c = '\\' then ['\\', '\\']
  else if c = '\n' then ['\\', 'n']
  else if c = '\r' then ['\\', 'r']
  else if c = '\t' then ['\\', 't']
  else if c = '\x0c' then ['\\', 'f']
  else if c = '\x08' then ['\\', 'b']
  else if 0x20 ≤ c.toNat ∧ c.toNat ≤ 0x7E then [c]
  else if c.toNat < 0x10000 then unicodeEscape c.toNat
  else
    let n := c.toNat - 0x10000
    unicodeEscape (0xD800 + n / 0x400) ++ unicodeEscape (0xDC00 + n % 0x400)

/-- A text as it stands between quotes. -/
def escape (text : Text) : Text := text.flatMap escapeChar

/-- A quoted string. -/
def writeString (s : String) : Text := '\x22' :: escape s.toList ++ ['\x22']

/-! ## Layouts -/

/-- How values are laid out. -/
structure Layout where
  /-- The text between two items on one line. -/
  separator : Text
  /-- The text between a name and its value. -/
  colon : Text
  /-- The number of blanks that each level adds when every item starts a line of its own. -/
  indent : Option Nat

/-- Without any space. -/
def compact : Layout := ⟨[','], [':'], none⟩

/-- On one line, with a space behind commas and colons. -/
def spaced : Layout := ⟨[',', ' '], [':', ' '], none⟩

/-- An item a line, each level indented by two. -/
def indented : Layout := ⟨[','], [':', ' '], some 2⟩

/-- The line break and the blanks in front of an item at a level. -/
def Layout.lineStart (layout : Layout) (level : Nat) : Text :=
  match layout.indent with
  | none => []
  | some width => '\n' :: List.replicate (width * level) ' '

/-- Written items between brackets. -/
def bracket (layout : Layout) (level : Nat) (opening closing : Char) : List Text → Text
  | [] => [opening, closing]
  | items =>
    let start := layout.lineStart (level + 1)
    opening :: start ++ Text.joinWith (layout.separator ++ start) items ++
      layout.lineStart level ++ [closing]

/-- A double; the words for the numbers that are not finite are no JSON of the standard. -/
def writeReal : Binary64 → String
  | .nan => "NaN"
  | .infinite false => "Infinity"
  | .infinite true => "-Infinity"
  | value => value.toText

mutual

/-- A value at a level of nesting. -/
def writeAt (layout : Layout) (level : Nat) : Json → Text
  | .null => "null".toList
  | .bool true => "true".toList
  | .bool false => "false".toList
  | .int value => (toString value).toList
  | .real value => (writeReal value).toList
  | .string value => writeString value
  | .array items => bracket layout level '[' ']' (writeItems layout (level + 1) items)
  | .object fields => bracket layout level '{' '}' (writeFields layout (level + 1) fields)

/-- The items of an array. -/
def writeItems (layout : Layout) (level : Nat) : List Json → List Text
  | [] => []
  | item :: rest => writeAt layout level item :: writeItems layout level rest

/-- The fields of an object. -/
def writeFields (layout : Layout) (level : Nat) : List (String × Json) → List Text
  | [] => []
  | (name, value) :: rest =>
    (writeString name ++ layout.colon ++ writeAt layout level value) ::
      writeFields layout level rest

end

/-- The text of a value. -/
def write (layout : Layout) (value : Json) : Text := writeAt layout 0 value

/-! ## The order of fields -/

/-- Put a field into a list of fields that ascend by name. -/
def insertField (name : String) (value : Json) : List (String × Json) → List (String × Json)
  | [] => [(name, value)]
  | (key, old) :: rest =>
    if key < name then (key, old) :: insertField name value rest
    else (name, value) :: (key, old) :: rest

mutual

/-- The value with the fields of every object in ascending order of their names. -/
def sortKeys : Json → Json
  | .array items => .array (sortKeysOfItems items)
  | .object fields => .object (sortFields fields)
  | value => value

/-- Each item with sorted fields. -/
def sortKeysOfItems : List Json → List Json
  | [] => []
  | item :: rest => sortKeys item :: sortKeysOfItems rest

/-- The fields in ascending order, each value with sorted fields. -/
def sortFields : List (String × Json) → List (String × Json)
  | [] => []
  | (name, value) :: rest => insertField name (sortKeys value) (sortFields rest)

end

/-- The text that identifies a value up to the order of its fields. -/
def digestText (value : Json) : Text := write compact (sortKeys value)

/-! ## Values in messages -/

mutual

/-- The value as a message shows it. -/
def display : Json → String
  | .null => "None"
  | .bool true => "True"
  | .bool false => "False"
  | .int value => toString value
  | .real value => value.toText
  | .string value => Text.quote value
  | .array items => "[" ++ ", ".intercalate (displayItems items) ++ "]"
  | .object fields => "\x7b" ++ ", ".intercalate (displayFields fields) ++ "\x7d"

/-- The items of an array as a message shows them. -/
def displayItems : List Json → List String
  | [] => []
  | item :: rest => display item :: displayItems rest

/-- The fields of an object as a message shows them. -/
def displayFields : List (String × Json) → List String
  | [] => []
  | (name, value) :: rest => (Text.quote name ++ ": " ++ display value) :: displayFields rest

end

end PersistedQueries.Json
