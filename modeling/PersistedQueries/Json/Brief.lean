import PersistedQueries.Json.Writer

/-!
# Values cut short

A message that names a value of any size shows the outer part of it.

- `cutText`: both ends of a text that is long.
- `cutItems`: both ends of a list that is long, with an ellipsis between them.
- `brief`: a value down to the second level; what lies deeper, unless it is empty, is an ellipsis.
-/

namespace PersistedQueries.Json

/-- The most characters of a text that are shown. -/
def textLimit : Nat := 240

/-- The most items of an array, or fields of an object, that are shown. -/
def itemLimit : Nat := 10

/-- The most levels of arrays and objects that are shown. -/
def levelLimit : Nat := 2

/-- A text, or both ends of one that is too long. -/
def cutText (text : Text) : Text :=
  if text.length > textLimit then
    let front := (textLimit - 3) / 2
    let back := textLimit - 3 - front
    text.take front ++ ['.', '.', '.'] ++ text.drop (text.length - back)
  else text

/-- Shown items, or both ends of too many with an ellipsis between them. -/
def cutItems (items : List String) : List String :=
  if items.length > itemLimit then
    let front := itemLimit / 2
    let back := front - 1
    items.take front ++ ["..."] ++ items.drop (items.length - back)
  else items

/-- A quoted text, or both ends of it. -/
def briefText (text : String) : String := String.ofList (cutText (Text.quote text).toList)

mutual

/-- The outer part of a value that lies below some levels. -/
def briefAt (level : Nat) : Json → String
  | .int value => String.ofList (cutText (toString value).toList)
  | .string value => briefText value
  | .array items =>
    if items.isEmpty then "[]"
    else if level ≥ levelLimit then "[...]"
    else "[" ++ ", ".intercalate (cutItems (briefItems (level + 1) items)) ++ "]"
  | .object fields =>
    if fields.isEmpty then "\x7b\x7d"
    else if level ≥ levelLimit then "\x7b...\x7d"
    else "\x7b" ++ ", ".intercalate (cutItems (briefFields (level + 1) fields)) ++ "\x7d"
  | value => display value

/-- The outer parts of items. -/
def briefItems (level : Nat) : List Json → List String
  | [] => []
  | item :: rest => briefAt level item :: briefItems level rest

/-- The outer parts of fields. -/
def briefFields (level : Nat) : List (String × Json) → List String
  | [] => []
  | (name, value) :: rest =>
    (briefText name ++ ": " ++ briefAt level value) :: briefFields level rest

end

/-- The outer part of a value. -/
def brief (value : Json) : String := briefAt 0 value

end PersistedQueries.Json
