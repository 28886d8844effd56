import PersistedQueries.Number.Binary64

/-!
# JSON values

The value type of the manifest, of introspection results and of everything read from a
schema endpoint. Objects keep the order of their fields, because written files show it.

- `Json`: a value; whole numbers are unbounded and apart from numbers with a fraction.
- `field?`: the value of an object's field.
- `setField`: writing a field, which keeps the place of a field that is present.
- `isTruthy`: neither null, false, zero nor empty.
- `Json.strings`: the array of a list of strings.
-/

namespace PersistedQueries

/-- A JSON value. -/
inductive Json where
  | null
  | bool (value : Bool)
  | int (value : Int)
  | real (value : Binary64)
  | string (value : String)
  | array (items : List Json)
  | object (fields : List (String × Json))
  deriving Repr, Inhabited

namespace Json

/-- The value of the first field with a name. -/
def lookupField (name : String) : List (String × Json) → Option Json
  | [] => none
  | (key, value) :: rest => if key = name then some value else lookupField name rest

/-- The value of an object's field. -/
def field? (name : String) : Json → Option Json
  | .object fields => lookupField name fields
  | _ => none

/-- Give a field a value: in its place when it is present, at the end otherwise. -/
def setField (name : String) (value : Json) : List (String × Json) → List (String × Json)
  | [] => [(name, value)]
  | (key, old) :: rest =>
    if key = name then (key, value) :: rest else (key, old) :: setField name value rest

/-- Neither null, false, zero nor empty. -/
def isTruthy : Json → Bool
  | .null => false
  | .bool value => value
  | .int value => value != 0
  | .real value => value.isNonzero
  | .string value => !value.isEmpty
  | .array items => !items.isEmpty
  | .object fields => !fields.isEmpty

/-- The array of a list of strings. -/
def strings (values : List String) : Json := .array (values.map .string)

/-- The string, or null without one. -/
def ofOption : Option String → Json
  | none => .null
  | some value => .string value

end Json

end PersistedQueries
