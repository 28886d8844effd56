import PersistedQueries.Json.Writer

/-!
# Looking into values

Values that come from outside may lack a field, or hold something else than what is looked for.
Each way of looking into a value says what is wrong with it.

- `Json.Mismatch`: what is wrong with a value that was looked into.
- `Json.get`, `Json.getD`: a field that has to be there, and one that need not.
- `Json.elements`: the items of a list.
- `Json.asKey`: a value that other values are looked up by.
- `sizeOf_get`: a field is smaller than its object.
-/

namespace PersistedQueries.Json

/-- What is wrong with a value that was looked into. Values are told apart by the name of their
kind. -/
inductive Mismatch where
  /-- The object has no such field. -/
  | missing (name : String)
  /-- A value of the kind has no fields. -/
  | noFields (kind : String)
  /-- A list is indexed by positions. -/
  | listFields
  /-- A string is indexed by positions. -/
  | stringFields
  /-- A value of the kind has no such operation. -/
  | noOperation (kind operation : String)
  /-- A value of the kind has no elements. -/
  | noElements (kind : String)
  /-- A value of the kind has no length. -/
  | noLength (kind : String)
  /-- Nothing can be searched for in a value of the kind. -/
  | noMembers (kind : String)
  /-- A value of the kind cannot be a key. -/
  | noKey (kind : String)
  deriving DecidableEq, Repr

/-- The message of a mismatch. -/
def Mismatch.message : Mismatch → String
  | missing name => Text.quote name
  | noFields kind => Text.quote kind ++ " object is not subscriptable"
  | listFields => "list indices must be integers or slices, not str"
  | stringFields => "string indices must be integers, not " ++ Text.quote "str"
  | noOperation kind operation =>
    Text.quote kind ++ " object has no attribute " ++ Text.quote operation
  | noElements kind => Text.quote kind ++ " object is not iterable"
  | noLength kind => "object of type " ++ Text.quote kind ++ " has no len()"
  | noMembers kind => "argument of type " ++ Text.quote kind ++ " is not iterable"
  | noKey kind => "unhashable type: " ++ Text.quote kind

/-- The name of the kind of a value. -/
def kindName : Json → String
  | .null => "NoneType"
  | .bool _ => "bool"
  | .int _ => "int"
  | .real _ => "float"
  | .string _ => "str"
  | .array _ => "list"
  | .object _ => "dict"

/-- A field that has to be there. -/
def get (value : Json) (name : String) : Except Mismatch Json :=
  match value with
  | .object fields =>
    match lookupField name fields with
    | some value => .ok value
    | none => .error (.missing name)
  | .array _ => .error .listFields
  | .string _ => .error .stringFields
  | value => .error (.noFields value.kindName)

/-- A field of an object, or another value where it is missing. -/
def getD (value : Json) (name : String) (default : Json) : Except Mismatch Json :=
  match value with
  | .object fields => .ok ((lookupField name fields).getD default)
  | value => .error (.noOperation value.kindName "get")

/-- The items of a list, the names of the fields of an object, or the characters of a string. -/
def elements : Json → Except Mismatch (List Json)
  | .array items => .ok items
  | .object fields => .ok (fields.map fun field => .string field.1)
  | .string value => .ok (value.toList.map fun c => .string (String.singleton c))
  | value => .error (.noElements value.kindName)

/-- The items of a list, of which an empty, null, false or zero value has none. -/
def elementsOrNone (value : Json) : Except Mismatch (List Json) :=
  if value.isTruthy then value.elements else .ok []

/-- A value that serves as a key: neither a list nor an object. -/
def asKey : Json → Except Mismatch Json
  | .array _ => .error (.noKey "list")
  | .object _ => .error (.noKey "dict")
  | value => .ok value

/-- The value of the first field with a name is smaller than the object. -/
theorem sizeOf_lookupField {name : String} {fields : List (String × Json)} {value : Json}
    (h : lookupField name fields = some value) : sizeOf value < sizeOf fields := by
  induction fields with
  | nil => simp [lookupField] at h
  | cons field rest ih =>
    obtain ⟨key, first⟩ := field
    simp only [lookupField] at h
    split at h
    · obtain rfl := Option.some.inj h
      simp only [List.cons.sizeOf_spec, Prod.mk.sizeOf_spec]
      omega
    · have := ih h
      simp only [List.cons.sizeOf_spec]
      omega

/-- A field is smaller than its object. -/
theorem sizeOf_get {name : String} {value field : Json} (h : value.get name = .ok field) :
    sizeOf field < sizeOf value := by
  unfold get at h
  split at h
  · split at h
    · next fields found hfield =>
      obtain rfl := Except.ok.inj h
      have := sizeOf_lookupField hfield
      simp only [Json.object.sizeOf_spec]
      omega
    · simp at h
  all_goals simp at h

/-- The text of a value in a line of output: a string as it stands, any other value as a message
shows it. -/
def plain : Json → String
  | .string value => value
  | value => value.display

end PersistedQueries.Json
