import PersistedQueries.GraphQL.Document
import PersistedQueries.Json.Brief
import PersistedQueries.Schema.Basic

/-!
# Writing default values

A schema that describes itself shows a default value as a literal of the type that it was read
at. Scalars of the document take any literal, but what they take can only be shown when it is a
single number, text or truth value.

- `Unwritable`: why a default value has no literal.
- `isWholeText`: the text is that of a whole number.
- `writeLeaf`: the literal of a value at a scalar or an enumeration.
- `writeDefault`: the literal of a value at a type.
-/

namespace PersistedQueries.Schema

open GraphQL (Value TypeRef)

/-- Why a default value has no literal. -/
inductive Unwritable where
  /-- A double that is not finite. -/
  | notFinite (value : Binary64)
  /-- A value of a scalar of the document that no literal stands for. -/
  | unconvertible (value : Json)
  deriving Repr

/-- The words for a default value without a literal. -/
def Unwritable.message : Unwritable → String
  | notFinite value => "Float cannot represent non numeric value: " ++ value.toText
  | unconvertible value => "Cannot convert value to AST: " ++ value.brief ++ "."

/-- The text is that of a whole number, perhaps with a line end behind it. -/
def isWholeText (text : Text) : Bool :=
  let text := if text.getLast? = some '\n' then text.dropLast else text
  match text.dropWhile (· = '-') with
  | [] => false
  | '0' :: rest => rest.isEmpty && (text.takeWhile (· = '-')).length ≤ 1
  | digits => digits.all Char.isDigit && (text.takeWhile (· = '-')).length ≤ 1

/-- The literal of a value at a scalar or an enumeration. An identifier that is a whole number is
written as one. -/
def writeLeaf (schema : Schema) (type : String) : Json → Except Unwritable Value
  | .null => .ok .null
  | .bool value => .ok (.boolean value)
  | .int value => .ok (.int (toString value))
  | .real value =>
    if value.isFinite then .ok (.float value.toShortText)
    else if type = "Float" then .error (.notFinite value)
    else .error (.unconvertible (.real value))
  | .string value =>
    match schema.body? type with
    | some (.enum _) => .ok (.enum value)
    | _ =>
      if type = "ID" && isWholeText value.toList then .ok (.int value)
      else .ok (.string value false)
  | value => .error (.unconvertible value)

/-- The type of the items of a list type. -/
def itemType? : TypeRef → Option TypeRef
  | .named _ => none
  | .list item => some item
  | .nonNull type => itemType? type

/-- The type of a field of an input type. -/
def inputType? (schema : Schema) (type field : String) : Option TypeRef :=
  match schema.body? type with
  | some (.input fields _) => (fields.find? (·.name = field)).map (·.type)
  | _ => none

/-- The named type is an input type. -/
def isInputType (schema : Schema) (type : String) : Bool :=
  (schema.body? type).any (· matches .input ..)

mutual

/-- The literal of a value at a type. -/
def writeDefault (schema : Schema) (type : TypeRef) : Json → Except Unwritable Value
  | .array items =>
    match itemType? type with
    | some item => return .list (← writeItems schema item items)
    | none => .error (.unconvertible (.array items))
  | .object fields =>
    if isInputType schema type.base then
      return .object (← writeFields schema type.base fields)
    else .error (.unconvertible (.object fields))
  | value => writeLeaf schema type.base value

/-- The literals of the items of a list. -/
def writeItems (schema : Schema) (type : TypeRef) : List Json → Except Unwritable (List Value)
  | [] => .ok []
  | item :: rest => do
    let first ← writeDefault schema type item
    return first :: (← writeItems schema type rest)

/-- The literals of the fields of an input object. -/
def writeFields (schema : Schema) (type : String) :
    List (String × Json) → Except Unwritable (List (String × Value))
  | [] => .ok []
  | (name, value) :: rest => do
    let first ← writeDefault schema ((inputType? schema type name).getD (.named "")) value
    return (name, first) :: (← writeFields schema type rest)

end

end PersistedQueries.Schema
