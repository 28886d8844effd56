import PersistedQueries.GraphQL.Printer
import PersistedQueries.Schema.Suggestion

/-!
# Violations

What may be wrong with a schema document that parses.

- `Violation`: one thing that is wrong, at one place.
- `Violation.message`: the words for it.
- `joinMessages`: the words for several, with empty lines between them.
-/

namespace PersistedQueries.Schema

open GraphQL (TypeRef OperationKind TypeBody printType)

/-- A place with arguments. -/
inductive Owner where
  /-- A field of a type. -/
  | field (type field : String)
  | directive (name : String)
  deriving DecidableEq, Repr

/-- A place with arguments, and one of them. -/
def Owner.argument (owner : Owner) (argument : String) : String :=
  match owner with
  | field type name => s!"{type}.{name}({argument}:)"
  | directive name => s!"@{name}({argument}:)"

/-- The words for a kind of place: its name in small letters, with spaces. -/
def placeWords (place : String) : String :=
  String.ofList (place.toList.map fun c => if c = '_' then ' ' else c.toLower)

/-- One thing that is wrong with a schema document. -/
inductive Violation where
  | secondSchema
  | secondRoot (kind : OperationKind)
  | secondType (name : String)
  | secondEnumValue (type value : String)
  | secondField (type field : String)
  | secondArgumentDefinition (owner : Owner) (argument : String)
  | secondDirectiveDefinition (name : String)
  /-- No type has the name; `known` are the names to suggest from. -/
  | unknownType (name : String) (known : List String)
  | unknownDirective (name : String)
  /-- The directive is not for the kind of place, which is named as in its definition. -/
  | misplacedDirective (name place : String)
  /-- A directive that is not repeatable comes twice at one place. -/
  | repeatedDirective (name : String)
  /-- An extension is of another kind than the type. -/
  | extensionKind (word name : String)
  /-- There is no type to extend; `known` are the names to suggest from. -/
  | extensionTarget (name : String) (known : List String)
  /-- A directive has no such argument; `known` are the names to suggest from. -/
  | unknownArgument (argument directive : String) (known : List String)
  | repeatedArgument (name : String)
  | repeatedInputField (name : String)
  | lackingArgument (directive argument : String) (type : TypeRef)
  deriving Repr

/-- The words for a violation. -/
def Violation.message : Violation → String
  | secondSchema => "Must provide only one schema definition."
  | secondRoot kind => s!"There can be only one {kind.word} type in schema."
  | secondType name => s!"There can be only one type named '{name}'."
  | secondEnumValue type value => s!"Enum value '{type}.{value}' can only be defined once."
  | secondField type field => s!"Field '{type}.{field}' can only be defined once."
  | secondArgumentDefinition owner argument =>
    let place := owner.argument argument
    s!"Argument '{place}' can only be defined once."
  | secondDirectiveDefinition name => s!"There can be only one directive named '@{name}'."
  | unknownType name known => s!"Unknown type '{name}'." ++ didYouMean name known
  | unknownDirective name => s!"Unknown directive '@{name}'."
  | misplacedDirective name place =>
    let place := placeWords place
    s!"Directive '@{name}' may not be used on {place}."
  | repeatedDirective name =>
    s!"The directive '@{name}' can only be used once at this location."
  | extensionKind word name => s!"Cannot extend non-{word} type '{name}'."
  | extensionTarget name known =>
    s!"Cannot extend type '{name}' because it is not defined." ++ didYouMean name known
  | unknownArgument argument directive known =>
    s!"Unknown argument '{argument}' on directive '@{directive}'." ++ didYouMean argument known
  | repeatedArgument name => s!"There can be only one argument named '{name}'."
  | repeatedInputField name => s!"There can be only one input field named '{name}'."
  | lackingArgument directive argument type =>
    let type := String.ofList (printType type)
    s!"Directive '@{directive}' argument '{argument}' of type '{type}' is required, " ++
      "but it was not provided."

/-- Messages with empty lines between them. -/
def joinMessages (messages : List String) : String := String.intercalate "\n\n" messages

/-- The words for an extension's kind of type. -/
def extensionWord : TypeBody → String
  | .scalar => "scalar"
  | .object .. => "object"
  | .interface .. => "interface"
  | .union _ => "union"
  | .enum _ => "enum"
  | .input _ => "input object"

end PersistedQueries.Schema
