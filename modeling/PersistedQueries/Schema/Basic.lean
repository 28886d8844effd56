import PersistedQueries.GraphQL.Document
import PersistedQueries.Json.Basic

/-!
# Schemas

A schema says which types there are, which directives, and at which types the operations start.
Unlike the document that it is built from, it has every extension merged into the type that is
extended, every default value completed, and the standard types and directives included.

- `Schema.Input`, `Field`, `EnumValue`: the parts of types.
- `Schema.Body`, `NamedType`: the types.
- `Schema.DirectiveType`: the directives.
- `Schema`: the whole, with its types in a fixed order.
- `Schema.type?`: the type of a name.
-/

namespace PersistedQueries

namespace Schema

open GraphQL (TypeRef OperationKind)

/-- An argument, or a field of an input type. -/
structure Input where
  /-- Its name. -/
  name : String
  /-- What it is for. -/
  description : Option String := none
  /-- The type of its values. -/
  type : TypeRef
  /-- The value where none is given. -/
  default : Option Json := none
  /-- Why it should not be used any more. -/
  deprecation : Option String := none
  deriving Inhabited

/-- A value has to be given. -/
def Input.isRequired (input : Input) : Bool :=
  input.default.isNone && input.type matches .nonNull _

/-- A field of an object or interface type. -/
structure Field where
  /-- Its name. -/
  name : String
  /-- What it is for. -/
  description : Option String := none
  /-- Its arguments. -/
  arguments : List Input := []
  /-- The type of its values. -/
  type : TypeRef
  /-- Why it should not be used any more. -/
  deprecation : Option String := none
  deriving Inhabited

/-- A value of an enumeration. -/
structure EnumValue where
  /-- Its name. -/
  name : String
  /-- What it stands for. -/
  description : Option String := none
  /-- Why it should not be used any more. -/
  deprecation : Option String := none
  deriving Inhabited

/-- What a type consists of. -/
inductive Body where
  /-- A scalar, perhaps with the address of its specification. -/
  | scalar (specifiedBy : Option String)
  | object (interfaces : List String) (fields : List Field)
  | interface (interfaces : List String) (fields : List Field)
  | union (members : List String)
  | enum (values : List EnumValue)
  /-- An input type, of whose fields exactly one may have to be given. -/
  | input (fields : List Input) (isOneOf : Bool)
  deriving Inhabited

/-- A type with its name. -/
structure NamedType where
  /-- Its name. -/
  name : String
  /-- What it is for. -/
  description : Option String := none
  /-- What it consists of. -/
  body : Body
  deriving Inhabited

/-- A directive. -/
structure DirectiveType where
  /-- Its name. -/
  name : String
  /-- What it is for. -/
  description : Option String := none
  /-- Its arguments. -/
  arguments : List Input := []
  /-- It may stand at one place more than once. -/
  isRepeatable : Bool := false
  /-- Where it may stand. -/
  locations : List String
  deriving Inhabited

/-! ## Kinds -/

/-- The word for a kind of type. -/
def Body.kindName : Body → String
  | .scalar _ => "SCALAR"
  | .object .. => "OBJECT"
  | .interface .. => "INTERFACE"
  | .union _ => "UNION"
  | .enum _ => "ENUM"
  | .input .. => "INPUT_OBJECT"

/-- Values of the type may be given as arguments. -/
def Body.isInput : Body → Bool
  | .scalar _ | .enum _ | .input .. => true
  | _ => false

/-- Values of the type may be the values of fields. -/
def Body.isOutput : Body → Bool
  | .input .. => false
  | _ => true

/-- The interfaces of an object or interface type. -/
def Body.interfaces : Body → List String
  | .object interfaces _ | .interface interfaces _ => interfaces
  | _ => []

/-- The fields of an object or interface type. -/
def Body.fields : Body → List Field
  | .object _ fields | .interface _ fields => fields
  | _ => []

/-- The field of a name. -/
def Body.field? (body : Body) (name : String) : Option Field :=
  body.fields.find? (·.name = name)

end Schema

/-- Types, directives, and the types at which operations start. -/
structure Schema where
  /-- What the schema is for. -/
  description : Option String
  /-- Where the operations of each kind start. -/
  root : GraphQL.OperationKind → Option String
  /-- The types. -/
  types : List Schema.NamedType
  /-- The directives. -/
  directives : List Schema.DirectiveType

namespace Schema

/-- The type of a name. -/
def type? (schema : Schema) (name : String) : Option NamedType :=
  schema.types.find? (·.name = name)

/-- What the type of a name consists of. -/
def body? (schema : Schema) (name : String) : Option Body := (schema.type? name).map NamedType.body

/-- The object types that implement an interface, in the order of the types. -/
def implementations (schema : Schema) (interface : String) : List String :=
  schema.types.filterMap fun type =>
    match type.body with
    | .object interfaces _ => if interface ∈ interfaces then some type.name else none
    | _ => none

/-- The object types that a value of a type may have. -/
def possibleTypes (schema : Schema) (type : NamedType) : List String :=
  match type.body with
  | .union members => members
  | .interface .. => schema.implementations type.name
  | _ => []

end Schema

end PersistedQueries
