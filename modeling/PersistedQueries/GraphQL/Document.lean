/-!
# GraphQL documents

The tree of a parsed document, without comments. Names and numbers are kept as written; string
values are decoded, with a note whether they were block strings. Only the annotations within
schema definitions keep their places, because what is wrong with an argument of theirs is found
when the schema is built.

- `Value`, `Argument`, `Directive`, `TypeRef`: what may stand within definitions.
- `Selection`: a field, a fragment spread or an inline fragment. A field without a selection
  set has no selections, since a selection set is never empty.
- `Operation`, `Fragment`: the executable definitions.
- `PlacedDirective`: an annotation with its place.
- `TypeDefinition`, `DirectiveDefinition`, `SystemDefinition`: the definitions of a schema.
- `Definition`, `Document`: any definition, and the list of them.
-/

namespace PersistedQueries.GraphQL

/-! ## Values and types -/

/-- A value, which may mention variables. -/
inductive Value where
  | variable (name : String)
  /-- A whole number as written. -/
  | int (text : String)
  /-- A number with a fraction or an exponent as written. -/
  | float (text : String)
  | string (content : String) (isBlock : Bool)
  | boolean (value : Bool)
  | null
  | enum (name : String)
  | list (items : List Value)
  | object (fields : List (String × Value))
  deriving Repr, Inhabited

/-- A named value of a field or a directive. -/
structure Argument where
  name : String
  value : Value
  deriving Repr, Inhabited

/-- An annotation. -/
structure Directive where
  name : String
  arguments : List Argument
  deriving Repr, Inhabited

/-- A reference to a type. -/
inductive TypeRef where
  | named (name : String)
  | list (item : TypeRef)
  | nonNull (type : TypeRef)
  deriving DecidableEq, Repr, Inhabited

/-- The name at the bottom of a type reference. -/
def TypeRef.base : TypeRef → String
  | .named name => name
  | .list item => item.base
  | .nonNull type => type.base

/-- A string that documents a definition. -/
structure Description where
  content : String
  isBlock : Bool
  deriving DecidableEq, Repr, Inhabited

/-! ## Executable definitions -/

/-- A part of a selection set. -/
inductive Selection where
  | field (label : Option String) (name : String) (arguments : List Argument)
      (directives : List Directive) (selections : List Selection)
  | spread (name : String) (directives : List Directive)
  | inline (condition : Option String) (directives : List Directive) (selections : List Selection)
  deriving Repr, Inhabited

/-- The three kinds of operation. -/
inductive OperationKind where
  | query
  | mutation
  | subscription
  deriving DecidableEq, Repr, Inhabited

/-- The word for a kind of operation. -/
def OperationKind.word : OperationKind → String
  | .query => "query"
  | .mutation => "mutation"
  | .subscription => "subscription"

/-- The kind that a word stands for. -/
def OperationKind.ofWord? (word : String) : Option OperationKind :=
  [OperationKind.query, .mutation, .subscription].find? (·.word = word)

/-- A variable of an operation. -/
structure VariableDefinition where
  description : Option Description
  name : String
  type : TypeRef
  defaultValue : Option Value
  directives : List Directive
  deriving Repr, Inhabited

/-- A query, a mutation or a subscription. -/
structure Operation where
  description : Option Description
  kind : OperationKind
  name : Option String
  parameters : List VariableDefinition
  directives : List Directive
  selections : List Selection
  deriving Repr, Inhabited

/-- A named selection set on a type. -/
structure Fragment where
  description : Option Description
  name : String
  condition : String
  directives : List Directive
  selections : List Selection
  deriving Repr, Inhabited

/-! ## Schema definitions -/

/-- An annotation with its place in the text. -/
structure PlacedDirective extends Directive where
  /-- The offset of the annotation. -/
  offset : Nat
  /-- The offsets of the values of its arguments, in their order. -/
  valueOffsets : List Nat
  deriving Repr, Inhabited

/-- Annotations without their places. -/
def withoutPlaces (annotations : List PlacedDirective) : List Directive :=
  annotations.map PlacedDirective.toDirective

/-- An argument of a field or a directive, or a field of an input type. -/
structure InputValue where
  description : Option Description
  name : String
  type : TypeRef
  defaultValue : Option Value
  annotations : List PlacedDirective
  deriving Repr, Inhabited

/-- The annotations of an argument or an input field. -/
def InputValue.directives (input : InputValue) : List Directive := withoutPlaces input.annotations

/-- A field of an object or interface type. -/
structure FieldDefinition where
  description : Option Description
  name : String
  arguments : List InputValue
  type : TypeRef
  annotations : List PlacedDirective
  deriving Repr, Inhabited

/-- The annotations of a field. -/
def FieldDefinition.directives (field : FieldDefinition) : List Directive :=
  withoutPlaces field.annotations

/-- A value of an enumeration. -/
structure EnumValue where
  description : Option Description
  name : String
  annotations : List PlacedDirective
  deriving Repr, Inhabited

/-- The annotations of a value of an enumeration. -/
def EnumValue.directives (value : EnumValue) : List Directive := withoutPlaces value.annotations

/-- The type at which a kind of operation starts. -/
structure RootType where
  kind : OperationKind
  type : String
  deriving DecidableEq, Repr, Inhabited

/-- What a kind of type consists of. -/
inductive TypeBody where
  | scalar
  | object (interfaces : List String) (fields : List FieldDefinition)
  | interface (interfaces : List String) (fields : List FieldDefinition)
  | union (members : List String)
  | enum (values : List EnumValue)
  | input (fields : List InputValue)
  deriving Repr, Inhabited

/-- The word that introduces a definition of a kind of type. -/
def TypeBody.word : TypeBody → String
  | .scalar => "scalar"
  | .object .. => "type"
  | .interface .. => "interface"
  | .union _ => "union"
  | .enum _ => "enum"
  | .input _ => "input"

/-- The definition of a type, or what an extension adds to one. -/
structure TypeDefinition where
  description : Option Description
  name : String
  annotations : List PlacedDirective
  body : TypeBody
  deriving Repr, Inhabited

/-- The annotations of a type. -/
def TypeDefinition.directives (type : TypeDefinition) : List Directive :=
  withoutPlaces type.annotations

/-- The definition of a directive. -/
structure DirectiveDefinition where
  description : Option Description
  name : String
  arguments : List InputValue
  isRepeatable : Bool
  locations : List String
  deriving Repr, Inhabited

/-- A definition of a schema document. -/
inductive SystemDefinition where
  | schema (description : Option Description) (directives : List Directive) (roots : List RootType)
  | type (definition : TypeDefinition)
  | directive (definition : DirectiveDefinition)
  | extendSchema (directives : List Directive) (roots : List RootType)
  | extendType (addition : TypeDefinition)
  deriving Repr, Inhabited

/-- A definition. -/
inductive Definition where
  | operation (definition : Operation)
  | fragment (definition : Fragment)
  | system (definition : SystemDefinition)
  deriving Repr, Inhabited

/-- The name of a definition; a schema has none, and an operation may have none. -/
def Definition.name? : Definition → Option String
  | .operation op => op.name
  | .fragment frag => some frag.name
  | .system (.schema ..) => none
  | .system (.extendSchema ..) => none
  | .system (.type added) => some added.name
  | .system (.directive added) => some added.name
  | .system (.extendType added) => some added.name

/-- The definition is an operation. -/
def Definition.isOperation : Definition → Bool
  | .operation _ => true
  | _ => false

/-- A document is a list of definitions. -/
abbrev Document := List Definition

/-- The places where a directive may stand. -/
def directiveLocations : List String :=
  ["QUERY", "MUTATION", "SUBSCRIPTION", "FIELD", "FRAGMENT_DEFINITION", "FRAGMENT_SPREAD",
   "INLINE_FRAGMENT", "VARIABLE_DEFINITION", "SCHEMA", "SCALAR", "OBJECT", "FIELD_DEFINITION",
   "ARGUMENT_DEFINITION", "INTERFACE", "UNION", "ENUM", "ENUM_VALUE", "INPUT_OBJECT",
   "INPUT_FIELD_DEFINITION", "DIRECTIVE_DEFINITION"]

end PersistedQueries.GraphQL
