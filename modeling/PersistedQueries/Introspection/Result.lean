import PersistedQueries.GraphQL.Printer
import PersistedQueries.Introspection.Query
import PersistedQueries.Schema.Default

/-!
# What a schema says about itself

The answer of a schema to the introspection query, with its fields in the order of the query.

- `reference`: a reference to a type, looked through to the depth of the query.
- `inputJson`, `fieldJson`, `enumValueJson`: the parts of types.
- `typeJson`, `directiveJson`: types and directives.
- `result`: the whole answer.
-/

namespace PersistedQueries.Introspection

open GraphQL (TypeRef OperationKind)

/-- An answer, or why there is none. -/
abbrev Answer := Except Schema.Unwritable Json

/-- A field of an answer, when its part is asked for. -/
def part (isAsked : Bool) (name : String) (value : Json) : List (String × Json) :=
  if isAsked then [(name, value)] else []

/-- Whether something is deprecated, and why. -/
def deprecationFields (reason : Option String) : List (String × Json) :=
  [("isDeprecated", .bool reason.isSome), ("deprecationReason", Json.ofOption reason)]

/-! ## References -/

/-- The word for the kind of a named type. -/
def kindOf (schema : Schema) (name : String) : Json :=
  Json.ofOption ((schema.body? name).map (·.kindName))

/-- The kind of a type, and its name when it has one. -/
def kindAndName (schema : Schema) : TypeRef → Json × Json
  | .named name => (kindOf schema name, .string name)
  | .list _ => (.string "LIST", .null)
  | .nonNull _ => (.string "NON_NULL", .null)

/-- The type within a list or non-null type. -/
def inner? : TypeRef → Option TypeRef
  | .named _ => none
  | .list item => some item
  | .nonNull type => some type

/-- A type within another one, looked through to a depth. -/
def within (schema : Schema) : (depth : Nat) → Option TypeRef → List (String × Json)
  | 0, _ => []
  | _ + 1, none => [("ofType", .null)]
  | depth + 1, some type =>
    let (kind, name) := kindAndName schema type
    [("ofType", .object ([("name", name), ("kind", kind)] ++ within schema depth (inner? type)))]

/-- A reference to a type. -/
def reference (schema : Schema) (depth : Nat) (type : TypeRef) : Json :=
  let (kind, name) := kindAndName schema type
  .object ([("kind", kind), ("name", name)] ++ within schema depth (inner? type))

/-- References to named types. -/
def references (schema : Schema) (depth : Nat) (names : List String) : Json :=
  .array (names.map fun name => reference schema depth (.named name))

/-! ## Parts of types -/

/-- The literal of a default value. -/
def defaultJson (schema : Schema) (input : Schema.Input) : Answer :=
  match input.default with
  | none => .ok .null
  | some value => do
    let literal ← Schema.writeDefault schema input.type value
    return .string (String.ofList (GraphQL.printValue literal))

/-- An argument or an input field. -/
def inputJson (schema : Schema) (query : Query) (input : Schema.Input) : Answer := do
  let default ← defaultJson schema input
  return .object <|
    [("name", .string input.name)] ++
      part query.descriptions "description" (Json.ofOption input.description) ++
      [("type", reference schema query.depth input.type), ("defaultValue", default)] ++
      if query.deprecatedInputs then deprecationFields input.deprecation else []

/-- Arguments or input fields. Those that are deprecated have to be asked for. -/
def inputsJson (schema : Schema) (query : Query) (inputs : List Schema.Input) : Answer := do
  let shown := inputs.filter fun input => query.deprecatedInputs || input.deprecation.isNone
  return .array (← shown.mapM (inputJson schema query))

/-- A field. -/
def fieldJson (schema : Schema) (query : Query) (field : Schema.Field) : Answer := do
  let arguments ← inputsJson schema query field.arguments
  return .object <|
    [("name", .string field.name)] ++
      part query.descriptions "description" (Json.ofOption field.description) ++
      [("args", arguments), ("type", reference schema query.depth field.type)] ++
      deprecationFields field.deprecation

/-- A value of an enumeration. -/
def enumValueJson (query : Query) (value : Schema.EnumValue) : Json :=
  .object <|
    [("name", .string value.name)] ++
      part query.descriptions "description" (Json.ofOption value.description) ++
      deprecationFields value.deprecation

/-! ## Types and directives -/

/-- A type. What its kind does not have is null. -/
def typeJson (schema : Schema) (query : Query) (type : Schema.NamedType) : Answer := do
  let fields ← match type.body with
    | .object _ fields | .interface _ fields =>
      (fields.mapM (fieldJson schema query)).map Json.array
    | _ => .ok .null
  let inputFields ← match type.body with
    | .input fields _ => inputsJson schema query fields
    | _ => .ok .null
  let interfaces := match type.body with
    | .object interfaces _ | .interface interfaces _ => references schema query.depth interfaces
    | _ => .null
  let enumValues := match type.body with
    | .enum values => .array (values.map (enumValueJson query))
    | _ => .null
  let possible := match type.body with
    | .interface .. | .union _ => references schema query.depth (schema.possibleTypes type)
    | _ => .null
  let specifiedBy := match type.body with
    | .scalar specifiedBy => Json.ofOption specifiedBy
    | _ => .null
  let isOneOf := match type.body with
    | .input _ isOneOf => .bool isOneOf
    | _ => .null
  return .object <|
    [("kind", .string type.body.kindName), ("name", .string type.name)] ++
      part query.descriptions "description" (Json.ofOption type.description) ++
      part query.specifiedBy "specifiedByURL" specifiedBy ++
      part query.isOneOf "isOneOf" isOneOf ++
      [("fields", fields), ("inputFields", inputFields), ("interfaces", interfaces),
        ("enumValues", enumValues), ("possibleTypes", possible)]

/-- A directive. -/
def directiveJson (schema : Schema) (query : Query) (directive : Schema.DirectiveType) :
    Answer := do
  let arguments ← inputsJson schema query directive.arguments
  return .object <|
    [("name", .string directive.name)] ++
      part query.descriptions "description" (Json.ofOption directive.description) ++
      part query.isRepeatable "isRepeatable" (.bool directive.isRepeatable) ++
      (if query.deprecatedDirectives then deprecationFields none else []) ++
      [("locations", Json.strings directive.locations),
        ("args", arguments)]

/-- The type at which a kind of operation starts. -/
def rootJson (schema : Schema) (kind : OperationKind) : Json :=
  match schema.root kind with
  | none => .null
  | some name => .object [("name", .string name), ("kind", kindOf schema name)]

/-- The answer of a schema to the introspection query. A default value without a literal has no
place in an answer; the first one in the order of the query counts. -/
def result (schema : Schema) (query : Query) : Answer := do
  let types ← schema.types.mapM (typeJson schema query)
  let directives ← schema.directives.mapM (directiveJson schema query)
  return .object [("__schema", .object (
    part (query.schemaDescription && query.descriptions) "description"
        (Json.ofOption schema.description) ++
      [("queryType", rootJson schema .query),
        ("mutationType", rootJson schema .mutation),
        ("subscriptionType", rootJson schema .subscription),
        ("types", .array types),
        ("directives", .array directives)]))]

end PersistedQueries.Introspection
