import PersistedQueries.Json.Access

/-!
# The introspection query

A schema describes itself in answer to one fixed query, of which some parts may be left out.

- `Query`: which parts are asked for.
- `Query.setPart?`, `Query.setParts`: the parts by the names that users give them.
- `Query.text`: the text that an endpoint is sent. A part that is left out leaves an empty line.
- `Query.defaultPlace`: where it asks for default values.
-/

namespace PersistedQueries.Introspection

/-- Which parts of a schema are asked for. -/
structure Query where
  /-- What everything is for. -/
  descriptions : Bool := true
  /-- Where scalars are specified. -/
  specifiedBy : Bool := false
  /-- Whether directives may come more than once. -/
  isRepeatable : Bool := false
  /-- What the schema is for. -/
  schemaDescription : Bool := false
  /-- Arguments and input fields that are deprecated, and why. -/
  deprecatedInputs : Bool := false
  /-- Whether input types take exactly one field. -/
  isOneOf : Bool := false
  /-- Directives that are deprecated, and why. -/
  deprecatedDirectives : Bool := false
  /-- How many list and non-null types around a named type are looked through. -/
  depth : Nat := 9
  deriving Repr

namespace Query

/-- Everything is asked for. -/
def complete : Query := ⟨true, true, true, true, true, true, true, 9⟩

/-! ## Options -/

/-- What is wrong with the options of a query. -/
inductive Fault where
  /-- The asker has no option of the name. -/
  | unknownOption (asker name : String)
  /-- The asker is given what has the name already. -/
  | givenTwice (asker name : String)
  /-- Types would be looked through too deeply. -/
  | tooDeep
  /-- A value of the kind is no depth. -/
  | noDepth (kind : String)
  deriving DecidableEq, Repr

/-- The message of a fault. -/
def Fault.message : Fault → String
  | unknownOption asker name => s!"{asker}() got an unexpected keyword argument '{name}'"
  | givenTwice asker name => s!"{asker}() got multiple values for argument '{name}'"
  | tooDeep =>
    "Please set type_depth to a reasonable value between 0 and 100; the default is 9."
  | noDepth kind => s!"'<=' not supported between instances of '{kind}' and 'int'"

/-- Set a part to be asked for or not; other names are no parts. -/
def setPart? (query : Query) (name : String) (isAsked : Bool) : Option Query :=
  match name with
  | "descriptions" => some { query with descriptions := isAsked }
  | "specified_by_url" => some { query with specifiedBy := isAsked }
  | "directive_is_repeatable" => some { query with isRepeatable := isAsked }
  | "schema_description" => some { query with schemaDescription := isAsked }
  | "input_value_deprecation" => some { query with deprecatedInputs := isAsked }
  | "input_object_one_of" => some { query with isOneOf := isAsked }
  | "experimental_directive_deprecation" => some { query with deprecatedDirectives := isAsked }
  | _ => none

/-- Set parts by name. What is `given` besides the options has no option of its own. -/
def setParts (asker : String) (given : List String) (query : Query) :
    List (String × Json) → Except Fault Query
  | [] => .ok query
  | (name, value) :: rest =>
    match query.setPart? name value.isTruthy with
    | some query => setParts asker given query rest
    | none =>
      .error (if name ∈ given then .givenTwice asker name else .unknownOption asker name)

/-- The number of levels that a value asks for, a part of a level counting as one. -/
def levels : Json → Except Fault Nat
  | .int depth => .ok depth.toNat
  | .bool value => .ok (if value then 1 else 0)
  | .real (.infinite true) => .ok 0
  | .real depth =>
    match depth.ceil? with
    | some depth => .ok depth.toNat
    | none => .error .tooDeep
  | value => .error (.noDepth value.kindName)

/-- The query for an endpoint: by default a short one. -/
def forEndpoint (options : List (String × Json)) : Except Fault Query := do
  let parts := options.filter (·.1 ≠ "type_depth")
  let query ← setParts "get_introspection_query" [] {} parts
  match Json.lookupField "type_depth" options with
  | none => return query
  | some value =>
    let depth ← levels value
    if depth > 100 then throw .tooDeep
    return { query with depth }

/-- The query for a schema at hand: by default everything. -/
def forSchema (options : List (String × Json)) : Except Fault Query :=
  setParts "introspection_from_schema" ["schema"] complete options

/-! ## Text -/

/-- A line, or an empty one when its part is left out. -/
def partLine (isAsked : Bool) (line : String) : String := if isAsked then line else ""

/-- The lines that look through list and non-null types. -/
def throughLines (indent : String) : (depth : Nat) → List String
  | 0 => []
  | depth + 1 =>
    [indent ++ "ofType \x7b", indent ++ "  name", indent ++ "  kind"] ++
      throughLines (indent ++ "  ") depth ++ [indent ++ "\x7d"]

/-- The lines about the whole schema. -/
def schemaLines (query : Query) (onInputs : String) : List String :=
  [ "query IntrospectionQuery \x7b",
    "  __schema \x7b",
    partLine (query.schemaDescription && query.descriptions) "    description",
    "    queryType \x7b name kind \x7d",
    "    mutationType \x7b name kind \x7d",
    "    subscriptionType \x7b name kind \x7d",
    "    types \x7b",
    "      ...FullType",
    "    \x7d",
    "    directives" ++ partLine query.deprecatedDirectives "(includeDeprecated: true)" ++ " \x7b",
    "      name",
    partLine query.descriptions "      description",
    partLine query.isRepeatable "      isRepeatable",
    partLine query.deprecatedDirectives "      isDeprecated",
    partLine query.deprecatedDirectives "      deprecationReason",
    "      locations",
    "      args" ++ onInputs ++ " \x7b",
    "        ...InputValue",
    "      \x7d",
    "    \x7d",
    "  \x7d",
    "\x7d" ]

/-- The lines about a type. -/
def typeLines (query : Query) (onInputs : String) : List String :=
  [ "fragment FullType on __Type \x7b",
    "  kind",
    "  name",
    partLine query.descriptions "  description",
    partLine query.specifiedBy "  specifiedByURL",
    partLine query.isOneOf "  isOneOf",
    "  fields(includeDeprecated: true) \x7b",
    "    name",
    partLine query.descriptions "    description",
    "    args" ++ onInputs ++ " \x7b",
    "      ...InputValue",
    "    \x7d",
    "    type \x7b",
    "      ...TypeRef",
    "    \x7d",
    "    isDeprecated",
    "    deprecationReason",
    "  \x7d",
    "  inputFields" ++ onInputs ++ " \x7b",
    "    ...InputValue",
    "  \x7d",
    "  interfaces \x7b",
    "    ...TypeRef",
    "  \x7d",
    "  enumValues(includeDeprecated: true) \x7b",
    "    name",
    partLine query.descriptions "    description",
    "    isDeprecated",
    "    deprecationReason",
    "  \x7d",
    "  possibleTypes \x7b",
    "    ...TypeRef",
    "  \x7d",
    "\x7d" ]

/-- The lines about an argument or an input field. -/
def inputLines (query : Query) : List String :=
  [ "fragment InputValue on __InputValue \x7b",
    "  name",
    partLine query.descriptions "  description",
    "  type \x7b ...TypeRef \x7d",
    "  defaultValue",
    partLine query.deprecatedInputs "  isDeprecated",
    partLine query.deprecatedInputs "  deprecationReason",
    "\x7d" ]

/-- The lines about a reference to a type. -/
def referenceLines (query : Query) : List String :=
  ["fragment TypeRef on __Type \x7b", "  kind", "  name"] ++ throughLines "  " query.depth ++
    ["\x7d"]

/-- The lines of a query. -/
def lines (query : Query) : List String :=
  let onInputs := partLine query.deprecatedInputs "(includeDeprecated: true)"
  [""] ++ query.schemaLines onInputs ++ [""] ++ query.typeLines onInputs ++ [""] ++
    query.inputLines ++ [""] ++ query.referenceLines ++ [""]

/-- The text of a query. -/
def text (query : Query) : String := String.intercalate "\n" query.lines

/-- The line, counted from one, and the column at which default values are asked for. -/
def defaultPlace (query : Query) : Nat × Nat := (query.lines.idxOf "  defaultValue" + 1, 3)

end Query

end PersistedQueries.Introspection
