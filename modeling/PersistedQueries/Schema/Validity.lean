import PersistedQueries.Schema.Build

/-!
# Valid schemas

A schema can be built and still be of no use: types without fields, types that do not provide
what their interfaces ask for, input types that no finite value can have.

- `Flaw`: one thing that keeps a schema from being of use.
- `Schema.refines`: values of one type are values of another.
- `circles`: the input types that require themselves.
- `Schema.flaws`: what is wrong with a schema: its root types, its directives and its types in
  their order.
-/

namespace PersistedQueries.Schema

open GraphQL (Value TypeRef OperationKind Document printType)

/-! ## Flaws -/

/-- A field of a type. -/
structure FieldPath where
  /-- The type. -/
  type : String
  /-- The field. -/
  field : String
  deriving DecidableEq, Repr

/-- A field as messages name it. -/
def FieldPath.text (path : FieldPath) : String := s!"{path.type}.{path.field}"

/-- One thing that is wrong with a schema. -/
inductive Flaw where
  | noQuery
  /-- An operation starts at a type that has no fields to select. -/
  | rootKind (kind : OperationKind) (type : String)
  | reservedName (name : String)
  /-- An argument has to be given and should not be given. -/
  | deprecatedArgument (owner : Owner) (argument : String)
  | deprecatedInputField (path : FieldPath)
  | noFields (type : String)
  | noMembers (type : String)
  | noValues (type : String)
  | noInputFields (type : String)
  | repeatedMember (type member : String)
  | implementsItself (type : String)
  | repeatedInterface (type interface : String)
  /-- A type implements an interface that implements the type. -/
  | circularInterface (type interface : String)
  /-- A type lacks an interface that one of its interfaces implements. -/
  | lackingInterface (type needed interface : String)
  | lackingField (expected : FieldPath) (type : String)
  | fieldType (expected : FieldPath) (expectedType : TypeRef) (found : FieldPath)
      (foundType : TypeRef)
  | lackingArgument (expected : FieldPath) (argument : String) (found : FieldPath)
  | argumentType (expected : FieldPath) (expectedType : TypeRef) (found : FieldPath)
      (foundType : TypeRef) (argument : String)
  | surplusArgument (found : FieldPath) (argument : String) (expected : FieldPath)
  | oneOfRequired (path : FieldPath)
  | oneOfDefault (path : FieldPath)
  /-- An input type requires itself through the fields of a path. -/
  | circularInput (type : String) (path : List String)
  deriving Repr

/-- The word for a kind of operation at the start of a sentence. -/
def kindTitle : OperationKind → String
  | .query => "Query"
  | .mutation => "Mutation"
  | .subscription => "Subscription"

/-- The words for a flaw. -/
def Flaw.message : Flaw → String
  | noQuery => "Query root type must be provided."
  | rootKind kind type =>
    let condition := if kind = .query then "" else " if provided"
    kindTitle kind ++ s!" root type must be Object type{condition}, it cannot be {type}."
  | reservedName name =>
    s!"Name '{name}' must not begin with '__', which is reserved by GraphQL introspection."
  | deprecatedArgument owner argument =>
    "Required argument " ++ owner.argument argument ++ " cannot be deprecated."
  | deprecatedInputField path => s!"Required input field {path.text} cannot be deprecated."
  | noFields type => s!"Type {type} must define one or more fields."
  | noMembers type => s!"Union type {type} must define one or more member types."
  | noValues type => s!"Enum type {type} must define one or more values."
  | noInputFields type => s!"Input Object type {type} must define one or more fields."
  | repeatedMember type member => s!"Union type {type} can only include type {member} once."
  | implementsItself type =>
    s!"Type {type} cannot implement itself because it would create a circular reference."
  | repeatedInterface type interface => s!"Type {type} can only implement {interface} once."
  | circularInterface type interface =>
    s!"Type {type} cannot implement {interface} because it would create a circular reference."
  | lackingInterface type needed interface =>
    s!"Type {type} must implement {needed} because it is implemented by {interface}."
  | lackingField expected type =>
    s!"Interface field {expected.text} expected but {type} does not provide it."
  | fieldType expected expectedType found foundType =>
    let expectedType := String.ofList (printType expectedType)
    let foundType := String.ofList (printType foundType)
    s!"Interface field {expected.text} expects type {expectedType} " ++
      s!"but {found.text} is type {foundType}."
  | lackingArgument expected argument found =>
    s!"Interface field argument {expected.text}({argument}:) expected " ++
      s!"but {found.text} does not provide it."
  | argumentType expected expectedType found foundType argument =>
    let expectedType := String.ofList (printType expectedType)
    let foundType := String.ofList (printType foundType)
    s!"Interface field argument {expected.text}({argument}:) expects type {expectedType} " ++
      s!"but {found.text}({argument}:) is type {foundType}."
  | surplusArgument found argument expected =>
    s!"Object field {found.text} includes required argument {argument} " ++
      s!"that is missing from the Interface field {expected.text}."
  | oneOfRequired path => s!"OneOf input field {path.text} must be nullable."
  | oneOfDefault path => s!"OneOf input field {path.text} cannot have a default value."
  | circularInput type path =>
    let path := String.intercalate "." path
    s!"Cannot reference Input Object '{type}' within itself " ++
      s!"through a series of non-null fields: '{path}'."

/-! ## Names and arguments -/

/-- Names that begin with two underscores are those of introspection. -/
def reserved (name : String) : List Flaw :=
  if name.startsWith "__" then [.reservedName name] else []

/-- Arguments at a place. -/
def argumentFlaws (owner : Owner) (arguments : List Input) : List Flaw :=
  arguments.flatMap fun argument =>
    reserved argument.name ++
      if argument.isRequired && argument.deprecation.isSome then
        [.deprecatedArgument owner argument.name]
      else []

/-! ## Root types -/

/-- Types at which operations start that have no fields. -/
def rootFlaws (schema : Schema) : List Flaw :=
  let roots := operationKinds.filterMap fun kind => (schema.root kind).map fun type => (kind, type)
  let isObject (type : String) : Bool := (schema.body? type).any (· matches .object ..)
  (if (schema.root .query).isNone then [.noQuery] else []) ++
    (roots.filter fun (_, type) => !isObject type).map fun (kind, type) => .rootKind kind type

/-! ## Interfaces -/

/-- Values of the first named type are values of the second. -/
def refinesName (schema : Schema) (name other : String) : Bool :=
  name = other ||
    match schema.body? other, schema.body? name with
    | some (.union members), some _ => name ∈ members
    | some (.interface ..), some body => other ∈ body.interfaces
    | _, _ => false

/-- Values of the first type are values of the second. -/
def refines (schema : Schema) : TypeRef → TypeRef → Bool
  | .nonNull type, .nonNull other => refines schema type other
  | .nonNull type, other => refines schema type other
  | _, .nonNull _ => false
  | .list type, .list other => refines schema type other
  | .list _, _ => false
  | _, .list _ => false
  | .named type, .named other => refinesName schema type other

/-- What a field lacks to be the field that an interface asks for. -/
def fieldFlaws (schema : Schema) (type interface : String) (expected found : Field) : List Flaw :=
  let there : FieldPath := ⟨interface, expected.name⟩
  let here : FieldPath := ⟨type, found.name⟩
  (if refines schema found.type expected.type then []
    else [.fieldType there expected.type here found.type]) ++
  (expected.arguments.flatMap fun argument =>
    match found.arguments.find? (·.name = argument.name) with
    | none => [.lackingArgument there argument.name here]
    | some own =>
      if own.type = argument.type then []
      else [.argumentType there argument.type here own.type argument.name]) ++
  found.arguments.flatMap fun argument =>
    if argument.isRequired && expected.arguments.all (·.name ≠ argument.name) then
      [.surplusArgument here argument.name there]
    else []

/-- What a type lacks to implement an interface. -/
def implementationFlaws (schema : Schema) (type : NamedType) (interface : String) : List Flaw :=
  let asked := (schema.body? interface).getD (.interface [] [])
  (asked.interfaces.flatMap fun needed =>
    if needed ∈ type.body.interfaces then []
    else if needed = type.name then [.circularInterface type.name interface]
    else [.lackingInterface type.name needed interface]) ++
  asked.fields.flatMap fun expected =>
    match type.body.field? expected.name with
    | none => [.lackingField ⟨interface, expected.name⟩ type.name]
    | some found => fieldFlaws schema type.name interface expected found

/-- The interfaces of a type behind those seen before. -/
def interfaceFlaws (schema : Schema) (type : NamedType) : (seen : List String) →
    List String → List Flaw
  | _, [] => []
  | seen, interface :: rest =>
    (if interface = type.name then [.implementsItself type.name] else []) ++
      if interface ∈ seen then
        .repeatedInterface type.name interface :: interfaceFlaws schema type seen rest
      else
        implementationFlaws schema type interface ++
          interfaceFlaws schema type (interface :: seen) rest

/-! ## Input types that require themselves -/

/-- The input types that a type cannot do without, each with the field that requires it. -/
def requirements (schema : Schema) (name : String) : List (String × String) :=
  match schema.body? name with
  | some (.input fields _) => fields.filterMap fun field =>
    match field.type with
    | .nonNull (.named other) =>
      if (schema.body? other).any (· matches .input ..) then some (field.name, other) else none
    | _ => none
  | _ => []

/-- The fields on a path from the first one behind a type on, without those in front. -/
def pathFrom (name : String) (path : List (String × String)) : List String :=
  (path.dropWhile (·.1 ≠ name)).map Prod.snd

/-- Follow the requirements of a type that is reached by a path of types and fields, and then
those of the types that are left over on the way. `visited` are the types followed before; a type
is followed once. -/
def circlesFrom (schema : Schema) : (fuel : Nat) → (path : List (String × String)) →
    (visited : List String) → (name : String) → List Flaw × List String
  | 0, _, visited, _ => ([], visited)
  | fuel + 1, path, visited, name =>
    if name ∈ visited then ([], visited)
    else
      (requirements schema name).foldl
        (fun (flaws, visited) (field, other) =>
          let path := path ++ [(name, field)]
          if path.any (·.1 = other) then
            (flaws ++ [.circularInput other (pathFrom other path)], visited)
          else
            let (more, visited) := circlesFrom schema fuel path visited other
            (flaws ++ more, visited))
        ([], name :: visited)

/-- The circles that are found first from an input type, and the types visited then. -/
def circles (schema : Schema) (visited : List String) (name : String) :
    List Flaw × List String :=
  circlesFrom schema (schema.types.length + 1) [] visited name

/-! ## Types -/

/-- The fields of an object or interface type. -/
def compositeFlaws (schema : Schema) (type : NamedType) : List Flaw :=
  (if type.body.fields.isEmpty then [.noFields type.name] else []) ++
    (type.body.fields.flatMap fun field =>
      reserved field.name ++ argumentFlaws (.field type.name field.name) field.arguments) ++
    interfaceFlaws schema type [] type.body.interfaces

/-- The fields of an input type. -/
def inputFlaws (type : String) (fields : List Input) (isOneOf : Bool) : List Flaw :=
  (if fields.isEmpty then [.noInputFields type] else []) ++
    fields.flatMap fun field =>
      let path : FieldPath := ⟨type, field.name⟩
      reserved field.name ++
        (if field.isRequired && field.deprecation.isSome then [.deprecatedInputField path]
          else []) ++
        (if isOneOf && field.type matches .nonNull _ then [.oneOfRequired path] else []) ++
        (if isOneOf && field.default.isSome then [.oneOfDefault path] else [])

/-- A type. Introspection types may begin with two underscores. -/
def typeFlaws (schema : Schema) (type : NamedType) : List Flaw :=
  (if (Standard.introspection.map (·.name)).contains type.name then [] else reserved type.name) ++
    match type.body with
    | .scalar _ => []
    | .object .. | .interface .. => compositeFlaws schema type
    | .union members =>
      (if members.isEmpty then [.noMembers type.name] else []) ++
        (repeats [] members).map (.repeatedMember type.name)
    | .enum values =>
      (if values.isEmpty then [.noValues type.name] else []) ++
        values.flatMap fun value => reserved value.name
    | .input fields isOneOf => inputFlaws type.name fields isOneOf

/-- The flaws of types, with the circles of input types behind their other flaws. -/
def typesFlaws (schema : Schema) (visited : List String) : List NamedType → List Flaw
  | [] => []
  | type :: rest =>
    let (circular, visited) :=
      if type.body matches .input .. then circles schema visited type.name else ([], visited)
    typeFlaws schema type ++ circular ++ typesFlaws schema visited rest

/-! ## Schemas -/

/-- What is wrong with a schema. -/
def flaws (schema : Schema) : List Flaw :=
  rootFlaws schema ++
    (schema.directives.flatMap fun directive =>
      reserved directive.name ++ argumentFlaws (.directive directive.name) directive.arguments) ++
    typesFlaws schema [] schema.types

end PersistedQueries.Schema
