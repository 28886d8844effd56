import PersistedQueries.Json.Access

/-!
# Minified introspection

A normalized cache needs the names of types, fields and arguments and the types of fields, and
little else. What is left out of an introspection result is referred to as the scalar `Any`.

- `Inclusion`: which kinds of types are kept, and whether directives are.
- `Minified.reference`: a reference to a type, where a type that is left out becomes `Any`.
- `Minified.arguments`, `field`, `type`: what is kept of them.
- `minify`: the minified form of an introspection result.
-/

namespace PersistedQueries.Introspection

open Json (Mismatch)

/-- What a minified result includes besides object types, interfaces and unions. -/
structure Inclusion where
  /-- Scalars that are not standard ones. -/
  scalars : Bool := false
  /-- Enumerations. -/
  enums : Bool := false
  /-- Input types. -/
  inputs : Bool := false
  /-- Directives. -/
  directives : Bool := false
  deriving DecidableEq, Repr

namespace Inclusion

/-- What is wrong with a setting. -/
inductive Fault where
  /-- There is no setting of the name. -/
  | unknown (name : String)
  /-- It has the name of the introspection result, which is given already. -/
  | givenTwice
  deriving DecidableEq, Repr

/-- The message of a fault. -/
def Fault.message : Fault → String
  | unknown name => s!"minify_introspection() got an unexpected keyword argument '{name}'"
  | givenTwice => "minify_introspection() got multiple values for argument " ++
      Text.quote "introspection"

/-- What is included, by the names that users give the settings. -/
def withSettings (inclusion : Inclusion) : List (String × Json) → Except Fault Inclusion
  | [] => .ok inclusion
  | ("include_scalars", value) :: rest =>
    withSettings { inclusion with scalars := value.isTruthy } rest
  | ("include_enums", value) :: rest =>
    withSettings { inclusion with enums := value.isTruthy } rest
  | ("include_inputs", value) :: rest =>
    withSettings { inclusion with inputs := value.isTruthy } rest
  | ("include_directives", value) :: rest =>
    withSettings { inclusion with directives := value.isTruthy } rest
  | (name, _) :: _ => .error (if name = "introspection" then .givenTwice else .unknown name)

/-- What is included, nothing by default. -/
def ofSettings (settings : List (String × Json)) : Except Fault Inclusion :=
  withSettings {} settings

/-- Types of a kind are kept. -/
def keeps (inclusion : Inclusion) : Json → Bool
  | .string "SCALAR" => inclusion.scalars
  | .string "ENUM" => inclusion.enums
  | .string "INPUT_OBJECT" => inclusion.inputs
  | _ => true

end Inclusion

namespace Minified

/-! ## References -/

/-- The scalar that stands for every type that is left out. -/
def anyScalar : Json := .object [("kind", .string "SCALAR"), ("name", .string "Any")]

/-- The name of a standard scalar. -/
def isStandardScalar : Json → Bool
  | .string name => name ∈ ["String", "Int", "Float", "Boolean", "ID"]
  | _ => false

/-- The kind of a type around another one. -/
def isWrapper : Json → Bool
  | .string kind => kind = "NON_NULL" || kind = "LIST"
  | _ => false

/-- A reference to a named type. -/
def namedReference (inclusion : Inclusion) (kind type : Json) : Except Mismatch Json :=
  if inclusion.keeps kind then do
    let name ← (← type.get "name").asKey
    return if isStandardScalar name then anyScalar
      else .object [("kind", kind), ("name", name)]
  else .ok anyScalar

/-- A reference to a type. -/
def reference (inclusion : Inclusion) (type : Json) : Except Mismatch Json :=
  match type.get "kind" with
  | .error mismatch => .error mismatch
  | .ok kind =>
    if isWrapper kind then
      match _hinner : type.get "ofType" with
      | .error mismatch => .error mismatch
      | .ok inner =>
        (reference inclusion inner).map fun inner => .object [("kind", kind), ("ofType", inner)]
    else namedReference inclusion kind type
  termination_by sizeOf type
  decreasing_by exact Json.sizeOf_get _hinner

/-! ## Parts of types -/

/-- An argument or an input field. -/
def argument (inclusion : Inclusion) (argument : Json) : Except Mismatch Json := do
  let name ← argument.get "name"
  let type ← reference inclusion (← argument.get "type")
  return .object [("name", name), ("type", type)]

/-- Arguments or input fields, of which there may be none. -/
def arguments (inclusion : Inclusion) (arguments : Json) : Except Mismatch Json := do
  return .array (← (← arguments.elementsOrNone).mapM (argument inclusion))

/-- A field. -/
def field (inclusion : Inclusion) (field : Json) : Except Mismatch Json := do
  let name ← field.get "name"
  let type ← reference inclusion (← field.get "type")
  let arguments ← arguments inclusion (← field.getD "args" .null)
  return .object [("name", name), ("type", type), ("args", arguments)]

/-- The items of a part of a type that may be missing, each of them minified. -/
def items (type : Json) (name : String) (item : Json → Except Mismatch Json) :
    Except Mismatch Json := do
  return .array (← (← (← type.getD name .null).elementsOrNone).mapM item)

/-- An interface of a type. -/
def interface (interface : Json) : Except Mismatch Json := do
  return .object [("kind", .string "INTERFACE"), ("name", ← interface.get "name")]

/-- A value of an enumeration. -/
def enumValue (value : Json) : Except Mismatch Json := do
  return .object [("name", ← value.get "name")]

/-- The types of a schema by name, with their kinds. The last one of a name counts. -/
abbrev Kinds := List (Json × Json)

/-- The kind of the type of a name; a type that is not there counts as an object type. -/
def Kinds.kind (kinds : Kinds) (name : Json) : Json :=
  let found := kinds.reverse.find? fun (other, _) =>
    match other, name with
    | .string a, .string b => a = b
    | _, _ => false
  (found.map Prod.snd).getD (.string "OBJECT")

/-- A possible type of an interface or a union. -/
def possibleType (kinds : Kinds) (type : Json) : Except Mismatch Json := do
  let name ← (← type.get "name").asKey
  return .object [("kind", kinds.kind name), ("name", name)]

/-- The kind of every type. -/
def kindsOf (types : List Json) : Except Mismatch Kinds :=
  types.mapM fun type => do
    let name ← type.get "name"
    let kind ← type.get "kind"
    return (← name.asKey, kind)

/-! ## Types -/

/-- The fields of a minified type behind its kind and name. -/
def typeBody (inclusion : Inclusion) (kinds : Kinds) (kind : String) (type : Json) :
    Except Mismatch (List (String × Json)) := do
  match kind with
  | "OBJECT" | "INTERFACE" =>
    let fields ← items type "fields" (field inclusion)
    let interfaces ← items type "interfaces" interface
    let possible ←
      if kind = "INTERFACE" then
        pure [("possibleTypes", ← items type "possibleTypes" (possibleType kinds))]
      else pure []
    return [("fields", fields), ("interfaces", interfaces)] ++ possible
  | "UNION" => return [("possibleTypes", ← items type "possibleTypes" (possibleType kinds))]
  | "ENUM" => return [("enumValues", ← items type "enumValues" enumValue)]
  | "INPUT_OBJECT" => return [("inputFields", ← items type "inputFields" (argument inclusion))]
  | _ => return []

/-- A type is listed: its name is neither one of introspection nor that of a standard scalar, and
its kind is kept. -/
def isListed (inclusion : Inclusion) (name kind : Json) : Except Mismatch Bool :=
  match name with
  | .string text =>
    .ok (!(text.startsWith "__" || isStandardScalar name || !inclusion.keeps kind))
  | other => .error (.noOperation other.kindName "startswith")

/-- A type, unless it is left out. -/
def type? (inclusion : Inclusion) (kinds : Kinds) (type : Json) : Except Mismatch (Option Json) := do
  let name ← type.get "name"
  let kind ← type.get "kind"
  if ← isListed inclusion name kind then
    let body ← match kind with
      | .string word => typeBody inclusion kinds word type
      | _ => pure []
    return some (.object ([("kind", kind), ("name", name)] ++ body))
  else return none

/-- The name of the type at which a kind of operation starts. -/
def root (schema : Json) (key : String) : Except Mismatch Json := do
  let root ← schema.getD key .null
  if root.isTruthy then return .object [("name", ← root.get "name")] else return .null

/-- A directive. -/
def directive (inclusion : Inclusion) (directive : Json) : Except Mismatch Json := do
  let name ← directive.get "name"
  let arguments ← arguments inclusion (← directive.getD "args" .null)
  return .object [("name", name), ("args", arguments)]

/-- The types of a minified result. The scalar for those that are left out comes last; it is
listed unless scalars are included. -/
def types (inclusion : Inclusion) (kinds : Kinds) (types : List Json) :
    Except Mismatch (List Json) := do
  let listed ← types.filterMapM (type? inclusion kinds)
  return if inclusion.scalars then listed else listed ++ [anyScalar]

end Minified

/-- The minified form of an introspection result. -/
def minify (inclusion : Inclusion) (introspection : Json) : Except Mismatch Json := do
  let schema ← introspection.get "__schema"
  let kinds ← Minified.kindsOf (← (← schema.get "types").elements)
  let types ← Minified.types inclusion kinds (← (← schema.get "types").elements)
  let query ← Minified.root schema "queryType"
  let mutation ← Minified.root schema "mutationType"
  let subscription ← Minified.root schema "subscriptionType"
  let directives ←
    if inclusion.directives then Minified.items schema "directives" (Minified.directive inclusion)
    else pure (.array [])
  return .object [("__schema", .object [
    ("queryType", query), ("mutationType", mutation), ("subscriptionType", subscription),
    ("types", .array types), ("directives", directives)])]

end PersistedQueries.Introspection
