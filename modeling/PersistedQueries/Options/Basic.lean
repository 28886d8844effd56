import PersistedQueries.Json.Access
import PersistedQueries.Options.Environment
import PersistedQueries.Options.Truth

/-!
# Options

The options say where the manifest is, how call sites are replaced, and which artifacts are made
of which schema. The environment sets some of them; values that are given explicitly win.

- `SchemaOptions`: where the schema comes from and which artifacts are written.
- `Options`: all options; their defaults are those of a plain build.
- `Options.ofEnvironment`: the options that an environment sets.
- `Options.load`: the same, after the file for variables has been read.
- `Options.overridden`: the options as JSON fields with explicit values.
- `Options.listed`: the fields that such options list as their own.
- `Options.pairsOf`: the pairs of repeated settings of the form key, equals sign, value.
-/

namespace PersistedQueries

/-- Where the schema comes from and which artifacts are written. -/
structure SchemaOptions where
  /-- The path of a schema file or the address of an endpoint. -/
  schema : String
  /-- The path for the whole introspection result. -/
  schemaPath : Option String := none
  /-- The path for the map of possible types. -/
  possibleTypesPath : Option String := none
  /-- The path for the minified introspection result. -/
  minifiedPath : Option String := none
  /-- The options of the introspection query. -/
  query : List (String × Json) := []
  /-- What the minified result includes. -/
  minify : List (String × Json) := []
  /-- Headers for the endpoint. -/
  headers : Table String Json := .empty
  /-- The seconds to wait for the endpoint. -/
  timeout : Json := .int 30

/-- The options of a build. -/
structure Options where
  /-- The path of the manifest. -/
  outputPath : String := "persisted-queries.json"
  /-- The build does anything at all. -/
  isEnabled : Bool := true
  /-- Persisted calls keep only the digest. -/
  removeSource : Bool := false
  /-- Every nested selection set selects the type name. -/
  addTypename : Bool := false
  /-- The schema, if artifacts are made of one. -/
  schema : Option SchemaOptions := none
  /-- Persisted calls are marked as free of effects. -/
  isPure : Bool := false
  /-- The endings of source files. -/
  endings : List String := [".ts", ".tsx"]
  /-- The manifest is written after each transformed file. -/
  isDevServer : Bool := false
  /-- The seconds between the last change and a delayed write. -/
  debounce : Json := .real (Binary64.ofDecimal false 5 (-1))
  /-- Progress is printed. -/
  isDebug : Bool := false

namespace Options

/-! ## From the environment -/

/-- The value of a variable that is set and not empty. -/
def nonempty (environment : Environment) (name : String) : Option String :=
  (environment.get? name).filter (· ≠ "")

/-- The truth value of a variable, or a default where it is not set. -/
def truth (environment : Environment) (name : String) (default : Bool) :
    Except Truth.Fault Bool :=
  return (← Truth.read (Json.ofOption (environment.get? name))).getD default

/-- The options that an environment sets. -/
def ofEnvironment (environment : Environment) : Except Truth.Fault Options := do
  let isEnabled ← truth environment "GQL_PERSISTED_ENABLED" true
  let removeSource ← truth environment "GQL_PERSISTED_REMOVE_SOURCE" false
  let addTypename ← truth environment "GQL_PERSISTED_ADD_TYPENAME" false
  let isPure ← truth environment "GQL_PERSISTED_PURE" false
  let isDebug ← truth environment "GQL_PERSISTED_DEBUG" false
  let schema : Option SchemaOptions := (nonempty environment "GQL_SCHEMA").map fun schema =>
    { schema
      schemaPath := nonempty environment "GQL_INTROSPECTION_PATH"
      possibleTypesPath := nonempty environment "GQL_POSSIBLE_TYPES_PATH"
      minifiedPath := nonempty environment "GQL_MINIFIED_INTROSPECTION_PATH" }
  let outputPath := (nonempty environment "GQL_PERSISTED_OUTPUT_PATH").getD "persisted-queries.json"
  return { outputPath, isEnabled, removeSource, addTypename, schema, isPure, isDebug }

/-- Why there are no options. -/
inductive Fault where
  /-- The file for variables sets a variable that cannot be set. -/
  | environment (fault : Environment.Fault)
  /-- A variable is no truth value. -/
  | truth (fault : Truth.Fault)

/-- The message of a fault. -/
def Fault.message : Fault → String
  | environment fault => fault.message
  | truth fault => fault.message

/-- The options that an environment sets, with the file for variables if there is one. -/
def load (environment : Environment) (file : Option Text) : Except Fault Options := do
  let environment ← (environment.load file).mapError .environment
  (ofEnvironment environment).mapError .truth

/-! ## Explicit values -/

/-- The schema options as JSON. -/
def schemaJson (schema : SchemaOptions) : Json :=
  .object [
    ("schema", .string schema.schema),
    ("schema_path", Json.ofOption schema.schemaPath),
    ("possible_types_path", Json.ofOption schema.possibleTypesPath),
    ("minified_path", Json.ofOption schema.minifiedPath),
    ("options", .object schema.query),
    ("minify", .object schema.minify),
    ("headers", .object schema.headers.entries),
    ("timeout", schema.timeout)]

/-- The options as JSON fields. -/
def fields (options : Options) : List (String × Json) :=
  [("output_path", .string options.outputPath),
    ("enabled", .bool options.isEnabled),
    ("remove_source", .bool options.removeSource),
    ("add_typename", .bool options.addTypename),
    ("introspection", options.schema.elim .null schemaJson),
    ("pure_annotation", .bool options.isPure),
    ("extensions", Json.strings options.endings),
    ("dev_server", .bool options.isDevServer),
    ("debounce", options.debounce),
    ("debug", .bool options.isDebug)]

/-- Why an explicit value cannot be taken. -/
inductive Unsettable where
  /-- It is for something that is no option. -/
  | unknown (name : String)
  /-- The options cannot become something else, least of all a value of the kind. -/
  | class (kind : String)
  /-- A value of the kind cannot stand for all the fields. -/
  | fields (kind : String)
  /-- It is for something that never changes. -/
  | references
  deriving DecidableEq, Repr

/-- The message of an explicit value that cannot be taken. -/
def Unsettable.message : Unsettable → String
  | unknown name => "Unknown option: " ++ name
  | .class kind => "__class__ must be set to a class, not " ++ Text.quote kind ++ " object"
  | fields kind => "__dict__ must be set to a dictionary, not a " ++ Text.quote kind
  | references =>
    "attribute " ++ Text.quote "__weakref__" ++ " of " ++ Text.quote "PersistedQueriesOptions" ++
      " objects is not writable"

/-- The name under which a record keeps the table of its own fields. -/
def tableName : String := "__dataclass_fields__"

/-- Names that every record answers to besides those of its fields. A value for one of them is
taken beside the fields. -/
def innateNames : List String :=
  ["__annotations__", tableName, "__dataclass_params__", "__delattr__", "__dir__",
    "__doc__", "__eq__", "__format__", "__ge__", "__getattribute__", "__getstate__", "__gt__",
    "__hash__", "__init__", "__init_subclass__", "__le__", "__lt__", "__match_args__",
    "__module__", "__ne__", "__new__", "__reduce__", "__reduce_ex__", "__repr__", "__setattr__",
    "__sizeof__", "__str__", "__subclasshook__"]

/-- The fields after one explicit value, which is taken as it is given. The first fields are those
of the options; further ones have been given beside them. -/
def setOne (fields : List (String × Json)) (name : String) (value : Json) :
    Except Unsettable (List (String × Json)) :=
  match name, value with
  | "__class__", value => .error (.class value.kindName)
  | "__weakref__", _ => .error .references
  | "__dict__", .object given =>
    .ok (given.foldl (fun sofar (name, value) => Json.setField name value sofar)
      ({} : Options).fields)
  | "__dict__", value => .error (.fields value.kindName)
  | name, value =>
    if (Json.lookupField name fields).isSome || innateNames.contains name then
      .ok (Json.setField name value fields)
    else .error (.unknown name)

/-- Fields with explicit values. A null leaves its field alone. -/
def overrideFields (fields : List (String × Json)) :
    List (String × Json) → Except Unsettable (List (String × Json))
  | [] => .ok fields
  | (_, .null) :: rest => overrideFields fields rest
  | (name, value) :: rest => do overrideFields (← setOne fields name value) rest

/-- The options as JSON fields with explicit values. Values for names that are no fields of the
options follow those of the fields. -/
def overridden (options : Options) (given : List (String × Json)) :
    Except Unsettable (List (String × Json)) :=
  overrideFields options.fields given

/-- The fields that options with explicit values list as their own. A value that stands for the
table of the fields has no entry that describes a field, so nothing is listed with an empty one and
all others fail. -/
def listed (fields : List (String × Json)) : Except Json.Mismatch (List (String × Json)) :=
  match Json.lookupField tableName fields with
  | none => .ok (fields.take ({} : Options).fields.length)
  | some (.object []) => .ok []
  | some (.object ((_, entry) :: _)) => .error (.noOperation entry.kindName "_field_type")
  | some table => .error (.noOperation table.kindName "values")

/-! ## Pairs -/

/-- Why settings make no pairs. -/
inductive PairFault where
  /-- A setting of a flag has no equals sign, or no key in front of it. -/
  | invalid (flag value : String)
  /-- A setting is no text, or the settings are no list. -/
  | mismatch (fault : Json.Mismatch)
  deriving DecidableEq, Repr

/-- The message of settings that make no pairs. -/
def PairFault.message : PairFault → String
  | invalid flag value => "Invalid " ++ flag ++ " " ++ Text.quote value ++ ", expected KEY=VALUE"
  | .mismatch fault => fault.message

/-- The key and the value around the first equals sign. The key is not empty. -/
def pair? (value : String) : Option (String × String) :=
  match Text.partition ['='] value.toList with
  | some (c :: key, target) => some (String.ofList (c :: key), String.ofList target)
  | _ => none

/-- The pair that one setting is. -/
def pairOf (flag : String) : Json → Except PairFault (String × String)
  | .string value => (pair? value).elim (.error (.invalid flag value)) .ok
  | other => .error (.mismatch (.noOperation other.kindName "partition"))

/-- The pairs of some settings, of which there may be none. A repeated key keeps its first place and
its last value. -/
def pairsOf (flag : String) (values : Json) : Except PairFault (Table String String) := do
  let settings ← values.elementsOrNone.mapError .mismatch
  return .ofList (← settings.mapM (pairOf flag))

end Options

end PersistedQueries
