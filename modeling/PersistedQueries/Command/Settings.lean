import PersistedQueries.Command.Arguments
import PersistedQueries.Options.Basic
import PersistedQueries.Text.Blank

/-!
# Settings of a run

The environment sets options and the arguments override them.

- `Settings`: the options of a run and the import aliases.
- `Settings.Fault`: why there are none.
- `Settings.ofArguments`: the settings that an environment, the file for variables and arguments
  make.
- `Settings.exclusions`: the patterns of excluded directories.
-/

namespace PersistedQueries.Command

/-- The options of a run. -/
structure Settings where
  /-- The options of the session. -/
  options : Options
  /-- The import aliases. -/
  aliases : Table String String

namespace Settings

/-- Why arguments make no settings. -/
inductive Fault where
  /-- The environment makes no options. -/
  | options (fault : Options.Fault)
  /-- A setting is no pair. -/
  | pair (flag value : String)
  /-- A setting is no text. -/
  | mismatch (fault : Json.Mismatch)

/-- The fault of settings that make no pairs. -/
def Fault.ofPair : Options.PairFault → Fault
  | .invalid flag value => pair flag value
  | .mismatch fault => .mismatch fault

/-- The items of a text with commas between them, without blanks around them and without empty
ones. -/
def listItems (text : String) : List String :=
  (((Text.splitOn ',' text.toList).map Text.strip).filter (!·.isEmpty)).map String.ofList

/-- An ending of files with a dot in front. -/
def dotted (ending : String) : String := if ending.startsWith "." then ending else "." ++ ending

/-- Directories that are always left out. -/
def usualExclusions : List String :=
  ["node_modules", ".git", "dist", "build", ".next", ".turbo", "coverage", "__pycache__"]

/-- The patterns of directories that are left out when some are asked for. -/
def exclusions (asked : String) : List String := usualExclusions ++ listItems asked

/-- A text that is given and not empty. -/
def given (value : Option Value) : Option String := (value.bind Value.text?).filter (· ≠ "")

/-- The pairs that the values of a flag are. -/
def pairsOf (flag : Flag) (values : List Value) : Except Fault (Table String String) :=
  (Options.pairsOf ("--" ++ flag.word) (.array (values.map Value.toJson))).mapError Fault.ofPair

/-- The schema that arguments ask for. -/
def schemaOf (arguments : Arguments) : Except Fault (Option SchemaOptions) :=
  match given arguments.schema with
  | none => .ok none
  | some schema => do
    let headers ← pairsOf .headers arguments.headers
    return some {
      schema
      schemaPath := given arguments.introspectionOutput
      possibleTypesPath := given arguments.possibleTypesOutput
      minifiedPath := given arguments.minifiedOutput
      headers := .ofList (headers.entries.map fun (name, value) => (name, .string value)) }

/-- The options that arguments override. -/
def override (options : Options) (arguments : Arguments) (schema : Option SchemaOptions) :
    Options :=
  { options with
    outputPath := (arguments.output.bind Value.text?).getD options.outputPath
    removeSource := arguments.removeSource || options.removeSource
    addTypename := arguments.addTypename || options.addTypename
    isPure := arguments.isPure || options.isPure
    isDebug := arguments.verbose || options.isDebug
    endings := (given arguments.extensions).elim options.endings fun text =>
      (listItems text).map dotted
    schema := schema.or options.schema }

/-- The settings that an environment, the file for variables and arguments make. A dry run makes no
artifacts of a schema. -/
def ofArguments (environment : Environment) (file : Option Text) (arguments : Arguments) :
    Except Fault Settings := do
  let options ← (Options.load environment file).mapError .options
  let schema ← schemaOf arguments
  let aliases ← pairsOf .aliases arguments.aliases
  let options := override options arguments schema
  return {
    options := { options with schema := if arguments.dryRun then none else options.schema }
    aliases }

end Settings

end PersistedQueries.Command
