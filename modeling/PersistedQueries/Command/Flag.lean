import PersistedQueries.Text.Basic

/-!
# Flags

The flags of the command line, in the order in which the help lists them.

- `Flag`, `Flag.all`: the flags.
- `Flag.names`: how a flag is written.
- `Flag.takesValue`: a value follows it.
- `Flag.help`: what the help says about it.
- `Flag.spellings`: every way to write a flag in full.
-/

namespace PersistedQueries.Command

/-- A flag. -/
inductive Flag where
  | help
  | path
  | output
  | exclude
  | extensions
  | aliases
  | root
  | removeSource
  | addTypename
  | pure
  | write
  | outDir
  | sourceMaps
  | dryRun
  | print
  | verbose
  | schema
  | introspectionOutput
  | possibleTypesOutput
  | minifiedOutput
  | headers
  deriving DecidableEq, Repr

namespace Flag

/-- The flags in order. -/
def all : List Flag :=
  [help, path, output, exclude, extensions, aliases, root, removeSource, addTypename, pure, write,
    outDir, sourceMaps, dryRun, print, verbose, schema, introspectionOutput, possibleTypesOutput,
    minifiedOutput, headers]

/-- The word of a flag. -/
def word : Flag → String
  | help => "help"
  | path => "path"
  | output => "output"
  | exclude => "exclude"
  | extensions => "extensions"
  | aliases => "alias"
  | root => "root"
  | removeSource => "remove-source"
  | addTypename => "add-typename"
  | pure => "pure"
  | write => "write"
  | outDir => "out-dir"
  | sourceMaps => "source-maps"
  | dryRun => "dry-run"
  | print => "print"
  | verbose => "verbose"
  | schema => "schema"
  | introspectionOutput => "introspection-output"
  | possibleTypesOutput => "possible-types-output"
  | minifiedOutput => "minified-output"
  | headers => "header"

/-- The ways to write a flag, the short one first. -/
def names : Flag → List String
  | help => ["-h", "--help"]
  | flag => ["--" ++ flag.word]

/-- A value follows the flag. -/
def takesValue : Flag → Bool
  | help | removeSource | addTypename | pure | write | sourceMaps | dryRun | print | verbose => false
  | _ => true

/-- How the value is called. -/
def valueName (flag : Flag) : String :=
  String.ofList (flag.word.toList.map fun c => if c = '-' then '_' else c.toUpper)

/-- What the help says about a flag. -/
def description : Flag → String
  | help => "show this help message and exit"
  | path => "File or directory to process"
  | output => "Manifest file path"
  | exclude => "Comma-separated directory patterns to exclude"
  | extensions => "Comma-separated file extensions to process (default: .ts,.tsx)"
  | aliases => "Import alias PREFIX=DIR relative to --root (repeatable, e.g. @/=src/)"
  | root => "Project root for --alias"
  | removeSource => "Leave only the hash at rewritten call sites"
  | addTypename => "Select __typename in every nested selection set"
  | pure => "Annotate rewritten calls with /* @__PURE__ */"
  | write => "Rewrite source files in place"
  | outDir => "Write rewritten copies into this directory"
  | sourceMaps => "Write a .map file next to each rewritten file"
  | dryRun => "Show persisted queries without writing anything"
  | print => "Force human-readable output even when piped"
  | verbose => "Verbose output"
  | schema => "SDL file or endpoint URL"
  | introspectionOutput | possibleTypesOutput | minifiedOutput => ""
  | headers => "HTTP header NAME=VALUE for endpoint introspection (repeatable)"

/-- Every way to write a flag in full, with the flag. -/
def spellings : List (String × Flag) :=
  all.flatMap fun flag => flag.names.map fun name => (name, flag)

/-- The flag that is written so. -/
def ofSpelling? (written : String) : Option Flag :=
  (spellings.find? (·.1 = written)).map Prod.snd

end Flag

end PersistedQueries.Command
