import PersistedQueries.Command.Flag

/-!
# Usage and help

The usage names every flag; the help says what each of them does. Lines are at most 78 characters
long.

- `wrapWords`: words on lines of a width.
- `usage`: the usage, with every further line below the first flag.
- `flagLines`: a flag with its description beside it, or below it when the flag is long.
- `help`: the usage, what the program is for, the flags and some examples.
-/

namespace PersistedQueries.Command

/-- The name of the program. -/
def programName : String := "cli.py"

/-- The greatest length of a line. -/
def lineWidth : Nat := 78

/-- The column of the descriptions of flags. -/
def descriptionColumn : Nat := 24

/-- Put words on lines of a width, one after the other. `line` is the line so far. -/
def wrapWords (width : Nat) : (line : String) → List String → List String
  | line, [] => if line.isEmpty then [] else [line]
  | line, word :: rest =>
    if line.isEmpty then wrapWords width word rest
    else if line.length + 1 + word.length ≤ width then
      wrapWords width (line ++ " " ++ word) rest
    else line :: wrapWords width word rest

/-- The words of a text. -/
def wordsOf (text : String) : List String :=
  ((Text.splitOn ' ' text.toList).filter (!·.isEmpty)).map String.ofList

/-- Blanks. -/
def blanks (count : Nat) : String := String.ofList (List.replicate count ' ')

/-- A text followed by blanks up to a width. -/
def padRight (width : Nat) (text : String) : String := text ++ blanks (width - text.length)

/-- A flag as the usage shows it. -/
def usagePart (flag : Flag) : String :=
  let name := flag.names.head?.getD ""
  if flag.takesValue then "[" ++ name ++ " " ++ flag.valueName ++ "]" else "[" ++ name ++ "]"

/-- The usage. -/
def usage : String :=
  let start := "usage: " ++ programName ++ " "
  let lines := wrapWords (lineWidth - start.length) "" (Flag.all.map usagePart)
  start ++ String.intercalate ("\n" ++ blanks start.length) lines ++ "\n"

/-- A flag as the help shows it. -/
def helpPart (flag : Flag) : String :=
  let names := flag.names.map fun name =>
    if flag.takesValue then name ++ " " ++ flag.valueName else name
  "  " ++ String.intercalate ", " names

/-- The lines of the help about a flag. -/
def flagLines (flag : Flag) : List String :=
  let part := helpPart flag
  let lines := wrapWords (lineWidth - descriptionColumn) "" (wordsOf flag.description)
  match lines with
  | [] => [part]
  | first :: rest =>
    let below := rest.map (blanks descriptionColumn ++ ·)
    if part.length + 2 ≤ descriptionColumn then (padRight descriptionColumn part ++ first) :: below
    else part :: (blanks descriptionColumn ++ first) :: below

/-- What the program is for. -/
def purpose : String :=
  "Build GraphQL persisted queries from graphql(...) calls in TypeScript sources"

/-- Some examples of use. -/
def examples : List String :=
  [ "Examples:",
    "  python cli.py --path src                         # Update the manifest only",
    "  python cli.py --path src --dry-run --print       # Preview persisted queries",
    "  python cli.py --path src --write --remove-source # Rewrite call sites, hash only",
    "  python cli.py --schema http:" ++
      "//localhost:4000/graphql --introspection-output schema.json",
    "        " ]

/-- The help. -/
def help : String :=
  usage ++ "\n" ++ purpose ++ "\n\noptions:\n" ++
    String.intercalate "\n" (Flag.all.flatMap flagLines) ++ "\n\n" ++
    String.intercalate "\n" examples ++ "\n"

end PersistedQueries.Command
