import PersistedQueries.Report.Output

/-!
# Progress of a run

The lines that a run over a directory prints on its way.

- `brokenStatements`: what is wrong with the file for variables.
- `banner`, `scanStart`, `processing`: before the files, and before each of them.
- `written`, `dryRun`: what happens with the results.
- `summary`, `noFiles`, `failures`: what came of it.
- `disabled`: nothing happens.
-/

namespace PersistedQueries.Progress

/-- Several lines. -/
def lines (texts : List String) : Output := (texts.map Output.line).foldl (· ++ ·) .none

/-- A line of equals signs. -/
def rule (width : Nat) : String := String.ofList (List.replicate width '=')

/-- A line about the program. -/
def banner : Output := lines [rule 60, "🔐 GraphQL Persisted Query Builder", rule 60, ""]

/-- Statements of the file for variables that cannot be read, by their lines. -/
def brokenStatements (numbers : List Nat) : Output :=
  (numbers.map fun number =>
    Output.errorLine s!"python-dotenv could not parse statement starting at line {number}").foldl
      (· ++ ·) .none

/-- The files of a path are going to be looked at. -/
def scanStart (path : String) : Output :=
  lines ["", s!"🔍 Persisting GraphQL operations from: {path}"]

/-- A file is going to be looked at. -/
def processing (file : String) : Output := .line s!"   Processing: {file}"

/-- A transformed file has been written. -/
def written (file : String) : Output := .line s!"   Rewrote: {file}"

/-- Nothing is going to be written. -/
def dryRun : Output := lines ["", "🔍 DRY RUN - No files will be rewritten", rule 40]

/-- The numbers of a run. -/
def summary (files queries : Nat) (newEntries : Int) (manifest : String) : Output :=
  lines ["", "📊 Persisted Query Summary:", s!"   📁 Files with queries: {files}",
    s!"   🔗 Persisted queries: {queries}", s!"   ➕ New manifest entries: {newEntries}",
    s!"   📄 Manifest: {manifest}"]

/-- No file has call sites. -/
def noFiles : Output := .line "No files with graphql(...) calls found."

/-- The number of files that failed. -/
def failures (count : Nat) : Output :=
  lines ["", if count > 0 then s!"⚠️  Files failed: {count}" else "✅ All files processed!"]

/-- The program is switched off. -/
def disabled : Output :=
  .line "Persisted queries are disabled (GQL_PERSISTED_ENABLED=false); nothing to do."

end PersistedQueries.Progress
