import PersistedQueries.Json.Access

/-!
# What is printed

Everything that the library tells its user goes to one of two streams. `Output` is what has been
printed so far; the lines are named for what they say.

- `Output`: the texts of the two streams.
- `Output.warning`, `error`, `fileError`: lines about failures.
- `Output.persisted`, `manifestWritten`, `published`, `unchanged`: lines about progress.
-/

namespace PersistedQueries

/-- The texts that have been printed. -/
structure Output where
  /-- The text for the reader of the results. -/
  out : String := ""
  /-- The text about failures. -/
  err : String := ""
  deriving DecidableEq, Repr, Inhabited

namespace Output

/-- Nothing printed. -/
def none : Output := ⟨"", ""⟩

instance : Append Output := ⟨fun first second => ⟨first.out ++ second.out, first.err ++ second.err⟩⟩

/-- A line for the reader of the results. -/
def line (text : String) : Output := ⟨text ++ "\n", ""⟩

/-- A line about a failure. -/
def errorLine (text : String) : Output := ⟨"", text ++ "\n"⟩

/-- Print only when asked to. -/
def onlyIf (condition : Bool) (output : Output) : Output := if condition then output else .none

/-! ## Failures -/

/-- A failure that ends the work. -/
def error (message : String) : Output := errorLine ("Error: " ++ message)

/-- A failure that does not end the work. -/
def warning (message : String) : Output := errorLine ("Warning: " ++ message)

/-- A failure of one file. -/
def fileError (file message : String) : Output := errorLine (file ++ ": error: " ++ message)

/-! ## Progress -/

/-- A definition has been persisted. -/
def persisted (name hash : String) : Output := line s!"Persisted {name} as {hash}"

/-- The manifest has been written. -/
def manifestWritten (path : String) (count : Nat) : Output :=
  line s!"Wrote {count} persisted queries to {path}"

/-- The artifacts of a schema have been written. -/
def published (source hash : String) : Output :=
  line ("Published introspection for " ++ source ++ " (" ++ String.ofList (hash.toList.take 12) ++ ")")

/-- A schema has not changed. -/
def unchanged (source : String) : Output :=
  line s!"Introspection for {source} unchanged, skipping writes"

end Output

end PersistedQueries
