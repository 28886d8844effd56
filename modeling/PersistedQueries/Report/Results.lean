import PersistedQueries.Report.Output

/-!
# Results of a run

The results are a list of files with their queries. A reader at a terminal sees one paragraph for
each file; another program gets the list as JSON.

- `Results.paragraph`: the lines about one file. A long query is cut.
- `Results.report`: the results in the form that is asked for.
-/

namespace PersistedQueries.Results

/-- The greatest number of characters of a query that are shown. -/
def shownLength : Nat := 120

/-- The characters of a text that are shown. -/
def shorten (text : String) : String :=
  let characters := text.toList
  if characters.length > shownLength then
    String.ofList (characters.take shownLength) ++ "..."
  else text

/-- The query text of a result. Where it is missing or empty nothing is shown. -/
def shownQuery (query : Json) : Except Json.Mismatch String :=
  if query.isTruthy then
    match query with
    | .string text => .ok (shorten text)
    | .array items =>
      if items.length > shownLength then
        .ok ((Json.array (items.take shownLength)).display ++ "...")
      else .ok query.display
    | .object fields =>
      if fields.length > shownLength then .error (.noKey "slice") else .ok query.display
    | value => .error (.noLength value.kindName)
  else .ok ""

/-- The lines about a query. -/
def queryLines (number : Nat) (query : Json) : Except Json.Mismatch String := do
  let field (name : String) : Except Json.Mismatch String := (query.getD name .null).map Json.plain
  let name ← field "name"
  let line ← field "line"
  let hash ← field "hash"
  let text ← shownQuery (← query.getD "query" .null)
  return "  " ++ toString number ++ ". Name: " ++ name ++ " line " ++ line ++ "\n" ++
    "     Hash: " ++ hash ++ "\n" ++ "     Query: " ++ text ++ "\n"

/-- The lines about some queries, numbered from a number on. -/
def linesFrom : Nat → List Json → Except Json.Mismatch String
  | _, [] => .ok ""
  | number, query :: queries => do
    let first ← queryLines number query
    let rest ← linesFrom (number + 1) queries
    return first ++ rest

/-- The lines about one file. -/
def paragraph (result : Json) : Except Json.Mismatch String := do
  let file ← result.get "file"
  let queries ← (← result.getD "queries" (.array [])).elements
  let lines ← linesFrom 1 queries
  return "\n=== File: " ++ file.plain ++ " ===\n" ++ lines ++ "\n"

/-- The results, readable for people or as JSON. -/
def report (results : List Json) (readable : Bool) : Except Json.Mismatch Output :=
  if readable then (results.mapM paragraph).map fun paragraphs => ⟨String.join paragraphs, ""⟩
  else .ok (.line (String.ofList (Json.write Json.indented (.array results))))

end PersistedQueries.Results
