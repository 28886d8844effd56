import PersistedQueries.GraphQL.Parser.System
import PersistedQueries.Schema.Validity

/-!
# Schemas from text

A text becomes a schema in three steps, each of which may find faults: it is parsed, the document
is checked against the rules, and the schema is built. Whether the schema is of use is a fourth
question, which is asked before the schema answers a query.

- `Fault`: what keeps a text from being a schema.
- `ofText`: the schema of a text.
- `validate`: the schema again, when nothing is wrong with it.
-/

namespace PersistedQueries.Schema

/-- What keeps a text from being a schema. -/
inductive Fault where
  /-- The text does not parse. -/
  | malformed (document : Text) (fault : GraphQL.Fault)
  /-- The document breaks rules. -/
  | unlawful (violations : List Violation)
  /-- The types do not fit together. -/
  | misfit (document : Text) (misfit : Misfit)
  /-- The schema is of no use. -/
  | invalid (flaws : List Flaw)

/-- The fault is shown at its place in the text. -/
def Fault.isPlaced : Fault → Bool
  | malformed .. => true
  | misfit _ fault => fault.isPlaced
  | _ => false

/-- The words for a fault. -/
def Fault.message : Fault → String
  | malformed document fault => fault.message document
  | unlawful violations => joinMessages (violations.map Violation.message)
  | misfit document fault => fault.message document
  | invalid flaws => joinMessages (flaws.map Flaw.message)

/-- The schema of a text. -/
def ofText (text : Text) : Except Fault Schema :=
  match GraphQL.parse text with
  | .error fault => .error (.malformed text fault)
  | .ok document =>
    match violations document with
    | [] => (build document).mapError (.misfit text)
    | found => .error (.unlawful found)

/-- The schema again, when nothing is wrong with it. -/
def validate (schema : Schema) : Except Fault Schema :=
  match flaws schema with
  | [] => .ok schema
  | found => .error (.invalid found)

end PersistedQueries.Schema
