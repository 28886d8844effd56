import PersistedQueries.CallSite.Ignored
import PersistedQueries.CallSite.Shape
import PersistedQueries.NameSet

/-!
# Call sites

- `CallSite`: one definition found in a source file: its name, its document text, its span,
  the names it depends on, and the file it stands in.
- `CallSite.extract`: the call sites of a source text, in source order. A call that begins
  within a comment or a literal is passed over, and the search goes on behind it.
-/

namespace PersistedQueries

/-- A definition found in a source file. -/
structure CallSite where
  /-- The name that the call is assigned to. -/
  name : String
  /-- The interior of the template literal. -/
  source : String
  /-- The part of the source file that the call takes, from its name on. -/
  span : Span
  /-- The names in the list of dependencies. -/
  dependsOn : NameSet
  /-- The file that the call stands in. -/
  file : Option String
  deriving DecidableEq

namespace CallSite

/-- The names in the interior of a list of dependencies. -/
def dependencyNames (interior : Option Text) : NameSet :=
  match interior with
  | none => .empty
  | some interior =>
    let parts := (Text.splitOn ',' interior).map Text.strip
    .ofList ((parts.filter (!·.isEmpty)).map String.ofList)

/-- The call site of a call at a span. -/
def ofShape (file : Option String) (span : Span) (shape : CallShape) : CallSite where
  name := String.ofList shape.name
  source := String.ofList shape.source
  span := span
  dependsOn := dependencyNames shape.dependencies
  file := file

/-- The word without which a source text has no call site. -/
def tagName : Text := "graphql".toList

/-- The call sites of a source text, in source order. -/
def extract (code : Text) (file : Option String) : List CallSite :=
  if Text.occursIn tagName code then
    let ignored := ignoredRanges code
    ((CallShape.all code).filter fun (span, _) => !inRanges span.start ignored).map
      fun (span, shape) => ofShape file span shape
  else []

end CallSite

end PersistedQueries
