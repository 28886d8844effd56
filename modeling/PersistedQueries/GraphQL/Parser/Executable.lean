import PersistedQueries.GraphQL.Parser.Value

/-!
# Operations and fragments

- `selectionSet`: selections between braces, nested as deep as the levels allow.
- `selection`: a field, a fragment spread or an inline fragment.
- `operation`, `fragment`: the executable definitions, each behind an optional description.
-/

namespace PersistedQueries.GraphQL.Parser

/-- The name of a fragment, which is not `on`. -/
def fragmentName : Parser String := do
  match ← peek with
  | some token => if token.content? = some "on" then unexpected else name
  | none => name

/-- A field. The selection set below it is read by a parser. -/
def field (levels : Nat) (nested : Parser (List Selection)) : Parser Selection := do
  let first ← name
  let (label, name) ← do
    if ← skipPunct .colon then pure (some first, ← name) else pure (none, first)
  let given ← arguments false levels
  let notes ← directives false levels
  let below ← if ← peekPunct .braceL then nested else pure []
  return .field label name given notes below

/-- A fragment spread or an inline fragment. -/
def spreadOrInline (levels : Nat) (nested : Parser (List Selection)) : Parser Selection := do
  expectPunct .spread
  if ← skipKeyword "on" then
    let condition ← name
    let notes ← directives false levels
    return .inline (some condition) notes (← nested)
  else
    match ← peek with
    | some (.name _) => do
      let target ← fragmentName
      return .spread target (← directives false levels)
    | _ => do
      let notes ← directives false levels
      return .inline none notes (← nested)

/-- A part of a selection set. -/
def selection (levels : Nat) (nested : Parser (List Selection)) : Parser Selection := do
  if ← peekPunct .spread then spreadOrInline levels nested else field levels nested

/-- The selections between braces. That the levels are used up is found before the opening
brace. -/
def selectionSet : (levels : Nat) → Parser (List Selection)
  | 0 => fail .nestedTooDeeply
  | levels + 1 => oneOrMore .braceL (selection levels (selectionSet levels)) .braceR

/-- A variable of an operation. -/
def variableDefinition : Parser VariableDefinition := do
  let note ← description?
  expectPunct .dollar
  let key ← name
  expectPunct .colon
  let type ← typeRef levels
  let initial ← do
    if ← skipPunct .equals then pure (some (← value true levels)) else pure none
  let notes ← directives true levels
  return ⟨note, key, type, initial, notes⟩

/-- The kind of an operation. Any name is read before it is found to be no kind. -/
def operationKind : Parser OperationKind := fun stream =>
  match name stream with
  | .error fault => .error fault
  | .ok (word, behind) =>
    match OperationKind.ofWord? word with
    | some kind => .ok (kind, behind)
    | none => unexpected stream

/-- An operation. A selection set alone is a query. -/
def operation : Parser Operation := do
  if ← peekPunct .braceL then
    return ⟨none, .query, none, [], [], ← selectionSet levels⟩
  let note ← description?
  let kind ← operationKind
  let title ← do
    match ← peek with
    | some (.name _) => pure (some (← name))
    | _ => pure none
  let parameters ← optionalList .parenL variableDefinition .parenR
  let notes ← directives false levels
  let selections ← selectionSet levels
  return ⟨note, kind, title, parameters, notes, selections⟩

/-- A fragment. -/
def fragment : Parser Fragment := do
  let note ← description?
  expectKeyword "fragment"
  let title ← fragmentName
  expectKeyword "on"
  let condition ← name
  let notes ← directives false levels
  let selections ← selectionSet levels
  return ⟨note, title, condition, notes, selections⟩

end PersistedQueries.GraphQL.Parser
