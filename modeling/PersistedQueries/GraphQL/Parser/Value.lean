import PersistedQueries.GraphQL.Parser.Basic

/-!
# Values, types and directives

- `value`: a value; a constant one mentions no variable.
- `typeRef`: a reference to a type.
- `argument`, `arguments`, `directive`, `directives`: what stands behind a name.
- `annotations`: directives with their places.
- `description?`: the string in front of a definition.

Each takes the number of levels that brackets may still nest.
-/

namespace PersistedQueries.GraphQL.Parser

/-- A value that stands for itself, by the word it is written as. -/
def wordValue (word : String) : Value :=
  if word = "true" then .boolean true
  else if word = "false" then .boolean false
  else if word = "null" then .null
  else .enum word

/-- A variable in a value; a constant value must not mention one. -/
def variableValue (isConst : Bool) : Parser Value := fun stream =>
  if isConst then
    match (do expectPunct .dollar; peek) stream with
    | .error fault => .error fault
    | .ok (some (.name word), _) => .error ⟨.variableInConstant word, offset stream⟩
    | .ok _ => .error ⟨.unexpected (describe stream), offset stream⟩
  else (do expectPunct .dollar; return Value.variable (← name)) stream

/-- A field of an input object. -/
def objectField (item : Parser Value) : Parser (String × Value) := do
  let key ← name
  expectPunct .colon
  let value ← item
  return (key, value)

/-- A value whose items are read by a parser, or which may not nest any more. -/
def valueWith (isConst : Bool) (item : Option (Parser Value)) : Parser Value := do
  match ← peek with
  | some (.punct .bracketL) =>
    match item with
    | none => fail .nestedTooDeeply
    | some item => do
      expectPunct .bracketL
      return .list (← zeroOrMore .bracketR item)
  | some (.punct .braceL) =>
    match item with
    | none => fail .nestedTooDeeply
    | some item => do
      expectPunct .braceL
      return .object (← zeroOrMore .braceR (objectField item))
  | some (.int text) => advance; return .int text
  | some (.float text) => advance; return .float text
  | some (.string content) => advance; return .string content false
  | some (.block content) => advance; return .string content true
  | some (.name word) => advance; return wordValue word
  | some (.punct .dollar) => variableValue isConst
  | _ => unexpected

/-- A value. -/
def value (isConst : Bool) : (levels : Nat) → Parser Value
  | 0 => valueWith isConst none
  | levels + 1 => valueWith isConst (some (value isConst levels))

/-- A type whose item type is read by a parser. -/
def typeWith (item : Parser TypeRef) : Parser TypeRef := do
  let type ← do
    if ← skipPunct .bracketL then
      let inner ← item
      expectPunct .bracketR
      pure (TypeRef.list inner)
    else
      pure (TypeRef.named (← name))
  if ← skipPunct .bang then return .nonNull type else return type

/-- A reference to a type. That the levels are used up is found behind the opening bracket. -/
def typeRef : (levels : Nat) → Parser TypeRef
  | 0 => typeWith (fail .nestedTooDeeply)
  | levels + 1 => typeWith (typeRef levels)

/-- A named value. -/
def argument (isConst : Bool) (levels : Nat) : Parser Argument := do
  let key ← name
  expectPunct .colon
  let content ← value isConst levels
  return ⟨key, content⟩

/-- The arguments of a field or a directive. -/
def arguments (isConst : Bool) (levels : Nat) : Parser (List Argument) :=
  optionalList .parenL (argument isConst levels) .parenR

/-- A directive. -/
def directive (isConst : Bool) (levels : Nat) : Parser Directive := do
  expectPunct .at
  let key ← name
  let given ← arguments isConst levels
  return ⟨key, given⟩

/-- Items as long as each begins with the mark of a directive. The fuel bounds their number. -/
def markedItems {α : Type} (item : Parser α) : (fuel : Nat) → Parser (List α)
  | 0 => return []
  | fuel + 1 => do
    if ← peekPunct .at then
      let first ← item
      let more ← markedItems item fuel
      return first :: more
    else return []

/-- The directives behind a name. -/
def directives (isConst : Bool) (levels : Nat) : Parser (List Directive) := fun stream =>
  markedItems (directive isConst levels) stream.length stream

/-- A named constant value, and the offset of the value. -/
def placedArgument (levels : Nat) : Parser (Argument × Nat) := do
  let key ← name
  expectPunct .colon
  let place ← position
  let content ← value true levels
  return (⟨key, content⟩, place)

/-- A directive within a schema definition. -/
def placedDirective (levels : Nat) : Parser PlacedDirective := do
  let place ← position
  expectPunct .at
  let key ← name
  let given ← optionalList .parenL (placedArgument levels) .parenR
  return ⟨⟨key, given.map Prod.fst⟩, place, given.map Prod.snd⟩

/-- The directives behind a name within a schema definition. -/
def annotations (levels : Nat) : Parser (List PlacedDirective) := fun stream =>
  markedItems (placedDirective levels) stream.length stream

/-- The string in front of a definition. -/
def description? : Parser (Option Description) := do
  match ← peek with
  | some (.string content) => advance; return some ⟨content, false⟩
  | some (.block content) => advance; return some ⟨content, true⟩
  | _ => return none

end PersistedQueries.GraphQL.Parser
