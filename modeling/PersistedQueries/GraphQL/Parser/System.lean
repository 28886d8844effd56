import PersistedQueries.GraphQL.Parser.Executable

/-!
# Definitions of a schema and documents

- `typeDefinition`, `directiveDefinition`, `schemaDefinition` and their extensions.
- `definition`: any definition, told apart by the word behind its description.
- `parse`: the document of a text, which has at least one definition.
-/

namespace PersistedQueries.GraphQL

namespace Parser

/-- An argument of a definition, or a field of an input type. -/
def inputValue : Parser InputValue := do
  let note ← description?
  let key ← name
  expectPunct .colon
  let type ← typeRef levels
  let initial ← do
    if ← skipPunct .equals then pure (some (← value true levels)) else pure none
  let notes ← annotations levels
  return ⟨note, key, type, initial, notes⟩

/-- A field of an object or interface type. -/
def fieldDefinition : Parser FieldDefinition := do
  let note ← description?
  let key ← name
  let inputs ← optionalList .parenL inputValue .parenR
  expectPunct .colon
  let type ← typeRef levels
  let notes ← annotations levels
  return ⟨note, key, inputs, type, notes⟩

/-- A value of an enumeration. -/
def enumValue : Parser EnumValue := do
  let note ← description?
  match ← peek with
  | some token =>
    if token.content? ∈ [some "true", some "false", some "null"] then
      fail (.reservedEnumValue token.describe)
  | none => pure ()
  let key ← name
  let notes ← annotations levels
  return ⟨note, key, notes⟩

/-- The type of a kind of operation. -/
def rootType : Parser RootType := do
  let kind ← operationKind
  expectPunct .colon
  let type ← name
  return ⟨kind, type⟩

/-- The interfaces of a type. -/
def interfaces : Parser (List String) := do
  if ← skipKeyword "implements" then separated .amp name else return []

/-- The fields of an object or interface type. -/
def fieldDefinitions : Parser (List FieldDefinition) := optionalList .braceL fieldDefinition .braceR

/-- The members of a union. -/
def members : Parser (List String) := do
  if ← skipPunct .equals then separated .pipe name else return []

/-- The name, the annotations and the body of a type, behind the word that introduces it. -/
def typeOfWord (note : Option Description) (word : String) : Parser TypeDefinition := do
  let key ← name
  match word with
  | "type" => do
    let above ← interfaces
    let notes ← annotations levels
    return ⟨note, key, notes, .object above (← fieldDefinitions)⟩
  | "interface" => do
    let above ← interfaces
    let notes ← annotations levels
    return ⟨note, key, notes, .interface above (← fieldDefinitions)⟩
  | "union" => do
    let notes ← annotations levels
    return ⟨note, key, notes, .union (← members)⟩
  | "enum" => do
    let notes ← annotations levels
    return ⟨note, key, notes, .enum (← optionalList .braceL enumValue .braceR)⟩
  | "input" => do
    let notes ← annotations levels
    return ⟨note, key, notes, .input (← optionalList .braceL inputValue .braceR)⟩
  | _ => do
    let notes ← annotations levels
    return ⟨note, key, notes, .scalar⟩

/-- The definition of a type. -/
def typeDefinition (word : String) : Parser TypeDefinition := do
  let note ← description?
  expectKeyword word
  typeOfWord note word

/-- The addition adds something. -/
def isAddition (addition : TypeDefinition) : Bool :=
  !addition.annotations.isEmpty ||
    match addition.body with
    | .scalar => false
    | .object above fields => !above.isEmpty || !fields.isEmpty
    | .interface above fields => !above.isEmpty || !fields.isEmpty
    | .union members => !members.isEmpty
    | .enum values => !values.isEmpty
    | .input fields => !fields.isEmpty

/-- The definition of a schema. -/
def schemaDefinition : Parser SystemDefinition := do
  let note ← description?
  expectKeyword "schema"
  let notes ← directives true levels
  let roots ← oneOrMore .braceL rootType .braceR
  return .schema note notes roots

/-- A place where a directive may stand. -/
def directiveLocation : Parser String := fun stream =>
  match name stream with
  | .error fault => .error fault
  | .ok (word, stream') =>
    if word ∈ directiveLocations then .ok (word, stream') else unexpected stream

/-- The definition of a directive. -/
def directiveDefinition : Parser DirectiveDefinition := do
  let note ← description?
  expectKeyword "directive"
  expectPunct .at
  let key ← name
  let inputs ← optionalList .parenL inputValue .parenR
  let isRepeatable ← skipKeyword "repeatable"
  expectKeyword "on"
  let locations ← separated .pipe directiveLocation
  return ⟨note, key, inputs, isRepeatable, locations⟩

/-- The words that introduce a type. -/
def typeWords : List String := ["scalar", "type", "interface", "union", "enum", "input"]

/-- The word of a token that is a name. -/
def wordOf? : Option Token → Option String
  | some (.name word) => some word
  | _ => none

/-- The extension of a schema or a type. -/
def extension : Parser SystemDefinition := do
  let ahead ← lookahead
  match wordOf? (token? ahead) with
  | some word =>
    if word = "schema" then do
      expectKeyword "extend"
      expectKeyword "schema"
      let notes ← directives true levels
      let roots ← optionalList .braceL rootType .braceR
      if notes.isEmpty && roots.isEmpty then unexpected
      return .extendSchema notes roots
    else if word ∈ typeWords then do
      expectKeyword "extend"
      expectKeyword word
      let addition ← typeOfWord none word
      if isAddition addition then return .extendType addition else unexpected
    else fun _ => unexpected ahead
  | none => fun _ => unexpected ahead

/-- A definition. -/
def definition : Parser Definition := do
  if ← peekPunct .braceL then return .operation (← operation)
  let described : Bool :=
    match ← peek with
    | some (.string _) => true
    | some (.block _) => true
    | _ => false
  let front ← if described then lookahead else get
  if described && token? front = some (.punct .braceL) then fail .describedShorthand
  match wordOf? (token? front) with
  | some word =>
    if word = "schema" then return .system (← schemaDefinition)
    else if word ∈ typeWords then return .system (.type (← typeDefinition word))
    else if word = "directive" then return .system (.directive (← directiveDefinition))
    else if (OperationKind.ofWord? word).isSome then return .operation (← operation)
    else if word = "fragment" then return .fragment (← fragment)
    else if described then fail .describedExtension
    else if word = "extend" then return .system (← extension)
    else fun _ => unexpected front
  | none => fun _ => unexpected front

/-- Definitions up to the end of the text. The fuel bounds their number. -/
def definitionsFuel : (fuel : Nat) → Parser Document
  | 0 => return []
  | fuel + 1 => do
    match ← peek with
    | none => return []
    | some _ =>
      let first ← definition
      let more ← definitionsFuel fuel
      return first :: more

/-- The document of a stream. -/
def document : Parser Document := do
  let first ← definition
  let more ← fun stream => definitionsFuel stream.length stream
  return first :: more

end Parser

/-- The document of a text. -/
def parse (text : Text) : Except Fault Document := do
  let (_, stream) ← Parser.settle (tokenize text)
  let (document, _) ← Parser.document stream
  return document

end PersistedQueries.GraphQL
