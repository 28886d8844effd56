import PersistedQueries.NameSet
import PersistedQueries.Schema.Literal
import PersistedQueries.Schema.Rules

/-!
# Building a schema from a document

A document that keeps the rules defines a schema: each extension is merged into the type that
it extends, default values are read at their types, and the standard types that the document
refers to come in behind the first type that reaches them.

- `merged`: the types of a document with their extensions.
- `shapes`: the types as literals see them.
- `Builder`: the types of a document while they are built, and the steps for their parts.
- `reach`: the standard types that names reach.
- `build`: the schema of a document.
-/

namespace PersistedQueries.Schema

open GraphQL (Value TypeRef InputValue FieldDefinition TypeBody TypeDefinition
  DirectiveDefinition SystemDefinition Definition Document OperationKind RootType PlacedDirective)

/-! ## Extensions -/

/-- A type with what an extension adds to it. -/
def mergeBody : TypeBody → TypeBody → TypeBody
  | .object interfaces fields, .object moreInterfaces moreFields =>
    .object (interfaces ++ moreInterfaces) (fields ++ moreFields)
  | .interface interfaces fields, .interface moreInterfaces moreFields =>
    .interface (interfaces ++ moreInterfaces) (fields ++ moreFields)
  | .union members, .union more => .union (members ++ more)
  | .enum values, .enum more => .enum (values ++ more)
  | .input fields, .input more => .input (fields ++ more)
  | body, _ => body

/-- The extension of a type. -/
def extension? : Definition → Option TypeDefinition
  | .system (.extendType part) => some part
  | _ => none

/-- The types of a document in its order, with their extensions. -/
def merged (document : Document) : List TypeDefinition :=
  (document.filterMap typeDefinition?).map fun type =>
    let extensions := (document.filterMap extension?).filter (·.name = type.name)
    { type with body := extensions.foldl (fun body part => mergeBody body part.body) type.body }

/-! ## Standard directives on definitions -/

/-- The annotation of a name among those given. -/
def mark? (name : String) (annotations : List PlacedDirective) : Option PlacedDirective :=
  annotations.find? (·.name = name)

/-- The value of an argument and its offset; the last one counts. -/
def argument? (name : String) (mark : PlacedDirective) : Option (Value × Nat) :=
  let placed := mark.arguments.zip mark.valueOffsets
  (placed.reverse.find? fun (argument, _) => argument.name = name).map
    fun (argument, offset) => (argument.value, offset)

/-- A value that is no text where a text is asked for. -/
def wrongText (name : String) (value : Value) (offset : Nat) : Misfit :=
  .mark (.invalid name (String.ofList (GraphQL.printValue value))) offset

/-- Why a definition is deprecated. -/
def deprecation (annotations : List PlacedDirective) : Except Misfit (Option String) :=
  match mark? "deprecated" annotations with
  | none => .ok none
  | some mark =>
    match argument? "reason" mark with
    | none => .ok (some "No longer supported")
    | some (.string reason _, _) => .ok (some reason)
    | some (.null, _) => .ok none
    | some (other, offset) => .error (wrongText "reason" other offset)

/-- Where a scalar is specified. -/
def specifiedBy (annotations : List PlacedDirective) : Except Misfit (Option String) :=
  match mark? "specifiedBy" annotations with
  | none => .ok none
  | some mark =>
    let type : TypeRef := .nonNull (.named "String")
    match argument? "url" mark with
    | none => .error (.mark (.lacking "url" type) mark.offset)
    | some (.string address _, _) => .ok (some address)
    | some (.null, offset) => .error (.mark (.null "url" type) offset)
    | some (other, offset) => .error (wrongText "url" other offset)

/-- Exactly one field of an input type has to be given. -/
def isOneOf (annotations : List PlacedDirective) : Bool :=
  (mark? "oneOf" annotations).isSome

/-! ## Kinds of named types -/

/-- Values of the type may be given as arguments. -/
def isInputBody : TypeBody → Bool
  | .scalar | .enum _ | .input _ => true
  | _ => false

/-- Values of the type may be the values of fields. -/
def isOutputBody : TypeBody → Bool
  | .input _ => false
  | _ => true

/-- The types of a document while they are built. -/
structure Builder where
  /-- The types with their extensions. -/
  sources : List TypeDefinition

/-- The definition of a name in the document. A standard type hides one of the same name. -/
def Builder.source? (builder : Builder) (name : String) : Option TypeDefinition :=
  if name ∈ standardNames then none else builder.sources.find? (·.name = name)

/-- A test of the type of a name, in one form for standard types and one for the document's. -/
def Builder.test (builder : Builder) (standard : Body → Bool) (own : TypeBody → Bool)
    (name : String) : Bool :=
  match Standard.type? name with
  | some type => standard type.body
  | none => (builder.source? name).any fun source => own source.body

/-- What a standard type is for a literal. -/
def standardShape (type : NamedType) : Shape :=
  match type.name, type.body with
  | "Int", _ => .int
  | "Float", _ => .float
  | "String", _ => .string
  | "Boolean", _ => .boolean
  | "ID", _ => .id
  | _, .enum values => .enum (values.map (·.name))
  | _, _ => .output

/-- What a type is for a literal. -/
def Builder.shape (builder : Builder) (name : String) : Shape :=
  match Standard.type? name with
  | some type => standardShape type
  | none =>
    match builder.source? name with
    | none => .output
    | some source =>
      match source.body with
      | .scalar => .any
      | .enum values => .enum (values.map (·.name))
      | .input _ => .input (isOneOf source.annotations)
      | _ => .output

/-! ## Parts of types -/

/-- Build an argument or an input field. `fault` is the misfit of a type that is no input. -/
def Builder.input (builder : Builder) (fieldsOf : String → Except Misfit (List Input))
    (fault : Misfit) (source : InputValue) : Except Misfit Input := do
  let value ← match source.defaultValue with
    | none => pure none
    | some literal => read ⟨builder.shape, fieldsOf⟩ literal source.type
  let deprecation ← deprecation source.annotations
  unless builder.test (·.isInput) isInputBody source.type.base do throw fault
  return {
    name := source.name
    description := source.description.map (·.content)
    type := source.type
    default := value
    deprecation }

/-- The fields of an input type. The fuel bounds how many input types a default value may go
through. -/
def Builder.inputFields (builder : Builder) : (fuel : Nat) → String → Except Misfit (List Input)
  | 0, _ => .error .endlessDefault
  | fuel + 1, name =>
    match builder.source? name with
    | some ⟨_, _, _, .input fields⟩ =>
      (fields.mapM (builder.input (builder.inputFields fuel) .inputFieldType)).mapError
        (.fieldsOf name)
    | _ => .ok []

/-- The fields of an input type. A default value that goes through more input types than the
document has goes through one of them twice, and would do so for ever. -/
def Builder.fieldsOf (builder : Builder) (name : String) : Except Misfit (List Input) :=
  builder.inputFields (builder.sources.length + 1) name

/-- Build an argument. -/
def Builder.argument (builder : Builder) (source : InputValue) : Except Misfit Input :=
  builder.input builder.fieldsOf .argumentType source

/-- Build a field. -/
def Builder.field (builder : Builder) (source : FieldDefinition) : Except Misfit Field := do
  let arguments ← source.arguments.mapM builder.argument
  let deprecation ← deprecation source.annotations
  unless builder.test (·.isOutput) isOutputBody source.type.base do throw .fieldType
  return {
    name := source.name
    description := source.description.map (·.content)
    arguments
    type := source.type
    deprecation }

/-- Build the fields of an object or interface type, whose interfaces have to be interfaces. -/
def Builder.composite (builder : Builder) (name : String) (interfaces : List String)
    (fields : List FieldDefinition) : Except Misfit (List Field) := do
  let isInterface :=
    builder.test (fun | .interface .. => true | _ => false) (fun | .interface .. => true | _ => false)
  unless interfaces.all isInterface do throw (.interfacesOf name)
  (fields.mapM builder.field).mapError (.fieldsOf name)

/-- Build a value of an enumeration. -/
def enumValue (source : GraphQL.EnumValue) : Except Misfit EnumValue := do
  let deprecation ← deprecation source.annotations
  return ⟨source.name, source.description.map (·.content), deprecation⟩

/-- Build a type that refers to no other one: a standard type, which takes the place of one of the
same name, a scalar or an enumeration. -/
def leafType? (source : TypeDefinition) : Except Misfit (Option NamedType) :=
  let own (body : Body) : NamedType := ⟨source.name, source.description.map (·.content), body⟩
  match Standard.type? source.name with
  | some type => .ok (some type)
  | none =>
    match source.body with
    | .scalar => return some (own (.scalar (← specifiedBy source.annotations)))
    | .enum values => return some (own (.enum (← values.mapM enumValue)))
    | _ => return none

/-- Build what a type consists of that refers to others. -/
def Builder.body (builder : Builder) (source : TypeDefinition) : Except Misfit Body := do
  match source.body with
  | .object interfaces fields =>
    return .object interfaces (← builder.composite source.name interfaces fields)
  | .interface interfaces fields =>
    return .interface interfaces (← builder.composite source.name interfaces fields)
  | .union members =>
    let isObject :=
      builder.test (fun | .object .. => true | _ => false) (fun | .object .. => true | _ => false)
    unless members.all isObject do throw (.membersOf source.name)
    return .union members
  | .input _ => return .input (← builder.fieldsOf source.name) (isOneOf source.annotations)
  | .scalar => return .scalar none
  | .enum _ => return .enum []

/-- Build a type of the document, unless it is built already. -/
def Builder.type (builder : Builder) (source : TypeDefinition) :
    Option NamedType → Except Misfit NamedType
  | some type => .ok type
  | none => do
    return ⟨source.name, source.description.map (·.content), ← builder.body source⟩

/-- Build a directive. -/
def Builder.directive (builder : Builder) (source : DirectiveDefinition) :
    Except Misfit DirectiveType := do
  return {
    name := source.name
    description := source.description.map (·.content)
    arguments := ← source.arguments.mapM builder.argument
    isRepeatable := source.isRepeatable
    locations := source.locations }

/-! ## The order of the types -/

/-- The types that a type refers to, in the order in which they are met. -/
def Body.references : Body → List String
  | .object interfaces fields | .interface interfaces fields =>
    interfaces ++ fields.flatMap fun field =>
      field.type.base :: field.arguments.map (·.type.base)
  | .union members => members
  | .input fields _ => fields.map (·.type.base)
  | _ => []

theorem mem_standardNames {name : String} {type : NamedType}
    (h : Standard.type? name = some type) : name ∈ standardNames := by
  have hname := List.find?_some h
  simp only [decide_eq_true_eq] at hname
  exact hname ▸ List.mem_map_of_mem (List.mem_of_find?_eq_some h)

/-- The standard types that the names of a stack reach and that are not listed yet, the topmost
first, each followed by those that it refers to; and the names listed then. -/
def reach (listed : NameSet) : List String → List NamedType × NameSet
  | [] => ([], listed)
  | name :: stack =>
    if _hlisted : name ∈ listed then reach listed stack
    else
      match _htype : Standard.type? name with
      | none => reach listed stack
      | some type =>
        let (types, listed) := reach (listed.insert name) (type.body.references ++ stack)
        (type :: types, listed)
  termination_by stack => ((listed.lacking standardNames).length, stack.length)
  decreasing_by
  · exact Prod.Lex.right _ (by simp)
  · exact Prod.Lex.right _ (by simp)
  · exact Prod.Lex.left _ _
      (NameSet.length_lacking_insert (mem_standardNames _htype) _hlisted)

/-- The types of the document, each followed by the standard types that it is the first to
reach. -/
def arrange (listed : NameSet) : List NamedType → List NamedType × NameSet
  | [] => ([], listed)
  | type :: rest =>
    let (reached, listed) := reach listed type.body.references
    let (types, listed) := arrange listed rest
    (type :: reached ++ types, listed)

/-! ## Schemas -/

/-- The types at which the operations start, as schema definitions and extensions give them. -/
def givenRoots (document : Document) : List RootType :=
  (document.flatMap fun
    | .system (.schema _ _ roots) => roots
    | _ => []) ++
  document.flatMap fun
    | .system (.extendSchema _ roots) => roots
    | _ => []

/-- The type that has a kind of operation in its name. -/
def usualRoot : OperationKind → String
  | .query => "Query"
  | .mutation => "Mutation"
  | .subscription => "Subscription"

/-- The type at which the operations of a kind start. Without a schema definition the usual
names count. -/
def rootOf (document : Document) (kind : OperationKind) : Option String :=
  let given := ((givenRoots document).reverse.find? (·.kind = kind)).map (·.type)
  if document.any (· matches .system (.schema ..)) then given
  else if usualRoot kind ∈ (document.filterMap typeDefinition?).map (·.name) then
    some (usualRoot kind)
  else given

/-- What the schema is for. -/
def schemaDescription (document : Document) : Option String :=
  document.findSome? fun
    | .system (.schema description _ _) => description.map (·.content)
    | _ => none

/-- The kinds of operation. -/
def operationKinds : List OperationKind := [.query, .mutation, .subscription]

/-- The schema of a document that keeps the rules. The types that refer to no others are built
first, the directives next, and then the types that refer to others, each in the order of the
document. -/
def build (document : Document) : Except Misfit Schema := do
  let builder : Builder := ⟨merged document⟩
  let leaves ← builder.sources.mapM leafType?
  let own ← (document.filterMap directiveDefinition?).mapM builder.directive
  let types ← (builder.sources.zip leaves).mapM fun (source, leaf) => builder.type source leaf
  let directives :=
    own ++ Standard.directives.filter fun standard => standard.name ∉ own.map (·.name)
  let root := rootOf document
  let (types, listed) := arrange (.ofList (types.map (·.name))) types
  let (more, _) :=
    reach listed <|
      operationKinds.filterMap root ++
        directives.flatMap (fun directive => directive.arguments.map (·.type.base)) ++
        ["__Schema"]
  return ⟨schemaDescription document, root, types ++ more, directives⟩

end PersistedQueries.Schema
