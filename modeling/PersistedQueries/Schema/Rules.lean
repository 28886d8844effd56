import PersistedQueries.Schema.Standard
import PersistedQueries.Schema.Violation
import PersistedQueries.Table

/-!
# Rules for schema documents

A document that parses may still define a name twice, refer to a type that is not defined, or
use a directive at the wrong place. Every rule looks at one node, at what the document defines,
and at the definitions in front of the node, so that the second of two definitions is the wrong
one.

- `Scope`: what a document defines, as the rules need it.
- `repeats`, `duplicates`: the names that come again, at each place or once each.
- `valueViolations`, `directiveViolations`, `selectionViolations`: what is wrong within
  definitions.
- `definitionViolations`: what is wrong with a definition that follows others.
- `violations`: what is wrong with a document, in its order.
-/

namespace PersistedQueries.Schema

open GraphQL (Value Argument Directive TypeRef Selection OperationKind InputValue
  FieldDefinition TypeBody TypeDefinition DirectiveDefinition SystemDefinition Definition Document
  VariableDefinition)

/-! ## Names that come again -/

/-- The names that are among those seen before or further in front, each time that they come. -/
def repeats {α : Type} [DecidableEq α] : (seen names : List α) → List α
  | _, [] => []
  | seen, name :: rest =>
    if name ∈ seen then name :: repeats seen rest else repeats (name :: seen) rest

/-- The names that come more than once, in the order in which they first come. -/
def duplicates (names : List String) : List String :=
  names.eraseDups.filter fun name => names.count name > 1

/-- A list repeats nothing when no name comes twice in it or was seen before. -/
theorem repeats_eq_nil_iff {α : Type} [DecidableEq α] {seen names : List α} :
    repeats seen names = [] ↔ names.Nodup ∧ ∀ name ∈ names, name ∉ seen := by
  induction names generalizing seen with
  | nil => simp [repeats]
  | cons name rest ih =>
    by_cases h : name ∈ seen
    · simp [repeats, h]
    · simp only [repeats, h, if_false, ih, List.nodup_cons, List.mem_cons, not_or, forall_eq_or_imp,
        not_false_eq_true, true_and]
      grind

/-! ## What a document defines -/

/-- A directive as its uses see it. -/
structure KnownDirective where
  /-- Where it may stand. -/
  locations : List String
  /-- It may stand at one place more than once. -/
  isRepeatable : Bool
  /-- The names of its arguments. -/
  arguments : List String
  /-- The arguments that have to be given, with their types. -/
  required : List (String × TypeRef)

/-- What a document defines. -/
structure Scope where
  /-- The types in the order of the document, with what they consist of. -/
  types : List (String × TypeBody)
  /-- The directives that the document defines, and the standard ones. -/
  directive? : String → Option KnownDirective

/-- The definition of a type. -/
def typeDefinition? : Definition → Option TypeDefinition
  | .system (.type definition) => some definition
  | _ => none

/-- The definition of a directive. -/
def directiveDefinition? : Definition → Option DirectiveDefinition
  | .system (.directive definition) => some definition
  | _ => none

/-- The definition of a type or an extension of one. -/
def typePart? : Definition → Option TypeDefinition
  | .system (.type part) | .system (.extendType part) => some part
  | _ => none

/-- The last pair of those with one name takes the place of the first one. -/
def lastOfEach {α : Type} (pairs : List (String × α)) : List (String × α) :=
  (Table.ofList pairs).entries

/-- A standard directive as its uses see it. -/
def KnownDirective.ofStandard (directive : DirectiveType) : KnownDirective where
  locations := directive.locations
  isRepeatable := directive.isRepeatable
  arguments := directive.arguments.map (·.name)
  required := (directive.arguments.filter (·.isRequired)).map fun a => (a.name, a.type)

/-- A directive of the document as its uses see it. -/
def KnownDirective.ofDefinition (definition : DirectiveDefinition) : KnownDirective where
  locations := definition.locations
  isRepeatable := definition.isRepeatable
  arguments := definition.arguments.map (·.name)
  required :=
    lastOfEach <|
      (definition.arguments.filter fun a =>
        a.defaultValue.isNone && a.type matches .nonNull _).map fun a => (a.name, a.type)

/-- What a document defines. -/
def Scope.ofDocument (document : Document) : Scope where
  types := (document.filterMap typeDefinition?).map fun type => (type.name, type.body)
  directive? name :=
    match (document.filterMap directiveDefinition?).reverse.find? (·.name = name) with
    | some definition => some (.ofDefinition definition)
    | none =>
      (Standard.directives.find? (·.name = name)).map .ofStandard

/-- The names of the types in the order of the document. -/
def Scope.typeNames (scope : Scope) : List String := scope.types.map Prod.fst

/-- What the type of a name consists of; the last definition counts. -/
def Scope.body? (scope : Scope) (name : String) : Option TypeBody :=
  (scope.types.reverse.find? (·.1 = name)).map Prod.snd

/-- The names of the standard types. -/
def standardNames : List String := Standard.types.map (·.name)

/-! ## Within definitions -/

mutual

/-- Input objects within a value that name a field twice. -/
def valueViolations : Value → List Violation
  | .list items => itemViolations items
  | .object fields => fieldValueViolations [] fields
  | _ => []

/-- The same for the items of a list. -/
def itemViolations : List Value → List Violation
  | [] => []
  | value :: rest => valueViolations value ++ itemViolations rest

/-- The same for the fields of an input object behind those seen before. -/
def fieldValueViolations (seen : List String) : List (String × Value) → List Violation
  | [] => []
  | (name, value) :: rest =>
    (if name ∈ seen then [.repeatedInputField name] else []) ++ valueViolations value ++
      fieldValueViolations (name :: seen) rest

end

/-- Arguments that come more than once. -/
def repeatedArguments (arguments : List Argument) : List Violation :=
  (duplicates (arguments.map (·.name))).map .repeatedArgument

/-- The values of arguments. -/
def argumentViolations (arguments : List Argument) : List Violation :=
  arguments.flatMap fun argument => valueViolations argument.value

/-- A reference to a type from a definition. References from the definitions of a schema may
name the standard types. -/
def typeViolations (scope : Scope) (isSystem : Bool) (name : String) : List Violation :=
  let names := scope.typeNames
  if name ∈ names then []
  else if isSystem then
    if name ∈ standardNames then [] else [.unknownType name (standardNames ++ names)]
  else [.unknownType name names]

/-- A directive at a place. -/
def directiveViolations (scope : Scope) (place : String) (directive : Directive) :
    List Violation :=
  let given := directive.arguments.map (·.name)
  let known := scope.directive? directive.name
  let atPlace := match known with
    | none => [.unknownDirective directive.name]
    | some known =>
      if place ∈ known.locations then [] else [.misplacedDirective directive.name place]
  let unknown := match known with
    | none => []
    | some known =>
      (given.filter (· ∉ known.arguments)).map fun name =>
        .unknownArgument name directive.name known.arguments
  let lacking := match known with
    | none => []
    | some known =>
      (known.required.filter fun (name, _) => name ∉ given).map fun (name, type) =>
        .lackingArgument directive.name name type
  atPlace ++ unknown ++ repeatedArguments directive.arguments ++
    argumentViolations directive.arguments ++ lacking

/-- The directives at a place. -/
def directivesViolations (scope : Scope) (place : String) (directives : List Directive) :
    List Violation :=
  directives.flatMap (directiveViolations scope place)

/-- The names of the directives among those given that may stand at a place only once. -/
def uniqueNames (scope : Scope) (directives : List Directive) : List String :=
  (directives.map (·.name)).filter fun name =>
    (scope.directive? name).any fun known => !known.isRepeatable

/-- Directives that stand at one place more than once, those in `before` counted in. -/
def crowdedDirectives (scope : Scope) (before directives : List Directive) : List Violation :=
  (repeats (uniqueNames scope before) (uniqueNames scope directives)).map .repeatedDirective

/-- A default value. -/
def defaultViolations (value : Option Value) : List Violation := value.elim [] valueViolations

/-- An argument of a definition, or a field of an input type. -/
def inputViolations (scope : Scope) (place : String) (input : InputValue) : List Violation :=
  crowdedDirectives scope [] input.directives ++ typeViolations scope true input.type.base ++
    defaultViolations input.defaultValue ++ directivesViolations scope place input.directives

/-- A field of an object or interface type. -/
def fieldViolations (scope : Scope) (field : FieldDefinition) : List Violation :=
  crowdedDirectives scope [] field.directives ++
    field.arguments.flatMap (inputViolations scope "ARGUMENT_DEFINITION") ++
    typeViolations scope true field.type.base ++
    directivesViolations scope "FIELD_DEFINITION" field.directives

/-! ## Executable definitions -/

mutual

/-- A selection with those below it. -/
def selectionViolations (scope : Scope) : Selection → List Violation
  | .field _ _ arguments directives selections =>
    crowdedDirectives scope [] directives ++ repeatedArguments arguments ++
      argumentViolations arguments ++ directivesViolations scope "FIELD" directives ++
      selectionsViolations scope selections
  | .spread _ directives =>
    crowdedDirectives scope [] directives ++
      directivesViolations scope "FRAGMENT_SPREAD" directives
  | .inline condition directives selections =>
    crowdedDirectives scope [] directives ++ condition.elim [] (typeViolations scope false) ++
      directivesViolations scope "INLINE_FRAGMENT" directives ++
      selectionsViolations scope selections

/-- The selections of a selection set. -/
def selectionsViolations (scope : Scope) : List Selection → List Violation
  | [] => []
  | selection :: rest =>
    selectionViolations scope selection ++ selectionsViolations scope rest

end

/-- A variable of an operation. -/
def variableViolations (scope : Scope) (variableDefinition : VariableDefinition) :
    List Violation :=
  crowdedDirectives scope [] variableDefinition.directives ++
    typeViolations scope false variableDefinition.type.base ++
    defaultViolations variableDefinition.defaultValue ++
    directivesViolations scope "VARIABLE_DEFINITION" variableDefinition.directives

/-- The place of the directives of an operation. -/
def operationPlace : OperationKind → String
  | .query => "QUERY"
  | .mutation => "MUTATION"
  | .subscription => "SUBSCRIPTION"

/-! ## Schema definitions -/

/-- The names of the fields of a type. -/
def bodyFieldNames : TypeBody → List String
  | .object _ fields | .interface _ fields => fields.map (·.name)
  | .input fields => fields.map (·.name)
  | _ => []

/-- The names of the values of an enumeration. -/
def bodyValueNames : TypeBody → List String
  | .enum values => values.map (·.name)
  | _ => []

/-- The fields with arguments of a type. -/
def bodyFields : TypeBody → List FieldDefinition
  | .object _ fields | .interface _ fields => fields
  | _ => []

/-- The definitions and extensions of one type. -/
def partsOf (name : String) (definitions : List Definition) : List TypeDefinition :=
  (definitions.filterMap typePart?).filter (·.name = name)

/-- Values, fields and arguments that a definition or extension of a type defines again. -/
def memberViolations (earlier : List Definition) (part : TypeDefinition) : List Violation :=
  let others := partsOf part.name earlier
  (repeats (others.flatMap (bodyValueNames ·.body)) (bodyValueNames part.body)).map
      (.secondEnumValue part.name) ++
    (repeats (others.flatMap (bodyFieldNames ·.body)) (bodyFieldNames part.body)).map
      (.secondField part.name) ++
    (bodyFields part.body).flatMap fun field =>
      (duplicates (field.arguments.map (·.name))).map
        (.secondArgumentDefinition (.field part.name field.name))

/-- The type that an extension extends. -/
def extensionViolations (scope : Scope) (part : TypeDefinition) : List Violation :=
  match scope.body? part.name with
  | none => [.extensionTarget part.name scope.typeNames]
  | some body =>
    if body.word = part.body.word then []
    else [.extensionKind (extensionWord part.body) part.name]

/-- The place of the directives of a type. -/
def typePlace : TypeBody → String
  | .scalar => "SCALAR"
  | .object .. => "OBJECT"
  | .interface .. => "INTERFACE"
  | .union _ => "UNION"
  | .enum _ => "ENUM"
  | .input _ => "INPUT_OBJECT"

/-- What stands within a definition or extension of a type, with the place of the directives
of input fields. -/
def partViolations (scope : Scope) (inputPlace : String) (part : TypeDefinition) :
    List Violation :=
  let directives := directivesViolations scope (typePlace part.body) part.directives
  match part.body with
  | .scalar => directives
  | .object interfaces fields | .interface interfaces fields =>
    interfaces.flatMap (typeViolations scope true) ++ directives ++
      fields.flatMap (fieldViolations scope)
  | .union members => directives ++ members.flatMap (typeViolations scope true)
  | .enum values =>
    directives ++ values.flatMap fun value =>
      crowdedDirectives scope [] value.directives ++
        directivesViolations scope "ENUM_VALUE" value.directives
  | .input fields => directives ++ fields.flatMap (inputViolations scope inputPlace)

/-- The directives of the schema definitions and extensions among definitions. -/
def schemaDirectives (definitions : List Definition) : List Directive :=
  definitions.flatMap fun
    | .system (.schema _ directives _) | .system (.extendSchema directives _) => directives
    | _ => []

/-- The kinds of operation to which the definitions give a type. -/
def rootKinds (definitions : List Definition) : List OperationKind :=
  definitions.flatMap fun
    | .system (.schema _ _ roots) | .system (.extendSchema _ roots) => roots.map (·.kind)
    | _ => []

/-- The directives of the definitions and extensions of one type. -/
def typeDirectives (name : String) (definitions : List Definition) : List Directive :=
  (partsOf name definitions).flatMap (·.directives)

/-- A definition that follows others. -/
def definitionViolations (scope : Scope) (earlier : List Definition) (definition : Definition) :
    List Violation :=
  match definition with
  | .operation operation =>
    crowdedDirectives scope [] operation.directives ++
      operation.parameters.flatMap (variableViolations scope) ++
      directivesViolations scope (operationPlace operation.kind) operation.directives ++
      selectionsViolations scope operation.selections
  | .fragment fragment =>
    crowdedDirectives scope [] fragment.directives ++
      typeViolations scope false fragment.condition ++
      directivesViolations scope "FRAGMENT_DEFINITION" fragment.directives ++
      selectionsViolations scope fragment.selections
  | .system (.schema _ directives roots) =>
    (if earlier.any (· matches .system (.schema ..)) then [.secondSchema] else []) ++
      (repeats (rootKinds earlier) (roots.map (·.kind))).map .secondRoot ++
      crowdedDirectives scope (schemaDirectives earlier) directives ++
      directivesViolations scope "SCHEMA" directives ++
      roots.flatMap fun root => typeViolations scope true root.type
  | .system (.extendSchema directives roots) =>
    (repeats (rootKinds earlier) (roots.map (·.kind))).map .secondRoot ++
      crowdedDirectives scope (schemaDirectives earlier) directives ++
      directivesViolations scope "SCHEMA" directives ++
      roots.flatMap fun root => typeViolations scope true root.type
  | .system (.type part) =>
    (if (earlier.filterMap typeDefinition?).any (·.name = part.name) then [.secondType part.name]
      else []) ++
      memberViolations earlier part ++
      crowdedDirectives scope (typeDirectives part.name earlier) part.directives ++
      partViolations scope "INPUT_FIELD_DEFINITION" part
  | .system (.extendType part) =>
    memberViolations earlier part ++
      crowdedDirectives scope (typeDirectives part.name earlier) part.directives ++
      extensionViolations scope part ++
      partViolations scope "ARGUMENT_DEFINITION" part
  | .system (.directive directive) =>
    (duplicates (directive.arguments.map (·.name))).map
        (.secondArgumentDefinition (.directive directive.name)) ++
      (if (earlier.filterMap directiveDefinition?).any (·.name = directive.name) then
        [.secondDirectiveDefinition directive.name] else []) ++
      directive.arguments.flatMap (inputViolations scope "ARGUMENT_DEFINITION")

/-- The violations of definitions that follow others. -/
def violationsFrom (scope : Scope) : (earlier rest : List Definition) → List Violation
  | _, [] => []
  | earlier, definition :: rest =>
    definitionViolations scope earlier definition ++
      violationsFrom scope (earlier ++ [definition]) rest

/-- What is wrong with a document, in its order. -/
def violations (document : Document) : List Violation :=
  violationsFrom (.ofDocument document) [] document

end PersistedQueries.Schema
