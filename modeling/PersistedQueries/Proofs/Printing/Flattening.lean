import PersistedQueries.Proofs.Printing.Strings
import PersistedQueries.Proofs.Syntax.Documents

/-!
# Documents as they are read back

A canonical text is read back as the document that it was printed from, but for white space in
strings and for places.

- `Value.flat`, `Directive.flat`, `Selection.flat`, `Definition.flat` and the like: each part of a
  document with its strings as they are read back, and with its places forgotten.
- `tokens_flat_value` to `tokens_flat_definition`: the tokens are those of the part, with flat strings.
- `fits_flat_value` to `fits_flat_definition`: a part that can be read is one that can be read still.
-/

namespace PersistedQueries.GraphQL

open PersistedQueries.GraphQL.Parser

variable {tokens : List Token} {isConst : Bool} {levels : Nat}

/-- Parts that are changed one by one have the changed tokens, one behind the other. -/
theorem flatMap_tokens_map {α : Type} {flat : α → α} {spelling : α → List Token} {items : List α}
    (h : ∀ a ∈ items, spelling (flat a) = (spelling a).map flatToken) :
    (items.map flat).flatMap spelling = (items.flatMap spelling).map flatToken := by
  rw [List.flatMap_map, List.map_flatMap]
  exact List.flatMap_congr h

/-! ## Values -/

mutual

/-- A value with its strings as they are read back. -/
def Value.flat : Value → Value
  | .string content isBlock => .string (flatten isBlock content) isBlock
  | .list items => .list (flatValues items)
  | .object fields => .object (flatFields fields)
  | .variable name => .variable name
  | .int text => .int text
  | .float text => .float text
  | .boolean value => .boolean value
  | .null => .null
  | .enum name => .enum name

/-- The items of a list with their strings as they are read back. -/
def flatValues : List Value → List Value
  | [] => []
  | value :: rest => value.flat :: flatValues rest

/-- The fields of an input object with their strings as they are read back. -/
def flatFields : List (String × Value) → List (String × Value)
  | [] => []
  | (name, value) :: rest => (name, value.flat) :: flatFields rest

end

theorem flatValues_eq (items : List Value) : flatValues items = items.map Value.flat := by
  induction items with
  | nil => rfl
  | cons value rest ih => rw [flatValues, ih, List.map_cons]

theorem flatFields_eq (fields : List (String × Value)) :
    flatFields fields = fields.map fun field => (field.1, field.2.flat) := by
  induction fields with
  | nil => rfl
  | cons field rest ih =>
    obtain ⟨name, value⟩ := field
    rw [flatFields, ih, List.map_cons]

mutual

theorem tokens_flat_value : (value : Value) → value.flat.tokens = value.tokens.map flatToken
  | .string content isBlock => by
    rw [Value.flat, Value.tokens, Value.tokens, List.map_singleton, flatToken_stringToken]
  | .list items => by
    have hitems := tokens_flat_values items
    simp [Value.flat, Value.tokens, hitems, flatToken]
  | .object fields => by
    have hfields := tokens_flat_fields fields
    simp [Value.flat, Value.tokens, hfields, flatToken]
  | .variable _ | .int _ | .float _ | .boolean _ | .null | .enum _ => rfl

theorem tokens_flat_values : (items : List Value) →
    tokensOfValues (flatValues items) = (tokensOfValues items).map flatToken
  | [] => rfl
  | value :: rest => by
    have hvalue := tokens_flat_value value
    have hrest := tokens_flat_values rest
    rw [flatValues, tokensOfValues, tokensOfValues, hvalue, hrest, List.map_append]

theorem tokens_flat_fields : (fields : List (String × Value)) →
    tokensOfFields (flatFields fields) = (tokensOfFields fields).map flatToken
  | [] => rfl
  | (name, value) :: rest => by
    have hvalue := tokens_flat_value value
    have hrest := tokens_flat_fields rest
    simp [flatFields, tokensOfFields, hvalue, hrest, flatToken]

end

theorem fits_flat_value {value : Value} (h : value.Fits isConst levels) :
    value.flat.Fits isConst levels := by
  induction h with
  | mention h => exact .mention h
  | int => exact .int
  | float => exact .float
  | string => exact .string
  | boolean => exact .boolean
  | null => exact .null
  | enum h => exact .enum h
  | list _ ih =>
    rw [Value.flat, flatValues_eq]
    exact .list (List.forall_mem_map.2 ih)
  | object _ ih =>
    rw [Value.flat, flatFields_eq]
    exact .object (List.forall_mem_map.2 ih)

/-- An argument with its strings as they are read back. -/
def Argument.flat (argument : Argument) : Argument := { argument with value := argument.value.flat }

theorem tokens_flat_argument (argument : Argument) :
    argument.flat.tokens = argument.tokens.map flatToken := by
  simp [Argument.flat, Argument.tokens, tokens_flat_value, flatToken]

theorem tokens_flat_arguments (arguments : List Argument) :
    tokensOfArguments (arguments.map Argument.flat) =
      (tokensOfArguments arguments).map flatToken := by
  rw [tokensOfArguments, tokensOfArguments, map_enclosed,
    flatMap_tokens_map fun argument _ => tokens_flat_argument argument]

theorem fits_flat_arguments {arguments : List Argument}
    (h : ∀ argument ∈ arguments, argument.Fits isConst levels) :
    ∀ argument ∈ arguments.map Argument.flat, argument.Fits isConst levels :=
  List.forall_mem_map.2 fun argument hargument => fits_flat_value (h argument hargument)

/-- A directive with its strings as they are read back. -/
def Directive.flat (directive : Directive) : Directive :=
  { directive with arguments := directive.arguments.map Argument.flat }

theorem tokens_flat_directives (directives : List Directive) :
    tokensOfDirectives (directives.map Directive.flat) =
      (tokensOfDirectives directives).map flatToken :=
  flatMap_tokens_map fun directive _ => by
    simp [Directive.flat, Directive.tokens, tokens_flat_arguments, flatToken]

theorem fits_flat_directives {directives : List Directive}
    (h : ∀ directive ∈ directives, directive.Fits isConst levels) :
    ∀ directive ∈ directives.map Directive.flat, directive.Fits isConst levels :=
  List.forall_mem_map.2 fun directive hdirective => fits_flat_arguments (h directive hdirective)

/-- A description as it is read back. -/
def Description.flat (description : Description) : Description :=
  { description with content := flatten description.isBlock description.content }

theorem tokens_flat_description (description : Option Description) :
    tokensOfDescription (description.map Description.flat) =
      (tokensOfDescription description).map flatToken := by
  cases description with
  | none => rfl
  | some d => simp [tokensOfDescription, Description.flat, flatToken_stringToken]

theorem tokens_flat_default (value? : Option Value) :
    tokensOfDefault (value?.map Value.flat) = (tokensOfDefault value?).map flatToken := by
  cases value? with
  | none => rfl
  | some value => simp [tokensOfDefault, tokens_flat_value, flatToken]

theorem fits_flat_default {value? : Option Value}
    (h : ∀ value, value? = some value → value.Fits isConst levels) :
    ∀ value, value?.map Value.flat = some value → value.Fits isConst levels := by
  rintro value hvalue
  obtain ⟨value, rfl, rfl⟩ := Option.map_eq_some_iff.1 hvalue
  exact fits_flat_value (h value rfl)

/-- There are no strings in a reference to a type. -/
theorem map_tokens_type (type : TypeRef) : type.tokens.map flatToken = type.tokens := by
  induction type with
  | named => rfl
  | list item ih => simp [TypeRef.tokens, ih, flatToken]
  | nonNull type ih => simp [TypeRef.tokens, ih, flatToken]

/-! ## Selections -/

mutual

/-- A selection with its strings as they are read back. -/
def Selection.flat : Selection → Selection
  | .field label name arguments directives selections =>
    .field label name (arguments.map Argument.flat) (directives.map Directive.flat)
      (flatEach selections)
  | .spread name directives => .spread name (directives.map Directive.flat)
  | .inline condition directives selections =>
    .inline condition (directives.map Directive.flat) (flatEach selections)

/-- Selections with their strings as they are read back. -/
def flatEach : List Selection → List Selection
  | [] => []
  | selection :: rest => selection.flat :: flatEach rest

end

theorem flatEach_eq (selections : List Selection) :
    flatEach selections = selections.map Selection.flat := by
  induction selections with
  | nil => rfl
  | cons selection rest ih => rw [flatEach, ih, List.map_cons]

mutual

theorem tokens_flat_selection : (selection : Selection) →
    selection.flat.tokens = selection.tokens.map flatToken
  | .field label name given notes below => by
    have hbelow := tokens_flat_each below
    have hlabel : (tokensOfLabel label).map flatToken = tokensOfLabel label := by
      cases label <;> rfl
    simp [Selection.flat, Selection.tokens, hbelow, hlabel, tokens_flat_arguments,
      tokens_flat_directives, map_enclosed, flatToken]
  | .spread name notes => by
    simp [Selection.flat, Selection.tokens, tokens_flat_directives, flatToken]
  | .inline condition notes below => by
    have hbelow := tokens_flat_each below
    have hcondition : (tokensOfCondition condition).map flatToken = tokensOfCondition condition := by
      cases condition <;> rfl
    simp [Selection.flat, Selection.tokens, hbelow, hcondition, tokens_flat_directives,
      map_enclosed, flatToken]

theorem tokens_flat_each : (selections : List Selection) →
    tokensOfEach (flatEach selections) = (tokensOfEach selections).map flatToken
  | [] => rfl
  | selection :: rest => by
    have hselection := tokens_flat_selection selection
    have hrest := tokens_flat_each rest
    rw [flatEach, tokensOfEach, tokensOfEach, hselection, hrest, List.map_append]

end

theorem fits_flat_selection {selection : Selection} (h : selection.Fits levels) :
    selection.flat.Fits levels := by
  induction h with
  | field hgiven hnotes hlevels _ ih =>
    rw [Selection.flat, flatEach_eq]
    exact .field (fits_flat_arguments hgiven) (fits_flat_directives hnotes)
      (fun hne => hlevels fun hnil => hne (by rw [hnil]; rfl)) (List.forall_mem_map.2 ih)
  | spread hname hnotes =>
    rw [Selection.flat]
    exact .spread hname (fits_flat_directives hnotes)
  | inline hnotes hlevels hne _ ih =>
    rw [Selection.flat, flatEach_eq]
    exact .inline (fits_flat_directives hnotes) hlevels (by simpa using hne)
      (List.forall_mem_map.2 ih)

theorem tokens_flat_selections (selections : List Selection) :
    tokensOfSelections (selections.map Selection.flat) =
      (tokensOfSelections selections).map flatToken := by
  rw [tokensOfSelections, tokensOfSelections, map_enclosed,
    flatMap_tokens_map fun selection _ => tokens_flat_selection selection]

theorem SelectionSetFits.flat {selections : List Selection} (h : SelectionSetFits levels selections) :
    SelectionSetFits levels (selections.map Selection.flat) where
  ne_nil := by simpa using h.ne_nil
  levels_pos := h.levels_pos
  each := List.forall_mem_map.2 fun selection hselection =>
    fits_flat_selection (h.each selection hselection)

/-! ## Executable definitions -/

/-- A variable with its strings as they are read back. -/
def VariableDefinition.flat (v : VariableDefinition) : VariableDefinition :=
  { v with
    description := v.description.map Description.flat
    defaultValue := v.defaultValue.map Value.flat
    directives := v.directives.map Directive.flat }

theorem tokens_flat_variable (v : VariableDefinition) : v.flat.tokens = v.tokens.map flatToken := by
  simp [VariableDefinition.flat, VariableDefinition.tokens, tokens_flat_description,
    map_tokens_type, tokens_flat_default, tokens_flat_directives, flatToken]

theorem VariableDefinition.Fits.flat {v : VariableDefinition} (h : v.Fits) : v.flat.Fits where
  type := h.type
  defaultValue := fits_flat_default h.defaultValue
  directives := fits_flat_directives h.directives

/-- An operation with its strings as they are read back. -/
def Operation.flat (operation : Operation) : Operation :=
  { operation with
    description := operation.description.map Description.flat
    parameters := operation.parameters.map VariableDefinition.flat
    directives := operation.directives.map Directive.flat
    selections := operation.selections.map Selection.flat }

theorem tokens_flat_operation (operation : Operation) :
    operation.flat.tokens = operation.tokens.map flatToken := by
  have hname : (operation.name.elim [] fun name => [Token.name name]).map flatToken =
      operation.name.elim [] fun name => [.name name] := by
    cases operation.name <;> rfl
  have hparameters :
      (operation.parameters.map VariableDefinition.flat).flatMap VariableDefinition.tokens =
        (operation.parameters.flatMap VariableDefinition.tokens).map flatToken :=
    flatMap_tokens_map fun v _ => tokens_flat_variable v
  simp only [Operation.flat, Operation.tokens, tokens_flat_description, tokens_flat_directives,
    tokens_flat_selections, hparameters, List.map_append, map_enclosed, hname]
  rfl

theorem Operation.Fits.flat {operation : Operation} (h : operation.Fits) : operation.flat.Fits where
  parameters := List.forall_mem_map.2 fun v hv => (h.parameters v hv).flat
  directives := fits_flat_directives h.directives
  selections := h.selections.flat

/-- A fragment with its strings as they are read back. -/
def Fragment.flat (fragment : Fragment) : Fragment :=
  { fragment with
    description := fragment.description.map Description.flat
    directives := fragment.directives.map Directive.flat
    selections := fragment.selections.map Selection.flat }

theorem tokens_flat_fragment (fragment : Fragment) :
    fragment.flat.tokens = fragment.tokens.map flatToken := by
  simp only [Fragment.flat, Fragment.tokens, tokens_flat_description, tokens_flat_directives,
    tokens_flat_selections, List.map_append]
  rfl

theorem Fragment.Fits.flat {fragment : Fragment} (h : fragment.Fits) : fragment.flat.Fits where
  name_ne := h.name_ne
  directives := fits_flat_directives h.directives
  selections := h.selections.flat

/-! ## Schema definitions -/

/-- Annotations at no places, with their strings as they are read back. -/
def flatAnnotations (annotations : List PlacedDirective) : List PlacedDirective :=
  annotations.map fun note => placeless note.toDirective.flat

theorem withoutPlaces_flatAnnotations (annotations : List PlacedDirective) :
    withoutPlaces (flatAnnotations annotations) = (withoutPlaces annotations).map Directive.flat := by
  simp [flatAnnotations, withoutPlaces, placeless, Function.comp_def]

theorem erasePlaces_flatAnnotations (annotations : List PlacedDirective) :
    erasePlaces (flatAnnotations annotations) = flatAnnotations annotations := by
  simp [flatAnnotations, erasePlaces, withoutPlaces, placeless, Function.comp_def]

/-- An input value with its strings as they are read back, without places. -/
def InputValue.flat (input : InputValue) : InputValue :=
  { input with
    description := input.description.map Description.flat
    defaultValue := input.defaultValue.map Value.flat
    annotations := flatAnnotations input.annotations }

theorem tokens_flat_input (input : InputValue) : input.flat.tokens = input.tokens.map flatToken := by
  simp [InputValue.flat, InputValue.tokens, InputValue.directives, tokens_flat_description,
    map_tokens_type, tokens_flat_default, withoutPlaces_flatAnnotations, tokens_flat_directives,
    flatToken]

theorem tokens_flat_inputs (opening closing : Punctuator) (inputs : List InputValue) :
    tokensOfInputs opening closing (inputs.map InputValue.flat) =
      (tokensOfInputs opening closing inputs).map flatToken := by
  rw [tokensOfInputs, tokensOfInputs, map_enclosed,
    flatMap_tokens_map fun input _ => tokens_flat_input input]

theorem InputValue.Fits.flat {input : InputValue} (h : input.Fits) : input.flat.Fits where
  type := h.type
  defaultValue := fits_flat_default h.defaultValue
  directives := by
    have hnotes := fits_flat_directives h.directives
    rwa [InputValue.directives, ← withoutPlaces_flatAnnotations] at hnotes

/-- A field definition with its strings as they are read back, without places. -/
def FieldDefinition.flat (field : FieldDefinition) : FieldDefinition :=
  { field with
    description := field.description.map Description.flat
    arguments := field.arguments.map InputValue.flat
    annotations := flatAnnotations field.annotations }

theorem tokens_flat_field (field : FieldDefinition) :
    field.flat.tokens = field.tokens.map flatToken := by
  simp [FieldDefinition.flat, FieldDefinition.tokens, FieldDefinition.directives,
    tokens_flat_description, tokens_flat_inputs, map_tokens_type, withoutPlaces_flatAnnotations,
    tokens_flat_directives, flatToken]

theorem FieldDefinition.Fits.flat {field : FieldDefinition} (h : field.Fits) : field.flat.Fits where
  arguments := List.forall_mem_map.2 fun input hinput => (h.arguments input hinput).flat
  type := h.type
  directives := by
    have hnotes := fits_flat_directives h.directives
    rwa [FieldDefinition.directives, ← withoutPlaces_flatAnnotations] at hnotes

/-- A value of an enumeration with its strings as they are read back, without places. -/
def EnumValue.flat (value : EnumValue) : EnumValue :=
  { value with
    description := value.description.map Description.flat
    annotations := flatAnnotations value.annotations }

theorem tokens_flat_enumValue (value : EnumValue) :
    value.flat.tokens = value.tokens.map flatToken := by
  simp [EnumValue.flat, EnumValue.tokens, EnumValue.directives, tokens_flat_description,
    withoutPlaces_flatAnnotations, tokens_flat_directives, flatToken]

theorem EnumValue.Fits.flat {value : EnumValue} (h : value.Fits) : value.flat.Fits where
  name := h.name
  directives := by
    have hnotes := fits_flat_directives h.directives
    rwa [EnumValue.directives, ← withoutPlaces_flatAnnotations] at hnotes

/-- What a type consists of, with its strings as they are read back, without places. -/
def TypeBody.flat : TypeBody → TypeBody
  | .scalar => .scalar
  | .object above fields => .object above (fields.map FieldDefinition.flat)
  | .interface above fields => .interface above (fields.map FieldDefinition.flat)
  | .union members => .union members
  | .enum values => .enum (values.map EnumValue.flat)
  | .input fields => .input (fields.map InputValue.flat)

theorem map_tokensOfNames (separator : Punctuator) (names : List String) :
    (tokensOfNames separator names).map flatToken = tokensOfNames separator names := by
  cases names with
  | nil => rfl
  | cons first more =>
    rw [tokensOfNames, List.map_cons, List.map_flatMap]
    rfl

theorem map_tokensOfListed (lead : Token) (hlead : flatToken lead = lead) (separator : Punctuator)
    (names : List String) :
    (tokensOfListed lead separator names).map flatToken = tokensOfListed lead separator names := by
  unfold tokensOfListed
  split
  · rfl
  · rw [List.map_cons, hlead, map_tokensOfNames]

theorem tokens_flat_body (body : TypeBody) : body.flat.tokens = body.tokens.map flatToken := by
  have hfields : ∀ fields : List FieldDefinition,
      tokensOfFieldDefinitions (fields.map FieldDefinition.flat) =
        (tokensOfFieldDefinitions fields).map flatToken := by
    intro fields
    rw [tokensOfFieldDefinitions, tokensOfFieldDefinitions, map_enclosed,
      flatMap_tokens_map fun field _ => tokens_flat_field field]
  cases body with
  | scalar => rfl
  | object above fields => exact hfields fields
  | interface above fields => exact hfields fields
  | union members => exact (map_tokensOfListed (.punct .equals) rfl .pipe members).symm
  | enum values =>
    rw [TypeBody.flat, TypeBody.tokens, TypeBody.tokens, tokensOfEnumValues, tokensOfEnumValues,
      map_enclosed, flatMap_tokens_map fun value _ => tokens_flat_enumValue value]
  | input fields => exact tokens_flat_inputs .braceL .braceR fields

theorem TypeBody.Fits.flat {body : TypeBody} (h : body.Fits) : body.flat.Fits := by
  cases body with
  | scalar => trivial
  | object above fields => exact List.forall_mem_map.2 fun field hfield => (h field hfield).flat
  | interface above fields => exact List.forall_mem_map.2 fun field hfield => (h field hfield).flat
  | union members => trivial
  | enum values => exact List.forall_mem_map.2 fun value hvalue => (h value hvalue).flat
  | input fields => exact List.forall_mem_map.2 fun input hinput => (h input hinput).flat

/-- A type with its strings as they are read back, without places. -/
def TypeDefinition.flat (type : TypeDefinition) : TypeDefinition :=
  { type with
    description := type.description.map Description.flat
    annotations := flatAnnotations type.annotations
    body := type.body.flat }

theorem tokens_flat_type (type : TypeDefinition) : type.flat.tokens = type.tokens.map flatToken := by
  have hword : type.body.flat.word = type.body.word := by cases type.body <;> rfl
  have habove : type.body.flat.interfaces = type.body.interfaces := by cases type.body <;> rfl
  have hnames := map_tokensOfListed (.name "implements") rfl .amp type.body.interfaces
  simp [TypeDefinition.flat, TypeDefinition.tokens, TypeDefinition.directives, tokens_flat_body,
    withoutPlaces_flatAnnotations, tokens_flat_directives, hword, habove, hnames, flatToken]

theorem TypeDefinition.Fits.flat {type : TypeDefinition} (h : type.Fits) : type.flat.Fits where
  directives := by
    have hnotes := fits_flat_directives h.directives
    rwa [TypeDefinition.directives, ← withoutPlaces_flatAnnotations] at hnotes
  body := h.body.flat

/-- The definition of a directive with its strings as they are read back, without places. -/
def DirectiveDefinition.flat (directive : DirectiveDefinition) : DirectiveDefinition :=
  { directive with
    description := directive.description.map Description.flat
    arguments := directive.arguments.map InputValue.flat }

theorem tokens_flat_directiveDefinition (directive : DirectiveDefinition) :
    directive.flat.tokens = directive.tokens.map flatToken := by
  have hrepeatable :
      (if directive.isRepeatable then [Token.name "repeatable"] else []).map flatToken =
      if directive.isRepeatable then [.name "repeatable"] else [] := by
    cases directive.isRepeatable <;> rfl
  simp only [DirectiveDefinition.flat, DirectiveDefinition.tokens, tokens_flat_description,
    tokens_flat_inputs, List.map_append, hrepeatable, List.map_cons, map_tokensOfNames]
  rfl

theorem DirectiveDefinition.Fits.flat {directive : DirectiveDefinition} (h : directive.Fits) :
    directive.flat.Fits where
  arguments := List.forall_mem_map.2 fun input hinput => (h.arguments input hinput).flat
  ne_nil := h.ne_nil
  locations := h.locations

/-- A schema definition with its strings as they are read back, without places. -/
def SystemDefinition.flat : SystemDefinition → SystemDefinition
  | .schema description directives roots =>
    .schema (description.map Description.flat) (directives.map Directive.flat) roots
  | .type definition => .type definition.flat
  | .directive definition => .directive definition.flat
  | .extendSchema directives roots => .extendSchema (directives.map Directive.flat) roots
  | .extendType addition => .extendType addition.flat

theorem tokens_flat_system (definition : SystemDefinition) :
    definition.flat.tokens = definition.tokens.map flatToken := by
  have hroots : ∀ roots : List RootType,
      (tokensOfRoots roots).map flatToken = tokensOfRoots roots := by
    intro roots
    rw [tokensOfRoots, map_enclosed, List.map_flatMap]
    rfl
  cases definition with
  | schema description notes roots =>
    simp [SystemDefinition.flat, SystemDefinition.tokens, tokens_flat_description,
      tokens_flat_directives, hroots, flatToken]
  | type definition =>
    rw [SystemDefinition.flat, SystemDefinition.tokens, SystemDefinition.tokens, List.map_append,
      tokens_flat_type, ← tokens_flat_description]
    rfl
  | directive definition => exact tokens_flat_directiveDefinition definition
  | extendSchema notes roots =>
    simp [SystemDefinition.flat, SystemDefinition.tokens, tokens_flat_directives, hroots, flatToken]
  | extendType addition =>
    simp [SystemDefinition.flat, SystemDefinition.tokens, tokens_flat_type, flatToken]

theorem isAddition_flat (addition : TypeDefinition) :
    isAddition addition.flat = isAddition addition := by
  cases hbody : addition.body <;>
    simp [isAddition, TypeDefinition.flat, hbody, TypeBody.flat, flatAnnotations]

theorem SystemDefinition.Fits.flat {definition : SystemDefinition} (h : definition.Fits) :
    definition.flat.Fits := by
  cases definition with
  | schema description notes roots => exact ⟨fits_flat_directives h.1, h.2⟩
  | type definition => exact TypeDefinition.Fits.flat h
  | directive definition => exact DirectiveDefinition.Fits.flat h
  | extendSchema notes roots =>
    exact ⟨fits_flat_directives h.1, h.2.imp_left fun hne => by simpa using hne⟩
  | extendType addition =>
    refine ⟨h.1.flat, ?_, ?_⟩
    · rw [TypeDefinition.flat, h.2.1]
      rfl
    · rw [isAddition_flat]
      exact h.2.2

/-! ## Definitions -/

/-- A definition with its strings as they are read back, without places. -/
def Definition.flat : Definition → Definition
  | .operation op => .operation op.flat
  | .fragment frag => .fragment frag.flat
  | .system definition => .system definition.flat

theorem tokens_flat_definition (d : Definition) : d.flat.tokens = d.tokens.map flatToken := by
  cases d with
  | operation op => exact tokens_flat_operation op
  | fragment frag => exact tokens_flat_fragment frag
  | system definition => exact tokens_flat_system definition

theorem fits_flat_definition {d : Definition} (h : d.Fits) : d.flat.Fits := by
  cases d with
  | operation op => exact Operation.Fits.flat h
  | fragment frag => exact Fragment.Fits.flat h
  | system definition => exact SystemDefinition.Fits.flat h

theorem unplaced_flat_input (input : InputValue) : input.flat.unplaced = input.flat := by
  simp [InputValue.unplaced, InputValue.flat, erasePlaces_flatAnnotations]

theorem unplaced_flat_field (field : FieldDefinition) : field.flat.unplaced = field.flat := by
  simp [FieldDefinition.unplaced, FieldDefinition.flat, erasePlaces_flatAnnotations,
    unplaced_flat_input]

theorem unplaced_flat_enumValue (value : EnumValue) : value.flat.unplaced = value.flat := by
  simp [EnumValue.unplaced, EnumValue.flat, erasePlaces_flatAnnotations]

theorem unplaced_flat_type (type : TypeDefinition) : type.flat.unplaced = type.flat := by
  have hbody : type.body.flat.unplaced = type.body.flat := by
    cases type.body <;> simp [TypeBody.flat, TypeBody.unplaced, unplaced_flat_field,
      unplaced_flat_enumValue, unplaced_flat_input]
  simp [TypeDefinition.unplaced, TypeDefinition.flat, erasePlaces_flatAnnotations, hbody]

/-- What is read back has no places. -/
theorem unplaced_flat (d : Definition) : d.flat.unplaced = d.flat := by
  cases d with
  | operation op => rfl
  | fragment frag => rfl
  | system definition =>
    refine congrArg Definition.system ?_
    cases definition with
    | schema description notes roots => rfl
    | type definition => exact congrArg SystemDefinition.type (unplaced_flat_type definition)
    | directive definition =>
      simp [SystemDefinition.flat, SystemDefinition.unplaced, DirectiveDefinition.flat,
        DirectiveDefinition.unplaced, unplaced_flat_input]
    | extendSchema notes roots => rfl
    | extendType addition => exact congrArg SystemDefinition.extendType (unplaced_flat_type addition)

end PersistedQueries.GraphQL
