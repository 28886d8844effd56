import PersistedQueries.GraphQL.Parser.System
import PersistedQueries.Proofs.Syntax.Executable

/-!
# What the parsers of schema definitions read

The annotations within schema definitions keep their places in the text, which a spelling does not
determine. So it is the definitions with their places forgotten that a parser reads.

- `InputValue.unplaced`, `TypeDefinition.unplaced` and the like: the parts of a schema document
  without places.
- `InputValue.tokens`, `TypeDefinition.tokens` and the like: their tokens. A list of names may have
  one more separator in front of it, so `SpellsNames` is a relation.
- `reads_inputValue`, `reads_fieldDefinition`, `reads_enumValue`, `reads_typeOfWord`,
  `reads_schemaDefinition`, `reads_directiveDefinition`, `reads_extendSchema`, `reads_extendType`.
-/

namespace PersistedQueries.GraphQL

open PersistedQueries.GraphQL.Parser

/-! ## Places -/

/-- An annotation at no place. -/
def placeless (note : Directive) : PlacedDirective := ⟨note, 0, []⟩

/-- Annotations with their places forgotten. -/
def erasePlaces (notes : List PlacedDirective) : List PlacedDirective :=
  (withoutPlaces notes).map placeless

@[simp] theorem withoutPlaces_map_placeless (notes : List Directive) :
    withoutPlaces (notes.map placeless) = notes := by
  simp [withoutPlaces, placeless, Function.comp_def]

@[simp] theorem withoutPlaces_erasePlaces (notes : List PlacedDirective) :
    withoutPlaces (erasePlaces notes) = withoutPlaces notes :=
  withoutPlaces_map_placeless _

/-- An input value without places. -/
def InputValue.unplaced (input : InputValue) : InputValue :=
  { input with annotations := erasePlaces input.annotations }

/-- A field definition without places. -/
def FieldDefinition.unplaced (field : FieldDefinition) : FieldDefinition :=
  { field with
    arguments := field.arguments.map InputValue.unplaced
    annotations := erasePlaces field.annotations }

/-- A value of an enumeration without places. -/
def EnumValue.unplaced (value : EnumValue) : EnumValue :=
  { value with annotations := erasePlaces value.annotations }

/-- What a type consists of, without places. -/
def TypeBody.unplaced : TypeBody → TypeBody
  | .scalar => .scalar
  | .object above fields => .object above (fields.map FieldDefinition.unplaced)
  | .interface above fields => .interface above (fields.map FieldDefinition.unplaced)
  | .union members => .union members
  | .enum values => .enum (values.map EnumValue.unplaced)
  | .input fields => .input (fields.map InputValue.unplaced)

/-- A type without places. -/
def TypeDefinition.unplaced (type : TypeDefinition) : TypeDefinition :=
  { type with annotations := erasePlaces type.annotations, body := type.body.unplaced }

/-- The definition of a directive without places. -/
def DirectiveDefinition.unplaced (directive : DirectiveDefinition) : DirectiveDefinition :=
  { directive with arguments := directive.arguments.map InputValue.unplaced }

/-- A schema definition without places. -/
def SystemDefinition.unplaced : SystemDefinition → SystemDefinition
  | .schema note notes roots => .schema note notes roots
  | .type definition => .type definition.unplaced
  | .directive definition => .directive definition.unplaced
  | .extendSchema notes roots => .extendSchema notes roots
  | .extendType addition => .extendType addition.unplaced

section Lists

variable {α β : Type} {closing : Punctuator}

theorem map_itemsUntil (f : α → β) (item : Parser α) (fuel : Nat) :
    List.map f <$> itemsUntil closing item fuel = itemsUntil closing (f <$> item) fuel := by
  induction fuel with
  | zero => rfl
  | succ fuel ih =>
    simp only [itemsUntil, ← ih]
    simp only [map_eq_pure_bind, bind_assoc, pure_bind]
    congr! with found
    cases found <;> simp

theorem map_optionalList (f : α → β) (opening : Punctuator) (item : Parser α) :
    List.map f <$> optionalList opening item closing =
      optionalList opening (f <$> item) closing := by
  have hzero : List.map f <$> zeroOrMore closing item = zeroOrMore closing (f <$> item) := by
    funext stream
    exact congrFun (map_itemsUntil f item _) stream
  simp only [optionalList, oneOrMore, ← hzero]
  simp only [map_eq_pure_bind, bind_assoc, pure_bind]
  congr! with found
  cases found <;> simp

theorem map_markedItems (f : α → β) (item : Parser α) (fuel : Nat) :
    List.map f <$> markedItems item fuel = markedItems (f <$> item) fuel := by
  induction fuel with
  | zero => rfl
  | succ fuel ih =>
    simp only [markedItems, ← ih]
    simp only [map_eq_pure_bind, bind_assoc, pure_bind]
    congr! with found
    cases found <;> simp

end Lists

/-- Without its place, an annotation of a schema definition is an ordinary constant directive. -/
theorem map_annotations (levels : Nat) :
    withoutPlaces <$> annotations levels = directives true levels := by
  have hplaced : Prod.fst <$> placedArgument levels = argument true levels := by
    funext stream
    simp only [placedArgument, argument, map_eq_pure_bind, bind_assoc, pure_bind]
    rfl
  have hitem : PlacedDirective.toDirective <$> placedDirective levels = directive true levels := by
    funext stream
    simp only [placedDirective, directive, arguments, ← hplaced, ← map_optionalList]
    simp only [map_eq_pure_bind, bind_assoc, pure_bind]
    rfl
  funext stream
  rw [directives, ← hitem]
  exact congrFun (map_markedItems PlacedDirective.toDirective (placedDirective levels) _) stream

/-! ## Spellings -/

/-- The tokens of names with a separator between them. -/
def tokensOfNames (separator : Punctuator) : List String → List Token
  | [] => []
  | first :: more => .name first :: more.flatMap fun other => [.punct separator, .name other]

/-- Names are spelled with a separator between them, and perhaps one in front. -/
def SpellsNames (separator : Punctuator) (Fits : String → Prop) (names : List String)
    (tokens : List Token) : Prop :=
  names ≠ [] ∧ (∀ name ∈ names, Fits name) ∧ (tokens = tokensOfNames separator names ∨
    tokens = .punct separator :: tokensOfNames separator names)

/-- Names behind a token that introduces them, or nothing when there are none. -/
def SpellsListed (lead : Token) (separator : Punctuator) (names : List String)
    (tokens : List Token) : Prop :=
  (∃ back, SpellsNames separator (fun _ => True) names back ∧ tokens = lead :: back) ∨
    names = [] ∧ tokens = []

/-- The tokens of names behind a token that introduces them. -/
def tokensOfListed (lead : Token) (separator : Punctuator) (names : List String) : List Token :=
  if names = [] then [] else lead :: tokensOfNames separator names

/-- The tokens of an argument of a definition, or of a field of an input type. -/
def InputValue.tokens (input : InputValue) : List Token :=
  tokensOfDescription input.description ++ [.name input.name, .punct .colon] ++
    input.type.tokens ++ tokensOfDefault input.defaultValue ++ tokensOfDirectives input.directives

/-- The input values that are read. -/
structure InputValue.Fits (input : InputValue) : Prop where
  type : input.type.Fits Parser.levels
  defaultValue : ∀ value, input.defaultValue = some value → value.Fits true Parser.levels
  directives : ∀ directive ∈ input.directives, directive.Fits true Parser.levels

/-- The tokens of input values between punctuators. -/
def tokensOfInputs (opening closing : Punctuator) (inputs : List InputValue) : List Token :=
  enclosed opening closing (inputs.flatMap InputValue.tokens)

/-- The tokens of a field of an object or interface type. -/
def FieldDefinition.tokens (field : FieldDefinition) : List Token :=
  tokensOfDescription field.description ++ [.name field.name] ++
    tokensOfInputs .parenL .parenR field.arguments ++ [.punct .colon] ++ field.type.tokens ++
    tokensOfDirectives field.directives

/-- The field definitions that are read. -/
structure FieldDefinition.Fits (field : FieldDefinition) : Prop where
  arguments : ∀ input ∈ field.arguments, input.Fits
  type : field.type.Fits Parser.levels
  directives : ∀ directive ∈ field.directives, directive.Fits true Parser.levels

/-- The tokens of field definitions. -/
def tokensOfFieldDefinitions (fields : List FieldDefinition) : List Token :=
  enclosed .braceL .braceR (fields.flatMap FieldDefinition.tokens)

/-- The tokens of a value of an enumeration. -/
def EnumValue.tokens (value : EnumValue) : List Token :=
  tokensOfDescription value.description ++ [.name value.name] ++
    tokensOfDirectives value.directives

/-- The values of enumerations that are read. -/
structure EnumValue.Fits (value : EnumValue) : Prop where
  name : value.name ∉ valueWords
  directives : ∀ directive ∈ value.directives, directive.Fits true Parser.levels

/-- The tokens of the values of an enumeration. -/
def tokensOfEnumValues (values : List EnumValue) : List Token :=
  enclosed .braceL .braceR (values.flatMap EnumValue.tokens)

/-- The tokens of the type of a kind of operation. -/
def RootType.tokens (root : RootType) : List Token :=
  [.name root.kind.word, .punct .colon, .name root.type]

/-- The tokens of the types of kinds of operation. -/
def tokensOfRoots (roots : List RootType) : List Token :=
  enclosed .braceL .braceR (roots.flatMap RootType.tokens)

/-- The interfaces of a type. -/
def TypeBody.interfaces : TypeBody → List String
  | .object above _ => above
  | .interface above _ => above
  | _ => []

/-- The tokens of what a type consists of, without its interfaces. -/
def TypeBody.tokens : TypeBody → List Token
  | .scalar => []
  | .object _ fields => tokensOfFieldDefinitions fields
  | .interface _ fields => tokensOfFieldDefinitions fields
  | .union members => tokensOfListed (.punct .equals) .pipe members
  | .enum values => tokensOfEnumValues values
  | .input fields => tokensOfInputs .braceL .braceR fields

/-- What types consist of, as far as it is read. -/
def TypeBody.Fits : TypeBody → Prop
  | .scalar => True
  | .object _ fields => ∀ field ∈ fields, field.Fits
  | .interface _ fields => ∀ field ∈ fields, field.Fits
  | .union _ => True
  | .enum values => ∀ value ∈ values, value.Fits
  | .input fields => ∀ field ∈ fields, field.Fits

/-- What a type consists of is spelled by its tokens, or by one separator more. -/
def SpellsBody : TypeBody → List Token → Prop
  | .union members, tokens => SpellsListed (.punct .equals) .pipe members tokens
  | body, tokens => tokens = body.tokens

/-- The tokens of a type from the word that introduces it on. -/
def TypeDefinition.tokens (type : TypeDefinition) : List Token :=
  .name type.body.word :: .name type.name ::
    tokensOfListed (.name "implements") .amp type.body.interfaces ++
    tokensOfDirectives type.directives ++ type.body.tokens

/-- The types that are read. -/
structure TypeDefinition.Fits (type : TypeDefinition) : Prop where
  directives : ∀ directive ∈ type.directives, directive.Fits true Parser.levels
  body : type.body.Fits

/-- The spelling of a type behind the word that introduces it. -/
def SpellsType (type : TypeDefinition) (tokens : List Token) : Prop :=
  type.Fits ∧ ∃ front back,
    SpellsListed (.name "implements") .amp type.body.interfaces front ∧
    SpellsBody type.body back ∧
    tokens = .name type.name :: front ++ tokensOfDirectives type.directives ++ back

/-- The tokens of the definition of a directive. -/
def DirectiveDefinition.tokens (directive : DirectiveDefinition) : List Token :=
  tokensOfDescription directive.description ++
    [.name "directive", .punct .at, .name directive.name] ++
    tokensOfInputs .parenL .parenR directive.arguments ++
    (if directive.isRepeatable then [.name "repeatable"] else []) ++
    .name "on" :: tokensOfNames .pipe directive.locations

/-- The definitions of directives that are read. -/
structure DirectiveDefinition.Fits (directive : DirectiveDefinition) : Prop where
  arguments : ∀ input ∈ directive.arguments, input.Fits
  ne_nil : directive.locations ≠ []
  locations : ∀ location ∈ directive.locations, location ∈ directiveLocations

/-- The tokens of a schema definition. -/
def SystemDefinition.tokens : SystemDefinition → List Token
  | .schema note notes roots =>
    tokensOfDescription note ++ [.name "schema"] ++ tokensOfDirectives notes ++ tokensOfRoots roots
  | .type definition => tokensOfDescription definition.description ++ definition.tokens
  | .directive definition => definition.tokens
  | .extendSchema notes roots =>
    [.name "extend", .name "schema"] ++ tokensOfDirectives notes ++ tokensOfRoots roots
  | .extendType addition => .name "extend" :: addition.tokens

/-- The schema definitions that are read. -/
def SystemDefinition.Fits : SystemDefinition → Prop
  | .schema _ notes roots =>
    (∀ directive ∈ notes, directive.Fits true Parser.levels) ∧ roots ≠ []
  | .type definition => definition.Fits
  | .directive definition => definition.Fits
  | .extendSchema notes roots =>
    (∀ directive ∈ notes, directive.Fits true Parser.levels) ∧ (notes ≠ [] ∨ roots ≠ [])
  | .extendType addition => addition.Fits ∧ addition.description = none ∧ isAddition addition

/-- A schema definition is spelled by its tokens, with separators in front of lists of names when
they are written. -/
def SpellsSystem : SystemDefinition → List Token → Prop
  | .schema note notes roots, tokens =>
    (SystemDefinition.schema note notes roots).Fits ∧
      tokens = (SystemDefinition.schema note notes roots).tokens
  | .type definition, tokens => ∃ back, SpellsType definition back ∧
      tokens = tokensOfDescription definition.description ++ .name definition.body.word :: back
  | .directive definition, tokens => definition.Fits ∧ ∃ back,
      SpellsNames .pipe (· ∈ directiveLocations) definition.locations back ∧
      tokens = tokensOfDescription definition.description ++
        [.name "directive", .punct .at, .name definition.name] ++
        tokensOfInputs .parenL .parenR definition.arguments ++
        (if definition.isRepeatable then [.name "repeatable"] else []) ++ .name "on" :: back
  | .extendSchema notes roots, tokens =>
    (SystemDefinition.extendSchema notes roots).Fits ∧
      tokens = (SystemDefinition.extendSchema notes roots).tokens
  | .extendType addition, tokens => addition.description = none ∧ isAddition addition ∧
      ∃ back, SpellsType addition back ∧
        tokens = .name "extend" :: .name addition.body.word :: back

/-! ## Input values, fields and values of enumerations -/

theorem inputValue_eq : InputValue.unplaced <$> inputValue =
    (fun x => ⟨x.1, x.2.1.1.1, x.2.1.1.2, x.2.1.2, x.2.2.map placeless⟩) <$>
      declaration name := by
  simp only [inputValue, declaration, ← map_annotations, both, behind, opt]
  simp only [map_eq_pure_bind, bind_assoc, pure_bind]
  congr! with _ _ _ _ found
  cases found <;>
    simp only [Bool.false_eq_true, if_true, if_false, bind_assoc, pure_bind] <;> rfl

theorem reads_inputValue : Reads (InputValue.unplaced <$> inputValue)
    (Exactly (fun input => input.Fits ∧ input.unplaced = input) InputValue.tokens)
    variableStops := by
  rw [inputValue_eq]
  refine (reads_declaration reads_nameExactly fun text =>
    ⟨_, _, rfl, by simp [stringTokens, stringToken]⟩).map fun input tokens => ?_
  constructor
  · rintro ⟨⟨hfits, hplaced⟩, rfl⟩
    refine ⟨(input.description, ((input.name, input.type), input.defaultValue), input.directives),
      hplaced, ⟨hfits.type, hfits.defaultValue, hfits.directives⟩, ?_⟩
    simp [InputValue.tokens]
  · rintro ⟨⟨note, ⟨⟨key, type⟩, initial⟩, notes⟩, rfl, ⟨htype, hvalue, hnotes⟩, rfl⟩
    refine ⟨⟨⟨htype, hvalue, ?_⟩, ?_⟩, ?_⟩
    · simpa [InputValue.directives] using hnotes
    · simp [InputValue.unplaced, erasePlaces]
    · simp [InputValue.tokens, InputValue.directives]

/-- What begins with a description or a name can stand behind another one in front of a closing
punctuator. -/
theorem separable_described {α : Type} {Fits : α → Prop} {spelling : α → List Token}
    {stops : Set Token} {closing : Punctuator} (note : α → Option Description)
    (key : α → String) (back : α → List Token)
    (heq : ∀ a, spelling a = tokensOfDescription (note a) ++ .name (key a) :: back a)
    (hstops : ∀ token ∈ stops, ∃ p, token = .punct p ∧ p ≠ closing) :
    Separable (Exactly Fits spelling) stops (.punct closing) where
  closing_free := by
    intro hmem
    obtain ⟨p, hp, hne⟩ := hstops _ hmem
    exact hne (by simpa using hp.symm)
  starts := by
    rintro a _ ⟨-, rfl⟩
    have hfree : ∀ token ∈ stops, ∀ text, token ≠ .name text := by
      intro token hmem text
      obtain ⟨p, rfl, -⟩ := hstops _ hmem
      exact Token.noConfusion
    have hfree' : ∀ token ∈ stops, ∀ d : Description,
        token ≠ stringToken d.content d.isBlock := by
      intro token hmem d
      obtain ⟨p, rfl, -⟩ := hstops _ hmem
      unfold stringToken
      split <;> exact Token.noConfusion
    cases hnote : note a with
    | none =>
      refine ⟨.name (key a), back a, by rw [heq, hnote]; rfl, fun hmem => ?_, Token.noConfusion⟩
      exact hfree _ hmem _ rfl
    | some d =>
      refine ⟨stringToken d.content d.isBlock, .name (key a) :: back a, by rw [heq, hnote]; rfl,
        fun hmem => hfree' _ hmem _ rfl, ?_⟩
      unfold stringToken
      split <;> exact Token.noConfusion

theorem reads_inputs (opening closing : Punctuator) (hclosing : .punct closing ∉ variableStops) :
    Reads (optionalList opening (InputValue.unplaced <$> inputValue) closing)
      (Exactly (fun inputs => ∀ input ∈ inputs, input.Fits ∧ input.unplaced = input)
        (tokensOfInputs opening closing)) {.punct opening} := by
  refine reads_inputValue.listed (separable_described InputValue.description InputValue.name
    (fun input => .punct .colon :: input.type.tokens ++ tokensOfDefault input.defaultValue ++
      tokensOfDirectives input.directives) (fun input => by simp [InputValue.tokens]) ?_)
  intro token hmem
  simp only [variableStops, Set.mem_insert_iff, Set.mem_singleton_iff] at hmem hclosing
  rcases hmem with rfl | rfl | rfl | rfl <;> refine ⟨_, rfl, ?_⟩ <;> rintro rfl <;> simp at hclosing

theorem map_eq_self {α : Type} {f : α → α} {items : List α} :
    items.map f = items ↔ ∀ a ∈ items, f a = a := by
  induction items with
  | nil => simp
  | cons a items ih => simp [ih]

theorem fieldDefinition_eq : FieldDefinition.unplaced <$> fieldDefinition =
    (fun x => ⟨x.1, x.2.1.1.1, x.2.1.1.2, x.2.1.2, x.2.2.map placeless⟩) <$>
      both description? (both (both (both name
        (optionalList .parenL (InputValue.unplaced <$> inputValue) .parenR))
        (behind (expectPunct .colon) (typeRef levels))) (directives true levels)) := by
  simp only [fieldDefinition, ← map_annotations, ← map_optionalList, both, behind]
  simp only [map_eq_pure_bind, bind_assoc, pure_bind]
  rfl

/-- What follows a field of a type must not be what could continue it. -/
def fieldDefinitionStops : Set Token := {.punct .bang, .punct .at, .punct .parenL}

theorem reads_fieldDefinition : Reads (FieldDefinition.unplaced <$> fieldDefinition)
    (Exactly (fun field => field.Fits ∧ field.unplaced = field) FieldDefinition.tokens)
    fieldDefinitionStops := by
  have htype : Reads (behind (expectPunct .colon) (typeRef levels))
      (Exactly (TypeRef.Fits levels) fun type => .punct .colon :: type.tokens) {.punct .bang} :=
    ((reads_typeRef levels).behind expectPunct_eq_ok).congr fun type tokens => by simp [Exactly]
  have hgiven := reads_nameExactly.both {.punct .parenL}
    (reads_inputs .parenL .parenR (by simp [variableStops])) (by simp [StartsApart]) (by simp)
  have htyped := hgiven.both {.punct .bang} htype
    (by
      rintro type _ ⟨-, rfl⟩
      simp) (by simp)
  have hnoted := htyped.both fieldDefinitionStops (reads_directives true levels)
    (startsApart_directives (by simp) (by simp [fieldDefinitionStops]))
    (by simp [fieldDefinitionStops])
  have hall := reads_description?.both fieldDefinitionStops hnoted
    (by
      rintro x _ ⟨_, _, ⟨_, _, ⟨_, _, ⟨-, rfl⟩, -, rfl⟩, -, rfl⟩, -, rfl⟩
      simp [stringTokens, stringToken]) (by simp)
  simp only [both_exactly] at hall
  rw [fieldDefinition_eq]
  refine hall.map fun field tokens => ?_
  constructor
  · rintro ⟨⟨hfits, hplaced⟩, rfl⟩
    have hinputs := map_eq_self.1 (congrArg FieldDefinition.arguments hplaced)
    refine ⟨(field.description, ((field.name, field.arguments), field.type), field.directives),
      ?_, ⟨trivial, ⟨⟨trivial, fun input hmem => ⟨hfits.arguments input hmem, hinputs input hmem⟩⟩,
      hfits.type⟩, hfits.directives⟩, ?_⟩
    · obtain ⟨note, key, inputs, type, notes⟩ := field
      have hnotes := congrArg FieldDefinition.annotations hplaced
      exact congrArg (FieldDefinition.mk note key inputs type) hnotes
    · simp [FieldDefinition.tokens]
  · rintro ⟨⟨note, ⟨⟨key, inputs⟩, type⟩, notes⟩, rfl, ⟨-, ⟨⟨-, hinputs⟩, htype⟩, hnotes⟩, rfl⟩
    refine ⟨⟨⟨fun input hmem => (hinputs input hmem).1, htype, ?_⟩, ?_⟩, ?_⟩
    · simpa [FieldDefinition.directives] using hnotes
    · simpa [FieldDefinition.unplaced, erasePlaces, map_eq_self] using
        fun input hmem => (hinputs input hmem).2
    · simp [FieldDefinition.tokens, FieldDefinition.directives]

theorem reads_fieldDefinitions :
    Reads (optionalList .braceL (FieldDefinition.unplaced <$> fieldDefinition) .braceR)
      (Exactly (fun fields => ∀ field ∈ fields, field.Fits ∧ field.unplaced = field)
        tokensOfFieldDefinitions) {.punct .braceL} := by
  refine reads_fieldDefinition.listed (separable_described FieldDefinition.description
    FieldDefinition.name (fun field => tokensOfInputs .parenL .parenR field.arguments ++
      .punct .colon :: field.type.tokens ++ tokensOfDirectives field.directives)
      (fun field => by simp [FieldDefinition.tokens]) ?_)
  simp [fieldDefinitionStops]

namespace Parser

/-- The name of a value of an enumeration, which is none of the words that are values. -/
def enumName : Parser String := do
  (← peek).elim (pure ()) fun token =>
    if [some "true", some "false", some "null"].contains token.content? then
      fail (.reservedEnumValue token.describe)
    else pure ()
  name

end Parser

theorem reads_enumName :
    Reads enumName (Exactly (· ∉ valueWords) fun text => [.name text]) ∅ where
  sound := by
    intro stream rest text hstream hok
    rw [enumName, peek_bind] at hok
    cases htoken : token? stream with
    | none =>
      rw [htoken] at hok
      obtain ⟨hleads, -⟩ := name_eq_ok.1 hok
      rw [hleads.token?_eq] at htoken
      cases htoken
    | some token =>
      rw [htoken, Option.elim_some] at hok
      split at hok
      · obtain ⟨_, _, hfail, -⟩ := bind_eq_ok.1 hok
        cases hfail
      · next hne =>
        obtain ⟨hleads, hrest⟩ := name_eq_ok.1 hok
        refine ⟨_, ⟨?_, rfl⟩, hleads, hrest⟩
        obtain rfl : Token.name text = token := by simpa [htoken] using hleads.token?_eq.symm
        simpa [valueWords, Token.content?] using hne
  complete := by
    rintro stream rest text _ ⟨hne, rfl⟩ hleads hrest -
    rw [enumName, peek_bind, hleads.token?_eq, Option.elim_some]
    rw [if_neg (by simpa [valueWords, Token.content?] using hne)]
    exact name_eq_ok.2 ⟨hleads, hrest⟩

theorem enumValue_eq : EnumValue.unplaced <$> enumValue =
    (fun x => ⟨x.1, x.2.1, x.2.2.map placeless⟩) <$>
      both description? (both enumName (directives true levels)) := by
  simp only [enumValue, ← map_annotations, both, enumName]
  simp only [map_eq_pure_bind, bind_assoc, pure_bind]
  congr! with _ next
  cases next with
  | none =>
    simp only [Option.elim_none, bind_assoc, pure_bind]
    rfl
  | some token =>
    simp only [Option.elim_some, List.contains_iff_mem]
    split <;> simp only [bind_assoc, pure_bind] <;> rfl

theorem reads_enumValue : Reads (EnumValue.unplaced <$> enumValue)
    (Exactly (fun value => value.Fits ∧ value.unplaced = value) EnumValue.tokens)
    {.punct .at, .punct .parenL} := by
  have hnoted := reads_enumName.both {.punct .at, .punct .parenL}
    (reads_directives true levels) (startsApart_directives (by simp) (by simp)) (by simp)
  have hall := reads_description?.both {.punct .at, .punct .parenL} hnoted
    (by
      rintro x _ ⟨_, _, ⟨-, rfl⟩, -, rfl⟩
      simp [stringTokens, stringToken]) (by simp)
  simp only [both_exactly] at hall
  rw [enumValue_eq]
  refine hall.map fun value tokens => ?_
  constructor
  · rintro ⟨⟨hfits, hplaced⟩, rfl⟩
    refine ⟨(value.description, value.name, value.directives), hplaced,
      ⟨trivial, hfits.name, hfits.directives⟩, ?_⟩
    simp [EnumValue.tokens]
  · rintro ⟨⟨note, key, notes⟩, rfl, ⟨-, hname, hnotes⟩, rfl⟩
    refine ⟨⟨⟨hname, ?_⟩, ?_⟩, ?_⟩
    · simpa [EnumValue.directives] using hnotes
    · simp [EnumValue.unplaced, erasePlaces]
    · simp [EnumValue.tokens, EnumValue.directives]

theorem reads_enumValues :
    Reads (optionalList .braceL (EnumValue.unplaced <$> enumValue) .braceR)
      (Exactly (fun values => ∀ value ∈ values, value.Fits ∧ value.unplaced = value)
        tokensOfEnumValues) {.punct .braceL} := by
  refine reads_enumValue.listed (separable_described EnumValue.description
    EnumValue.name (fun value => tokensOfDirectives value.directives)
      (fun value => by simp [EnumValue.tokens]) ?_)
  simp

/-! ## Names with separators -/

theorem moreSeparated_eq {α : Type} (separator : Punctuator) (item : Parser α) (fuel : Nat) :
    moreSeparated separator item fuel =
      repeated separator (behind (expectPunct separator) item) fuel := by
  induction fuel with
  | zero => rfl
  | succ fuel ih =>
    funext stream
    simp only [moreSeparated, repeated, ih, behind, skipPunct, expectPunct, peekPunct, bind_assoc,
      pure_bind]
    rw [peek_bind, peek_bind]
    by_cases htoken : token? stream = some (.punct separator)
    · simp only [htoken, decide_true, if_true, bind_assoc, pure_bind]
      rw [peek_bind, htoken]
      simp
    · simp [htoken]

theorem reads_separated {item : Parser String} {Fits : String → Prop} (separator : Punctuator)
    (h : Reads item (Exactly Fits fun text => [.name text]) ∅) :
    Reads (separated separator item) (SpellsNames separator Fits) {.punct separator} := by
  have hnext : Reads (behind (expectPunct separator) item)
      (Exactly Fits fun text => [.punct separator, .name text]) ∅ :=
    (h.behind expectPunct_eq_ok).congr fun text tokens => by simp [Exactly]
  have hmore : Reads (asLongAs separator (behind (expectPunct separator) item)) _ _ :=
    hnext.asLongAs (by simp) (by
      rintro text _ ⟨-, rfl⟩
      exact ⟨_, rfl⟩)
  have hnames := h.both {.punct separator} hmore (by simp [StartsApart]) (by simp)
  have hall := (reads_skipPunct separator).both {.punct separator} hnames
    (by
      rintro x _ ⟨_, _, ⟨-, rfl⟩, -, rfl⟩
      simp) (by simp)
  have heq : separated separator item =
      (fun x => x.2.1 :: x.2.2) <$> both (skipPunct separator) (both item
        (asLongAs separator (behind (expectPunct separator) item))) := by
    have hfun : (fun stream : TokenStream => moreSeparated separator item stream.length stream) =
        asLongAs separator (behind (expectPunct separator) item) := by
      funext stream
      rw [moreSeparated_eq]
      rfl
    simp only [separated, both, ← hfun, map_eq_pure_bind, bind_assoc, pure_bind]
  rw [heq]
  refine hall.map fun names tokens => ?_
  simp only [each_exactly]
  constructor
  · rintro ⟨hne, hfits, htokens⟩
    obtain ⟨first, more, rfl⟩ := List.exists_cons_of_ne_nil hne
    obtain ⟨hfirst, hmore⟩ := List.forall_mem_cons.1 hfits
    rcases htokens with rfl | rfl
    · exact ⟨(false, first, more), rfl, _, _, rfl, ⟨_, _, ⟨hfirst, rfl⟩, ⟨hmore, rfl⟩, rfl⟩, rfl⟩
    · exact ⟨(true, first, more), rfl, _, _, rfl, ⟨_, _, ⟨hfirst, rfl⟩, ⟨hmore, rfl⟩, rfl⟩, rfl⟩
  · rintro ⟨⟨found, first, more⟩, rfl, _, _, rfl, ⟨_, _, ⟨hfirst, rfl⟩, ⟨hmore, rfl⟩, rfl⟩, rfl⟩
    refine ⟨List.cons_ne_nil _ _, List.forall_mem_cons.2 ⟨hfirst, hmore⟩, ?_⟩
    cases found with
    | false => exact .inl rfl
    | true => exact .inr rfl

theorem reads_listed (lead : Token) (separator : Punctuator) :
    Reads (do if ← skipToken lead then separated separator name else return [])
      (SpellsListed lead separator) {lead, .punct separator} := by
  refine (reads_separated separator reads_nameExactly).choice _ (reads_pure []) lead ?_ (by simp)
    (by simp)
  rintro names _ ⟨-, rfl⟩
  simp

theorem reads_interfaces : Reads interfaces (SpellsListed (.name "implements") .amp)
    {.name "implements", .punct .amp} := reads_listed _ _

theorem reads_members : Reads members (SpellsListed (.punct .equals) .pipe)
    {.punct .equals, .punct .pipe} := reads_listed _ _

/-! ## Types -/

/-- What follows a type must not be what could continue it. -/
def typeStops : Set Token :=
  {.name "implements", .punct .amp, .punct .at, .punct .parenL, .punct .equals, .punct .pipe,
   .punct .braceL}

namespace Parser

/-- The name of a type with its interfaces, its directives and what a parser reads behind them. -/
def typeFrame {β : Type} (above : Parser (List String)) (body : Parser β)
    (make : List String → β → TypeBody) (note : Option Description) : Parser TypeDefinition :=
  (fun x => ⟨note, x.1.1.1, x.1.2.map placeless, make x.1.1.2 x.2⟩) <$>
    both (both (both name above) (directives true levels)) body

end Parser

section TypeFrame

variable {β : Type} {body : Parser β} {SpellsAbove : List String → List Token → Prop}
  {SpellsBack : β → List Token → Prop} {above : Parser (List String)} {stops : Set Token}

/-- The spelling of a type whose body is read by one parser. -/
theorem reads_typeFrame (habove : Reads above SpellsAbove {.name "implements", .punct .amp})
    (hbody : Reads body SpellsBack stops)
    (hstarts : ∀ b tokens, SpellsBack b tokens → ∀ token, tokens.head? = some token →
      token = .punct .equals ∨ token = .punct .braceL) (hstops : stops ⊆ typeStops)
    (make : List String → β → TypeBody) (note : Option Description) :
    Reads (typeFrame above body make note)
      (fun type tokens => ∃ names b front back, SpellsAbove names front ∧ SpellsBack b back ∧
        (∀ directive ∈ type.directives, directive.Fits true levels) ∧
        type = ⟨note, type.name, type.directives.map placeless, make names b⟩ ∧
        tokens = .name type.name :: front ++ tokensOfDirectives type.directives ++ back)
      typeStops := by
  have hnamed := reads_name.both {.name "implements", .punct .amp} habove
    (by simp [StartsApart]) (by simp)
  have hnoted := hnamed.both
    {.name "implements", .punct .amp, .punct .at, .punct .parenL}
    (reads_directives true levels)
    (startsApart_directives (by simp) (by simp [Set.insert_subset_iff]))
    (by simp [Set.insert_subset_iff])
  have hall := hnoted.both typeStops hbody
    (by
      refine fun b tokens h => ⟨fun token htoken => ?_, fun _ => ?_⟩
      · rcases hstarts b tokens h token htoken with rfl | rfl <;> simp
      · simp [typeStops, Set.insert_subset_iff]) hstops
  refine hall.map fun type tokens => ?_
  constructor
  · rintro ⟨names, b, front, back, hfront, hback, hnotes, htype, rfl⟩
    exact ⟨(((type.name, names), type.directives), b), htype.symm, _, back,
      ⟨_, _, ⟨_, front, rfl, hfront, rfl⟩, ⟨hnotes, rfl⟩, rfl⟩, hback, rfl⟩
  · rintro ⟨⟨⟨⟨key, names⟩, notes⟩, b⟩, rfl, _, back,
      ⟨_, _, ⟨_, front, rfl, hfront, rfl⟩, ⟨hnotes, rfl⟩, rfl⟩, hback, rfl⟩
    simp only [TypeDefinition.directives, withoutPlaces_map_placeless]
    exact ⟨names, b, front, back, hfront, hback, hnotes, rfl, rfl⟩

end TypeFrame

/-- The spelling of the type that a word introduces, behind that word. -/
def SpellsTypeOfWord (note : Option Description) (word : String) (type : TypeDefinition)
    (tokens : List Token) : Prop :=
  type.description = note ∧ type.body.word = word ∧ type.unplaced = type ∧ SpellsType type tokens

section Words

variable (note : Option Description)

theorem typeOfWord_type : TypeDefinition.unplaced <$> typeOfWord note "type" =
    typeFrame interfaces (optionalList .braceL (FieldDefinition.unplaced <$> fieldDefinition) .braceR)
      .object note := by
  simp only [typeOfWord, typeFrame, fieldDefinitions, ← map_annotations, ← map_optionalList, both]
  simp only [map_eq_pure_bind, bind_assoc, pure_bind]
  rfl

theorem typeOfWord_interface : TypeDefinition.unplaced <$> typeOfWord note "interface" =
    typeFrame interfaces (optionalList .braceL (FieldDefinition.unplaced <$> fieldDefinition) .braceR)
      .interface note := by
  simp only [typeOfWord, typeFrame, fieldDefinitions, ← map_annotations, ← map_optionalList, both]
  simp only [map_eq_pure_bind, bind_assoc, pure_bind]
  rfl

theorem typeOfWord_union : TypeDefinition.unplaced <$> typeOfWord note "union" =
    typeFrame (pure []) members (fun _ => .union) note := by
  simp only [typeOfWord, typeFrame, ← map_annotations, both]
  simp only [map_eq_pure_bind, bind_assoc, pure_bind]
  rfl

theorem typeOfWord_enum : TypeDefinition.unplaced <$> typeOfWord note "enum" =
    typeFrame (pure []) (optionalList .braceL (EnumValue.unplaced <$> enumValue) .braceR)
      (fun _ => .enum) note := by
  simp only [typeOfWord, typeFrame, ← map_annotations, ← map_optionalList, both]
  simp only [map_eq_pure_bind, bind_assoc, pure_bind]
  rfl

theorem typeOfWord_input : TypeDefinition.unplaced <$> typeOfWord note "input" =
    typeFrame (pure []) (optionalList .braceL (InputValue.unplaced <$> inputValue) .braceR)
      (fun _ => .input) note := by
  simp only [typeOfWord, typeFrame, ← map_annotations, ← map_optionalList, both]
  simp only [map_eq_pure_bind, bind_assoc, pure_bind]
  rfl

theorem typeOfWord_scalar : TypeDefinition.unplaced <$> typeOfWord note "scalar" =
    typeFrame (pure []) (pure ()) (fun _ _ => .scalar) note := by
  simp only [typeOfWord, typeFrame, ← map_annotations, both]
  simp only [map_eq_pure_bind, bind_assoc, pure_bind]
  congr! with key
  split
  case h_6 =>
    simp only [bind_assoc, pure_bind]
    rfl
  all_goals exact absurd ‹_› (by decide)

end Words

/-- A type is without places when its annotations and what it consists of are. -/
theorem unplaced_eq_self {type : TypeDefinition} : type.unplaced = type ↔
    type.directives.map placeless = type.annotations ∧ type.body.unplaced = type.body := by
  obtain ⟨note, key, notes, body⟩ := type
  simp [TypeDefinition.unplaced, TypeDefinition.directives, erasePlaces]

/-- The frame of a type is spelled as the type is when its body is. -/
theorem reads_typeFrame_of_body {β : Type} {body : Parser β}
    {SpellsAbove : List String → List Token → Prop} {SpellsBack : β → List Token → Prop}
    {above : Parser (List String)} {stops : Set Token} {make : List String → β → TypeBody}
    {note : Option Description} {word : String}
    (habove : Reads above SpellsAbove {.name "implements", .punct .amp})
    (hbody : Reads body SpellsBack stops)
    (hstarts : ∀ b tokens, SpellsBack b tokens → ∀ token, tokens.head? = some token →
      token = .punct .equals ∨ token = .punct .braceL) (hstops : stops ⊆ typeStops)
    (hmake : ∀ made front back, (∃ names b, made = make names b ∧ SpellsAbove names front ∧
        SpellsBack b back) ↔
      made.word = word ∧ made.unplaced = made ∧ made.Fits ∧
        SpellsListed (.name "implements") .amp made.interfaces front ∧ SpellsBody made back) :
    Reads (typeFrame above body make note) (SpellsTypeOfWord note word) typeStops := by
  refine (reads_typeFrame habove hbody hstarts hstops make note).congr fun type tokens => ?_
  obtain ⟨d, key, notes, made⟩ := type
  constructor
  · rintro ⟨names, b, front, back, hfront, hback, hnotes, htype, rfl⟩
    simp only [TypeDefinition.mk.injEq, true_and] at htype
    obtain ⟨rfl, hplaced, rfl⟩ := htype
    obtain ⟨hword, hmade, hfits, hfront, hback⟩ :=
      (hmake _ _ _).1 ⟨names, b, rfl, hfront, hback⟩
    exact ⟨rfl, hword, unplaced_eq_self.2 ⟨hplaced.symm, hmade⟩, ⟨hnotes, hfits⟩, front, back,
      hfront, hback, rfl⟩
  · rintro ⟨rfl, hword, hplaced, ⟨hnotes, hfits⟩, front, back, hfront, hback, rfl⟩
    obtain ⟨hplaced, hmade⟩ := unplaced_eq_self.1 hplaced
    obtain ⟨names, b, rfl, hfront, hback⟩ :=
      (hmake _ _ _).2 ⟨hword, hmade, hfits, hfront, hback⟩
    exact ⟨names, b, front, back, hfront, hback, hnotes, by rw [hplaced], rfl⟩

theorem reads_typeOfWord (note : Option Description) {word : String} (hword : word ∈ typeWords) :
    Reads (TypeDefinition.unplaced <$> typeOfWord note word) (SpellsTypeOfWord note word)
      typeStops := by
  have hnone : Reads (pure [] : Parser (List String)) (fun names tokens => names = [] ∧ tokens = [])
      {.name "implements", .punct .amp} := (reads_pure []).mono (by simp)
  have hbrace : ∀ {tokens : List Token} {opening closing token},
      (enclosed opening closing tokens).head? = some token → opening = .braceL →
      token = .punct .equals ∨ token = .punct .braceL := by
    rintro _ _ _ _ htoken rfl
    exact .inr (head?_enclosed _ _ _ _ htoken)
  have hno : ∀ front, SpellsListed (.name "implements") .amp [] front ↔ front = [] := by
    simp [SpellsListed, SpellsNames]
  simp only [typeWords, List.mem_cons, List.not_mem_nil, or_false] at hword
  rcases hword with rfl | rfl | rfl | rfl | rfl | rfl
  · rw [typeOfWord_scalar]
    refine reads_typeFrame_of_body hnone ((reads_pure ()).mono (Set.empty_subset _)) (by simp)
      (Set.empty_subset _) fun made front back => ?_
    cases made <;> simp [TypeBody.word, TypeBody.unplaced, TypeBody.Fits, TypeBody.interfaces,
      SpellsBody, TypeBody.tokens, hno]
  · rw [typeOfWord_type]
    refine reads_typeFrame_of_body reads_interfaces reads_fieldDefinitions ?_ (by simp [typeStops])
      fun made front back => ?_
    · rintro fields _ ⟨-, rfl⟩ token htoken
      exact hbrace htoken rfl
    · cases made <;> simp [TypeBody.word, TypeBody.unplaced, TypeBody.Fits, TypeBody.interfaces,
        SpellsBody, TypeBody.tokens, Exactly, map_eq_self]
      grind
  · rw [typeOfWord_interface]
    refine reads_typeFrame_of_body reads_interfaces reads_fieldDefinitions ?_ (by simp [typeStops])
      fun made front back => ?_
    · rintro fields _ ⟨-, rfl⟩ token htoken
      exact hbrace htoken rfl
    · cases made <;> simp [TypeBody.word, TypeBody.unplaced, TypeBody.Fits, TypeBody.interfaces,
        SpellsBody, TypeBody.tokens, Exactly, map_eq_self]
      grind
  · rw [typeOfWord_union]
    refine reads_typeFrame_of_body hnone reads_members ?_ (by simp [typeStops, Set.insert_subset_iff])
      fun made front back => ?_
    · rintro members _ (⟨back, -, rfl⟩ | ⟨-, rfl⟩) token htoken
      · exact .inl (Option.some.inj htoken).symm
      · cases htoken
    · cases made <;> simp [TypeBody.word, TypeBody.unplaced, TypeBody.Fits, TypeBody.interfaces,
        SpellsBody, TypeBody.tokens, hno]
  · rw [typeOfWord_enum]
    refine reads_typeFrame_of_body hnone reads_enumValues ?_ (by simp [typeStops])
      fun made front back => ?_
    · rintro values _ ⟨-, rfl⟩ token htoken
      exact hbrace htoken rfl
    · cases made <;> simp [TypeBody.word, TypeBody.unplaced, TypeBody.Fits, TypeBody.interfaces,
        SpellsBody, TypeBody.tokens, Exactly, map_eq_self, hno]
      grind
  · rw [typeOfWord_input]
    refine reads_typeFrame_of_body hnone (reads_inputs .braceL .braceR (by simp [variableStops])) ?_
      (by simp [typeStops]) fun made front back => ?_
    · rintro fields _ ⟨-, rfl⟩ token htoken
      exact hbrace htoken rfl
    · cases made <;> simp [TypeBody.word, TypeBody.unplaced, TypeBody.Fits, TypeBody.interfaces,
        SpellsBody, TypeBody.tokens, Exactly, map_eq_self, hno]
      grind

/-! ## Schema definitions -/

theorem rootType_eq : rootType = (fun x => ⟨x.1, x.2⟩) <$>
    both operationKind (behind (expectPunct .colon) name) := by
  simp only [rootType, both, behind, map_eq_pure_bind, bind_assoc, pure_bind]

theorem reads_rootType : Reads rootType (Exactly (fun _ => True) RootType.tokens) ∅ := by
  rw [rootType_eq]
  refine (reads_operationKind.both ∅ (reads_name.behind expectPunct_eq_ok)
    (by simp [StartsApart]) (by simp)).map fun root tokens => ?_
  constructor
  · rintro ⟨-, rfl⟩
    exact ⟨(root.kind, root.type), rfl, _, _, ⟨trivial, rfl⟩, ⟨_, rfl, rfl⟩, rfl⟩
  · rintro ⟨⟨kind, type⟩, rfl, _, _, ⟨-, rfl⟩, ⟨_, rfl, rfl⟩, rfl⟩
    exact ⟨trivial, rfl⟩

theorem separable_rootType :
    Separable (Exactly (fun _ => True) RootType.tokens) ∅ (.punct .braceR) where
  closing_free := Set.notMem_empty _
  starts := by
    rintro root _ ⟨-, rfl⟩
    exact ⟨_, _, rfl, Set.notMem_empty _, Token.noConfusion⟩

theorem schemaDefinition_eq : schemaDefinition =
    (fun x => .schema x.1 x.2.1 x.2.2) <$> both description? (behind (expectKeyword "schema")
      (both (directives true levels) (oneOrMore .braceL rootType .braceR))) := by
  simp only [schemaDefinition, both, behind, map_eq_pure_bind, bind_assoc, pure_bind]

theorem reads_schemaDefinition : Reads schemaDefinition
    (fun d tokens => ∃ note notes roots, d = .schema note notes roots ∧ SpellsSystem d tokens)
    ∅ := by
  have hroots : Reads (oneOrMore .braceL rootType .braceR) _ ∅ :=
    reads_rootType.oneOrMore separable_rootType
  simp only [each_exactly] at hroots
  have hnoted := (reads_directives true levels).both ∅ hroots
    (by
      rintro roots _ ⟨hne, _, ⟨-, rfl⟩, rfl⟩
      obtain ⟨root, roots, rfl⟩ := List.exists_cons_of_ne_nil hne
      simp [enclosed, RootType.tokens]) (by simp)
  have hall := reads_description?.both ∅
    (hnoted.behind (expectKeyword_eq_ok "schema"))
    (by
      rintro x _ ⟨_, -, rfl⟩
      simp [stringTokens, stringToken]) (by simp)
  rw [schemaDefinition_eq]
  refine hall.map fun d tokens => ?_
  constructor
  · rintro ⟨note, notes, roots, rfl, ⟨hnotes, hne⟩, rfl⟩
    refine ⟨(note, notes, roots), rfl, _, _, ⟨trivial, rfl⟩, ⟨_, ⟨_, _, ⟨hnotes, rfl⟩,
      ⟨hne, _, ⟨fun _ _ => trivial, rfl⟩, rfl⟩, rfl⟩, rfl⟩, ?_⟩
    simp [SystemDefinition.tokens, tokensOfRoots]
  · rintro ⟨⟨note, notes, roots⟩, rfl, _, _, ⟨-, rfl⟩, ⟨_, ⟨_, _, ⟨hnotes, rfl⟩,
      ⟨hne, _, ⟨-, rfl⟩, rfl⟩, rfl⟩, rfl⟩, rfl⟩
    refine ⟨note, notes, roots, rfl, ⟨hnotes, hne⟩, ?_⟩
    simp [SystemDefinition.tokens, tokensOfRoots]

/-! ## Definitions of types and directives -/

theorem reads_typeDefinition {word : String} (hword : word ∈ typeWords) :
    Reads (TypeDefinition.unplaced <$> typeDefinition word)
      (fun type tokens => type.body.word = word ∧ type.unplaced = type ∧
        SpellsSystem (.type type) tokens) typeStops := by
  have heq : TypeDefinition.unplaced <$> typeDefinition word =
      description? >>= fun note => behind (expectKeyword word)
        (TypeDefinition.unplaced <$> typeOfWord note word) := by
    simp only [typeDefinition, behind, map_eq_pure_bind, bind_assoc]
  rw [heq]
  refine (reads_description?.bind typeStops (fun note =>
    (reads_typeOfWord note hword).behind (expectKeyword_eq_ok word)) ?_
    (Set.Subset.refl _)).congr fun type tokens => ?_
  · rintro note type _ ⟨_, -, rfl⟩
    simp [stringTokens, stringToken]
  · constructor
    · rintro ⟨_, _, _, ⟨-, rfl⟩, ⟨back, ⟨rfl, rfl, hplaced, hback⟩, rfl⟩, rfl⟩
      exact ⟨rfl, hplaced, back, hback, rfl⟩
    · rintro ⟨rfl, hplaced, back, hback, rfl⟩
      exact ⟨_, _, _, ⟨trivial, rfl⟩, ⟨back, ⟨rfl, rfl, hplaced, hback⟩, rfl⟩, rfl⟩

theorem reads_directiveLocation : Reads directiveLocation
    (Exactly (· ∈ directiveLocations) fun text => [.name text]) ∅ where
  sound := by
    intro stream rest text _ hok
    unfold directiveLocation at hok
    cases hname : name stream with
    | error fault =>
      rw [hname] at hok
      cases hok
    | ok found =>
      obtain ⟨word, behind⟩ := found
      simp only [hname] at hok
      split at hok
      · next hmem =>
        cases hok
        exact ⟨_, ⟨hmem, rfl⟩, name_eq_ok.1 hname⟩
      · cases hok
  complete := by
    rintro stream rest text _ ⟨hmem, rfl⟩ hleads hrest -
    simp [directiveLocation, name_eq_ok.2 ⟨hleads, hrest⟩, hmem]

theorem directiveDefinition_eq : DirectiveDefinition.unplaced <$> directiveDefinition =
    (fun x => ⟨x.1, x.2.1.1.1, x.2.1.1.2, x.2.1.2, x.2.2⟩) <$>
      both description? (both (both (both
        (behind (expectKeyword "directive") (behind (expectPunct .at) name))
        (optionalList .parenL (InputValue.unplaced <$> inputValue) .parenR))
        (skipKeyword "repeatable"))
        (behind (expectKeyword "on") (separated .pipe directiveLocation))) := by
  simp only [directiveDefinition, ← map_optionalList, both, behind]
  simp only [map_eq_pure_bind, bind_assoc, pure_bind]
  rfl

theorem reads_directiveDefinition : Reads (DirectiveDefinition.unplaced <$> directiveDefinition)
    (fun d tokens => d.unplaced = d ∧ SpellsSystem (.directive d) tokens) {.punct .pipe} := by
  have hname : Reads (behind (expectKeyword "directive") (behind (expectPunct .at) name))
      (Exactly (fun _ => True) fun text => [.name "directive", .punct .at, .name text]) ∅ :=
    ((reads_name.behind expectPunct_eq_ok).behind (expectKeyword_eq_ok _)).congr
      fun text tokens => by simp [Exactly]
  have hgiven := hname.both {.punct .parenL}
    (reads_inputs .parenL .parenR (by simp [variableStops])) (by simp [StartsApart]) (by simp)
  have hmarked := hgiven.both {.punct .parenL, .name "repeatable"}
    (reads_skipKeyword "repeatable")
    (by
      rintro found _ rfl
      cases found <;> simp) (by simp)
  have hplaced := hmarked.both {.punct .pipe}
    ((reads_separated .pipe reads_directiveLocation).behind (expectKeyword_eq_ok "on"))
    (by
      rintro names _ ⟨_, -, rfl⟩
      simp) (by simp)
  have hall := reads_description?.both {.punct .pipe} hplaced
    (by
      rintro x _ ⟨_, _, ⟨_, _, ⟨_, _, ⟨-, rfl⟩, -, rfl⟩, -, rfl⟩, -, rfl⟩
      simp [stringTokens, stringToken]) (by simp)
  rw [directiveDefinition_eq]
  refine hall.map fun d tokens => ?_
  constructor
  · rintro ⟨hplaced, hfits, back, hback, rfl⟩
    have hinputs := map_eq_self.1 (congrArg DirectiveDefinition.arguments hplaced)
    refine ⟨(d.description, ((d.name, d.arguments), d.isRepeatable), d.locations), rfl, _, _,
      ⟨trivial, rfl⟩, ⟨_, _, ⟨_, _, ⟨_, _, ⟨trivial, rfl⟩,
      ⟨fun input hmem => ⟨hfits.arguments input hmem, hinputs input hmem⟩, rfl⟩, rfl⟩, rfl, rfl⟩,
      ⟨back, hback, rfl⟩, rfl⟩, ?_⟩
    simp
  · rintro ⟨⟨note, ⟨⟨key, inputs⟩, found⟩, locations⟩, rfl, _, _, ⟨-, rfl⟩, ⟨_, _, ⟨_, _, ⟨_, _,
      ⟨-, rfl⟩, ⟨hinputs, rfl⟩, rfl⟩, rfl, rfl⟩, ⟨back, hback, rfl⟩, rfl⟩, rfl⟩
    refine ⟨?_, ⟨fun input hmem => (hinputs input hmem).1, hback.1, hback.2.1⟩, back, hback, ?_⟩
    · simpa [DirectiveDefinition.unplaced, map_eq_self] using
        fun input hmem => (hinputs input hmem).2
    · simp

/-! ## Extensions -/

namespace Parser

/-- The extension of a schema, from the first word on. -/
def extendSchema : Parser SystemDefinition := do
  expectKeyword "extend"
  expectKeyword "schema"
  let notes ← directives true levels
  let roots ← optionalList .braceL rootType .braceR
  if notes.isEmpty && roots.isEmpty then unexpected
  return .extendSchema notes roots

/-- The extension of a type, from the first word on. -/
def extendType (word : String) : Parser SystemDefinition := do
  expectKeyword "extend"
  expectKeyword word
  let addition ← typeOfWord none word
  if isAddition addition then return .extendType addition else unexpected

end Parser

theorem extendSchema_eq : extendSchema =
    (fun x => .extendSchema x.1 x.2) <$>
      ((behind (expectKeyword "extend") (behind (expectKeyword "schema")
        (both (directives true levels) (optionalList .braceL rootType .braceR)))) >>=
        fun x => if !(x.1.isEmpty && x.2.isEmpty) then pure x else unexpected) := by
  simp only [extendSchema, both, behind, map_eq_pure_bind, bind_assoc, pure_bind]
  congr! with _ notes roots
  cases notes <;> cases roots <;> simp
  rfl

/-- What follows the extension of a schema must not be what could continue it. -/
def extendSchemaStops : Set Token := {.punct .at, .punct .parenL, .punct .braceL}

theorem reads_extendSchema : Reads extendSchema
    (fun d tokens => ∃ notes roots, d = .extendSchema notes roots ∧ SpellsSystem d tokens)
    extendSchemaStops := by
  have hroots : Reads (optionalList .braceL rootType .braceR) _ {.punct .braceL} :=
    reads_rootType.listed separable_rootType
  have hnoted := (reads_directives true levels).both extendSchemaStops hroots
    (by
      rintro roots _ ⟨-, rfl⟩
      refine ⟨fun token htoken => ?_, fun _ => ?_⟩
      · rw [head?_enclosed _ _ _ token htoken]
        simp
      · simp [extendSchemaStops, Set.insert_subset_iff]) (by simp [extendSchemaStops])
  have hall := ((hnoted.behind (expectKeyword_eq_ok "schema")).behind
    (expectKeyword_eq_ok "extend")).checked
    fun x => !(x.1.isEmpty && x.2.isEmpty)
  rw [extendSchema_eq]
  refine hall.map fun d tokens => ?_
  constructor
  · rintro ⟨notes, roots, rfl, ⟨hnotes, hne⟩, rfl⟩
    refine ⟨(notes, roots), rfl, ?_, _, ⟨_, ⟨_, _, ⟨hnotes, rfl⟩, ⟨fun _ _ => trivial, rfl⟩, rfl⟩,
      rfl⟩, ?_⟩
    · simpa [imp_iff_not_or] using hne
    · simp [SystemDefinition.tokens, tokensOfRoots]
  · rintro ⟨⟨notes, roots⟩, rfl, hne, _, ⟨_, ⟨_, _, ⟨hnotes, rfl⟩, ⟨-, rfl⟩, rfl⟩, rfl⟩, rfl⟩
    refine ⟨notes, roots, rfl, ⟨hnotes, ?_⟩, ?_⟩
    · simpa [imp_iff_not_or] using hne
    · simp [SystemDefinition.tokens, tokensOfRoots]

/-- Whether an extension adds something does not depend on places. -/
theorem isAddition_unplaced (addition : TypeDefinition) :
    isAddition addition.unplaced = isAddition addition := by
  obtain ⟨note, key, notes, body⟩ := addition
  have hnotes : (erasePlaces notes).isEmpty = notes.isEmpty := by
    simp [erasePlaces, withoutPlaces]
  cases body <;>
    simp [isAddition, TypeDefinition.unplaced, TypeBody.unplaced, hnotes]

theorem extendType_eq (word : String) : SystemDefinition.unplaced <$> extendType word =
    SystemDefinition.extendType <$> ((behind (expectKeyword "extend") (behind (expectKeyword word)
      (TypeDefinition.unplaced <$> typeOfWord none word))) >>=
        fun addition => if isAddition addition then pure addition else unexpected) := by
  simp only [extendType, behind, map_eq_pure_bind, bind_assoc, pure_bind, isAddition_unplaced]
  congr! with _ addition
  cases isAddition addition <;> rfl

theorem reads_extendType {word : String} (hword : word ∈ typeWords) :
    Reads (SystemDefinition.unplaced <$> extendType word)
      (fun d tokens => ∃ addition, d = .extendType addition ∧ addition.body.word = word ∧
        addition.unplaced = addition ∧ SpellsSystem d tokens) typeStops := by
  have hall := (((reads_typeOfWord none hword).behind (expectKeyword_eq_ok word)).behind
    (expectKeyword_eq_ok "extend")).checked isAddition
  rw [extendType_eq]
  refine hall.map fun d tokens => ?_
  constructor
  · rintro ⟨addition, rfl, rfl, hplaced, hnote, hadds, back, hback, rfl⟩
    exact ⟨addition, rfl, hadds, _, ⟨back, ⟨hnote, rfl, hplaced, hback⟩, rfl⟩, rfl⟩
  · rintro ⟨addition, rfl, hadds, _, ⟨back, ⟨hnote, rfl, hplaced, hback⟩, rfl⟩, rfl⟩
    exact ⟨addition, rfl, rfl, hplaced, hnote, hadds, back, hback, rfl⟩

end PersistedQueries.GraphQL
