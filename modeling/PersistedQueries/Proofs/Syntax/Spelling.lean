import PersistedQueries.GraphQL.Canonical

/-!
# How documents are spelled

A document that was parsed can be written down again from its tree: each part of it has its tokens
in a fixed order. Only few trees come from a text, because names are not everywhere free, selection
sets are never empty and nesting is bounded; `Fits` says which.

- `Value.tokens`, `Directive.tokens`, `TypeRef.tokens`, `Selection.tokens`, `Operation.tokens`,
  `Fragment.tokens`: the tokens of a part of a document.
- `enclosed`: tokens between punctuators, left out with them when there are none.
- `Value.Fits`, `TypeRef.Fits`, `Selection.Fits` and the like: the parts that a parser can come to
  when brackets may still nest so many levels.
-/

namespace PersistedQueries.GraphQL

/-- Tokens between punctuators, or nothing when there are none. -/
def enclosed (opening closing : Punctuator) (tokens : List Token) : List Token :=
  if tokens = [] then [] else .punct opening :: tokens ++ [.punct closing]

@[simp] theorem enclosed_nil (opening closing : Punctuator) : enclosed opening closing [] = [] := rfl

theorem head?_enclosed (opening closing : Punctuator) (tokens : List Token) :
    ∀ token, (enclosed opening closing tokens).head? = some token → token = .punct opening := by
  intro token htoken
  unfold enclosed at htoken
  split at htoken
  · cases htoken
  · exact (Option.some.inj htoken).symm

/-! ## Values and types -/

/-- The token of a string. -/
def stringToken (content : String) (isBlock : Bool) : Token :=
  if isBlock then .block content else .string content

mutual

/-- The tokens of a value. -/
def Value.tokens : Value → List Token
  | .variable name => [.punct .dollar, .name name]
  | .int text => [.int text]
  | .float text => [.float text]
  | .string content isBlock => [stringToken content isBlock]
  | .boolean value => [.name (if value then "true" else "false")]
  | .null => [.name "null"]
  | .enum name => [.name name]
  | .list items => .punct .bracketL :: tokensOfValues items ++ [.punct .bracketR]
  | .object fields => .punct .braceL :: tokensOfFields fields ++ [.punct .braceR]

/-- The tokens of the items of a list. -/
def tokensOfValues : List Value → List Token
  | [] => []
  | value :: rest => value.tokens ++ tokensOfValues rest

/-- The tokens of the fields of an input object. -/
def tokensOfFields : List (String × Value) → List Token
  | [] => []
  | (name, value) :: rest => .name name :: .punct .colon :: value.tokens ++ tokensOfFields rest

end

/-- The tokens of a field of an input object. -/
def fieldTokens (field : String × Value) : List Token :=
  .name field.1 :: .punct .colon :: field.2.tokens

theorem tokensOfValues_eq (items : List Value) :
    tokensOfValues items = items.flatMap Value.tokens := by
  induction items with
  | nil => rfl
  | cons value rest ih => rw [tokensOfValues, ih, List.flatMap_cons]

theorem tokensOfFields_eq (fields : List (String × Value)) :
    tokensOfFields fields = fields.flatMap fieldTokens := by
  induction fields with
  | nil => rfl
  | cons field rest ih =>
    obtain ⟨name, value⟩ := field
    rw [tokensOfFields, ih, List.flatMap_cons]
    rfl

/-- The words that are values of their own. -/
def valueWords : List String := ["true", "false", "null"]

/-- The values that are read when lists and objects may nest so many levels. A constant one
mentions no variable. -/
inductive Value.Fits (isConst : Bool) : (levels : Nat) → Value → Prop where
  | mention {levels : Nat} {name : String} (h : isConst = false) : Fits isConst levels (.variable name)
  | int {levels : Nat} {text : String} : Fits isConst levels (.int text)
  | float {levels : Nat} {text : String} : Fits isConst levels (.float text)
  | string {levels : Nat} {content : String} {isBlock : Bool} :
      Fits isConst levels (.string content isBlock)
  | boolean {levels : Nat} {value : Bool} : Fits isConst levels (.boolean value)
  | null {levels : Nat} : Fits isConst levels .null
  | enum {levels : Nat} {name : String} (h : name ∉ valueWords) : Fits isConst levels (.enum name)
  | list {levels : Nat} {items : List Value} (h : ∀ value ∈ items, Fits isConst levels value) :
      Fits isConst (levels + 1) (.list items)
  | object {levels : Nat} {fields : List (String × Value)}
      (h : ∀ field ∈ fields, Fits isConst levels field.2) : Fits isConst (levels + 1) (.object fields)

/-- The tokens of a reference to a type. -/
def TypeRef.tokens : TypeRef → List Token
  | .named name => [.name name]
  | .list item => .punct .bracketL :: item.tokens ++ [.punct .bracketR]
  | .nonNull type => type.tokens ++ [.punct .bang]

/-- The references that are read when list types may nest so many levels. -/
inductive TypeRef.Fits : (levels : Nat) → TypeRef → Prop where
  | named {levels : Nat} {name : String} : Fits levels (.named name)
  | list {levels : Nat} {item : TypeRef} (h : Fits levels item) : Fits (levels + 1) (.list item)
  | nonNull {levels : Nat} {type : TypeRef} (h : Fits levels type)
      (hplain : ∀ inner, type ≠ .nonNull inner) : Fits levels (.nonNull type)

/-! ## Arguments, directives and descriptions -/

/-- The tokens of an argument. -/
def Argument.tokens (argument : Argument) : List Token :=
  .name argument.name :: .punct .colon :: argument.value.tokens

/-- The value of an argument is one that is read. -/
def Argument.Fits (isConst : Bool) (levels : Nat) (argument : Argument) : Prop :=
  argument.value.Fits isConst levels

/-- The tokens of the arguments of a field or a directive. -/
def tokensOfArguments (arguments : List Argument) : List Token :=
  enclosed .parenL .parenR (arguments.flatMap Argument.tokens)

/-- The tokens of a directive. -/
def Directive.tokens (directive : Directive) : List Token :=
  .punct .at :: .name directive.name :: tokensOfArguments directive.arguments

/-- The arguments of a directive are some that are read. -/
def Directive.Fits (isConst : Bool) (levels : Nat) (directive : Directive) : Prop :=
  ∀ argument ∈ directive.arguments, argument.Fits isConst levels

/-- The tokens of directives. -/
def tokensOfDirectives (directives : List Directive) : List Token :=
  directives.flatMap Directive.tokens

/-- The string in front of a definition. -/
def tokensOfDescription (description : Option Description) : List Token :=
  description.elim [] fun d => [stringToken d.content d.isBlock]

/-! ## Selections -/

/-- The label of a field. -/
def tokensOfLabel (label : Option String) : List Token :=
  label.elim [] fun label => [.name label, .punct .colon]

/-- The type condition of an inline fragment. -/
def tokensOfCondition (condition : Option String) : List Token :=
  condition.elim [] fun name => [.name "on", .name name]

mutual

/-- The tokens of a selection with those below it. -/
def Selection.tokens : Selection → List Token
  | .field label name arguments directives selections =>
    tokensOfLabel label ++ [.name name] ++ tokensOfArguments arguments ++
      tokensOfDirectives directives ++ enclosed .braceL .braceR (tokensOfEach selections)
  | .spread name directives => [.punct .spread, .name name] ++ tokensOfDirectives directives
  | .inline condition directives selections =>
    [.punct .spread] ++ tokensOfCondition condition ++ tokensOfDirectives directives ++
      enclosed .braceL .braceR (tokensOfEach selections)

/-- The tokens of selections. -/
def tokensOfEach : List Selection → List Token
  | [] => []
  | selection :: rest => selection.tokens ++ tokensOfEach rest

end

theorem tokensOfEach_eq (selections : List Selection) :
    tokensOfEach selections = selections.flatMap Selection.tokens := by
  induction selections with
  | nil => rfl
  | cons selection rest ih => rw [tokensOfEach, ih, List.flatMap_cons]

/-- The tokens of a selection set. -/
def tokensOfSelections (selections : List Selection) : List Token :=
  enclosed .braceL .braceR (selections.flatMap Selection.tokens)

/-- The selections that are read when selection sets may nest so many levels. The values within
them may nest as deep. -/
inductive Selection.Fits : (levels : Nat) → Selection → Prop where
  | field {levels : Nat} {label : Option String} {name : String} {given : List Argument}
      {notes : List Directive} {below : List Selection}
      (hgiven : ∀ argument ∈ given, argument.Fits false levels)
      (hnotes : ∀ note ∈ notes, note.Fits false levels) (hlevels : below ≠ [] → 0 < levels)
      (hbelow : ∀ selection ∈ below, Fits (levels - 1) selection) :
      Fits levels (.field label name given notes below)
  | spread {levels : Nat} {name : String} {notes : List Directive} (hname : name ≠ "on")
      (hnotes : ∀ note ∈ notes, note.Fits false levels) : Fits levels (.spread name notes)
  | inline {levels : Nat} {condition : Option String} {notes : List Directive}
      {below : List Selection} (hnotes : ∀ note ∈ notes, note.Fits false levels)
      (hlevels : 0 < levels) (hne : below ≠ [])
      (hbelow : ∀ selection ∈ below, Fits (levels - 1) selection) :
      Fits levels (.inline condition notes below)

/-- The selection sets that are read when they may nest so many levels. -/
structure SelectionSetFits (levels : Nat) (selections : List Selection) : Prop where
  ne_nil : selections ≠ []
  levels_pos : 0 < levels
  each : ∀ selection ∈ selections, selection.Fits (levels - 1)

/-! ## Operations and fragments -/

/-- The default value of a variable. -/
def tokensOfDefault (value? : Option Value) : List Token :=
  value?.elim [] fun value => .punct .equals :: value.tokens

/-- The tokens of a variable of an operation. -/
def VariableDefinition.tokens (v : VariableDefinition) : List Token :=
  tokensOfDescription v.description ++ [.punct .dollar, .name v.name, .punct .colon] ++
    v.type.tokens ++ tokensOfDefault v.defaultValue ++ tokensOfDirectives v.directives

/-- The variables that are read. -/
structure VariableDefinition.Fits (v : VariableDefinition) : Prop where
  type : v.type.Fits Parser.levels
  defaultValue : ∀ value, v.defaultValue = some value → value.Fits true Parser.levels
  directives : ∀ directive ∈ v.directives, directive.Fits true Parser.levels

/-- The tokens of an operation, which begins with the word for its kind. -/
def Operation.tokens (operation : Operation) : List Token :=
  tokensOfDescription operation.description ++ [.name operation.kind.word] ++
    operation.name.elim [] (fun name => [.name name]) ++
    enclosed .parenL .parenR (operation.parameters.flatMap VariableDefinition.tokens) ++
    tokensOfDirectives operation.directives ++ tokensOfSelections operation.selections

/-- The operations that are read. -/
structure Operation.Fits (operation : Operation) : Prop where
  parameters : ∀ v ∈ operation.parameters, v.Fits
  directives : ∀ directive ∈ operation.directives, directive.Fits false Parser.levels
  selections : SelectionSetFits Parser.levels operation.selections

/-- An operation that is nothing but a selection set. -/
def Operation.IsShorthand (operation : Operation) : Prop :=
  operation = ⟨none, .query, none, [], [], operation.selections⟩

/-- The tokens of a fragment. -/
def Fragment.tokens (fragment : Fragment) : List Token :=
  tokensOfDescription fragment.description ++
    [.name "fragment", .name fragment.name, .name "on", .name fragment.condition] ++
    tokensOfDirectives fragment.directives ++ tokensOfSelections fragment.selections

/-- The fragments that are read. -/
structure Fragment.Fits (fragment : Fragment) : Prop where
  name_ne : fragment.name ≠ "on"
  directives : ∀ directive ∈ fragment.directives, directive.Fits false Parser.levels
  selections : SelectionSetFits Parser.levels fragment.selections

end PersistedQueries.GraphQL
