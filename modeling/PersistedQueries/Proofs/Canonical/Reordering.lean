import Mathlib.Logic.Relation
import PersistedQueries.GraphQL.Canonical

/-!
# Reordered documents

What may change places in a document without changing what it asks for, one relation for each
part of a document. Each relation is one reordering; `Equivalent` is any number of them.

- `ArgumentsReordered`: arguments in another order, where no name comes twice.
- `DirectivesReordered`: directives in another order, those of one name in the same order; or
  the arguments of one directive reordered.
- `SelectionsReordered`: selections in another order, at any depth, unless the order is kept; or
  the arguments or directives of one selection reordered, at any depth.
- `DefinitionReordered`: a reordering within an operation or a fragment. The selections of a
  mutation keep their order, at every depth.
- `Reordered`: a reordering within a definition, or of the definitions themselves.
- `Reordered.addTypename`: selecting the names of types turns a reordering into a reordering.
-/

namespace PersistedQueries.GraphQL

/-! ## Arguments and directives -/

/-- Arguments in another order. No name comes twice. -/
structure ArgumentsReordered (given given' : List Argument) : Prop where
  perm : given.Perm given'
  distinct : (given.map Argument.name).Nodup

/-- Directives in another order, or the arguments of one of them reordered. -/
inductive DirectivesReordered : List Directive → List Directive → Prop where
  /-- Directives of one name keep their order. -/
  | order {notes notes' : List Directive} (perm : notes.Perm notes')
      (kept : ∀ name, notes.filter (·.name = name) = notes'.filter (·.name = name)) :
      DirectivesReordered notes notes'
  | arguments (front back : List Directive) (name : String) {given given' : List Argument}
      (h : ArgumentsReordered given given') :
      DirectivesReordered (front ++ ⟨name, given⟩ :: back) (front ++ ⟨name, given'⟩ :: back)

/-- A reordering keeps the names of directives. -/
theorem DirectivesReordered.mem_names {notes notes' : List Directive}
    (h : DirectivesReordered notes notes') (name : String) :
    name ∈ notes.map Directive.name ↔ name ∈ notes'.map Directive.name := by
  cases h with
  | order perm _ => exact (perm.map Directive.name).mem_iff
  | arguments front back name h => simp

/-! ## Selections -/

/-- The arguments or the directives of a selection reordered. -/
inductive NodeReordered : Selection → Selection → Prop where
  | arguments {label : Option String} {name : String} {given given' : List Argument}
      {notes : List Directive} {below : List Selection} (h : ArgumentsReordered given given') :
      NodeReordered (.field label name given notes below) (.field label name given' notes below)
  | field {label : Option String} {name : String} {given : List Argument}
      {notes notes' : List Directive} {below : List Selection}
      (h : DirectivesReordered notes notes') :
      NodeReordered (.field label name given notes below) (.field label name given notes' below)
  | spread {name : String} {notes notes' : List Directive} (h : DirectivesReordered notes notes') :
      NodeReordered (.spread name notes) (.spread name notes')
  | inline {condition : Option String} {notes notes' : List Directive} {below : List Selection}
      (h : DirectivesReordered notes notes') :
      NodeReordered (.inline condition notes below) (.inline condition notes' below)

/-- A reordering within a selection set, at any depth. Where the order is kept, the selections
stay in their places. -/
inductive SelectionsReordered (keepOrder : Bool) : List Selection → List Selection → Prop where
  | order {selections selections' : List Selection} (free : keepOrder = false)
      (perm : selections.Perm selections') : SelectionsReordered keepOrder selections selections'
  | node (front back : List Selection) {selection selection' : Selection}
      (h : NodeReordered selection selection') :
      SelectionsReordered keepOrder (front ++ selection :: back) (front ++ selection' :: back)
  | field (front back : List Selection) (label : Option String) (name : String)
      (given : List Argument) (notes : List Directive) {below below' : List Selection}
      (h : SelectionsReordered keepOrder below below') :
      SelectionsReordered keepOrder (front ++ .field label name given notes below :: back)
        (front ++ .field label name given notes below' :: back)
  | inline (front back : List Selection) (condition : Option String) (notes : List Directive)
      {below below' : List Selection} (h : SelectionsReordered keepOrder below below') :
      SelectionsReordered keepOrder (front ++ .inline condition notes below :: back)
        (front ++ .inline condition notes below' :: back)

/-! ## Definitions and documents -/

/-- The variables of an operation in another order, where no name comes twice, or the directives
of one of them reordered. -/
inductive ParametersReordered : List VariableDefinition → List VariableDefinition → Prop where
  | order {parameters parameters' : List VariableDefinition} (perm : parameters.Perm parameters')
      (distinct : (parameters.map VariableDefinition.name).Nodup) :
      ParametersReordered parameters parameters'
  | directives (front back : List VariableDefinition) (parameter : VariableDefinition)
      {notes' : List Directive} (h : DirectivesReordered parameter.directives notes') :
      ParametersReordered (front ++ parameter :: back)
        (front ++ { parameter with directives := notes' } :: back)

/-- A reordering within an operation or a fragment. -/
inductive DefinitionReordered : Definition → Definition → Prop where
  | parameters {operation : Operation} {parameters' : List VariableDefinition}
      (h : ParametersReordered operation.parameters parameters') :
      DefinitionReordered (.operation operation)
        (.operation { operation with parameters := parameters' })
  | operationDirectives {operation : Operation} {notes' : List Directive}
      (h : DirectivesReordered operation.directives notes') :
      DefinitionReordered (.operation operation)
        (.operation { operation with directives := notes' })
  | operationSelections {operation : Operation} {selections' : List Selection}
      (h : SelectionsReordered (operation.kind = .mutation) operation.selections selections') :
      DefinitionReordered (.operation operation)
        (.operation { operation with selections := selections' })
  | fragmentDirectives {fragment : Fragment} {notes' : List Directive}
      (h : DirectivesReordered fragment.directives notes') :
      DefinitionReordered (.fragment fragment) (.fragment { fragment with directives := notes' })
  | fragmentSelections {fragment : Fragment} {selections' : List Selection}
      (h : SelectionsReordered false fragment.selections selections') :
      DefinitionReordered (.fragment fragment)
        (.fragment { fragment with selections := selections' })

/-- The definition is an operation or a fragment. -/
def Definition.IsExecutable : Definition → Prop
  | .system _ => False
  | _ => True

/-- The name of an operation; one without a name counts as named by the empty text. -/
def Definition.operationName? : Definition → Option String
  | .operation op => some (op.name.getD "")
  | _ => none

/-- The name of a fragment. -/
def Definition.fragmentName? : Definition → Option String
  | .fragment frag => some frag.name
  | _ => none

/-- One reordering of a document. -/
inductive Reordered : Document → Document → Prop where
  /-- The definitions of an executable document in another order. No two operations and no two
  fragments have one name. -/
  | order {document document' : Document} (perm : document.Perm document')
      (executable : ∀ definition ∈ document, definition.IsExecutable)
      (operations : (document.filterMap Definition.operationName?).Nodup)
      (fragments : (document.filterMap Definition.fragmentName?).Nodup) :
      Reordered document document'
  | definition (front back : Document) {definition definition' : Definition}
      (h : DefinitionReordered definition definition') :
      Reordered (front ++ definition :: back) (front ++ definition' :: back)

/-- Documents that come from each other by any number of reorderings. -/
def Equivalent : Document → Document → Prop := Relation.ReflTransGen Reordered

/-! ## Names of types

The name of a type is selected at the end of a selection set, and whether it is selected hangs on
what stands in the set and above it, not on the order. -/

theorem addTypenameToEach_eq_map (selections : List Selection) :
    addTypenameToEach selections = selections.map addTypenameTo := by
  induction selections with
  | nil => rfl
  | cons selection rest ih => rw [addTypenameToEach, ih, List.map_cons]

@[simp] theorem isReservedField_addTypenameTo (selection : Selection) :
    (addTypenameTo selection).isReservedField = selection.isReservedField := by
  cases selection <;> rfl

theorem NodeReordered.isReservedField_eq {selection selection' : Selection}
    (h : NodeReordered selection selection') :
    selection.isReservedField = selection'.isReservedField := by
  cases h <;> rfl

/-- A reordering keeps whether a field of introspection is selected. -/
theorem SelectionsReordered.any_isReservedField {keepOrder : Bool}
    {selections selections' : List Selection}
    (h : SelectionsReordered keepOrder selections selections') :
    selections.any Selection.isReservedField = selections'.any Selection.isReservedField := by
  cases h with
  | order _ perm => exact perm.any_eq
  | node front back h => simp [h.isReservedField_eq]
  | field front back label name given notes h => simp [Selection.isReservedField]
  | inline front back condition notes h => simp [Selection.isReservedField]

/-- A reordering neither empties a selection set nor fills it. -/
theorem SelectionsReordered.isEmpty_eq {keepOrder : Bool} {selections selections' : List Selection}
    (h : SelectionsReordered keepOrder selections selections') :
    selections.isEmpty = selections'.isEmpty := by
  cases h with
  | order _ perm => exact perm.isEmpty_eq
  | node front | field front | inline front => cases front <;> rfl

/-- A reordering stays one when more selections follow. -/
theorem SelectionsReordered.append {keepOrder : Bool} {selections selections' : List Selection}
    (h : SelectionsReordered keepOrder selections selections') (more : List Selection) :
    SelectionsReordered keepOrder (selections ++ more) (selections' ++ more) := by
  cases h with
  | order free perm => exact .order free (perm.append_right more)
  | node front back h => simpa using .node front (back ++ more) h
  | field front back label name given notes h =>
    simpa using .field front (back ++ more) label name given notes h
  | inline front back condition notes h =>
    simpa using .inline front (back ++ more) condition notes h

theorem SelectionsReordered.withTypename {keepOrder : Bool}
    {selections selections' : List Selection}
    (h : SelectionsReordered keepOrder selections selections') :
    SelectionsReordered keepOrder (withTypename selections) (withTypename selections') := by
  unfold GraphQL.withTypename
  rw [← h.any_isReservedField]
  split
  · exact h
  · exact h.append [typenameField]

/-- Whether a field is exempt hangs on the names of its directives. -/
theorem DirectivesReordered.isExempt_eq {notes notes' : List Directive}
    (h : DirectivesReordered notes notes') (name : String) :
    isExempt name notes = isExempt name notes' := by
  have hexport : (notes.any fun note => note.name = "export") =
      notes'.any fun note => note.name = "export" := by
    rw [Bool.eq_iff_iff]
    simpa [List.any_eq_true] using h.mem_names "export"
  unfold isExempt
  rw [hexport]

theorem NodeReordered.addTypename {selection selection' : Selection}
    (h : NodeReordered selection selection') :
    NodeReordered (addTypenameTo selection) (addTypenameTo selection') := by
  cases h with
  | arguments h => exact .arguments h
  | field h =>
    rw [addTypenameTo, addTypenameTo, ← h.isExempt_eq]
    exact .field h
  | spread h => exact .spread h
  | inline h => exact .inline h

/-- Selecting the names of types keeps the selection sets of a reordering apart by one
reordering. -/
theorem SelectionsReordered.addTypename {keepOrder : Bool} {selections selections' : List Selection}
    (h : SelectionsReordered keepOrder selections selections') :
    SelectionsReordered keepOrder (addTypenameToEach selections)
      (addTypenameToEach selections') := by
  induction h with
  | order free perm =>
    rw [addTypenameToEach_eq_map, addTypenameToEach_eq_map]
    exact .order free (perm.map addTypenameTo)
  | node front back h =>
    simp only [addTypenameToEach_eq_map, List.map_append, List.map_cons]
    exact .node _ _ h.addTypename
  | field front back label name given notes h ih =>
    rw [addTypenameToEach_eq_map, addTypenameToEach_eq_map]
    simp only [List.map_append, List.map_cons, addTypenameTo, ← h.isEmpty_eq]
    -- an exempt field and one without selections keep their sets as they are
    split
    · exact .field _ _ label name given notes ih
    · exact .field _ _ label name given notes ih.withTypename
  | inline front back condition notes h ih =>
    rw [addTypenameToEach_eq_map, addTypenameToEach_eq_map]
    simp only [List.map_append, List.map_cons, addTypenameTo]
    exact .inline _ _ condition notes ih.withTypename

theorem DefinitionReordered.addTypename {definition definition' : Definition}
    (h : DefinitionReordered definition definition') :
    DefinitionReordered (addTypenameToDefinition definition)
      (addTypenameToDefinition definition') := by
  cases h with
  | parameters h => exact .parameters h
  | operationDirectives h => exact .operationDirectives h
  | operationSelections h => exact .operationSelections h.addTypename
  | fragmentDirectives h => exact .fragmentDirectives h
  | fragmentSelections h => exact .fragmentSelections h.addTypename.withTypename

@[simp] theorem operationName?_addTypename (definition : Definition) :
    (addTypenameToDefinition definition).operationName? = definition.operationName? := by
  cases definition <;> rfl

@[simp] theorem fragmentName?_addTypename (definition : Definition) :
    (addTypenameToDefinition definition).fragmentName? = definition.fragmentName? := by
  cases definition <;> rfl

/-- Selecting the names of types turns a reordering into a reordering. -/
theorem Reordered.addTypename {document document' : Document} (h : Reordered document document') :
    Reordered (addTypename document) (addTypename document') := by
  cases h with
  | order perm executable operations fragments =>
    refine .order (perm.map _) ?_ ?_ ?_
    · rintro definition hdefinition
      obtain ⟨plain, hplain, rfl⟩ := List.mem_map.1 hdefinition
      have := executable plain hplain
      cases plain <;> exact this
    · simpa [GraphQL.addTypename, List.filterMap_map, Function.comp_def] using operations
    · simpa [GraphQL.addTypename, List.filterMap_map, Function.comp_def] using fragments
  | definition front back h =>
    simp only [GraphQL.addTypename, List.map_append, List.map_cons]
    exact .definition _ _ h.addTypename

/-- Selecting the names of types keeps documents equivalent. -/
theorem Equivalent.addTypename {document document' : Document} (h : Equivalent document document') :
    Equivalent (addTypename document) (addTypename document') :=
  h.lift GraphQL.addTypename fun _ _ => Reordered.addTypename

end PersistedQueries.GraphQL
