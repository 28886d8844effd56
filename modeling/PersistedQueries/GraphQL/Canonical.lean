import PersistedQueries.GraphQL.Parser.System
import PersistedQueries.GraphQL.Printer
import PersistedQueries.Text.Blank

/-!
# The canonical form of a document

Two documents that differ only in layout and in the order of what may be reordered have one
canonical text.

- `sortOn`: the stable sort of a list by a key.
- `selectionPrecedes`: the order of selections, in which their printed texts decide last.
- `sortSelections`: the canonical order within a selection set and below it. The selections
  of a mutation stay in their order, at every depth, because root fields of a mutation run
  one after the other.
- `sortDocument`: operations come before all other definitions, each group in the order of
  names; definitions of a schema are left as they are within.
- `addTypename`: every selection set but the root set of an operation selects the name of
  its type.
- `canonicalText`: the printed document on one line.
- `canonicalize`: the canonical text of a text.
-/

namespace PersistedQueries.GraphQL

/-! ## The canonical order -/

/-- The stable sort of a list by a key. -/
def sortOn {α : Type} (key : α → List Text) (items : List α) : List α :=
  let keyed := items.map fun item => (key item, item)
  (keyed.mergeSort fun a b => !decide (b.1 < a.1)).map Prod.snd

/-- Arguments in the order of their names. -/
def sortArguments (arguments : List Argument) : List Argument :=
  sortOn (fun argument => [argument.name.toList]) arguments

/-- Directives in the order of their names, each with sorted arguments. -/
def sortDirectives (directives : List Directive) : List Directive :=
  (sortOn (fun directive => [directive.name.toList]) directives).map fun directive =>
    { directive with arguments := sortArguments directive.arguments }

/-- What tells a selection from others: what it selects, its kind, and the name it answers to. -/
def selectionKey : Selection → List Text
  | .field label name _ _ _ => [name.toList, "field".toList, (label.getD name).toList]
  | .spread name _ => [name.toList, "fragment_spread".toList, name.toList]
  | .inline condition _ selections =>
    let condition := condition.elim [] String.toList
    [condition ++ printSelectionSet selections, "inline_fragment".toList, condition]

/-- The first selection may stand in front of the second one. Their keys decide, and their printed
texts when the keys are equal. -/
def selectionPrecedes (a b : Selection) : Bool :=
  let key := selectionKey a
  let other := selectionKey b
  if key = other then !decide (printSelection b < printSelection a) else decide (key < other)

/-- Selections in the order of their keys, unless their order is kept. -/
def orderSelections (keepOrder : Bool) (selections : List Selection) : List Selection :=
  if keepOrder then selections else selections.mergeSort selectionPrecedes

mutual

/-- A selection with everything below it in canonical order. -/
def sortSelection (keepOrder : Bool) : Selection → Selection
  | .field label name arguments directives selections =>
    .field label name (sortArguments arguments) (sortDirectives directives)
      (orderSelections keepOrder (sortEach keepOrder selections))
  | .spread name directives => .spread name (sortDirectives directives)
  | .inline condition directives selections =>
    .inline condition (sortDirectives directives)
      (orderSelections keepOrder (sortEach keepOrder selections))

/-- Each selection with everything below it in canonical order. -/
def sortEach (keepOrder : Bool) : List Selection → List Selection
  | [] => []
  | selection :: rest => sortSelection keepOrder selection :: sortEach keepOrder rest

end

/-- A selection set in canonical order. -/
def sortSelections (keepOrder : Bool) (selections : List Selection) : List Selection :=
  orderSelections keepOrder (sortEach keepOrder selections)

/-- A definition in canonical order. -/
def sortDefinition : Definition → Definition
  | .operation operation =>
    .operation { operation with
      parameters :=
        (sortOn (fun v => [v.name.toList]) operation.parameters).map fun v =>
          { v with directives := sortDirectives v.directives }
      directives := sortDirectives operation.directives
      selections := sortSelections (operation.kind = .mutation) operation.selections }
  | .fragment fragment =>
    .fragment { fragment with
      directives := sortDirectives fragment.directives
      selections := sortSelections false fragment.selections }
  | .system definition => .system definition

/-- The key of a definition: operations first, then the name. -/
def definitionKey (definition : Definition) : List Text :=
  [if definition.isOperation then ['0'] else ['1'], definition.name?.elim [] String.toList]

/-- A document in canonical order. -/
def sortDocument (document : Document) : Document :=
  sortOn definitionKey (document.map sortDefinition)

/-! ## Type names -/

/-- The name of an introspection field. -/
def isReserved (name : String) : Bool := ['_', '_'].isPrefixOf name.toList

/-- The field that selects the name of a type. -/
def typenameField : Selection := .field none "__typename" [] [] []

/-- The selection is a field of introspection. -/
def Selection.isReservedField : Selection → Bool
  | .field _ name _ _ _ => isReserved name
  | _ => false

/-- The selections with the name of their type, unless a field of introspection is among
them. -/
def withTypename (selections : List Selection) : List Selection :=
  if selections.any Selection.isReservedField then selections else selections ++ [typenameField]

/-- The selection set below a field is left without the name of its type: the field is one of
introspection, or its result is exported. -/
def isExempt (name : String) (directives : List Directive) : Bool :=
  isReserved name || directives.any (·.name = "export")

mutual

/-- A selection whose selection sets select the names of their types. -/
def addTypenameTo : Selection → Selection
  | .field label name arguments directives selections =>
    let below := addTypenameToEach selections
    .field label name arguments directives
      (if selections.isEmpty || isExempt name directives then below else withTypename below)
  | .spread name directives => .spread name directives
  | .inline condition directives selections =>
    .inline condition directives (withTypename (addTypenameToEach selections))

/-- Each selection with the names of the types below it. -/
def addTypenameToEach : List Selection → List Selection
  | [] => []
  | selection :: rest => addTypenameTo selection :: addTypenameToEach rest

end

/-- A definition whose selection sets, but for the root set of an operation, select the names
of their types. -/
def addTypenameToDefinition : Definition → Definition
  | .operation operation =>
    .operation { operation with selections := addTypenameToEach operation.selections }
  | .fragment fragment =>
    .fragment { fragment with selections := withTypename (addTypenameToEach fragment.selections) }
  | .system definition => .system definition

/-- A document whose selection sets, but for the root sets of operations, select the names of
their types. -/
def addTypename (document : Document) : Document := document.map addTypenameToDefinition

/-! ## The canonical text -/

/-- A definition that begins with a word. -/
def printWithKeyword (definition : Definition) : Text :=
  let text := printDefinition definition
  if definition.isOperation && text.head? = some '\x7b' then "query ".toList ++ text else text

/-- A document on one line. -/
def canonicalText (document : Document) : Text :=
  Text.strip (Text.collapse (Text.joinWith ['\n'] (document.map printWithKeyword)))

/-- The canonical text of a text that is a document on its own. -/
def canonicalize (text : Text) (withTypenames : Bool) : Except Fault Text := do
  let document ← parse text
  let document := if withTypenames then addTypename document else document
  return canonicalText (sortDocument document)

end PersistedQueries.GraphQL
