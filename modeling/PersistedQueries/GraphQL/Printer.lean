import PersistedQueries.GraphQL.BlockString
import PersistedQueries.GraphQL.Document

/-!
# Printing documents

A printed document has one line for each selection and each item of a schema definition,
indented by two blanks a level.

- `printString`: a string between quotes; quotes, backslashes and controls are escaped.
- `printValue`, `printDirective`, `printType`: what stands within a line.
- `printSelection`: a selection with those below it. The arguments of a field stand on lines
  of their own when the field's line would be longer than 80 characters.
- `printDefinition`: a definition. Variables, and the arguments of schema definitions, stand
  on lines of their own when one of them takes several lines.
-/

namespace PersistedQueries.GraphQL

/-! ## Layout -/

/-- The texts that are not empty, one after the other with a separator between neighbours. -/
def joinParts (separator : Text) (parts : List Text) : Text :=
  Text.joinWith separator (parts.filter (!·.isEmpty))

/-- A text between two others, or nothing when it is empty. -/
def wrap (opening : Text) (text : Text) (closing : Text) : Text :=
  if text.isEmpty then [] else opening ++ text ++ closing

/-- A text with every line two blanks further right. -/
def indent (text : Text) : Text :=
  if text.isEmpty then [] else ' ' :: ' ' :: Text.replaceChar '\n' ['\n', ' ', ' '] text

/-- Items between braces, a line each. -/
def block (items : List Text) : Text :=
  wrap ['\x7b', '\n'] (indent (joinParts ['\n'] items)) ['\n', '\x7d']

/-- Items in parentheses on one line. -/
def inlineList (items : List Text) : Text := wrap ['('] (joinParts [',', ' '] items) [')']

/-- Items in parentheses, a line each. -/
def spreadList (items : List Text) : Text :=
  wrap ['(', '\n'] (indent (joinParts ['\n'] items)) ['\n', ')']

/-- Items in parentheses: on one line unless one of them takes several. -/
def adaptiveList (items : List Text) : Text :=
  if items.any (·.contains '\n') then spreadList items else inlineList items

/-! ## Values, directives and types -/

/-- The hexadecimal digit of a value below 16, in upper case. -/
def upperHexDigit (n : Nat) : Char := (Nat.digitChar n).toUpper

/-- A character of a string between quotes. -/
def printChar (c : Char) : Text :=
  if c = '\x22' then ['\\', '\x22']
  else if c = '\\' then ['\\', '\\']
  else if c = '\x08' then ['\\', 'b']
  else if c = '\x0c' then ['\\', 'f']
  else if c = '\n' then ['\\', 'n']
  else if c = '\r' then ['\\', 'r']
  else if c = '\t' then ['\\', 't']
  else if c.toNat < 0x20 ∨ (0x7F ≤ c.toNat ∧ c.toNat ≤ 0x9F) then
    ['\\', 'u', '0', '0', upperHexDigit (c.toNat / 16), upperHexDigit (c.toNat % 16)]
  else [c]

/-- A string between quotes. -/
def printString (content : Text) : Text := '\x22' :: content.flatMap printChar ++ ['\x22']

/-- A string between quotes, or between triple quotes. -/
def printContent (content : String) (isBlock : Bool) : Text :=
  if isBlock then printBlock content.toList else printString content.toList

mutual

/-- A value. -/
def printValue : Value → Text
  | .variable name => '$' :: name.toList
  | .int text => text.toList
  | .float text => text.toList
  | .string content isBlock => printContent content isBlock
  | .boolean value => if value then "true".toList else "false".toList
  | .null => "null".toList
  | .enum name => name.toList
  | .list items => '[' :: joinParts [',', ' '] (printValues items) ++ [']']
  | .object fields => '\x7b' :: joinParts [',', ' '] (printFields fields) ++ ['\x7d']

/-- The items of a list. -/
def printValues : List Value → List Text
  | [] => []
  | value :: rest => printValue value :: printValues rest

/-- The fields of an input object. -/
def printFields : List (String × Value) → List Text
  | [] => []
  | (name, value) :: rest => (name.toList ++ [':', ' '] ++ printValue value) :: printFields rest

end

/-- A named value. -/
def printArgument (argument : Argument) : Text :=
  argument.name.toList ++ [':', ' '] ++ printValue argument.value

/-- A directive. -/
def printDirective (directive : Directive) : Text :=
  '@' :: directive.name.toList ++ inlineList (directive.arguments.map printArgument)

/-- Directives with blanks between them. -/
def printDirectives (directives : List Directive) : Text :=
  joinParts [' '] (directives.map printDirective)

/-- A reference to a type. -/
def printType : TypeRef → Text
  | .named name => name.toList
  | .list item => '[' :: printType item ++ [']']
  | .nonNull type => printType type ++ ['!']

/-! ## Selections -/

/-- The longest line of a field that keeps its arguments in line. -/
def maxLineLength : Nat := 80

/-- A field up to its arguments. -/
def printFieldHead (label : Option String) (name : String) (arguments : List Argument) : Text :=
  let front := (label.elim [] fun label => wrap [] label.toList [':', ' ']) ++ name.toList
  let items := arguments.map printArgument
  let line := front ++ inlineList items
  if line.length > maxLineLength then front ++ spreadList items else line

mutual

/-- A selection with those below it. -/
def printSelection : Selection → Text
  | .field label name arguments directives selections =>
    joinParts [' ']
      [printFieldHead label name arguments, printDirectives directives,
       block (printSelections selections)]
  | .spread name directives =>
    "...".toList ++ name.toList ++ wrap [' '] (printDirectives directives) []
  | .inline condition directives selections =>
    joinParts [' ']
      ["...".toList, condition.elim [] fun name => wrap "on ".toList name.toList [],
       printDirectives directives, block (printSelections selections)]

/-- Selections, each with those below it. -/
def printSelections : List Selection → List Text
  | [] => []
  | selection :: rest => printSelection selection :: printSelections rest

end

/-- A selection set. -/
def printSelectionSet (selections : List Selection) : Text := block (printSelections selections)

/-! ## Definitions -/

/-- The string in front of a definition, on lines of its own. -/
def printDescription (description : Option Description) : Text :=
  description.elim [] fun d => wrap [] (printContent d.content d.isBlock) ['\n']

/-- A variable of an operation. -/
def printVariable (variableDefinition : VariableDefinition) : Text :=
  printDescription variableDefinition.description ++ '$' :: variableDefinition.name.toList ++
    [':', ' '] ++ printType variableDefinition.type ++
    (variableDefinition.defaultValue.elim [] fun v => wrap " = ".toList (printValue v) []) ++
    wrap [' '] (printDirectives variableDefinition.directives) []

/-- An operation up to its selection set. -/
def printOperationHead (operation : Operation) : Text :=
  printDescription operation.description ++
    joinParts [' ']
      [operation.kind.word.toList,
       (operation.name.elim [] String.toList) ++ adaptiveList (operation.parameters.map printVariable),
       printDirectives operation.directives]

/-- An operation. A query with nothing in front of its selection set is printed without the
word for it. -/
def printOperation (operation : Operation) : Text :=
  let head := printOperationHead operation
  (if head = "query".toList then [] else head ++ [' ']) ++ printSelectionSet operation.selections

/-- A fragment. -/
def printFragment (fragment : Fragment) : Text :=
  printDescription fragment.description ++ "fragment ".toList ++ fragment.name.toList ++
    " on ".toList ++ fragment.condition.toList ++ [' '] ++
    wrap [] (printDirectives fragment.directives) [' '] ++ printSelectionSet fragment.selections

/-- An argument of a definition, or a field of an input type. -/
def printInputValue (input : InputValue) : Text :=
  printDescription input.description ++
    joinParts [' ']
      [input.name.toList ++ [':', ' '] ++ printType input.type,
       input.defaultValue.elim [] fun v => wrap "= ".toList (printValue v) [],
       printDirectives input.directives]

/-- A field of an object or interface type. -/
def printFieldDefinition (field : FieldDefinition) : Text :=
  printDescription field.description ++ field.name.toList ++
    adaptiveList (field.arguments.map printInputValue) ++ [':', ' '] ++ printType field.type ++
    wrap [' '] (printDirectives field.directives) []

/-- A value of an enumeration. -/
def printEnumValue (value : EnumValue) : Text :=
  printDescription value.description ++
    joinParts [' '] [value.name.toList, printDirectives value.directives]

/-- The type of a kind of operation. -/
def printRootType (root : RootType) : Text :=
  root.kind.word.toList ++ [':', ' '] ++ root.type.toList

/-- Names with a separator between them. -/
def printNames (separator : String) (names : List String) : Text :=
  joinParts separator.toList (names.map String.toList)

/-- A type from the word that introduces it on. -/
def printTypeBody (word : Text) (definition : TypeDefinition) : Text :=
  let name := definition.name.toList
  let notes := printDirectives definition.directives
  match definition.body with
  | .scalar => joinParts [' '] [word, name, notes]
  | .object interfaces fields =>
    joinParts [' ']
      [word, name, wrap "implements ".toList (printNames " & " interfaces) [], notes,
       block (fields.map printFieldDefinition)]
  | .interface interfaces fields =>
    joinParts [' ']
      [word, name, wrap "implements ".toList (printNames " & " interfaces) [], notes,
       block (fields.map printFieldDefinition)]
  | .union members =>
    joinParts [' '] [word, name, notes, wrap "= ".toList (printNames " | " members) []]
  | .enum values => joinParts [' '] [word, name, notes, block (values.map printEnumValue)]
  | .input fields => joinParts [' '] [word, name, notes, block (fields.map printInputValue)]

/-- A definition of a schema document. -/
def printSystem : SystemDefinition → Text
  | .schema description directives roots =>
    printDescription description ++
      joinParts [' '] ["schema".toList, printDirectives directives, block (roots.map printRootType)]
  | .type definition =>
    printDescription definition.description ++
      printTypeBody definition.body.word.toList definition
  | .directive definition =>
    printDescription definition.description ++ "directive @".toList ++ definition.name.toList ++
      adaptiveList (definition.arguments.map printInputValue) ++
      (if definition.isRepeatable then " repeatable".toList else []) ++ " on ".toList ++
      printNames " | " definition.locations
  | .extendSchema directives roots =>
    joinParts [' ']
      ["extend schema".toList, printDirectives directives, block (roots.map printRootType)]
  | .extendType addition =>
    printTypeBody ("extend ".toList ++ addition.body.word.toList) addition

/-- A definition. -/
def printDefinition : Definition → Text
  | .operation operation => printOperation operation
  | .fragment fragment => printFragment fragment
  | .system definition => printSystem definition

end PersistedQueries.GraphQL
