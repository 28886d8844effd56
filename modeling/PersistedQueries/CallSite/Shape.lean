import PersistedQueries.Text.Blank

/-!
# The shape of a call

A definition is written as a name, an equals sign and a call of the tag with a template
literal, behind which a list of dependencies may stand:

    Name = graphql(`text`, [First, Second])

- `CallShape`: the parts of such a call and the number of characters it takes.
- `CallShape.match?`: the call that begins at the front of a text. Only blanks and tabs may
  stand around the equals sign; any white space may stand within the parentheses, and commas
  too in front of the closing one.
- `CallShape.all`: the calls of a text from left to right, each search going on behind the
  call found before.
-/

namespace PersistedQueries.CallSite

/-- The parts of a call. -/
structure CallShape where
  /-- The name that the call is assigned to. -/
  name : Text
  /-- The interior of the template literal. -/
  source : Text
  /-- The interior of the list of dependencies. -/
  dependencies : Option Text
  /-- The number of characters from the name to the closing parenthesis. -/
  length : Nat
  deriving DecidableEq, Repr

/-- A character of an assigned or imported name. -/
def isNameChar (c : Char) : Bool :=
  ('A' ≤ c && c ≤ 'Z') || ('a' ≤ c && c ≤ 'z') || ('0' ≤ c && c ≤ '9') || c = '_' || c = '$'

/-- A blank or a tab. -/
def isGap (c : Char) : Bool := c = ' ' || c = '\t'

/-- White space or a comma. -/
def isTrailer (c : Char) : Bool := Text.isBlank c || c = ','

/-- The text behind a word at the front. -/
def afterWord? (word : Text) (text : Text) : Option Text :=
  if word.isPrefixOf text then some (text.drop word.length) else none

/-- The call of the tag up to the opening parenthesis. -/
def tagCall : Text := "graphql(".toList

/-- A list of dependencies behind a template literal: a comma, and the interior of the
brackets; and the text behind it. -/
def dependencyList? (text : Text) : Option (Text × Text) := do
  let text ← afterWord? [','] text
  let text ← afterWord? ['['] (text.dropWhile Text.isBlank)
  let interior := text.takeWhile (· ≠ ']')
  let text ← afterWord? [']'] (text.dropWhile (· ≠ ']'))
  return (interior, text)

/-- The call that begins at the front of a text. -/
def CallShape.match? (text : Text) : Option CallShape := do
  let name := text.takeWhile isNameChar
  if name.isEmpty then failure
  let rest := (text.drop name.length).dropWhile isGap
  let rest ← afterWord? ['='] rest
  let rest ← afterWord? tagCall (rest.dropWhile isGap)
  let rest ← afterWord? ['\x60'] (rest.dropWhile Text.isBlank)
  let source := rest.takeWhile (· ≠ '\x60')
  if source.isEmpty then failure
  let rest ← afterWord? ['\x60'] (rest.dropWhile (· ≠ '\x60'))
  let rest := rest.dropWhile Text.isBlank
  let (dependencies, rest) :=
    match dependencyList? rest with
    | some (interior, rest) => (some interior, rest)
    | none => (none, rest)
  let rest ← afterWord? [')'] (rest.dropWhile isTrailer)
  return ⟨name, source, dependencies, text.length - rest.length⟩

/-- The calls of a text from left to right, with their spans. `offset` is the number of
characters in front of the text. -/
def CallShape.allFrom (offset : Nat) (text : Text) : List (Span × CallShape) :=
  match text with
  | [] => []
  | c :: rest =>
    match CallShape.match? (c :: rest) with
    | none => allFrom (offset + 1) rest
    | some shape =>
      (⟨offset, offset + shape.length⟩, shape) ::
        allFrom (offset + (shape.length - 1 + 1)) (rest.drop (shape.length - 1))
termination_by text.length
decreasing_by all_goals grind

/-- The calls of a text from left to right, with their spans. -/
def CallShape.all (text : Text) : List (Span × CallShape) := CallShape.allFrom 0 text

end PersistedQueries.CallSite
