import PersistedQueries.GraphQL.Lexer
import PersistedQueries.GraphQL.Document

/-!
# Parsers of token streams

- `Parser`: a function from a token stream to a result and the stream behind it, or to a
  fault.
- `advance`: the step from one token to the next. A place behind the token that starts no
  token is a fault of this step, so of two faults in a text the earlier one is reported.
- `expectPunct`, `expectKeyword`, `name`: what must come next.
- `position`: where the next token begins.
- `zeroOrMore`, `oneOrMore`, `optionalList`, `separated`: lists.
- `levels`: how deep brackets may nest; one level more is a fault.
-/

namespace PersistedQueries.GraphQL

/-- A parser of a part of a document. -/
abbrev Parser (α : Type) := StateT TokenStream (Except Fault) α

namespace Parser

variable {α : Type}

/-- How deep selection sets, lists and input objects may nest. -/
def levels : Nat := 200

/-- The offset of the next token. -/
def offset : TokenStream → Nat
  | .done offset => offset
  | .broken fault => fault.offset
  | .next _ offset _ => offset

/-- The next token. -/
def token? : TokenStream → Option Token
  | .next token _ _ => some token
  | _ => none

/-- The next token as a message names it. -/
def describe (stream : TokenStream) : String := (token? stream).elim "<EOF>" Token.describe

/-- The stream behind the next token. -/
def rest : TokenStream → TokenStream
  | .next _ _ rest => rest
  | stream => stream

/-- Fail at the next token. -/
def fail (cause : Cause) : Parser α := fun stream => .error ⟨cause, offset stream⟩

/-- The next token is not expected. -/
def unexpected : Parser α := fun stream => .error ⟨.unexpected (describe stream), offset stream⟩

/-- Something else than the next token is expected. -/
def expected (what : String) : Parser α := fun stream =>
  .error ⟨.expected what (describe stream), offset stream⟩

/-- Check that a token can be read at the front of a stream. -/
def settle (stream : TokenStream) : Except Fault (Unit × TokenStream) :=
  match stream with
  | .broken fault => .error fault
  | stream => .ok ((), stream)

/-- Step over the next token. -/
def advance : Parser Unit := fun stream => settle (rest stream)

/-- The offset of the next token, without a step. -/
def position : Parser Nat := fun stream => .ok (offset stream, stream)

/-- The next token, without a step. -/
def peek : Parser (Option Token) := fun stream => .ok (token? stream, stream)

/-- The token behind the next one, without a step. A place that starts no token there is a
fault. -/
def lookahead : Parser TokenStream := fun stream =>
  match settle (rest stream) with
  | .error fault => .error fault
  | .ok (_, ahead) => .ok (ahead, stream)

/-- The next token is a punctuator. -/
def peekPunct (p : Punctuator) : Parser Bool := do return (← peek) = some (.punct p)

/-- Step over a punctuator that must come next. -/
def expectPunct (p : Punctuator) : Parser Unit := do
  if (← peek) = some (.punct p) then advance else expected p.describe

/-- Step over a punctuator when it comes next. -/
def skipPunct (p : Punctuator) : Parser Bool := do
  if (← peek) = some (.punct p) then advance; return true else return false

/-- Step over a word that must come next. -/
def expectKeyword (word : String) : Parser Unit := do
  if (← peek) = some (.name word) then advance else expected s!"'{word}'"

/-- Step over a word when it comes next. -/
def skipKeyword (word : String) : Parser Bool := do
  if (← peek) = some (.name word) then advance; return true else return false

/-- A name. -/
def name : Parser String := do
  match ← peek with
  | some (.name text) => advance; return text
  | _ => expected "Name"

/-! ## Lists -/

/-- Items up to a closing punctuator. The fuel bounds their number. -/
def itemsUntil (closing : Punctuator) (item : Parser α) : (fuel : Nat) → Parser (List α)
  | 0 => unexpected
  | fuel + 1 => do
    if ← skipPunct closing then return []
    let first ← item
    let more ← itemsUntil closing item fuel
    return first :: more

/-- Items up to a closing punctuator. -/
def zeroOrMore (closing : Punctuator) (item : Parser α) : Parser (List α) := fun stream =>
  itemsUntil closing item (stream.length + 1) stream

/-- At least one item between punctuators. -/
def oneOrMore (opening : Punctuator) (item : Parser α) (closing : Punctuator) :
    Parser (List α) := do
  expectPunct opening
  let first ← item
  let more ← zeroOrMore closing item
  return first :: more

/-- At least one item between punctuators, or nothing when the opening one does not come
next. -/
def optionalList (opening : Punctuator) (item : Parser α) (closing : Punctuator) :
    Parser (List α) := do
  if ← peekPunct opening then oneOrMore opening item closing else return []

/-- More items, each behind a separator. The fuel bounds their number. -/
def moreSeparated (separator : Punctuator) (item : Parser α) : (fuel : Nat) → Parser (List α)
  | 0 => return []
  | fuel + 1 => do
    if ← skipPunct separator then
      let first ← item
      let more ← moreSeparated separator item fuel
      return first :: more
    else return []

/-- At least one item, with separators between them and perhaps one in front. -/
def separated (separator : Punctuator) (item : Parser α) : Parser (List α) := do
  let _ ← skipPunct separator
  let first ← item
  let more ← fun stream => moreSeparated separator item stream.length stream
  return first :: more

end Parser

end PersistedQueries.GraphQL
