import PersistedQueries.Text.Basic
import PersistedQueries.Text.Alphanumeric

/-!
# What is not code

A call shape inside a comment, a quoted string, a template literal or a regular expression
is no call. One walk over the source finds these parts.

- `ignoredRanges`: the spans of the comments and literals, in source order.
- `tokenTail?`: whether a comment or literal begins at a character, and how many characters
  behind that one it covers. A quoted string that is not closed ends before its line end,
  every other token that is not closed ends with the text.
- `slashOpensRegex`: a slash opens a regular expression where an expression may begin, which
  is decided by the character or the word in front of it; elsewhere it divides.
- `inRanges`: the look-up of an offset, which stops at the first span that begins behind it.
-/

namespace PersistedQueries.CallSite

/-- The number of characters up to the end of the line. -/
def lineLength : Text → Nat
  | [] => 0
  | c :: rest => if c = '\n' then 0 else lineLength rest + 1

/-- The number of characters up to the end of the block comment that the text lies in. -/
def blockLength : Text → Nat
  | [] => 0
  | '*' :: '/' :: _ => 2
  | _ :: rest => blockLength rest + 1

/-- The number of characters up to the end of the literal that the text lies in, its closing
quote included. A backslash escapes the character behind it. A line end closes every literal
but a template. -/
def literalLength (quote : Char) : Text → Nat
  | [] => 0
  | c :: rest =>
    if c = '\\' then
      match rest with
      | [] => 1
      | _ :: rest => literalLength quote rest + 2
    else if c = quote then 1
    else if c = '\n' ∧ quote ≠ '\x60' then 0
    else literalLength quote rest + 1

/-- The number of characters up to the end of the regular expression that the text lies in,
its closing slash included. A slash within brackets does not close it; a line end does. -/
def regexLength (inClass : Bool) : Text → Nat
  | [] => 0
  | c :: rest =>
    if c = '\\' then
      match rest with
      | [] => 1
      | _ :: rest => regexLength inClass rest + 2
    else if c = '\n' then 0
    else if c = '[' then regexLength true rest + 1
    else if c = ']' then regexLength false rest + 1
    else if c = '/' ∧ ¬ inClass then 1
    else regexLength inClass rest + 1

/-- The characters that a regular expression may follow. -/
def operatorChars : Text := "=(,:[!&|?\x7b\x7d;+-*%<>~^".toList

/-- The words that a regular expression may follow. -/
def operatorWords : List Text :=
  ["return", "typeof", "case", "do", "else", "in", "of", "void", "yield", "await"].map String.toList

/-- A character of a word. -/
def isWordChar (c : Char) : Bool := Text.isAlphanumeric c || c = '_' || c = '$'

/-- The space that may stand between an operator and a regular expression. -/
def isPlainSpace (c : Char) : Bool := c = ' ' || c = '\t' || c = '\r' || c = '\n'

/-- A slash opens a regular expression. `before` is the text in front of the slash, the
nearest character first. -/
def slashOpensRegex (before : Text) : Bool :=
  match before.dropWhile isPlainSpace with
  | [] => true
  | c :: rest =>
    operatorChars.contains c ||
      operatorWords.contains ((c :: rest).takeWhile isWordChar).reverse

/-- Whether a comment or a literal begins at a character, and how many characters behind
that one it covers. -/
def tokenTail? (before : Text) (c : Char) (rest : Text) : Option Nat :=
  if c = '/' ∧ rest.head? = some '/' then some (lineLength rest)
  else if c = '/' ∧ rest.head? = some '*' then some (1 + blockLength (rest.drop 1))
  else if c = '\x27' ∨ c = '\x22' ∨ c = '\x60' then some (literalLength c rest)
  else if c = '/' ∧ slashOpensRegex before then some (regexLength false rest)
  else none

/-- The comments and literals of a text. `before` is the text in front of it, the nearest
character first, and `offset` its length. -/
def rangesFrom (before : Text) (offset : Nat) : Text → List Span
  | [] => []
  | c :: rest =>
    match tokenTail? before c rest with
    | none => rangesFrom (c :: before) (offset + 1) rest
    | some length =>
      ⟨offset, offset + 1 + length⟩ ::
        rangesFrom ((rest.take length).reverse ++ c :: before) (offset + 1 + length)
          (rest.drop length)
termination_by text => text.length
decreasing_by all_goals grind

/-- The spans of the comments and literals of a source text, in source order. -/
def ignoredRanges (code : Text) : List Span := rangesFrom [] 0 code

/-- The offset lies in one of the spans, which come in source order. -/
def inRanges (offset : Nat) : List Span → Bool
  | [] => false
  | span :: rest =>
    if span.start > offset then false
    else if offset < span.stop then true
    else inRanges offset rest

end PersistedQueries.CallSite
