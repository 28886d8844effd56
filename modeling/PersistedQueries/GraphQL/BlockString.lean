import PersistedQueries.Text.Lines

/-!
# Block strings

A block string is written between triple quotes over any number of lines. Its value is free
of the indentation that the lines share and of the blank lines at either end.

- `dedent`: the lines of a value from the lines as written.
- `escapeTripleQuotes`: a triple quote within the value is written behind a backslash.
- `printBlock`: a value between triple quotes, on lines of its own unless it is one short
  line that does not end in a quote or a backslash.
-/

namespace PersistedQueries.GraphQL

/-- A blank or a tab. -/
def isIndent (c : Char) : Bool := c = ' ' || c = '\t'

/-- The number of blanks and tabs at the front of a line. -/
def indentOf (line : Text) : Nat := (line.takeWhile isIndent).length

/-- The line holds blanks and tabs only. -/
def isBlankLine (line : Text) : Bool := line.all isIndent

/-- Lines without the blank ones at either end. -/
def trimBlankLines (lines : List Text) : List Text :=
  ((lines.dropWhile isBlankLine).reverse.dropWhile isBlankLine).reverse

/-- The indentation that the lines behind the first share; blank lines do not count. -/
def commonIndent (lines : List Text) : Option Nat :=
  ((lines.drop 1).filter (!isBlankLine ·)).map indentOf |>.min?

/-- The lines of a value from the lines as written: every line but the first loses the common
indentation, and blank lines at either end go. -/
def dedent (lines : List Text) : List Text :=
  match lines with
  | [] => []
  | first :: rest =>
    let indent := (commonIndent lines).getD 0
    trimBlankLines (first :: rest.map (·.drop indent))

/-- Put a backslash in front of every triple quote. -/
def escapeTripleQuotes : Text → Text
  | '\x22' :: '\x22' :: '\x22' :: rest =>
    '\\' :: '\x22' :: '\x22' :: '\x22' :: escapeTripleQuotes rest
  | c :: rest => c :: escapeTripleQuotes rest
  | [] => []

/-- Three quotes. -/
def tripleQuote : Text := ['\x22', '\x22', '\x22']

/-- A value between triple quotes. -/
def printBlock (value : Text) : Text :=
  let escaped := escapeTripleQuotes value
  let lines := Text.documentLines escaped
  let isSingleLine := lines.length = 1
  let startsIndented (line : Text) : Bool := (line.take 1).all isIndent
  let forceLeading := lines.length > 1 && (lines.drop 1).all startsIndented
  let endsWithTripleQuote := ('\\' :: tripleQuote).isSuffixOf escaped
  let endsWithQuote := value.getLast? = some '\x22' && !endsWithTripleQuote
  let endsWithBackslash := value.getLast? = some '\\'
  let forceTrailing := endsWithQuote || endsWithBackslash
  let spread := !isSingleLine || value.length > 70 || forceTrailing || forceLeading ||
    endsWithTripleQuote
  let skipLeading := isSingleLine && startsIndented value
  let leading : Text := if (spread && !skipLeading) || forceLeading then ['\n'] else []
  let trailing : Text := if spread || forceTrailing then ['\n'] else []
  tripleQuote ++ leading ++ escaped ++ trailing ++ tripleQuote

end PersistedQueries.GraphQL
