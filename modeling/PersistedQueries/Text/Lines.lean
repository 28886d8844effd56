import PersistedQueries.Text.Basic

/-!
# Lines

Three notions of a line are in use. A position in source code counts line feeds only. A GraphQL
document has carriage returns and line feeds between its lines. Code that is mapped line by line
ends its lines at every line boundary of Unicode.

- `isLineBoundary`: the characters that end a line.
- `splitLines`: the lines of a text with their ends, a carriage return and the line feed
  behind it counting as one end.
- `normalizeNewlines`: every carriage return, with or without a line feed, becomes a line
  feed, as when a source file is read as text.
- `documentLines`: the lines between carriage returns and line feeds.
- `lineOf`: the one-based number of the line an offset lies in.
-/

namespace PersistedQueries.Text

/-- The characters that end a line. -/
def isLineBoundary (c : Char) : Bool :=
  let n := c.toNat
  (0x0A ≤ n && n ≤ 0x0D) || (0x1C ≤ n && n ≤ 0x1E) || n == 0x85 || n == 0x2028 || n == 0x2029

/-- Put a character in front of the first line. -/
def consLine (c : Char) : List Text → List Text
  | [] => [[c]]
  | line :: lines => (c :: line) :: lines

/-- The lines of a text, each with the characters that end it. A text that ends with a line
end has no empty line behind it. -/
def splitLines : Text → List Text
  | [] => []
  | '\r' :: '\n' :: rest => ['\r', '\n'] :: splitLines rest
  | c :: rest => if isLineBoundary c then [c] :: splitLines rest else consLine c (splitLines rest)

/-- Every carriage return, with or without the line feed behind it, becomes a line feed. -/
def normalizeNewlines : Text → Text
  | [] => []
  | '\r' :: '\n' :: rest => '\n' :: normalizeNewlines rest
  | '\r' :: rest => '\n' :: normalizeNewlines rest
  | c :: rest => c :: normalizeNewlines rest

/-- The lines of a text between its carriage returns and line feeds, a pair of both counting as
one. There is always a line, perhaps an empty one, behind the last of them. -/
def documentLines (text : Text) : List Text := splitOn '\n' (normalizeNewlines text)

/-- The one-based number of the line that an offset lies in. A negative offset counts from
the end of the text, and an offset beyond either end means that end. -/
def lineOf (code : Text) (offset : Int) : Nat :=
  let position := if offset < 0 then (code.length + offset).toNat else offset.toNat
  lineFeeds (code.take position) + 1

end PersistedQueries.Text
