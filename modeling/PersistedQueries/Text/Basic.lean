/-!
# Texts

Source code, documents and file contents are read one code point at a time, so they are
lists of characters. Every offset and length counts code points.

- `Text`: a list of characters.
- `Span`: a half-open interval of offsets; `Text.slice` is the part of a text it covers.
- `occursIn`, `splitOn`, `partition`, `replace`: searching and cutting.
- `joinWith`: the inverse of cutting at a separator.
-/

namespace PersistedQueries

/-- A text is the list of its code points. -/
abbrev Text := List Char

/-- A half-open interval of code-point offsets. -/
structure Span where
  /-- The offset of the first character. -/
  start : Nat
  /-- The offset behind the last character. -/
  stop : Nat
  deriving DecidableEq, Repr, Inhabited

namespace Span

/-- The offset lies in the interval. -/
def Contains (s : Span) (offset : Nat) : Prop := s.start ≤ offset ∧ offset < s.stop

instance (s : Span) (offset : Nat) : Decidable (s.Contains offset) :=
  inferInstanceAs (Decidable (_ ∧ _))

end Span

namespace Text

/-- The characters of a text that a span covers. -/
def slice (code : Text) (s : Span) : Text := (code.drop s.start).take (s.stop - s.start)

/-- Some part of the second text equals the first. -/
def occursIn (needle : Text) : Text → Bool
  | [] => needle.isEmpty
  | c :: rest => needle.isPrefixOf (c :: rest) || occursIn needle rest

/-- The part of a text before the first occurrence of a word and the part behind it. -/
def partition (word : Text) : Text → Option (Text × Text)
  | [] => if word.isEmpty then some ([], []) else none
  | c :: rest =>
    if word.isPrefixOf (c :: rest) then some ([], (c :: rest).drop word.length)
    else (partition word rest).map fun (before, behind) => (c :: before, behind)

/-- The pieces of a text between the occurrences of a separator character. -/
def splitOn (separator : Char) : Text → List Text
  | [] => [[]]
  | c :: rest =>
    if c = separator then [] :: splitOn separator rest
    else
      match splitOn separator rest with
      | [] => [[c]]
      | piece :: pieces => (c :: piece) :: pieces

/-- The texts one after the other with a separator between neighbours. -/
def joinWith (separator : Text) : List Text → Text
  | [] => []
  | [piece] => piece
  | piece :: pieces => piece ++ separator ++ joinWith separator pieces

/-- Replace every occurrence of one character by a text. -/
def replaceChar (old : Char) (new : Text) (text : Text) : Text :=
  text.flatMap fun c => if c = old then new else [c]

/-- The number of line feeds. -/
def lineFeeds (text : Text) : Nat := text.count '\n'

/-- The number of characters behind the last line feed, or of all of them without one. -/
def lastLineLength (text : Text) : Nat := (text.reverse.takeWhile (· ≠ '\n')).length

end Text

end PersistedQueries
