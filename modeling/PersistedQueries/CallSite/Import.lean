import PersistedQueries.CallSite.Ignored
import PersistedQueries.CallSite.Shape
import PersistedQueries.Table

/-!
# Import statements

An import statement binds local names to a module specifier. Four clauses are read: a
default name, a braced list, a namespace, and a default name with either of the last two.

- `ImportShape`: the clause of a statement and its specifier.
- `ImportShape.match?`: the statement that begins at the front of a text. The clauses are
  tried in a fixed order; a name that runs into the word `from` is cut in front of it.
- `localNames`: the names that a clause binds. An entry with an alias binds the alias.
- `parseImports`: every local name of a source text with its specifier. The last statement
  that binds a name wins. Statements that begin within a comment or a literal are passed over.
-/

namespace PersistedQueries.CallSite

/-- The parts of an import statement. -/
structure ImportShape where
  /-- The text between `import`, with a type modifier behind it, and `from`. -/
  clause : Text
  /-- The text between the quotes. -/
  specifier : Text
  /-- The number of characters up to the closing quote. -/
  length : Nat
  deriving DecidableEq, Repr

/-- A quote of either kind. -/
def isQuote (c : Char) : Bool := c = '\x27' || c = '\x22'

/-- The specifier that `from` introduces at the front of a text, and the text behind it. -/
def fromClause? (text : Text) : Option (Text × Text) := do
  let text ← afterWord? "from".toList (text.dropWhile Text.isBlank)
  match text.dropWhile Text.isBlank with
  | quote :: rest =>
    if !isQuote quote then failure
    let specifier := rest.takeWhile fun c => !isQuote c
    if specifier.isEmpty then failure
    match rest.drop specifier.length with
    | _ :: rest => return (specifier, rest)
    | [] => failure
  | [] => failure

/-- Every way to cut a non-empty name off the front of a text, the longest first, as the text
behind the name. -/
def nameEnds (text : Text) : List Text :=
  let run := text.takeWhile isNameChar
  (List.range run.length).reverse.map fun n => text.drop (n + 1)

/-- The white space at the front of a text, of which there must be some, and what follows. -/
def blanks? (text : Text) : Option Text :=
  match text with
  | c :: rest => if Text.isBlank c then some (rest.dropWhile Text.isBlank) else none
  | [] => none

/-- A namespace at the front of a text: every way to read `* as Name`, as the text behind the
name. -/
def namespaceEnds (text : Text) : List Text :=
  match afterWord? ['*'] text with
  | none => []
  | some text =>
    match afterWord? "as".toList (text.dropWhile Text.isBlank) >>= blanks? with
    | none => []
    | some text => nameEnds text

/-- A braced list at the front of a text, as the text behind the brace. -/
def bracedEnd? (text : Text) : Option Text := do
  let text ← afterWord? ['\x7b'] text
  afterWord? ['\x7d'] (text.dropWhile (· ≠ '\x7d'))

/-- The text behind a default name and a comma. -/
def defaultEnd? (text : Text) : Option Text := do
  let name := text.takeWhile isNameChar
  if name.isEmpty then failure
  let text ← afterWord? [','] ((text.drop name.length).dropWhile Text.isBlank)
  return text.dropWhile Text.isBlank

/-- Every way to read a clause at the front of a text, in the order in which they are tried,
as the text behind the clause. -/
def clauseEnds (text : Text) : List Text :=
  namespaceEnds text ++
  (defaultEnd? text >>= bracedEnd?).toList ++
  ((defaultEnd? text).map namespaceEnds).getD [] ++
  nameEnds text ++
  (bracedEnd? text).toList

/-- The clause at the front of a text and the specifier behind it. -/
def clause? (text : Text) : Option (Text × Text × Text) :=
  (clauseEnds text).findSome? fun rest =>
    (fromClause? rest).map fun (specifier, behind) =>
      (text.take (text.length - rest.length), specifier, behind)

/-- The statement that begins at the front of a text. A leading `type` is a modifier where
the rest can be read without it, and the name that is bound otherwise. -/
def ImportShape.match? (text : Text) : Option ImportShape := do
  let rest ← afterWord? "import".toList text >>= blanks?
  let modified := afterWord? "type".toList rest >>= blanks? >>= clause?
  let (clause, specifier, behind) ←
    match modified with
    | some found => some found
    | none => clause? rest
  return ⟨clause, specifier, text.length - behind.length⟩

/-- The statements of a text from left to right, with their offsets. `offset` is the number
of characters in front of the text. -/
def ImportShape.allFrom (offset : Nat) (text : Text) : List (Nat × ImportShape) :=
  match text with
  | [] => []
  | c :: rest =>
    match ImportShape.match? (c :: rest) with
    | none => allFrom (offset + 1) rest
    | some shape =>
      (offset, shape) ::
        allFrom (offset + (shape.length - 1 + 1)) (rest.drop (shape.length - 1))
termination_by text.length
decreasing_by all_goals grind

/-! ## The names that a clause binds -/

/-- The name that an entry in front of a braced list binds: the default name, or the name of
a namespace. -/
def leadingName (entry : Text) : Text :=
  if entry.head? = some '*' then
    match Text.partition "as".toList entry with
    | some (_, name) => Text.strip name
    | none => []
  else entry

/-- The name that an entry of a braced list binds. -/
def bracedName (entry : Text) : Text :=
  let entry := (afterWord? "type ".toList entry).elim entry Text.strip
  match Text.partition " as ".toList entry with
  | some (exported, renamed) => Text.strip (if renamed.isEmpty then exported else renamed)
  | none => Text.strip entry

/-- The entries of a list, without white space around them and without empty ones. -/
def entriesOf (list : Text) : List Text :=
  ((Text.splitOn ',' list).map Text.strip).filter (!·.isEmpty)

/-- The names that a clause binds. -/
def localNames (clause : Text) : List Text :=
  match Text.partition ['\x7b'] clause with
  | none => (entriesOf clause).map leadingName
  | some (leading, braced) =>
    let interior := ((Text.stripRight braced).reverse.dropWhile (· = '\x7d')).reverse
    (entriesOf leading).map leadingName ++ (entriesOf interior).map bracedName

/-- Every local name of a source text with the specifier of the last statement that binds
it. -/
def parseImports (code : Text) : Table String String :=
  let ignored := ignoredRanges code
  let statements := (ImportShape.allFrom 0 code).filter fun (start, _) => !inRanges start ignored
  .ofList (statements.flatMap fun (_, shape) =>
    (localNames shape.clause).map fun name =>
      (String.ofList name, String.ofList shape.specifier))

end PersistedQueries.CallSite
