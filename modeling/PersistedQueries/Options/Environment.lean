import PersistedQueries.Table
import PersistedQueries.Text.Blank
import PersistedQueries.Text.Lines

/-!
# The environment

Settings come from the variables of the environment, and from a file of assignments that fills in
the variables that are not set.

- `Environment`: the variables that are set.
- `Environment.statements`: the assignments of a file. A value may stand in quotes; without them it
  ends at a comment. A statement that cannot be read is passed over with the rest of its line.
- `Environment.expand`: a value in which references to variables are replaced.
- `Environment.fill`: the environment after the assignments of a file.
- `Environment.load`: the same for a file that may be missing, or may be left alone on request.
-/

namespace PersistedQueries

/-- The variables that are set. -/
abbrev Environment := Table String String

namespace Environment

/-! ## Characters -/

/-- The end of a line. -/
def isLineEnd (c : Char) : Bool := c = '\n' || c = '\r'

/-- White space within a line. -/
def isInlineBlank (c : Char) : Bool := Text.isBlank c && !isLineEnd c

/-- A text without the white space at its beginning that stays on the line. -/
def skipInline (text : Text) : Text := text.dropWhile isInlineBlank

/-- A text behind its first line end, which may be two characters. -/
def afterLineEnd : Text → Text
  | '\r' :: '\n' :: rest => rest
  | _ :: rest => rest
  | [] => []

/-- The text behind the first line, without the first character of its end only: a line feed behind
a carriage return begins what follows. -/
def skipLine (text : Text) : Text := (text.dropWhile fun c => !isLineEnd c).drop 1

/-! ## Keys and values -/

/-- The word that may stand in front of an assignment is taken away. -/
def skipExport (text : Text) : Text :=
  let word := "export".toList
  if word.isPrefixOf text then
    let rest := text.drop word.length
    match rest with
    | c :: _ => if isInlineBlank c then skipInline rest else text
    | [] => text
  else text

/-- The key at the beginning of a text, quoted or plain, and what follows it. A comment has none. -/
def readKey (text : Text) : Option (Option Text × Text) :=
  match text with
  | '#' :: _ => some (none, text)
  | '\x27' :: rest =>
    let key := rest.takeWhile (· ≠ '\x27')
    match rest.dropWhile (· ≠ '\x27') with
    | _ :: behind => if key.isEmpty then none else some (some key, behind)
    | [] => none
  | _ =>
    let isKey (c : Char) : Bool := c ≠ '=' && c ≠ '#' && !Text.isBlank c
    let key := text.takeWhile isKey
    if key.isEmpty then none else some (some key, text.dropWhile isKey)

/-- The inside of a quoted value, with its escapes, and what follows the closing quote. A character
behind a backslash does not close the value. -/
def readQuoted (quote : Char) : Text → Option (Text × Text)
  | [] => none
  | '\\' :: c :: rest =>
    (readQuoted quote rest).map fun (value, behind) => ('\\' :: c :: value, behind)
  | c :: rest =>
    if c = quote then some ([], rest)
    else (readQuoted quote rest).map fun (value, behind) => (c :: value, behind)

/-- The characters that the escapes between double quotes stand for. -/
def doubleEscapes : List (Char × Char) :=
  [('\\', '\\'), ('\x27', '\x27'), ('\x22', '\x22'), ('a', '\x07'), ('b', '\x08'), ('f', '\x0c'),
    ('n', '\n'), ('r', '\r'), ('t', '\t'), ('v', '\x0b')]

/-- The characters that the escapes between single quotes stand for. -/
def singleEscapes : List (Char × Char) := [('\\', '\\'), ('\x27', '\x27')]

/-- A value without its escapes. -/
def unescape (escapes : List (Char × Char)) : Text → Text
  | '\\' :: c :: rest =>
    match escapes.lookup c with
    | some meaning => meaning :: unescape escapes rest
    | none => '\\' :: unescape escapes (c :: rest)
  | c :: rest => c :: unescape escapes rest
  | [] => []

/-- The part of a plain value in front of a comment: a hash sign behind white space. -/
def beforeComment : Text → Text
  | [] => []
  | c :: rest =>
    if Text.isBlank c && ['#'].isPrefixOf (rest.dropWhile Text.isBlank) then []
    else c :: beforeComment rest

/-- The value behind an equals sign and what follows it, or the text from where it is broken. White
space may stand in front of the value; a plain value may then be a comment only. -/
def readValue (text : Text) : Except Text (Text × Text) :=
  match skipInline text with
  | '\x27' :: rest =>
    match readQuoted '\x27' rest with
    | some (value, behind) => .ok (unescape singleEscapes value, behind)
    | none => .error ('\x27' :: rest)
  | '\x22' :: rest =>
    match readQuoted '\x22' rest with
    | some (value, behind) => .ok (unescape doubleEscapes value, behind)
    | none => .error ('\x22' :: rest)
  | _ =>
    let line := text.takeWhile fun c => !isLineEnd c
    .ok (Text.strip (beforeComment line), text.dropWhile fun c => !isLineEnd c)

/-! ## Statements -/

/-- A statement of a file. -/
inductive Statement where
  /-- A key and its value, if it has one. -/
  | assignment (key : String) (value : Option Text)
  /-- A statement that cannot be read, with the number of the line behind the statement before
  it. -/
  | broken (line : Nat)
  deriving DecidableEq, Repr

/-- What follows an assignment on its line is nothing or a comment; the text behind the line, or
the text from where something else follows. -/
def endLine (text : Text) : Except Text Text :=
  let behind := skipInline text
  let behind :=
    match behind with
    | '#' :: _ => behind.dropWhile fun c => !isLineEnd c
    | _ => behind
  match behind with
  | [] => .ok []
  | c :: _ => if isLineEnd c then .ok (afterLineEnd behind) else .error behind

/-- The assignment at the beginning of a text that begins with no white space, and the text behind
it, or the text from where it is broken. A key without an equals sign has no value. -/
def readAssignment (text : Text) : Except Text (Option Text × Option Text × Text) := do
  let text := skipExport text
  let (key, behind) ← (readKey text).elim (.error text) .ok
  match skipInline behind with
  | '=' :: behind =>
    let (value, behind) ← readValue behind
    return (key, some value, ← endLine behind)
  | behind => return (key, none, ← endLine behind)

/-- The number of the line that a later part of a text begins on, when the text begins on a line. -/
def lineBehind (line : Nat) (text behind : Text) : Nat :=
  line + ((Text.documentLines (text.take (text.length - behind.length))).length - 1)

/-- The statements of a text that begins on a line; what is left of the line where a statement is
broken is passed over. Each round takes at least one character, so as many rounds as there are
characters suffice. -/
def statementsFrom : (rounds line : Nat) → Text → List Statement
  | 0, _, _ => []
  | rounds + 1, line, text =>
    match text.dropWhile Text.isBlank with
    | [] => []
    | c :: rest =>
      match readAssignment (c :: rest) with
      | .ok (some key, value, behind) =>
        .assignment (String.ofList key) value ::
          statementsFrom rounds (lineBehind line text behind) behind
      | .ok (none, _, behind) => statementsFrom rounds (lineBehind line text behind) behind
      | .error rest =>
        let behind := skipLine rest
        .broken line :: statementsFrom rounds (lineBehind line text behind) behind

/-- The statements of a file, in order. A byte order mark at its beginning does not count. -/
def statements (file : Text) : List Statement :=
  let text :=
    match file with
    | '\ufeff' :: rest => rest
    | text => text
  statementsFrom text.length 1 text

/-- The line where each statement that cannot be read begins. -/
def brokenLines (statements : List Statement) : List Nat :=
  statements.filterMap fun
    | .broken line => some line
    | .assignment .. => none

/-! ## References to variables -/

/-- A reference to a variable at the beginning of a text behind its opening brace: the name, the
text for a variable that is not known, and what follows the reference. -/
def readReference (text : Text) : Option (Text × Text × Text) :=
  let isName (c : Char) : Bool := c ≠ '\x7d' && c ≠ ':'
  let name := text.takeWhile isName
  match text.dropWhile isName with
  | '\x7d' :: behind => some (name, [], behind)
  | ':' :: '-' :: rest =>
    let fallback := rest.takeWhile (· ≠ '\x7d')
    match rest.dropWhile (· ≠ '\x7d') with
    | _ :: behind => some (name, fallback, behind)
    | [] => none
  | _ => none

/-- A value in which each reference is replaced by what is known of its variable, which is nothing
for a variable that is named without a value. -/
def expandFrom (known : Table String (Option String)) : (rounds : Nat) → Text → Text
  | 0, text => text
  | _ + 1, [] => []
  | rounds + 1, '$' :: '\x7b' :: rest =>
    match readReference rest with
    | some (name, fallback, behind) =>
      let value :=
        match known.get? (String.ofList name) with
        | some value => value.elim [] String.toList
        | none => fallback
      value ++ expandFrom known rounds behind
    | none => '$' :: expandFrom known rounds ('\x7b' :: rest)
  | rounds + 1, c :: rest => c :: expandFrom known rounds rest

/-- A value with its references replaced. -/
def expand (known : Table String (Option String)) (value : Text) : String :=
  String.ofList (expandFrom known value.length value)

/-! ## Filling in variables -/

/-- The variables that statements name, each with the value of its last assignment, if that has one.
A reference finds the variables of the environment and, where they are not set there, those that
have been named before. -/
def assigned (environment : Environment) (statements : List Statement) :
    Table String (Option String) :=
  statements.foldl (fun sofar statement =>
    match statement with
    | .assignment key value =>
      let known := environment.entries.foldl (fun table (k, v) => table.insert k (some v)) sofar
      sofar.insert key (value.map (expand known))
    | .broken _ => sofar) .empty

/-- Why a variable cannot be set. -/
inductive Fault where
  /-- Its name or its value has a null character. -/
  | nullCharacter
  /-- Its name has an equals sign. -/
  | nameWithEquals
  deriving DecidableEq, Repr

/-- The message of a variable that cannot be set. -/
def Fault.message : Fault → String
  | nullCharacter => "embedded null byte"
  | nameWithEquals => "illegal environment variable name"

/-- What keeps a variable from being set to a value. -/
def fault? (name value : String) : Option Fault :=
  if name.toList.contains '\x00' || value.toList.contains '\x00' then some .nullCharacter
  else if name.toList.contains '=' then some .nameWithEquals
  else none

/-- The environment with one more variable, which stays as it is where it is set. -/
def fillOne (environment : Environment) (name : String) : Option String → Except Fault Environment
  | none => .ok environment
  | some value =>
    if environment.contains name then .ok environment
    else
      match fault? name value with
      | some fault => .error fault
      | none => .ok (environment.insert name value)

/-- The environment with the variables that are assigned and that are not set. -/
def fill (environment : Environment) (statements : List Statement) : Except Fault Environment :=
  (assigned environment statements).entries.foldlM (fun sofar (name, value) =>
    fillOne sofar name value) environment

/-! ## Loading a file -/

/-- The words that ask for the file to be left alone, in small letters. -/
def leaveAloneWords : List String := ["1", "true", "t", "yes", "y"]

/-- A letter without its case. The long s is the only letter outside ASCII that is one of the
letters of the words but for its case. -/
def foldCase (c : Char) : Char := if c = 'ſ' then 's' else c.toLower

/-- A variable asks for the file to be left alone. -/
def leavesFileAlone (environment : Environment) : Bool :=
  match environment.get? "PYTHON_DOTENV_DISABLED" with
  | some value => leaveAloneWords.contains (String.ofList (value.toList.map foldCase))
  | none => false

/-- What the file that is read fills in: nothing if there is none or if it is left alone. -/
def statementsToLoad (environment : Environment) (file : Option Text) : List Statement :=
  if environment.leavesFileAlone then [] else file.elim [] statements

/-- The environment after the file for variables has been read. -/
def load (environment : Environment) (file : Option Text) : Except Fault Environment :=
  environment.fill (environment.statementsToLoad file)

end Environment

end PersistedQueries
