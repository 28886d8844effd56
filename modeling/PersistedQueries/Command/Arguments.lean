import PersistedQueries.Command.Usage
import PersistedQueries.Json.Basic
import PersistedQueries.Text.Digit
import PersistedQueries.Text.Quoted

/-!
# Arguments

Every argument is a flag, possibly shortened or with its value behind an equals sign, or the value
of the flag in front of it. Nothing else is an argument.

- `Value`: what a flag is given.
- `Arguments`: what the arguments say.
- `Token`, `Token.ofWord`: what a word is, before its neighbours are looked at.
- `Invalid`: why words are no arguments.
- `Arguments.ofWords`: the arguments that some words are, or a request for help.
-/

namespace PersistedQueries.Command

/-- What a flag is given. Two dashes are taken out of the words that make up a value, so a flag that
is given just them has the list of no words for its value. -/
inductive Value where
  | text (text : String)
  | noWords
  deriving DecidableEq, Repr

namespace Value

/-- The value that a word makes up. -/
def ofWord (word : String) : Value := if word = "--" then noWords else text word

/-- The text that a flag is given. -/
def text? : Value → Option String
  | text value => some value
  | noWords => none

/-- The value as JSON. -/
def toJson : Value → Json
  | text value => .string value
  | noWords => .array []

end Value

/-- What the arguments say. -/
structure Arguments where
  /-- The file or directory to process. -/
  path : Option Value := none
  /-- The path of the manifest. -/
  output : Option Value := none
  /-- Patterns of directories that are left out. -/
  exclude : Value := .text ""
  /-- The endings of source files. -/
  extensions : Option Value := none
  /-- Import aliases. -/
  aliases : List Value := []
  /-- The directory that aliases are relative to. -/
  root : Value := .text "."
  /-- Persisted calls keep only the digest. -/
  removeSource : Bool := false
  /-- Nested selection sets select the type name. -/
  addTypename : Bool := false
  /-- Persisted calls are marked as free of effects. -/
  isPure : Bool := false
  /-- Source files are changed in place. -/
  write : Bool := false
  /-- Transformed copies go into this directory. -/
  outDir : Option Value := none
  /-- Source maps are written. -/
  sourceMaps : Bool := false
  /-- Nothing is written. -/
  dryRun : Bool := false
  /-- The results are readable for people. -/
  print : Bool := false
  /-- Progress is printed. -/
  verbose : Bool := false
  /-- The schema file or the address of the endpoint. -/
  schema : Option Value := none
  /-- The path for the introspection result. -/
  introspectionOutput : Option Value := none
  /-- The path for the possible types. -/
  possibleTypesOutput : Option Value := none
  /-- The path for the minified result. -/
  minifiedOutput : Option Value := none
  /-- Headers for the endpoint. -/
  headers : List Value := []

/-! ## Words -/

/-- Why words are no arguments. -/
inductive Invalid where
  /-- A shortened flag may be several. -/
  | ambiguous (written : String) (candidates : List String)
  /-- A flag lacks its value. -/
  | noValue (flag : Flag)
  /-- A flag that takes no value has one. -/
  | surplusValue (flag : Flag) (value : String)
  /-- Words that are neither flags nor values. -/
  | unrecognized (words : List String)
  deriving DecidableEq, Repr

/-- A flag as messages name it. -/
def Flag.title (flag : Flag) : String := String.intercalate "/" flag.names

/-- The message for words that are no arguments. -/
def Invalid.message : Invalid → String
  | ambiguous written candidates =>
    "ambiguous option: " ++ written ++ " could match " ++ String.intercalate ", " candidates
  | noValue flag => "argument " ++ flag.title ++ ": expected one argument"
  | surplusValue flag value =>
    "argument " ++ flag.title ++ ": ignored explicit argument " ++ Text.quote value
  | unrecognized words => "unrecognized arguments: " ++ String.intercalate " " words

/-- What a word is. -/
inductive Token where
  /-- It may be the value of a flag. -/
  | value
  /-- A flag, which may be written with one letter, perhaps with a value. -/
  | flag (flag : Flag) (isLetter : Bool) (value : Option String)
  /-- It looks like a flag and is none. -/
  | other
  /-- Two dashes: no flags follow. -/
  | separator
  deriving DecidableEq, Repr

/-- A word up to its first equals sign, and what is behind it. -/
def splitValue (word : String) : String × Option String :=
  match Text.partition ['='] word.toList with
  | none => (word, none)
  | some (name, value) => (String.ofList name, some (String.ofList value))

/-- Some digits, perhaps with a point and further digits, behind a dash. A line feed may follow
them. -/
def isNegativeNumber (word : Text) : Bool :=
  let line := if word.getLast? = some '\n' then word.dropLast else word
  match line with
  | '-' :: rest =>
    match rest.dropWhile Text.isDecimalDigit with
    | [] => !rest.isEmpty
    | '.' :: fraction => !fraction.isEmpty && fraction.all Text.isDecimalDigit
    | _ => false
  | _ => false

/-- The flags that a word may be short for, with their spellings. -/
def candidates (word : String) : List (String × Token) :=
  if ['-', '-'].isPrefixOf word.toList then
    let (name, value) := splitValue word
    (Flag.spellings.filter fun (spelling, _) => name.toList.isPrefixOf spelling.toList).map
      fun (spelling, flag) => (spelling, .flag flag false value)
  else
    let short := String.ofList (word.toList.take 2)
    let rest := String.ofList (word.toList.drop 2)
    (Flag.spellings.filter fun (spelling, _) => spelling = short).map
      fun (spelling, flag) => (spelling, .flag flag true (some rest))

/-- What a word that begins with a dash is when it is no spelling of a flag. -/
def Token.ofDashed (word : String) : Except Invalid Token :=
  match candidates word with
  | [(_, token)] => .ok token
  | [] => .ok (if isNegativeNumber word.toList || word.toList.contains ' ' then .value else .other)
  | several => .error (.ambiguous word (several.map Prod.fst))

/-- What a word is. -/
def Token.ofWord (word : String) : Except Invalid Token :=
  if word.toList.head? ≠ some '-' || word = "-" then .ok .value
  else
    match Flag.ofSpelling? word with
    | some found => .ok (.flag found false none)
    | none =>
      match splitValue word with
      | (name, some behind) =>
        match Flag.ofSpelling? name with
        | some found => .ok (.flag found (name.length = 2) (some behind))
        | none => Token.ofDashed word
      | _ => Token.ofDashed word

/-- What each word is. Behind two dashes every word is a value. -/
def tokens : List String → Except Invalid (List (String × Token))
  | [] => .ok []
  | word :: rest =>
    if word = "--" then .ok ((word, .separator) :: rest.map fun w => (w, .value))
    else do
      let token ← Token.ofWord word
      return (word, token) :: (← tokens rest)

/-! ## Arguments -/

/-- The arguments with one more flag that takes a value. -/
def Arguments.setValue (arguments : Arguments) (flag : Flag) (value : Value) : Arguments :=
  match flag with
  | .path => { arguments with path := some value }
  | .output => { arguments with output := some value }
  | .exclude => { arguments with exclude := value }
  | .extensions => { arguments with extensions := some value }
  | .aliases => { arguments with aliases := arguments.aliases ++ [value] }
  | .root => { arguments with root := value }
  | .outDir => { arguments with outDir := some value }
  | .schema => { arguments with schema := some value }
  | .introspectionOutput => { arguments with introspectionOutput := some value }
  | .possibleTypesOutput => { arguments with possibleTypesOutput := some value }
  | .minifiedOutput => { arguments with minifiedOutput := some value }
  | .headers => { arguments with headers := arguments.headers ++ [value] }
  | _ => arguments

/-- The arguments with one more flag that takes no value. -/
def Arguments.setSwitch (arguments : Arguments) (flag : Flag) : Arguments :=
  match flag with
  | .removeSource => { arguments with removeSource := true }
  | .addTypename => { arguments with addTypename := true }
  | .pure => { arguments with isPure := true }
  | .write => { arguments with write := true }
  | .sourceMaps => { arguments with sourceMaps := true }
  | .dryRun => { arguments with dryRun := true }
  | .print => { arguments with print := true }
  | .verbose => { arguments with verbose := true }
  | _ => arguments

/-- What the words ask for. -/
inductive Request where
  | help
  | run (arguments : Arguments)

/-- What is wrong with the value of a flag that takes none. The letters behind a flag of one letter
are flags themselves. As there is no other such flag, they repeat it; the first character that does
not begins the value. -/
def surplus? (flag : Flag) (isLetter : Bool) (value : String) : Option Invalid :=
  if isLetter && value ≠ "" then
    match value.toList.dropWhile (· = 'h') with
    | [] => none
    | behind => some (.surplusValue flag (String.ofList behind))
  else some (.surplusValue flag value)

/-- Read the words from left to right. `others` are the words so far that are no arguments; a
request for help counts before they do. -/
def readFrom (arguments : Arguments) (others : List String) :
    List (String × Token) → Except Invalid Request
  | [] => if others.isEmpty then .ok (.run arguments) else .error (.unrecognized others)
  | (word, .value) :: rest | (word, .other) :: rest | (word, .separator) :: rest =>
    readFrom arguments (others ++ [word]) rest
  | (_, .flag flag isLetter value) :: rest =>
    if flag.takesValue then
      match value, rest with
      | some word, rest => readFrom (arguments.setValue flag (.ofWord word)) others rest
      | none, (word, .value) :: rest => readFrom (arguments.setValue flag (.ofWord word)) others rest
      | none, _ => .error (.noValue flag)
    else
      match value.bind (surplus? flag isLetter) with
      | some invalid => .error invalid
      | none => if flag = .help then .ok .help else readFrom (arguments.setSwitch flag) others rest

/-- What some words ask for. -/
def Request.ofWords (words : List String) : Except Invalid Request := do
  readFrom {} [] (← tokens words)

end PersistedQueries.Command
