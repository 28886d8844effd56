import PersistedQueries.GraphQL.Token
import PersistedQueries.GraphQL.BlockString

/-!
# From texts to tokens

- `tokenize`: the tokens of a text. Blanks, tabs, line ends, commas, byte order marks and
  comments separate tokens and are dropped.
- `scanToken`: the token that begins at a character, and how many characters behind that one
  it takes.
- `scanNumber`, `scanString`, `scanBlock`: the tokens that have a grammar of their own.
-/

namespace PersistedQueries.GraphQL

/-! ## Character classes -/

/-- A digit. -/
def isDigit (c : Char) : Bool := '0' ≤ c && c ≤ '9'

/-- A character that may begin a name. -/
def isNameStart (c : Char) : Bool := ('A' ≤ c && c ≤ 'Z') || ('a' ≤ c && c ≤ 'z') || c = '_'

/-- A character that may continue a name. -/
def isNameContinue (c : Char) : Bool := isNameStart c || isDigit c

/-- A character that separates tokens and is dropped. -/
def isIgnored (c : Char) : Bool :=
  c = ' ' || c = '\t' || c = ',' || c = '\uFEFF' || c = '\n' || c = '\r'

/-- A carriage return or a line feed. -/
def isLineEnd (c : Char) : Bool := c = '\n' || c = '\r'

/-- The punctuator of one character. -/
def punctuatorOf? (c : Char) : Option Punctuator :=
  [Punctuator.bang, .dollar, .amp, .parenL, .parenR, .colon, .equals, .at, .bracketL, .bracketR,
   .braceL, .pipe, .braceR].find? (·.text = [c])

/-! ## Numbers -/

/-- The digits at the front of a text, of which there must be some, and the text behind them.
`offset` is the offset of the text. -/
def scanDigits (offset : Nat) (text : Text) : Except Fault (Text × Text) :=
  let digits := text.takeWhile isDigit
  if digits.isEmpty then .error ⟨.expectedDigit text.head?, offset⟩
  else .ok (digits, text.drop digits.length)

/-- The number at the front of a text: its characters, and whether it has a fraction or an
exponent. -/
def scanNumber (offset : Nat) (text : Text) : Except Fault (Text × Bool) := do
  let (sign, body) : Text × Text :=
    match text with
    | '-' :: rest => (['-'], rest)
    | _ => ([], text)
  let offset := offset + sign.length
  let (whole, rest) ←
    match body with
    | '0' :: rest =>
      match rest.head? with
      | some c => if isDigit c then throw ⟨.digitAfterZero c, offset + 1⟩ else pure (['0'], rest)
      | none => pure (['0'], rest)
    | _ => scanDigits offset body
  let offset := offset + whole.length
  let (fraction, rest) ←
    match rest with
    | '.' :: rest => do
      let (digits, rest) ← scanDigits (offset + 1) rest
      pure ('.' :: digits, rest)
    | _ => pure ([], rest)
  let offset := offset + fraction.length
  let (exponent, rest) ←
    match rest with
    | e :: rest' =>
      if e = 'e' || e = 'E' then do
        let (sign, rest') : Text × Text :=
          match rest' with
          | c :: more => if c = '+' || c = '-' then ([c], more) else ([], rest')
          | [] => ([], rest')
        let (digits, rest') ← scanDigits (offset + 1 + sign.length) rest'
        pure (e :: sign ++ digits, rest')
      else pure ([], rest)
    | [] => pure ([], rest)
  let offset := offset + exponent.length
  match rest.head? with
  | some c => if c = '.' || isNameStart c then throw ⟨.expectedDigit (some c), offset⟩ else pure ()
  | none => pure ()
  return (sign ++ whole ++ fraction ++ exponent, !fraction.isEmpty || !exponent.isEmpty)

/-! ## Strings -/

/-- The value of a hexadecimal digit. -/
def hexDigit? (c : Char) : Option Nat :=
  if '0' ≤ c ∧ c ≤ '9' then some (c.toNat - 48)
  else if 'a' ≤ c ∧ c ≤ 'f' then some (c.toNat - 87)
  else if 'A' ≤ c ∧ c ≤ 'F' then some (c.toNat - 55)
  else none

/-- The value of four hexadecimal digits at the front of a text. -/
def hex16? (text : Text) : Option Nat := do
  let digits ← (text.take 4).mapM hexDigit?
  if digits.length = 4 then return digits.foldl (fun n d => n * 16 + d) 0 else failure

/-- A number that is a code point and no surrogate. -/
def isScalar (n : Nat) : Bool := n < 0xD800 || (0xE000 ≤ n && n ≤ 0x10FFFF)

/-- The escape of a code point between braces: the character and the length of the escape. The
text begins behind the brace, `size` characters behind the backslash. The error is the length
of the part that is shown. -/
def scanBracedEscape (size point : Nat) : Text → Except Nat (Char × Nat)
  | [] => .error size
  | c :: rest =>
    if size ≥ 12 then .error size
    else if c = '\x7d' then
      if size + 1 < 5 || !isScalar point then .error (size + 1)
      else .ok (Char.ofNat point, size + 1)
    else
      match hexDigit? c with
      | none => .error (size + 1)
      | some digit => scanBracedEscape (size + 1) (point * 16 + digit) rest

/-- The escape of a code point in four digits, or of two surrogates that form a pair. The
text begins behind the `u`. -/
def scanFixedEscape (text : Text) : Except Nat (Char × Nat) :=
  match hex16? text with
  | none => .error 6
  | some code =>
    if isScalar code then .ok (Char.ofNat code, 6)
    else if code < 0xDC00 ∧ (text.drop 4).take 2 = ['\\', 'u'] then
      match hex16? (text.drop 6) with
      | some low =>
        if 0xDC00 ≤ low ∧ low < 0xE000 then
          .ok (Char.ofNat (0x10000 + (code - 0xD800) * 0x400 + (low - 0xDC00)), 12)
        else .error 6
      | none => .error 6
    else .error 6

/-- The character that an escape of one letter stands for. -/
def simpleEscape? (c : Char) : Option Char :=
  if c = '\x22' || c = '/' || c = '\\' then some c
  else if c = 'b' then some '\x08'
  else if c = 'f' then some '\x0c'
  else if c = 'n' then some '\n'
  else if c = 'r' then some '\r'
  else if c = 't' then some '\t'
  else none

/-- The escape that the text begins with: its character and its length. `offset` is the
offset of the backslash. -/
def scanEscape (offset : Nat) (text : Text) : Except Fault (Char × Nat) :=
  match text with
  | _ :: 'u' :: '\x7b' :: rest =>
    match scanBracedEscape 3 0 rest with
    | .ok found => .ok found
    | .error size => .error ⟨.invalidUnicodeEscape (String.ofList (text.take size)), offset⟩
  | _ :: 'u' :: rest =>
    match scanFixedEscape rest with
    | .ok found => .ok found
    | .error size => .error ⟨.invalidUnicodeEscape (String.ofList (text.take size)), offset⟩
  | _ :: c :: _ =>
    match simpleEscape? c with
    | some escaped => .ok (escaped, 2)
    | none => .error ⟨.invalidEscape (String.ofList (text.take 2)), offset⟩
  | _ => .error ⟨.invalidEscape (String.ofList text), offset⟩

/-- The value of a string and the number of characters up to its closing quote, that quote
included. The text begins behind the opening quote, at `offset`. -/
def scanString (offset : Nat) (text : Text) : Except Fault (Text × Nat) :=
  match text with
  | [] => .error ⟨.unterminatedString, offset⟩
  | c :: rest =>
    if c = '\x22' then .ok ([], 1)
    else if c = '\\' then
      match scanEscape offset (c :: rest) with
      | .error fault => .error fault
      | .ok (escaped, size) =>
        match scanString (offset + (size - 1 + 1)) (rest.drop (size - 1)) with
        | .error fault => .error fault
        | .ok (value, length) => .ok (escaped :: value, length + (size - 1 + 1))
    else if isLineEnd c then .error ⟨.unterminatedString, offset⟩
    else
      match scanString (offset + 1) rest with
      | .error fault => .error fault
      | .ok (value, length) => .ok (c :: value, length + 1)
termination_by text.length
decreasing_by all_goals grind

/-- Put a character in front of the first line. -/
def extendFirst (c : Char) : List Text → List Text
  | [] => [[c]]
  | line :: lines => (c :: line) :: lines

/-- The lines of a block string as written and the number of characters up to its closing
quotes, those included. The text begins behind the opening quotes, at `offset`. -/
def scanBlock (offset : Nat) : Text → Except Fault (List Text × Nat)
  | [] => .error ⟨.unterminatedString, offset⟩
  | '\x22' :: '\x22' :: '\x22' :: _ => .ok ([[]], 3)
  | '\\' :: '\x22' :: '\x22' :: '\x22' :: rest =>
    (scanBlock (offset + 4) rest).map fun (lines, length) =>
      (extendFirst '\x22' (extendFirst '\x22' (extendFirst '\x22' lines)), length + 4)
  | '\r' :: '\n' :: rest =>
    (scanBlock (offset + 2) rest).map fun (lines, length) => ([] :: lines, length + 2)
  | c :: rest =>
    (scanBlock (offset + 1) rest).map fun (lines, length) =>
      (if isLineEnd c then [] :: lines else extendFirst c lines, length + 1)

/-- The value of a block string from its lines as written. -/
def blockValue (lines : List Text) : Text := Text.joinWith ['\n'] (dedent lines)

/-! ## Tokens -/

/-- The token that begins at a character, and how many characters behind that one it takes. -/
def scanToken (offset : Nat) (c : Char) (rest : Text) : Except Fault (Token × Nat) :=
  match punctuatorOf? c with
  | some p => .ok (.punct p, 0)
  | none =>
    if c = '.' ∧ rest.take 2 = ['.', '.'] then .ok (.punct .spread, 2)
    else if isDigit c || c = '-' then do
      let (number, isFloat) ← scanNumber offset (c :: rest)
      let text := String.ofList number
      return (if isFloat then .float text else .int text, number.length - 1)
    else if isNameStart c then
      let tail := rest.takeWhile isNameContinue
      .ok (.name (String.ofList (c :: tail)), tail.length)
    else if c = '\x22' then
      if rest.take 2 = ['\x22', '\x22'] then do
        let (lines, length) ← scanBlock (offset + 3) (rest.drop 2)
        return (.block (String.ofList (blockValue lines)), 2 + length)
      else do
        let (value, length) ← scanString (offset + 1) rest
        return (.string (String.ofList value), length)
    else if c = '\x27' then .error ⟨.singleQuote, offset⟩
    else .error ⟨.unexpectedCharacter c, offset⟩

/-- The tokens from an offset on. -/
def tokenizeFrom (offset : Nat) (text : Text) : TokenStream :=
  match text with
  | [] => .done offset
  | c :: rest =>
    if isIgnored c then tokenizeFrom (offset + 1) rest
    else if c = '#' then
      let comment := rest.takeWhile fun c => !isLineEnd c
      tokenizeFrom (offset + 1 + comment.length) (rest.drop comment.length)
    else
      match scanToken offset c rest with
      | .error fault => .broken fault
      | .ok (token, length) =>
        .next token offset (tokenizeFrom (offset + 1 + length) (rest.drop length))
termination_by text.length
decreasing_by all_goals grind

/-- The tokens of a text. -/
def tokenize (text : Text) : TokenStream := tokenizeFrom 0 text

end PersistedQueries.GraphQL
