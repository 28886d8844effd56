import PersistedQueries.GraphQL.Fault

/-!
# Tokens

- `Punctuator`, `Token`: the tokens of the language; strings are decoded.
- `Token.describe`: a token as a message names it.
- `TokenStream`: the tokens of a text with their offsets, up to its end or to the first place
  that starts no token. A fault in the text is thus met only when the tokens in front of it
  have been read.
-/

namespace PersistedQueries.GraphQL

/-- The tokens that are punctuation. -/
inductive Punctuator where
  | bang
  | dollar
  | amp
  | parenL
  | parenR
  | spread
  | colon
  | equals
  | at
  | bracketL
  | bracketR
  | braceL
  | pipe
  | braceR
  deriving DecidableEq, Repr

/-- A punctuator as it is written. -/
def Punctuator.text : Punctuator → Text
  | .bang => ['!']
  | .dollar => ['$']
  | .amp => ['&']
  | .parenL => ['(']
  | .parenR => [')']
  | .spread => ['.', '.', '.']
  | .colon => [':']
  | .equals => ['=']
  | .at => ['@']
  | .bracketL => ['[']
  | .bracketR => [']']
  | .braceL => ['\x7b']
  | .pipe => ['|']
  | .braceR => ['\x7d']

/-- A token. -/
inductive Token where
  | punct (p : Punctuator)
  | name (text : String)
  | int (text : String)
  | float (text : String)
  | string (content : String)
  | block (content : String)
  deriving DecidableEq, Repr

/-- A punctuator as a message names it. -/
def Punctuator.describe (p : Punctuator) : String := "'" ++ String.ofList p.text ++ "'"

/-- A token as a message names it. -/
def Token.describe : Token → String
  | .punct p => p.describe
  | .name text => s!"Name '{text}'"
  | .int text => s!"Int '{text}'"
  | .float text => s!"Float '{text}'"
  | .string content => s!"String '{content}'"
  | .block content => s!"BlockString '{content}'"

/-- The text that a token carries; punctuation carries none. -/
def Token.content? : Token → Option String
  | .punct _ => none
  | .name text => some text
  | .int text => some text
  | .float text => some text
  | .string content => some content
  | .block content => some content

/-- The tokens of a text. -/
inductive TokenStream where
  /-- The text ends. -/
  | done (offset : Nat)
  /-- No token starts here. -/
  | broken (fault : Fault)
  /-- A token and what follows it. -/
  | next (token : Token) (offset : Nat) (rest : TokenStream)
  deriving Repr

/-- The number of tokens. -/
def TokenStream.length : TokenStream → Nat
  | .next _ _ rest => rest.length + 1
  | _ => 0

end PersistedQueries.GraphQL
