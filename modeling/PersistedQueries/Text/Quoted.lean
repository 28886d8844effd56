import PersistedQueries.Text.Printable

/-!
# Quoted values

Messages that show a text quote it so that it can be told from its surroundings.

- `quote`: the text between single quotes, or between double quotes when it holds a single
  quote and no double quote; the quote in use, the backslash and unprintable characters are
  escaped.
-/

namespace PersistedQueries.Text

/-- The digits of a number in base sixteen, in lower case, at least `width` of them. -/
def hexDigits (width n : Nat) : String :=
  let digits := Nat.toDigits 16 n
  String.ofList (List.replicate (width - digits.length) '0' ++ digits)

/-- One character of a quoted text. -/
def quoteChar (delimiter c : Char) : String :=
  if c = delimiter || c = '\\' then String.ofList ['\\', c]
  else if c = '\t' then "\\t"
  else if c = '\n' then "\\n"
  else if c = '\r' then "\\r"
  else if isPrintable c then String.singleton c
  else if c.toNat < 0x100 then "\\x" ++ hexDigits 2 c.toNat
  else if c.toNat < 0x10000 then "\\u" ++ hexDigits 4 c.toNat
  else "\\U" ++ hexDigits 8 c.toNat

/-- The quote that a text is put between. -/
def quoteDelimiter (text : String) : Char :=
  if text.toList.contains '\x27' && !text.toList.contains '\x22' then '\x22' else '\x27'

/-- The text as a message shows it. -/
def quote (text : String) : String :=
  let delimiter := quoteDelimiter text
  String.singleton delimiter ++ String.join (text.toList.map (quoteChar delimiter)) ++
    String.singleton delimiter

end PersistedQueries.Text
