import PersistedQueries.Text.Basic

/-!
# Variable-length quantities

A source map writes integers as base64 digits of five payload bits each, the lowest bits
first. A digit of 32 and more says that another follows; the sign is the lowest bit.

- `encodeVlq`: the digits of an integer.
- `decodeVlq?`: the integer at the front of a text of digits and the text behind it.
-/

namespace PersistedQueries.Splice

/-- The base64 digits in order of their values. -/
def base64Digits : Text :=
  "ABCDEFGHIJKLMNOPQRSTUVWXYZabcdefghijklmnopqrstuvwxyz0123456789+/".toList

/-- The digit of a value below 64. -/
def base64Digit (value : Nat) : Char := base64Digits.getD value 'A'

/-- The value of a digit. -/
def base64Value? (c : Char) : Option Nat := base64Digits.idxOf? c

/-- The sign moved into the lowest bit. -/
def zigzag (value : Int) : Nat := if value < 0 then 2 * value.natAbs + 1 else 2 * value.natAbs

/-- The integer whose sign is the lowest bit. -/
def unzigzag (n : Nat) : Int := if n % 2 = 1 then -((n / 2 : Nat) : Int) else ((n / 2 : Nat) : Int)

/-- The digits of a number, the lowest five bits first. -/
def encodeUnsigned (n : Nat) : Text :=
  if n < 32 then [base64Digit n] else base64Digit (n % 32 + 32) :: encodeUnsigned (n / 32)

/-- The digits of an integer. -/
def encodeVlq (value : Int) : Text := encodeUnsigned (zigzag value)

/-- The number at the front of a text of digits and the text behind it. -/
def decodeUnsigned? : Text → Option (Nat × Text)
  | [] => none
  | c :: rest => do
    let digit ← base64Value? c
    if digit < 32 then return (digit, rest)
    let (high, rest) ← decodeUnsigned? rest
    return (digit - 32 + 32 * high, rest)

/-- The integer at the front of a text of digits and the text behind it. -/
def decodeVlq? (text : Text) : Option (Int × Text) :=
  (decodeUnsigned? text).map fun (n, rest) => (unzigzag n, rest)

end PersistedQueries.Splice
