/-!
# Binary floating point in exact arithmetic

A number with a fraction is read into the nearest double and written with the fewest digits
that read back to it. All of it is integer arithmetic, so nothing depends on a machine's
rounding mode.

- `Binary64`: not a number, an infinity, or `mantissa * 2 ^ exponent`.
- `ofDecimal`: the double nearest to `digits * 10 ^ exponent`, a tie going to the even
  mantissa.
- `shortest`: the fewest decimal digits, and their scale, that read back to a finite double.
- `toText`: those digits written positionally when the first digit's weight lies between
  10 ^ -4 and 10 ^ 15, and with an exponent of two digits or more otherwise.
- `toShortText`: the same without a fraction of zero.
-/

namespace PersistedQueries

/-- A double. A finite one has a mantissa below 2 ^ 53, and of at least 2 ^ 52 unless the
exponent is the least one, -1074. -/
inductive Binary64 where
  | nan
  | infinite (negative : Bool)
  | finite (negative : Bool) (mantissa : Nat) (exponent : Int)
  deriving DecidableEq, Repr, Inhabited

namespace Binary64

/-- The number is neither zero nor minus zero. -/
def isNonzero : Binary64 → Bool
  | .finite _ mantissa _ => mantissa != 0
  | _ => true

/-- The quotient rounded to nearest, a tie going to the even neighbour. -/
def roundDiv (numerator denominator : Nat) : Nat :=
  let quotient := numerator / denominator
  let twice := 2 * (numerator % denominator)
  if twice > denominator || (twice == denominator && quotient % 2 == 1) then quotient + 1
  else quotient

/-- The double nearest to a positive quotient. -/
def ofQuotient (negative : Bool) (numerator denominator : Nat) : Binary64 :=
  let guess : Int := (numerator.log2 : Int) - (denominator.log2 : Int) - 52
  -- the quotient divided by two to this power is below 2 ^ 53 and, short of the least
  -- exponent, at least 2 ^ 52
  let scaled (exponent : Int) : Nat × Nat :=
    if exponent ≥ 0 then (numerator, denominator * Nat.pow 2 exponent.toNat)
    else (numerator * Nat.pow 2 (-exponent).toNat, denominator)
  let fits (exponent : Int) : Bool := let (n, d) := scaled exponent; n / d ≥ Nat.pow 2 52
  let exponent := if fits guess then guess else guess - 1
  let exponent := if exponent < -1074 then -1074 else exponent
  let (n, d) := scaled exponent
  let mantissa := roundDiv n d
  let (mantissa, exponent) :=
    if mantissa ≥ Nat.pow 2 53 then (mantissa / 2, exponent + 1) else (mantissa, exponent)
  if exponent > 971 then .infinite negative else .finite negative mantissa exponent

/-- The double nearest to `digits * 10 ^ exponent`. -/
def ofDecimal (negative : Bool) (digits : Nat) (exponent : Int) : Binary64 :=
  if digits = 0 then .finite negative 0 (-1074)
  else
    let width : Int := (Nat.toDigits 10 digits).length
    if width + exponent > 400 then .infinite negative
    else if width + exponent < -400 then .finite negative 0 (-1074)
    else if exponent ≥ 0 then ofQuotient negative (digits * Nat.pow 10 exponent.toNat) 1
    else ofQuotient negative digits (Nat.pow 10 (-exponent).toNat)

/-- The bounds of the reals that round to a positive double, in units of a quarter of the
last place, and whether they are included. -/
def bounds (mantissa : Nat) (exponent : Int) : Nat × Nat × Bool :=
  let isLeast := mantissa = Nat.pow 2 52 ∧ exponent > -1074
  let low := if isLeast then 4 * mantissa - 1 else 4 * mantissa - 2
  (low, 4 * mantissa + 2, mantissa % 2 = 0)

/-- The number of decimal digits before the point of a positive quotient, less those behind
it when the quotient is below one: ten to this power is the first power above the quotient. -/
def decimalWidth (numerator denominator : Nat) : Int :=
  if numerator ≥ denominator then (Nat.toDigits 10 (numerator / denominator)).length
  else
    let rec search : (fuel : Nat) → (numerator : Nat) → Int → Int
      | 0, _, width => width
      | fuel + 1, n, width => if 10 * n ≥ denominator then width else search fuel (10 * n) (width - 1)
    search 400 numerator 0

/-- Try to write a positive double with a number of digits: the digits, as a number, and the
weight of the last one, as a power of ten. -/
def tryDigits (mantissa : Nat) (exponent width : Int) (count : Nat) : Option (Nat × Int) :=
  let scale : Int := width - count
  -- value, bounds and grid step over one denominator
  let two := if exponent ≥ 2 then Nat.pow 2 (exponent - 2).toNat else 1
  let den := if exponent ≥ 2 then 1 else Nat.pow 2 (2 - exponent).toNat
  let up := if scale ≥ 0 then 1 else Nat.pow 10 (-scale).toNat
  let down := if scale ≥ 0 then Nat.pow 10 scale.toNat else 1
  let (low, high, included) := bounds mantissa exponent
  let value := 4 * mantissa * two * up
  let step := den * down
  let below := value / step
  let inside (digits : Nat) : Bool :=
    let point := digits * step
    let low := low * two * up
    let high := high * two * up
    if included then low ≤ point && point ≤ high else low < point && point < high
  let first := inside below && below != 0
  let second := inside (below + 1)
  if first && second then
    let remainder := value - below * step
    if 2 * remainder < step || (2 * remainder == step && below % 2 == 0) then some (below, scale)
    else some (below + 1, scale)
  else if first then some (below, scale)
  else if second then some (below + 1, scale)
  else none

/-- A positive finite double as a quotient. -/
def quotient (mantissa : Nat) (exponent : Int) : Nat × Nat :=
  if exponent ≥ 0 then (mantissa * Nat.pow 2 exponent.toNat, 1)
  else (mantissa, Nat.pow 2 (-exponent).toNat)

/-- The fewest digits that read back to a positive double, and the weight of the last one. -/
def shortest (mantissa : Nat) (exponent : Int) : Nat × Int :=
  let (numerator, denominator) := quotient mantissa exponent
  let width := decimalWidth numerator denominator
  let counts := (List.range 17).map (· + 1)
  (counts.findSome? (tryDigits mantissa exponent width)).getD (0, 0)

/-- Digits without trailing zeros, and the weight of the last one. -/
def dropZeros : (fuel : Nat) → Nat → Int → Nat × Int
  | 0, digits, scale => (digits, scale)
  | fuel + 1, digits, scale =>
    if digits ≠ 0 ∧ digits % 10 = 0 then dropZeros fuel (digits / 10) (scale + 1) else (digits, scale)

/-- The text of a positive number from its digits, as a number, and the weight of the last one.
It is positional when the first digit's weight lies between 10 ^ -4 and 10 ^ 15, with the text
`whole` behind a number without a fraction. -/
def layout (whole : String) (digits : Nat) (scale : Int) : String :=
  let (digits, scale) := dropZeros 400 digits scale
  let text := Nat.toDigits 10 digits
  -- the weight of the first digit
  let top : Int := scale + text.length - 1
  if -4 ≤ top ∧ top < 16 then
    if scale ≥ 0 then String.ofList (text ++ List.replicate scale.toNat '0') ++ whole
    else if top ≥ 0 then
      let width := top.toNat + 1
      String.ofList (text.take width) ++ "." ++ String.ofList (text.drop width)
    else "0." ++ String.ofList (List.replicate (-top - 1).toNat '0' ++ text)
  else
    let head := String.ofList (text.take 1)
    let tail := if text.length > 1 then "." ++ String.ofList (text.drop 1) else ""
    let size := Nat.toDigits 10 top.natAbs
    let size := if size.length < 2 then '0' :: size else size
    head ++ tail ++ "e" ++ (if top < 0 then "-" else "+") ++ String.ofList size

/-- The text of a positive finite double with the fewest digits that read back to it, and the
text `whole` behind it when it has no fraction. -/
def positiveText (whole : String) (mantissa : Nat) (exponent : Int) : String :=
  let (digits, scale) := shortest mantissa exponent
  layout whole digits scale

/-- The text of a double, with the text `whole` behind one without a fraction. -/
def textWith (whole : String) : Binary64 → String
  | .nan => "nan"
  | .infinite negative => if negative then "-inf" else "inf"
  | .finite negative mantissa exponent =>
    (if negative then "-" else "") ++
      if mantissa = 0 then "0" ++ whole else positiveText whole mantissa exponent

/-- The text of a double. -/
def toText : Binary64 → String := textWith ".0"

/-- The text of a double, without the fraction of one that is whole. -/
def toShortText : Binary64 → String := textWith ""

/-- The least whole number that a finite double does not exceed. -/
def ceil? : Binary64 → Option Int
  | .nan | .infinite _ => none
  | .finite negative mantissa exponent =>
    let (numerator, denominator) := quotient mantissa exponent
    some <|
      if negative then -((numerator / denominator : Nat) : Int)
      else ((numerator + denominator - 1) / denominator : Nat)

/-- The whole number that a double is, if it is one. -/
def whole? : Binary64 → Option Int
  | .nan | .infinite _ => none
  | .finite negative mantissa exponent =>
    let (numerator, denominator) := quotient mantissa exponent
    let value : Int := (numerator / denominator : Nat)
    if numerator % denominator = 0 then some (if negative then -value else value) else none

/-- The number is neither an infinity nor not a number. -/
def isFinite : Binary64 → Bool
  | .finite .. => true
  | _ => false

end Binary64

end PersistedQueries
