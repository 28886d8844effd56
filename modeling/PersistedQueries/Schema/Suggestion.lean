import PersistedQueries.Text.Basic

/-!
# Suggestions for unknown names

A message about an unknown name goes on with the known names that are spelt much like it.

- `distance`: the number of characters to insert, drop, change or swap with their neighbour to
  turn one text into another, where no character is touched twice.
- `nameDistance`: the same without regard to case, which counts once when nothing else differs.
- `naturallyBefore`: the order in which numbers within names count by their value.
- `suggestions`: the names close enough, the closest first.
- `didYouMean`: the question at the end of a message.
-/

namespace PersistedQueries.Schema

/-! ## Distance -/

/-- The cells of a row of the distance table from the second on. The row belongs to the
character `c`, and `before` is the character of the row above. `left` is the cell before the next
one, `above` the row above from the cell over `left` on, and `twoAbove` the row above that from
two cells before the next one on, once there are two. -/
def rowCells (c : Char) (before : Option Char) :
    Text → Option Char → Nat → List Nat → List Nat → List Nat
  | d :: behind, last, left, corner :: up :: above, twoAbove =>
    let step := min (min (up + 1) (left + 1)) (if c = d then corner else corner + 1)
    match last, twoAbove with
    | some _, far :: rest =>
      let cell := if last = some c ∧ before = some d then min step (far + 1) else step
      cell :: rowCells c before behind (some d) cell (up :: above) rest
    | _, _ => step :: rowCells c before behind (some d) step (up :: above) twoAbove
  | _, _, _, _, _ => []

/-- The last row of the distance table, from the row above it, the row above that and the
number of rows so far. -/
def lastRow (target : Text) : Text → Option Char → Nat → List Nat → List Nat → List Nat
  | [], _, _, above, _ => above
  | c :: rest, before, index, above, twoAbove =>
    let row := (index + 1) :: rowCells c before target none (index + 1) above twoAbove
    lastRow target rest (some c) (index + 1) row above

/-- The number of characters to insert, drop, change or swap. -/
def distance (source target : Text) : Nat :=
  (lastRow target source none 0 (List.range (target.length + 1)) []).getLast?.getD 0

/-- How far a name is from another one. -/
def nameDistance (name other : String) : Nat :=
  if name = other then 0
  else
    let name := name.toList.map Char.toLower
    let other := other.toList.map Char.toLower
    if name = other then 1 else distance name other

/-- How far a suggestion may be from a name. -/
def tolerance (name : String) : Nat := name.length * 2 / 5 + 1

/-! ## Order -/

/-- A piece of a name: digits, or what stands between digits. -/
inductive Piece where
  | word (text : Text)
  | number (digits : Text)
  deriving DecidableEq, Repr

/-- The value of digits. -/
def digitsValue (digits : Text) : Nat := digits.foldl (fun n c => n * 10 + (c.toNat - 48)) 0

/-- The pieces of a name, words and numbers by turns and a word first. -/
def pieces : Text → List Piece
  | [] => [.word []]
  | c :: rest =>
    if c.isDigit then
      match pieces rest with
      | .word [] :: .number digits :: behind => .word [] :: .number (c :: digits) :: behind
      | behind => .word [] :: .number [c] :: behind
    else
      match pieces rest with
      | .word text :: behind => .word (c :: text) :: behind
      | behind => .word [c] :: behind

/-- One piece comes before another: numbers by their value, and words, and numbers of one
value, by their characters. -/
def Piece.before : Piece → Piece → Bool
  | .word a, .word b => decide (a < b)
  | .number a, .number b =>
    digitsValue a < digitsValue b || (digitsValue a == digitsValue b && decide (a < b))
  | .word _, .number _ => true
  | .number _, .word _ => false

/-- Pieces come before others at the first place where they differ. -/
def piecesBefore : List Piece → List Piece → Bool
  | _, [] => false
  | [], _ :: _ => true
  | a :: as, b :: bs => if a = b then piecesBefore as bs else a.before b

/-- The order of names in which numbers count by their value. -/
def naturallyBefore (a b : String) : Bool := piecesBefore (pieces a.toList) (pieces b.toList)

/-! ## Suggestions -/

/-- The known names within reach of a name, the closest first and those equally close in
natural order. -/
def suggestions (name : String) (known : List String) : List String :=
  let near := known.eraseDups.filterMap fun other =>
    let far := nameDistance name other
    if far ≤ tolerance name then some (far, other) else none
  let sorted := near.mergeSort fun a b =>
    a.1 < b.1 || (a.1 == b.1 && !naturallyBefore b.2 a.2)
  sorted.map Prod.snd

/-- A choice of names in words. -/
def alternatives : List String → String
  | [] => ""
  | [a] => a
  | [a, b] => s!"{a} or {b}"
  | names => String.intercalate ", " names.dropLast ++ ", or " ++ (names.getLast?.getD "")

/-- The question at the end of a message, which names at most five suggestions. -/
def didYouMean (name : String) (known : List String) : String :=
  let close := ((suggestions name known).take 5).map fun other => s!"'{other}'"
  if close.isEmpty then "" else " Did you mean " ++ alternatives close ++ "?"

end PersistedQueries.Schema
