import PersistedQueries.Json.Reader
import PersistedQueries.Schema.Misfit
import PersistedQueries.Schema.Standard

/-!
# Literals read at a type

A default value is read at the type of its argument: a value in the place of a list of one is put
into a list, an input object gets the defaults of the fields that it leaves out, and its fields
come in the order of the type. A literal that does not fit the type counts as no default.

- `Shape`, `Shapes`: what a named type is for a literal.
- `leaf`: a literal at a scalar or an enumeration.
- `readThrough`: the part of reading that concerns lists and null.
- `read`: a literal at a type.
-/

namespace PersistedQueries.Schema

open GraphQL (Value TypeRef)

/-- What a named type is for a literal. -/
inductive Shape where
  | int
  | float
  | string
  | boolean
  | id
  /-- A scalar of the document, which takes any literal. -/
  | any
  | enum (values : List String)
  /-- An input type, of whose fields exactly one may have to be given. -/
  | input (isOneOf : Bool)
  /-- A type whose values are no inputs. -/
  | output

/-- The named types as literals see them. -/
structure Shapes where
  /-- What a named type is. -/
  shape : String → Shape
  /-- The fields of an input type. -/
  fields : String → Except Misfit (List Input)

/-- How a literal reads at each type: what it stands for, or nothing where it does not fit. -/
abbrev Reading := TypeRef → Except Misfit (Option Json)

/-! ## Scalars and enumerations -/

/-- A number without its sign, and whether there is one. -/
def splitSign : Text → Bool × Text
  | '-' :: rest => (true, rest)
  | text => (false, text)

/-- The whole number that a literal denotes, unless it has too many digits. -/
def whole? (text : String) : Option Int :=
  let (isNegative, digits) := splitSign text.toList
  let value : Int := Json.digitsValue digits
  if digits.length > Json.digitLimit then none else some (if isNegative then -value else value)

/-- The double nearest to the number that a literal denotes. -/
def double (text : String) : Binary64 :=
  let (isNegative, body) := splitSign text.toList
  let whole := body.takeWhile Char.isDigit
  let behind := body.drop whole.length
  let (digits, behind) := (Json.fraction? behind).getD ([], behind)
  let power := (Json.exponent? behind).elim 0 fun (power, _, _) => power
  .ofDecimal isNegative (Json.digitsValue (whole ++ digits)) (power - digits.length)

/-- A whole number of 32 bits. -/
def isSmall (value : Int) : Bool := -2147483648 ≤ value && value ≤ 2147483647

mutual

/-- A literal as any scalar of the document takes it. The values of enumerations become strings,
and a whole number that has too many digits is none. -/
def plain : Value → Json
  | .int text => (whole? text).elim (.real .nan) .int
  | .float text => .real (double text)
  | .string content _ => .string content
  | .boolean value => .bool value
  | .enum name => .string name
  | .list items => .array (plainItems items)
  | .object fields => .object (plainFields fields)
  | .null | .variable _ => .null

/-- The items of a list. -/
def plainItems : List Value → List Json
  | [] => []
  | value :: rest => plain value :: plainItems rest

/-- The fields of an object. -/
def plainFields : List (String × Value) → List (String × Json)
  | [] => []
  | (name, value) :: rest => (name, plain value) :: plainFields rest

end

/-- A literal at a scalar or an enumeration. -/
def leaf (shape : Shape) (value : Value) : Option Json :=
  match shape, value with
  | .int, .int text => ((whole? text).filter isSmall).map .int
  | .float, .int text | .float, .float text => some (.real (double text))
  | .string, .string content _ => some (.string content)
  | .boolean, .boolean value => some (.bool value)
  | .id, .int text => some (.string text)
  | .id, .string content _ => some (.string content)
  | .enum values, .enum name => if name ∈ values then some (.string name) else none
  | .any, value => some (plain value)
  | _, _ => none

/-! ## Lists and null -/

/-- Read the items of a list at the type of its items, until one does not fit. -/
def readItems (type : TypeRef) : List Reading → Except Misfit (Option (List Json))
  | [] => .ok (some [])
  | reading :: rest => do
    match ← reading type with
    | none => return none
    | some value => return (← readItems type rest).map (value :: ·)

/-- Read a literal at a type. Null fits unless the type excludes it. The items of a list fit a
list type one by one; any other literal fits it as a list of one. -/
def readThrough (isNull : Bool) (items : Option (List Reading))
    (atName : String → Except Misfit (Option Json)) : Reading
  | .nonNull type => if isNull then .ok none else readThrough isNull items atName type
  | .list type =>
    if isNull then .ok (some .null)
    else
      match items with
      | some readings => return (← readItems type readings).map Json.array
      | none => return (← readThrough isNull none atName type).map fun value => .array [value]
  | .named name => if isNull then .ok (some .null) else atName name

/-! ## Input objects -/

/-- The fields of an input object in the order of its type: those given are read, those left
out have their defaults. -/
def completeFields (given : List (String × Reading)) :
    List Input → Except Misfit (Option (List (String × Json)))
  | [] => .ok (some [])
  | field :: rest => do
    match (given.reverse.find? (·.1 = field.name)).map Prod.snd with
    | none =>
      match field.default with
      | some value => return (← completeFields given rest).map ((field.name, value) :: ·)
      | none => if field.type matches .nonNull _ then return none else completeFields given rest
    | some reading =>
      match ← reading field.type with
      | none => return none
      | some value => return (← completeFields given rest).map ((field.name, value) :: ·)

/-- Exactly one field is given, and not as null. -/
def isOneField : List (String × Json) → Bool
  | [(_, .null)] => false
  | [_] => true
  | _ => false

/-- Read a literal that is no list at a named type. `given` are the fields when it is an input
object. -/
def readNamed (shapes : Shapes) (value : Value)
    (given : Option (List (String × Reading))) (name : String) : Except Misfit (Option Json) := do
  match shapes.shape name, given with
  | .output, _ => throw (.defaultOf name)
  | .input isOneOf, some given =>
    match ← completeFields given (← shapes.fields name) with
    | none => return none
    | some complete =>
      return if isOneOf && !isOneField complete then none else some (.object complete)
  | .input _, none => return none
  | shape, _ => return leaf shape value

mutual

/-- Read a literal at a type. -/
def read (shapes : Shapes) : Value → Reading
  | .list items =>
    readThrough false (some (readingsOf shapes items)) (readNamed shapes (.list items) none)
  | .object fields =>
    readThrough false none
      (readNamed shapes (.object fields) (some (fieldReadingsOf shapes fields)))
  | .null => readThrough true none (readNamed shapes .null none)
  | value => readThrough false none (readNamed shapes value none)

/-- The readings of the items of a list. -/
def readingsOf (shapes : Shapes) : List Value → List Reading
  | [] => []
  | value :: rest => read shapes value :: readingsOf shapes rest

/-- The readings of the fields of an input object. -/
def fieldReadingsOf (shapes : Shapes) :
    List (String × Value) → List (String × Reading)
  | [] => []
  | (name, value) :: rest => (name, read shapes value) :: fieldReadingsOf shapes rest

end

end PersistedQueries.Schema
