import PersistedQueries.Json.Access
import PersistedQueries.Table

/-!
# Possible types

A client's cache has to know which object types an interface or a union stands for. The map of
possible types says that and nothing else.

- `Key`: a value by which types are told apart.
- `keyText`: the name that a value has as a field of an object.
- `possibleTypes`: the map, from the introspection result of a schema.
-/

namespace PersistedQueries.Introspection

open Json (Mismatch)

/-- A value by which types are told apart. Numbers are one key when they are equal, and the truth
values count as one and zero. -/
inductive Key where
  | null
  | whole (value : Int)
  | fraction (value : Binary64)
  | text (value : String)
  deriving DecidableEq, Repr

/-- The key that a value is; lists and objects are none. -/
def Key.of : Json → Except Mismatch Key
  | .null => .ok .null
  | .bool value => .ok (.whole (if value then 1 else 0))
  | .int value => .ok (.whole value)
  | .real value => .ok (value.whole?.elim (.fraction value) .whole)
  | .string value => .ok (.text value)
  | value => .error (.noKey value.kindName)

/-- The name that a value has as a field of an object: a string is its own name, any other value has
its text for one. -/
def keyText : Json → String
  | .string name => name
  | value => String.ofList (Json.write Json.compact value)

/-- The names of some types. -/
def typeNames (types : Json) : Except Mismatch Json := do
  return .array (← (← types.elements).mapM fun type => type.get "name")

/-- Enter a type that has possible types. A type that is entered again keeps the spelling of its
name. -/
def enterPossible (map : Table Key (Json × Json)) (type : Json) :
    Except Mismatch (Table Key (Json × Json)) := do
  let possible ← type.getD "possibleTypes" .null
  if possible.isTruthy then
    let names ← typeNames possible
    let name ← type.get "name"
    let key ← Key.of name
    let spelling := ((map.get? key).map Prod.fst).getD name
    return map.insert key (spelling, names)
  else return map

/-- Every interface and union with the names of the object types that it stands for. -/
def possibleTypes (introspection : Json) : Except Mismatch Json := do
  let types ← (← (← introspection.get "__schema").get "types").elements
  let map ← types.foldlM enterPossible .empty
  return .object (map.entries.map fun (_, name, names) => (keyText name, names))

end PersistedQueries.Introspection
