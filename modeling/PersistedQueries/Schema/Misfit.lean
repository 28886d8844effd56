import PersistedQueries.GraphQL.Fault
import PersistedQueries.GraphQL.Printer

/-!
# Misfits

A document may keep the rules and still define no schema, because its types do not fit together
or because an annotation says something that it cannot mean.

- `MarkFault`: what is wrong with an argument of an annotation.
- `Misfit`: why the types of a document do not fit together.
- `Misfit.isPlaced`: the misfit is that of an annotation and is shown at its place.
- `Misfit.message`: the words for a misfit.
-/

namespace PersistedQueries.Schema

open GraphQL (TypeRef)

/-- What is wrong with an argument of an annotation. -/
inductive MarkFault where
  /-- It has to be given and is not. -/
  | lacking (name : String) (type : TypeRef)
  /-- It is null and may not be. -/
  | null (name : String) (type : TypeRef)
  /-- Its value has another type. -/
  | invalid (name written : String)
  deriving Repr

/-- The words for what is wrong with an argument of an annotation. -/
def MarkFault.message : MarkFault → String
  | lacking name type =>
    let type := String.ofList (GraphQL.printType type)
    s!"Argument '{name}' of required type '{type}' was not provided."
  | null name type =>
    let type := String.ofList (GraphQL.printType type)
    s!"Argument '{name}' of non-null type '{type}' must not be null."
  | invalid name written => s!"Argument '{name}' has invalid value {written}."

/-- Why the types of a document do not fit together. -/
inductive Misfit where
  /-- Something about the fields of a type. -/
  | fieldsOf (type : String) (inner : Misfit)
  | argumentType
  | fieldType
  | inputFieldType
  /-- A default value has a type whose values are no inputs. -/
  | defaultOf (type : String)
  | interfacesOf (type : String)
  | membersOf (type : String)
  /-- An argument of an annotation is wrong at a place. -/
  | mark (fault : MarkFault) (offset : Nat)
  /-- The default of an input type depends on itself. -/
  | endlessDefault
  deriving Repr

/-- The misfit is that of an annotation and is shown at its place. -/
def Misfit.isPlaced : Misfit → Bool
  | fieldsOf _ inner => inner.isPlaced
  | mark .. => true
  | _ => false

/-- The words for a misfit in a document. -/
def Misfit.message (document : Text) : Misfit → String
  | fieldsOf type inner => s!"{type} fields cannot be resolved. " ++ inner.message document
  | argumentType => "Argument type must be a GraphQL input type."
  | fieldType => "Field type must be an output type."
  | inputFieldType => "Input field type must be a GraphQL input type."
  | defaultOf type => s!"Unexpected input type: {type}."
  | interfacesOf type =>
    s!"{type} interfaces must be specified as a collection of GraphQLInterfaceType instances."
  | membersOf type =>
    s!"{type} types must be specified as a collection of GraphQLObjectType instances."
  | mark fault offset => fault.message ++ GraphQL.showOffset document offset
  | endlessDefault => "maximum recursion depth exceeded"

end PersistedQueries.Schema
