import PersistedQueries.CallSite.Basic

/-!
# Unbound dependencies

A call site depends on definitions by name. `Unbound` says which name could not be bound to a
definition, for which file, and why.
-/

namespace PersistedQueries

/-- Why a name is not bound to a definition. -/
inductive Unbound.Reason where
  /-- No definition of the name is known. -/
  | unknown
  /-- The file that uses the name does not import it. -/
  | notImported
  /-- The specifier that the name is imported from denotes no file. -/
  | unresolvable (specifier : String) (importer : Option String)
  /-- The file that the name is imported from does not define it. -/
  | notDefinedIn (file : String)
  deriving DecidableEq

/-- A dependency without a definition. -/
structure Unbound where
  /-- The name. -/
  name : String
  /-- The file that uses the name. -/
  file : Option String
  /-- Why it has no definition. -/
  reason : Unbound.Reason
  deriving DecidableEq

namespace Unbound

/-- The name of a file in a message that has a word for no file. -/
def fileText (file : Option String) : String := file.getD "None"

/-- The end of the message for a name. -/
def Reason.detail (name : String) : Reason → String
  | unknown => s!"no graphql(...) definition named {name} was indexed"
  | notImported => "it is not imported in this file"
  | unresolvable specifier importer =>
    "cannot resolve " ++ specifier ++ " from " ++ fileText importer
  | notDefinedIn file => s!"{file} does not define it"

/-- The file in the message; a file without a name counts as unknown. -/
def place (file : Option String) : String :=
  match file with
  | none | some "" => "<unknown>"
  | some file => file

/-- The message of an unbound dependency. -/
def message (fault : Unbound) : String :=
  "Fragment " ++ fault.name ++ " referenced in " ++ place fault.file ++ " cannot be found: " ++
    fault.reason.detail fault.name

end Unbound

end PersistedQueries
