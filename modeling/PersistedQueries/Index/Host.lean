import PersistedQueries.CallSite.Unbound
import PersistedQueries.Table

/-!
# Hosts

A host answers the two questions that indexing asks: which file a specifier denotes, and what
text a file holds. It knows finitely many files, so following imports comes to an end.

- `Host`: the two answers and the files they are about.
- `Host.ofTable`: a host that holds its files in memory.
- `Event`: one question to the host, or the announcement that a file is being indexed.
- `Fault`: why a file cannot be indexed.
-/

namespace PersistedQueries

namespace Index

/-- Something that an observer of the indexing sees. -/
inductive Event where
  /-- The host was asked for the file that a specifier denotes in an importing file. -/
  | resolved (specifier : String) (importer : Option String)
  /-- The host was asked for the text of a file. -/
  | loaded (file : String)
  /-- A file is being indexed. -/
  | announced (file : String)
  deriving DecidableEq

/-- The line that announces a file. -/
def announcement (file : String) : String := s!"Indexing GraphQL definitions in: {file}\n"

/-- What an observer reads of the events. -/
def transcript (events : List Event) : String :=
  String.join (events.filterMap fun event =>
    match event with
    | .announced file => some (announcement file)
    | _ => none)

/-- Why a file cannot be indexed. A host has failures of its own. -/
inductive Fault (ε : Type) where
  /-- A name that the file or one of its dependencies needs has no definition. -/
  | unbound (fault : Unbound)
  /-- A name has two definitions. -/
  | duplicate (name : String) (first second : Option String)
  /-- A name that a file is known to define is not registered. -/
  | unregistered (name : String)
  /-- The host failed. -/
  | host (failure : ε)

/-- The message of a name with two definitions. -/
def duplicateMessage (name : String) (first second : Option String) : String :=
  name ++ " is defined in both " ++ Unbound.fileText first ++ " and " ++ Unbound.fileText second ++
    "; persisted query names must be unique across the build"

/-- Answers about finitely many files, or failures. -/
structure Host (ε : Type) where
  /-- The files. -/
  ids : List String
  /-- The file that a specifier denotes in an importing file. -/
  resolve : String → Option String → Except ε (Option { id : String // id ∈ ids })
  /-- The text of a file. -/
  load : String → Except ε Text

namespace Host

variable {ε : Type}

/-- A file that the host knows. -/
abbrev File (host : Host ε) : Type := { id : String // id ∈ host.ids }

/-- The file of a name, if the host knows it. -/
def file? (ids : List String) (id : String) : Option { id : String // id ∈ ids } :=
  if h : id ∈ ids then some ⟨id, h⟩ else none

/-- Files held in memory. A specifier denotes what a table of redirections says, or else the
file of that name. -/
def ofTable (files : Table String Text) (redirections : Table String (Option String)) (missing : String → ε) :
    Host ε where
  ids := files.keys ++ redirections.entries.filterMap Prod.snd
  resolve specifier _ :=
    match redirections.get? specifier with
    | some target => .ok (target.bind (file? _))
    | none => .ok (if files.contains specifier then file? _ specifier else none)
  load file :=
    match files.get? file with
    | some text => .ok text
    | none => .error (missing file)

/-- A host that answers nothing. -/
def unanswering (failure : ε) : Host ε := ⟨[], fun _ _ => .error failure, fun _ => .error failure⟩

end Host

end Index

end PersistedQueries
