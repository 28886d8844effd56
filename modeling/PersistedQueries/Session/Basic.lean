import PersistedQueries.Index.Basic
import PersistedQueries.Index.DiskHost
import PersistedQueries.Introspection.Publisher
import PersistedQueries.Manifest.Basic
import PersistedQueries.Splice.PersistedCall

/-!
# Build sessions

A session is what a bundler talks to: it starts a build, hands over one source text after the
other, says which files have changed, and ends the build. The session keeps the index, the
manifest and the publisher between these steps.

- `Session`: the options and what is kept between steps. A disabled session has neither manifest
  nor publisher, and leaves every source text alone.
- `Session.Fault`: why a step fails.
- `Step`: what a step leaves.
- `opened`: the session of some options.
- `start`: the first step of a build, which publishes the artifacts of the schema.
- `fileChanged`: a file is to be indexed again.
-/

namespace PersistedQueries

open Introspection (Publisher)

/-- What is kept between the steps of builds. -/
structure Session where
  /-- The options. -/
  options : Options
  /-- Where imports lead. -/
  modules : Modules
  /-- The definitions found so far. -/
  index : Index := .empty
  /-- The manifest, in an enabled session. -/
  manifest : Option Manifest := none
  /-- The publisher, in an enabled session with a schema. -/
  publisher : Option Publisher := none

namespace Session

/-- The name by which bundlers know the program. -/
def pluginName : String := "gql-persisted-queries"

/-- Why a step fails. -/
inductive Fault where
  /-- The definitions do not fit together, or a file cannot be indexed. -/
  | index (fault : Index.Fault Modules.Failure)
  /-- A definition has no canonical text. -/
  | persist (fault : Persist.Fault)
  /-- The source text cannot be spliced. -/
  | splice (fault : Splice.SpliceError)
  /-- The artifacts of the schema cannot be published. -/
  | publishing (fault : Introspection.Publishing.Fault)
  /-- The manifest cannot be written. -/
  | write (fault : Disk.Fault)

/-- The message of a fault. -/
def Fault.message : Fault → String
  | index (.unbound fault) => fault.message
  | index (.duplicate name first second) => Index.duplicateMessage name first second
  | index (.unregistered name) => Text.quote name
  | index (.host failure) => failure.message
  | persist fault => fault.message
  | splice fault => fault.message
  | publishing fault => fault.message
  | write fault => fault.message

/-- What a step leaves. -/
structure Step (α : Type) where
  /-- The session. -/
  session : Session
  /-- The files and the endpoints. -/
  surroundings : Surroundings
  /-- The result, or why there is none. -/
  result : Except Fault α
  /-- What is printed. -/
  output : Output

/-- A step that leaves everything as it is. -/
def unchanged {α : Type} (session : Session) (surroundings : Surroundings) (value : α) : Step α :=
  ⟨session, surroundings, .ok value, .none⟩

/-! ## Opening and starting -/

/-- The session of some options. An enabled one reads the manifest. -/
def opened (disk : Disk) (options : Options) (modules : Modules) : Session × Output :=
  if options.isEnabled then
    let (manifest, output) := Manifest.opened disk options.outputPath options.debounce
    ({ options, modules
       manifest := some manifest
       publisher := options.schema.map fun config => { config, isDebug := options.isDebug } },
      output)
  else ({ options, modules }, .none)

/-- Publish the artifacts of the schema, if there is one. -/
def publish (session : Session) (surroundings : Surroundings) : Step (Option String) :=
  match session.publisher with
  | none => session.unchanged surroundings none
  | some publisher =>
    let published := publisher.publish surroundings
    ⟨{ session with publisher := some published.publisher }, published.surroundings,
      (published.result.mapError .publishing).map some, published.output⟩

/-- Start a build with an empty index. The result is the digest of the schema, if there is
one. -/
def start (session : Session) (surroundings : Surroundings) : Step (Option String) :=
  if session.options.isEnabled then { session with index := .empty }.publish surroundings
  else session.unchanged surroundings none

/-- Forget a file, so that it is indexed again when it is needed. -/
def fileChanged (session : Session) (file : String) : Session :=
  { session with index := session.index.invalidate file }

end Session

end PersistedQueries
