import PersistedQueries.Disk.Atomic
import PersistedQueries.Disk.Reading
import PersistedQueries.Introspection.Endpoint
import PersistedQueries.Introspection.Minified
import PersistedQueries.Introspection.PossibleTypes
import PersistedQueries.Introspection.Result
import PersistedQueries.Options.Basic
import PersistedQueries.Persist.Basic
import PersistedQueries.Report.Output
import PersistedQueries.Schema.Source

/-!
# Publishing artifacts

Artifacts of a schema are its introspection result, the map of its possible types and the
minified result. They are written again when the introspection result is another one than that of
the last time, up to the order of fields.

- `Surroundings`: the disk and the network.
- `Publishing.Fault`: why artifacts are not published.
- `introspect`: the introspection result of a schema text.
- `load`: the introspection result of a schema file or an endpoint.
- `Publishing.artifacts`: the artifacts that are configured, each with its path.
- `publish`: the digest of the introspection result, once its artifacts are written.
- `Publisher`: the digest of the last time, kept between times.
-/

namespace PersistedQueries

/-- The files and the endpoints that a build works with. -/
structure Surroundings where
  /-- The files. -/
  disk : Disk
  /-- The endpoints. -/
  network : Introspection.Network := {}

namespace Introspection

/-- Why artifacts are not published. -/
inductive Publishing.Fault where
  /-- The schema file cannot be read. -/
  | read (fault : ReadFault)
  /-- The file is no schema. -/
  | schema (fault : Schema.Fault)
  /-- The schema cannot be asked. -/
  | query (fault : Query.Fault)
  /-- The schema has no answer. -/
  | unwritable (query : Query) (fault : Schema.Unwritable)
  /-- The endpoint gave no result. -/
  | endpoint (fault : Endpoint.Fault)
  /-- The result is not what an artifact is made from. -/
  | mismatch (mismatch : Json.Mismatch)
  /-- A setting of the minified result is none. -/
  | setting (fault : Inclusion.Fault)
  /-- An artifact cannot be written. -/
  | write (fault : Disk.Fault)

namespace Publishing

/-- The message of a fault. -/
def Fault.message : Fault → String
  | read fault => fault.message
  | schema fault => fault.message
  | query fault => fault.message
  | unwritable asked fault =>
    let (line, column) := asked.defaultPlace
    fault.message ++ GraphQL.showPlace asked.text.toList line column
  | endpoint fault => fault.message
  | mismatch fault => fault.message
  | setting fault => fault.message
  | write fault => fault.message

/-- The endpoint answered with a failure, or not at all. -/
def Fault.isFetchFault : Fault → Bool
  | endpoint fault => fault.isFetchFault
  | _ => false

/-- A file or a connection failed. -/
def Fault.isOutside : Fault → Bool
  | read (.disk fault) | write fault => fault.isRefusal
  | endpoint (.rejected ..) => true
  | endpoint (.malformed _ fault) => fault.isOfText
  | _ => false

/-- The fault is shown at its place in the schema file or in the query. -/
def Fault.isPlaced : Fault → Bool
  | schema fault => fault.isPlaced
  | unwritable .. => true
  | _ => false

end Publishing

/-! ## Loading -/

/-- The introspection result of a schema text. -/
def introspect (text : Text) (options : List (String × Json)) :
    Except Publishing.Fault Json := do
  let schema ← (Schema.ofText text).mapError .schema
  let query ← (Query.forSchema options).mapError .query
  let schema ← (Schema.validate schema).mapError .schema
  (result schema query).mapError (.unwritable query)

/-- The introspection result of a schema file. -/
def introspectFile (disk : Disk) (path : String) (options : List (String × Json)) :
    Except Publishing.Fault Json := do
  let text ← (disk.readText path).mapError .read
  introspect text options

/-- The introspection result of the configured schema: of an endpoint when its name begins like an
address, and of a file otherwise. -/
def load (surroundings : Surroundings) (config : SchemaOptions) :
    Surroundings × Except Publishing.Fault Json :=
  if config.schema.startsWith "http" then
    let (network, result) := Endpoint.fetch surroundings.network config.schema
      { options := config.query, headers := config.headers, timeout := config.timeout }
    ({ surroundings with network }, result.mapError .endpoint)
  else (surroundings, introspectFile surroundings.disk config.schema config.query)

/-! ## Artifacts -/

namespace Publishing

/-- The minified form of an introspection result, with configured settings. -/
def minified (settings : List (String × Json)) (introspection : Json) : Except Fault Json := do
  let inclusion ← (Inclusion.ofSettings settings).mapError .setting
  (minify inclusion introspection).mapError .mismatch

/-- A path that is configured and not empty, with what is to be written there. -/
def artifact (path : Option String) (content : Except Fault Json) :
    List (String × Except Fault Json) :=
  match path with
  | some path => if path = "" then [] else [(path, content)]
  | none => []

/-- The configured artifacts of an introspection result, in the order in which they are
written. -/
def artifacts (config : SchemaOptions) (introspection : Json) : List (String × Except Fault Json) :=
  artifact config.schemaPath (.ok introspection) ++
    artifact config.possibleTypesPath ((possibleTypes introspection).mapError .mismatch) ++
    artifact config.minifiedPath (minified config.minify introspection)

/-- Write artifacts until one fails. -/
def writeEach (disk : Disk) : List (String × Except Fault Json) → Disk × Except Fault Unit
  | [] => (disk, .ok ())
  | (_, .error fault) :: _ => (disk, .error fault)
  | (path, .ok content) :: rest =>
    match disk.writeJson path content with
    | (disk, .error fault) => (disk, .error (.write fault))
    | (disk, .ok ()) => writeEach disk rest

end Publishing

/-! ## Publishing -/

/-- Write the configured artifacts, unless the introspection result has the digest of the last
time. The result is the digest of this time. -/
def publish (surroundings : Surroundings) (config : SchemaOptions) (previous : Option String) :
    Surroundings × Except Publishing.Fault String :=
  match load surroundings config with
  | (surroundings, .error fault) => (surroundings, .error fault)
  | (surroundings, .ok introspection) =>
    let hash := digest (Json.digestText introspection)
    if previous = some hash then (surroundings, .ok hash)
    else
      let (disk, written) :=
        Publishing.writeEach surroundings.disk (Publishing.artifacts config introspection)
      ({ surroundings with disk }, written.map fun _ => hash)

/-- A publisher remembers the digest of the last time. -/
structure Publisher where
  /-- Where the schema comes from and which artifacts are written. -/
  config : SchemaOptions
  /-- Progress is printed. -/
  isDebug : Bool := false
  /-- The digest of the last time. -/
  last : Option String := none

/-- What publishing leaves. -/
structure Published where
  /-- The publisher, with the digest of this time if there is one. -/
  publisher : Publisher
  /-- The files and the endpoints. -/
  surroundings : Surroundings
  /-- The digest of the introspection result. -/
  result : Except Publishing.Fault String
  /-- What is printed. -/
  output : Output

/-- Publish the artifacts once more. -/
def Publisher.publish (publisher : Publisher) (surroundings : Surroundings) : Published :=
  match Introspection.publish surroundings publisher.config publisher.last with
  | (surroundings, .error fault) => ⟨publisher, surroundings, .error fault, .none⟩
  | (surroundings, .ok hash) =>
    let line :=
      if publisher.last = some hash then Output.unchanged publisher.config.schema
      else Output.published publisher.config.schema hash
    ⟨{ publisher with last := some hash }, surroundings, .ok hash, .onlyIf publisher.isDebug line⟩

end Introspection

end PersistedQueries
