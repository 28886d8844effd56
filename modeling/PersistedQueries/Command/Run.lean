import PersistedQueries.Command.Settings
import PersistedQueries.Disk.Search
import PersistedQueries.Report.Progress
import PersistedQueries.Report.Results
import PersistedQueries.Session.Flush
import PersistedQueries.Session.Transform

/-!
# Running the program

A run publishes the artifacts of the schema, transforms every source file of a path, writes the
manifest and then the transformed files, and says what it did. A file that cannot be transformed is
reported and does not stop the others.

- `Fault`: why a run breaks off.
- `Ended`: what a run leaves.
- `transformFiles`: the transformed texts of some files.
- `writeTransforms`: the transformed files and their source maps.
- `runSession`: a run with a session.
- `runSettings`: a run with settings.
- `run`: a run with the words of a command line.
-/

namespace PersistedQueries.Command

open Session (Transformed)

/-- Why a run breaks off. -/
inductive Fault where
  /-- A step of the session failed. -/
  | session (fault : Session.Fault)
  /-- A source file cannot be read. -/
  | read (fault : ReadFault)
  /-- A transformed file cannot be written. -/
  | write (fault : Disk.Fault)
  /-- A setting is no text. -/
  | mismatch (fault : Json.Mismatch)
  /-- The root or the path of the manifest is no text. -/
  | noPath
  /-- The path to process is no text. -/
  | noTarget

/-- The message of a fault. -/
def Fault.message : Fault → String
  | session fault => fault.message
  | read fault => fault.message
  | write fault => fault.message
  | .mismatch fault => fault.message
  | noPath => "expected str, bytes or os.PathLike object, not list"
  | noTarget => "stat: path should be string, bytes, os.PathLike or integer, not list"

/-- What a run leaves. -/
structure Ended where
  /-- The files and the endpoints. -/
  surroundings : Surroundings
  /-- What has been printed. -/
  output : Output
  /-- The status that the program ends with, unless the run broke off. -/
  result : Except Fault Nat

/-- A run that ends. -/
def ended (surroundings : Surroundings) (output : Output) (status : Nat) : Ended :=
  ⟨surroundings, output, .ok status⟩

/-- A run that breaks off. -/
def brokenOff (surroundings : Surroundings) (output : Output) (fault : Fault) : Ended :=
  ⟨surroundings, output, .error fault⟩

/-! ## Failures of one file -/

/-- The message for a file that cannot be transformed, when the run goes on with the others: its
definitions do not fit together, or a text is none. -/
def fileMessage? : Session.Fault → Option String
  | fault@(.index (.unbound _)) | fault@(.index (.duplicate ..)) => some fault.message
  | fault@(.index (.host (.read (.encoding _)))) => some fault.message
  | fault@(.persist _) | fault@(.splice _) => some fault.message
  | _ => none

/-! ## Source files -/

/-- The source files of a run. -/
structure Sources where
  /-- The session behind them. -/
  session : Session
  /-- The transformed texts by file. -/
  transforms : List (String × Transformed) := []
  /-- The number of files that failed. -/
  failures : Nat := 0
  /-- What has been printed. -/
  output : Output := .none

/-- Transform one file with a text. -/
def Sources.transform (sources : Sources) (disk : Disk) (file : String) (code : Text) :
    Except (Output × Fault) Sources :=
  let (session, result, output) := sources.session.transform disk code file
  let output :=
    sources.output ++ .onlyIf session.options.isDebug (Progress.processing file) ++ output
  match result with
  | .ok none => .ok { sources with session, output }
  | .ok (some transformed) =>
    .ok { sources with session, output, transforms := sources.transforms ++ [(file, transformed)] }
  | .error fault =>
    match fileMessage? fault with
    | some message =>
      .ok { sources with
        session, failures := sources.failures + 1, output := output ++ .fileError file message }
    | none => .error (output, .session fault)

/-- Transform files one after the other. A file that cannot be read breaks the run off. -/
def transformFiles (disk : Disk) : Sources → List String → Except (Output × Fault) Sources
  | sources, [] => .ok sources
  | sources, file :: files =>
    match disk.readText file with
    | .error fault => .error (sources.output, .read fault)
    | .ok code => do
      let sources ← sources.transform disk file code
      transformFiles disk sources files

/-! ## Transformed files -/

/-- The path of a transformed file: that of the source file, or the same place below another
directory. -/
def destination (disk : Disk) (arguments : Arguments) (target file : String) : String :=
  match Settings.given arguments.outDir with
  | none => file
  | some outDir =>
    let base := if disk.isDirectory target then target.toList else Path.directory target.toList
    let working := Disk.pathOf disk.working
    let start := Path.absolute working base
    String.ofList (Path.join outDir.toList (Path.relativeTo working start file.toList))

/-- The text of the source map of a transformed file. -/
def mapText (transformed : Transformed) (path : String) : Text :=
  let name := Json.string (String.ofList (Path.base path.toList))
  let fields := match transformed.spliced.map.toJson with
    | .object fields => Json.setField "file" name fields
    | _ => []
  Json.write Json.spaced (.object fields)

/-- Write a transformed file, and its source map if there is to be one. -/
def writeOne (disk : Disk) (arguments : Arguments) (path : String) (transformed : Transformed) :
    Disk × Except Disk.Fault Unit :=
  let made :=
    if (Settings.given arguments.outDir).isSome then
      disk.makeDirectories (Path.directory (disk.absolute path))
    else .ok disk
  match made with
  | .error fault => (disk, .error fault)
  | .ok disk =>
    match disk.writeOctets path (Utf8.encode transformed.spliced.code) with
    | .error fault => (disk, .error fault)
    | .ok disk =>
      if arguments.sourceMaps then
        match disk.writeOctets (path ++ ".map") (Utf8.encode (mapText transformed path)) with
        | .error fault => (disk, .error fault)
        | .ok disk => (disk, .ok ())
      else (disk, .ok ())

/-- Write transformed files until one cannot be written. -/
def writeTransforms (disk : Disk) (arguments : Arguments) (target : String) :
    List (String × Transformed) → Disk × Output × Except Disk.Fault Unit
  | [] => (disk, .none, .ok ())
  | (file, transformed) :: rest =>
    let path := destination disk arguments target file
    match writeOne disk arguments path transformed with
    | (disk, .error fault) => (disk, .none, .error fault)
    | (disk, .ok ()) =>
      let (disk, output, result) := writeTransforms disk arguments target rest
      (disk, Progress.written path ++ output, result)

/-! ## Results -/

/-- A persisted call site in the results. -/
def queryJson (site : Session.PersistedSite) : Json :=
  .object [("name", .string site.site.name), ("hash", .string site.persisted.hash),
    ("line", .int site.line), ("query", .string site.persisted.query)]

/-- The results of a run. -/
def resultsOf (transforms : List (String × Transformed)) : List Json :=
  transforms.map fun (file, transformed) =>
    .object [("file", .string file), ("queries", .array (transformed.sites.map queryJson))]

/-- The results in the form that is asked for. -/
def reportOf (transforms : List (String × Transformed)) (readable : Bool) : Output :=
  ((Results.report (resultsOf transforms) readable).toOption).getD .none

/-- The number of call sites. -/
def siteCount (transforms : List (String × Transformed)) : Nat :=
  transforms.foldl (fun count (_, transformed) => count + transformed.sites.length) 0

/-! ## Runs -/

/-- The number of entries of the manifest. -/
def entryCount (session : Session) : Nat := session.manifest.elim 0 (·.entries.size)

/-- The status of a run whose files did or did not fail. -/
def statusOf (failures : Nat) : Nat := if failures > 0 then 1 else 0

/-- The last part of a run: results, numbers, and closing the session. -/
def conclude (arguments : Arguments) (readable : Bool) (before : Nat) (sources : Sources)
    (surroundings : Surroundings) (output : Output) : Ended :=
  let session := sources.session
  let results :=
    if sources.transforms.isEmpty then Progress.noFiles
    else
      reportOf sources.transforms (arguments.print || readable) ++
        Progress.summary sources.transforms.length (siteCount sources.transforms)
          ((entryCount session : Int) - before) session.options.outputPath
  let closed := session.close surroundings
  let output := output ++ results ++ Progress.failures sources.failures ++ closed.output
  match closed.result with
  | .error fault => brokenOff closed.surroundings output (.session fault)
  | .ok () => ended closed.surroundings output (statusOf sources.failures)

/-- Write the manifest and the transformed files, and conclude. -/
def writeAll (arguments : Arguments) (readable : Bool) (target : String) (before : Nat)
    (sources : Sources) (surroundings : Surroundings) (output : Output) : Ended :=
  let finished := sources.session.finish surroundings
  let output := output ++ finished.output
  let surroundings := finished.surroundings
  match finished.result with
  | .error fault => brokenOff surroundings output (.session fault)
  | .ok () =>
    let sources := { sources with session := finished.session }
    if arguments.write || (Settings.given arguments.outDir).isSome then
      let (disk, lines, result) :=
        writeTransforms surroundings.disk arguments target sources.transforms
      let surroundings := { surroundings with disk }
      match result with
      | .error fault => brokenOff surroundings (output ++ lines) (.write fault)
      | .ok () => conclude arguments readable before sources surroundings (output ++ lines)
    else conclude arguments readable before sources surroundings output

/-- Transform the files of a path, and write what is to be written. -/
def runPath (arguments : Arguments) (settings : Settings) (exclude : String) (readable : Bool)
    (target : String) (session : Session) (surroundings : Surroundings) (output : Output) : Ended :=
  let output := output ++ .onlyIf arguments.verbose (Progress.scanStart target)
  let exclusions := Settings.exclusions exclude
  let files := surroundings.disk.findFiles target settings.options.endings exclusions
  match transformFiles surroundings.disk { session } files with
  | .error (lines, fault) => brokenOff surroundings (output ++ lines) fault
  | .ok sources =>
    let output := output ++ sources.output
    if arguments.dryRun then
      let report := reportOf sources.transforms (arguments.print || readable)
      ended surroundings (output ++ Progress.dryRun ++ report) (statusOf sources.failures)
    else
      writeAll arguments readable target (entryCount session) sources surroundings output

/-- What a run does when the artifacts of the schema cannot be published. -/
def unpublished (surroundings : Surroundings) (output : Output) (fault : Session.Fault) : Ended :=
  match fault with
  | .publishing cause =>
    if cause.isFetchFault then ended surroundings (output ++ .error cause.message) 2
    else if cause.isOutside || cause.isPlaced then
      ended surroundings
        (output ++ .error ("Failed to publish introspection: " ++ cause.message)) 2
    else brokenOff surroundings output (.session fault)
  | _ => brokenOff surroundings output (.session fault)

/-- Publish the artifacts of the schema, and go on with the path if there is one. -/
def runSession (arguments : Arguments) (settings : Settings) (exclude : String) (readable : Bool)
    (session : Session) (surroundings : Surroundings) (output : Output) : Ended :=
  let started := session.start surroundings
  let output := output ++ started.output
  match started.result with
  | .error fault => unpublished started.surroundings output fault
  | .ok _ =>
    match arguments.path with
    | none => ended started.surroundings output 0
    | some .noWords =>
      let scan := .onlyIf arguments.verbose (Progress.scanStart "[]")
      brokenOff started.surroundings (output ++ scan) .noTarget
    | some (.text target) =>
      runPath arguments settings exclude readable target started.session started.surroundings output

/-- A run with settings. `readable` says that results go to a terminal. -/
def runSettings (arguments : Arguments) (settings : Settings) (readable : Bool)
    (surroundings : Surroundings) : Ended :=
  if !settings.options.isEnabled then ended surroundings Progress.disabled 0
  else
    let output := .onlyIf arguments.verbose Progress.banner
    match arguments.root, arguments.output with
    | .noWords, _ | _, some .noWords => brokenOff surroundings output .noPath
    | .text root, _ =>
      let modules :=
        Modules.ofRoot surroundings.disk root settings.aliases.entries Modules.defaultEndings
      let (session, warning) := Session.opened surroundings.disk settings.options modules
      let output := output ++ warning
      match arguments.exclude with
      | .noWords => brokenOff surroundings output (.mismatch (.noOperation "list" "split"))
      | .text exclude =>
        runSession arguments settings exclude readable session surroundings output

/-- What a run does when the arguments make no settings. -/
def unsettled (surroundings : Surroundings) (output : Output) (fault : Settings.Fault) : Ended :=
  match fault with
  | .options fault => ended surroundings (output ++ .error fault.message) 1
  | .pair flag value =>
    ended surroundings (output ++ .error (Options.PairFault.invalid flag value).message) 1
  | .mismatch fault => brokenOff surroundings output (.mismatch fault)

/-- A run with the words of a command line and with the text of the file for variables, if there is
one. -/
def run (words : List String) (environment : Environment) (file : Option Text) (readable : Bool)
    (surroundings : Surroundings) : Ended :=
  match Request.ofWords words with
  | .error invalid =>
    let message := usage ++ programName ++ ": error: " ++ invalid.message
    ended surroundings (.errorLine message) 2
  | .ok .help => ended surroundings ⟨help, ""⟩ 0
  | .ok (.run arguments) =>
    let broken := Environment.brokenLines (environment.statementsToLoad file)
    let warning := Progress.brokenStatements broken
    match Settings.ofArguments environment file arguments with
    | .error fault => unsettled surroundings warning fault
    | .ok settings =>
      let done := runSettings arguments settings readable surroundings
      { done with output := warning ++ done.output }

end PersistedQueries.Command
