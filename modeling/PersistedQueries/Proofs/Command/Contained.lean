import PersistedQueries.Proofs.Command.Course
import PersistedQueries.Proofs.Session.Reporting

/-!
# Schemas that cannot be published

That the artifacts of a schema cannot be published should never break off a run or a step of a
development server: the failure is to be reported, and the manifest to be written all the same.
Which failures are reported is said here by what the schema file contains, what the endpoint answers
and what the disk refuses. A schema file that parses and still is no schema breaks off both.

- `Starting`: a run that comes to publishing the artifacts of a schema.
- `Starting.run_of_error`: how it ends when they cannot be published.
- `failures_reported`: which failures are reported, in runs and in development servers.
- `not_failures_reported`: a schema file that breaks off the run.
-/

namespace PersistedQueries.Command

open Introspection (Publisher)
open Introspection.Publishing (TextFails)
open Session (Flushing)

/-- A run that comes to publishing the artifacts of a schema. -/
structure Starting (words : List String) (environment : Environment) (file : Option Text) where
  /-- The arguments that the words make. -/
  arguments : Arguments
  /-- The settings that the arguments and the environment make. -/
  settings : Settings
  /-- The directory that aliases are relative to. -/
  root : String
  /-- The patterns of excluded directories. -/
  exclude : String
  /-- The schema and its artifacts. -/
  config : SchemaOptions
  ofWords_eq : Request.ofWords words = .ok (.run arguments)
  ofArguments_eq : Settings.ofArguments environment file arguments = .ok settings
  isEnabled : settings.options.isEnabled = true
  root_eq : arguments.root = .text root
  output_ne : arguments.output ≠ some .noWords
  exclude_eq : arguments.exclude = .text exclude
  schema_eq : settings.options.schema = some config

variable {words : List String} {environment : Environment} {file : Option Text}
  {surroundings : Surroundings} {fault : Introspection.Publishing.Fault}

/-- The words in which the start of a run reports a failure. -/
def startText (fault : Introspection.Publishing.Fault) : String :=
  if fault.isFetchFault then fault.message else Session.failureText fault

/-- What a run comes to when the artifacts cannot be published. -/
theorem unpublished_of_reporting (surroundings : Surroundings) (output : Output)
    (fault : Introspection.Publishing.Fault) :
    (fault.reporting ≠ .never →
      unpublished surroundings output (.publishing fault) =
        ended surroundings (output ++ .error (startText fault)) 2) ∧
      (fault.reporting = .never →
        unpublished surroundings output (.publishing fault) =
          brokenOff surroundings output (.session (.publishing fault))) := by
  unfold unpublished startText Introspection.Publishing.Fault.reporting
  dsimp only
  cases fault.isFetchFault with
  | true => exact ⟨fun _ => rfl, by rintro ⟨⟩⟩
  | false =>
  cases fault.isOutside with
  | true => exact ⟨fun _ => rfl, by rintro ⟨⟩⟩
  | false =>
  cases fault.isPlaced with
  | true => exact ⟨fun _ => rfl, by rintro ⟨⟩⟩
  | false => exact ⟨fun h => absurd rfl h, fun _ => rfl⟩

namespace Starting

variable (starting : Starting words environment file)

/-- The publisher of the artifacts. -/
def publisher : Publisher :=
  { config := starting.config, isDebug := starting.settings.options.isDebug }

/-- The first step of the run publishes the artifacts. -/
theorem result_start :
    ((sessionOf surroundings starting.settings starting.root).start surroundings).result =
      ((starting.publisher.publish surroundings).result.mapError .publishing).map some := by
  unfold sessionOf Session.opened
  rw [if_pos starting.isEnabled]
  unfold Session.start
  dsimp only
  rw [if_pos starting.isEnabled]
  refine Session.result_publish ?_
  dsimp only
  rw [starting.schema_eq]
  rfl

/-- How the run ends when the artifacts cannot be published. -/
theorem run_of_error (readable : Bool)
    (h : (starting.publisher.publish surroundings).result = .error fault) :
    let done := run words environment file readable surroundings
    (fault.reporting ≠ .never → done.result = .ok 2 ∧
      ∃ lines, done.output.err = lines ++ (Output.error (startText fault)).err) ∧
    (fault.reporting = .never → done.result = .error (.session (.publishing fault))) := by
  obtain ⟨output, hsettings⟩ := runSettings_eq_runSession starting.isEnabled starting.root_eq
    starting.output_ne starting.exclude_eq readable surroundings
  have hstart : ((sessionOf surroundings starting.settings starting.root).start
      surroundings).result = .error (.publishing fault) := by
    rw [starting.result_start, h]
    rfl
  unfold run
  rw [starting.ofWords_eq]
  dsimp only
  rw [starting.ofArguments_eq]
  dsimp only
  rw [hsettings]
  unfold runSession
  dsimp only
  rw [hstart]
  dsimp only
  constructor
  · intro hreported
    rw [(unpublished_of_reporting _ _ fault).1 hreported]
    exact ⟨rfl, _, (String.append_assoc ..).symm⟩
  · intro hbroken
    rw [(unpublished_of_reporting _ _ fault).2 hbroken]
    rfl

end Starting

/-- **Which failures to publish are reported.** Publishing fails exactly when the schema file, the
endpoint or an artifact is at fault. A run that comes to publishing reports the failure and ends
with the status 2, but for those that are reported nowhere: they break it off. A development server
has written its manifest before it publishes, and goes on when the failure is always reported; any
other breaks off the step. -/
theorem failures_reported (publisher : Publisher) (surroundings : Surroundings) :
    ((∃ reporting, publisher.Fails surroundings reporting) ↔
      ∀ hash, (publisher.publish surroundings).result ≠ .ok hash) ∧
    ∀ reporting, publisher.Fails surroundings reporting →
      ∃ fault, (publisher.publish surroundings).result = .error fault ∧
        (∀ words environment file (starting : Starting words environment file) readable,
          starting.publisher = publisher →
          let done := run words environment file readable surroundings
          (reporting ≠ .never → done.result = .ok 2 ∧
            ∃ lines, done.output.err = lines ++ (Output.error (startText fault)).err) ∧
          (reporting = .never → done.result = .error (.session (.publishing fault)))) ∧
        (∀ session before occasion (flushing : Flushing session before occasion),
          flushing.publisher = publisher → flushing.between = surroundings →
          let step := occasion.step session before
          Manifest.readEntries step.surroundings.disk flushing.manifest.path =
              .ok flushing.manifest.entries ∧
            (reporting = .always → step.result = .ok () ∧
              ∃ lines, step.output.err =
                lines ++ (Output.error (Session.failureText fault)).err) ∧
            (reporting ≠ .always → step.result = .error (.publishing fault))) := by
  refine ⟨⟨?_, fun hfails => ?_⟩, fun reporting hfails => ?_⟩
  · rintro ⟨reporting, hfails⟩ hash hresult
    obtain ⟨fault, hfault, -⟩ := Publisher.fails_iff.1 hfails
    cases hresult.symm.trans hfault
  · cases hresult : (publisher.publish surroundings).result with
    | ok hash => exact absurd hresult (hfails hash)
    | error fault => exact ⟨fault.reporting, Publisher.fails_iff.2 ⟨fault, hresult, rfl⟩⟩
  obtain ⟨fault, hfault, rfl⟩ := Publisher.fails_iff.1 hfails
  refine ⟨fault, hfault, ?_, ?_⟩
  · rintro words environment file starting readable rfl
    exact starting.run_of_error readable hfault
  · rintro session before occasion flushing rfl rfl
    exact ⟨flushing.readEntries_step, flushing.step_of_error hfault⟩

/-! ## A missing schema file -/

/-- The words for a run that publishes the artifacts of a schema file. -/
def schemaWords : List String := ["--schema", "schema.graphql"]

/-- Such a run comes to publishing them. -/
def schemaStarting : Starting schemaWords .empty none where
  arguments := { schema := some (.text "schema.graphql") }
  settings :=
    { options := { schema := some { schema := "schema.graphql" } }, aliases := .empty }
  root := "."
  exclude := ""
  config := { schema := "schema.graphql" }
  ofWords_eq := by rfl
  ofArguments_eq := by rfl
  isEnabled := rfl
  root_eq := by rfl
  output_ne := by decide
  exclude_eq := by rfl
  schema_eq := rfl

/-- A manifest with one entry that has not been written. -/
def unsavedManifest : Manifest :=
  ⟨"persisted-queries.json", .int 1, Table.empty.insert "h" "query Q { a }", true, [], none⟩

/-- A development server that works with such a schema file. -/
def serverSession : Session where
  options := { isDevServer := true, schema := some { schema := "schema.graphql" } }
  modules := .ofRoot (.withDirectory ['w']) "." [] Modules.defaultEndings
  manifest := some unsavedManifest
  publisher := some { config := { schema := "schema.graphql" } }

/-- Closing it writes the manifest. -/
def serverFlushing (surroundings : Surroundings)
    (h : (surroundings.disk.writeJson unsavedManifest.path unsavedManifest.toJson).2 = .ok ()) :
    Flushing serverSession surroundings .close where
  manifest := unsavedManifest
  publisher := { config := { schema := "schema.graphql" } }
  written := (surroundings.disk.writeJson unsavedManifest.path unsavedManifest.toJson).1
  isServer := rfl
  manifest_eq := rfl
  publisher_eq := rfl
  isDue := .inr rfl
  writeJson_eq := Prod.ext rfl h
  apart := by rintro _ ⟨⟩

/-- An empty working directory. -/
def emptySurroundings : Surroundings := { disk := .withDirectory ['w'] }

/-- A schema file that is missing is always reported. -/
theorem fails_of_missing {publisher : Publisher} {surroundings : Surroundings}
    (hplace : publisher.config.schema.startsWith "http" = false)
    (hread : surroundings.disk.readOctets publisher.config.schema =
      .error ⟨.missing, publisher.config.schema, none⟩) :
    publisher.Fails surroundings .always :=
  .loading (.file hplace (.unreadable hread))

/-- Without a schema file the run ends with the status 2, and the server has the manifest on the
disk and goes on. -/
theorem failures_reported_missing :
    (run schemaWords .empty none true emptySurroundings).result = .ok 2 ∧
      (Session.Occasion.close.step serverSession emptySurroundings).result = .ok () ∧
      Manifest.readEntries
          (Session.Occasion.close.step serverSession emptySurroundings).surroundings.disk
          "persisted-queries.json" =
        .ok (Table.empty.insert "h" "query Q { a }") := by
  let flushing := serverFlushing emptySurroundings (by decide +kernel)
  have hrun : schemaStarting.publisher.Fails emptySurroundings .always :=
    fails_of_missing (by decide +kernel) (by decide +kernel)
  have hstep : flushing.publisher.Fails flushing.between .always :=
    fails_of_missing (by decide +kernel) (by decide +kernel)
  obtain ⟨_, -, hruns, -⟩ := (failures_reported _ _).2 _ hrun
  obtain ⟨_, -, -, hsteps⟩ := (failures_reported _ _).2 _ hstep
  obtain ⟨hread, hcaught, -⟩ := hsteps _ _ _ flushing rfl rfl
  exact ⟨((hruns _ _ _ schemaStarting true rfl).1 (by decide)).1, (hcaught rfl).1, hread⟩

/-! ## Schema files that break off runs and steps -/

/-- A working directory with a schema file. -/
def schemaSurroundings (text : String) : Surroundings where
  disk := .ofEntries [['w']] [(["schema.graphql".toList], .file (Utf8.encode text.toList))]

/-- A schema file fails as its text does. -/
theorem fails_of_text {publisher : Publisher} {surroundings : Surroundings} {text : Text}
    {reporting : Introspection.Publishing.Reporting}
    (hplace : publisher.config.schema.startsWith "http" = false)
    (hread : surroundings.disk.readOctets publisher.config.schema = .ok (Utf8.encode text))
    (hlines : '\r' ∉ text) (hfails : TextFails text publisher.config.query reporting) :
    publisher.Fails surroundings reporting := by
  rw [← Text.normalizeNewlines_of_not_mem hlines] at hfails
  exact .loading (.file hplace (.text hread (Utf8.decode_encode text) hfails))

/-- A schema that names a type that there is not. -/
def unknownType : String := "type Query { a: Nope }"

/-- A schema that stops after a word. -/
def unfinished : String := "type"

theorem textFails_unknownType : TextFails unknownType.toList [] .never := by
  have hbroken : ((GraphQL.parse unknownType.toList).toOption.map fun document =>
      (Schema.violations document).isEmpty) = some false := by
    decide +kernel
  obtain ⟨document, hparse, hbroken⟩ := Option.map_eq_some_iff.1 hbroken
  refine .schema (.unlawful (eq_ok_of_toOption hparse) fun hlawful => ?_)
  rw [hlawful] at hbroken
  cases hbroken

theorem textFails_unfinished : TextFails unfinished.toList [] .atStart := by
  have hparse : (GraphQL.parse unfinished.toList).toOption = none := by decide +kernel
  cases hfault : GraphQL.parse unfinished.toList with
  | error fault => exact .schema (.malformed hfault)
  | ok document =>
    rw [hfault] at hparse
    cases hparse

/-- **Broken off by a schema file.** A schema that names a type that there is not cannot be
published, and breaks off the run. A text that does not parse, which a run reports, breaks off the
step of a development server. -/
theorem not_failures_reported :
    (∃ fault, (run schemaWords .empty none true (schemaSurroundings unknownType)).result =
        .error (.session (.publishing fault))) ∧
      (run schemaWords .empty none true (schemaSurroundings unfinished)).result = .ok 2 ∧
      ∃ fault, (Session.Occasion.close.step serverSession
        (schemaSurroundings unfinished)).result = .error (.publishing fault) := by
  let flushing := serverFlushing (schemaSurroundings unfinished) (by decide +kernel)
  have hunknown : schemaStarting.publisher.Fails (schemaSurroundings unknownType) .never :=
    fails_of_text (by decide +kernel) (by decide +kernel) (by decide +kernel) textFails_unknownType
  have hunfinished : schemaStarting.publisher.Fails (schemaSurroundings unfinished) .atStart :=
    fails_of_text (by decide +kernel) (by decide +kernel) (by decide +kernel) textFails_unfinished
  have hserver : flushing.publisher.Fails flushing.between .atStart :=
    fails_of_text (by decide +kernel) (by decide +kernel) (by decide +kernel) textFails_unfinished
  refine ⟨?_, ?_, ?_⟩
  · obtain ⟨fault, hfault, hreporting⟩ := Publisher.fails_iff.1 hunknown
    exact ⟨fault, (schemaStarting.run_of_error true hfault).2 hreporting⟩
  · obtain ⟨fault, hfault, hreporting⟩ := Publisher.fails_iff.1 hunfinished
    exact ((schemaStarting.run_of_error true hfault).1 (by rw [hreporting]; decide)).1
  · obtain ⟨fault, hfault, hreporting⟩ := Publisher.fails_iff.1 hserver
    exact ⟨fault, (flushing.step_of_error hfault).2 (by rw [hreporting]; decide)⟩

end PersistedQueries.Command
