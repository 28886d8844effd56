import PersistedQueries.Proofs.Command.Sources

/-!
# How far a run comes

A run can end early for many reasons: the words are no arguments, a source file cannot be read, the
manifest cannot be written. Only a run that gets through all of this writes transformed files, and
it writes them last.

- `Course`: a run that comes to writing its transformed files, with all that it has made by then.
- `Course.run_eq`: it leaves the disk that writing them leaves.
- `course_or_leaves`, `course_or_changesOnly`: every other run changes only the manifest and the
  artifacts.
-/

namespace PersistedQueries.Command

open Session (Fits artifactPlaces ownPlaces)
open Disk (ChangesOnly Touches)

/-- The session of a run before its first step. -/
def sessionOf (surroundings : Surroundings) (settings : Settings) (root : String) : Session :=
  (Session.opened surroundings.disk settings.options
    (Modules.ofRoot surroundings.disk root settings.aliases.entries Modules.defaultEndings)).1

/-- The first step of a run. -/
def startOf (surroundings : Surroundings) (settings : Settings) (root : String) :
    Session.Step (Option String) :=
  (sessionOf surroundings settings root).start surroundings

/-- A run that comes to writing its transformed files. -/
structure Course (words : List String) (environment : Environment) (file : Option Text)
    (surroundings : Surroundings) where
  /-- The arguments that the words make. -/
  arguments : Arguments
  /-- The settings that the arguments and the environment make. -/
  settings : Settings
  /-- The directory that aliases are relative to. -/
  root : String
  /-- The patterns of excluded directories. -/
  exclude : String
  /-- The path to process. -/
  target : String
  /-- The digest of the schema, if there is one. -/
  schema : Option String
  /-- The transformed source files. -/
  sources : Sources
  ofWords_eq : Request.ofWords words = .ok (.run arguments)
  ofArguments_eq : Settings.ofArguments environment file arguments = .ok settings
  isEnabled : settings.options.isEnabled = true
  root_eq : arguments.root = .text root
  output_ne : arguments.output ≠ some .noWords
  exclude_eq : arguments.exclude = .text exclude
  target_eq : arguments.path = some (.text target)
  start_eq : (startOf surroundings settings root).result = .ok schema
  sources_eq : transformFiles (startOf surroundings settings root).surroundings.disk
    { session := (startOf surroundings settings root).session }
    ((startOf surroundings settings root).surroundings.disk.findFiles target
      settings.options.endings (Settings.exclusions exclude)) = .ok sources
  isReal : arguments.dryRun = false
  finish_eq :
    (sources.session.finish (startOf surroundings settings root).surroundings).result = .ok ()
  isWriting : (arguments.write || (Settings.given arguments.outDir).isSome) = true

variable {words : List String} {environment : Environment} {file : Option Text}
  {surroundings : Surroundings}

namespace Course

variable (course : Course words environment file surroundings)

/-- The options of the session. -/
def options : Options := course.settings.options

/-- The surroundings in which the source files are transformed. -/
def before : Surroundings := (startOf surroundings course.settings course.root).surroundings

/-- The last step before the transformed files are written. -/
def finished : Session.Step Unit := course.sources.session.finish course.before

/-- What writing the transformed files leaves. -/
def outputs : Disk × Output × Except Disk.Fault Unit :=
  writeTransforms course.finished.surroundings.disk course.arguments course.target
    course.sources.transforms

end Course

/-! ## What a run changes before it writes transformed files -/

theorem startOf_changes (surroundings : Surroundings) (settings : Settings) (root : String)
    (h : settings.options.isEnabled = true) :
    Fits settings.options (startOf surroundings settings root).session ∧
      Touches (artifactPlaces settings.options surroundings.disk) surroundings.disk
        (startOf surroundings settings root).surroundings.disk := by
  obtain ⟨hfits, -, hframe⟩ := (Session.fits_opened surroundings.disk
    (Modules.ofRoot surroundings.disk root settings.aliases.entries Modules.defaultEndings) h).start
    surroundings
  exact ⟨hfits, hframe⟩

namespace Course

variable (course : Course words environment file surroundings)

theorem before_changes :
    Touches (artifactPlaces course.options surroundings.disk) surroundings.disk
      course.before.disk :=
  (startOf_changes surroundings course.settings course.root course.isEnabled).2

/-- The transformed texts are those of the source files, and are in the manifest. -/
theorem sound : course.sources.Sound course.options course.before.disk :=
  sound_transformFiles (Sources.sound_start
    (startOf_changes surroundings course.settings course.root course.isEnabled).1) course.sources_eq

theorem finished_changes :
    Touches (ownPlaces course.options surroundings.disk) course.before.disk
      course.finished.surroundings.disk :=
  Session.ownPlaces_of_working course.before_changes.placeOf ▸
    (course.sound.fits.finish course.before).1

/-- The manifest is on the disk when the transformed files are written. -/
theorem readEntries_finished {manifest : Manifest}
    (hplace : ¬ artifactPlaces course.options surroundings.disk
      (surroundings.disk.placeOf course.options.outputPath))
    (hmanifest : course.sources.session.manifest = some manifest) :
    Manifest.readEntries course.finished.surroundings.disk course.options.outputPath =
      .ok manifest.entries := by
  refine course.sound.fits.readEntries_finish ?_ hmanifest course.finish_eq
  rwa [Session.artifactPlaces_of_working course.before_changes.placeOf,
    course.before_changes.placeOf]

end Course

/-! ## The end of a run -/

section End

variable {arguments : Arguments} {readable : Bool} {target : String} {count : Nat}
  {sources : Sources} {later : Surroundings} {output : Output} {options : Options}

/-- Concluding a run whose manifest has been written changes nothing. -/
theorem conclude_of_finish (arguments : Arguments) (readable : Bool) (count : Nat)
    (hfits : Fits options sources.session) :
    let ended := conclude arguments readable count
      { sources with session := (sources.session.finish surroundings).session } later output
    ended.surroundings = later ∧ ended.result = .ok (statusOf sources.failures) := by
  obtain ⟨-, manifest, hmanifest, hclean, hpending⟩ := hfits.finish surroundings
  obtain ⟨hlater, hresult⟩ := @Session.close_of_clean _ later manifest hmanifest hclean hpending
  unfold conclude
  dsimp only
  rw [hresult]
  exact ⟨hlater, rfl⟩

theorem writeAll_eq (hfits : Fits options sources.session)
    (hfinish : (sources.session.finish surroundings).result = .ok ())
    (hwriting : (arguments.write || (Settings.given arguments.outDir).isSome) = true) :
    let outputs := writeTransforms (sources.session.finish surroundings).surroundings.disk arguments
      target sources.transforms
    let ended := writeAll arguments readable target count sources surroundings output
    ended.surroundings.disk = outputs.1 ∧
      ended.result =
        match outputs.2.2 with
        | .ok () => .ok (statusOf sources.failures)
        | .error fault => .error (.write fault) := by
  intro outputs
  unfold writeAll
  dsimp only
  rw [hfinish]
  dsimp only
  rw [if_pos hwriting]
  cases hresult : outputs.2.2 with
  | error fault => exact ⟨rfl, rfl⟩
  | ok _ =>
    obtain ⟨hsame, hstatus⟩ := conclude_of_finish arguments readable count hfits
    exact ⟨congrArg Surroundings.disk hsame, hstatus⟩

/-- A run that does not come to writing transformed files leaves the disk that writing the manifest
leaves. -/
theorem disk_writeAll (hfits : Fits options sources.session)
    (hnot : (sources.session.finish surroundings).result = .ok () →
      (arguments.write || (Settings.given arguments.outDir).isSome) = false) :
    (writeAll arguments readable target count sources surroundings output).surroundings.disk =
      (sources.session.finish surroundings).surroundings.disk := by
  unfold writeAll
  dsimp only
  split
  · rfl
  · next hfinish =>
    rw [hnot hfinish]
    rw [if_neg Bool.false_ne_true, (conclude_of_finish _ _ _ hfits).1]

end End

theorem surroundings_unpublished (surroundings : Surroundings) (output : Output)
    (fault : Session.Fault) :
    (unpublished surroundings output fault).surroundings = surroundings := by
  unfold unpublished
  split
  · split
    · rfl
    · split <;> rfl
  · rfl

/-- A run with settings that are switched on comes to its session. -/
theorem runSettings_eq_runSession {arguments : Arguments} {settings : Settings}
    {root exclude : String} (henabled : settings.options.isEnabled = true)
    (hroot : arguments.root = .text root) (houtput : arguments.output ≠ some .noWords)
    (hexclude : arguments.exclude = .text exclude) (readable : Bool) (surroundings : Surroundings) :
    ∃ output, runSettings arguments settings readable surroundings =
      runSession arguments settings exclude readable (sessionOf surroundings settings root)
        surroundings output := by
  unfold runSettings
  rw [henabled, if_neg (by decide), hroot, hexclude]
  cases hpath : arguments.output with
  | none => exact ⟨_, rfl⟩
  | some value =>
    cases value with
    | noWords => exact absurd hpath houtput
    | text path => exact ⟨_, rfl⟩

namespace Course

variable (course : Course words environment file surroundings)

theorem runSettings_eq (readable : Bool) :
    ∃ output, runSettings course.arguments course.settings readable surroundings =
      runSession course.arguments course.settings course.exclude readable
        (sessionOf surroundings course.settings course.root) surroundings output :=
  runSettings_eq_runSession course.isEnabled course.root_eq course.output_ne course.exclude_eq
    readable surroundings

theorem runSession_eq (readable : Bool) (output : Output) :
    ∃ count lines, runSession course.arguments course.settings course.exclude readable
        (sessionOf surroundings course.settings course.root) surroundings output =
      writeAll course.arguments readable course.target count course.sources course.before
        lines := by
  have hstart := course.start_eq
  have hsources := course.sources_eq
  unfold startOf at hstart hsources
  unfold runSession
  rw [course.target_eq]
  dsimp only
  rw [hstart]
  dsimp only
  unfold runPath
  dsimp only
  rw [hsources]
  dsimp only
  rw [course.isReal, if_neg Bool.false_ne_true]
  exact ⟨_, _, rfl⟩

/-- A run that comes to writing its transformed files leaves the disk that writing them leaves, and
breaks off when one of them cannot be written. -/
theorem run_eq (readable : Bool) :
    (run words environment file readable surroundings).surroundings.disk = course.outputs.1 ∧
      (run words environment file readable surroundings).result =
        match course.outputs.2.2 with
        | .ok () => .ok (statusOf course.sources.failures)
        | .error fault => .error (.write fault) := by
  obtain ⟨output, hsettings⟩ := course.runSettings_eq readable
  obtain ⟨count, lines, hsession⟩ := course.runSession_eq readable output
  unfold run
  rw [course.ofWords_eq]
  dsimp only
  rw [course.ofArguments_eq]
  dsimp only
  rw [hsettings, hsession]
  exact writeAll_eq course.sound.fits course.finish_eq course.isWriting

end Course

/-- What a run leaves on the disk that does not come to writing transformed files: nothing new, what
its first step leaves, or what writing the manifest leaves. -/
inductive Leaves (arguments : Arguments) (settings : Settings) (surroundings : Surroundings) :
    Disk → Prop where
  | unchanged : Leaves arguments settings surroundings surroundings.disk
  | started (isEnabled : settings.options.isEnabled = true) (root : String) :
      Leaves arguments settings surroundings (startOf surroundings settings root).surroundings.disk
  | finished (isEnabled : settings.options.isEnabled = true) (isReal : arguments.dryRun = false)
      (root : String) {session : Session} (fits : Fits settings.options session) :
      Leaves arguments settings surroundings
        (session.finish (startOf surroundings settings root).surroundings).surroundings.disk

/-- A run with settings comes to writing transformed files, or ends before that. -/
theorem course_or_leaves {arguments : Arguments} {settings : Settings}
    (readable : Bool) (hwords : Request.ofWords words = .ok (.run arguments))
    (hsettings : Settings.ofArguments environment file arguments = .ok settings) :
    Nonempty (Course words environment file surroundings) ∨
      Leaves arguments settings surroundings
        (runSettings arguments settings readable surroundings).surroundings.disk := by
  unfold runSettings
  split
  · exact .inr .unchanged
  next henabled =>
  dsimp only
  split
  · exact .inr .unchanged
  · exact .inr .unchanged
  next root hroot houtput =>
  split
  · exact .inr .unchanged
  next exclude hexclude =>
  have henabled : settings.options.isEnabled = true := by simpa using henabled
  have hstart : Leaves arguments settings surroundings
      (startOf surroundings settings root).surroundings.disk := .started henabled root
  unfold runSession
  dsimp only
  rw [← sessionOf, ← startOf]
  split
  · rw [surroundings_unpublished]
    exact .inr hstart
  next schema hschema =>
  split
  · exact .inr hstart
  · exact .inr hstart
  next target htarget =>
  unfold runPath
  dsimp only
  split
  · exact .inr hstart
  next sources hsources =>
  split
  · exact .inr hstart
  next hreal =>
  have hreal := Bool.eq_false_iff.2 hreal
  by_cases hend :
      (sources.session.finish (startOf surroundings settings root).surroundings).result = .ok () ∧
        (arguments.write || (Settings.given arguments.outDir).isSome) = true
  · exact .inl ⟨{
      arguments, settings, root, exclude, target, schema, sources
      ofWords_eq := hwords
      ofArguments_eq := hsettings
      isEnabled := henabled
      root_eq := hroot
      output_ne := houtput
      exclude_eq := hexclude
      target_eq := htarget
      start_eq := hschema
      sources_eq := hsources
      isReal := hreal
      finish_eq := hend.1
      isWriting := hend.2 }⟩
  · have hfits := (sound_transformFiles (Sources.sound_start
      (startOf_changes surroundings settings root henabled).1) hsources).fits
    rw [disk_writeAll hfits fun hfinish =>
      Bool.eq_false_iff.2 fun hwriting => hend ⟨hfinish, hwriting⟩]
    exact .inr (.finished henabled hreal root hfits)

/-- A run that makes artifacts is no dry run. -/
theorem isReal_of_schema {arguments : Arguments} {settings : Settings} {config : SchemaOptions}
    (hsettings : Settings.ofArguments environment file arguments = .ok settings)
    (hschema : settings.options.schema = some config) : arguments.dryRun = false := by
  simp only [Settings.ofArguments, bind, Except.bind] at hsettings
  split at hsettings
  · cases hsettings
  split at hsettings
  · cases hsettings
  split at hsettings
  · cases hsettings
  cases hsettings
  dsimp only at hschema
  split at hschema
  · cases hschema
  · next hreal => exact Bool.eq_false_iff.2 hreal

/-- Before transformed files are written, a run touches only what is its own: in no dry run, and when
the program is switched on. -/
theorem Leaves.touches {arguments : Arguments} {settings : Settings} {later : Disk}
    (h : Leaves arguments settings surroundings later)
    (hsettings : Settings.ofArguments environment file arguments = .ok settings) :
    Touches (fun place => arguments.dryRun = false ∧ settings.options.isEnabled = true ∧
      ownPlaces settings.options surroundings.disk place) surroundings.disk later := by
  have hstart (henabled : settings.options.isEnabled = true) (root : String) :
      Touches (fun place => arguments.dryRun = false ∧ settings.options.isEnabled = true ∧
        ownPlaces settings.options surroundings.disk place) surroundings.disk
          (startOf surroundings settings root).surroundings.disk := by
    refine (startOf_changes surroundings settings root henabled).2.mono fun place hplace => ?_
    obtain ⟨config, hschema, -⟩ := id hplace
    exact ⟨isReal_of_schema hsettings hschema, henabled, .inr hplace⟩
  cases h with
  | unchanged => exact .refl _ _
  | started henabled root => exact hstart henabled root
  | finished henabled hreal root hfits =>
    have hstart := hstart henabled root
    refine hstart.trans ((hfits.finish _).1.mono fun place hplace => ?_)
    rw [Session.ownPlaces_of_working hstart.placeOf] at hplace
    exact ⟨hreal, henabled, hplace⟩

/-- A run comes to writing transformed files, or leaves the disk as it is, or ends before that. -/
theorem run_cases (words : List String) (environment : Environment) (file : Option Text)
    (readable : Bool) (surroundings : Surroundings) :
    let later := (run words environment file readable surroundings).surroundings.disk
    Nonempty (Course words environment file surroundings) ∨ later = surroundings.disk ∨
      ∃ arguments settings, Request.ofWords words = .ok (.run arguments) ∧
        Settings.ofArguments environment file arguments = .ok settings ∧
        Leaves arguments settings surroundings later := by
  unfold run
  split
  · exact .inr (.inl rfl)
  · exact .inr (.inl rfl)
  next arguments hwords =>
  dsimp only
  split
  · next fault hsettings =>
    refine .inr (.inl ?_)
    unfold unsettled
    split <;> rfl
  next settings hsettings =>
  exact (course_or_leaves readable hwords hsettings).imp_right fun hleaves =>
    .inr ⟨arguments, settings, hwords, hsettings, hleaves⟩

/-- A run that does not come to writing transformed files changes only the manifest and the
artifacts. -/
theorem course_or_changesOnly (words : List String) (environment : Environment) (file : Option Text)
    (readable : Bool) (surroundings : Surroundings) :
    Nonempty (Course words environment file surroundings) ∨
      ChangesOnly
        (fun place => ∃ arguments settings, Request.ofWords words = .ok (.run arguments) ∧
          Settings.ofArguments environment file arguments = .ok settings ∧
          ownPlaces settings.options surroundings.disk place)
        surroundings.disk
        (run words environment file readable surroundings).surroundings.disk := by
  refine (run_cases words environment file readable surroundings).imp_right ?_
  rintro (hsame | ⟨arguments, settings, hwords, hsettings, hleaves⟩)
  · rw [hsame]
    exact .refl _ _
  · exact ((hleaves.touches hsettings).mono fun place hplace =>
      ⟨arguments, settings, hwords, hsettings, hplace.2.2⟩).toChangesOnly

end PersistedQueries.Command
