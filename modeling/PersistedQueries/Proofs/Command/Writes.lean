import PersistedQueries.Proofs.Command.Destinations
import PersistedQueries.Proofs.Command.InPlace

/-!
# What a run is asked to write

A run writes the manifest and the artifacts of the schema, and the transformed files with their
source maps if it is asked to. All other files are the same afterwards, however the run ends, and
nothing is written at all in a dry run or when the program is switched off.

- `Asked`: the places of the files that a run is asked to write.
- `Leaves.asked`: what a run touches before it comes to transformed files is asked for.
- `touches_run`: so is all that it touches.
- `writes_only_asked`: a run writes only what it is asked to. With a directory for transformed files
  they go below it, each to a place of its own.
-/

namespace PersistedQueries.Command

open Session (Fits Transformed artifactPlaces ownPlaces)
open Disk (Touches WritesOnly)

/-! ## What is asked for -/

variable {words : List String} {environment : Environment} {file : Option Text}
  {surroundings : Surroundings}

/-- The path of the transformed file of a source file. -/
def Course.destination (course : Course words environment file surroundings) (source : String) :
    String :=
  Command.destination course.before.disk course.arguments course.target source

/-- The places of the files that a run is asked to write. -/
inductive Asked (words : List String) (environment : Environment) (file : Option Text)
    (surroundings : Surroundings) : Disk.Place → Prop where
  /-- The manifest and the artifacts, unless it is a dry run or the program is switched off. -/
  | own {arguments : Arguments} {settings : Settings} {place : Disk.Place}
      (ofWords_eq : Request.ofWords words = .ok (.run arguments))
      (ofArguments_eq : Settings.ofArguments environment file arguments = .ok settings)
      (isReal : arguments.dryRun = false) (isEnabled : settings.options.isEnabled = true)
      (own : ownPlaces settings.options surroundings.disk place) :
      Asked words environment file surroundings place
  /-- The destination of a transformed file, in a run that writes these. -/
  | code (course : Course words environment file surroundings) {source : String}
      {made : Transformed} (mem : (source, made) ∈ course.sources.transforms) :
      Asked words environment file surroundings
        (surroundings.disk.placeOf (course.destination source))
  /-- Its source map, in a run that writes source maps. -/
  | map (course : Course words environment file surroundings) {source : String}
      {made : Transformed} (mem : (source, made) ∈ course.sources.transforms)
      (isMapped : course.arguments.sourceMaps = true) :
      Asked words environment file surroundings
        (surroundings.disk.placeOf (course.destination source ++ ".map"))

/-- In a dry run, and when the program is switched off, nothing is asked for. -/
theorem not_asked {arguments : Arguments} {settings : Settings}
    (hwords : Request.ofWords words = .ok (.run arguments))
    (hsettings : Settings.ofArguments environment file arguments = .ok settings)
    (hidle : arguments.dryRun = true ∨ settings.options.isEnabled = false) (place : Disk.Place) :
    ¬ Asked words environment file surroundings place := by
  have hnone {arguments' : Arguments} {settings' : Settings}
      (hwords' : Request.ofWords words = .ok (.run arguments'))
      (hsettings' : Settings.ofArguments environment file arguments' = .ok settings')
      (hreal : arguments'.dryRun = false) (henabled : settings'.options.isEnabled = true) :
      False := by
    cases hwords.symm.trans hwords'
    cases hsettings.symm.trans hsettings'
    rcases hidle with hdry | hdisabled
    · cases hdry.symm.trans hreal
    · cases hdisabled.symm.trans henabled
  intro hasked
  cases hasked with
  | own hwords' hsettings' hreal henabled _ => exact hnone hwords' hsettings' hreal henabled
  | code course _ =>
    exact hnone course.ofWords_eq course.ofArguments_eq course.isReal course.isEnabled
  | map course _ _ =>
    exact hnone course.ofWords_eq course.ofArguments_eq course.isReal course.isEnabled

/-! ## What is written -/

/-- A run that does not come to writing transformed files touches what is asked for. -/
theorem Leaves.asked {arguments : Arguments} {settings : Settings} {later : Disk}
    (h : Leaves arguments settings surroundings later)
    (hwords : Request.ofWords words = .ok (.run arguments))
    (hsettings : Settings.ofArguments environment file arguments = .ok settings) :
    Touches (Asked words environment file surroundings) surroundings.disk later :=
  (h.touches hsettings).mono fun _ ⟨hreal, henabled, hplace⟩ =>
    .own hwords hsettings hreal henabled hplace

namespace Course

variable (course : Course words environment file surroundings)

/-- What a run touches before its transformed files. -/
theorem touches_finished :
    Touches (Asked words environment file surroundings) surroundings.disk
      course.finished.surroundings.disk :=
  (Leaves.finished course.isEnabled course.isReal course.root course.sound.fits).asked
    course.ofWords_eq course.ofArguments_eq

theorem leads_target (h : course.sources.transforms ≠ []) :
    Leads course.before.disk course.target := by
  obtain ⟨transform, hmem⟩ := List.exists_mem_of_ne_nil _ h
  exact leads_of_mem_findFiles (course.sublist_transforms.subset (List.mem_map_of_mem hmem))

/-- A run that comes to writing transformed files writes them where they are to go. -/
theorem touches_outputs :
    Touches (Asked words environment file surroundings) surroundings.disk course.outputs.1 := by
  obtain ⟨written, hpasses, -⟩ := passes_writeTransforms course.finished.surroundings.disk
    course.arguments course.target course.sources.transforms
  refine course.touches_finished.trans (hpasses.touches.mono ?_)
  rintro place ⟨one, hone, hplace⟩
  have hmem := hpasses.mem_transforms hone
  have hleads := course.leads_target (List.ne_nil_of_mem hmem)
  have hpath : one.path = course.destination one.file :=
    (hpasses.path_eq_destination (hleads.of_touches course.finished_changes)
      hone).trans (destination_of_touches hleads course.finished_changes _ _)
  unfold Written.places at hplace
  rw [course.touches_finished.placeOf, course.touches_finished.placeOf, hpath] at hplace
  obtain rfl | ⟨hmaps, rfl⟩ := hplace
  · exact .code course hmem
  · exact .map course hmem hmaps

/-- With a directory for transformed files, a transformed file has the names below that directory
that its source file has below the source root. -/
theorem placeOf_destination (hnamed : surroundings.disk.Named)
    (hstanding : surroundings.disk.Standing) {outDir source : String} {made : Transformed}
    (hout : Settings.given course.arguments.outDir = some outDir)
    (hmem : (source, made) ∈ course.sources.transforms) :
    ∃ names, names ≠ [] ∧ (∀ name ∈ names, Path.IsName name) ∧
      surroundings.disk.placeOf source =
        surroundings.disk.placeOf (sourceRoot course.before.disk course.target) ++ names ∧
      surroundings.disk.placeOf (course.destination source) =
        surroundings.disk.placeOf outDir ++ names := by
  have hfound := course.sublist_transforms.subset (List.mem_map_of_mem hmem)
  have hdestination := destination_of_found (course.before_changes.named hnamed)
    (course.before_changes.standing hstanding) hout hfound
  simp only [course.before_changes.placeOf] at hdestination
  exact hdestination

end Course

/-- A run touches what is asked for. -/
theorem touches_run (words : List String) (environment : Environment) (file : Option Text)
    (readable : Bool) (surroundings : Surroundings) :
    Touches (Asked words environment file surroundings) surroundings.disk
      (run words environment file readable surroundings).surroundings.disk := by
  rcases run_cases words environment file readable surroundings with
    ⟨⟨course⟩⟩ | hsame | ⟨arguments, settings, hwords, hsettings, hleaves⟩
  · rw [(course.run_eq readable).1]
    exact course.touches_outputs
  · rw [hsame]
    exact .refl _ _
  · exact hleaves.asked hwords hsettings

/-- **A run writes only what it is asked to.** In a dry run, or when the program is switched off,
every file is the same afterwards. So is every file in any other run, but for the manifest, the
artifacts and, in a run that writes them, the transformed files and their source maps. With a
directory for transformed files, each of them goes below this directory, and no two go to one
place. -/
theorem writes_only_asked (words : List String) (environment : Environment) (file : Option Text)
    (readable : Bool) (surroundings : Surroundings) :
    let later := (run words environment file readable surroundings).surroundings.disk
    (∀ arguments settings, Request.ofWords words = .ok (.run arguments) →
      Settings.ofArguments environment file arguments = .ok settings →
      arguments.dryRun = true ∨ settings.options.isEnabled = false →
        WritesOnly (fun _ => False) surroundings.disk later) ∧
    WritesOnly (Asked words environment file surroundings) surroundings.disk later ∧
    (surroundings.disk.Named → surroundings.disk.Standing →
      ∀ (course : Course words environment file surroundings) outDir,
      Settings.given course.arguments.outDir = some outDir →
      (∀ source made, (source, made) ∈ course.sources.transforms →
        ∃ names, names ≠ [] ∧ (∀ name ∈ names, Path.IsName name) ∧
          surroundings.disk.placeOf (course.destination source) =
            surroundings.disk.placeOf outDir ++ names) ∧
      ∀ source made other made', (source, made) ∈ course.sources.transforms →
        (other, made') ∈ course.sources.transforms →
        surroundings.disk.placeOf (course.destination source) =
          surroundings.disk.placeOf (course.destination other) → source = other) := by
  have hrun := touches_run words environment file readable surroundings
  refine ⟨fun arguments settings hwords hsettings hidle => ?_, hrun.toWritesOnly,
    fun hnamed hstanding course outDir hout => ⟨fun source made hmem => ?_,
      fun source made other made' hmem hmem' hsame => ?_⟩⟩
  · exact (hrun.mono fun place => not_asked hwords hsettings hidle place).toWritesOnly
  · obtain ⟨names, hne, hnames, -, hplace⟩ :=
      course.placeOf_destination hnamed hstanding hout hmem
    exact ⟨names, hne, hnames, hplace⟩
  · obtain ⟨names, -, -, hsource, hplace⟩ := course.placeOf_destination hnamed hstanding hout hmem
    obtain ⟨names', -, -, hother, hplace'⟩ :=
      course.placeOf_destination hnamed hstanding hout hmem'
    -- the same names below the directory are the same names below the source root
    rw [hplace, hplace'] at hsame
    obtain rfl := List.append_cancel_left hsame
    exact (Prod.mk.inj (Course.transform_unique hnamed hmem hmem'
      (hsource.trans hother.symm))).1

/-! ## A directory for the transformed file -/

/-- The words for a run that writes the transformed file below another directory. -/
def outWords : List String := ["--path", "a.ts", "--out-dir", "out"]

/-- The arguments that the words make. -/
def outArguments : Arguments := { path := some (.text "a.ts"), outDir := some (.text "out") }

theorem ofWords_out : Request.ofWords outWords = .ok (.run outArguments) := by rfl

theorem ofArguments_out :
    Settings.ofArguments .empty none outArguments = .ok usualSettings := by rfl

theorem arguments_out (course : Course outWords .empty none surroundings) :
    course.arguments = outArguments :=
  (Request.run.inj (Except.ok.inj (ofWords_out.symm.trans course.ofWords_eq))).symm

theorem standing_querySurroundings : (querySurroundings false).disk.Standing := by
  have hall : ∀ above ∈ ([['w']] : Disk.Place).inits,
      (querySurroundings false).disk.entry? above = some .directory := by decide
  exact fun above habove => hall above ((List.mem_inits _ _).2 habove)

/-- The run writes the manifest, and nothing else outside the directory. -/
theorem writes_only_asked_out :
    (querySurroundings false).disk.Named ∧ (querySurroundings false).disk.Standing ∧
      ∀ place octets,
        (run outWords .empty none true (querySurroundings false)).surroundings.disk.entry? place =
          some (.file octets) →
        (querySurroundings false).disk.entry? place ≠ some (.file octets) →
        place = [['w'], "persisted-queries.json".toList] ∨ [['w'], "out".toList] <+: place := by
  have hnamed := named_querySurroundings false
  obtain ⟨-, hwrites, hout⟩ :=
    writes_only_asked outWords .empty none true (querySurroundings false)
  refine ⟨hnamed, standing_querySurroundings, fun place octets hlater hnew => ?_⟩
  have hasked : Asked outWords .empty none (querySurroundings false) place :=
    by_contra fun hnot => hnew ((hwrites.file_iff hnot).1 hlater)
  cases hasked with
  | own hwords hsettings _ _ hown =>
    cases ofWords_out.symm.trans hwords
    cases ofArguments_out.symm.trans hsettings
    rcases hown with rfl | ⟨config, hconfig, -⟩
    · exact .inl (by decide)
    · cases hconfig
  | @code course source made hmem =>
    have hgiven : Settings.given course.arguments.outDir = some "out" := by
      rw [arguments_out course]
      rfl
    obtain ⟨names, -, -, hplace⟩ :=
      (hout hnamed standing_querySurroundings course "out" hgiven).1 source made hmem
    exact .inr ⟨names, hplace.symm⟩
  | @map course _ _ _ hmaps =>
    rw [arguments_out course] at hmaps
    cases hmaps

end PersistedQueries.Command
