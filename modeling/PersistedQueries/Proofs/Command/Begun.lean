import PersistedQueries.Proofs.Command.Course
import PersistedQueries.Proofs.Disk.Removing

/-!
# Runs that come to their source files

Before a run looks at its source files it can end for reasons that lie elsewhere: the words are no
arguments, the program is switched off, the artifacts of the schema cannot be published. A run that
comes to its source files has a new index, and follows imports as the words and the working directory
say. When all of them have had their turns, nothing that has been reported is lost any more, and only
writing can break the run off.

- `Begun`: a run that comes to its source files, with all that it has made by then.
- `fits_start`, `index_start`, `modules_start`: the session that it has then.
- `Begun.Unwritten`: something cannot be written at the end of the run.
- `run_of_transformFiles`: what the run reports and how it ends.
-/

namespace PersistedQueries

namespace Output

/-- A text is among what is printed about failures. -/
def Reports (output : Output) (text : String) : Prop :=
  ∃ front back, output.err = front ++ text ++ back

variable {output : Output} {text : String}

theorem reports_err (output : Output) : output.Reports output.err :=
  ⟨"", "", by rw [String.empty_append, String.append_empty]⟩

theorem Reports.append (h : output.Reports text) (more : Output) :
    (output ++ more).Reports text := by
  obtain ⟨front, back, heq⟩ := h
  refine ⟨front, back ++ more.err, ?_⟩
  show output.err ++ more.err = _
  rw [heq, String.append_assoc]

theorem Reports.prepend (h : output.Reports text) (more : Output) :
    (more ++ output).Reports text := by
  obtain ⟨front, back, heq⟩ := h
  refine ⟨more.err ++ front, back, ?_⟩
  show more.err ++ output.err = _
  rw [heq, String.append_assoc, String.append_assoc, String.append_assoc]

end Output

namespace Command

open Session (Fits)

/-- A run that comes to its source files. -/
structure Begun (words : List String) (environment : Environment) (file : Option Text)
    (surroundings : Surroundings) where
  /-- The arguments that the words make. -/
  arguments : Arguments
  /-- The settings that the arguments and the environment make. -/
  settings : Settings
  /-- The directory that aliases are relative to. -/
  root : String
  /-- The patterns of excluded directories. -/
  exclude : String
  /-- The path to process. -/
  target : String
  /-- The digest of the schema, if there is one. -/
  schema : Option String
  ofWords_eq : Request.ofWords words = .ok (.run arguments)
  ofArguments_eq : Settings.ofArguments environment file arguments = .ok settings
  isEnabled : settings.options.isEnabled = true
  root_eq : arguments.root = .text root
  output_ne : arguments.output ≠ some .noWords
  exclude_eq : arguments.exclude = .text exclude
  target_eq : arguments.path = some (.text target)
  start_eq : (startOf surroundings settings root).result = .ok schema

variable {words : List String} {environment : Environment} {file : Option Text}
  {surroundings surroundings' : Surroundings}

namespace Begun

variable (begun : Begun words environment file surroundings)
  (begun' : Begun words environment file surroundings')

/-- The surroundings in which the source files are transformed. -/
def before : Surroundings := (startOf surroundings begun.settings begun.root).surroundings

/-- The source files before the first one is transformed. -/
def start : Sources := { session := (startOf surroundings begun.settings begun.root).session }

/-- The source files that the run finds. -/
def files : List String :=
  begun.before.disk.findFiles begun.target begun.settings.options.endings
    (Settings.exclusions begun.exclude)

/-- The host that follows imports in the run. -/
def host : Index.Host Modules.Failure := begun.start.session.modules.host begun.before.disk

/-! ## The session that comes to the source files -/

theorem fits_start : Fits begun.settings.options begun.start.session :=
  (startOf_changes surroundings begun.settings begun.root begun.isEnabled).1

theorem before_changes :
    Disk.Touches (Session.artifactPlaces begun.settings.options surroundings.disk)
      surroundings.disk begun.before.disk :=
  (startOf_changes surroundings begun.settings begun.root begun.isEnabled).2

/-- Publishing the artifacts leaves the index and the rules for imports alone. -/
theorem publish_keeps (session : Session) (surroundings : Surroundings) :
    (session.publish surroundings).session.index = session.index ∧
      (session.publish surroundings).session.modules = session.modules := by
  unfold Session.publish
  split <;> exact ⟨rfl, rfl⟩

theorem start_keeps :
    begun.start.session.index = .empty ∧
      begun.start.session.modules = Modules.ofRoot surroundings.disk begun.root
        begun.settings.aliases.entries Modules.defaultEndings := by
  have hoptions : (sessionOf surroundings begun.settings begun.root).options.isEnabled = true := by
    unfold sessionOf
    rw [(Session.fits_opened _ _ begun.isEnabled).options_eq]
    exact begun.isEnabled
  have hmodules : (sessionOf surroundings begun.settings begun.root).modules =
      Modules.ofRoot surroundings.disk begun.root begun.settings.aliases.entries
        Modules.defaultEndings := by
    unfold sessionOf Session.opened
    split <;> rfl
  unfold start startOf Session.start
  dsimp only
  rw [if_pos hoptions]
  obtain ⟨hindex, hkept⟩ := publish_keeps
    { sessionOf surroundings begun.settings begun.root with index := .empty } surroundings
  exact ⟨hindex, hkept.trans hmodules⟩

theorem index_start : begun.start.session.index = .empty := begun.start_keeps.1

/-- Imports are followed from the working directory, which publishing does not change. -/
theorem modules_start :
    begun.start.session.modules = Modules.ofRoot begun.before.disk begun.root
      begun.settings.aliases.entries Modules.defaultEndings := by
  rw [begun.start_keeps.2]
  unfold Modules.ofRoot Disk.absolute
  rw [begun.before_changes.working]

/-- What the words and the environment say is the same wherever they are used. -/
theorem agree : begun'.settings = begun.settings ∧ begun'.root = begun.root ∧
    begun'.exclude = begun.exclude ∧ begun'.target = begun.target := by
  have harguments : begun'.arguments = begun.arguments := by
    have heq := begun'.ofWords_eq.symm.trans begun.ofWords_eq
    rwa [Except.ok.injEq, Request.run.injEq] at heq
  have hsettings := begun'.ofArguments_eq
  have hroot := begun'.root_eq
  have hexclude := begun'.exclude_eq
  have htarget := begun'.target_eq
  rw [harguments] at hsettings hroot hexclude htarget
  rw [begun.ofArguments_eq, Except.ok.injEq] at hsettings
  rw [begun.root_eq, Value.text.injEq] at hroot
  rw [begun.exclude_eq, Value.text.injEq] at hexclude
  rw [begun.target_eq, Option.some.injEq, Value.text.injEq] at htarget
  exact ⟨hsettings.symm, hroot.symm, hexclude.symm, htarget.symm⟩

end Begun

/-! ## What is said at the end of a run -/

section End

variable {arguments : Arguments} {readable : Bool} {target : String} {count : Nat}
  {sources : Sources} {output : Output} {text : String}

theorem reports_conclude (h : output.Reports text) :
    (conclude arguments readable count sources surroundings output).output.Reports text := by
  unfold conclude
  dsimp only
  split <;> exact ((h.append _).append _).append _

/-- Nothing that has been reported is lost. -/
theorem reports_writeAll (h : output.Reports text) :
    (writeAll arguments readable target count sources surroundings output).output.Reports text := by
  unfold writeAll
  dsimp only
  split
  · exact h.append _
  split
  · split
    · exact (h.append _).append _
    · exact reports_conclude ((h.append _).append _)
  · exact reports_conclude (h.append _)

end End

namespace Begun

variable (begun : Begun words environment file surroundings)

/-- Something cannot be written at the end of a run that writes: the manifest, with what follows in a
development server, or a transformed file. -/
inductive Unwritten (sources : Sources) : Fault → Prop where
  | manifest {fault : Session.Fault} (isReal : begun.arguments.dryRun = false)
      (finish_eq : (sources.session.finish begun.before).result = .error fault) :
      Unwritten sources (.session fault)
  | output {fault : Disk.Fault} (isReal : begun.arguments.dryRun = false)
      (outputs_eq : (writeTransforms (sources.session.finish begun.before).surroundings.disk
        begun.arguments begun.target sources.transforms).2.2 = .error fault) :
      Unwritten sources (.write fault)

variable {begun}

theorem result_writeAll {sources : Sources} (readable : Bool) (count : Nat) (output : Output)
    (hfits : Fits begun.settings.options sources.session)
    (hreal : begun.arguments.dryRun = false) :
    let ended := writeAll begun.arguments readable begun.target count sources begun.before output
    ended.result = .ok (statusOf sources.failures) ∨
      ∃ fault, ended.result = .error fault ∧ begun.Unwritten sources fault := by
  intro ended
  cases hfinish : (sources.session.finish begun.before).result with
  | error fault =>
    refine .inr ⟨.session fault, ?_, .manifest hreal hfinish⟩
    unfold ended writeAll
    dsimp only
    rw [hfinish]
    rfl
  | ok =>
    by_cases hwriting :
        (begun.arguments.write || (Settings.given begun.arguments.outDir).isSome) = true
    · have hresult := (@writeAll_eq begun.before begun.arguments readable begun.target count sources
        output _ hfits hfinish hwriting).2
      cases houtputs : (writeTransforms (sources.session.finish begun.before).surroundings.disk
          begun.arguments begun.target sources.transforms).2.2 with
      | error fault =>
        rw [houtputs] at hresult
        exact .inr ⟨.write fault, hresult, .output hreal houtputs⟩
      | ok =>
        rw [houtputs] at hresult
        exact .inl hresult
    · refine .inl ?_
      unfold ended writeAll
      dsimp only
      rw [hfinish]
      dsimp only
      rw [if_neg hwriting]
      exact (conclude_of_finish begun.arguments readable count hfits).2

variable (begun)

theorem run_eq (readable : Bool) :
    ∃ warning output, run words environment file readable surroundings =
      let ended := runPath begun.arguments begun.settings begun.exclude readable begun.target
        begun.start.session begun.before output
      { ended with output := warning ++ ended.output } := by
  obtain ⟨output, hsettings⟩ := runSettings_eq_runSession begun.isEnabled begun.root_eq
    begun.output_ne begun.exclude_eq readable surroundings
  have hstart := begun.start_eq
  unfold startOf at hstart
  unfold run
  rw [begun.ofWords_eq]
  dsimp only
  rw [begun.ofArguments_eq]
  dsimp only
  rw [hsettings]
  unfold runSession
  rw [begun.target_eq]
  dsimp only
  rw [hstart]
  exact ⟨_, _, rfl⟩

/-- When the source files have had their turns, the run reports what they have reported, and ends with
the status for their failures unless something cannot be written. -/
theorem run_of_transformFiles {sources : Sources} (readable : Bool)
    (h : transformFiles begun.before.disk begun.start begun.files = .ok sources) :
    let ended := run words environment file readable surroundings
    ended.output.Reports sources.output.err ∧
      (ended.result = .ok (statusOf sources.failures) ∨
        ∃ fault, ended.result = .error fault ∧ begun.Unwritten sources fault) := by
  intro ended
  obtain ⟨warning, output, hrun⟩ := begun.run_eq readable
  have hfits := (sound_transformFiles (Sources.sound_start begun.fits_start) h).fits
  have hreports : ∀ before : Output, (before ++ sources.output).Reports sources.output.err :=
    (Output.reports_err sources.output).prepend
  unfold files start at h
  unfold ended
  rw [hrun]
  unfold runPath
  dsimp only [start]
  rw [h]
  dsimp only
  by_cases hdry : begun.arguments.dryRun = true
  · rw [if_pos hdry]
    exact ⟨(((hreports _).append _).append _).prepend warning, .inl rfl⟩
  · rw [if_neg hdry]
    exact ⟨(reports_writeAll (hreports _)).prepend warning,
      result_writeAll readable _ _ hfits (Bool.eq_false_iff.2 hdry)⟩

end Begun

end Command

end PersistedQueries
