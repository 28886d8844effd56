import PersistedQueries.Proofs.Command.Course
import PersistedQueries.Proofs.Session.Isolation

/-!
# The turns of source files

The source files of a run have their turns one after the other. A file whose transform fails is
reported and counted, and the next one has its turn. Only a file that cannot be read breaks this off,
since every fault of a transform is one of the definitions or texts that the file reaches.

- `Turns`: the source files with what has become of each.
- `Turns.failures_eq`, `Turns.err_eq`: each file that failed is counted and reported, in their order.
- `Turns.transforms_eq`: the others are the transformed files.
- `message_of_foreseen`: a fault of a transform is one that the run goes on from.
- `exists_turns`: so every file has its turn when every file can be read.
- `Turns.exists_session`: a session that has met only what the files reach has given each result.
-/

namespace PersistedQueries.Command

open Session (Transformed)
open Index (Program Carries Foreseen hostTexts)

variable {disk : Disk} {sources later : Sources} {file : String} {files : List String} {code : Text}

/-- A source file and what its transform has given. -/
abbrev Turn : Type := String × Except Session.Fault (Option Transformed)

/-- The transform has failed. -/
def Turn.fails (turn : Turn) : Bool := turn.2 matches .error _

/-- What is said about a file whose transform has failed. -/
def Turn.report (turn : Turn) : String :=
  match turn.2 with
  | .ok _ => ""
  | .error fault => (Output.fileError turn.1 fault.message).err

/-- The transformed text that a turn has given, if it has. -/
def Turn.made? : Turn → Option (String × Transformed)
  | (file, .ok (some made)) => some (file, made)
  | _ => none

theorem Turn.made?_eq_none {result : Except Session.Fault (Option Transformed)}
    (h : ∀ made, result ≠ .ok (some made)) : Turn.made? (file, result) = none := by
  unfold Turn.made?
  split
  · next heq =>
    cases heq
    exact absurd rfl (h _)
  · rfl

/-- Source files are read and transformed one after the other. -/
inductive Turns (disk : Disk) : Sources → List String → List Turn → Sources → Prop where
  /-- No file is left. -/
  | done (sources : Sources) : Turns disk sources [] [] sources
  /-- The first file is transformed, which may fail, and then the others are. -/
  | next {sources next later : Sources} {file : String} {files : List String} {code : Text}
      {turns : List Turn} (readText : disk.readText file = .ok code)
      (transform : sources.transform disk file code = .ok next)
      (rest : Turns disk next files turns later) :
      Turns disk sources (file :: files)
        ((file, (sources.session.transform disk code file).2.1) :: turns) later

/-! ## What a turn leaves -/

/-- The message for a file is that of its fault. -/
theorem eq_message {fault : Session.Fault} {message : String}
    (h : fileMessage? fault = some message) : message = fault.message := by
  unfold fileMessage? at h
  split at h <;> cases h <;> rfl

/-- The run goes on after a turn that failed, too, and its failure has been counted and reported. -/
theorem Sources.turn_of_transform {turn : Turn} (h : sources.transform disk file code = .ok later)
    (hturn : turn = (file, (sources.session.transform disk code file).2.1)) :
    later.failures = sources.failures + (if turn.fails then 1 else 0) ∧
      later.output.err = sources.output.err ++ turn.report := by
  subst hturn
  have herr : (sources.session.transform disk code file).2.2.err = "" :=
    Session.err_transformOn ..
  unfold Sources.transform at h
  generalize sources.session.transform disk code file = outcome at h herr ⊢
  obtain ⟨session, result, output⟩ := outcome
  dsimp only at h herr
  have hscan : (sources.output ++ .onlyIf session.options.isDebug (Progress.processing file) ++
      output).err = sources.output.err := by
    show sources.output.err ++ (Output.onlyIf _ (Progress.processing file)).err ++ output.err = _
    rw [herr]
    cases session.options.isDebug
    · simp [Output.onlyIf, Output.none]
    · simp [Output.onlyIf, Progress.processing, Output.line]
  split at h
  · cases h
    exact ⟨rfl, hscan.trans (String.append_empty).symm⟩
  · cases h
    exact ⟨rfl, hscan.trans (String.append_empty).symm⟩
  next fault =>
  split at h
  · next message hmessage =>
    cases h
    rw [eq_message hmessage]
    exact ⟨rfl, congrArg (· ++ _) hscan⟩
  · cases h

namespace Turns

variable {turns : List Turn}

/-- The turns are those of a run. -/
theorem transformFiles_eq (h : Turns disk sources files turns later) :
    transformFiles disk sources files = .ok later := by
  induction h with
  | done => rfl
  | next hread htransform _ ih =>
    unfold transformFiles
    rw [hread]
    dsimp only
    rw [htransform]
    exact ih

/-- Every file has its turn. -/
theorem files_eq (h : Turns disk sources files turns later) : turns.map Prod.fst = files := by
  induction h with
  | done => rfl
  | next _ _ _ ih => exact congrArg (_ :: ·) ih

/-- Each failure is counted. -/
theorem failures_eq (h : Turns disk sources files turns later) :
    later.failures = sources.failures + turns.countP Turn.fails := by
  induction h with
  | done => rfl
  | next hread htransform _ ih =>
    rw [ih, (Sources.turn_of_transform htransform rfl).1, List.countP_cons, Nat.add_assoc,
      Nat.add_comm (List.countP ..)]

/-- Each failure is reported, and nothing else is. -/
theorem err_eq (h : Turns disk sources files turns later) :
    later.output.err = sources.output.err ++ String.join (turns.map Turn.report) := by
  induction h with
  | done => exact (String.append_empty).symm
  | next hread htransform _ ih =>
    rw [ih, (Sources.turn_of_transform htransform rfl).2, List.map_cons, String.join_cons,
      String.append_assoc]

/-- What the turns have given are the transformed texts. -/
theorem transforms_eq (h : Turns disk sources files turns later) :
    later.transforms = sources.transforms ++ turns.filterMap Turn.made? := by
  induction h with
  | done => exact (List.append_nil _).symm
  | next hread htransform _ ih =>
    rw [ih]
    rcases (Sources.transform_eq_ok htransform).2 with ⟨made, hmade, hadded⟩ | ⟨hnone, hkept⟩
    · rw [hadded, List.filterMap_cons_some (congrArg (fun result => Turn.made? (_, result)) hmade),
        List.append_assoc, List.singleton_append]
    · rw [hkept, List.filterMap_cons_none (Turn.made?_eq_none hnone)]

end Turns

/-! ## Files that are reached -/

/-- A session that has met files with a property only. -/
structure Meets (disk : Disk) (P : String → Prop) (options : Options) (modules : Modules)
    (session : Session) : Prop where
  options_eq : session.options = options
  modules_eq : session.modules = modules
  fits : Index.Fits (Program.restrict (hostTexts (modules.host disk)) P) session.index

variable {P : String → Prop} {options : Options} {modules : Modules} {session : Session}

/-- It meets no others when it transforms one of them. -/
theorem Meets.transform (h : Meets disk P options modules session)
    (hcarries : Carries (modules.host disk) P) (hfile : P file)
    (hread : disk.readText file = .ok code) :
    Meets disk P options modules (session.transform disk code file).1 ∧
      ∀ cause, (session.transform disk code file).2.1 = .error (.index cause) →
        Foreseen (modules.host disk) P cause := by
  obtain ⟨hoptions, rfl, hfits⟩ := h
  obtain ⟨hlater, hmodules, hforeseen⟩ := Session.confined_transformOn hcarries hfits hfile
    (Modules.host_load_eq_ok.2 hread)
  exact ⟨⟨(session.transformOn_cases _ code file).1.trans hoptions, hmodules, hlater⟩, hforeseen⟩

/-- A fault is one that the run goes on from, when the files with the property are files. -/
theorem message_of_foreseen {cause : Index.Fault Modules.Failure}
    (hreadable : ∀ id, P id → ∃ octets, disk.readOctets id = .ok octets)
    (h : Foreseen (modules.host disk) P cause) :
    ∃ message, fileMessage? (.index cause) = some message := by
  cases h with
  | unbound fault => exact ⟨_, rfl⟩
  | duplicate name first second => exact ⟨_, rfl⟩
  | @resolve specifier importer failure hresolve =>
    -- a specifier in a file can always be followed
    exfalso
    unfold Modules.host Modules.resolve Modules.basePath at hresolve
    dsimp only at hresolve
    split at hresolve
    · next hfault =>
      split at hfault
      · cases hfault
      · split at hfault <;> cases hfault
    · cases hresolve
    · cases hresolve
  | @load id failure hid hload =>
    obtain ⟨octets, hoctets⟩ := hreadable id hid
    unfold Modules.host Disk.readText at hload
    dsimp only at hload
    rw [hoctets] at hload
    dsimp only at hload
    split at hload <;> cases hload
    exact ⟨_, rfl⟩

theorem exists_transform_eq_ok (hsession : Meets disk P options modules sources.session)
    (hcarries : Carries (modules.host disk) P)
    (hreadable : ∀ id, P id → ∃ octets, disk.readOctets id = .ok octets) (hfile : P file)
    (hread : disk.readText file = .ok code) :
    ∃ next, sources.transform disk file code = .ok next ∧
      Meets disk P options modules next.session := by
  obtain ⟨hmeets, hforeseen⟩ := hsession.transform hcarries hfile hread
  -- the faults of texts have messages whatever they are, those of an index because they are foreseen
  have hmessage : ∀ fault, (sources.session.transform disk code file).2.1 = .error fault →
      ∃ message, fileMessage? fault = some message := by
    intro fault hfault
    by_cases hpass : sources.session.Passes code file
    · unfold Session.transform at hfault
      rw [Session.transformOn_of_passes _ hpass] at hfault
      cases hfault
    have hattempt := (Session.transformOn_of_not_passes
      (sources.session.modules.host disk) hpass).2.2.symm.trans hfault
    rcases Session.attempt_eq_error hattempt with ⟨cause, -, rfl⟩ | ⟨cause, rfl⟩ | ⟨cause, rfl⟩
    · exact message_of_foreseen hreadable (hforeseen cause hfault)
    · exact ⟨_, rfl⟩
    · exact ⟨_, rfl⟩
  obtain ⟨next, hnext⟩ : ∃ next, sources.transform disk file code = .ok next := by
    unfold Sources.transform
    generalize sources.session.transform disk code file = outcome at hmessage
    obtain ⟨session, result, output⟩ := outcome
    cases result with
    | ok made =>
      cases made with
      | none => exact ⟨_, rfl⟩
      | some transformed => exact ⟨_, rfl⟩
    | error fault =>
      obtain ⟨message, hmessage⟩ := hmessage fault rfl
      dsimp only
      rw [hmessage]
      exact ⟨_, rfl⟩
  exact ⟨next, hnext, (Sources.transform_eq_ok hnext).1 ▸ hmeets⟩

/-- Every file has its turn when every file can be read. -/
theorem exists_turns (hsession : Meets disk P options modules sources.session)
    (hcarries : Carries (modules.host disk) P)
    (hreadable : ∀ id, P id → ∃ octets, disk.readOctets id = .ok octets)
    (hfiles : ∀ file ∈ files, P file ∧ ∃ code, disk.readText file = .ok code) :
    ∃ turns later, Turns disk sources files turns later := by
  induction files generalizing sources with
  | nil => exact ⟨[], sources, .done sources⟩
  | cons file files ih =>
    obtain ⟨⟨hfile, code, hread⟩, hfiles⟩ := List.forall_mem_cons.1 hfiles
    obtain ⟨next, hnext, hmeets⟩ := exists_transform_eq_ok hsession hcarries hreadable hfile hread
    obtain ⟨turns, later, hturns⟩ := ih hmeets hfiles
    exact ⟨_, later, .next hread hnext hturns⟩

/-- Each result is that of a session that has met files with the property only. -/
theorem Turns.exists_session {turns : List Turn} (h : Turns disk sources files turns later)
    (hsession : Meets disk P options modules sources.session)
    (hcarries : Carries (modules.host disk) P) (hfiles : ∀ file ∈ files, P file) {turn : Turn}
    (hturn : turn ∈ turns) :
    ∃ session code, Meets disk P options modules session ∧ disk.readText turn.1 = .ok code ∧
      turn.2 = (session.transform disk code turn.1).2.1 := by
  induction h with
  | done => exact absurd hturn List.not_mem_nil
  | @next sources next later file files code turns hread htransform _ ih =>
    obtain ⟨hfile, hfiles⟩ := List.forall_mem_cons.1 hfiles
    rcases List.mem_cons.1 hturn with rfl | hturn
    · exact ⟨sources.session, code, hsession, hread, rfl⟩
    · have hmeets := (hsession.transform hcarries hfile hread).1
      rw [← (Sources.transform_eq_ok htransform).1] at hmeets
      exact ih hmeets hfiles hturn

end PersistedQueries.Command
