import PersistedQueries.Proofs.Index.Growth

/-!
# Files are entered or refused

The events of a call tell which files it began to index: it asked for their texts or announced
them. Each of them is entered in the end, or it is refused: asking for its text or surveying it
gives the fault that the call ends with, and it is not entered. A call refuses one file at most,
since the first fault ends it.

- `Begun`: the events show that the indexing of a file began.
- `Refuses`: the step ends with the fault of a file, which is not entered.
- `Settles`: what was begun is entered or refused. `Settles.andThen` composes it.
- `indexFile_settles`: every call settles what it begins.
-/

namespace PersistedQueries.Index

variable {ε : Type}

/-- The events show that the indexing of a file began. -/
def Begun (events : List Event) (file : String) : Prop :=
  .loaded file ∈ events ∨ .announced file ∈ events

theorem begun_append {events later : List Event} {file : String} :
    Begun (events ++ later) file ↔ Begun events file ∨ Begun later file := by
  simp only [Begun, List.mem_append]
  exact or_or_or_comm

/-! ## Events of a survey -/

/-- Looking for the file of a name begins no file. -/
theorem not_begun_locate (host : Host ε) (imports : Table String String)
    (importer : Option String) (name file : String) :
    ¬ Begun (locate host imports importer name).events file := by
  unfold locate
  split <;> simp [Begun]

theorem not_begun_locateEach (host : Host ε) (imports : Table String String) (importer : String)
    (files : NameSet) (names : List String) (file : String) :
    ¬ Begun (locateEach host imports importer files names).events file := by
  induction names with
  | nil => simp [locateEach, Begun]
  | cons name names ih =>
    have hname := not_begun_locate host imports (some importer) name file
    unfold locateEach Answer.andThen
    split
    · exact hname
    · rw [begun_append, not_or]
      refine ⟨hname, ?_⟩
      split
      · exact ih
      · rw [begun_append, not_or]
        exact ⟨ih, by simp [Begun]⟩

/-- A survey begins the file that it is about, and no other. -/
theorem eq_of_begun_survey {host : Host ε} {index : Index} {file other : String} {source : Text}
    {events : List Event} {result : Except (Fault ε) (Addition × List host.File)}
    (hsurvey : survey host index file source = ⟨events, result⟩) (h : Begun events other) :
    other = file := by
  have hneeds := not_begun_locateEach host (CallSite.parseImports source) file
    (index.files.insert file) (needs index.registry (CallSite.extract source (some file))) other
  obtain rfl : (survey host index file source).events = events := by rw [hsurvey]
  simp only [survey, Answer.andThen] at h
  rcases begun_append.1 h with h | h
  · simpa [Begun] using h
  · split at h
    · exact absurd h hneeds
    · rcases begun_append.1 h with h | h
      · exact absurd h hneeds
      · split at h <;> simp [Begun] at h

theorem eq_of_begun_loadAndSurvey {host : Host ε} {index : Index} {file other : String}
    {events : List Event} {result : Except (Fault ε) (Addition × List host.File)}
    (hsurvey : loadAndSurvey host index file = ⟨events, result⟩) (h : Begun events other) :
    other = file := by
  obtain rfl : (loadAndSurvey host index file).events = events := by rw [hsurvey]
  cases hload : host.load file with
  | error failure =>
    rw [loadAndSurvey_of_load_eq_error index hload] at h
    simpa [Begun] using h
  | ok source =>
    rw [loadAndSurvey_of_load_eq_ok index hload] at h
    rcases begun_append.1 (show Begun ([.loaded file] ++ _) other from h) with h | h
    · simpa [Begun] using h
    · exact eq_of_begun_survey rfl h

/-! ## Settled files -/

/-- What becomes of a file when it is surveyed with an index. -/
abbrev Survey (host : Host ε) : Type := Index → String → Answer ε (Addition × List host.File)

/-- The step ends with the fault that surveying a file gives, and the file is not entered. -/
def Refuses {host : Host ε} (look : Survey host) (outcome : Outcome ε) (file : String) : Prop :=
  file ∉ outcome.index.files ∧
    ∃ fault, outcome.result = .error fault ∧ (look outcome.index file).result = .error fault

/-- Each file that the step began is entered or refused. -/
def Settles {host : Host ε} (look : Survey host) (outcome : Outcome ε) : Prop :=
  ∀ file, Begun outcome.events file → file ∈ outcome.index.files ∨ Refuses look outcome file

namespace Settles

variable {host : Host ε} {look : Survey host} {outcome : Outcome ε}

/-- A step that begins no file has nothing to settle. -/
theorem of_not_begun (h : ∀ file, ¬ Begun outcome.events file) : Settles look outcome :=
  fun file hfile => absurd hfile (h file)

theorem after {events : List Event} (h : Settles look outcome)
    (hevents : ∀ file, Begun events file → file ∈ outcome.index.files) :
    Settles look (outcome.after events) := by
  intro file hfile
  rcases begun_append.1 hfile with hfile | hfile
  · exact .inl (hevents file hfile)
  · exact h file hfile

/-- A step that goes on from a step without losing a file settles what both begin. -/
theorem andThen {next : Index → Outcome ε} (h : Settles look outcome)
    (hnext : Settles look (next outcome.index))
    (hfiles : ∀ {file}, file ∈ outcome.index.files → file ∈ (next outcome.index).index.files) :
    Settles look (outcome.andThen next) := by
  cases hresult : outcome.result with
  | error fault =>
    rw [Outcome.andThen_of_error hresult]
    exact h
  | ok =>
    rw [Outcome.andThen_of_ok hresult]
    refine hnext.after fun file hfile => ?_
    rcases h file hfile with hfile | ⟨-, fault, hfault, -⟩
    · exact hfiles hfile
    · cases hresult.symm.trans hfault

end Settles

/-! ## Every call settles what it begins -/

theorem drain_settles (host : Host ε) (index : Index) (stack : List host.File) :
    Settles (loadAndSurvey host) (drain host index stack) := by
  fun_induction drain host index stack with
  | case1 => exact .of_not_begun fun file => by simp [Begun, Outcome.done]
  | case2 index first stack hfirst ih => exact ih
  | case3 index first stack hfirst events fault hsurvey =>
    intro file hfile
    rw [eq_of_begun_loadAndSurvey hsurvey hfile]
    exact .inr ⟨hfirst, fault, rfl, by rw [hsurvey]⟩
  | case4 index first stack hfirst events addition queue hsurvey ih =>
    refine ih.after fun file hfile => ?_
    rw [eq_of_begun_loadAndSurvey hsurvey hfile]
    refine (drain_grows host (index.add addition) (queue.reverse ++ stack)).files ?_
    exact NameSet.mem_insert.2 (.inl (loadAndSurvey_file hsurvey).symm)

theorem bindName_settles (host : Host ε) (index : Index) (importer : Option String)
    (name : String) : Settles (loadAndSurvey host) (bindName host index importer name) := by
  have hlocate := not_begun_locate host (index.importsOf (importer.getD "")) importer name
  unfold bindName
  split
  · next events fault hlocated =>
    rw [hlocated] at hlocate
    exact .of_not_begun hlocate
  · next events file hlocated =>
    rw [hlocated] at hlocate
    refine Settles.after ?_ fun other hother => absurd hother (hlocate other)
    refine (drain_settles host index [file]).andThen ?_ fun hother => ?_
    · split <;> exact .of_not_begun fun other => by simp [Begun, Outcome.done]
    · split <;> exact hother

theorem bindEach_settles (host : Host ε) (index : Index) (importer : Option String)
    (names : List String) : Settles (loadAndSurvey host) (bindEach host index importer names) := by
  induction names generalizing index with
  | nil =>
    unfold bindEach
    exact .of_not_begun fun file => by simp [Begun, Outcome.done]
  | cons name names ih =>
    unfold bindEach
    split
    · exact ih index
    · exact (bindName_settles host index importer name).andThen (ih _)
        (bindEach_grows host _ importer names).files

theorem close_settles (host : Host ε) (index : Index) (visited : NameSet) (stack : List String) :
    Settles (loadAndSurvey host) (close host index visited stack) := by
  fun_induction close host index visited stack with
  | case1 => exact .of_not_begun fun file => by simp [Begun, Outcome.done]
  | case2 index visited name stack hname ih => exact ih
  | case3 => exact .of_not_begun fun file => by simp [Begun]
  | case4 index visited name stack hname site hsite bound events fault hbound =>
    have := bindEach_settles host index site.file site.dependsOn.names
    rwa [hbound] at this
  | case5 index visited name stack hname site hsite bound events _ hbound ih =>
    have hsettles := bindEach_settles host index site.file site.dependsOn.names
    rw [hbound] at hsettles
    -- the names were bound without a fault, so the files that this began are entered
    refine ih.after fun file hfile => ?_
    rcases hsettles file hfile with hfile | ⟨-, fault, hfault, -⟩
    · exact (close_grows host bound (visited.insert name) _).files hfile
    · cases hfault

/-- What a call for a file sees of the files: its own file has the text that the call was given,
and the host is asked for the texts of the others. -/
def callSurvey (host : Host ε) (own : String) (source : Text) : Survey host := fun index file =>
  if file = own then survey host index own source else loadAndSurvey host index file

/-- When its own file is entered, a call sees what the host has. -/
theorem Settles.of_mem {host : Host ε} {own : String} {source : Text} {outcome : Outcome ε}
    (h : Settles (loadAndSurvey host) outcome) (hown : own ∈ outcome.index.files) :
    Settles (callSurvey host own source) outcome := by
  intro file hfile
  refine (h file hfile).imp_right ?_
  rintro ⟨hnew, fault, hresult, hlook⟩
  refine ⟨hnew, fault, hresult, ?_⟩
  -- a file that is refused is not entered, so it is not the call's own
  have hother : file ≠ own := by
    rintro rfl
    exact hnew hown
  unfold callSurvey
  rw [if_neg hother]
  exact hlook

theorem indexNew_settles (host : Host ε) (index : Index) (file : String) (source : Text) :
    Settles (callSurvey host file source) (indexNew host index file source) := by
  unfold indexNew
  split
  · exact .of_not_begun fun file => by simp [Begun, Outcome.done]
  · next hfile =>
    split
    · next events fault hsurvey =>
      intro other hother
      rw [eq_of_begun_survey hsurvey hother]
      refine .inr ⟨hfile, fault, rfl, ?_⟩
      unfold callSurvey
      rw [if_pos rfl, hsurvey]
    · next events addition queue hsurvey =>
      have hown : file ∈ (drain host (index.add addition) queue.reverse).index.files :=
        (drain_grows host (index.add addition) queue.reverse).files
          (NameSet.mem_insert.2 (.inl (survey_file hsurvey).symm))
      refine ((drain_settles host _ _).of_mem hown).after fun other hother => ?_
      rw [eq_of_begun_survey hsurvey hother]
      exact hown

/-- Each file that a call began is entered or refused, however the call ends. -/
theorem indexFile_settles (host : Host ε) (index : Index) (file : String) (source : Text) :
    Settles (callSurvey host file source) (indexFile host index file source) := by
  have hnew := indexNew_settles host (index.refresh file source) file source
  unfold indexFile
  cases hresult : (indexNew host (index.refresh file source) file source).result with
  | error fault =>
    rw [Outcome.andThen_of_error hresult]
    exact hnew
  | ok =>
    have hgrows := close_grows host
      (indexNew host (index.refresh file source) file source).index .empty
      ((indexNew host (index.refresh file source) file source).index.definedIn file).names.reverse
    have hown := hgrows.files (mem_files_indexNew hresult)
    exact hnew.andThen ((close_settles host _ _ _).of_mem hown) hgrows.files

end PersistedQueries.Index
