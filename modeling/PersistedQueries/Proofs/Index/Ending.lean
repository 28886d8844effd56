import PersistedQueries.Proofs.Index.History
import PersistedQueries.Proofs.Index.Jobs

/-!
# How a call for a file ends

A call may follow any imports, in circles too. It asks for the text of a file only when the file is not
indexed, and the file is indexed from then on or the call ends; so it asks for no text twice. A
definition is looked up without a test in one place, the walk over the names that a file reaches. The
names on the stack of the walk are registered when it comes to them, since the jobs before it bind those
that are not.

What one turn keeps is proved from the cases of `turn`, and what a call keeps by induction over its
turns.

- `loads`: the files whose texts the host was asked for.
- `Performs.loads_nodup`, `Performs.loads_fresh`: these are new files, each asked for once.
- `Accounted`: the faults that a call may end with, as its events show them.
- `Ready`: a walk meets registered names only. `Ready.turn` keeps it.
- `indexFile_ends`: every call comes to an end, and either succeeds or has such a fault.
-/

namespace PersistedQueries.Index

variable {ε : Type} {host : Host ε} {index later : Index} {job : Job host}
  {jobs more : List (Job host)} {events : List Event} {outcome : Outcome ε}

/-! ## Growth in turns -/

/-- Entering a file that a survey found new is growth. -/
theorem grows_of_survey {file : String} {source : Text} {addition : Addition}
    {queue : List host.File} (hfile : file ∉ index.files)
    (hsurvey : survey host index file source = ⟨events, .ok (addition, queue)⟩) :
    ∃ texts, Grows texts index (index.add addition) := by
  obtain ⟨rfl, hfree⟩ := survey_eq_ok hsurvey
  exact ⟨fun _ => some source, Relation.ReflTransGen.single (.intro rfl hfile hfree)⟩

/-- A turn enters one file at most. -/
theorem grows_turn (h : turn host index job = ⟨events, .ok (later, more)⟩) :
    ∃ texts, Grows texts index later := by
  have hsame : ∃ texts, Grows texts index index := ⟨fun _ => none, .refl⟩
  revert h
  fun_cases turn host index job with
  | case3 file source hfile _ addition queue hsurvey =>
    rintro ⟨⟩
    exact grows_of_survey hfile hsurvey
  | case7 file stack hfile _ addition queue hsurvey =>
    rintro ⟨⟩
    obtain ⟨source, _, -, hok⟩ := loadAndSurvey_eq_ok hsurvey
    exact grows_of_survey hfile hok
  | _ =>
    intro h
    cases h <;> exact hsame

/-! ## Texts that are asked for -/

/-- The files whose texts the host was asked for, in the order of the events. -/
def loads (events : List Event) : List String :=
  events.filterMap fun event =>
    match event with
    | .loaded file => some file
    | _ => none

theorem loads_append (events later : List Event) :
    loads (events ++ later) = loads events ++ loads later := List.filterMap_append

theorem loads_after (events : List Event) (outcome : Outcome ε) :
    loads (outcome.after events).events = loads events ++ loads outcome.events :=
  loads_append events outcome.events

theorem loads_eq_nil (h : ∀ file, ¬ Begun events file) : loads events = [] := by
  refine List.filterMap_eq_nil_iff.2 fun event hevent => ?_
  cases event with
  | loaded file => exact absurd (.inl hevent) (h file)
  | resolved specifier importer => rfl
  | announced file => rfl

theorem loads_locate {imports : Table String String} {importer : Option String} {name : String}
    {result : Except (Fault ε) host.File}
    (h : locate host imports importer name = ⟨events, result⟩) : loads events = [] := by
  have hlocate := loads_eq_nil (not_begun_locate host imports importer name)
  rw [h] at hlocate
  exact hlocate

/-- A survey asks for no text. -/
theorem loads_survey {file : String} {source : Text}
    {result : Except (Fault ε) (Addition × List host.File)}
    (h : survey host index file source = ⟨events, result⟩) : loads events = [] := by
  have hneeds := loads_eq_nil (not_begun_locateEach host (CallSite.parseImports source) file
    (index.files.insert file) (needs index.registry (CallSite.extract source (some file))))
  obtain rfl : (survey host index file source).events = events := by rw [h]
  simp only [survey, Answer.andThen]
  rw [loads_append]
  split
  · exact hneeds
  · rw [loads_append, hneeds]
    split <;> rfl

theorem loads_loadAndSurvey {file : String}
    {result : Except (Fault ε) (Addition × List host.File)}
    (h : loadAndSurvey host index file = ⟨events, result⟩) : loads events = [file] := by
  cases hload : host.load file with
  | error failure =>
    rw [loadAndSurvey_of_load_eq_error index hload] at h
    cases h
    rfl
  | ok source =>
    rw [loadAndSurvey_of_load_eq_ok index hload] at h
    cases h
    exact congrArg (List.cons file) (loads_survey rfl)

/-- A turn asks for no text, or for that of a new file, which is then indexed unless the turn fails. -/
theorem loads_turn {result : Except (Fault ε) (Index × List (Job host))}
    (h : turn host index job = ⟨events, result⟩) :
    loads events = [] ∨ ∃ file ∈ host.ids, file ∉ index.files ∧ loads events = [file] ∧
      ∀ {later more}, result = .ok (later, more) → file ∈ later.files := by
  revert h
  fun_cases turn host index job with
  | case2 file source hfile _ fault hsurvey =>
    rintro ⟨⟩
    exact .inl (loads_survey hsurvey)
  | case3 file source hfile _ addition queue hsurvey =>
    rintro ⟨⟩
    exact .inl (loads_survey hsurvey)
  | case6 file stack hfile _ fault hsurvey =>
    rintro ⟨⟩
    refine .inr ⟨file, file.2, hfile, loads_loadAndSurvey hsurvey, ?_⟩
    rintro _ _ ⟨⟩
  | case7 file stack hfile _ addition queue hsurvey =>
    rintro ⟨⟩
    refine .inr ⟨file, file.2, hfile, loads_loadAndSurvey hsurvey, ?_⟩
    rintro _ _ ⟨⟩
    exact NameSet.mem_insert.2 (.inl (loadAndSurvey_file hsurvey).symm)
  | case15 importer name names hname _ fault hlocate =>
    rintro ⟨⟩
    exact .inl (loads_locate hlocate)
  | case16 importer name names hname _ file hlocate =>
    rintro ⟨⟩
    exact .inl (loads_locate hlocate)
  | _ =>
    rintro ⟨⟩
    exact .inl rfl

/-- The texts that jobs ask for are those of files of the host that are not indexed yet. -/
theorem Performs.loads_fresh (h : Performs host index jobs outcome) {file : String}
    (hfile : file ∈ loads outcome.events) : file ∈ host.ids ∧ file ∉ index.files := by
  have hturned : ∀ {index job events result}, turn host index job = ⟨events, result⟩ →
      file ∈ loads events → file ∈ host.ids ∧ file ∉ index.files := by
    intro index job events result hturn hfile
    rcases loads_turn hturn with hnone | ⟨own, hown, hnew, hone, -⟩
    · rw [hnone] at hfile
      exact absurd hfile List.not_mem_nil
    · rw [hone] at hfile
      obtain rfl := List.mem_singleton.1 hfile
      exact ⟨hown, hnew⟩
  induction h with
  | done => exact absurd hfile List.not_mem_nil
  | failed hturn => exact hturned hturn hfile
  | next hturn _ ih =>
    rw [loads_after, List.mem_append] at hfile
    rcases hfile with hfile | hfile
    · exact hturned hturn hfile
    · obtain ⟨hown, hnew⟩ := ih hfile
      obtain ⟨texts, hgrows⟩ := grows_turn hturn
      exact ⟨hown, fun hold => hnew (hgrows.files hold)⟩

/-- Jobs ask for no text twice. -/
theorem Performs.loads_nodup (h : Performs host index jobs outcome) :
    (loads outcome.events).Nodup := by
  induction h with
  | done => exact List.nodup_nil
  | failed hturn =>
    rcases loads_turn hturn with hnone | ⟨file, -, -, hone, -⟩
    · rw [hnone]
      exact List.nodup_nil
    · rw [hone]
      exact List.nodup_singleton file
  | next hturn hrest ih =>
    rw [loads_after]
    rcases loads_turn hturn with hnone | ⟨file, -, -, hone, hentered⟩
    · rw [hnone]
      exact ih
    · rw [hone]
      -- the file is indexed when the rest begins, and the rest asks for files that are not
      exact List.nodup_cons.2 ⟨fun hfile => (hrest.loads_fresh hfile).2 (hentered rfl), ih⟩

/-- Entering a file with a text asks for none, and the file is indexed then. -/
theorem loads_turn_enter {file : String} {source : Text}
    {result : Except (Fault ε) (Index × List (Job host))}
    (h : turn host index (.enter file source) = ⟨events, result⟩) :
    loads events = [] ∧ ∀ {later more}, result = .ok (later, more) → file ∈ later.files := by
  simp only [turn] at h
  split at h
  · next hfile =>
    cases h
    refine ⟨rfl, ?_⟩
    rintro _ _ ⟨⟩
    exact hfile
  · split at h
    · next hsurvey =>
      cases h
      refine ⟨loads_survey hsurvey, ?_⟩
      rintro _ _ ⟨⟩
    · next hsurvey =>
      cases h
      refine ⟨loads_survey hsurvey, ?_⟩
      rintro _ _ ⟨⟩
      exact NameSet.mem_insert.2 (.inl (survey_file hsurvey).symm)

/-- Jobs that begin by entering a file with a text do not ask for its text. -/
theorem Performs.not_mem_loads {file : String} {source : Text}
    (h : Performs host index (.enter file source :: jobs) outcome) : file ∉ loads outcome.events := by
  cases h with
  | failed hturn =>
    rw [(loads_turn_enter hturn).1]
    exact List.not_mem_nil
  | next hturn hrest =>
    obtain ⟨hnone, hentered⟩ := loads_turn_enter hturn
    rw [loads_after, hnone]
    exact fun hfile => (hrest.loads_fresh hfile).2 (hentered rfl)

/-! ## Faults -/

/-- The events of a call account for a fault: a name is unbound, a name has two definitions, or it is
the host's answer to a question that it was asked. A name that is not registered is none of these. -/
inductive Accounted (host : Host ε) (events : List Event) : Fault ε → Prop where
  | unbound (fault : Unbound) : Accounted host events (.unbound fault)
  | duplicate (name : String) (first second : Option String) :
      Accounted host events (.duplicate name first second)
  | resolve {specifier : String} {importer : Option String} {failure : ε}
      (asked : .resolved specifier importer ∈ events)
      (answer : host.resolve specifier importer = .error failure) :
      Accounted host events (.host failure)
  | load {file : String} {failure : ε} (asked : .loaded file ∈ events)
      (answer : host.load file = .error failure) : Accounted host events (.host failure)

/-- More events account for no less. -/
theorem Accounted.mono {more : List Event} {fault : Fault ε} (h : Accounted host events fault)
    (hmore : events ⊆ more) : Accounted host more fault := by
  cases h with
  | unbound fault => exact .unbound fault
  | duplicate name first second => exact .duplicate name first second
  | resolve asked answer => exact .resolve (hmore asked) answer
  | load asked answer => exact .load (hmore asked) answer

theorem accounted_of_locate {imports : Table String String} {importer : Option String}
    {name : String} {fault : Fault ε}
    (h : locate host imports importer name = ⟨events, .error fault⟩) :
    Accounted host events fault := by
  rcases locate_eq_error h with ⟨reason, rfl⟩ | ⟨specifier, failure, rfl, hasked, hresolve⟩
  · exact .unbound reason
  · exact .resolve hasked hresolve

theorem accounted_of_locateEach {imports : Table String String} {importer : String}
    {files : NameSet} {names : List String} {fault : Fault ε}
    (h : locateEach host imports importer files names = ⟨events, .error fault⟩) :
    Accounted host events fault := by
  induction names generalizing events with
  | nil => cases h
  | cons name names ih =>
    unfold locateEach Answer.andThen at h
    split at h
    · next hlocate =>
      cases h
      exact accounted_of_locate (congrArg (Answer.mk _) hlocate)
    · split at h
      · next hrest =>
        cases h
        exact (ih (congrArg (Answer.mk _) hrest)).mono (List.subset_append_right _ _)
      · cases h

theorem accounted_of_survey {file : String} {source : Text} {fault : Fault ε}
    (h : survey host index file source = ⟨events, .error fault⟩) : Accounted host events fault := by
  simp only [survey, Answer.andThen] at h
  split at h
  · next hneeds =>
    cases h
    exact (accounted_of_locateEach (congrArg (Answer.mk _) hneeds)).mono
      (List.subset_append_right _ _)
  · split at h
    · next hduplicate =>
      cases h
      obtain ⟨name, first, second, rfl⟩ := firstDuplicate_eq_some hduplicate
      exact .duplicate name first second
    · cases h

theorem accounted_of_loadAndSurvey {file : String} {fault : Fault ε}
    (h : loadAndSurvey host index file = ⟨events, .error fault⟩) : Accounted host events fault := by
  cases hload : host.load file with
  | error failure =>
    rw [loadAndSurvey_of_load_eq_error index hload] at h
    cases h
    exact .load (List.mem_singleton_self _) hload
  | ok source =>
    rw [loadAndSurvey_of_load_eq_ok index hload, Answer.mk.injEq] at h
    obtain ⟨rfl, hsurvey⟩ := h
    exact (accounted_of_survey (congrArg (Answer.mk _) hsurvey)).mono (List.subset_cons_self _ _)

/-! ## Names that a walk meets -/

/-- A name has a definition. -/
def Knows (index : Index) (name : String) : Prop := index.registry.contains name = true

/-- The names that a job meets on the stack of a walk. -/
def Job.walks : Job host → List String
  | .close _ stack => stack
  | _ => []

/-- The names that are registered when a job and those that it leads to are done. -/
def Job.binds : Job host → List String
  | .bind _ names => names
  | .check _ name _ => [name]
  | _ => []

/-- Each name on the stack of a walk is one of some known names, or a job before the walk binds it. -/
def Ready (known : String → Prop) : List (Job host) → Prop
  | [] => True
  | job :: jobs => (∀ name ∈ job.walks, known name) ∧
      Ready (fun name => known name ∨ name ∈ job.binds) jobs

namespace Ready

variable {known known' : String → Prop}

theorem mono (h : Ready known jobs) (hknown : ∀ name, known name → known' name) :
    Ready known' jobs := by
  induction jobs generalizing known known' with
  | nil => trivial
  | cons job jobs ih =>
    exact ⟨fun name hname => hknown name (h.1 name hname),
      ih h.2 fun name => Or.imp_left (hknown name)⟩

/-- Jobs are ready after others when they are with the names that these bind. -/
theorem append (h : Ready known more)
    (h' : Ready (fun name => known name ∨ ∃ job ∈ more, name ∈ job.binds) jobs) :
    Ready known (more ++ jobs) := by
  induction more generalizing known with
  | nil => exact h'.mono fun name hname => hname.resolve_right nofun
  | cons job more ih =>
    refine ⟨h.1, ih h.2 (h'.mono fun name hname => ?_)⟩
    simpa only [List.exists_mem_cons_iff, or_assoc] using hname

end Ready

/-- The jobs that a turn gives are ready, and what its job binds is registered or is bound by them. -/
theorem ready_of_turn {texts : String → Option Text} (hsound : Sound texts index)
    (hwalks : ∀ name ∈ job.walks, index.Knows name)
    (h : turn host index job = ⟨events, .ok (later, more)⟩) :
    Ready later.Knows more ∧ ∀ name ∈ job.binds, later.Knows name ∨ ∃ job ∈ more, name ∈ job.binds := by
  revert h
  fun_cases turn host index job with
  | case8 file =>
    rintro ⟨⟩
    -- the names that a file lists have definitions
    refine ⟨⟨fun name hname => ?_, trivial⟩, nofun⟩
    obtain ⟨site, hsite, -⟩ := hsound.listed.1 (List.mem_reverse.1 hname)
    exact Table.contains_iff.2 ⟨site, hsite⟩
  | case10 visited name stack hname =>
    rintro ⟨⟩
    exact ⟨⟨fun next hnext => hwalks next (List.mem_cons_of_mem _ hnext), trivial⟩, nofun⟩
  | case12 visited name stack hname site hsite =>
    rintro ⟨⟩
    -- what the definition depends on is bound before the walk goes on
    refine ⟨⟨nofun, fun next hnext => ?_, trivial⟩, nofun⟩
    rcases List.mem_append.1 hnext with hnext | hnext
    · exact .inr (List.mem_reverse.1 hnext)
    · exact .inl (hwalks next (List.mem_cons_of_mem _ hnext))
  | case14 importer name names hname =>
    rintro ⟨⟩
    refine ⟨⟨nofun, trivial⟩, fun next hnext => ?_⟩
    rcases List.mem_cons.1 hnext with rfl | hnext
    · exact .inl hname
    · exact .inr ⟨_, List.mem_singleton_self _, hnext⟩
  | case16 importer name names hname _ file hlocate =>
    rintro ⟨⟩
    refine ⟨⟨nofun, nofun, nofun, trivial⟩, fun next hnext => .inr ?_⟩
    simpa [Job.binds] using hnext
  | case17 importer name file hname =>
    rintro ⟨⟩
    refine ⟨trivial, fun next hnext => .inl ?_⟩
    rw [List.mem_singleton.1 hnext]
    exact hname
  | _ =>
    intro h
    cases h <;> exact ⟨by simp [Ready, Job.walks], nofun⟩

/-- What a turn gives is ready in the place of its job. -/
theorem Ready.turn {texts : String → Option Text} (h : Ready index.Knows (job :: jobs))
    (hsound : Sound texts index) (hturn : turn host index job = ⟨events, .ok (later, more)⟩) :
    Ready later.Knows (more ++ jobs) := by
  obtain ⟨hmore, hbinds⟩ := ready_of_turn hsound h.1 hturn
  obtain ⟨texts', hgrows⟩ := grows_turn hturn
  refine hmore.append (h.2.mono fun name hname => ?_)
  rcases hname with hknown | hbound
  · exact .inl (hgrows.contains_registry hknown)
  · exact hbinds name hbound

/-! ## The end of a call -/

/-- The events of a turn account for its fault, when its job meets registered names. -/
theorem accounted_of_turn {fault : Fault ε} (hwalks : ∀ name ∈ job.walks, index.Knows name)
    (h : turn host index job = ⟨events, .error fault⟩) : Accounted host events fault := by
  revert h
  fun_cases turn host index job with
  | case2 file source hfile _ _ hsurvey =>
    rintro ⟨⟩
    exact accounted_of_survey hsurvey
  | case6 file stack hfile _ _ hsurvey =>
    rintro ⟨⟩
    exact accounted_of_loadAndSurvey hsurvey
  | case11 visited name stack hname hsite =>
    -- the walk would have to meet a name without a definition
    obtain ⟨site, hknown⟩ := Table.contains_iff.1 (hwalks name List.mem_cons_self)
    cases hsite.symm.trans hknown
  | case15 importer name names hname _ _ hlocate =>
    rintro ⟨⟩
    exact accounted_of_locate hlocate
  | case18 importer name file hname =>
    rintro ⟨⟩
    exact .unbound _
  | _ => nofun

/-- The events of jobs account for their fault. -/
theorem Performs.accounted {texts : String → Option Text} {fault : Fault ε}
    (h : Performs host index jobs outcome) (hsound : Sound texts index)
    (hready : Ready index.Knows jobs) (hfault : outcome.result = .error fault) :
    Accounted host outcome.events fault := by
  induction h generalizing texts with
  | done => cases hfault
  | failed hturn =>
    cases hfault
    exact accounted_of_turn hready.1 hturn
  | next hturn _ ih =>
    obtain ⟨_, hgrows⟩ := grows_turn hturn
    have hrest := ih (hsound.grows hgrows) (hready.turn hsound hturn) hfault
    exact hrest.mono (List.subset_append_right _ _)

/-- A file that is indexed stays so when another file gets a new text. -/
theorem mem_files_refresh {file other : String} {source : Text} (h : other ∈ index.files)
    (hother : other ≠ file) : other ∈ (index.refresh file source).files := by
  unfold refresh
  split
  · exact mem_files_invalidate.2 ⟨h, hother⟩
  · exact h

/-- **How a call ends.** After any history, with any imports, the turns of a call come to an end, with
one outcome. The call asks once for each text that it asks for, and for none of a file that is indexed
or of its own. When it ends with a fault, a name is unbound or has two definitions, or the host has
failed at one of its questions; it is never that a look-up finds no definition of a name. -/
theorem indexFile_ends (steps : List (Step ε)) (host : Host ε) (file : String) (source : Text) :
    let index := (run steps).index
    let outcome := indexFile host index file source
    (∀ other, Performs host (index.refresh file source) (callJobs host file source) other ↔
      other = outcome) ∧
    (loads outcome.events).Nodup ∧
    (∀ id ∈ loads outcome.events, id ∈ host.ids ∧ id ∉ index.files ∧ id ≠ file) ∧
    ∀ fault, outcome.result = .error fault → Accounted host outcome.events fault := by
  intro index outcome
  have hperforms := indexFile_performs host index file source
  obtain ⟨texts, hsound, -⟩ :=
    refresh_preserves (fun file h => h.invalidate file) (run_sound steps) file source
  refine ⟨performs_iff host index file source, hperforms.loads_nodup, fun id hid => ?_,
    fun fault => hperforms.accounted hsound ⟨nofun, nofun, trivial⟩⟩
  obtain ⟨hknown, hnew⟩ := hperforms.loads_fresh hid
  have hother : id ≠ file := by
    rintro rfl
    exact hperforms.not_mem_loads hid
  exact ⟨hknown, fun hindexed => hnew (mem_files_refresh hindexed hother), hother⟩

end PersistedQueries.Index
