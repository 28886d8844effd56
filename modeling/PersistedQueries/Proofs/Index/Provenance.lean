import PersistedQueries.Proofs.Index.Confinement
import PersistedQueries.Proofs.Index.History
import PersistedQueries.Proofs.Index.Jobs

/-!
# Where indexed files come from

A file is indexed because a call is about it, or because the host gave it for the specifier of an
import. So a property that all of these files have is one of every indexed file, whatever the texts
are, and however the calls end. Each turn keeps it, for the indexed files and for those that wait.

- `Gives`: whatever file a host gives for a specifier has a property.
- `Job.Within`: the files that wait in a job have it.
- `turn_within`: a turn keeps the property.
- `indexFile_within`, `run_within`: so do whole calls and whole histories.
-/

namespace PersistedQueries.Index

variable {ε : Type} {host : Host ε} {P : String → Prop} {index later : Index} {file : String}
  {source : Text} {events : List Event}

/-- Whatever file a host gives for a specifier has a property. -/
def Gives (host : Host ε) (P : String → Prop) : Prop :=
  ∀ {specifier importer target}, host.resolve specifier importer = .ok (some target) → P target.1

/-- The files that wait in a job have a property. -/
def Job.Within (P : String → Prop) : Job host → Prop
  | .enter file _ => P file
  | .drain stack => ∀ file ∈ stack, P file.1
  | .reach _ | .close _ _ | .bind _ _ | .check _ _ _ => True

/-! ## One turn -/

theorem Gives.locate (h : Gives host P) {imports : Table String String} {importer : Option String}
    {name : String} {target : host.File}
    (hlocate : (locate host imports importer name).result = .ok target) : P target.1 := by
  obtain ⟨specifier, -, hresolve⟩ := locate_eq_ok hlocate
  exact h hresolve

/-- The files that a surveyed file needs are given for specifiers. -/
theorem Gives.survey (h : Gives host P) {addition : Addition} {queue : List host.File}
    (hsurvey : survey host index file source = ⟨events, .ok (addition, queue)⟩) :
    addition.file = file ∧ ∀ target ∈ queue, P target.1 := by
  refine ⟨survey_file hsurvey, ?_⟩
  have hlocates : ∀ name ∈ needs index.registry (CallSite.extract source (some file)), ∀ target,
      (Index.locate host (CallSite.parseImports source) (some file) name).result = .ok target →
        P target.1 := fun _ _ _ hlocate => h.locate hlocate
  have hlocated := (locateEach_confined (index.files.insert file) hlocates).2
  simp only [Index.survey, Answer.andThen] at hsurvey
  split at hsurvey
  · cases hsurvey
  next queue' hqueue =>
  split at hsurvey
  · cases hsurvey
  · cases hsurvey
    exact hlocated queue hqueue

/-- What a turn enters, and what waits after it, has the property. -/
theorem turn_within (h : Gives host P) (hindex : ∀ id ∈ index.files, P id) {job : Job host}
    (hjob : job.Within P) {more : List (Job host)}
    (hturn : turn host index job = ⟨events, .ok (later, more)⟩) :
    (∀ id ∈ later.files, P id) ∧ ∀ job ∈ more, job.Within P := by
  have hadd : ∀ {file source}, P file → ∀ id ∈ (index.add (additionOf file source)).files, P id := by
    intro file source hfile id hid
    rcases mem_files_add.1 hid with rfl | hid
    · exact hfile
    · exact hindex id hid
  revert hturn
  fun_cases turn host index job with
  | case3 file source _ _ addition queue hsurvey =>
    rintro ⟨⟩
    obtain ⟨rfl, -⟩ := survey_eq_ok hsurvey
    refine ⟨hadd hjob, List.forall_mem_singleton.2 fun target htarget => ?_⟩
    exact (h.survey hsurvey).2 target (List.mem_reverse.1 htarget)
  | case5 file stack _ =>
    rintro ⟨⟩
    exact ⟨hindex, List.forall_mem_singleton.2 (List.forall_mem_cons.1 hjob).2⟩
  | case7 file stack _ _ addition queue hload =>
    rintro ⟨⟩
    obtain ⟨hfile, hstack⟩ := List.forall_mem_cons.1 hjob
    obtain ⟨source, events, -, hsurvey⟩ := loadAndSurvey_eq_ok hload
    obtain ⟨rfl, -⟩ := survey_eq_ok hsurvey
    refine ⟨hadd hfile, List.forall_mem_singleton.2 fun target htarget => ?_⟩
    rcases List.mem_append.1 htarget with htarget | htarget
    · exact (h.survey hsurvey).2 target (List.mem_reverse.1 htarget)
    · exact hstack target htarget
  | case16 importer name names _ _ target hlocate =>
    rintro ⟨⟩
    have htarget := h.locate (congrArg Answer.result hlocate)
    exact ⟨hindex, List.forall_mem_cons.2 ⟨List.forall_mem_singleton.2 htarget,
      List.forall_mem_cons.2 ⟨trivial, List.forall_mem_singleton.2 trivial⟩⟩⟩
  | _ =>
    -- the other turns enter nothing, and no file waits in what comes after them
    rintro ⟨⟩
    all_goals exact ⟨hindex, by simp [Job.Within]⟩

/-! ## Calls and histories -/

/-- Jobs with such files enter only such files, also when one of them fails. -/
theorem Performs.within (h : Gives host P) {jobs : List (Job host)} {outcome : Outcome ε}
    (hperforms : Performs host index jobs outcome) (hindex : ∀ id ∈ index.files, P id)
    (hjobs : ∀ job ∈ jobs, job.Within P) : ∀ id ∈ outcome.index.files, P id := by
  induction hperforms with
  | done => exact hindex
  | failed => exact hindex
  | next hturn _ ih =>
    obtain ⟨hjob, hjobs⟩ := List.forall_mem_cons.1 hjobs
    obtain ⟨hlater, hmore⟩ := turn_within h hindex hjob hturn
    refine ih hlater fun job hmem => ?_
    rcases List.mem_append.1 hmem with hmem | hmem
    · exact hmore job hmem
    · exact hjobs job hmem

/-- A call about such a file leaves only such files in the index. -/
theorem indexFile_within (h : Gives host P) (hindex : ∀ id ∈ index.files, P id) (hfile : P file) :
    ∀ id ∈ (indexFile host index file source).index.files, P id := by
  have hrefresh : ∀ id ∈ (index.refresh file source).files, P id := by
    unfold refresh
    split
    · exact fun id hid => hindex id (mem_files_invalidate.1 hid).1
    · exact hindex
  refine (indexFile_performs host index file source).within h hrefresh ?_
  exact List.forall_mem_cons.2 ⟨hfile, List.forall_mem_singleton.2 trivial⟩

/-- A history of calls about such files, with hosts that give such files, indexes no others. -/
theorem run_within {steps : List (Step ε)}
    (h : ∀ {host file source}, Step.index host file source ∈ steps → Gives host P ∧ P file) :
    ∀ id ∈ (run steps).index.files, P id := by
  induction steps using List.reverseRecOn with
  | nil => exact fun id hid => absurd hid (NameSet.not_mem_empty id)
  | append_singleton steps step ih =>
    have hbefore := ih fun hstep => h (List.mem_append_left _ hstep)
    rw [run_append]
    show ∀ id ∈ (step.apply (run steps)).index.files, P id
    cases step with
    | register site =>
      cases hname : (run steps).index.registry.get? site.name with
      | some known =>
        rw [Step.apply_register_of_some hname]
        exact hbefore
      | none =>
        rw [Step.apply_register_of_none hname]
        exact hbefore
    | index host file source =>
      obtain ⟨hgives, hfile⟩ := h (List.mem_append_right _ List.mem_cons_self)
      exact indexFile_within hgives hbefore hfile
    | invalidate file => exact fun id hid => hbefore id (mem_files_invalidate.1 hid).1
    | reset => exact fun id hid => absurd hid (NameSet.not_mem_empty id)

end PersistedQueries.Index
