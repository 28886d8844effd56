import Mathlib.Logic.Relation
import PersistedQueries.Proofs.Index.Laws

/-!
# Indexing enters whole files

Whatever a call of `indexFile` does, and however it ends, the index it leaves comes from the one
it refreshed by entering files one after the other, each as a whole (`Enters`). What one such step
keeps, the call keeps.

- `Enters`, `Grows`: one file is entered; any number of them are.
- `drain_grows`, `close_grows`, `indexFile_grows`: every call grows the index.
- `mem_files_drain`, `mem_files_indexFile`: what succeeds has entered the files it was given.
-/

namespace PersistedQueries.Index

variable {ε : Type}

/-! ## Outcomes -/

namespace Outcome

@[simp] theorem index_after (events : List Event) (outcome : Outcome ε) :
    (outcome.after events).index = outcome.index := rfl

theorem andThen_of_error {outcome : Outcome ε} {next : Index → Outcome ε} {fault : Fault ε}
    (h : outcome.result = .error fault) : outcome.andThen next = outcome := by
  unfold andThen
  rw [h]

theorem andThen_of_ok {outcome : Outcome ε} {next : Index → Outcome ε}
    (h : outcome.result = .ok ()) :
    outcome.andThen next = (next outcome.index).after outcome.events := by
  unfold andThen
  rw [h]

/-- Two steps succeed when each of them does. -/
theorem andThen_eq_ok {outcome : Outcome ε} {next : Index → Outcome ε}
    (h : (outcome.andThen next).result = .ok ()) :
    outcome.result = .ok () ∧ (next outcome.index).result = .ok () := by
  cases hresult : outcome.result with
  | error fault =>
    rw [andThen_of_error hresult, hresult] at h
    cases h
  | ok =>
    rw [andThen_of_ok hresult] at h
    exact ⟨rfl, h⟩

end Outcome

/-! ## Growth -/

/-- The texts that a host has. -/
def hostTexts (host : Host ε) (id : String) : Option Text := (host.load id).toOption

theorem hostTexts_eq_some {host : Host ε} {id : String} {text : Text} :
    hostTexts host id = some text ↔ host.load id = .ok text := by
  unfold hostTexts
  cases host.load id <;> simp [Except.toOption]

/-- Files held in memory have the texts of the table. -/
theorem hostTexts_ofTable (files : Table String Text) (redirections : Table String (Option String))
    (missing : String → ε) : hostTexts (Host.ofTable files redirections missing) = files.get? := by
  funext id
  unfold hostTexts Host.ofTable
  cases hget : files.get? id <;> simp [hget, Except.toOption]

/-- The text with which a call for a file enters files: the file has the text that the call was
given, the others have the host's. -/
def callTexts (host : Host ε) (file : String) (source : Text) (id : String) : Option Text :=
  if id = file then some source else hostTexts host id

theorem callTexts_self (host : Host ε) (file : String) (source : Text) :
    callTexts host file source file = some source := if_pos rfl

theorem callTexts_of_ne (host : Host ε) {file id : String} (source : Text) (h : id ≠ file) :
    callTexts host file source id = hostTexts host id := if_neg h

/-- A new file is entered with its text, as a whole. -/
inductive Enters (texts : String → Option Text) (index : Index) : Index → Prop where
  | intro {file : String} {source : Text} (text : texts file = some source)
      (new : file ∉ index.files) (free : index.Free (CallSite.extract source (some file))) :
      Enters texts index (index.add (additionOf file source))

/-- Files are entered one after the other. -/
def Grows (texts : String → Option Text) : Index → Index → Prop :=
  Relation.ReflTransGen (Enters texts)

namespace Grows

variable {texts : String → Option Text} {index later last : Index}

theorem refl : Grows texts index index := Relation.ReflTransGen.refl

theorem trans (h : Grows texts index later) (h' : Grows texts later last) :
    Grows texts index last := Relation.ReflTransGen.trans h h'

theorem files (h : Grows texts index later) {id : String} (hid : id ∈ index.files) :
    id ∈ later.files := by
  induction h with
  | refl => exact hid
  | tail _ hstep ih =>
    cases hstep
    exact mem_files_add.2 (.inr ih)

/-- A registered name keeps its definition. -/
theorem get?_registry (h : Grows texts index later) {name : String} {site : CallSite}
    (hsite : index.registry.get? name = some site) : later.registry.get? name = some site := by
  induction h with
  | refl => exact hsite
  | tail _ hstep ih =>
    obtain ⟨-, -, free⟩ := hstep
    -- a name that the file brings was free, and this one is not
    rw [get?_add_of_not_mem, ih]
    rintro hname
    obtain ⟨own, hown, rfl⟩ := List.mem_map.1 hname
    cases (free.untaken own hown).symm.trans ih

theorem contains_registry (h : Grows texts index later) {name : String}
    (hname : index.registry.contains name = true) : later.registry.contains name = true := by
  obtain ⟨site, hsite⟩ := Table.contains_iff.1 hname
  exact Table.contains_iff.2 ⟨site, h.get?_registry hsite⟩

/-- Only the texts of new files matter. -/
theorem congr {texts' : String → Option Text} (h : Grows texts index later)
    (htexts : ∀ id, id ∉ index.files → texts id = texts' id) : Grows texts' index later := by
  induction h with
  | refl => exact refl
  | tail hgrows hstep ih =>
    obtain ⟨text, new, free⟩ := hstep
    refine Relation.ReflTransGen.tail ih (.intro ?_ new free)
    rw [← htexts _ fun hid => new (Grows.files hgrows hid)]
    exact text

end Grows

/-! ## Every call grows the index -/

theorem drain_grows (host : Host ε) (index : Index) (stack : List host.File) :
    Grows (hostTexts host) index (drain host index stack).index := by
  fun_induction drain host index stack with
  | case1 => exact .refl
  | case2 index file stack hfile ih => exact ih
  | case3 => exact .refl
  | case4 index file stack hfile events addition queue hsurvey ih =>
    -- the survey names what is entered: the whole text, with names that are free
    obtain ⟨source, later, hload, hok⟩ := loadAndSurvey_eq_ok hsurvey
    obtain ⟨rfl, hfree⟩ := survey_eq_ok hok
    exact Relation.ReflTransGen.head (.intro (hostTexts_eq_some.2 hload) hfile hfree) ih

theorem bindName_grows (host : Host ε) (index : Index) (importer : Option String) (name : String) :
    Grows (hostTexts host) index (bindName host index importer name).index := by
  unfold bindName
  split
  · exact .refl
  · next events file _ =>
    rw [Outcome.index_after]
    have hdrain := drain_grows host index [file]
    unfold Outcome.andThen
    split
    · exact hdrain
    · rw [Outcome.index_after]
      dsimp only
      split <;> exact hdrain

theorem bindEach_grows (host : Host ε) (index : Index) (importer : Option String)
    (names : List String) :
    Grows (hostTexts host) index (bindEach host index importer names).index := by
  induction names generalizing index with
  | nil =>
    unfold bindEach
    exact .refl
  | cons name names ih =>
    unfold bindEach
    split
    · exact ih index
    · have hname := bindName_grows host index importer name
      unfold Outcome.andThen
      split
      · exact hname
      · exact hname.trans (ih _)

theorem close_grows (host : Host ε) (index : Index) (visited : NameSet) (stack : List String) :
    Grows (hostTexts host) index (close host index visited stack).index := by
  fun_induction close host index visited stack with
  | case1 => exact .refl
  | case2 index visited name stack hname ih => exact ih
  | case3 => exact .refl
  | case4 index visited name stack hname site hsite bound events fault hbound =>
    have := bindEach_grows host index site.file site.dependsOn.names
    rwa [hbound] at this
  | case5 index visited name stack hname site hsite bound events _ hbound ih =>
    have := bindEach_grows host index site.file site.dependsOn.names
    rw [hbound] at this
    exact this.trans ih

/-! ## What a call has entered -/

/-- Draining that succeeds has entered every file of the stack. -/
theorem mem_files_drain {host : Host ε} {index : Index} {stack : List host.File}
    (hok : (drain host index stack).result = .ok ()) {file : host.File} (hfile : file ∈ stack) :
    file.1 ∈ (drain host index stack).index.files := by
  fun_induction drain host index stack with
  | case1 => exact absurd hfile List.not_mem_nil
  | case2 index first stack hfirst ih =>
    rcases List.mem_cons.1 hfile with rfl | hfile
    · exact (drain_grows host index stack).files hfirst
    · exact ih hok hfile
  | case3 => cases hok
  | case4 index first stack hfirst events addition queue hsurvey ih =>
    rcases List.mem_cons.1 hfile with rfl | hfile
    · refine (drain_grows host (index.add addition) (queue.reverse ++ stack)).files ?_
      exact NameSet.mem_insert.2 (.inl (loadAndSurvey_file hsurvey).symm)
    · exact ih hok (List.mem_append_right _ hfile)

/-- Entering a file that succeeds has entered it. -/
theorem mem_files_indexNew {host : Host ε} {index : Index} {file : String} {source : Text}
    (hok : (indexNew host index file source).result = .ok ()) :
    file ∈ (indexNew host index file source).index.files := by
  unfold indexNew at hok ⊢
  split
  · assumption
  · next hfile =>
    rw [if_neg hfile] at hok
    split at hok
    · cases hok
    · next events addition queue hsurvey =>
      refine (drain_grows host (index.add addition) queue.reverse).files ?_
      exact NameSet.mem_insert.2 (.inl (survey_file hsurvey).symm)

theorem indexNew_grows (host : Host ε) (index : Index) (file : String) (source : Text) :
    Grows (callTexts host file source) index (indexNew host index file source).index := by
  unfold indexNew
  split
  · exact .refl
  · next hfile =>
    split
    · exact .refl
    · next events addition queue hsurvey =>
      obtain ⟨rfl, hfree⟩ := survey_eq_ok hsurvey
      refine Relation.ReflTransGen.head (.intro (callTexts_self host file source) hfile hfree) ?_
      refine (drain_grows host _ queue.reverse).congr fun id hid => ?_
      exact (callTexts_of_ne host source fun h => hid (mem_files_add.2 (.inl h))).symm

/-- However a call ends, it grows the index that it refreshed. -/
theorem indexFile_grows (host : Host ε) (index : Index) (file : String) (source : Text) :
    Grows (callTexts host file source) (index.refresh file source)
      (indexFile host index file source).index := by
  have hnew := indexNew_grows host (index.refresh file source) file source
  unfold indexFile
  cases hresult : (indexNew host (index.refresh file source) file source).result with
  | error fault =>
    rw [Outcome.andThen_of_error hresult]
    exact hnew
  | ok =>
    rw [Outcome.andThen_of_ok hresult]
    refine hnew.trans ((close_grows host _ _ _).congr fun id hid => ?_)
    -- the file is entered by now, so what is left to enter are other files
    refine (callTexts_of_ne host source fun h => hid ?_).symm
    rw [h]
    exact mem_files_indexNew hresult

/-- A call that succeeds has entered its file. -/
theorem mem_files_indexFile {host : Host ε} {index : Index} {file : String} {source : Text}
    (hok : (indexFile host index file source).result = .ok ()) :
    file ∈ (indexFile host index file source).index.files := by
  obtain ⟨hnew, -⟩ := Outcome.andThen_eq_ok hok
  unfold indexFile
  rw [Outcome.andThen_of_ok hnew, Outcome.index_after]
  exact (close_grows host _ _ _).files (mem_files_indexNew hnew)

end PersistedQueries.Index
