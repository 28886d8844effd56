import PersistedQueries.Index.Indexing

/-!
# What the operations of an index do

Each operation of an index by what a look-up finds after it. Nothing below needs the operations
themselves again.

- `get?_enter`, `mem_definedIn_enter`: after one definition is entered.
- `get?_add_of_mem`, `get?_add_of_not_mem`, `mem_definedIn_add`: after a file is entered. What a
  file with a text brings is `additionOf`.
- `get?_invalidate`, `mem_definedIn_invalidate`: after a file is forgotten.
- `firstDuplicate_eq_none_iff`: the names of a file are free when none of them is taken, by the
  registry or twice by the file.
- `firstDuplicate_eq_some`, `locate_eq_error`: the faults that a survey finds.
- `survey_eq_ok`: a survey that succeeds brings `additionOf`, finds the names free, and follows
  each name that is needed from elsewhere.
-/

namespace PersistedQueries

/-- A call site knows the file that it was read from. -/
theorem CallSite.file_of_mem_extract {code : Text} {file : Option String} {site : CallSite}
    (h : site ∈ extract code file) : site.file = file := by
  unfold extract at h
  split at h
  · obtain ⟨⟨span, shape⟩, -, rfl⟩ := List.mem_map.1 h
    rfl
  · exact absurd h List.not_mem_nil

namespace Index

variable {ε : Type}

/-! ## One definition -/

theorem get?_enter (index : Index) (site : CallSite) (name : String) :
    (index.enter site).registry.get? name =
      if site.name = name then some site else index.registry.get? name :=
  Table.get?_insert index.registry site.name name site

theorem mem_definedIn_enter {index : Index} {site : CallSite} {file name : String} :
    name ∈ (index.enter site).definedIn file ↔
      site.file = some file ∧ site.name = name ∨ name ∈ index.definedIn file := by
  unfold definedIn enter
  cases hfile : site.file with
  | none => simp
  | some own =>
    simp only [Table.get?_insert, Option.some.injEq]
    by_cases h : own = file
    · subst h
      simp [definedIn, eq_comm]
    · simp [h]

/-! ## Several definitions -/

theorem get?_foldl_enter_of_not_mem {sites : List CallSite} {index : Index} {name : String}
    (h : name ∉ sites.map CallSite.name) :
    (sites.foldl enter index).registry.get? name = index.registry.get? name := by
  induction sites generalizing index with
  | nil => rfl
  | cons site sites ih =>
    rw [List.map_cons, List.mem_cons, not_or] at h
    rw [List.foldl_cons, ih h.2, get?_enter, if_neg (Ne.symm h.1)]

theorem get?_foldl_enter_of_mem {sites : List CallSite} {index : Index} {site : CallSite}
    (hdistinct : (sites.map CallSite.name).Nodup) (h : site ∈ sites) :
    (sites.foldl enter index).registry.get? site.name = some site := by
  induction sites generalizing index with
  | nil => exact absurd h List.not_mem_nil
  | cons first sites ih =>
    obtain ⟨hfirst, hrest⟩ := List.nodup_cons.1 hdistinct
    rw [List.foldl_cons]
    rcases List.mem_cons.1 h with rfl | h
    · rw [get?_foldl_enter_of_not_mem hfirst, get?_enter, if_pos rfl]
    · exact ih hrest h

theorem mem_definedIn_foldl_enter {sites : List CallSite} {index : Index} {file name : String} :
    name ∈ (sites.foldl enter index).definedIn file ↔
      (∃ site ∈ sites, site.file = some file ∧ site.name = name) ∨ name ∈ index.definedIn file := by
  induction sites generalizing index with
  | nil => simp
  | cons site sites ih =>
    rw [List.foldl_cons, ih, mem_definedIn_enter]
    simp only [List.mem_cons, exists_eq_or_imp]
    exact or_left_comm.trans or_assoc.symm

/-! ## A file -/

/-- What a file with a text brings to an index. -/
def additionOf (file : String) (source : Text) : Addition :=
  ⟨file, CallSite.extract source (some file), CallSite.parseImports source, digest source⟩

theorem get?_add_of_mem {index : Index} {file : String} {source : Text} {site : CallSite}
    (hdistinct : ((CallSite.extract source (some file)).map CallSite.name).Nodup)
    (h : site ∈ CallSite.extract source (some file)) :
    (index.add (additionOf file source)).registry.get? site.name = some site :=
  get?_foldl_enter_of_mem hdistinct h

theorem get?_add_of_not_mem {index : Index} {file : String} {source : Text} {name : String}
    (h : name ∉ (CallSite.extract source (some file)).map CallSite.name) :
    (index.add (additionOf file source)).registry.get? name = index.registry.get? name :=
  get?_foldl_enter_of_not_mem h

theorem mem_definedIn_add {index : Index} {file other name : String} {source : Text} :
    name ∈ (index.add (additionOf file source)).definedIn other ↔
      other = file ∧ name ∈ (CallSite.extract source (some file)).map CallSite.name ∨
        name ∈ index.definedIn other := by
  show name ∈ ((additionOf file source).sites.foldl enter index).definedIn other ↔ _
  rw [mem_definedIn_foldl_enter, List.mem_map]
  refine or_congr_left ⟨?_, ?_⟩
  · rintro ⟨site, hsite, hfile, rfl⟩
    have hown := CallSite.file_of_mem_extract hsite
    exact ⟨Option.some.inj (hfile.symm.trans hown), site, hsite, rfl⟩
  · rintro ⟨rfl, site, hsite, rfl⟩
    exact ⟨site, hsite, CallSite.file_of_mem_extract hsite, rfl⟩

@[simp] theorem mem_files_add {index : Index} {file other : String} {source : Text} :
    other ∈ (index.add (additionOf file source)).files ↔ other = file ∨ other ∈ index.files :=
  NameSet.mem_insert

theorem get?_imports_add (index : Index) (file other : String) (source : Text) :
    (index.add (additionOf file source)).imports.get? other =
      if file = other then some (CallSite.parseImports source) else index.imports.get? other :=
  Table.get?_insert index.imports file other _

theorem get?_digests_add (index : Index) (file other : String) (source : Text) :
    (index.add (additionOf file source)).digests.get? other =
      if file = other then some (digest source) else index.digests.get? other :=
  Table.get?_insert index.digests file other _

/-! ## A file that is forgotten -/

theorem get?_invalidate (index : Index) (file name : String) :
    (index.invalidate file).registry.get? name =
      if name ∈ index.definedIn file then none else index.registry.get? name :=
  Table.get?_foldl_erase (index.definedIn file).names index.registry name

theorem mem_definedIn_invalidate {index : Index} {file other name : String} :
    name ∈ (index.invalidate file).definedIn other ↔
      other ≠ file ∧ name ∈ index.definedIn other := by
  unfold definedIn invalidate
  rw [Table.get?_erase]
  by_cases h : file = other
  · simp [h]
  · simp [h, Ne.symm h]

@[simp] theorem mem_files_invalidate {index : Index} {file other : String} :
    other ∈ (index.invalidate file).files ↔ other ∈ index.files ∧ other ≠ file :=
  NameSet.mem_erase

theorem get?_imports_invalidate (index : Index) (file other : String) :
    (index.invalidate file).imports.get? other =
      if file = other then none else index.imports.get? other :=
  Table.get?_erase index.imports file other

theorem get?_digests_invalidate (index : Index) (file other : String) :
    (index.invalidate file).digests.get? other =
      if file = other then none else index.digests.get? other :=
  Table.get?_erase index.digests file other

/-! ## Surveys -/

/-- The names of some definitions are free: none is taken by the registry, and none comes twice. -/
structure Free (index : Index) (sites : List CallSite) : Prop where
  distinct : (sites.map CallSite.name).Nodup
  untaken : ∀ site ∈ sites, index.registry.get? site.name = none

theorem firstDuplicate_eq_none_iff {registry : Registry} {file : String} {seen : NameSet}
    {sites : List CallSite} : firstDuplicate (ε := ε) registry file seen sites = none ↔
      (sites.map CallSite.name).Nodup ∧
        ∀ site ∈ sites, site.name ∉ seen ∧ registry.get? site.name = none := by
  induction sites generalizing seen with
  | nil => simp [firstDuplicate]
  | cons site sites ih =>
    unfold firstDuplicate
    cases hsite : registry.get? site.name with
    | some known => simp [hsite]
    | none =>
      by_cases hseen : site.name ∈ seen
      · simp [hseen]
      · simp only [hseen, if_false, ih, NameSet.mem_insert, not_or, List.map_cons,
          List.nodup_cons, List.mem_cons, List.mem_map, forall_eq_or_imp, hsite]
        constructor
        · rintro ⟨hdistinct, hrest⟩
          refine ⟨⟨?_, hdistinct⟩, ⟨not_false, trivial⟩, fun other hother => ?_⟩
          · rintro ⟨other, hother, heq⟩
            exact (hrest other hother).1.1 heq
          · exact ⟨(hrest other hother).1.2, (hrest other hother).2⟩
        · rintro ⟨⟨hnew, hdistinct⟩, -, hrest⟩
          refine ⟨hdistinct, fun other hother => ?_⟩
          obtain ⟨hunseen, huntaken⟩ := hrest other hother
          exact ⟨⟨fun heq => hnew ⟨other, hother, heq⟩, hunseen⟩, huntaken⟩

/-- No name is found taken when the names are free. -/
theorem firstDuplicate_eq_none_of_free {index : Index} {file : String} {sites : List CallSite}
    (h : index.Free sites) : firstDuplicate (ε := ε) index.registry file .empty sites = none :=
  firstDuplicate_eq_none_iff.2
    ⟨h.distinct, fun site hsite => ⟨NameSet.not_mem_empty _, h.untaken site hsite⟩⟩

/-- The fault of a name that is taken is that it has two definitions. -/
theorem firstDuplicate_eq_some {registry : Registry} {file : String} {seen : NameSet}
    {sites : List CallSite} {fault : Fault ε}
    (h : firstDuplicate registry file seen sites = some fault) :
    ∃ name first second, fault = .duplicate name first second := by
  induction sites generalizing seen with
  | nil => cases h
  | cons site sites ih =>
    unfold firstDuplicate at h
    split at h
    · cases h
      exact ⟨_, _, _, rfl⟩
    · split at h
      · cases h
        exact ⟨_, _, _, rfl⟩
      · exact ih h

/-- No file is located for a name that is unbound, or where the host fails at the question. -/
theorem locate_eq_error {host : Host ε} {imports : Table String String} {importer : Option String}
    {name : String} {events : List Event} {fault : Fault ε}
    (h : locate host imports importer name = ⟨events, .error fault⟩) :
    (∃ reason, fault = .unbound reason) ∨
      ∃ specifier failure, fault = .host failure ∧ .resolved specifier importer ∈ events ∧
        host.resolve specifier importer = .error failure := by
  unfold locate at h
  split at h
  · cases h
    exact .inl ⟨_, rfl⟩
  · dsimp only at h
    split at h
    · next hresolve =>
      cases h
      exact .inr ⟨_, _, rfl, List.mem_singleton_self _, hresolve⟩
    · cases h
      exact .inl ⟨_, rfl⟩
    · cases h

/-- A survey that succeeds brings what the text holds, and finds its names free. -/
theorem survey_eq_ok {host : Host ε} {index : Index} {file : String} {source : Text}
    {events : List Event} {addition : Addition} {queue : List host.File}
    (h : survey host index file source = ⟨events, .ok (addition, queue)⟩) :
    addition = additionOf file source ∧ index.Free (CallSite.extract source (some file)) := by
  simp only [survey, Answer.andThen] at h
  split at h
  · simp at h
  · split at h
    · simp at h
    · next hnone =>
      have hfree := firstDuplicate_eq_none_iff.1 hnone
      simp only [Answer.mk.injEq, Except.ok.injEq, Prod.mk.injEq] at h
      exact ⟨h.2.1.symm, hfree.1, fun site hsite => (hfree.2 site hsite).2⟩

theorem loadAndSurvey_of_load_eq_ok {host : Host ε} (index : Index) {file : String} {source : Text}
    (hload : host.load file = .ok source) :
    loadAndSurvey host index file =
      ⟨.loaded file :: (survey host index file source).events,
        (survey host index file source).result⟩ := by
  unfold loadAndSurvey
  rw [hload]
  rfl

theorem loadAndSurvey_of_load_eq_error {host : Host ε} (index : Index) {file : String} {failure : ε}
    (hload : host.load file = .error failure) :
    loadAndSurvey host index file = ⟨[.loaded file], .error (.host failure)⟩ := by
  unfold loadAndSurvey
  rw [hload]
  rfl

/-- A survey of a text that the host was asked for is the survey of that text. -/
theorem loadAndSurvey_eq_ok {host : Host ε} {index : Index} {file : String}
    {events : List Event} {addition : Addition} {queue : List host.File}
    (h : loadAndSurvey host index file = ⟨events, .ok (addition, queue)⟩) :
    ∃ source later, host.load file = .ok source ∧
      survey host index file source = ⟨later, .ok (addition, queue)⟩ := by
  cases hload : host.load file with
  | error failure =>
    rw [loadAndSurvey_of_load_eq_error index hload] at h
    cases h
  | ok source =>
    rw [loadAndSurvey_of_load_eq_ok index hload, Answer.mk.injEq] at h
    exact ⟨source, (survey host index file source).events, rfl, congrArg (Answer.mk _) h.2⟩

end Index

end PersistedQueries
