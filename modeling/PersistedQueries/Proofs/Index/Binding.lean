import PersistedQueries.Proofs.Index.Closure

/-!
# What a dependency is bound to

A name has one definition in an index, whichever file asks for it. A file follows its imports only
for the names that are not registered when it is surveyed; a name that is registered by then is
taken as it is.

- `located_of_survey`: a file that is surveyed with success imports every name that it needs, from a
  file of the host.
- `Grows.entered`: a definition that growth has registered stands in a file that growth has entered.
- `indexFile_binds`: what a call that succeeds has bound the dependencies of its file to.
- `indexFile_of_registered`: a file whose dependencies are registered is accepted, whatever it
  imports.
- `not_bound_to_import`: so a dependency need not be bound to a file that it is imported from.
-/

namespace PersistedQueries.Index

variable {ε : Type} {host : Host ε} {index later : Index} {file name : String} {source : Text}

/-! ## Files that a survey finds -/

/-- A name is located in the file that the specifier of its import denotes. -/
theorem locate_eq_ok {imports : Table String String} {importer : Option String}
    {target : host.File} (h : (locate host imports importer name).result = .ok target) :
    ∃ specifier, imports.get? name = some specifier ∧
      host.resolve specifier importer = .ok (some target) := by
  unfold locate at h
  split at h
  · cases h
  · next specifier hspecifier =>
    refine ⟨specifier, hspecifier, ?_⟩
    dsimp only at h
    split at h
    · cases h
    · cases h
    · next found hfound =>
      cases h
      exact hfound

/-- When some names are located, each of them is located in a file that is known or waits. -/
theorem located_of_locateEach {imports : Table String String} {importer : String} {files : NameSet}
    {names : List String} {queue : List host.File}
    (h : (locateEach host imports importer files names).result = .ok queue) (hname : name ∈ names) :
    ∃ specifier target, imports.get? name = some specifier ∧
      host.resolve specifier (some importer) = .ok (some target) ∧
      (target.1 ∈ files ∨ target ∈ queue) := by
  induction names generalizing queue with
  | nil => exact absurd hname List.not_mem_nil
  | cons first names ih =>
    unfold locateEach Answer.andThen at h
    split at h
    · cases h
    next target hfirst =>
    split at h
    · cases h
    next located hrest =>
    cases h
    rcases List.mem_cons.1 hname with rfl | hname
    · obtain ⟨specifier, himport, hresolve⟩ := locate_eq_ok hfirst
      refine ⟨specifier, target, himport, hresolve, ?_⟩
      split
      · next hknown => exact .inl hknown
      · exact .inr List.mem_cons_self
    · obtain ⟨specifier, other, himport, hresolve, hother⟩ := ih hrest hname
      refine ⟨specifier, other, himport, hresolve, hother.imp_right fun hmem => ?_⟩
      split
      · exact hmem
      · exact List.mem_cons_of_mem target hmem

/-- A file that is surveyed with success imports each name that it needs. -/
theorem located_of_survey {addition : Addition} {queue : List host.File}
    (h : (survey host index file source).result = .ok (addition, queue))
    (hname : name ∈ needs index.registry (CallSite.extract source (some file))) :
    ∃ specifier target, (CallSite.parseImports source).get? name = some specifier ∧
      host.resolve specifier (some file) = .ok (some target) ∧
      (target.1 ∈ index.files.insert file ∨ target ∈ queue) := by
  simp only [survey, Answer.andThen] at h
  split at h
  · cases h
  next located hlocated =>
  split at h
  · cases h
  · cases h
    exact located_of_locateEach hlocated hname

/-- When a new file is entered, each name that it needs is imported from a file that is indexed
then. -/
theorem located_of_indexNew (new : file ∉ index.files)
    (hok : (indexNew host index file source).result = .ok ())
    (hname : name ∈ needs index.registry (CallSite.extract source (some file))) :
    ∃ specifier target, (CallSite.parseImports source).get? name = some specifier ∧
      host.resolve specifier (some file) = .ok (some target) ∧
      target.1 ∈ (indexNew host index file source).index.files := by
  unfold indexNew at hok ⊢
  rw [if_neg new] at hok ⊢
  split at hok
  · cases hok
  next events addition queue hsurvey =>
  obtain ⟨specifier, target, himport, hresolve, htarget⟩ :=
    located_of_survey (by rw [hsurvey]) hname
  refine ⟨specifier, target, himport, hresolve, ?_⟩
  rw [Outcome.index_after]
  rcases htarget with hknown | hwaits
  · refine (drain_grows host (index.add addition) queue.reverse).files ?_
    rw [← survey_file hsurvey] at hknown
    exact hknown
  · exact mem_files_drain hok (List.mem_reverse.2 hwaits)

/-! ## Definitions that growth has registered -/

/-- A definition that growth has registered stands in the text of a file that growth has entered. -/
theorem Grows.entered {texts : String → Option Text} {site : CallSite}
    (hgrows : Grows texts index later) (hnew : index.registry.get? name = none)
    (hsite : later.registry.get? name = some site) :
    ∃ file, file ∉ index.files ∧ file ∈ later.files ∧ Contributes texts file site := by
  induction hgrows with
  | refl => cases hnew.symm.trans hsite
  | tail hgrows hstep ih =>
    obtain ⟨text, new, free⟩ := hstep
    rcases (get?_add_eq_some_iff free).1 hsite with ⟨hown, -⟩ | hsite
    · exact ⟨_, fun h => new (Grows.files hgrows h), mem_files_add.2 (.inl rfl), _, text, hown⟩
    · obtain ⟨file, hfile, hentered, hown⟩ := ih hsite
      exact ⟨file, hfile, mem_files_add.2 (.inr hentered), hown⟩

/-! ## A call that succeeds -/

/-- A call that succeeds, after any history, has bound each dependency of its file that the file
does not define. If the name was registered before, it keeps its definition, whatever the file
imports. If it was not, it is bound to a definition in a file that the call has entered; and when
the call has surveyed its own file, that file imports the name from a file that is indexed now, and
the name is bound to the definition there if there is one. The digest that was known for the file
must not stand for another text. -/
theorem indexFile_binds (steps : List (Step ε)) (host : Host ε) (file : String) (source : Text)
    (hcollision : ∀ text, (run steps).texts file = some text →
      digest text = digest source → text = source)
    (hok : (indexFile host (run steps).index file source).result = .ok ()) :
    let before := (run steps).index.refresh file source
    let later := run (steps ++ [.index host file source])
    ∀ site ∈ CallSite.extract source (some file), ∀ name ∈ site.dependsOn,
      (∀ own ∈ CallSite.extract source (some file), own.name ≠ name) →
      ∃ bound, later.index.registry.get? name = some bound ∧
        (∀ known, before.registry.get? name = some known → bound = known) ∧
        (before.registry.get? name = none →
          (∃ entered, bound.file = some entered ∧ entered ∉ before.files ∧
            entered ∈ later.index.files) ∧
          (file ∉ before.files →
            ∃ specifier target, (CallSite.parseImports source).get? name = some specifier ∧
              host.resolve specifier (some file) = .ok (some target) ∧
              target.1 ∈ later.index.files ∧
              ((∃ own, Contributes later.texts target.1 own ∧ own.name = name) →
                bound.file = some target.1))) := by
  intro before later site hsite name hname hforeign
  have hrun : later = (Step.index host file source).apply (run steps) := run_append steps _
  have hindex : later.index = (indexFile host (run steps).index file source).index :=
    congrArg Traced.index hrun
  have hgrows : Grows (callTexts host file source) before later.index :=
    hindex ▸ indexFile_grows host (run steps).index file source
  have hsound : Sound later.texts later.index :=
    hrun ▸ (run_sound steps).apply (.index host file source)
  -- the site is registered, so what it depends on is, too
  have htext : later.texts file = some source :=
    hrun ▸ text_of_indexFile (run_sound steps) hcollision (mem_files_indexFile hok)
  have hregistered := hsound.registered ⟨source, htext, hsite⟩
  have hlisted : site.name ∈ later.index.definedIn file :=
    hsound.listed.2 ⟨site, hregistered, CallSite.file_of_mem_extract hsite⟩
  rw [hindex] at hregistered hlisted
  obtain ⟨bound, hbound⟩ :=
    Table.contains_iff.1 (contains_of_reaches hok hregistered hlisted (.direct hname))
  rw [← hindex] at hbound
  refine ⟨bound, hbound, fun known hknown => ?_, fun hnone => ⟨?_, fun new => ?_⟩⟩
  · exact Option.some.inj (hbound.symm.trans (hgrows.get?_registry hknown))
  · obtain ⟨entered, hfile, hentered, hown⟩ := hgrows.entered hnone hbound
    exact ⟨entered, hown.file, hfile, hentered⟩
  · have hneeded : name ∈ needs before.registry (CallSite.extract source (some file)) := by
      refine mem_needs.2 ⟨⟨site, hsite, hname⟩, fun hcontains => ?_, hforeign⟩
      obtain ⟨known, hknown⟩ := Table.contains_iff.1 hcontains
      cases hnone.symm.trans hknown
    obtain ⟨hnew, -⟩ := Outcome.andThen_eq_ok hok
    obtain ⟨specifier, target, himport, hresolve, htarget⟩ := located_of_indexNew new hnew hneeded
    refine ⟨specifier, target, himport, hresolve, ?_, ?_⟩
    · rw [hindex, indexFile, Outcome.andThen_of_ok hnew, Outcome.index_after]
      exact (close_grows host _ _ _).files htarget
    · rintro ⟨own, hown, rfl⟩
      rw [Option.some.inj (hbound.symm.trans (hsound.registered hown))]
      exact hown.file

/-- The query finds nothing registered, so it is bound to the fragment that it imports. -/
theorem indexFile_binds_query :
    let host : Host String := .ofTable heroes .empty id
    let steps : List (Step String) := []
    let later := run (steps ++ [.index host "query.ts" queryFile])
    (∀ text, (run steps).texts "query.ts" = some text → digest text = digest queryFile →
      text = queryFile) ∧
    (indexFile host (run steps).index "query.ts" queryFile).result = .ok () ∧
    ∃ bound specifier target, later.index.registry.get? "Names" = some bound ∧
      (CallSite.parseImports queryFile).get? "Names" = some specifier ∧
      host.resolve specifier (some "query.ts") = .ok (some target) ∧
      ((∃ own, Contributes later.texts target.1 own ∧ own.name = "Names") →
        bound.file = some target.1) := by
  intro host steps later
  have hquery : heroes.get? "query.ts" = some queryFile := get?_heroes_eq_some.2 (.inl ⟨rfl, rfl⟩)
  have hcollision : ∀ text, (run steps).texts "query.ts" = some text →
      digest text = digest queryFile → text = queryFile := fun _ htext => nomatch htext
  have hok : (indexFile host (run steps).index "query.ts" queryFile).result = .ok () :=
    (wellFormed_heroes.indexFile_ok (Fits.empty _) hquery).1
  have hsites : ∀ own ∈ CallSite.extract queryFile (some "query.ts"), own = heroesQuery := by
    rw [extract_queryFile]
    exact fun own => List.mem_singleton.1
  obtain ⟨bound, hbound, -, hnew⟩ := indexFile_binds steps host "query.ts" queryFile hcollision hok
    heroesQuery (by rw [extract_queryFile]; exact List.mem_singleton_self _) "Names" (by decide)
    fun own hown => by rw [hsites own hown]; decide
  obtain ⟨-, himported⟩ := hnew rfl
  obtain ⟨specifier, target, himport, hresolve, -, hown⟩ := himported (NameSet.not_mem_empty _)
  exact ⟨hcollision, hok, bound, specifier, target, hbound, himport, hresolve, hown⟩

/-! ## Files that are accepted whatever they import -/

/-- A new file whose definitions depend on each other and on registered names only is accepted, and
enters alone. Its imports and the host do not matter. -/
theorem indexFile_of_registered {P : String → Prop} (new : file ∉ index.files)
    (free : index.Free (CallSite.extract source (some file))) (hclosed : Closed index.registry P)
    (hlisted : ∀ name ∈ index.definedIn file, P name)
    (hdeps : ∀ site ∈ CallSite.extract source (some file), ∀ next ∈ site.dependsOn,
      P next ∨ next ∈ (CallSite.extract source (some file)).map CallSite.name) :
    (indexFile host index file source).result = .ok () ∧
      (indexFile host index file source).index = index.add (additionOf file source) := by
  have hneeds : needs index.registry (CallSite.extract source (some file)) = [] := by
    refine List.eq_nil_iff_forall_not_mem.2 fun name hname => ?_
    obtain ⟨⟨site, hsite, hdep⟩, hunknown, hforeign⟩ := mem_needs.1 hname
    rcases hdeps site hsite name hdep with hname | hname
    · obtain ⟨known, hknown, -⟩ := hclosed name hname
      exact hunknown (Table.contains_iff.2 ⟨known, hknown⟩)
    · obtain ⟨own, hown, heq⟩ := List.mem_map.1 hname
      exact hforeign own hown heq
  obtain ⟨events, hsurvey⟩ : ∃ events, survey host index file source =
      ⟨events, .ok (additionOf file source, [])⟩ := by
    refine @survey_eq_of_free _ host index file source [] [] free ?_
    rw [hneeds]
    rfl
  have hentered : indexNew host index file source =
      ⟨index.add (additionOf file source), events, .ok ()⟩ := by
    unfold indexNew
    rw [if_neg new, hsurvey]
    simp [drain, Outcome.done, Outcome.after]
  -- the names of the file and the registered ones are closed, so the walk does nothing
  let Q : String → Prop := fun name =>
    P name ∨ name ∈ (CallSite.extract source (some file)).map CallSite.name
  have hall : Closed (index.add (additionOf file source)).registry Q := by
    rintro name (hname | hname)
    · obtain ⟨site, hsite, hnext⟩ := hclosed name hname
      exact ⟨site, (get?_add_eq_some_iff free).2 (.inr hsite), fun next h => .inl (hnext next h)⟩
    · obtain ⟨site, hsite, rfl⟩ := List.mem_map.1 hname
      exact ⟨site, get?_add_of_mem free.distinct hsite, hdeps site hsite⟩
  have hclose : close host (index.add (additionOf file source)) .empty
      ((index.add (additionOf file source)).definedIn file).names.reverse =
        .done (index.add (additionOf file source)) := by
    refine close_eq_done hall fun name hname => ?_
    rcases mem_definedIn_add.1 (List.mem_reverse.1 hname) with ⟨-, hown⟩ | hlist
    · exact .inr hown
    · exact .inl (hlisted name hlist)
  have hrefresh : index.refresh file source = index := if_neg fun h => new h.1
  rw [indexFile, hrefresh, hentered]
  show ((close host (index.add (additionOf file source)) .empty _).after events).result = _ ∧
    ((close host (index.add (additionOf file source)) .empty _).after events).index = _
  rw [hclose]
  exact ⟨rfl, rfl⟩

/-- A file with a query. It depends on a fragment that it does not import. -/
@[irreducible] def looseFile : Text :=
  "const Heroes = graphql(`query Heroes { heroes { ...Names } }`, [Names]);".toList

/-- The query of the file without imports. -/
def looseQuery : CallSite :=
  ⟨"Heroes", "query Heroes { heroes { ...Names } }", ⟨6, 71⟩, .ofList ["Names"], some "query.ts"⟩

theorem extract_looseFile : CallSite.extract looseFile (some "query.ts") = [looseQuery] := by
  decide +kernel

theorem parseImports_looseFile : (CallSite.parseImports looseFile).get? "Names" = none := by
  decide +kernel

/-- Not every call that succeeds, after calls only, has bound the dependencies of its file to the
files that they are imported from: once a fragment is indexed, any file may depend on it. -/
theorem not_bound_to_import :
    ¬ ∀ (steps : List (Step String)) (host : Host String) (file : String) (source : Text),
      (∀ step ∈ steps, ∃ host file source, step = .index host file source) →
      (indexFile host (run steps).index file source).result = .ok () →
      ∀ site ∈ CallSite.extract source (some file), ∀ name ∈ site.dependsOn,
        (∀ own ∈ CallSite.extract source (some file), own.name ≠ name) →
        ∃ specifier target bound, (CallSite.parseImports source).get? name = some specifier ∧
          host.resolve specifier (some file) = .ok (some target) ∧
          (indexFile host (run steps).index file source).index.registry.get? name = some bound ∧
          bound.file = some target.1 := by
  intro hbinds
  let host : Host String := .ofTable heroes .empty id
  let steps : List (Step String) := [.index host "names.ts" fragmentFile]
  have hfirst : (run steps).index = Index.empty.add (additionOf "names.ts" fragmentFile) := by
    refine (@indexFile_of_registered _ host Index.empty "names.ts" fragmentFile (fun _ => False)
      (NameSet.not_mem_empty _) ⟨?_, fun _ _ => rfl⟩ (fun _ h => h.elim)
      (fun _ h => absurd h (NameSet.not_mem_empty _)) ?_).2
    · simp [extract_fragmentFile]
    · rw [extract_fragmentFile]
      rintro site hsite next hnext
      rw [List.mem_singleton.1 hsite] at hnext
      exact absurd hnext (NameSet.not_mem_empty next)
  have hnames : (run steps).index.registry.get? "Names" = some namesFragment := by
    rw [hfirst]
    refine @get?_add_of_mem Index.empty "names.ts" fragmentFile namesFragment ?_ ?_
    · simp [extract_fragmentFile]
    · rw [extract_fragmentFile]
      exact List.mem_singleton_self namesFragment
  have hheroes : (run steps).index.registry.get? "Heroes" = none := by
    rw [hfirst]
    refine (get?_add_of_not_mem ?_).trans rfl
    rw [extract_fragmentFile]
    decide
  have hquery : "query.ts" ∉ (run steps).index.files := by
    rw [hfirst, mem_files_add]
    exact fun h => h.elim (by decide) (NameSet.not_mem_empty _)
  -- the fragment is registered, so the file is accepted without an import
  have hok : (indexFile host (run steps).index "query.ts" looseFile).result = .ok () := by
    refine (@indexFile_of_registered _ host (run steps).index "query.ts" looseFile (· = "Names")
      hquery ⟨?_, ?_⟩ ?_ ?_ ?_).1
    · simp [extract_looseFile]
    · rw [extract_looseFile]
      intro site hsite
      rw [List.mem_singleton.1 hsite]
      exact hheroes
    · rintro name rfl
      exact ⟨namesFragment, hnames, fun next hnext => absurd hnext (NameSet.not_mem_empty next)⟩
    · intro name hname
      rw [hfirst] at hname
      rcases mem_definedIn_add.1 hname with ⟨hfile, -⟩ | hname
      · exact absurd hfile (by decide)
      · exact absurd hname (NameSet.not_mem_empty name)
    · rw [extract_looseFile]
      intro site hsite next hnext
      rw [List.mem_singleton.1 hsite] at hnext
      exact .inl (by simpa [looseQuery] using hnext)
  have hsites : ∀ own ∈ CallSite.extract looseFile (some "query.ts"), own = looseQuery := by
    rw [extract_looseFile]
    exact fun own => List.mem_singleton.1
  obtain ⟨specifier, -, -, himport, -⟩ := hbinds steps host "query.ts" looseFile
    (fun step hstep => ⟨host, _, _, List.mem_singleton.1 hstep⟩) hok looseQuery
    (by rw [extract_looseFile]; exact List.mem_singleton_self _) "Names" (by decide)
    fun own hown => by rw [hsites own hown]; decide
  cases parseImports_looseFile.symm.trans himport

end PersistedQueries.Index
