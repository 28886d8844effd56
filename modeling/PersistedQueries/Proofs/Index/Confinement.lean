import PersistedQueries.Proofs.Index.Reachable

/-!
# A call stays among the files that it reaches

Files are entered because they are imported from. So a property that carries over from a file to
those that it leads to is one of every file that a call enters, however the call ends; and when it
ends with a fault, this is about names, or the host has failed at a file with the property.

- `Carries`: a property carries over to the files that a file with it leads to.
- `Foreseen`: the faults that a call can end with.
- `Confined`: a step enters files with the property only, and has no other faults.
- `indexFile_confined`: so it is with every call.
- `WellFormed.holds_of_fits`: so the index holds a program that shares no names with other files.
-/

namespace PersistedQueries.Index

variable {ε : Type} {host : Host ε} {P : String → Prop} {index : Index} {file name : String}
  {source : Text} {outcome : Outcome ε}

/-- A property carries over to the files that a file with it leads to. -/
def Carries (host : Host ε) (P : String → Prop) : Prop :=
  ∀ file target, P file → Leads (hostTexts host) host file target → P target

/-- A fault of a call that looks at files with a property only: a name is unbound or has two
definitions, or the host fails at the specifier of a file or at the text of one with the property. -/
inductive Foreseen (host : Host ε) (P : String → Prop) : Fault ε → Prop where
  | unbound (fault : Unbound) : Foreseen host P (.unbound fault)
  | duplicate (name : String) (first second : Option String) :
      Foreseen host P (.duplicate name first second)
  | resolve {specifier importer : String} {failure : ε}
      (resolve_eq : host.resolve specifier (some importer) = .error failure) :
      Foreseen host P (.host failure)
  | load {file : String} {failure : ε} (property : P file) (load_eq : host.load file = .error failure) :
      Foreseen host P (.host failure)

/-- A step enters files with a property only, and has foreseen faults only. -/
structure Confined (host : Host ε) (P : String → Prop) (index : Index) (outcome : Outcome ε) :
    Prop where
  grows : Grows (Program.restrict (hostTexts host) P) index outcome.index
  foreseen : ∀ {fault}, outcome.result = .error fault → Foreseen host P fault

namespace Confined

theorem done : Confined host P index (.done index) := ⟨.refl, nofun⟩

theorem after {events : List Event} (h : Confined host P index outcome) :
    Confined host P index (outcome.after events) := ⟨h.grows, h.foreseen⟩

/-- The index stays as it is, and the fault is foreseen. -/
theorem of_foreseen {fault : Fault ε} {events : List Event} (h : Foreseen host P fault) :
    Confined host P index ⟨index, events, .error fault⟩ :=
  ⟨.refl, fun heq => Except.error.inj heq ▸ h⟩

theorem andThen {next : Index → Outcome ε} (h : Confined host P index outcome)
    (hnext : outcome.result = .ok () → Confined host P outcome.index (next outcome.index)) :
    Confined host P index (outcome.andThen next) := by
  cases hresult : outcome.result with
  | error fault =>
    rw [Outcome.andThen_of_error hresult]
    exact h
  | ok =>
    rw [Outcome.andThen_of_ok hresult]
    exact ⟨h.grows.trans (hnext hresult).grows, (hnext hresult).foreseen⟩

end Confined

/-! ## Looking for names -/

theorem foreseen_of_locate {imports : Table String String} {fault : Fault ε}
    (h : (locate host imports (some file) name).result = .error fault) : Foreseen host P fault := by
  rcases locate_eq_error (congrArg (Answer.mk _) h) with
    ⟨reason, rfl⟩ | ⟨specifier, failure, rfl, -, hresolve⟩
  · exact .unbound reason
  · exact .resolve hresolve

/-- A file leads to where its dependencies are located. -/
theorem leads_of_locate {site : CallSite} {target : host.File}
    (hload : host.load file = .ok source) (hsite : site ∈ CallSite.extract source (some file))
    (hname : name ∈ site.dependsOn)
    (hothers : ∀ own ∈ CallSite.extract source (some file), own.name ≠ name)
    (h : (locate host (CallSite.parseImports source) (some file) name).result = .ok target) :
    Leads (hostTexts host) host file target.1 := by
  obtain ⟨specifier, himport, hresolve⟩ := locate_eq_ok h
  exact ⟨name, source, site, specifier, target, hostTexts_eq_some.2 hload, hsite, hname, hothers,
    himport, hresolve, rfl⟩

theorem locateEach_confined {imports : Table String String} (files : NameSet) {names : List String}
    (h : ∀ name ∈ names, ∀ target, (locate host imports (some file) name).result = .ok target →
      P target.1) :
    (∀ fault, (locateEach host imports file files names).result = .error fault →
        Foreseen host P fault) ∧
      ∀ queue, (locateEach host imports file files names).result = .ok queue →
        ∀ target ∈ queue, P target.1 := by
  induction names with
  | nil =>
    refine ⟨fun fault hfault => ?_, fun queue hqueue => ?_⟩
    · cases hfault
    · cases hqueue
      exact List.forall_mem_nil _
  | cons name names ih =>
    obtain ⟨hname, hnames⟩ := List.forall_mem_cons.1 h
    obtain ⟨hfault, hqueues⟩ := ih hnames
    unfold locateEach Answer.andThen
    split
    · next fault hlocate =>
      refine ⟨fun fault' heq => ?_, fun queue heq => ?_⟩ <;> cases heq
      exact foreseen_of_locate hlocate
    next target hlocate =>
    split
    · next fault hrest =>
      refine ⟨fun fault' heq => ?_, fun queue heq => ?_⟩ <;> cases heq
      exact hfault fault hrest
    next located hrest =>
    refine ⟨fun fault heq => ?_, fun queue heq => ?_⟩ <;> cases heq
    split
    · exact hqueues located hrest
    · exact List.forall_mem_cons.2 ⟨hname target hlocate, hqueues located hrest⟩

/-- The only fault of a name that is taken is that it has two definitions. -/
theorem foreseen_of_firstDuplicate {registry : Registry} {seen : NameSet} {sites : List CallSite}
    {fault : Fault ε} (h : firstDuplicate registry file seen sites = some fault) :
    Foreseen host P fault := by
  obtain ⟨name, first, second, rfl⟩ := firstDuplicate_eq_some h
  exact .duplicate name first second

section Carries

variable (hcarries : Carries host P)

include hcarries

/-- What a file with the property needs are files with the property. -/
theorem survey_confined (index : Index) (hfile : P file) (hload : host.load file = .ok source) :
    (∀ fault, (survey host index file source).result = .error fault → Foreseen host P fault) ∧
      ∀ addition queue, (survey host index file source).result = .ok (addition, queue) →
        ∀ target ∈ queue, P target.1 := by
  have hnames : ∀ name ∈ needs index.registry (CallSite.extract source (some file)), ∀ target,
      (locate host (CallSite.parseImports source) (some file) name).result = .ok target →
        P target.1 := by
    intro name hname target hlocate
    obtain ⟨⟨site, hsite, hdep⟩, -, hothers⟩ := mem_needs.1 hname
    exact hcarries file _ hfile (leads_of_locate hload hsite hdep hothers hlocate)
  obtain ⟨hfault, hqueues⟩ := locateEach_confined (index.files.insert file) hnames
  simp only [survey, Answer.andThen]
  split
  · next fault hlocated =>
    refine ⟨fun fault' heq => ?_, fun addition queue heq => ?_⟩ <;> cases heq
    exact hfault fault hlocated
  next queue hlocated =>
  split
  · next fault hduplicate =>
    refine ⟨fun fault' heq => ?_, fun addition queue heq => ?_⟩ <;> cases heq
    exact foreseen_of_firstDuplicate hduplicate
  · refine ⟨fun fault heq => ?_, fun addition queue' heq => ?_⟩ <;> cases heq
    exact hqueues queue hlocated

/-! ## Entering files -/

theorem drain_confined {stack : List host.File} (hstack : ∀ target ∈ stack, P target.1) :
    Confined host P index (drain host index stack) := by
  fun_induction drain host index stack with
  | case1 => exact .done
  | case2 index file stack hfile ih => exact ih (List.forall_mem_cons.1 hstack).2
  | case3 index file stack hfile events fault hsurvey =>
    have hproperty := (List.forall_mem_cons.1 hstack).1
    refine .of_foreseen ?_
    cases hload : host.load file.1 with
    | error failure =>
      rw [loadAndSurvey_of_load_eq_error index hload] at hsurvey
      cases hsurvey
      exact .load hproperty hload
    | ok source =>
      rw [loadAndSurvey_of_load_eq_ok index hload] at hsurvey
      exact (survey_confined hcarries index hproperty hload).1 fault (congrArg Answer.result hsurvey)
  | case4 index file stack hfile events addition queue hsurvey ih =>
    obtain ⟨hproperty, hstack⟩ := List.forall_mem_cons.1 hstack
    obtain ⟨source, later, hload, hok⟩ := loadAndSurvey_eq_ok hsurvey
    have hqueue := (survey_confined hcarries index hproperty hload).2 _ _ (congrArg Answer.result hok)
    obtain ⟨rfl, hfree⟩ := survey_eq_ok hok
    have hrest := ih fun target htarget => (List.mem_append.1 htarget).elim
      (fun hmem => hqueue target (List.mem_reverse.1 hmem)) (hstack target)
    refine (⟨Relation.ReflTransGen.head (.intro ?_ hfile hfree) hrest.grows, hrest.foreseen⟩ :
      Confined host P index (drain host _ _)).after
    exact Program.restrict_eq_some.2 ⟨hproperty, hostTexts_eq_some.2 hload⟩

/-! ## Binding names -/

/-- What a registered definition depends on is looked for in a file that its own file leads to. -/
theorem bindName_confined (h : Fits (Program.restrict (hostTexts host) P) index) {known : String}
    {site : CallSite} (hsite : index.registry.get? known = some site) (hname : name ∈ site.dependsOn)
    (hnew : index.registry.contains name ≠ true) :
    Confined host P index (bindName host index site.file name) := by
  obtain ⟨texts, hexact, htexts⟩ := h
  obtain ⟨file, hown⟩ := hexact.owned hsite
  have ⟨source, htext, hextract⟩ := hown
  obtain ⟨hproperty, hload⟩ := Program.restrict_eq_some.1 (htexts htext)
  rw [hostTexts_eq_some] at hload
  have himports : index.importsOf file = CallSite.parseImports source := by
    unfold Index.importsOf
    rw [hexact.imports, htext]
    rfl
  -- a name that the file defined itself would be registered, since the file is indexed
  have hothers : ∀ own ∈ CallSite.extract source (some file), own.name ≠ name := by
    rintro own hown rfl
    exact hnew (Table.contains_iff.2 ⟨own, hexact.registered ⟨source, htext, hown⟩⟩)
  unfold bindName
  rw [hown.file, Option.getD_some, himports]
  split
  · next events fault hlocate =>
    exact .of_foreseen (foreseen_of_locate (congrArg Answer.result hlocate))
  next events target hlocate =>
  have htarget := hcarries file _ hproperty
    (leads_of_locate hload hextract hname hothers (congrArg Answer.result hlocate))
  refine .after (.andThen (drain_confined hcarries (List.forall_mem_singleton.2 htarget)) ?_)
  intro _
  split
  · exact .done
  · exact .of_foreseen (.unbound _)

theorem bindEach_confined (h : Fits (Program.restrict (hostTexts host) P) index) {known : String}
    {site : CallSite} (hsite : index.registry.get? known = some site) {names : List String}
    (hnames : ∀ name ∈ names, name ∈ site.dependsOn) :
    Confined host P index (bindEach host index site.file names) := by
  induction names generalizing index with
  | nil =>
    unfold bindEach
    exact .done
  | cons name names ih =>
    obtain ⟨hname, hnames⟩ := List.forall_mem_cons.1 hnames
    unfold bindEach
    split
    · exact ih h hsite hnames
    · next hnew =>
      have hbound := bindName_confined hcarries h hsite hname hnew
      exact hbound.andThen fun _ =>
        ih (h.grows hbound.grows) (hbound.grows.get?_registry hsite) hnames

end Carries

theorem contains_of_bindName {importer : Option String}
    (hok : (bindName host index importer name).result = .ok ()) :
    (bindName host index importer name).index.registry.contains name = true := by
  unfold bindName at hok ⊢
  split at hok
  · cases hok
  next events target hlocate =>
  obtain ⟨hdrain, hfound⟩ := Outcome.andThen_eq_ok hok
  rw [Outcome.index_after, Outcome.andThen_of_ok hdrain, Outcome.index_after]
  split at hfound
  · next hcontains =>
    rw [if_pos hcontains]
    exact hcontains
  · cases hfound

/-- Names that are bound are registered. -/
theorem contains_of_bindEach {importer : Option String} {names : List String}
    (hok : (bindEach host index importer names).result = .ok ()) (hname : name ∈ names) :
    (bindEach host index importer names).index.registry.contains name = true := by
  induction names generalizing index with
  | nil => exact absurd hname List.not_mem_nil
  | cons first names ih =>
    unfold bindEach at hok ⊢
    split at hok
    · next hknown =>
      rw [if_pos hknown]
      rcases List.mem_cons.1 hname with rfl | hname
      · exact (bindEach_grows host index importer names).contains_registry hknown
      · exact ih hok hname
    · next hnew =>
      obtain ⟨hbound, hrest⟩ := Outcome.andThen_eq_ok hok
      rw [if_neg hnew, Outcome.andThen_of_ok hbound, Outcome.index_after]
      rcases List.mem_cons.1 hname with rfl | hname
      · exact (bindEach_grows host _ importer names).contains_registry (contains_of_bindName hbound)
      · exact ih hrest hname

section Carries

variable (hcarries : Carries host P)

include hcarries

/-! ## A call -/

/-- A walk that begins with registered names meets registered names only. -/
theorem close_confined (h : Fits (Program.restrict (hostTexts host) P) index) {visited : NameSet}
    {stack : List String} (hstack : ∀ name ∈ stack, index.registry.contains name = true) :
    Confined host P index (close host index visited stack) := by
  fun_induction close host index visited stack with
  | case1 => exact .done
  | case2 index visited name stack hname ih => exact ih h (List.forall_mem_cons.1 hstack).2
  | case3 index visited name stack hname hsite =>
    -- no name on the stack is without a definition
    obtain ⟨site, hknown⟩ := Table.contains_iff.1 (List.forall_mem_cons.1 hstack).1
    cases hsite.symm.trans hknown
  | case4 index visited name stack hname site hsite bound events fault hbound =>
    have hconfined : Confined host P index (bindEach host index site.file site.dependsOn.names) :=
      bindEach_confined hcarries h hsite fun next hnext => hnext
    rw [hbound] at hconfined
    exact hconfined
  | case5 index visited name stack hname site hsite bound events _ hbound ih =>
    have hconfined : Confined host P index (bindEach host index site.file site.dependsOn.names) :=
      bindEach_confined hcarries h hsite fun next hnext => hnext
    have hcontains : ∀ next ∈ site.dependsOn.names,
        (bindEach host index site.file site.dependsOn.names).index.registry.contains next = true :=
      fun next => contains_of_bindEach (by rw [hbound])
    rw [hbound] at hconfined hcontains
    have hrest := ih (h.grows hconfined.grows) fun next hnext => by
      rcases List.mem_append.1 hnext with hnext | hnext
      · exact hcontains next (List.mem_reverse.1 hnext)
      · exact hconfined.grows.contains_registry ((List.forall_mem_cons.1 hstack).2 next hnext)
    exact Confined.after ⟨hconfined.grows.trans hrest.grows, hrest.foreseen⟩

theorem indexNew_confined (index : Index) (hfile : P file) (hload : host.load file = .ok source) :
    Confined host P index (indexNew host index file source) := by
  unfold indexNew
  split
  · exact .done
  next hnew =>
  obtain ⟨hfault, hqueues⟩ := survey_confined hcarries index hfile hload
  split
  · next events fault hsurvey =>
    exact .of_foreseen (hfault fault (congrArg Answer.result hsurvey))
  · next events addition queue hsurvey =>
    have hqueue := hqueues _ _ (congrArg Answer.result hsurvey)
    obtain ⟨rfl, hfree⟩ := survey_eq_ok hsurvey
    have hrest : Confined host P _ (drain host (index.add (additionOf file source)) queue.reverse) :=
      drain_confined hcarries fun target htarget => hqueue target (List.mem_reverse.1 htarget)
    refine .after ⟨Relation.ReflTransGen.head (.intro ?_ hnew hfree) hrest.grows, hrest.foreseen⟩
    exact Program.restrict_eq_some.2 ⟨hfile, hostTexts_eq_some.2 hload⟩

/-- A call for a file with the property, with the text that the host has of it, enters files with the
property only, and has foreseen faults only. -/
theorem indexFile_confined (h : Fits (Program.restrict (hostTexts host) P) index) (hfile : P file)
    (hload : host.load file = .ok source) :
    Confined host P index (indexFile host index file source) := by
  have hsource : Program.restrict (hostTexts host) P file = some source :=
    Program.restrict_eq_some.2 ⟨hfile, hostTexts_eq_some.2 hload⟩
  have hnew := indexNew_confined hcarries index hfile hload
  unfold indexFile
  rw [h.refresh hsource]
  refine hnew.andThen fun _ => ?_
  have hfits := h.grows hnew.grows
  refine close_confined hcarries hfits fun name hname => ?_
  obtain ⟨texts, hexact, -⟩ := hfits
  obtain ⟨site, hsite, -⟩ := hexact.listed.1 (List.mem_reverse.1 hname)
  exact Table.contains_iff.2 ⟨site, hsite⟩

end Carries

/-- An index that holds texts of files with a property only holds a well-formed program, when no other
file with the property defines one of its names. -/
theorem WellFormed.holds_of_fits {program : Program} (hprogram : WellFormed program host)
    (h : Fits (Program.restrict (hostTexts host) P) index)
    (hapart : ∀ id other site own, P id → Contributes (hostTexts host) id site →
      Contributes program other own → site.name = own.name → id = other) :
    Holds program index := by
  obtain ⟨texts, hexact, htexts⟩ := h
  refine ⟨texts, hexact, fun {id text source} htext hsource => ?_, ?_⟩
  · have hload := hostTexts_eq_some.1 (Program.restrict_eq_some.1 (htexts htext)).2
    exact Except.ok.inj (hload.symm.trans (hprogram.loaded hsource))
  · rintro id other site own ⟨text, htext, hsite⟩ hown hname
    obtain ⟨hproperty, hhost⟩ := Program.restrict_eq_some.1 (htexts htext)
    exact hapart id other site own hproperty ⟨text, hhost, hsite⟩ hown hname

end PersistedQueries.Index
