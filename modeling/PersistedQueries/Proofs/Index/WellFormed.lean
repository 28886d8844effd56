import Mathlib.Data.List.Nodup
import PersistedQueries.Proofs.Index.Soundness

/-!
# Well-formed programs are indexed without a fault

A program is a set of files with their texts. It is well-formed when each name is defined once and
each dependency is defined by the same file or imported from a file that defines it. Indexing a file
of such a program finds no fault, and enters files of the program only, whatever the index has seen
before: it may hold files of the program with the texts that they have now, and also other files, as
long as they do not define the names of the program.

- `Program`, `WellFormed`: the files with their texts, and when they form a program.
- `Fits`: an index holds files of the program and nothing else.
- `Holds`: it may hold other files besides, which take no names of the program.
- `WellFormed.survey_eq`: a new file is surveyed without a fault, and needs files of the program.
- `WellFormed.drain_ok`, `WellFormed.close_ok`, `WellFormed.indexFile_grows`: so each step succeeds
  and enters files of the program.
- `WellFormed.indexFile_ok`: an index that is fit stays so.
- `Holds.get?_eq`: a name of the program is registered for its definition only.
- `Uses`: a file with a fragment that it imports, which is a program of two files.
- `heroes`: a query and its fragment, as an example of such a program.
-/

namespace PersistedQueries.Index

variable {ε : Type} {host : Host ε} {index other : Index}

/-- The texts of the files of a program. -/
abbrev Program : Type := String → Option Text

/-- A host has the texts of a program, each name of the program is defined once, and each
dependency is defined by the same file or imported from a file that defines it. -/
structure WellFormed (program : Program) (host : Host ε) : Prop where
  /-- The host has the texts. -/
  loaded : ∀ {file text}, program file = some text → host.load file = .ok text
  /-- No name is defined twice in one file. -/
  distinct : ∀ {file text}, program file = some text →
    ((CallSite.extract text (some file)).map CallSite.name).Nodup
  /-- No name is defined in two files. -/
  unique : ∀ {file other site site'}, Contributes program file site →
    Contributes program other site' → site.name = site'.name → file = other
  /-- A dependency is defined by the same file or imported from a file that defines it. -/
  bound : ∀ {file text site name}, program file = some text →
    site ∈ CallSite.extract text (some file) → name ∈ site.dependsOn →
    (∃ own, Contributes program file own ∧ own.name = name) ∨
    ∃ specifier target, (CallSite.parseImports text).get? name = some specifier ∧
      host.resolve specifier (some file) = .ok (some target) ∧
      ∃ own, Contributes program target.1 own ∧ own.name = name

/-- An index knows the digest of the text that it has of a file, so there is nothing to forget when
the file is given that text. -/
theorem Sound.refresh_eq {texts : Program} (h : Sound texts index) {file : String} {source : Text}
    (htexts : ∀ {text}, texts file = some text → text = source) :
    index.refresh file source = index := by
  refine if_neg ?_
  rintro ⟨hfile, hstale⟩
  obtain ⟨text, htext⟩ := h.indexed.1 hfile
  refine hstale ?_
  rw [h.digests, htext, Option.map_some, htexts htext]

/-- An index holds some files of a program, with the texts that they have in the program. -/
def Fits (program : Program) (index : Index) : Prop :=
  ∃ texts, Exact texts index ∧ ∀ {file text}, texts file = some text → program file = some text

theorem Fits.empty (program : Program) : Fits program Index.empty :=
  ⟨_, Exact.empty, fun h => nomatch h⟩

/-- What an index grows by are files of the program. -/
theorem Fits.grows {program : Program} (h : Fits program index)
    (hgrows : Grows program index other) : Fits program other := by
  obtain ⟨texts, hexact, htexts⟩ := h
  refine ⟨_, hexact.grows hgrows, fun htext => ?_⟩
  exact (carry_eq_some htext).elim htexts id

theorem Fits.refresh {program : Program} {file : String} {source : Text} (h : Fits program index)
    (hsource : program file = some source) : index.refresh file source = index := by
  obtain ⟨texts, hexact, htexts⟩ := h
  exact hexact.refresh_eq fun htext => Option.some.inj ((htexts htext).symm.trans hsource)

/-- What is registered is a definition of the program. -/
theorem Fits.owned {program : Program} {name : String} {site : CallSite} (h : Fits program index)
    (hsite : index.registry.get? name = some site) :
    site.name = name ∧ ∃ file, Contributes program file site := by
  obtain ⟨texts, hexact, htexts⟩ := h
  obtain ⟨file, text, htext, hextract⟩ := hexact.owned hsite
  exact ⟨hexact.named hsite, file, text, htexts htext, hextract⟩

/-- Only files of the program are indexed, and list names. -/
theorem Fits.not_mem {program : Program} {file : String} (h : Fits program index)
    (hfile : program file = none) :
    file ∉ index.files ∧ ∀ name, name ∉ index.definedIn file := by
  obtain ⟨texts, hexact, htexts⟩ := h
  have htext : texts file = none :=
    Option.eq_none_iff_forall_ne_some.2 fun text htext =>
      nomatch hfile.symm.trans (htexts htext)
  refine ⟨fun hindexed => ?_, fun name hname => ?_⟩
  · obtain ⟨text, hsome⟩ := hexact.indexed.1 hindexed
    cases htext.symm.trans hsome
  · obtain ⟨site, hsite, hown⟩ := hexact.listed.1 hname
    obtain ⟨other, text, hsome, hextract⟩ := hexact.owned hsite
    obtain rfl : other = file :=
      Option.some.inj ((CallSite.file_of_mem_extract hextract).symm.trans hown)
    cases htext.symm.trans hsome

/-- An index holds some files of a program, with the texts that they have in the program, and perhaps
other files, which define no names of the program. -/
def Holds (program : Program) (index : Index) : Prop :=
  ∃ texts, Exact texts index ∧
    (∀ {file text source}, texts file = some text → program file = some source → text = source) ∧
    ∀ {file other site own}, Contributes texts file site → Contributes program other own →
      site.name = own.name → file = other

section Holds

variable {program : Program} {file name : String} {site : CallSite} {source : Text}

/-- An indexed file of the program was indexed with the text that it has there. -/
theorem Holds.text_eq (h : Holds program index) (hfile : file ∈ index.files)
    (hsource : program file = some source) :
    ∃ texts, Exact texts index ∧ texts file = some source := by
  obtain ⟨texts, hexact, htexts, -⟩ := h
  obtain ⟨text, htext⟩ := hexact.indexed.1 hfile
  exact ⟨texts, hexact, htexts htext hsource ▸ htext⟩

/-- A definition of an indexed file of the program is registered. -/
theorem Holds.registered (h : Holds program index) (hfile : file ∈ index.files)
    (hsite : Contributes program file site) : index.registry.get? site.name = some site := by
  obtain ⟨text, htext, hextract⟩ := hsite
  obtain ⟨texts, hexact, hown⟩ := h.text_eq hfile htext
  exact hexact.registered ⟨text, hown, hextract⟩

/-- What is registered under a name of the program is a definition of the file that defines it
there. -/
theorem Holds.contributes (h : Holds program index) (hown : Contributes program file site)
    {known : CallSite} (hknown : index.registry.get? site.name = some known) :
    file ∈ index.files ∧ Contributes program file known := by
  obtain ⟨texts, hexact, htexts, hapart⟩ := h
  obtain ⟨other, hother⟩ := hexact.owned hknown
  obtain rfl := hapart hother hown (hexact.named hknown)
  obtain ⟨source, hsource, -⟩ := hown
  refine ⟨hexact.mem_files_of_contributes hother, source, hsource, ?_⟩
  obtain ⟨text, htext, hextract⟩ := hother
  rwa [← htexts htext hsource]

/-- A name of the program is registered for its definition only. -/
theorem Holds.get?_eq (h : Holds program index) (hown : Contributes program file site)
    {known : CallSite} (hknown : index.registry.get? site.name = some known) : known = site :=
  Option.some.inj (hknown.symm.trans (h.registered (h.contributes hown hknown).1 hown))

/-- The names that an indexed file of the program lists are those of its definitions. -/
theorem Holds.mem_definedIn (h : Holds program index) (hfile : file ∈ index.files)
    (hsource : program file = some source) :
    name ∈ index.definedIn file ↔ ∃ own, Contributes program file own ∧ own.name = name := by
  constructor
  · intro hname
    obtain ⟨texts, hexact, htexts, -⟩ := h
    obtain ⟨own, hown, hsame⟩ := hexact.listed.1 hname
    obtain ⟨other, text, htext, hextract⟩ := hexact.owned hown
    obtain rfl : other = file :=
      Option.some.inj ((CallSite.file_of_mem_extract hextract).symm.trans hsame)
    exact ⟨own, ⟨source, hsource, htexts htext hsource ▸ hextract⟩, hexact.named hown⟩
  · rintro ⟨own, hown, rfl⟩
    have hregistered := h.registered hfile hown
    obtain ⟨texts, hexact, -⟩ := h
    exact hexact.listed.2 ⟨own, hregistered, hown.file⟩

theorem Holds.importsOf (h : Holds program index) (hfile : file ∈ index.files)
    (hsource : program file = some source) :
    index.importsOf file = CallSite.parseImports source := by
  obtain ⟨texts, hexact, htext⟩ := h.text_eq hfile hsource
  unfold Index.importsOf
  rw [hexact.imports, htext]
  rfl

/-- An index that holds a program has nothing to forget about a file with the text that it has
there. -/
theorem Holds.refresh (h : Holds program index) (hsource : program file = some source) :
    index.refresh file source = index := by
  obtain ⟨texts, hexact, htexts, -⟩ := h
  exact hexact.refresh_eq fun htext => htexts htext hsource

end Holds

/-! ## Surveys that succeed -/

theorem locateEach_eq {imports : Table String String} {importer : String} {files : NameSet}
    {names : List String} {P : String → Prop}
    (h : ∀ name ∈ names, ∃ events target,
      locate host imports (some importer) name = ⟨events, .ok target⟩ ∧ P target.1) :
    ∃ events queue, locateEach host imports importer files names = ⟨events, .ok queue⟩ ∧
      ∀ target ∈ queue, P target.1 := by
  induction names with
  | nil => exact ⟨[], [], rfl, List.forall_mem_nil _⟩
  | cons name names ih =>
    obtain ⟨⟨events, target, hlocate, htarget⟩, hnames⟩ := List.forall_mem_cons.1 h
    obtain ⟨later, queue, hqueue, htargets⟩ := ih hnames
    unfold locateEach Answer.andThen
    rw [hlocate, hqueue]
    refine ⟨_, _, rfl, ?_⟩
    split
    · exact htargets
    · exact List.forall_mem_cons.2 ⟨htarget, htargets⟩

theorem survey_eq_of_free {file : String} {source : Text} {events : List Event}
    {queue : List host.File} (free : index.Free (CallSite.extract source (some file)))
    (hlocated : locateEach host (CallSite.parseImports source) file (index.files.insert file)
      (needs index.registry (CallSite.extract source (some file))) = ⟨events, .ok queue⟩) :
    ∃ events, survey host index file source = ⟨events, .ok (additionOf file source, queue)⟩ := by
  simp only [survey, Answer.andThen, hlocated, firstDuplicate_eq_none_of_free free]
  exact ⟨_, rfl⟩

/-- What a file needs are the dependencies of its definitions that it does not define and that are
not registered. -/
theorem mem_needs {registry : Registry} {sites : List CallSite} {name : String} :
    name ∈ needs registry sites ↔ (∃ site ∈ sites, name ∈ site.dependsOn) ∧
      registry.contains name ≠ true ∧ ∀ site ∈ sites, site.name ≠ name := by
  have hown : name ∉ NameSet.ofList (sites.map CallSite.name) ↔
      ∀ site ∈ sites, site.name ≠ name := by
    rw [NameSet.mem_ofList, List.mem_map]
    push Not
    exact Iff.rfl
  unfold needs
  simp only [List.mem_flatMap, List.mem_filter, Bool.and_eq_true, Bool.not_eq_true',
    decide_eq_true_eq, hown, ← Bool.not_eq_true]
  constructor
  · rintro ⟨site, hsite, hdep, hfree⟩
    exact ⟨⟨site, hsite, hdep⟩, hfree⟩
  · rintro ⟨⟨site, hsite, hdep⟩, hfree⟩
    exact ⟨site, hsite, hdep, hfree⟩

namespace WellFormed

variable {program : Program} (hprogram : WellFormed program host)

include hprogram

/-! ## Definitions -/

/-- What a definition depends on is defined. -/
theorem exists_contributes {file name : String} {site : CallSite}
    (hsite : Contributes program file site) (hname : name ∈ site.dependsOn) :
    ∃ target own, Contributes program target own ∧ own.name = name := by
  obtain ⟨text, htext, hextract⟩ := hsite
  rcases hprogram.bound htext hextract hname with
    ⟨own, hown, heq⟩ | ⟨-, target, -, -, own, hown, heq⟩
  · exact ⟨file, own, hown, heq⟩
  · exact ⟨target.1, own, hown, heq⟩

/-- An index that fits a program holds it. -/
theorem holds (h : Fits program index) : Holds program index := by
  obtain ⟨texts, hexact, htexts⟩ := h
  refine ⟨texts, hexact, fun htext hsource => ?_, fun ⟨text, htext, hextract⟩ hown hname => ?_⟩
  · exact Option.some.inj ((htexts htext).symm.trans hsource)
  · exact hprogram.unique ⟨text, htexts htext, hextract⟩ hown hname

/-- The names of a file that is not indexed are free. -/
theorem free (h : Holds program index) {file : String} {source : Text}
    (hsource : program file = some source) (new : file ∉ index.files) :
    index.Free (CallSite.extract source (some file)) where
  distinct := hprogram.distinct hsource
  untaken site hsite := by
    cases hknown : index.registry.get? site.name with
    | none => rfl
    | some known => exact absurd (h.contributes ⟨source, hsource, hsite⟩ hknown).1 new

/-- A file of the program that is entered is held with the others. -/
theorem holds_add (h : Holds program index) {file : String} {source : Text}
    (hsource : program file = some source) (new : file ∉ index.files)
    (free : index.Free (CallSite.extract source (some file))) :
    Holds program (index.add (additionOf file source)) := by
  obtain ⟨texts, hexact, htexts, hapart⟩ := h
  refine ⟨_, hexact.add new free, fun {id text source'} htext hsource' => ?_, ?_⟩
  · rw [Function.update_apply] at htext
    split at htext
    · next hid =>
      subst hid
      exact Option.some.inj (htext.symm.trans (hsource.symm.trans hsource'))
    · exact htexts htext hsource'
  · rintro id other site own ⟨text, htext, hextract⟩ hown hname
    rw [Function.update_apply] at htext
    split at htext
    · next hid =>
      subst hid
      cases htext
      exact hprogram.unique ⟨source, hsource, hextract⟩ hown hname
    · exact hapart ⟨text, htext, hextract⟩ hown hname

/-- An index that grows by files of the program holds it as before. -/
theorem holds_grows (h : Holds program index) (hgrows : Grows program index other) :
    Holds program other := by
  induction hgrows with
  | refl => exact h
  | tail _ hstep ih =>
    obtain ⟨text, new, free⟩ := hstep
    exact hprogram.holds_add ih text new free

/-! ## Files -/

/-- A dependency that its file does not define is located in a file of the program. -/
theorem locate_eq {file name : String} {source : Text} {site : CallSite}
    (hsource : program file = some source) (hsite : site ∈ CallSite.extract source (some file))
    (hname : name ∈ site.dependsOn) (hown : ∀ own, Contributes program file own → own.name ≠ name) :
    ∃ events target, locate host (CallSite.parseImports source) (some file) name =
      ⟨events, .ok target⟩ ∧ ∃ own, Contributes program target.1 own ∧ own.name = name := by
  rcases hprogram.bound hsource hsite hname with
    ⟨own, hmem, heq⟩ | ⟨specifier, target, himport, hresolve, htarget⟩
  · exact absurd heq (hown own hmem)
  · refine ⟨[.resolved specifier (some file)], target, ?_, htarget⟩
    unfold locate
    rw [himport]
    dsimp only
    rw [hresolve]

/-- A new file is surveyed without a fault, and needs files of the program. -/
theorem survey_eq (h : Holds program index) {file : String} {source : Text}
    (hsource : program file = some source) (new : file ∉ index.files) :
    ∃ events queue, survey host index file source =
      ⟨events, .ok (additionOf file source, queue)⟩ ∧
      ∀ target ∈ queue, ∃ text, program target.1 = some text := by
  have hlocate : ∀ name ∈ needs index.registry (CallSite.extract source (some file)),
      ∃ events target, locate host (CallSite.parseImports source) (some file) name =
        ⟨events, .ok target⟩ ∧ ∃ text, program target.1 = some text := by
    intro name hname
    obtain ⟨⟨site, hsite, hdep⟩, -, hothers⟩ := mem_needs.1 hname
    have hown : ∀ own, Contributes program file own → own.name ≠ name := by
      rintro own ⟨text, htext, hmem⟩
      obtain rfl : source = text := Option.some.inj (hsource.symm.trans htext)
      exact hothers own hmem
    obtain ⟨events, target, heq, own, ⟨text, htext, -⟩, -⟩ :=
      hprogram.locate_eq hsource hsite hdep hown
    exact ⟨events, target, heq, text, htext⟩
  obtain ⟨events, queue, hlocated, hqueue⟩ :=
    locateEach_eq (P := fun id => ∃ text, program id = some text) hlocate
  obtain ⟨events, hsurvey⟩ := survey_eq_of_free (hprogram.free h hsource new) hlocated
  exact ⟨events, queue, hsurvey, hqueue⟩

/-- Files of the program are drained without a fault. -/
theorem drain_ok (h : Holds program index) {stack : List host.File}
    (hstack : ∀ file ∈ stack, ∃ text, program file.1 = some text) :
    (drain host index stack).result = .ok () ∧ Grows program index (drain host index stack).index := by
  fun_induction drain host index stack with
  | case1 => exact ⟨rfl, .refl⟩
  | case2 index file stack hfile ih => exact ih h (List.forall_mem_cons.1 hstack).2
  | case3 index file stack hfile events fault hfault =>
    obtain ⟨⟨source, hsource⟩, -⟩ := List.forall_mem_cons.1 hstack
    obtain ⟨_, _, hsurvey, -⟩ := hprogram.survey_eq h hsource hfile
    rw [loadAndSurvey_of_load_eq_ok index (hprogram.loaded hsource), hsurvey] at hfault
    cases hfault
  | case4 index file stack hfile events addition queue hsome ih =>
    obtain ⟨⟨source, hsource⟩, hstack⟩ := List.forall_mem_cons.1 hstack
    obtain ⟨_, targets, hsurvey, htargets⟩ := hprogram.survey_eq h hsource hfile
    rw [loadAndSurvey_of_load_eq_ok index (hprogram.loaded hsource), hsurvey] at hsome
    cases hsome
    have hfree := hprogram.free h hsource hfile
    obtain ⟨hok, hgrows⟩ := ih (hprogram.holds_add h hsource hfile hfree) fun target htarget => by
      rcases List.mem_append.1 htarget with htarget | htarget
      · exact htargets target (List.mem_reverse.1 htarget)
      · exact hstack target htarget
    exact ⟨hok, Relation.ReflTransGen.head (.intro hsource hfile hfree) hgrows⟩

/-! ## Names -/

/-- A dependency of a definition of an indexed file is bound without a fault. -/
theorem bindName_ok (h : Holds program index) {file name : String} {site : CallSite}
    (hfile : file ∈ index.files) (hsite : Contributes program file site)
    (hname : name ∈ site.dependsOn) (hnew : index.registry.contains name ≠ true) :
    (bindName host index site.file name).result = .ok () ∧
      Grows program index (bindName host index site.file name).index ∧
      (bindName host index site.file name).index.registry.contains name = true := by
  have ⟨source, hsource, hextract⟩ := hsite
  have hothers : ∀ own, Contributes program file own → own.name ≠ name := by
    rintro own hown rfl
    exact hnew (Table.contains_iff.2 ⟨own, h.registered hfile hown⟩)
  obtain ⟨events, target, hlocate, definition, hdefinition, rfl⟩ :=
    hprogram.locate_eq hsource hextract hname hothers
  have ⟨text, htext, _⟩ := hdefinition
  have htarget : ∀ file ∈ [target], ∃ text, program file.1 = some text :=
    List.forall_mem_singleton.2 ⟨text, htext⟩
  obtain ⟨hok, hgrows⟩ := hprogram.drain_ok h htarget
  have hdrained := hprogram.holds_grows h hgrows
  -- the file that the name is imported from is entered, so its definitions are registered
  have hcontains : (drain host index [target]).index.registry.contains definition.name = true :=
    Table.contains_iff.2
      ⟨definition, hdrained.registered (mem_files_drain hok List.mem_cons_self) hdefinition⟩
  have hfound : bindName host index site.file definition.name =
      (Outcome.done (drain host index [target]).index).after
        (events ++ (drain host index [target]).events) := by
    unfold bindName
    rw [CallSite.file_of_mem_extract hextract, Option.getD_some, h.importsOf hfile hsource, hlocate]
    dsimp only
    rw [Outcome.andThen_of_ok hok, if_pos hcontains]
    simp [Outcome.after]
  rw [hfound]
  exact ⟨rfl, hgrows, hcontains⟩

/-- The dependencies of a definition of an indexed file are bound without a fault. -/
theorem bindEach_ok (h : Holds program index) {file : String} {site : CallSite}
    {names : List String} (hfile : file ∈ index.files) (hsite : Contributes program file site)
    (hnames : ∀ name ∈ names, name ∈ site.dependsOn) :
    (bindEach host index site.file names).result = .ok () ∧
      Grows program index (bindEach host index site.file names).index ∧
      ∀ name ∈ names,
        (bindEach host index site.file names).index.registry.contains name = true := by
  induction names generalizing index with
  | nil =>
    unfold bindEach
    exact ⟨rfl, .refl, List.forall_mem_nil _⟩
  | cons name names ih =>
    obtain ⟨hname, hnames⟩ := List.forall_mem_cons.1 hnames
    unfold bindEach
    split
    · next hknown =>
      obtain ⟨hok, hgrows, hbound⟩ := ih h hfile hnames
      refine ⟨hok, hgrows, List.forall_mem_cons.2 ⟨?_, hbound⟩⟩
      exact hgrows.contains_registry hknown
    · next hnew =>
      obtain ⟨hok, hgrows, hbound⟩ := hprogram.bindName_ok h hfile hsite hname hnew
      obtain ⟨hoks, hgrowss, hbounds⟩ :=
        ih (hprogram.holds_grows h hgrows) (hgrows.files hfile) hnames
      rw [Outcome.andThen_of_ok hok]
      refine ⟨hoks, hgrows.trans hgrowss, List.forall_mem_cons.2 ⟨?_, hbounds⟩⟩
      exact hgrowss.contains_registry hbound

/-- The walk through registered names of the program finds no fault. -/
theorem close_ok (h : Holds program index) {visited : NameSet} {stack : List String}
    (hstack : ∀ name ∈ stack, index.registry.contains name = true ∧
      ∃ file own, Contributes program file own ∧ own.name = name) :
    (close host index visited stack).result = .ok () ∧
      Grows program index (close host index visited stack).index := by
  fun_induction close host index visited stack with
  | case1 => exact ⟨rfl, .refl⟩
  | case2 index visited name stack hname ih => exact ih h (List.forall_mem_cons.1 hstack).2
  | case3 index visited name stack hname hsite =>
    obtain ⟨site, hsome⟩ := Table.contains_iff.1 (List.forall_mem_cons.1 hstack).1.1
    cases hsite.symm.trans hsome
  | case4 index visited name stack hname site hsite bound events fault hbound =>
    obtain ⟨file, own, hown, rfl⟩ := (List.forall_mem_cons.1 hstack).1.2
    obtain ⟨hfile, hsite⟩ := h.contributes hown hsite
    have hok := (hprogram.bindEach_ok h hfile hsite fun _ hdep => hdep).1
    rw [hbound] at hok
    cases hok
  | case5 index visited name stack hname site hsite bound events _ hbound ih =>
    obtain ⟨⟨-, file, own, hown, rfl⟩, hstack'⟩ := List.forall_mem_cons.1 hstack
    obtain ⟨hfile, hsite⟩ := h.contributes hown hsite
    obtain ⟨-, hgrows, hdeps⟩ := hprogram.bindEach_ok h hfile hsite fun _ hdep => hdep
    rw [hbound] at hgrows hdeps
    obtain ⟨hok, hgrowss⟩ := ih (hprogram.holds_grows h hgrows) fun next hnext => by
      rcases List.mem_append.1 hnext with hnext | hnext
      · have hnext := List.mem_reverse.1 hnext
        exact ⟨hdeps next hnext, hprogram.exists_contributes hsite hnext⟩
      · exact (hstack' next hnext).imp_left hgrows.contains_registry
    exact ⟨hok, hgrows.trans hgrowss⟩

/-! ## Indexing -/

theorem indexNew_grows (h : Holds program index) {file : String} {source : Text}
    (hsource : program file = some source) :
    (indexNew host index file source).result = .ok () ∧
      Grows program index (indexNew host index file source).index := by
  unfold indexNew
  split
  · exact ⟨rfl, .refl⟩
  · next hfile =>
    obtain ⟨events, queue, hsurvey, hqueue⟩ := hprogram.survey_eq h hsource hfile
    have hfree := hprogram.free h hsource hfile
    rw [hsurvey]
    obtain ⟨hok, hgrows⟩ := hprogram.drain_ok (hprogram.holds_add h hsource hfile hfree)
      fun target htarget => hqueue target (List.mem_reverse.1 htarget)
    exact ⟨hok, Relation.ReflTransGen.head (.intro hsource hfile hfree) hgrows⟩

/-- A file of a well-formed program is indexed without a fault, and only files of the program are
entered, whatever else the index holds. -/
theorem indexFile_grows (h : Holds program index) {file : String} {source : Text}
    (hsource : program file = some source) :
    (indexFile host index file source).result = .ok () ∧
      Grows program index (indexFile host index file source).index := by
  obtain ⟨hok, hgrows⟩ := hprogram.indexNew_grows h hsource
  have hfile := mem_files_indexNew hok
  have hholds := hprogram.holds_grows h hgrows
  unfold indexFile
  rw [h.refresh hsource, Outcome.andThen_of_ok hok]
  refine (hprogram.close_ok hholds fun name hname => ?_).imp_right hgrows.trans
  obtain ⟨own, hown, rfl⟩ := (hholds.mem_definedIn hfile hsource).1 (List.mem_reverse.1 hname)
  exact ⟨Table.contains_iff.2 ⟨own, hholds.registered hfile hown⟩, file, own, hown, rfl⟩

/-- An index that is fit for a well-formed program stays so when a file of the program is indexed,
which finds no fault. -/
theorem indexFile_ok (h : Fits program index) {file : String} {source : Text}
    (hsource : program file = some source) :
    (indexFile host index file source).result = .ok () ∧
      Fits program (indexFile host index file source).index :=
  (hprogram.indexFile_grows (hprogram.holds h) hsource).imp_right h.grows

end WellFormed

/-! ## A program of two files -/

section TwoFiles

variable {file other : String} {code otherCode : Text} {fragment : CallSite}

/-- The program of two files. -/
def twoFiles (file other : String) (code otherCode : Text) : Program := fun id =>
  if id = file then some code else if id = other then some otherCode else none

theorem twoFiles_eq_some (hne : other ≠ file) {id : String} {text : Text} :
    twoFiles file other code otherCode id = some text ↔
      id = file ∧ text = code ∨ id = other ∧ text = otherCode := by
  unfold twoFiles
  grind

/-- The definitions of a file depend on nothing but the fragment of another file, from which the file
imports it. -/
structure Uses (host : Host ε) (file other : String) (code otherCode : Text) (fragment : CallSite) :
    Prop where
  load_eq : host.load file = .ok code
  load_other : host.load other = .ok otherCode
  extract_other : CallSite.extract otherCode (some other) = [fragment]
  needs_nothing : ∀ name, name ∉ fragment.dependsOn
  distinct : ((CallSite.extract code (some file)).map CallSite.name).Nodup
  others : ∀ site ∈ CallSite.extract code (some file), site.name ≠ fragment.name
  needs : ∀ site ∈ CallSite.extract code (some file), ∀ name ∈ site.dependsOn,
    name = fragment.name
  imported : ∃ specifier target,
    (CallSite.parseImports code).get? fragment.name = some specifier ∧
      host.resolve specifier (some file) = .ok (some target) ∧ target.1 = other

namespace Uses

variable (h : Uses host file other code otherCode fragment)

include h

theorem ne : other ≠ file := by
  rintro rfl
  cases h.load_eq.symm.trans h.load_other
  exact h.others fragment (h.extract_other ▸ List.mem_singleton_self _) rfl

theorem contributes_iff {id : String} {site : CallSite} :
    Contributes (twoFiles file other code otherCode) id site ↔
      id = file ∧ site ∈ CallSite.extract code (some file) ∨ id = other ∧ site = fragment := by
  unfold Contributes
  constructor
  · rintro ⟨text, htext, hsite⟩
    rcases (twoFiles_eq_some h.ne).1 htext with ⟨rfl, rfl⟩ | ⟨rfl, rfl⟩
    · exact .inl ⟨rfl, hsite⟩
    · rw [h.extract_other] at hsite
      exact .inr ⟨rfl, List.mem_singleton.1 hsite⟩
  · rintro (⟨rfl, hsite⟩ | ⟨rfl, rfl⟩)
    · exact ⟨code, (twoFiles_eq_some h.ne).2 (.inl ⟨rfl, rfl⟩), hsite⟩
    · refine ⟨otherCode, (twoFiles_eq_some h.ne).2 (.inr ⟨rfl, rfl⟩), ?_⟩
      rw [h.extract_other]
      exact List.mem_singleton_self _

theorem wellFormed : WellFormed (twoFiles file other code otherCode) host where
  loaded htext := by
    rcases (twoFiles_eq_some h.ne).1 htext with ⟨rfl, rfl⟩ | ⟨rfl, rfl⟩
    · exact h.load_eq
    · exact h.load_other
  distinct htext := by
    rcases (twoFiles_eq_some h.ne).1 htext with ⟨rfl, rfl⟩ | ⟨rfl, rfl⟩
    · exact h.distinct
    · rw [h.extract_other]
      exact List.nodup_singleton _
  unique hsite hsite' hname := by
    rcases h.contributes_iff.1 hsite with ⟨rfl, hown⟩ | ⟨rfl, rfl⟩ <;>
      rcases h.contributes_iff.1 hsite' with ⟨rfl, hown'⟩ | ⟨rfl, rfl⟩
    · rfl
    · exact absurd hname (h.others _ hown)
    · exact absurd hname.symm (h.others _ hown')
    · rfl
  bound {id text site name} htext hsite hname := by
    rcases h.contributes_iff.1 ⟨text, htext, hsite⟩ with ⟨rfl, hown⟩ | ⟨rfl, rfl⟩
    · obtain rfl := h.needs site hown name hname
      obtain ⟨specifier, target, himport, hresolve, rfl⟩ := h.imported
      refine .inr ⟨specifier, target, ?_, hresolve, fragment,
        h.contributes_iff.2 (.inr ⟨rfl, rfl⟩), rfl⟩
      rcases (twoFiles_eq_some h.ne).1 htext with ⟨-, rfl⟩ | ⟨heq, -⟩
      · exact himport
      · exact absurd heq.symm h.ne
    · exact absurd hname (h.needs_nothing name)

end Uses

end TwoFiles

/-- A file with a query. The fragment that it depends on is imported. -/
@[irreducible] def queryFile : Text :=
  "import { Names } from 'names.ts';
const Heroes = graphql(`query Heroes { heroes { ...Names } }`, [Names]);".toList

/-- A file with a fragment. -/
@[irreducible] def fragmentFile : Text :=
  "export const Names = graphql(`fragment Names on Hero { name }`);".toList

/-- A query and the fragment that it imports. -/
def heroes : Table String Text := .ofList [("query.ts", queryFile), ("names.ts", fragmentFile)]

/-- The query. -/
def heroesQuery : CallSite where
  name := "Heroes"
  source := "query Heroes { heroes { ...Names } }"
  span := ⟨40, 105⟩
  dependsOn := .ofList ["Names"]
  file := some "query.ts"

/-- The fragment. -/
def namesFragment : CallSite where
  name := "Names"
  source := "fragment Names on Hero { name }"
  span := ⟨13, 63⟩
  dependsOn := .empty
  file := some "names.ts"

theorem extract_queryFile : CallSite.extract queryFile (some "query.ts") = [heroesQuery] := by
  decide +kernel

theorem extract_fragmentFile :
    CallSite.extract fragmentFile (some "names.ts") = [namesFragment] := by
  decide +kernel

theorem get?_heroes :
    heroes.get? = twoFiles "query.ts" "names.ts" queryFile fragmentFile := by
  funext file
  show ((Table.empty.insert "query.ts" queryFile).insert "names.ts" fragmentFile).get? file = _
  rw [Table.get?_insert, Table.get?_insert, Table.get?_empty]
  unfold twoFiles
  grind

theorem get?_heroes_eq_some {file : String} {text : Text} : heroes.get? file = some text ↔
    file = "query.ts" ∧ text = queryFile ∨ file = "names.ts" ∧ text = fragmentFile := by
  rw [get?_heroes]
  exact twoFiles_eq_some (by decide)

/-- The query uses the fragment. -/
theorem uses_heroes : Uses (Host.ofTable heroes .empty id) "query.ts" "names.ts" queryFile
    fragmentFile namesFragment where
  load_eq := by
    unfold Host.ofTable
    dsimp only
    rw [get?_heroes_eq_some.2 (.inl ⟨rfl, rfl⟩)]
  load_other := by
    unfold Host.ofTable
    dsimp only
    rw [get?_heroes_eq_some.2 (.inr ⟨rfl, rfl⟩)]
  extract_other := extract_fragmentFile
  needs_nothing := NameSet.not_mem_empty
  distinct := by simp [extract_queryFile]
  others := by
    rw [extract_queryFile]
    decide
  needs := by
    rw [extract_queryFile]
    intro site hsite name hname
    rw [List.mem_singleton.1 hsite] at hname
    simpa [heroesQuery, namesFragment] using hname
  imported := ⟨"names.ts", ⟨"names.ts", by decide⟩, by decide +kernel, rfl, rfl⟩

theorem contributes_heroes {file : String} {site : CallSite} :
    Contributes heroes.get? file site ↔
      file = "query.ts" ∧ site = heroesQuery ∨ file = "names.ts" ∧ site = namesFragment := by
  rw [get?_heroes, uses_heroes.contributes_iff, extract_queryFile, List.mem_singleton]

/-- The query and its fragment are a well-formed program of the files held in memory. -/
theorem wellFormed_heroes : WellFormed heroes.get? (Host.ofTable heroes .empty id) := by
  rw [get?_heroes]
  exact uses_heroes.wellFormed

end PersistedQueries.Index
