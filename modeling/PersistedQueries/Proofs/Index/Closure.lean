import PersistedQueries.Proofs.Index.History
import PersistedQueries.Proofs.Persist.Reach

/-!
# What a call that succeeds has entered

A call for a file drains a stack of files and then walks through the names that the file reaches.
The walk leaves a closed set of names, whatever draining has left out: a name is visited when it
is registered, and what its definition depends on is bound before it is visited.

- `closed_of_close`: the names that a walk visits are closed in the registry that it leaves.
- `close_eq_done`: a walk through closed names does nothing.
- `contains_of_reaches`, `Uses.get?_indexFile`: so what the file depends on is registered.
- `indexFile_complete`: a call that succeeds leaves the file indexed with its text, its definitions
  registered, and all that they reach; the same call does nothing after it.
-/

namespace PersistedQueries.Index

variable {ε : Type} {host : Host ε} {index : Index}

/-- Growth enters other files, so an indexed file lists the names that it did. -/
theorem Grows.mem_definedIn {texts : String → Option Text} {later : Index} {file name : String}
    (hgrows : Grows texts index later) (hfile : file ∈ index.files) :
    name ∈ later.definedIn file ↔ name ∈ index.definedIn file := by
  induction hgrows with
  | refl => exact Iff.rfl
  | tail hgrows hstep ih =>
    obtain ⟨-, new, -⟩ := hstep
    rw [mem_definedIn_add, ih, or_iff_right]
    rintro ⟨rfl, -⟩
    exact new (Grows.files hgrows hfile)

/-! ## The walk through the registry -/

/-- Each visited name is registered, and what its definition depends on is visited or waits. -/
def Frontier (index : Index) (visited : NameSet) (stack : List String) : Prop :=
  ∀ name ∈ visited, ∃ site, index.registry.get? name = some site ∧
    ∀ next ∈ site.dependsOn, next ∈ visited ∨ next ∈ stack

theorem Frontier.pop {visited : NameSet} {stack : List String} {name : String}
    (h : Frontier index visited (name :: stack)) (hname : name ∈ visited) :
    Frontier index visited stack := by
  intro own hown
  obtain ⟨site, hsite, hnext⟩ := h own hown
  refine ⟨site, hsite, fun next hdep => (hnext next hdep).elim .inl fun hwaits => ?_⟩
  rcases List.mem_cons.1 hwaits with rfl | hwaits
  · exact .inl hname
  · exact .inr hwaits

theorem Frontier.visit {texts : String → Option Text} {later : Index} {visited : NameSet}
    {stack : List String} {name : String} {site : CallSite}
    (h : Frontier index visited (name :: stack)) (hgrows : Grows texts index later)
    (hsite : index.registry.get? name = some site) :
    Frontier later (visited.insert name) (site.dependsOn.names.reverse ++ stack) := by
  intro own hown
  rcases NameSet.mem_insert.1 hown with rfl | hown
  · refine ⟨site, hgrows.get?_registry hsite, fun next hdep => .inr ?_⟩
    exact List.mem_append_left _ (List.mem_reverse.2 hdep)
  · obtain ⟨other, hother, hnext⟩ := h own hown
    refine ⟨other, hgrows.get?_registry hother, fun next hdep => ?_⟩
    rcases hnext next hdep with hvisited | hwaits
    · exact .inl (NameSet.mem_insert.2 (.inr hvisited))
    · rcases List.mem_cons.1 hwaits with rfl | hwaits
      · exact .inl (NameSet.mem_insert.2 (.inl rfl))
      · exact .inr (List.mem_append_right _ hwaits)

/-- A walk that succeeds leaves a closed set of names, the visited ones and those that waited among
them. -/
theorem closed_of_close {visited : NameSet} {stack : List String}
    (hfrontier : Frontier index visited stack)
    (hok : (close host index visited stack).result = .ok ()) :
    ∃ P, Closed (close host index visited stack).index.registry P ∧
      (∀ name ∈ visited, P name) ∧ ∀ name ∈ stack, P name := by
  fun_induction close host index visited stack with
  | case1 index visited =>
    -- nothing waits any more, so what the visited names depend on is visited
    refine ⟨(· ∈ visited), fun name hname => ?_, fun name hname => hname,
      List.forall_mem_nil _⟩
    obtain ⟨site, hsite, hnext⟩ := hfrontier name hname
    exact ⟨site, hsite, fun next hdep => (hnext next hdep).resolve_right List.not_mem_nil⟩
  | case2 index visited name stack hname ih =>
    obtain ⟨P, hclosed, hvisited, hstack⟩ := ih (hfrontier.pop hname) hok
    exact ⟨P, hclosed, hvisited, List.forall_mem_cons.2 ⟨hvisited name hname, hstack⟩⟩
  | case3 => cases hok
  | case4 => cases hok
  | case5 index visited name stack hname site hsite bound events _ hbound ih =>
    have hgrows := bindEach_grows host index site.file site.dependsOn.names
    rw [hbound] at hgrows
    obtain ⟨P, hclosed, hvisited, hstack⟩ := ih (hfrontier.visit hgrows hsite) hok
    refine ⟨P, hclosed, fun own hown => ?_, List.forall_mem_cons.2 ⟨?_, fun own hown => ?_⟩⟩
    · exact hvisited own (NameSet.mem_insert.2 (.inr hown))
    · exact hvisited name (NameSet.mem_insert.2 (.inl rfl))
    · exact hstack own (List.mem_append_right _ hown)

/-! ## Nothing is left to do -/

theorem bindEach_eq_done {importer : Option String} {names : List String}
    (h : ∀ name ∈ names, index.registry.contains name = true) :
    bindEach host index importer names = .done index := by
  induction names with
  | nil => rw [bindEach]
  | cons name names ih =>
    obtain ⟨hname, hnames⟩ := List.forall_mem_cons.1 h
    rw [bindEach, if_pos hname, ih hnames]

/-- What a definition of a closed set depends on is bound, and in the set. -/
theorem bindEach_eq_done_of_closed (host : Host ε) {P : String → Prop} {name : String}
    {site : CallSite} (hclosed : Closed index.registry P) (hname : P name)
    (hsite : index.registry.get? name = some site) :
    bindEach host index site.file site.dependsOn.names = .done index ∧
      ∀ next ∈ site.dependsOn, P next := by
  obtain ⟨own, hown, hnext⟩ := hclosed name hname
  obtain rfl : site = own := Option.some.inj (hsite.symm.trans hown)
  refine ⟨bindEach_eq_done fun next hdep => ?_, hnext⟩
  obtain ⟨via, hvia, -⟩ := hclosed next (hnext next hdep)
  exact Table.contains_iff.2 ⟨via, hvia⟩

/-- A walk through closed names does nothing. -/
theorem close_eq_done {visited : NameSet} {stack : List String} {P : String → Prop}
    (hclosed : Closed index.registry P) (hstack : ∀ name ∈ stack, P name) :
    close host index visited stack = .done index := by
  fun_induction close host index visited stack with
  | case1 => rfl
  | case2 index visited name stack hname ih =>
    exact ih hclosed (List.forall_mem_cons.1 hstack).2
  | case3 index visited name stack hname hsite =>
    obtain ⟨site, hsome, -⟩ := hclosed name (List.forall_mem_cons.1 hstack).1
    cases hsite.symm.trans hsome
  | case4 index visited name stack hname site hsite bound events fault hbound =>
    have hdone := bindEach_eq_done_of_closed host hclosed (List.forall_mem_cons.1 hstack).1 hsite
    cases hdone.1.symm.trans hbound
  | case5 index visited name stack hname site hsite bound events _ hbound ih =>
    obtain ⟨hname, hstack⟩ := List.forall_mem_cons.1 hstack
    obtain ⟨hdone, hnext⟩ := bindEach_eq_done_of_closed host hclosed hname hsite
    obtain ⟨rfl, rfl, -⟩ := Outcome.mk.inj (hdone.symm.trans hbound)
    rw [ih hclosed]
    · rfl
    · intro next hmem
      rcases List.mem_append.1 hmem with hdep | hmem
      · exact hnext next (List.mem_reverse.1 hdep)
      · exact hstack next hmem

/-- A call for a file that is indexed with its text, and whose names are closed, does nothing. -/
theorem indexFile_eq_done {file : String} {source : Text} {P : String → Prop}
    (hfile : file ∈ index.files) (hdigest : index.digests.get? file = some (digest source))
    (hclosed : Closed index.registry P) (hnames : ∀ name ∈ index.definedIn file, P name) :
    indexFile host index file source = .done index := by
  have hrefresh : index.refresh file source = index := if_neg fun h => h.2 hdigest
  have hnew : indexNew host index file source = .done index := if_pos hfile
  have hclose : close host index .empty (index.definedIn file).names.reverse = .done index :=
    close_eq_done hclosed fun name hname => hnames name (List.mem_reverse.1 hname)
  rw [indexFile, hrefresh, hnew]
  show (close host index .empty (index.definedIn file).names.reverse).after [] = .done index
  rw [hclose]
  rfl

/-! ## A call that succeeds -/

/-- A call that succeeds has entered all that the names of the file depend on. -/
theorem closed_of_indexFile {file : String} {source : Text}
    (hok : (indexFile host index file source).result = .ok ()) :
    ∃ P, Closed (indexFile host index file source).index.registry P ∧
      ∀ name ∈ (indexFile host index file source).index.definedIn file, P name := by
  obtain ⟨hnew, hclose⟩ := Outcome.andThen_eq_ok hok
  have hfile := mem_files_indexNew hnew
  unfold indexFile
  rw [Outcome.andThen_of_ok hnew, Outcome.index_after]
  generalize (indexNew host (index.refresh file source) file source).index = indexed
    at hclose hfile ⊢
  have hgrows := close_grows host indexed .empty (indexed.definedIn file).names.reverse
  obtain ⟨P, hclosed, -, hnames⟩ := closed_of_close
    (fun name hname => absurd hname (NameSet.not_mem_empty name)) hclose
  refine ⟨P, hclosed, fun name hname => ?_⟩
  exact hnames name (List.mem_reverse.2 ((hgrows.mem_definedIn hfile).1 hname))

/-- Every name is registered that a definition of the file reaches. -/
theorem contains_of_reaches {file name : String} {source : Text} {site : CallSite}
    (hok : (indexFile host index file source).result = .ok ())
    (hsite : (indexFile host index file source).index.registry.get? site.name = some site)
    (hlisted : site.name ∈ (indexFile host index file source).index.definedIn file)
    (hname : Reaches (indexFile host index file source).index.registry site name) :
    (indexFile host index file source).index.registry.contains name = true := by
  obtain ⟨P, hclosed, hnames⟩ := closed_of_indexFile hok
  obtain ⟨own, hown, hnext⟩ := hclosed site.name (hnames site.name hlisted)
  obtain rfl : site = own := Option.some.inj (hsite.symm.trans hown)
  obtain ⟨via, hvia, -⟩ := hclosed name (hclosed.of_reaches hnext hname)
  exact Table.contains_iff.2 ⟨via, hvia⟩

/-- A file that uses a fragment finds it. -/
theorem Uses.get?_indexFile {file other name : String} {code otherCode : Text}
    {fragment site : CallSite} (h : Uses host file other code otherCode fragment)
    (hindex : Holds (twoFiles file other code otherCode) index)
    (hsite : site ∈ CallSite.extract code (some file)) (hname : name ∈ site.dependsOn) :
    (indexFile host index file code).index.registry.get? name = some fragment := by
  obtain rfl := h.needs site hsite name hname
  have hsource : twoFiles file other code otherCode file = some code := if_pos rfl
  obtain ⟨hok, hgrows⟩ := h.wellFormed.indexFile_grows hindex hsource
  have hholds := h.wellFormed.holds_grows hindex hgrows
  have hown := h.contributes_iff.2 (.inl ⟨rfl, hsite⟩)
  have hfile := mem_files_indexFile hok
  have hcontains := contains_of_reaches hok (hholds.registered hfile hown)
    ((hholds.mem_definedIn hfile hsource).2 ⟨site, hown, rfl⟩) (.direct hname)
  obtain ⟨known, hknown⟩ := Table.contains_iff.1 hcontains
  rw [hknown, hholds.get?_eq (h.contributes_iff.2 (.inr ⟨rfl, rfl⟩)) hknown]

/-- After a call that succeeds the file has the text of the call. Where the file was indexed before
and its digest is that of the text, this takes that the digest stands for one text only. -/
theorem text_of_indexFile {state : Traced} (h : Sound state.texts state.index) {file : String}
    {source : Text} (hcollision : ∀ text, state.texts file = some text →
      digest text = digest source → text = source)
    (hfile : file ∈ (indexFile host state.index file source).index.files) :
    ((Step.index host file source).apply state).texts file = some source := by
  show (if file ∈ (state.index.refresh file source).files then state.texts file
    else if file ∈ (indexFile host state.index file source).index.files then
      callTexts host file source file else none) = some source
  split
  · next hold =>
    unfold refresh at hold
    split at hold
    · exact absurd rfl (mem_files_invalidate.1 hold).2
    · next hfresh =>
      obtain ⟨text, htext⟩ := h.indexed.1 hold
      have hdigest := h.digests file
      rw [not_not.1 fun hstale => hfresh ⟨hold, hstale⟩, htext, Option.map_some,
        Option.some.injEq] at hdigest
      rw [htext, hcollision text htext hdigest.symm]
  · exact callTexts_self host file source

/-- A call that succeeds, after any history, leaves the file indexed with the digest of its text,
every definition of the text registered for the file, and every name registered that one of them
reaches, so each of them can be merged. The same call does nothing after it. The digest that was
known for the file must not stand for another text. -/
theorem indexFile_complete (steps : List (Step ε)) (host : Host ε) (file : String) (source : Text)
    (hcollision : ∀ text, (run steps).texts file = some text →
      digest text = digest source → text = source)
    (hok : (indexFile host (run steps).index file source).result = .ok ()) :
    let later := (indexFile host (run steps).index file source).index
    file ∈ later.files ∧ later.digests.get? file = some (digest source) ∧
    (∀ site ∈ CallSite.extract source (some file),
      site.file = some file ∧ later.registry.get? site.name = some site ∧
      (∀ name, Reaches later.registry site name → later.registry.contains name = true) ∧
      ∃ document, merge later.registry site = .ok document) ∧
    indexFile host later file source = .done later := by
  intro later
  have hfile := mem_files_indexFile hok
  obtain ⟨P, hclosed, hnames⟩ := closed_of_indexFile hok
  have hsound := (run_sound steps).apply (.index host file source)
  have htext := text_of_indexFile (run_sound steps) hcollision hfile
  have hdigest : later.digests.get? file = some (digest source) := by
    have hdigests := hsound.digests file
    rw [htext] at hdigests
    exact hdigests
  refine ⟨hfile, hdigest, fun site hsite => ?_, indexFile_eq_done hfile hdigest hclosed hnames⟩
  have hown := CallSite.file_of_mem_extract hsite
  have hregistered : later.registry.get? site.name = some site :=
    hsound.registered ⟨source, htext, hsite⟩
  have hlisted : site.name ∈ later.definedIn file := hsound.listed.2 ⟨site, hregistered, hown⟩
  have hreaches : ∀ name, Reaches later.registry site name →
      later.registry.contains name = true :=
    fun name => contains_of_reaches hok hregistered hlisted
  exact ⟨hown, hregistered, hreaches, exists_merge hreaches⟩

/-- The query is indexed after the file of its fragment. -/
theorem indexFile_complete_query :
    let host : Host String := .ofTable heroes .empty id
    let steps : List (Step String) := [.index host "names.ts" fragmentFile]
    let later := (indexFile host (run steps).index "query.ts" queryFile).index
    (∀ text, (run steps).texts "query.ts" = some text → digest text = digest queryFile →
      text = queryFile) ∧
    (indexFile host (run steps).index "query.ts" queryFile).result = .ok () ∧
    (∃ document, merge later.registry heroesQuery = .ok document) ∧
    indexFile host later "query.ts" queryFile = .done later := by
  intro host steps later
  have hquery : heroes.get? "query.ts" = some queryFile := get?_heroes_eq_some.2 (.inl ⟨rfl, rfl⟩)
  have hnames : heroes.get? "names.ts" = some fragmentFile :=
    get?_heroes_eq_some.2 (.inr ⟨rfl, rfl⟩)
  have hcollision : ∀ text, (run steps).texts "query.ts" = some text →
      digest text = digest queryFile → text = queryFile := by
    intro text htext _
    have hcarry : carry (fun _ => none) (callTexts host "names.ts" fragmentFile)
      (Index.empty.refresh "names.ts" fragmentFile) (run steps).index "query.ts" = some text :=
      htext
    rcases carry_eq_some hcarry with hnone | htext
    · cases hnone
    · rw [callTexts_of_ne host fragmentFile (by decide), hostTexts_eq_some,
        wellFormed_heroes.loaded hquery] at htext
      exact (Except.ok.inj htext).symm
  have hfits : Fits heroes.get? (run steps).index :=
    (wellFormed_heroes.indexFile_ok (Fits.empty _) hnames).2
  have hok := (wellFormed_heroes.indexFile_ok hfits hquery).1
  obtain ⟨-, -, hsites, hagain⟩ :=
    indexFile_complete steps host "query.ts" queryFile hcollision hok
  refine ⟨hcollision, hok, ?_, hagain⟩
  refine (hsites heroesQuery ?_).2.2.2
  rw [extract_queryFile]
  exact List.mem_singleton_self heroesQuery

end PersistedQueries.Index
