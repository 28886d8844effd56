import Mathlib.Data.List.Sort
import PersistedQueries.Proofs.Index.Binding

/-!
# Indexing files in any order

Which files wait while a file is indexed depends on the names that are registered by then, so two
orders of the same files take different ways. They come to the same index: it holds the files that
are reached from the given ones, with the texts that they have.

- `Imports`, `Leads`, `Reachable`: a file leads to those that it imports its dependencies from.
- `Covered`: what the indexed files lead to is indexed or waits.
- `drain_covered`: draining a stack leaves nothing that waits, so the registered names are closed and
  the walk through them does nothing (`indexFile_covered`).
- `Program.restrict`: the files of a program that are reached are a program of their own, which is
  why no others are entered.
- `indexEach`: several files are indexed one after the other.
- `indexEach_exact`: the index holds the files that are reached, and nothing else.
- `indexEach_perm`: so the order makes no difference.
-/

namespace PersistedQueries

/-- Two sets with the same members are the same. -/
theorem NameSet.eq_of_mem_iff {set other : NameSet} (h : ∀ name, name ∈ set ↔ name ∈ other) :
    set = other := by
  cases set with | mk names ascending =>
  cases other with | mk names' ascending' =>
  congr
  exact ascending.eq_of_mem_iff ascending' h

namespace Index

variable {ε : Type} {host : Host ε} {index later : Index} {program : Program}
  {file target : String} {source : Text} {texts : String → Option Text}

/-- Indices that hold the same texts are the same, apart from the order of their entries. -/
theorem Exact.agree (h : Exact texts index) (h' : Exact texts later) :
    index.files = later.files ∧
      (∀ name, index.registry.get? name = later.registry.get? name) ∧
      (∀ file, index.imports.get? file = later.imports.get? file) ∧
      ∀ file, index.digests.get? file = later.digests.get? file := by
  have hkept {index later : Index} (h : Exact texts index) (h' : Exact texts later) {name : String}
      {site : CallSite} (hsite : index.registry.get? name = some site) :
      later.registry.get? name = some site := by
    obtain ⟨file, hown⟩ := h.owned hsite
    exact h.named hsite ▸ h'.registered hown
  refine ⟨NameSet.eq_of_mem_iff fun file => h.indexed.trans h'.indexed.symm, fun name => ?_,
    fun file => (h.imports file).trans (h'.imports file).symm,
    fun file => (h.digests file).trans (h'.digests file).symm⟩
  exact Option.ext fun site => ⟨hkept h h', hkept h' h⟩

/-! ## Files that lead to each other -/

/-- A file imports a name from another one: a definition of the file depends on the name, the file
does not define it, and the specifier of its import denotes the other file. -/
def Imports (program : Program) (host : Host ε) (file name target : String) : Prop :=
  ∃ text site specifier found, program file = some text ∧
    site ∈ CallSite.extract text (some file) ∧ name ∈ site.dependsOn ∧
    (∀ own ∈ CallSite.extract text (some file), own.name ≠ name) ∧
    (CallSite.parseImports text).get? name = some specifier ∧
    host.resolve specifier (some file) = .ok (some found) ∧ found.1 = target

/-- A file leads to those that it imports names from. -/
def Leads (program : Program) (host : Host ε) (file target : String) : Prop :=
  ∃ name, Imports program host file name target

/-- A file is reached from some files through dependencies that their users do not define. -/
def Reachable (program : Program) (host : Host ε) (roots : List String) (file : String) : Prop :=
  ∃ root ∈ roots, Relation.ReflTransGen (Leads program host) root file

theorem Reachable.step {roots : List String} (h : Reachable program host roots file)
    (hleads : Leads program host file target) : Reachable program host roots target := by
  obtain ⟨root, hroot, hpath⟩ := h
  exact ⟨root, hroot, hpath.tail hleads⟩

/-- What the indexed files lead to is indexed or waits. -/
def Covered (program : Program) (host : Host ε) (index : Index) (stack : List host.File) : Prop :=
  ∀ file ∈ index.files, ∀ target, Leads program host file target →
    target ∈ index.files ∨ ∃ waiting ∈ stack, waiting.1 = target

theorem covered_empty (program : Program) (host : Host ε) : Covered program host .empty [] :=
  fun file hfile => absurd hfile (NameSet.not_mem_empty file)

theorem Covered.pop {first : host.File} {stack : List host.File}
    (h : Covered program host index (first :: stack)) (hfirst : first.1 ∈ index.files) :
    Covered program host index stack := by
  intro file hfile target hleads
  rcases h file hfile target hleads with hknown | ⟨waiting, hwaiting, rfl⟩
  · exact .inl hknown
  · rcases List.mem_cons.1 hwaiting with rfl | hwaiting
    · exact .inl hfirst
    · exact .inr ⟨waiting, hwaiting, rfl⟩

namespace WellFormed

variable (hprogram : WellFormed program host)

include hprogram

/-- A name is imported from a file that defines it. -/
theorem contributes_of_imports {name : String} (h : Imports program host file name target) :
    ∃ own, Contributes program target own ∧ own.name = name := by
  obtain ⟨text, site, specifier, found, htext, hsite, hname, hothers, himport, hresolve, rfl⟩ := h
  rcases hprogram.bound htext hsite hname with
    ⟨own, ⟨text', htext', hown⟩, heq⟩ | ⟨specifier', found', himport', hresolve', hown⟩
  · obtain rfl : text = text' := Option.some.inj (htext.symm.trans htext')
    exact absurd heq (hothers own hown)
  · cases himport.symm.trans himport'
    cases hresolve.symm.trans hresolve'
    exact hown

/-- A dependency is defined by the same file or imported. -/
theorem own_or_imports {name : String} {site : CallSite} (hsite : Contributes program file site)
    (hname : name ∈ site.dependsOn) :
    (∃ own, Contributes program file own ∧ own.name = name) ∨
      ∃ target, Imports program host file name target := by
  obtain ⟨text, htext, hextract⟩ := hsite
  by_cases hown : ∃ own ∈ CallSite.extract text (some file), own.name = name
  · obtain ⟨own, hown, heq⟩ := hown
    exact .inl ⟨own, ⟨text, htext, hown⟩, heq⟩
  · push Not at hown
    rcases hprogram.bound htext hextract hname with
      ⟨own, ⟨text', htext', hextract'⟩, heq⟩ | ⟨specifier, target, himport, hresolve, -⟩
    · obtain rfl : text = text' := Option.some.inj (htext.symm.trans htext')
      exact absurd heq (hown own hextract')
    · exact .inr ⟨target.1, text, site, specifier, target, htext, hextract, hname, hown, himport,
        hresolve, rfl⟩

/-! ## Nothing is left waiting -/

/-- What a file leads to that is surveyed with success is indexed or waits then. -/
theorem covered_add (h : Holds program index) {stack : List host.File} {queue : List host.File}
    (hsource : program file = some source)
    (hcovered : ∀ other ∈ index.files, ∀ target, Leads program host other target →
      target ∈ index.files ∨ target = file ∨ ∃ waiting ∈ stack, waiting.1 = target)
    (hsurvey : (survey host index file source).result = .ok (additionOf file source, queue)) :
    Covered program host (index.add (additionOf file source)) (queue.reverse ++ stack) := by
  intro other hother target hleads
  rcases mem_files_add.1 hother with rfl | hother
  · obtain ⟨name, hname⟩ := hleads
    obtain ⟨own, hown, rfl⟩ := hprogram.contributes_of_imports hname
    by_cases hknown : index.registry.contains own.name = true
    · -- the name is registered, so the file that defines it is indexed
      obtain ⟨known, hknown⟩ := Table.contains_iff.1 hknown
      exact .inl (mem_files_add.2 (.inr (h.contributes hown hknown).1))
    obtain ⟨text, site, specifier, found, htext, hsite, hdep, hothers, himport, hresolve, rfl⟩ :=
      hname
    obtain rfl : source = text := Option.some.inj (hsource.symm.trans htext)
    obtain ⟨specifier', found', himport', hresolve', hfound⟩ :=
      located_of_survey hsurvey (mem_needs.2 ⟨⟨site, hsite, hdep⟩, hknown, hothers⟩)
    cases himport.symm.trans himport'
    cases hresolve.symm.trans hresolve'
    rcases hfound with hfound | hfound
    · exact .inl hfound
    · exact .inr ⟨found, List.mem_append_left _ (List.mem_reverse.2 hfound), rfl⟩
  · rcases hcovered other hother target hleads with hknown | rfl | ⟨waiting, hwaiting, rfl⟩
    · exact .inl (mem_files_add.2 (.inr hknown))
    · exact .inl (mem_files_add.2 (.inl rfl))
    · exact .inr ⟨waiting, List.mem_append_right _ hwaiting, rfl⟩

/-- Draining a stack leaves nothing that waits. -/
theorem drain_covered (h : Holds program index) {stack : List host.File}
    (hstack : ∀ file ∈ stack, ∃ text, program file.1 = some text)
    (hcovered : Covered program host index stack) :
    Covered program host (drain host index stack).index [] := by
  have hok := (hprogram.drain_ok h hstack).1
  fun_induction drain host index stack with
  | case1 => exact hcovered
  | case2 index file stack hfile ih =>
    exact ih h (List.forall_mem_cons.1 hstack).2 (hcovered.pop hfile) hok
  | case3 => cases hok
  | case4 index file stack hfile events addition queue hsome ih =>
    obtain ⟨⟨source, hsource⟩, hstack⟩ := List.forall_mem_cons.1 hstack
    obtain ⟨_, targets, hsurvey, htargets⟩ := hprogram.survey_eq h hsource hfile
    rw [loadAndSurvey_of_load_eq_ok index (hprogram.loaded hsource), hsurvey] at hsome
    cases hsome
    refine ih (hprogram.holds_add h hsource hfile (hprogram.free h hsource hfile)) ?_ ?_ hok
    · intro target htarget
      rcases List.mem_append.1 htarget with htarget | htarget
      · exact htargets target (List.mem_reverse.1 htarget)
      · exact hstack target htarget
    · refine hprogram.covered_add h hsource (fun other hother target hleads => ?_)
        (congrArg Answer.result hsurvey)
      rcases hcovered other hother target hleads with hknown | ⟨waiting, hwaiting, rfl⟩
      · exact .inl hknown
      · rcases List.mem_cons.1 hwaiting with rfl | hwaiting
        · exact .inr (.inl rfl)
        · exact .inr (.inr ⟨waiting, hwaiting, rfl⟩)

/-- When nothing waits, the names of the indexed files of a program are closed. -/
theorem closed_of_covered (h : Holds program index) (hcovered : Covered program host index []) :
    Closed index.registry fun name =>
      ∃ file ∈ index.files, ∃ own, Contributes program file own ∧ own.name = name := by
  rintro _ ⟨file, hfile, site, hsite, rfl⟩
  refine ⟨site, h.registered hfile hsite, fun next hnext => ?_⟩
  rcases hprogram.own_or_imports hsite hnext with hown | ⟨target, htarget⟩
  · exact ⟨file, hfile, hown⟩
  · rcases hcovered file hfile target ⟨next, htarget⟩ with hknown | ⟨_, hwaiting, -⟩
    · exact ⟨target, hknown, hprogram.contributes_of_imports htarget⟩
    · exact absurd hwaiting List.not_mem_nil

/-- After a file is indexed nothing waits, if nothing did before. -/
theorem indexFile_covered (h : Holds program index) (hsource : program file = some source)
    (hcovered : Covered program host index []) :
    Covered program host (indexFile host index file source).index [] := by
  obtain ⟨hok, hgrows⟩ := hprogram.indexNew_grows h hsource
  have hnew : Covered program host (indexNew host index file source).index [] := by
    unfold indexNew
    split
    · exact hcovered
    · next hfile =>
      obtain ⟨events, queue, hsurvey, hqueue⟩ := hprogram.survey_eq h hsource hfile
      rw [hsurvey]
      refine hprogram.drain_covered
        (hprogram.holds_add h hsource hfile (hprogram.free h hsource hfile))
        (fun target htarget => hqueue target (List.mem_reverse.1 htarget)) ?_
      rw [← List.append_nil queue.reverse]
      refine hprogram.covered_add h hsource (fun other hother target hleads => ?_)
        (congrArg Answer.result hsurvey)
      exact (hcovered other hother target hleads).imp_right .inr
  -- so the walk through the registered names finds them closed
  have hfile := mem_files_indexNew hok
  have hholds := hprogram.holds_grows h hgrows
  have hclose : close host (indexNew host index file source).index .empty
      ((indexNew host index file source).index.definedIn file).names.reverse = .done _ :=
    close_eq_done (hprogram.closed_of_covered hholds hnew) fun name hname =>
      ⟨file, hfile, (hholds.mem_definedIn hfile hsource).1 (List.mem_reverse.1 hname)⟩
  unfold indexFile
  rw [h.refresh hsource, Outcome.andThen_of_ok hok, hclose]
  exact hnew

end WellFormed

/-! ## The files that are reached -/

open Classical in
/-- The files of a program that have a property. -/
noncomputable def Program.restrict (program : Program) (P : String → Prop) : Program :=
  fun file => if P file then program file else none

theorem Program.restrict_eq_some {P : String → Prop} :
    program.restrict P file = some source ↔ P file ∧ program file = some source := by
  unfold Program.restrict
  split
  · next h => exact (and_iff_right h).symm
  · next h => exact ⟨nofun, fun h' => absurd h'.1 h⟩

theorem contributes_restrict {P : String → Prop} {site : CallSite} :
    Contributes (program.restrict P) file site ↔ P file ∧ Contributes program file site := by
  constructor
  · rintro ⟨text, htext, hsite⟩
    obtain ⟨hfile, htext⟩ := Program.restrict_eq_some.1 htext
    exact ⟨hfile, text, htext, hsite⟩
  · rintro ⟨hfile, text, htext, hsite⟩
    exact ⟨text, Program.restrict_eq_some.2 ⟨hfile, htext⟩, hsite⟩

/-- Files of a well-formed program that lead to none but themselves are a well-formed program. -/
theorem WellFormed.restrict (h : WellFormed program host) {P : String → Prop}
    (hclosed : ∀ file target, P file → Leads program host file target → P target) :
    WellFormed (program.restrict P) host where
  loaded htext := h.loaded (Program.restrict_eq_some.1 htext).2
  distinct htext := h.distinct (Program.restrict_eq_some.1 htext).2
  unique hsite hsite' :=
    h.unique (contributes_restrict.1 hsite).2 (contributes_restrict.1 hsite').2
  bound {file text site name} htext hsite hname := by
    obtain ⟨hfile, htext⟩ := Program.restrict_eq_some.1 htext
    rcases h.own_or_imports ⟨text, htext, hsite⟩ hname with ⟨own, hown, heq⟩ | ⟨target, htarget⟩
    · exact .inl ⟨own, contributes_restrict.2 ⟨hfile, hown⟩, heq⟩
    · have htarget' := hclosed file target hfile ⟨name, htarget⟩
      obtain ⟨own, hown, heq⟩ := h.contributes_of_imports htarget
      obtain ⟨text', -, specifier, found, htext', -, -, -, himport, hresolve, rfl⟩ := htarget
      obtain rfl : text = text' := Option.some.inj (htext.symm.trans htext')
      exact .inr ⟨specifier, found, himport, hresolve, own,
        contributes_restrict.2 ⟨htarget', hown⟩, heq⟩

/-! ## Several files -/

/-- Index several files with their texts, one after the other. -/
def indexEach (host : Host ε) (index : Index) : List (String × Text) → Outcome ε
  | [] => .done index
  | (file, source) :: roots =>
    (indexFile host index file source).andThen fun later => indexEach host later roots

namespace WellFormed

variable (hprogram : WellFormed program host)

include hprogram

/-- Files of a well-formed program are indexed without a fault, only files of the program are entered,
and nothing waits in the end. -/
theorem indexEach_ok (h : Holds program index) (hcovered : Covered program host index [])
    {roots : List (String × Text)} (hroots : ∀ root ∈ roots, program root.1 = some root.2) :
    (indexEach host index roots).result = .ok () ∧
      Grows program index (indexEach host index roots).index ∧
      Covered program host (indexEach host index roots).index [] ∧
      ∀ root ∈ roots, root.1 ∈ (indexEach host index roots).index.files := by
  induction roots generalizing index with
  | nil => exact ⟨rfl, .refl, hcovered, List.forall_mem_nil _⟩
  | cons root roots ih =>
    obtain ⟨hsource, hroots⟩ := List.forall_mem_cons.1 hroots
    obtain ⟨hok, hgrows⟩ := hprogram.indexFile_grows h hsource
    obtain ⟨hoks, hgrowss, hcovered, hfiles⟩ := ih (hprogram.holds_grows h hgrows)
      (hprogram.indexFile_covered h hsource hcovered) hroots
    unfold indexEach
    rw [Outcome.andThen_of_ok hok]
    refine ⟨hoks, hgrows.trans hgrowss, hcovered, List.forall_mem_cons.2 ⟨?_, hfiles⟩⟩
    exact hgrowss.files (mem_files_indexFile hok)

/-- The index holds the files that are reached from those that were indexed, and nothing else. -/
theorem indexEach_exact {roots : List (String × Text)}
    (hroots : ∀ root ∈ roots, program root.1 = some root.2) :
    (indexEach host .empty roots).result = .ok () ∧
      Exact (program.restrict (Reachable program host (roots.map Prod.fst)))
        (indexEach host .empty roots).index := by
  have hreached := hprogram.restrict (P := Reachable program host (roots.map Prod.fst))
    fun file target hfile hleads => hfile.step hleads
  have hroots' : ∀ root ∈ roots,
      program.restrict (Reachable program host (roots.map Prod.fst)) root.1 = some root.2 :=
    fun root hroot => Program.restrict_eq_some.2
      ⟨⟨root.1, List.mem_map_of_mem hroot, .refl⟩, hroots root hroot⟩
  obtain ⟨hok, -, hcovered, hfiles⟩ :=
    hprogram.indexEach_ok (hprogram.holds (Fits.empty program)) (covered_empty program host) hroots
  -- no other files are entered, since the reached ones are a program
  obtain ⟨texts, hexact, htexts⟩ := (Fits.empty _).grows
    (hreached.indexEach_ok (hreached.holds (Fits.empty _)) (covered_empty _ host) hroots').2.1
  have hall : ∀ file, Reachable program host (roots.map Prod.fst) file →
      file ∈ (indexEach host .empty roots).index.files := by
    rintro file ⟨root, hroot, hpath⟩
    induction hpath with
    | refl =>
      obtain ⟨entry, hentry, rfl⟩ := List.mem_map.1 hroot
      exact hfiles entry hentry
    | tail _ hleads ih =>
      rcases hcovered _ ih _ hleads with hknown | ⟨_, hwaiting, -⟩
      · exact hknown
      · exact absurd hwaiting List.not_mem_nil
  refine ⟨hok, ?_⟩
  convert hexact using 1
  funext file
  cases htext : texts file with
  | some text => exact htexts htext
  | none =>
    refine Option.eq_none_iff_forall_ne_some.2 fun text hreachable => ?_
    have hfile := hall file (Program.restrict_eq_some.1 hreachable).1
    obtain ⟨text', htext'⟩ := hexact.indexed.1 hfile
    cases htext.symm.trans htext'

/-- A file that is reached from files of a program is one of them. -/
theorem exists_text_of_reachable {roots : List (String × Text)}
    (hroots : ∀ root ∈ roots, program root.1 = some root.2)
    (h : Reachable program host (roots.map Prod.fst) file) : ∃ text, program file = some text := by
  obtain ⟨root, hroot, hpath⟩ := h
  cases hpath with
  | refl =>
    obtain ⟨entry, hentry, rfl⟩ := List.mem_map.1 hroot
    exact ⟨entry.2, hroots entry hentry⟩
  | tail _ hleads =>
    obtain ⟨_, hname⟩ := hleads
    obtain ⟨_, ⟨text, htext, -⟩, -⟩ := hprogram.contributes_of_imports hname
    exact ⟨text, htext⟩

/-- **The order makes no difference.** Some files of a well-formed program are indexed with their
texts, one after the other, in two orders. Both find no fault and leave the same definitions, files,
imports and digests: those of the files that are reached from the given ones. -/
theorem indexEach_perm {roots other : List (String × Text)}
    (hroots : ∀ root ∈ roots, program root.1 = some root.2) (hperm : other.Perm roots) :
    let first := indexEach host .empty roots
    let second := indexEach host .empty other
    let reached := Reachable program host (roots.map Prod.fst)
    first.result = .ok () ∧ second.result = .ok () ∧
    second.index.files = first.index.files ∧
    (∀ name, second.index.registry.get? name = first.index.registry.get? name) ∧
    (∀ file, second.index.imports.get? file = first.index.imports.get? file) ∧
    (∀ file, second.index.digests.get? file = first.index.digests.get? file) ∧
    (∀ file, file ∈ first.index.files ↔ reached file) ∧
    (∀ name site, first.index.registry.get? name = some site ↔
      site.name = name ∧ ∃ file, reached file ∧ Contributes program file site) ∧
    (∀ file imports, first.index.imports.get? file = some imports ↔
      reached file ∧ ∃ text, program file = some text ∧ CallSite.parseImports text = imports) ∧
    ∀ file hash, first.index.digests.get? file = some hash ↔
      reached file ∧ ∃ text, program file = some text ∧ digest text = hash := by
  intro first second reached
  obtain ⟨hfirst, hexact⟩ := hprogram.indexEach_exact hroots
  obtain ⟨hsecond, hexact'⟩ :=
    hprogram.indexEach_exact fun root hroot => hroots root (hperm.mem_iff.1 hroot)
  have hsame : Reachable program host (other.map Prod.fst) = reached := by
    funext file
    unfold reached Reachable
    simp only [(hperm.map Prod.fst).mem_iff]
  rw [hsame] at hexact'
  -- both indexes hold the same texts, and an exact index is determined by its texts
  obtain ⟨hfiles, hregistry, himports, hdigests⟩ := hexact'.agree hexact
  have htext {file : String} {α : Type} {f : Text → α} {value : α} :
      (program.restrict reached file).map f = some value ↔
        reached file ∧ ∃ text, program file = some text ∧ f text = value := by
    simp only [Option.map_eq_some_iff, Program.restrict_eq_some, and_assoc, exists_and_left]
  refine ⟨hfirst, hsecond, hfiles, hregistry, himports, hdigests, fun file => ?_,
    fun name site => ⟨fun hsite => ?_, ?_⟩, fun file imports => ?_, fun file hash => ?_⟩
  · refine hexact.indexed.trans ⟨fun ⟨_, htext⟩ => (Program.restrict_eq_some.1 htext).1,
      fun hfile => ?_⟩
    obtain ⟨text, htext⟩ := hprogram.exists_text_of_reachable hroots hfile
    exact ⟨text, Program.restrict_eq_some.2 ⟨hfile, htext⟩⟩
  · obtain ⟨file, hown⟩ := hexact.owned hsite
    exact ⟨hexact.named hsite, file, contributes_restrict.1 hown⟩
  · rintro ⟨rfl, file, hown⟩
    exact hexact.registered (contributes_restrict.2 hown)
  · rw [hexact.imports]
    exact htext
  · rw [hexact.digests]
    exact htext

end WellFormed

/-- A query may be indexed before its fragment or after it. -/
theorem indexEach_perm_heroes :
    let host : Host String := .ofTable heroes .empty id
    let roots := [("query.ts", queryFile), ("names.ts", fragmentFile)]
    let first := indexEach host .empty roots
    let second := indexEach host .empty roots.reverse
    first.result = .ok () ∧ second.result = .ok () ∧ second.index.files = first.index.files ∧
      (∀ name, second.index.registry.get? name = first.index.registry.get? name) ∧
      first.index.registry.get? "Names" = some namesFragment := by
  intro host roots first second
  have hroots : ∀ root ∈ roots, heroes.get? root.1 = some root.2 := by
    refine List.forall_mem_cons.2 ⟨?_, List.forall_mem_singleton.2 ?_⟩
    · exact get?_heroes_eq_some.2 (.inl ⟨rfl, rfl⟩)
    · exact get?_heroes_eq_some.2 (.inr ⟨rfl, rfl⟩)
  obtain ⟨hfirst, hsecond, hfiles, hregistry, -, -, -, hnames, -, -⟩ :=
    wellFormed_heroes.indexEach_perm hroots (List.reverse_perm roots)
  exact ⟨hfirst, hsecond, hfiles, hregistry, (hnames "Names" namesFragment).2 ⟨rfl, "names.ts",
    ⟨"names.ts", by decide, .refl⟩, contributes_heroes.2 (.inr ⟨rfl, rfl⟩)⟩⟩

end Index

end PersistedQueries
