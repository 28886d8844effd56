import PersistedQueries.Proofs.Splice.Exactness
import PersistedQueries.Session.Transform

/-!
# Transformed source texts

The call sites of a source text stand apart, so a text whose call sites all have canonical texts can
always be spliced. A text is therefore either transformed, and then the canonical texts of all its
call sites are in the manifest, or it leaves the manifest as it is.

- `siteEdit`: what a call site is replaced by.
- `Rewritten`: a transformed text has a persisted call in the place of each call site.
- `persistAll_eq_ok`: the canonical texts belong to the call sites, each under its digest.
- `transformOn_cases`, `transform_cases`: what transforming a text leaves.
-/

namespace PersistedQueries.Session

variable {registry : Registry} {options : Options} {code : Text} {file : String} {isTyped : Bool}
  {sites : List CallSite} {persisted : List PersistedSite}

/-- A call site with its persisted call. -/
def siteEdit (options : Options) (site : PersistedSite) : Splice.Edit where
  span := site.site.span
  content := Splice.persistedCall site.site.name site.persisted.hash
    (if options.removeSource then none else some site.persisted.query) options.isPure

/-- A text is transformed as it should be: every call site has a canonical text under its digest, and
is replaced by its persisted call, and nothing else is changed. -/
structure Rewritten (options : Options) (code : Text) (file : String) (made : Transformed) :
    Prop where
  sites_eq : made.sites.map PersistedSite.site = CallSite.extract code (some file)
  sites_ne : made.sites ≠ []
  hash_eq : ∀ site ∈ made.sites, site.persisted.hash = digest site.persisted.query.toList
  code_eq : made.spliced.code = Splice.replacedFrom code 0 (made.sites.map (siteEdit options))

/-- A canonical text is persisted under its digest. -/
theorem hash_of_persist {site : CallSite} {made : Persisted}
    (h : persist registry site isTyped = .ok made) : made.hash = digest made.query.toList := by
  unfold persist at h
  split at h
  · cases h
  split at h
  · cases h
  · next text _ =>
    cases h
    rw [Persisted.ofCanonical, String.toList_ofList]

/-- The first call site is persisted, and then the others. -/
theorem persistAll_cons_eq_ok {site : CallSite} :
    persistAll registry isTyped code (site :: sites) = .ok persisted ↔
      ∃ made others, persist registry site isTyped = .ok made ∧
        persistAll registry isTyped code sites = .ok others ∧
        persisted = ⟨site, Text.lineOf code site.span.start, made⟩ :: others := by
  rw [persistAll, List.mapM_cons]
  cases persist registry site isTyped with
  | error fault => exact ⟨nofun, fun ⟨_, _, hmade, _⟩ => nomatch hmade⟩
  | ok made =>
    change (persistAll registry isTyped code sites >>= _) = _ ↔ _
    cases persistAll registry isTyped code sites with
    | error fault => exact ⟨nofun, fun ⟨_, _, _, hothers, _⟩ => nomatch hothers⟩
    | ok others =>
      constructor
      · rintro ⟨⟩
        exact ⟨made, others, rfl, rfl, rfl⟩
      · rintro ⟨_, _, ⟨⟩, ⟨⟩, rfl⟩
        rfl

theorem persistAll_singleton {site : CallSite} {made : Persisted} (code : Text)
    (h : persist registry site isTyped = .ok made) :
    persistAll registry isTyped code [site] =
      .ok [⟨site, Text.lineOf code site.span.start, made⟩] :=
  persistAll_cons_eq_ok.2 ⟨made, [], h, rfl, rfl⟩

theorem persistAll_eq_ok (h : persistAll registry isTyped code sites = .ok persisted) :
    persisted.map PersistedSite.site = sites ∧
      ∀ site ∈ persisted, site.persisted.hash = digest site.persisted.query.toList := by
  induction sites generalizing persisted with
  | nil =>
    cases h
    exact ⟨rfl, fun _ hmem => nomatch hmem⟩
  | cons site rest ih =>
    obtain ⟨made, others, hfirst, hrest, rfl⟩ := persistAll_cons_eq_ok.1 h
    obtain ⟨hsites, hhashes⟩ := ih hrest
    exact ⟨congrArg (site :: ·) hsites, List.forall_mem_cons.2 ⟨hash_of_persist hfirst, hhashes⟩⟩

/-- Call sites of a text that have canonical texts can be replaced. -/
theorem spliceCalls_extract (options : Options)
    (hsites : persisted.map PersistedSite.site = CallSite.extract code (some file)) :
    ∃ map, spliceCalls options code file persisted =
      .ok ⟨Splice.replacedFrom code 0 (persisted.map (siteEdit options)), map⟩ := by
  have hordered := CallSite.pairwise_extract code (some file)
  rw [← hsites, List.pairwise_map] at hordered
  refine Splice.spliceSource_eq_ok ⟨options.removeSource, options.isPure⟩ PersistedSite.site
    (fun site => site.persisted.hash) (fun site => site.persisted.query) (some file) hordered
    (fun site hsite => ?_) (.refl _)
  have hmem : site.site ∈ CallSite.extract code (some file) := hsites ▸ List.mem_map_of_mem hsite
  obtain ⟨hstart, hstop, -⟩ := CallSite.slice_of_mem_extract hmem
  exact ⟨hstart, hstop⟩

/-- A text is transformed and the canonical texts of its call sites are recorded, or there is no
transformed text and nothing is recorded. -/
theorem transformOn_cases (session : Session) (host : Index.Host Modules.Failure) (code : Text)
    (file : String) :
    (session.transformOn host code file).1.options = session.options ∧
      ((∃ made, (session.transformOn host code file).2.1 = .ok (some made) ∧
          Rewritten session.options code file made ∧
          (session.transformOn host code file).1.manifest =
            session.manifest.map fun manifest => recorded session.options manifest made.sites) ∨
        (∀ made, (session.transformOn host code file).2.1 ≠ .ok (some made)) ∧
          (session.transformOn host code file).1.manifest = session.manifest) := by
  unfold transformOn
  split
  · exact ⟨rfl, .inr ⟨nofun, rfl⟩⟩
  split
  · exact ⟨rfl, .inr ⟨nofun, rfl⟩⟩
  next sites hne =>
  dsimp only
  split
  · exact ⟨rfl, .inr ⟨nofun, rfl⟩⟩
  split
  · exact ⟨rfl, .inr ⟨nofun, rfl⟩⟩
  next persisted hpersist =>
  obtain ⟨hsites, hhashes⟩ := persistAll_eq_ok hpersist
  obtain ⟨map, hsplice⟩ := spliceCalls_extract session.options hsites
  rw [hsplice]
  refine ⟨rfl, .inl ⟨_, rfl, ⟨hsites, ?_, hhashes, rfl⟩, rfl⟩⟩
  rintro rfl
  exact hne hsites.symm

theorem transform_cases (session : Session) (disk : Disk) (code : Text) (file : String) :
    (session.transform disk code file).1.options = session.options ∧
      ((∃ made, (session.transform disk code file).2.1 = .ok (some made) ∧
          Rewritten session.options code file made ∧
          (session.transform disk code file).1.manifest =
            session.manifest.map fun manifest => recorded session.options manifest made.sites) ∨
        (∀ made, (session.transform disk code file).2.1 ≠ .ok (some made)) ∧
          (session.transform disk code file).1.manifest = session.manifest) :=
  session.transformOn_cases (session.modules.host disk) code file

end PersistedQueries.Session
