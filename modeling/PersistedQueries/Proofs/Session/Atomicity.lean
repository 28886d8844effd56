import PersistedQueries.Proofs.Canonical.Confluence
import PersistedQueries.Proofs.Session.Growing
import PersistedQueries.Proofs.Session.Isolation

/-!
# A text is transformed as a whole or not at all

A source text with several call sites can fail at any of them, and also in a file that it imports. By
then canonical texts of other call sites have been made. None of them is recorded: what a failure
leaves behind is what has been indexed, and nothing else. Once every call site has a canonical text
nothing can fail any longer, as the call sites of a text never overlap.

- `Comes`, `transformOn_comes`: the ways in which transforming a text ends, each with all that it
  changes.
- `Reached`: the states that a session gets into, by any uses, with any changes around it.
- `Continues`: what every use keeps; `Reached.continues`: so an enabled session has a manifest.
- `get?_recorded_site`: a recorded text is found under its digest.
- `Reached.transform_atomic`: what a failure leaves, and what a transformed text comes with.
-/

namespace PersistedQueries.Session

variable {options : Options} {modules : Modules} {session later : Session} {state : State}
  {surroundings : Surroundings} {manifest : Manifest} {sites : List PersistedSite}
  {host : Index.Host Modules.Failure} {code : Text} {file : String}

/-! ## Ways to end -/

/-- How transforming a text ends, and which session it leaves. There may be nothing to do. Indexing
may fail, or one of the call sites may have no canonical text; then only the index has changed. Or
every call site has a canonical text, and then the text is transformed and the canonical texts are
recorded. -/
inductive Comes (session : Session) (host : Index.Host Modules.Failure) (code : Text)
    (file : String) : Session → Except Fault (Option Transformed) → Prop where
  | passes (h : session.Passes code file) : Comes session host code file session (.ok none)
  | unindexed {outcome : Index.Outcome Modules.Failure} {cause : Index.Fault Modules.Failure}
      (h : ¬ session.Passes code file)
      (outcome_eq : Index.indexFile host session.index file code = outcome)
      (result_eq : outcome.result = .error cause) :
      Comes session host code file { session with index := outcome.index } (.error (.index cause))
  | unpersisted {outcome : Index.Outcome Modules.Failure} {cause : Persist.Fault}
      (h : ¬ session.Passes code file)
      (outcome_eq : Index.indexFile host session.index file code = outcome)
      (result_eq : outcome.result = .ok ())
      (persistAll_eq : persistAll outcome.index.registry session.options.addTypename code
        (CallSite.extract code (some file)) = .error cause) :
      Comes session host code file { session with index := outcome.index } (.error (.persist cause))
  | transformed {outcome : Index.Outcome Modules.Failure} {made : Transformed}
      (h : ¬ session.Passes code file)
      (outcome_eq : Index.indexFile host session.index file code = outcome)
      (result_eq : outcome.result = .ok ())
      (persistAll_eq : persistAll outcome.index.registry session.options.addTypename code
        (CallSite.extract code (some file)) = .ok made.sites)
      (rewritten : Rewritten session.options code file made) :
      Comes session host code file
        { session with
          index := outcome.index
          manifest := session.manifest.map fun manifest =>
            recorded session.options manifest made.sites }
        (.ok (some made))

/-- Transforming a text ends in one of these ways. In particular a text whose call sites all have
canonical texts can be spliced. -/
theorem transformOn_comes (session : Session) (host : Index.Host Modules.Failure) (code : Text)
    (file : String) :
    Comes session host code file (session.transformOn host code file).1
      (session.transformOn host code file).2.1 := by
  by_cases hpasses : session.Passes code file
  · rw [transformOn_of_passes host hpasses]
    exact .passes hpasses
  have hattempt := hpasses
  unfold Passes at hattempt
  rw [not_or, not_or, Bool.not_eq_false, Bool.not_eq_false] at hattempt
  obtain ⟨henabled, hconcerns, hsites⟩ := hattempt
  unfold transformOn
  rw [henabled, hconcerns, Bool.not_true, Bool.or_self, if_neg Bool.false_ne_true]
  split
  · next hnone => exact absurd hnone hsites
  dsimp only
  generalize houtcome : Index.indexFile host session.index file code = outcome
  split
  · next cause hresult => exact .unindexed hpasses houtcome hresult
  next hresult =>
  split
  · next cause hpersist => exact .unpersisted hpasses houtcome hresult hpersist
  next persisted hpersist =>
  obtain ⟨hextracted, hhashes⟩ := persistAll_eq_ok hpersist
  obtain ⟨map, hsplice⟩ := spliceCalls_extract session.options hextracted
  rw [hsplice]
  have hne : persisted ≠ [] := by
    rintro rfl
    exact hsites hextracted.symm
  exact @Comes.transformed session host code file outcome ⟨⟨_, map⟩, persisted⟩ hpasses houtcome
    hresult hpersist ⟨hextracted, hne, hhashes, rfl⟩

/-! ## States that are reached -/

/-- A state that a session gets into after it has been opened with some options, by any uses. In
between everything around it may change. -/
inductive Reached (options : Options) (modules : Modules) : State → Prop where
  | opened (surroundings : Surroundings) : Reached options modules (.opened surroundings options modules)
  | use {state : State} (h : Reached options modules state) (use : Use) :
      Reached options modules (state.apply use)
  | meanwhile {state : State} (h : Reached options modules state) (surroundings : Surroundings) :
      Reached options modules { state with surroundings }

/-- A step keeps the options, and goes on having a manifest. -/
structure Continues (session later : Session) : Prop where
  options_eq : later.options = session.options
  isSome : session.manifest.isSome = true → later.manifest.isSome = true

namespace Continues

theorem refl (session : Session) : Continues session session := ⟨rfl, id⟩

theorem trans (h : Continues session later) {last : Session} (h' : Continues later last) :
    Continues session last :=
  ⟨h'.options_eq.trans h.options_eq, fun hsome => h'.isSome (h.isSome hsome)⟩

theorem publish (session : Session) (surroundings : Surroundings) :
    Continues session (session.publish surroundings).session := by
  unfold Session.publish
  split
  · exact .refl session
  · exact ⟨rfl, id⟩

theorem start (session : Session) (surroundings : Surroundings) :
    Continues session (session.start surroundings).session := by
  unfold Session.start
  split
  · have hempty : Continues session { session with index := .empty } := ⟨rfl, id⟩
    exact hempty.trans (publish _ surroundings)
  · exact .refl session

theorem republish (session : Session) (surroundings : Surroundings) :
    Continues session (session.republish surroundings).session := by
  have hpublish := publish session surroundings
  unfold Session.republish
  dsimp only
  split
  · exact hpublish
  · split <;> exact hpublish
  · exact hpublish

theorem flushed (session : Session) (surroundings : Surroundings) (written : Manifest.Written) :
    Continues session (session.flushed surroundings written).session := by
  have hwritten : Continues session { session with manifest := some written.manifest } :=
    ⟨rfl, fun _ => rfl⟩
  unfold Session.flushed
  dsimp only
  split
  · exact hwritten
  split
  · exact hwritten.trans (republish _ _)
  · exact hwritten

theorem fire (session : Session) (surroundings : Surroundings) (timer : Nat) :
    Continues session (session.fire surroundings timer).session := by
  unfold Session.fire
  split
  · exact .refl session
  split
  · exact ⟨rfl, fun _ => rfl⟩
  next written _ =>
  have hflushed := flushed session surroundings written
  dsimp only
  split
  · split <;> exact hflushed
  · exact hflushed

theorem close (session : Session) (surroundings : Surroundings) :
    Continues session (session.close surroundings).session := by
  unfold Session.close
  split
  · exact .refl session
  split
  · exact ⟨rfl, fun _ => rfl⟩
  · exact flushed session surroundings _

theorem finish (session : Session) (surroundings : Surroundings) :
    Continues session (session.finish surroundings).session := by
  unfold Session.finish
  split
  · exact .refl session
  · exact flushed session surroundings _

theorem transformOn (session : Session) (host : Index.Host Modules.Failure) (code : Text)
    (file : String) : Continues session (session.transformOn host code file).1 := by
  have hcomes := transformOn_comes session host code file
  generalize (session.transformOn host code file).1 = later,
    (session.transformOn host code file).2.1 = result at hcomes
  cases hcomes with
  | passes => exact .refl session
  | unindexed => exact ⟨rfl, id⟩
  | unpersisted => exact ⟨rfl, id⟩
  | transformed =>
    refine ⟨rfl, fun hsome => ?_⟩
    show (Option.map _ session.manifest).isSome = true
    rwa [Option.isSome_map]

theorem apply (state : State) (use : Use) : Continues state.session (state.apply use).session := by
  cases use with
  | start => exact start state.session state.surroundings
  | transform host code file => exact transformOn state.session host code file
  | fileChanged file => exact ⟨rfl, id⟩
  | fire timer => exact fire state.session state.surroundings timer
  | finish => exact finish state.session state.surroundings
  | close => exact close state.session state.surroundings

end Continues

/-- At any time a session has its options, and a manifest if it is enabled. -/
theorem Reached.continues (h : Reached options modules state) :
    state.session.options = options ∧
      (options.isEnabled = true → state.session.manifest.isSome = true) := by
  induction h with
  | opened surroundings =>
    unfold State.opened Session.opened
    split
    · exact ⟨rfl, fun _ => rfl⟩
    · next hdisabled => exact ⟨rfl, fun henabled => absurd henabled hdisabled⟩
  | @use state _ use ih =>
    have hnext := Continues.apply state use
    exact ⟨hnext.options_eq.trans ih.1, fun henabled => hnext.isSome (ih.2 henabled)⟩
  | meanwhile _ _ ih => exact ih

/-! ## Failing and succeeding -/

/-- The canonical text of a call site is found under its digest, when no other one has it. -/
theorem get?_recorded_site (options : Options) (manifest : Manifest)
    (hdistinct : ∀ site ∈ sites, ∀ other ∈ sites, site.persisted.hash = other.persisted.hash →
      site.persisted.query = other.persisted.query) {site : PersistedSite} (hsite : site ∈ sites) :
    (recorded options manifest sites).entries.get? site.persisted.hash =
      some site.persisted.query := by
  rcases get?_recorded options manifest sites site.persisted.hash with
    ⟨other, hother, hhash, hget⟩ | ⟨hnew, -⟩
  · rw [hget, hdistinct other hother site hsite hhash]
  · exact absurd rfl (hnew site hsite)

/-- **A failing transformation leaves the manifest alone.** In every state that a session gets into,
with every host: when transforming a text fails, in whichever file or call site, only the index has
changed, so the manifest with its entries, its timers and what is to be written is as before, and so is
every file; and when there is nothing to transform, nothing has changed at all. Splicing never fails.
When the text is transformed, then each of its call sites has been replaced by its persisted call, and
nothing else has, no file has changed, and the manifest has all canonical texts under their digests,
unless two of them have one digest. -/
theorem Reached.transform_atomic (h : Reached options modules state)
    (host : Index.Host Modules.Failure) (code : Text) (file : String) :
    let later := state.apply (.transform host code file)
    let result := (state.session.transformOn host code file).2.1
    (∀ fault, result = .error fault →
      later = { state with session := { state.session with index := later.session.index } } ∧
        ∀ cause, fault ≠ .splice cause) ∧
    (result = .ok none → later = state) ∧
    ∀ made, result = .ok (some made) →
      Rewritten options code file made ∧ later.surroundings = state.surroundings ∧
        ((∀ site ∈ made.sites, ∀ other ∈ made.sites,
            digest site.persisted.query.toList = digest other.persisted.query.toList →
            site.persisted.query = other.persisted.query) →
          ∃ manifest, later.session.manifest = some manifest ∧
            ∀ site ∈ made.sites,
              manifest.entries.get? site.persisted.hash = some site.persisted.query) := by
  intro later result
  obtain ⟨hoptions, hmanifest⟩ := h.continues
  have hcomes := transformOn_comes state.session host code file
  have hlater : later =
      { state with
        session := (state.session.transformOn host code file).1
        persisted := state.persisted ++ sitesOf result } := rfl
  change Comes _ _ _ _ _ result at hcomes
  rw [hlater]
  generalize (state.session.transformOn host code file).1 = session, result = result at hcomes
  cases hcomes with
  | passes =>
    refine ⟨fun _ herror => (nomatch herror), fun _ => ?_, fun _ hmade => (nomatch hmade)⟩
    show { state with persisted := state.persisted ++ [] } = state
    rw [List.append_nil]
  | unindexed =>
    refine ⟨?_, nofun, nofun⟩
    rintro fault ⟨⟩
    refine ⟨?_, nofun⟩
    unfold sitesOf
    rw [List.append_nil]
  | unpersisted =>
    refine ⟨?_, nofun, nofun⟩
    rintro fault ⟨⟩
    refine ⟨?_, nofun⟩
    unfold sitesOf
    rw [List.append_nil]
  | @transformed outcome made hpasses _ _ _ hrewritten =>
    refine ⟨fun _ herror => (nomatch herror), fun hnone => (nomatch hnone), ?_⟩
    rintro _ ⟨⟩
    refine ⟨hoptions ▸ hrewritten, rfl, fun hdistinct => ?_⟩
    have henabled : options.isEnabled = true := by
      rw [← hoptions, ← Bool.not_eq_false]
      exact fun hdisabled => hpasses (.inl hdisabled)
    obtain ⟨manifest, hsome⟩ := Option.isSome_iff_exists.1 (hmanifest henabled)
    refine ⟨recorded state.session.options manifest made.sites, ?_, fun site hsite => ?_⟩
    · show Option.map _ state.session.manifest = _
      rw [hsome]
      rfl
    · refine get?_recorded_site _ manifest (fun site hsite other hother hhash => ?_) hsite
      rw [hrewritten.hash_eq site hsite, hrewritten.hash_eq other hother] at hhash
      exact hdistinct site hsite other hother hhash

/-- A text with call sites is transformed once it has been indexed and all of them have canonical
texts. -/
theorem exists_transformed (hpasses : ¬ session.Passes code file)
    (hindexed : (Index.indexFile host session.index file code).result = .ok ())
    (hpersisted : persistAll (Index.indexFile host session.index file code).index.registry
      session.options.addTypename code (CallSite.extract code (some file)) = .ok sites) :
    ∃ made, (session.transformOn host code file).2.1 = .ok (some made) := by
  have hcomes := transformOn_comes session host code file
  generalize (session.transformOn host code file).1 = later,
    (session.transformOn host code file).2.1 = result at hcomes
  cases hcomes with
  | passes h => exact absurd h hpasses
  | unindexed _ houtcome hresult =>
    rw [← houtcome, hindexed] at hresult
    cases hresult
  | unpersisted _ houtcome _ hpersist =>
    rw [← houtcome, hpersisted] at hpersist
    cases hpersist
  | @transformed _ made => exact ⟨made, rfl⟩

/-- A session that has just been opened has indexed nothing. -/
theorem index_opened (disk : Disk) (options : Options) (modules : Modules) :
    (Session.opened disk options modules).1.index = .empty := by
  unfold Session.opened
  split <;> rfl

/-- A text with one call site. -/
def loneCode : Text := "A = graphql(`query A { a }`);".toList

/-- Its call site. -/
def loneSite : CallSite := ⟨"A", "query A { a }", ⟨0, 28⟩, .empty, some "/w/a.ts"⟩

theorem extract_lone : CallSite.extract loneCode (some "/w/a.ts") = [loneSite] := by
  decide +kernel

/-- Its document. -/
def loneDocument : GraphQL.Document :=
  [.operation ⟨none, .query, some "A", [], [], [.field none "a" [] [] []]⟩]

set_option maxRecDepth 4000 in
theorem canonicalize_lone :
    GraphQL.canonicalize "query A { a }".toList false = .ok "query A { a }".toList := by
  have hparse : GraphQL.parse "query A { a }".toList = .ok loneDocument := by cbv
  have hsorted : GraphQL.sortDocument loneDocument = loneDocument := by cbv
  have htext : GraphQL.canonicalText loneDocument = "query A { a }".toList := by decide +kernel
  rw [GraphQL.canonicalize_of_parse hparse, if_neg Bool.false_ne_true, hsorted, htext]

theorem persistAll_lone (registry : Registry) :
    persistAll registry false loneCode (CallSite.extract loneCode (some "/w/a.ts")) =
      .ok [⟨loneSite, 1, .ofCanonical "query A { a }".toList⟩] := by
  have hpersist : persist registry loneSite false = .ok (.ofCanonical "query A { a }".toList) :=
    persist_of_merge (merge_of_no_names registry rfl) canonicalize_lone
  rw [extract_lone, persistAll_singleton loneCode hpersist]
  rfl

/-- A text with one call site is transformed, and its canonical text is recorded. When a second call
site passes a name that nothing binds, neither is. -/
theorem transform_atomic_lone :
    let both := loneCode ++ "B = graphql(`query B { ...F }`, [F]);".toList
    let host : Index.Host Modules.Failure := .unanswering .noImporter
    let done := manifestOpened.apply (.transform host loneCode "/w/a.ts")
    let failed := manifestOpened.apply (.transform host both "/w/a.ts")
    (∃ made manifest, Rewritten {} loneCode "/w/a.ts" made ∧ done.session.manifest = some manifest ∧
        ∀ site ∈ made.sites,
          manifest.entries.get? site.persisted.hash = some site.persisted.query) ∧
      (∃ fault, (manifestOpened.session.transformOn host both "/w/a.ts").2.1 = .error fault) ∧
      failed.session.manifest = manifestOpened.session.manifest ∧
      failed.surroundings = manifestOpened.surroundings := by
  intro both host done failed
  have hreached : Reached {} (.ofRoot manifestDisk "/w" []) manifestOpened := .opened _
  obtain ⟨-, -, hdone⟩ := hreached.transform_atomic host loneCode "/w/a.ts"
  obtain ⟨hfailed, -, -⟩ := hreached.transform_atomic host both "/w/a.ts"
  constructor
  · have hpasses : ¬ manifestOpened.session.Passes loneCode "/w/a.ts" := by
      unfold Passes
      rw [extract_lone]
      rintro (hdisabled | hother | hnone)
      · cases hdisabled
      · have hconcerns : manifestOpened.session.concerns loneCode "/w/a.ts" = true := by
          decide +kernel
        cases hother.symm.trans hconcerns
      · cases hnone
    have hindexed : (Index.indexFile host manifestOpened.session.index "/w/a.ts" loneCode).result =
        .ok () := by
      rw [show manifestOpened.session.index = .empty from index_opened ..]
      refine (@Index.indexFile_of_registered _ host Index.empty "/w/a.ts" loneCode (fun _ => False)
        (NameSet.not_mem_empty _) ⟨?_, fun _ _ => rfl⟩ (fun _ h => h.elim)
        (fun _ h => absurd h (NameSet.not_mem_empty _)) ?_).1
      · simp [extract_lone]
      · rw [extract_lone]
        rintro site hsite next hnext
        rw [List.mem_singleton.1 hsite] at hnext
        exact absurd hnext (NameSet.not_mem_empty next)
    obtain ⟨made, hmade⟩ := exists_transformed hpasses hindexed (persistAll_lone _)
    obtain ⟨hrewritten, -, hrecorded⟩ := hdone made hmade
    -- there is only one call site, so no two have one digest
    obtain ⟨site, hsite⟩ : ∃ site, made.sites = [site] := by
      have hsites := hrewritten.sites_eq
      rw [extract_lone] at hsites
      obtain ⟨site, hsite, -⟩ := List.map_eq_singleton_iff.1 hsites
      exact ⟨site, hsite⟩
    obtain ⟨manifest, hmanifest, hentries⟩ := hrecorded fun one hone other hother _ => by
      rw [hsite, List.mem_singleton] at hone hother
      rw [hone, hother]
    exact ⟨made, manifest, hrewritten, hmanifest, hentries⟩
  · have hnone : (manifestOpened.session.transformOn host both "/w/a.ts").2.1.toOption = none := by
      decide +kernel
    cases hresult : (manifestOpened.session.transformOn host both "/w/a.ts").2.1 with
    | ok made =>
      rw [hresult] at hnone
      cases hnone
    | error fault =>
      obtain ⟨hlater, -⟩ := hfailed fault hresult
      refine ⟨⟨fault, rfl⟩, ?_, ?_⟩
      · rw [show failed = _ from hlater]
      · rw [show failed = _ from hlater]

end PersistedQueries.Session