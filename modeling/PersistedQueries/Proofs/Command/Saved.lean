import PersistedQueries.Proofs.Command.Course
import PersistedQueries.Proofs.Command.Outputs
import PersistedQueries.Proofs.Index.Binding

/-!
# Rewritten files and the manifest

The code that a run writes refers to canonical texts by their digests, so it is of no use without
the manifest. A run writes the manifest first, with the digests of all files that it is going to
write, and nothing that it writes then takes an entry away.

- `Course.Passes`: the disks that a run passes through while it writes transformed files.
- `Course.ManifestApart`, `Course.DigestsApart`: the manifest has a place of its own, and canonical
  texts have different digests.
- `hashes_saved`: whatever has been written, the manifest on the disk has the texts that it refers
  to.
-/

namespace PersistedQueries.Command

open Session (Fits Rewritten PersistedSite artifactPlaces ownPlaces)
open Disk (ChangesOnly)

variable {words : List String} {environment : Environment} {file : Option Text}
  {surroundings : Surroundings} {written : List Written} {disk : Disk}

namespace Course

variable (course : Course words environment file surroundings)

/-- The disks that a run passes through while it writes transformed files, with what has been written
by then. -/
def Passes (written : List Written) (disk : Disk) : Prop :=
  Command.Passes course.arguments course.target course.finished.surroundings.disk
    course.sources.transforms written disk

/-- Neither an artifact nor anything that has been written stands at the place of the manifest. -/
def ManifestApart (written : List Written) : Prop :=
  ¬ artifactPlaces course.options surroundings.disk
      (surroundings.disk.placeOf course.options.outputPath) ∧
    ∀ one ∈ written, ¬ one.places course.arguments surroundings.disk
      (surroundings.disk.placeOf course.options.outputPath)

/-- Different canonical texts have different digests. -/
def DigestsApart : Prop :=
  ∀ site other, course.sources.Has site → course.sources.Has other →
    digest site.persisted.query.toList = digest other.persisted.query.toList →
      site.persisted.query = other.persisted.query

theorem placeOf_finished (path : String) :
    course.finished.surroundings.disk.placeOf path = surroundings.disk.placeOf path :=
  (course.finished_changes.placeOf path).trans (course.before_changes.placeOf path)

variable {course}

/-- The manifest stays on the disk while transformed files are written. -/
theorem Passes.readEntries {manifest : Manifest} (h : course.Passes written disk)
    (hapart : course.ManifestApart written)
    (hmanifest : course.sources.session.manifest = some manifest) :
    Manifest.readEntries disk course.options.outputPath = .ok manifest.entries := by
  refine Manifest.readEntries_of_touches h.touches ?_
    (course.readEntries_finished hapart.1 hmanifest)
  rintro ⟨one, hone, hplace⟩
  refine hapart.2 one hone ?_
  unfold Written.places at hplace ⊢
  rwa [placeOf_finished, placeOf_finished, placeOf_finished] at hplace

/-- A file that has been written has the text of a transformed file, unless a source map has been
written in its place. -/
theorem Passes.readOctets (h : course.Passes written disk) {one : Written} (hone : one ∈ written)
    (hmaps : ∀ other ∈ written, course.arguments.sourceMaps = true →
      surroundings.disk.placeOf (other.path ++ ".map") ≠ surroundings.disk.placeOf one.path) :
    ∃ last ∈ written,
      surroundings.disk.placeOf last.path = surroundings.disk.placeOf one.path ∧
      disk.readOctets one.path = .ok (Utf8.encode last.made.spliced.code) := by
  simp only [← course.placeOf_finished] at hmaps ⊢
  obtain ⟨last, hlast, hplace, hentry⟩ := h.entry?_eq hmaps hone rfl
  refine ⟨last, hlast, hplace, Disk.readOctets_eq_ok.2 ?_⟩
  rw [h.touches.placeOf]
  exact ⟨h.follow hone, hentry⟩

end Course

/-- The words for a run that changes the file in place. -/
def inPlaceWords : List String := ["--path", "a.ts", "--write"]

/-- The arguments that the words make. -/
def inPlaceArguments : Arguments := { path := some (.text "a.ts"), write := true }

/-- The settings of a run without an environment. -/
def usualSettings : Settings := ⟨{}, .empty⟩

/-- A source text with one query. -/
def queryCode : Text := "\nconst Q = graphql(`query Q { a }`);".toList

/-- The query with its canonical text. -/
def querySite : PersistedSite where
  site := ⟨"Q", "query Q { a }", ⟨7, 35⟩, .empty, some "/w/a.ts"⟩
  line := 2
  persisted := .ofCanonical "query Q { a }".toList

/-- The octets of the source text, or of the same text with another line end. -/
def queryOctets (isReturned : Bool) : List UInt8 :=
  Utf8.encode (if isReturned then '\r' :: queryCode else queryCode)

/-- A directory with the source file. -/
def querySurroundings (isReturned : Bool) : Surroundings where
  disk := .ofEntries [['w']] [(["a.ts".toList], .file (queryOctets isReturned))]

theorem ofWords_inPlace : Request.ofWords inPlaceWords = .ok (.run inPlaceArguments) := by rfl

theorem ofArguments_inPlace :
    Settings.ofArguments .empty none inPlaceArguments = .ok usualSettings := by rfl

theorem extract_queryCode : CallSite.extract queryCode (some "/w/a.ts") = [querySite.site] := by
  decide +kernel

theorem findFiles_query (isReturned : Bool) :
    (querySurroundings isReturned).disk.findFiles "a.ts" usualSettings.options.endings
      (Settings.exclusions "") = ["/w/a.ts"] := by
  cases isReturned <;> rfl

theorem readText_query (isReturned : Bool) :
    (querySurroundings isReturned).disk.readText "/w/a.ts" = .ok queryCode := by
  cases isReturned <;> rfl

theorem persistAll_query (registry : Registry) :
    Session.persistAll registry false queryCode [querySite.site] = .ok [querySite] := by
  have hcanonical : (GraphQL.canonicalize "query Q { a }".toList false).toOption =
      some "query Q { a }".toList := by
    decide +kernel
  have hpersist : persist registry querySite.site false = .ok querySite.persisted :=
    persist_of_merge (merge_of_no_names registry rfl) (eq_ok_of_toOption hcanonical)
  rw [Session.persistAll_singleton queryCode hpersist]
  rfl

theorem transform_query {session : Session} (hindex : session.index = .empty)
    (hoptions : session.options = {}) (disk : Disk) :
    ∃ made, (session.transform disk queryCode "/w/a.ts").2.1 = .ok (some made) ∧
      made.sites = [querySite] := by
  have hindexed : (Index.indexFile (session.modules.host disk) .empty "/w/a.ts" queryCode).result =
      .ok () := by
    -- the query depends on nothing
    refine (Index.indexFile_of_registered (P := fun _ => False) (NameSet.not_mem_empty _) ?_
      (fun _ h => h.elim) (fun _ h => absurd h (NameSet.not_mem_empty _))
      fun site hsite next hnext => ?_).1
    · rw [extract_queryCode]
      exact ⟨List.nodup_singleton _, fun _ _ => rfl⟩
    · rw [extract_queryCode, List.mem_singleton] at hsite
      subst hsite
      exact absurd hnext (NameSet.not_mem_empty _)
  have hsites : [querySite].map PersistedSite.site = CallSite.extract queryCode (some "/w/a.ts") :=
    extract_queryCode.symm
  obtain ⟨map, hsplice⟩ := Session.spliceCalls_extract {} hsites
  have hconcerns : session.concerns queryCode "/w/a.ts" = true := by
    unfold Session.concerns
    rw [hoptions]
    rfl
  unfold Session.transform Session.transformOn
  rw [hconcerns, hoptions, extract_queryCode, hindex]
  dsimp only
  rw [hindexed]
  dsimp only
  rw [persistAll_query]
  dsimp only
  rw [hsplice]
  exact ⟨_, rfl, rfl⟩

/-- Transforming the file keeps one rewritten file, and records its query. -/
theorem exists_sources_query {session : Session} {manifest : Manifest}
    (hindex : session.index = .empty) (hoptions : session.options = {})
    (hmanifest : session.manifest = some manifest) (disk : Disk) :
    ∃ (sources : Sources) (made : Session.Transformed),
      Sources.transform { session } disk "/w/a.ts" queryCode = .ok sources ∧
      sources.transforms = [("/w/a.ts", made)] ∧ made.sites = [querySite] ∧
      sources.session.options = {} ∧
      sources.session.manifest = some (Session.recorded {} manifest [querySite]) := by
  obtain ⟨made, hmade, hsites⟩ := transform_query hindex hoptions disk
  obtain ⟨hkept, hcases⟩ := session.transform_cases disk queryCode "/w/a.ts"
  rcases hcases with ⟨_, hmade', -, hrecorded⟩ | ⟨hnone, -⟩
  swap
  · exact absurd hmade (hnone made)
  cases hmade.symm.trans hmade'
  rw [hmanifest, hoptions, hsites] at hrecorded
  obtain ⟨sources, hsources⟩ : ∃ sources,
      Sources.transform { session } disk "/w/a.ts" queryCode = .ok sources := by
    unfold Sources.transform
    dsimp only
    rw [hmade]
    exact ⟨_, rfl⟩
  obtain ⟨hsession, hadded⟩ := Sources.transform_eq_ok hsources
  rcases hadded with ⟨_, hmade', htransforms⟩ | ⟨hnone, -⟩
  swap
  · exact absurd hmade (hnone made)
  cases hmade.symm.trans hmade'
  refine ⟨sources, made, hsources, htransforms, hsites, ?_, ?_⟩
  · rw [hsession, hkept, hoptions]
  · rw [hsession, hrecorded]
    rfl

/-- The session of such a run has read the manifest, and has published nothing. -/
theorem startOf_query (isReturned : Bool) :
    let started := startOf (querySurroundings isReturned) usualSettings "."
    started.result = .ok none ∧ started.surroundings = querySurroundings isReturned ∧
      started.session.options = {} ∧ started.session.index = .empty ∧
      started.session.manifest = some (Manifest.opened (querySurroundings isReturned).disk
        "persisted-queries.json" usualSettings.options.debounce).1 :=
  ⟨rfl, rfl, rfl, rfl, rfl⟩

/-- The manifest with the query, once it is written. -/
def queryWritten (isReturned : Bool) : Manifest.Written :=
  (Session.recorded {} (Manifest.opened (querySurroundings isReturned).disk
    "persisted-queries.json" usualSettings.options.debounce).1 [querySite]).flush
      (querySurroundings isReturned).disk

theorem result_queryWritten (isReturned : Bool) : (queryWritten isReturned).result = .ok () := by
  cases isReturned <;> rfl

/-- There is room for the rewritten file. -/
theorem writeOctets_queryWritten (isReturned : Bool) (octets : List UInt8) :
    ∃ coded, (queryWritten isReturned).disk.writeOctets "/w/a.ts" octets = .ok coded := by
  have hslot : (queryWritten isReturned).disk.slot "/w/a.ts" .isDirectory .isDirectory =
      .ok [['w'], "a.ts".toList] := by
    cases isReturned <;> rfl
  have hentry : (queryWritten isReturned).disk.entry? [['w'], "a.ts".toList] ≠
      some .directory := by
    cases isReturned <;> decide
  generalize (queryWritten isReturned).disk = disk at hslot hentry
  unfold Disk.writeOctets
  rw [hslot]
  dsimp only
  split
  · next h => exact absurd h hentry
  · exact ⟨_, rfl⟩

/-- Such a run comes to writing the file, and writes it. -/
theorem exists_course_query (isReturned : Bool) :
    ∃ (course : Course inPlaceWords .empty none (querySurroundings isReturned))
      (made : Session.Transformed), course.sources.transforms = [("/w/a.ts", made)] ∧
        made.sites = [querySite] ∧ course.arguments = inPlaceArguments ∧
        course.settings = usualSettings ∧ course.outputs.2.2 = .ok () := by
  obtain ⟨hresult, hsurroundings, hoptions, hindex, hmanifest⟩ := startOf_query isReturned
  generalize hstarted : startOf (querySurroundings isReturned) usualSettings "." = started at *
  obtain ⟨sources, made, hsources, htransforms, hsites, hkept, hrecorded⟩ :=
    exists_sources_query hindex hoptions hmanifest (querySurroundings isReturned).disk
  have hserver : sources.session.options.isDevServer = false := by rw [hkept]
  obtain ⟨hfinish, hdisk⟩ :=
    Session.finish_of_flush hrecorded hserver (result_queryWritten isReturned)
  obtain ⟨coded, hcoded⟩ := writeOctets_queryWritten isReturned (Utf8.encode made.spliced.code)
  refine ⟨{
    arguments := inPlaceArguments, settings := usualSettings, root := ".", exclude := ""
    target := "a.ts", schema := none, sources
    ofWords_eq := ofWords_inPlace
    ofArguments_eq := ofArguments_inPlace
    isEnabled := rfl
    root_eq := rfl
    output_ne := nofun
    exclude_eq := rfl
    target_eq := rfl
    start_eq := hstarted ▸ hresult
    sources_eq := ?_
    isReal := rfl
    finish_eq := ?_
    isWriting := rfl }, made, htransforms, hsites, rfl, rfl, ?_⟩
  · rw [hstarted, hsurroundings, findFiles_query]
    unfold transformFiles
    rw [readText_query]
    dsimp only
    rw [hsources]
    rfl
  · rw [hstarted, hsurroundings, hfinish]
  · unfold Course.outputs Course.finished Course.before
    dsimp only
    rw [hstarted, hsurroundings, hdisk, htransforms]
    exact writeTransforms_inPlace rfl rfl hcoded

/-- What such a run has written then. -/
theorem passes_query {isReturned : Bool} {made : Session.Transformed}
    {course : Course inPlaceWords .empty none (querySurroundings isReturned)}
    (htransforms : course.sources.transforms = [("/w/a.ts", made)])
    (harguments : course.arguments = inPlaceArguments) (hresult : course.outputs.2.2 = .ok ()) :
    course.Passes [⟨"/w/a.ts", "/w/a.ts", made⟩] course.outputs.1 := by
  obtain ⟨written, hpasses, hall⟩ := passes_writeTransforms course.finished.surroundings.disk
    course.arguments course.target course.sources.transforms
  have hpasses : course.Passes written course.outputs.1 := hpasses
  have hall := hall hresult
  rw [htransforms] at hall
  obtain ⟨⟨file, path, made⟩, rfl, hone⟩ := List.map_eq_singleton_iff.1 hall
  obtain ⟨rfl, rfl⟩ := Prod.mk.inj hone
  obtain rfl : path = "/w/a.ts" :=
    hpasses.path_eq (by rw [harguments]; rfl) (List.mem_singleton_self _)
  exact hpasses

end PersistedQueries.Command
