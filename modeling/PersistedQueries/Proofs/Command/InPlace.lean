import PersistedQueries.Proofs.Command.Saved
import PersistedQueries.Proofs.Disk.Searching
import PersistedQueries.Proofs.Splice.Octets

/-!
# Files that are rewritten in place

A run can write transformed files over their source files. Found files stand at different places, so
a file is written over only by its own transformed text. That text has the octets of the source file
but for its call sites, as long as there are no carriage returns in the file: these are lost when it
is read.

- `RewrittenOctets`: the octets of a file whose call sites have been replaced.
- `Course.not_transformed`: a file that could not be transformed, or has no call site, is none of the
  transformed files.
- `rewrites_inPlace`: what a run does to the files of a disk.
- `returns_lost`: a carriage return outside all call sites that is lost.
-/

namespace PersistedQueries

namespace Command

open Session (PersistedSite Rewritten Transformed siteEdit ownPlaces)
open Splice (replacedOctets)
open Disk (ChangesOnly)

variable {words : List String} {environment : Environment} {file : Option Text}
  {surroundings : Surroundings}

/-- The octets of a file have become others, because its text has been transformed. -/
structure RewrittenOctets (options : Options) (file : String) (made : Transformed)
    (octets later : List UInt8) : Prop where
  /-- The octets of the call sites have been replaced by those of their persisted calls, in the
  octets that the text has as it is read. -/
  asRead : ∃ text, Utf8.decode octets = .ok text ∧
    Rewritten options (Text.normalizeNewlines text) file made ∧
    later = replacedOctets (Utf8.encode (Text.normalizeNewlines text)) 0
      (made.sites.map fun site => (siteEdit options site).octets (Text.normalizeNewlines text))
  /-- Without carriage returns these are the octets of the file. -/
  asIs : (13 : UInt8) ∉ octets → ∃ text, Utf8.decode octets = .ok text ∧
    Rewritten options text file made ∧
    later = replacedOctets octets 0 (made.sites.map fun site => (siteEdit options site).octets text)

/-- A transformed text has the octets of its file but for the call sites. -/
theorem rewrittenOctets_of_rewritten {options : Options} {disk : Disk} {source : String}
    {made : Transformed} {code : Text} {octets : List UInt8}
    (hread : disk.readText source = .ok code)
    (hentry : disk.entry? (disk.placeOf source) = some (.file octets))
    (h : Rewritten options code source made) :
    RewrittenOctets options source made octets (Utf8.encode made.spliced.code) := by
  unfold Disk.readText at hread
  split at hread
  · cases hread
  next octets' hoctets =>
  cases (Disk.readOctets_eq_ok.1 hoctets).2.symm.trans hentry
  split at hread
  · cases hread
  next text htext =>
  cases hread
  have hcode : Utf8.encode made.spliced.code =
      replacedOctets (Utf8.encode (Text.normalizeNewlines text)) 0
        (made.sites.map fun site =>
          (siteEdit options site).octets (Text.normalizeNewlines text)) := by
    rw [h.code_eq, Splice.encode_replacedFrom, List.map_map]
    rfl
  refine ⟨⟨text, htext, h, hcode⟩, fun hreturn => ?_⟩
  obtain ⟨hkept, hencode⟩ := normalizeNewlines_of_decode htext hreturn
  rw [hkept] at h hcode
  exact ⟨text, htext, h, hencode ▸ hcode⟩

namespace Course

variable (course : Course words environment file surroundings)

/-! ## Source files -/

/-- The source files of a run. -/
def files : List String :=
  course.before.disk.findFiles course.target course.options.endings
    (Settings.exclusions course.exclude)

/-- What there is before the first source file. -/
def start : Sources := { session := (startOf surroundings course.settings course.root).session }

/-- The transform of a source file fails, with what there is when its turn comes. -/
def Fails (source : String) : Prop :=
  ∃ earlier others sources code fault, course.files = earlier ++ source :: others ∧
    transformFiles course.before.disk course.start earlier = .ok sources ∧
    course.before.disk.readText source = .ok code ∧
    (sources.session.transform course.before.disk code source).2.1 = .error fault

/-- A source file has no call site. -/
def IsPlain (source : String) : Prop :=
  source ∈ course.files ∧ ∃ code, course.before.disk.readText source = .ok code ∧
    CallSite.extract code (some source) = []

theorem nodup_files (h : surroundings.disk.Named) :
    (course.files.map surroundings.disk.placeOf).Nodup := by
  rw [← funext course.before_changes.placeOf]
  exact (course.before_changes.named h).nodup_findFiles _ _ _

theorem sublist_transforms :
    (course.sources.transforms.map Prod.fst).Sublist course.files := by
  obtain ⟨kept, hsublist, hkept⟩ := files_transformFiles course.sources_eq
  exact hkept ▸ hsublist

variable {course}

/-- Transformed files stand at different places, so a place has one transformed text. -/
theorem transform_unique (h : surroundings.disk.Named) {source other : String}
    {made made' : Transformed} (hsource : (source, made) ∈ course.sources.transforms)
    (hother : (other, made') ∈ course.sources.transforms)
    (hplace : surroundings.disk.placeOf source = surroundings.disk.placeOf other) :
    (source, made) = (other, made') := by
  have hnodup := (course.nodup_files h).sublist (course.sublist_transforms.map _)
  rw [List.map_map] at hnodup
  exact List.inj_on_of_nodup_map hnodup hsource hother hplace

/-- A file whose transform fails is left out of the transformed files. -/
theorem Fails.sublist {source : String} (h : course.Fails source) :
    ∃ earlier others, course.files = earlier ++ source :: others ∧
      (course.sources.transforms.map Prod.fst).Sublist (earlier ++ others) := by
  obtain ⟨earlier, others, sources, code, fault, hfiles, hearlier, hread, hfault⟩ := h
  have hsources : transformFiles course.before.disk course.start course.files =
      .ok course.sources := course.sources_eq
  rw [hfiles, transformFiles_append, hearlier] at hsources
  change transformFiles _ _ (source :: others) = _ at hsources
  rw [transformFiles, hread] at hsources
  dsimp only at hsources
  cases hnext : sources.transform course.before.disk source code with
  | error fault =>
    rw [hnext] at hsources
    cases hsources
  | ok next =>
    rw [hnext] at hsources
    obtain ⟨kept, hkept, hfirst⟩ := files_transformFiles hearlier
    obtain ⟨kept', hkept', hlater⟩ := files_transformFiles hsources
    rcases (Sources.transform_eq_ok hnext).2 with ⟨made, hmade, -⟩ | ⟨-, hsame⟩
    · cases hfault.symm.trans hmade
    refine ⟨earlier, others, hfiles, ?_⟩
    rw [hlater, hsame, hfirst]
    exact hkept.append hkept'

/-- A file that could not be transformed, or has no call site, is none of the transformed files, and
stands at the place of none of them. -/
theorem not_transformed (h : surroundings.disk.Named) {source other : String} {made : Transformed}
    (hsource : course.Fails source ∨ course.IsPlain source)
    (hother : (other, made) ∈ course.sources.transforms) :
    surroundings.disk.placeOf other ≠ surroundings.disk.placeOf source := by
  have hnodup := course.nodup_files h
  rcases hsource with hfails | ⟨hmem, code, hread, hplain⟩
  · obtain ⟨earlier, others, hfiles, hsublist⟩ := hfails.sublist
    rw [hfiles, List.map_append, List.map_cons, List.nodup_middle, ← List.map_append] at hnodup
    intro hplace
    exact (List.nodup_cons.1 hnodup).1
      (hplace ▸ List.mem_map_of_mem (hsublist.subset (List.mem_map_of_mem hother)))
  · intro hplace
    have hfiles := course.sublist_transforms.subset (List.mem_map_of_mem hother)
    obtain rfl := List.inj_on_of_nodup_map hnodup hfiles hmem hplace
    obtain ⟨code', hread', hrewritten⟩ := course.sound.rewritten other made hother
    cases hread.symm.trans hread'
    have hsites := hrewritten.sites_eq
    rw [hplain, List.map_eq_nil_iff] at hsites
    exact hrewritten.sites_ne hsites

/-- The places of what a run makes beside transformed files: the manifest, the artifacts and the
source maps. -/
def SidePlaces (course : Course words environment file surroundings) (place : Disk.Place) : Prop :=
  ownPlaces course.options surroundings.disk place ∨
    course.arguments.sourceMaps = true ∧ ∃ transform ∈ course.sources.transforms,
      place = surroundings.disk.placeOf (transform.1 ++ ".map")

end Course

/-! ## What a run does to files -/

/-- What a run that writes in place leaves at the place of a file: the file itself, unless it is a
transformed file, and then its rewritten octets. -/
theorem Course.entry?_eq (course : Course words environment file surroundings)
    (hout : Settings.given course.arguments.outDir = none) {written : List Written} {later : Disk}
    (hpasses : course.Passes written later) {place : Disk.Place} {octets : List UInt8}
    (hentry : surroundings.disk.entry? place = some (.file octets))
    (hside : ¬ course.SidePlaces place) :
    ((∀ one ∈ written, surroundings.disk.placeOf one.file ≠ place) ∧
        later.entry? place = some (.file octets)) ∨
      ∃ one ∈ written, surroundings.disk.placeOf one.file = place ∧
        (one.file, one.made) ∈ course.sources.transforms ∧
        ∃ octets', later.entry? place = some (.file octets') ∧
          RewrittenOctets course.options one.file one.made octets octets' := by
  have hbefore := course.before_changes.file (fun h => hside (.inl (.inr h))) hentry
  have hfinished := course.finished_changes.file (fun h => hside (.inl h)) hbefore
  have hmaps : ∀ one ∈ written, course.arguments.sourceMaps = true →
      course.finished.surroundings.disk.placeOf (one.path ++ ".map") ≠ place := by
    intro one hone hmap hplace
    rw [placeOf_finished, hpasses.path_eq hout hone] at hplace
    exact hside (.inr ⟨hmap, _, hpasses.mem_transforms hone, hplace.symm⟩)
  by_cases hwritten : ∃ one ∈ written, surroundings.disk.placeOf one.file = place
  · obtain ⟨one, hone, hplace⟩ := hwritten
    obtain ⟨last, hlast, hsame, hcode⟩ := hpasses.entry?_eq hmaps hone
      (by rw [placeOf_finished, hpasses.path_eq hout hone, hplace])
    rw [placeOf_finished, hpasses.path_eq hout hlast] at hsame
    have hmem := hpasses.mem_transforms hlast
    obtain ⟨code, hread, hrewritten⟩ := course.sound.rewritten last.file last.made hmem
    refine .inr ⟨last, hlast, hsame, hmem, _, hcode,
      rewrittenOctets_of_rewritten hread ?_ hrewritten⟩
    rw [course.before_changes.placeOf, hsame, hbefore]
  · refine .inl ⟨fun one hone hplace => hwritten ⟨one, hone, hplace⟩,
      hpasses.touches.file ?_ hfinished⟩
    rintro ⟨one, hone, hplace | ⟨hmap, hplace⟩⟩
    · rw [placeOf_finished, hpasses.path_eq hout hone] at hplace
      exact hwritten ⟨one, hone, hplace.symm⟩
    · exact hmaps one hone hmap hplace.symm

/-- **Rewriting in place.** A run that does not come to writing transformed files changes nothing but
the manifest and the artifacts. When another run writes them over their source files, every file
keeps its octets or is one of the source files, with nothing but its call sites replaced; a source
file that has no call site or cannot be transformed keeps its octets; and unless the run breaks off,
all transformed files are written. This is so for all files but the manifest, the artifacts and the
source maps, and a file in which something is replaced also loses its carriage returns. -/
theorem rewrites_inPlace (words : List String) (environment : Environment) (file : Option Text)
    (readable : Bool) (surroundings : Surroundings) (hnamed : surroundings.disk.Named)
    (hout : ∀ arguments, Request.ofWords words = .ok (.run arguments) →
      Settings.given arguments.outDir = none) :
    let ended := run words environment file readable surroundings
    (Nonempty (Course words environment file surroundings) ∨
      ChangesOnly
        (fun place => ∃ arguments settings, Request.ofWords words = .ok (.run arguments) ∧
          Settings.ofArguments environment file arguments = .ok settings ∧
          ownPlaces settings.options surroundings.disk place)
        surroundings.disk ended.surroundings.disk) ∧
    ∀ (course : Course words environment file surroundings) (place : Disk.Place)
      (octets : List UInt8), surroundings.disk.entry? place = some (.file octets) →
      ¬ course.SidePlaces place →
      (ended.surroundings.disk.entry? place = some (.file octets) ∨
        ∃ source made later, (source, made) ∈ course.sources.transforms ∧
          surroundings.disk.placeOf source = place ∧
          ended.surroundings.disk.entry? place = some (.file later) ∧
          RewrittenOctets course.options source made octets later) ∧
      (∀ source, surroundings.disk.placeOf source = place →
        course.Fails source ∨ course.IsPlain source →
        ended.surroundings.disk.entry? place = some (.file octets)) ∧
      (∀ status, ended.result = .ok status →
        ∀ source made, (source, made) ∈ course.sources.transforms →
          surroundings.disk.placeOf source = place →
          ∃ later, ended.surroundings.disk.entry? place = some (.file later) ∧
            RewrittenOctets course.options source made octets later) := by
  refine ⟨course_or_changesOnly words environment file readable surroundings,
    fun course place octets hentry hside => ?_⟩
  obtain ⟨written, hpasses, hall⟩ := passes_writeTransforms course.finished.surroundings.disk
    course.arguments course.target course.sources.transforms
  obtain ⟨hdisk, hresult⟩ := course.run_eq readable
  rw [hdisk, hresult]
  have hplace := course.entry?_eq (hout _ course.ofWords_eq) hpasses hentry hside
  refine ⟨?_, fun source hsource hleft => ?_, fun status hstatus source made hmem hsource => ?_⟩
  · rcases hplace with ⟨-, hkept⟩ | ⟨one, hone, hsource, hmem, later, hlater, hrewritten⟩
    · exact .inl hkept
    · exact .inr ⟨one.file, one.made, later, hmem, hsource, hlater, hrewritten⟩
  · rcases hplace with ⟨-, hkept⟩ | ⟨one, hone, hother, hmem, -⟩
    · exact hkept
    · exact absurd (hother.trans hsource.symm) (Course.not_transformed hnamed hleft hmem)
  · have hdone : course.outputs.2.2 = .ok () := by
      cases hdone : course.outputs.2.2 with
      | ok _ => rfl
      | error fault =>
        rw [hdone] at hstatus
        cases hstatus
    rw [← hall hdone] at hmem
    obtain ⟨one, hone, heq⟩ := List.mem_map.1 hmem
    rcases hplace with ⟨hnone, -⟩ | ⟨other, hother, hsame, hmem', later, hlater, hrewritten⟩
    · cases heq
      exact absurd hsource (hnone one hone)
    · rw [hall hdone] at hmem
      cases Course.transform_unique hnamed hmem hmem' (hsource.trans hsame.symm)
      exact ⟨later, hlater, hrewritten⟩

/-! ## A carriage return -/

theorem named_querySurroundings (isReturned : Bool) :
    (querySurroundings isReturned).disk.Named where
  working := (by decide : ∀ name ∈ [['w']], Path.IsName name)
  entries {place _} hentry := by
    have hkeys : ∀ place ∈ (querySurroundings isReturned).disk.entries.keys,
        ∀ name ∈ place, Path.IsName name := by
      cases isReturned <;> decide
    exact hkeys place (Table.mem_keys_iff.2 ⟨_, hentry⟩)

/-- The place of the source file. -/
def queryPlace : Disk.Place := [['w'], "a.ts".toList]

theorem entry?_queryPlace (isReturned : Bool) :
    (querySurroundings isReturned).disk.entry? queryPlace =
      some (.file (queryOctets isReturned)) := by
  cases isReturned <;> rfl

theorem placeOf_query (isReturned : Bool) :
    (querySurroundings isReturned).disk.placeOf "/w/a.ts" = queryPlace := by
  cases isReturned <;> rfl

theorem not_sidePlaces_query {isReturned : Bool}
    {course : Course inPlaceWords .empty none (querySurroundings isReturned)}
    (harguments : course.arguments = inPlaceArguments)
    (hsettings : course.settings = usualSettings) : ¬ course.SidePlaces queryPlace := by
  have hoptions : course.options = {} := congrArg Settings.options hsettings
  unfold Course.SidePlaces
  rw [hoptions, harguments]
  rintro ((hplace | ⟨config, hconfig, -⟩) | ⟨hmaps, -⟩)
  · revert hplace
    cases isReturned <;> decide
  · cases hconfig
  · cases hmaps

/-- The query of a file without carriage returns is replaced, and the rest of the file is kept. -/
theorem rewrites_inPlace_query :
    ∃ made later,
      (run inPlaceWords .empty none true (querySurroundings false)).surroundings.disk.entry?
        queryPlace = some (.file later) ∧
      made.sites = [querySite] ∧
      RewrittenOctets {} "/w/a.ts" made (queryOctets false) later := by
  obtain ⟨course, made, htransforms, hsites, harguments, hsettings, hresult⟩ :=
    exists_course_query false
  have hwords : ∀ arguments, Request.ofWords inPlaceWords = .ok (.run arguments) →
      Settings.given arguments.outDir = none := by
    intro arguments h
    cases ofWords_inPlace.symm.trans h
    rfl
  have hended := (course.run_eq true).2
  rw [hresult] at hended
  obtain ⟨-, -, hall⟩ := (rewrites_inPlace inPlaceWords .empty none true (querySurroundings false)
    (named_querySurroundings false) hwords).2 course queryPlace _ (entry?_queryPlace false)
    (not_sidePlaces_query harguments hsettings)
  obtain ⟨later, hlater, hrewritten⟩ := hall _ hended "/w/a.ts" made
    (htransforms ▸ List.mem_singleton_self _) (placeOf_query false)
  have hoptions : course.options = {} := congrArg Settings.options hsettings
  exact ⟨made, later, hlater, hsites, hoptions ▸ hrewritten⟩

/-- Edits behind the first octet keep it. -/
theorem head?_replacedOctets {edits : List Splice.OctetEdit}
    (h : ∀ edit ∈ edits, 0 < edit.span.start) (first : UInt8) (base : List UInt8) :
    (replacedOctets (first :: base) 0 edits).head? = some first := by
  cases edits with
  | nil => rfl
  | cons edit rest =>
    obtain ⟨n, hn⟩ := Nat.exists_eq_succ_of_ne_zero (h edit List.mem_cons_self).ne'
    rw [replacedOctets, hn]
    rfl

/-- The carriage return at the beginning of the file is lost, although the only call site stands on
the second line. -/
theorem returns_lost :
    ∃ later,
      (run inPlaceWords .empty none true (querySurroundings true)).surroundings.disk.entry?
        queryPlace = some (.file later) ∧
      CallSite.extract queryCode (some "/w/a.ts") = [querySite.site] ∧
      ∀ edits : List Splice.OctetEdit, (∀ edit ∈ edits, 0 < edit.span.start) →
        later ≠ replacedOctets (queryOctets true) 0 edits := by
  obtain ⟨course, made, htransforms, hsites, harguments, hsettings, hresult⟩ :=
    exists_course_query true
  have hpasses := passes_query htransforms harguments hresult
  rcases course.entry?_eq (by rw [harguments]; rfl) hpasses (entry?_queryPlace true)
      (not_sidePlaces_query harguments hsettings) with
    ⟨hnone, -⟩ | ⟨one, hone, -, -, later, hlater, hrewritten⟩
  · exact absurd (placeOf_query true) (hnone _ (List.mem_singleton_self _))
  cases List.mem_singleton.1 hone
  refine ⟨later, ?_, extract_queryCode, fun edits hedits heq => ?_⟩
  · rw [(course.run_eq true).1]
    exact hlater
  obtain ⟨text, htext, -, hcode⟩ := hrewritten.asRead
  have htext' : Utf8.decode (queryOctets true) = .ok ('\r' :: queryCode) := Utf8.decode_encode _
  cases htext.symm.trans htext'
  -- the file began with a carriage return, and begins with a line feed now
  rw [hsites] at hcode
  have hreturn : later.head? = some 13 := heq ▸ head?_replacedOctets hedits ..
  have hfeed : later.head? = some 10 := by
    rw [hcode]
    refine head?_replacedOctets (fun edit hedit => ?_) ..
    rw [List.mem_singleton.1 hedit]
    show 0 < Splice.octetOffset (Text.normalizeNewlines ('\r' :: queryCode)) 7
    decide
  cases hreturn.symm.trans hfeed

end Command

end PersistedQueries
