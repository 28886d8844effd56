import PersistedQueries.Proofs.Canonical.Confluence
import PersistedQueries.Proofs.Command.Begun
import PersistedQueries.Proofs.Command.Saved
import PersistedQueries.Proofs.Command.Turns

/-!
# What a broken file does to the others

A file whose transform fails is reported, and the run goes on. The failing file may have left
definitions in the index, its own and those of files that it imports from, and definitions are found
by their names wherever they stand. So another file is safe from it as long as none of the names that
the other file uses is defined a second time in a file that the run reaches; a name that the failing
file defines itself is not the only one that matters.

- `Begun.Reached`: the files that a run can come to.
- `Begun.InOrder`: a source file that can be transformed, with what it depends on.
- `Begun.Apart`: no other file that the run can come to defines a name of theirs.
- `Begun.Processed`: what a run does with its source files.
- `Begun.exists_turns`: every source file has its turn.
- `broken_files_apart`: a file that is in order is transformed and recorded as it is when the files
  that fail are not there.
-/

namespace PersistedQueries.Command

open Session (Transformed artifactPlaces)
open Index (Program WellFormed Holds Contributes hostTexts)

variable {words : List String} {environment : Environment} {file : Option Text}
  {surroundings surroundings' : Surroundings} {turns : List Turn} {sources : Sources}
  {program : Program} {source : String} {code : Text}

/-- Different canonical texts of transformed files have different digests. -/
def Sources.DigestsApart (sources : Sources) : Prop :=
  ∀ site other, sources.Has site → sources.Has other →
    digest site.persisted.query.toList = digest other.persisted.query.toList →
      site.persisted.query = other.persisted.query

namespace Begun

variable (begun : Begun words environment file surroundings)
  (begun' : Begun words environment file surroundings')

/-- A transformed file is recorded: the manifest has the canonical text of each of its call sites
under the digest, and so has the file of the manifest once it is written, unless an artifact is put
in its place. -/
def Recorded (sources : Sources) (made : Transformed) : Prop :=
  ∃ manifest, sources.session.manifest = some manifest ∧
    (∀ site ∈ made.sites,
      manifest.entries.get? site.persisted.hash = some site.persisted.query) ∧
    ((sources.session.finish begun.before).result = .ok () →
      ¬ artifactPlaces begun.settings.options begun.before.disk
        (begun.before.disk.placeOf begun.settings.options.outputPath) →
      Manifest.readEntries (sources.session.finish begun.before).surroundings.disk
        begun.settings.options.outputPath = .ok manifest.entries)

/-- The files that the source files reach by imports. -/
def Reached : String → Prop := Index.Reachable (hostTexts begun.host) begun.host begun.files

/-- No other file that the run can come to defines a name of a program. -/
def Apart (program : Program) : Prop :=
  ∀ id other site own, begun.Reached id → Contributes (hostTexts begun.host) id site →
    Contributes program other own → site.name = own.name → id = other

/-- A source file is in order: it is part of a program that is well-formed, and with nothing else
indexed its call sites have canonical texts. -/
structure InOrder (program : Program) (source : String) (code : Text) : Prop where
  listed : source ∈ begun.files
  text_eq : program source = some code
  wellFormed : WellFormed program begun.host
  canonical : ∀ site ∈ CallSite.extract code (some source), ∃ made,
    persist (Index.indexFile begun.host .empty source code).index.registry site
      begun.settings.options.addTypename = .ok made

/-- What a run does with its source files: every one has its turn, each failure is counted and
reported, and the status says whether there is one, unless something cannot be written. -/
structure Processed (readable : Bool) (turns : List Turn) (sources : Sources) : Prop where
  turns_of : Turns begun.before.disk begun.start begun.files turns sources
  files_eq : turns.map Prod.fst = begun.files
  failures_eq : sources.failures = turns.countP Turn.fails
  reports : (run words environment file readable surroundings).output.Reports
    (String.join (turns.map Turn.report))
  ends : (run words environment file readable surroundings).result =
      .ok (if turns.any Turn.fails then 1 else 0) ∨
    ∃ fault, (run words environment file readable surroundings).result = .error fault ∧
      begun.Unwritten sources fault

/-- A failing file stands at a place. -/
def FailsAt (turns : List Turn) (place : Disk.Place) : Prop :=
  ∃ turn ∈ turns, turn.fails = true ∧ begun.before.disk.placeOf turn.1 = place

/-! ## Files that are reached -/

theorem reached_of_mem_files (h : source ∈ begun.files) : begun.Reached source :=
  ⟨source, h, .refl⟩

theorem carries_reached : Index.Carries begun.host begun.Reached :=
  fun _ _ hfile hleads => hfile.step hleads

/-- Nothing has been met before the first source file. -/
theorem meets_start : Meets begun.before.disk begun.Reached begun.settings.options
    begun.start.session.modules begun.start.session where
  options_eq := begun.fits_start.options_eq
  modules_eq := rfl
  fits := by
    rw [begun.index_start]
    exact .empty _

variable {begun}

/-- What is reached are files, since the source files are and imports lead to files. -/
theorem exists_octets_of_reached
    (hreadable : ∀ source ∈ begun.files, ∃ code, begun.before.disk.readText source = .ok code)
    {id : String} (h : begun.Reached id) : ∃ octets, begun.before.disk.readOctets id = .ok octets := by
  obtain ⟨first, hfirst, hpath⟩ := h
  cases hpath with
  | refl =>
    obtain ⟨code, hread⟩ := hreadable _ hfirst
    obtain ⟨octets, -, hoctets, -⟩ := Disk.readText_eq_ok.1 hread
    exact ⟨octets, hoctets⟩
  | tail _ hleads =>
    obtain ⟨name, text, site, specifier, found, -, -, -, -, -, hresolve, rfl⟩ := hleads
    exact Disk.isFile_iff.1 (Modules.isFile_of_resolve (Modules.host_resolve_eq_ok.1 hresolve))

/-- Every source file has its turn when all of them can be read. -/
theorem exists_turns
    (hreadable : ∀ source ∈ begun.files, ∃ code, begun.before.disk.readText source = .ok code) :
    ∃ turns sources, Turns begun.before.disk begun.start begun.files turns sources :=
  Command.exists_turns begun.meets_start begun.carries_reached
    (fun _ => exists_octets_of_reached hreadable)
    fun source hsource => ⟨begun.reached_of_mem_files hsource, hreadable source hsource⟩

/-- What the run reports then, and how it ends. -/
theorem processed_of_turns (readable : Bool)
    (h : Turns begun.before.disk begun.start begun.files turns sources) :
    begun.Processed readable turns sources := by
  have hfailures : sources.failures = turns.countP Turn.fails :=
    h.failures_eq.trans (Nat.zero_add _)
  have herr : sources.output.err = String.join (turns.map Turn.report) :=
    h.err_eq.trans String.empty_append
  have hstatus : statusOf sources.failures = if turns.any Turn.fails then 1 else 0 := by
    unfold statusOf
    simp only [hfailures, gt_iff_lt, List.countP_pos_iff, ← List.any_eq_true]
  obtain ⟨hreports, hends⟩ := begun.run_of_transformFiles readable h.transformFiles_eq
  rw [herr] at hreports
  rw [hstatus] at hends
  exact ⟨h, h.files_eq, hfailures, hreports, hends⟩

/-! ## Files that are in order -/

/-- A file of a program that stands apart has its turn with a session that holds the program. -/
theorem exists_holds (h : Turns begun.before.disk begun.start begun.files turns sources)
    (hprogram : WellFormed program begun.host) (hapart : begun.Apart program)
    (hsource : program source = some code) {result : Except Session.Fault (Option Transformed)}
    (hturn : (source, result) ∈ turns) :
    ∃ session : Session, session.options = begun.settings.options ∧ Holds program session.index ∧
      result = (session.transformOn begun.host code source).2.1 := by
  obtain ⟨session, code', hmeets, hread, hresult⟩ := h.exists_session begun.meets_start
    begun.carries_reached (fun _ => begun.reached_of_mem_files) hturn
  obtain rfl : code = code' :=
    Except.ok.inj ((Modules.host_load_eq_ok.1 (hprogram.loaded hsource)).symm.trans hread)
  refine ⟨session, hmeets.options_eq, hprogram.holds_of_fits hmeets.fits hapart, ?_⟩
  unfold Session.transform at hresult
  rw [hmeets.modules_eq] at hresult
  exact hresult

theorem exists_mem_of_listed (h : Turns begun.before.disk begun.start begun.files turns sources)
    (hlisted : source ∈ begun.files) : ∃ result, (source, result) ∈ turns := by
  rw [← h.files_eq] at hlisted
  obtain ⟨⟨_, result⟩, hturn, rfl⟩ := List.mem_map.1 hlisted
  exact ⟨result, hturn⟩

/-- A file that is in order and apart is transformed. -/
theorem InOrder.transformed (hsource : begun.InOrder program source code)
    (hapart : begun.Apart program)
    (h : Turns begun.before.disk begun.start begun.files turns sources) :
    ∃ made, (source, .ok made) ∈ turns := by
  obtain ⟨result, hturn⟩ := exists_mem_of_listed h hsource.listed
  obtain ⟨session, hoptions, hholds, rfl⟩ :=
    exists_holds h hsource.wellFormed hapart hsource.text_eq hturn
  have hcanonical := hsource.canonical
  rw [← hoptions] at hcanonical
  obtain ⟨made, hmade⟩ :=
    Session.transformOn_eq_ok hsource.wellFormed hholds hsource.text_eq hcanonical
  exact ⟨made, hmade ▸ hturn⟩

/-- What is transformed is recorded. -/
theorem recorded_of_mem (h : Turns begun.before.disk begun.start begun.files turns sources)
    (hdigest : sources.DigestsApart) {made : Transformed} (hturn : (source, .ok (some made)) ∈ turns) :
    begun.Recorded sources made := by
  have hsound := sound_transformFiles (Sources.sound_start begun.fits_start) h.transformFiles_eq
  have hmem : (source, made) ∈ sources.transforms := by
    rw [h.transforms_eq]
    exact List.mem_append_right _ (List.mem_filterMap.2 ⟨_, hturn, rfl⟩)
  obtain ⟨manifest, hmanifest, -⟩ := hsound.fits.path_eq
  refine ⟨manifest, hmanifest, fun site hsite => ?_, fun hfinish hplace => ?_⟩
  · exact hsound.get?_hash hdigest hmanifest ⟨source, made, hmem, hsite⟩
  · exact hsound.fits.readEntries_finish hplace hmanifest hfinish

/-! ## The run without the failing files -/

/-- Runs of the same words look for the same files. -/
theorem files_eq_findFiles (begun : Begun words environment file surroundings)
    (begun' : Begun words environment file surroundings') :
    begun'.files = begun'.before.disk.findFiles begun.target begun.settings.options.endings
      (Settings.exclusions begun.exclude) := by
  obtain ⟨hsettings, -, hexclude, htarget⟩ := begun.agree begun'
  unfold files
  rw [hsettings, hexclude, htarget]

section Without

variable {begun' : Begun words environment file surroundings'}
  {places : Disk.Place → Prop} (hwithout : begun.before.disk.Without places begun'.before.disk)

include hwithout

theorem modules_without : begun'.start.session.modules = begun.start.session.modules := by
  obtain ⟨hsettings, hroot, -, -⟩ := begun.agree begun'
  rw [begun'.modules_start, begun.modules_start, hsettings, hroot]
  unfold Modules.ofRoot
  rw [hwithout.absolute]

/-- The source files that are left can be read as before. -/
theorem readable_without (hnamed : begun.before.disk.Named)
    (hreadable : ∀ source ∈ begun.files, ∃ code, begun.before.disk.readText source = .ok code) :
    ∀ source ∈ begun'.files, ∃ code, begun'.before.disk.readText source = .ok code := by
  intro source hsource
  rw [begun.files_eq_findFiles begun'] at hsource
  obtain ⟨code, hread⟩ := hreadable source (hwithout.findFiles_subset hsource)
  exact ⟨code, hwithout.readText_iff.2
    ⟨hread, hwithout.not_places_of_mem_findFiles hnamed hsource⟩⟩

/-- A file of a program that stands apart in both runs, and that nothing is taken from, is transformed
alike in both. -/
theorem mem_turns_without {turns' : List Turn} {sources' : Sources}
    (hnamed : begun.before.disk.Named)
    (h : Turns begun.before.disk begun.start begun.files turns sources)
    (h' : Turns begun'.before.disk begun'.start begun'.files turns' sources')
    (hsource : begun.InOrder program source code) (hapart : begun.Apart program)
    (hapart' : begun'.Apart program)
    (hplaces : ∀ id text, program id = some text → ¬ places (begun.before.disk.placeOf id))
    {result : Except Session.Fault (Option Transformed)} (hturn : (source, result) ∈ turns) :
    (source, result) ∈ turns' := by
  have hhost : begun'.host = begun.start.session.modules.host begun'.before.disk := by
    unfold host
    rw [modules_without hwithout]
  have hprogram' : WellFormed program begun'.host := by
    rw [hhost]
    exact Session.wellFormed_without hsource.wellFormed hnamed hwithout hplaces
  -- so the file has a turn in both runs, each with a session that holds the program
  have hlisted : source ∈ begun'.files := by
    rw [begun.files_eq_findFiles begun']
    exact hwithout.mem_findFiles hnamed hsource.listed (hplaces _ _ hsource.text_eq)
  obtain ⟨result', hturn'⟩ := exists_mem_of_listed h' hlisted
  obtain ⟨session, hoptions, hholds, rfl⟩ :=
    exists_holds h hsource.wellFormed hapart hsource.text_eq hturn
  obtain ⟨session', hoptions', hholds', rfl⟩ :=
    exists_holds h' hprogram' hapart' hsource.text_eq hturn'
  have hsame : session'.options = session.options := by
    rw [hoptions', hoptions, (begun.agree begun').1]
  rwa [Session.transformOn_eq_of_holds hprogram' hsource.wellFormed hsame hholds' hholds
    hsource.text_eq] at hturn'

end Without

end Begun

/-- **Broken files and the others.** A run that comes to its source files, all of which can be read,
gives every one its turn, reports and counts each that fails, and ends with status one if there is
one, unless something cannot be written. A file that is in order, with what it depends on, is
transformed and recorded, whatever fails, if no other file that the run can come to defines a name of
theirs. And if none of them fails either, and no other file defines such a name in the run of the same
words without the failing files, then the file becomes in that run what it becomes in this one. -/
theorem broken_files_apart (begun : Begun words environment file surroundings) (readable : Bool)
    (hnamed : surroundings.disk.Named)
    (hreadable : ∀ source ∈ begun.files, ∃ code, begun.before.disk.readText source = .ok code) :
    ∃ turns sources, begun.Processed readable turns sources ∧
      (∀ program source code, begun.InOrder program source code → begun.Apart program →
        ∃ made, (source, .ok made) ∈ turns ∧
          (sources.DigestsApart → ∀ transformed, made = some transformed →
            begun.Recorded sources transformed)) ∧
      ∀ (surroundings' : Surroundings) (begun' : Begun words environment file surroundings'),
        begun.before.disk.Without (begun.FailsAt turns) begun'.before.disk →
        ∃ turns' sources', begun'.Processed readable turns' sources' ∧
          ∀ program source code made, begun.InOrder program source code → begun.Apart program →
            begun'.Apart program →
            (∀ id text, program id = some text →
              ¬ begun.FailsAt turns (begun.before.disk.placeOf id)) →
            (source, .ok made) ∈ turns →
            (source, .ok made) ∈ turns' ∧
              (sources'.DigestsApart → ∀ transformed, made = some transformed →
                begun'.Recorded sources' transformed) := by
  obtain ⟨turns, sources, hturns⟩ := Begun.exists_turns hreadable
  have hnamed := begun.before_changes.named hnamed
  refine ⟨turns, sources, Begun.processed_of_turns readable hturns, ?_, ?_⟩
  · intro program source code hsource hapart
    obtain ⟨made, hmade⟩ := hsource.transformed hapart hturns
    refine ⟨made, hmade, ?_⟩
    rintro hdigest transformed rfl
    exact Begun.recorded_of_mem hturns hdigest hmade
  · intro surroundings' begun' hwithout
    obtain ⟨turns', sources', hturns'⟩ :=
      Begun.exists_turns (Begun.readable_without hwithout hnamed hreadable)
    refine ⟨turns', sources', Begun.processed_of_turns readable hturns', ?_⟩
    intro program source code made hsource hapart hapart' hplaces hmade
    have hmade' := Begun.mem_turns_without hwithout hnamed hturns hturns' hsource hapart hapart'
      hplaces hmade
    refine ⟨hmade', ?_⟩
    rintro hdigest transformed rfl
    exact Begun.recorded_of_mem hturns' hdigest hmade'

/-! ## A directory with a broken file -/

/-- The words for a run in the working directory. -/
def hereWords : List String := ["--path", "."]

/-- The arguments that the words make. -/
def hereArguments : Arguments := { path := some (.text ".") }

/-- A text with a call site that is no document. It may have one more, which depends on a fragment of
the first of two files. -/
def brokenCode : Bool → Text
  | true =>
    "P = graphql(`\x7b`)\nimport {F} from './x.js'\nQ = graphql(`{...F}`, [F])".toList
  | false => "P = graphql(`\x7b`)".toList

/-- A text with a query that depends on a fragment of the second file. -/
def userCode : Text :=
  "import {F} from './y.js'\nB = graphql(`{...F}`, [F])".toList

/-- The two files that define the fragment. -/
def fragmentCode : Bool → Text
  | true => "F = graphql(`fragment F on T{x}`)".toList
  | false => "F = graphql(`fragment F on T{y}`)".toList

/-- Where they stand. -/
def fragmentPath : Bool → String
  | true => "/w/x.js"
  | false => "/w/y.js"

/-- A directory with these files, the broken one among them or not. -/
def yard (broken : Option Bool) : Surroundings where
  disk := .ofEntries [['w']]
    ((broken.toList.map fun isStray =>
        (["a.ts".toList], .file (Utf8.encode (brokenCode isStray)))) ++
      [(["b.ts".toList], .file (Utf8.encode userCode)),
        (["x.js".toList], .file (Utf8.encode (fragmentCode true))),
        (["y.js".toList], .file (Utf8.encode (fragmentCode false)))])

/-- The call site that is no document. -/
def brokenSite : CallSite := ⟨"P", "\x7b", ⟨0, 16⟩, .empty, some "/w/a.ts"⟩

/-- The other call site of the broken text. -/
def straySite : CallSite := ⟨"Q", "{...F}", ⟨42, 68⟩, .ofList ["F"], some "/w/a.ts"⟩

/-- The query. -/
def userSite : CallSite := ⟨"B", "{...F}", ⟨25, 51⟩, .ofList ["F"], some "/w/b.ts"⟩

/-- The fragment of one of the two files. -/
def fragmentSite (isStray : Bool) : CallSite where
  name := "F"
  source := if isStray then "fragment F on T{x}" else "fragment F on T{y}"
  span := ⟨0, 33⟩
  dependsOn := .empty
  file := some (fragmentPath isStray)

theorem extract_brokenCode (isStray : Bool) :
    CallSite.extract (brokenCode isStray) (some "/w/a.ts") =
      if isStray then [brokenSite, straySite] else [brokenSite] := by
  cases isStray <;> decide +kernel

theorem extract_userCode : CallSite.extract userCode (some "/w/b.ts") = [userSite] := by
  decide +kernel

theorem extract_fragmentCode (isStray : Bool) :
    CallSite.extract (fragmentCode isStray) (some (fragmentPath isStray)) =
      [fragmentSite isStray] := by
  cases isStray <;> decide +kernel

/-! ### The run -/

/-- The run comes to its source files. -/
def yardBegun (broken : Option Bool) : Begun hereWords .empty none (yard broken) where
  arguments := hereArguments
  settings := usualSettings
  root := "."
  exclude := ""
  target := "."
  schema := none
  ofWords_eq := by rfl
  ofArguments_eq := by rfl
  isEnabled := rfl
  root_eq := rfl
  output_ne := nofun
  exclude_eq := rfl
  target_eq := rfl
  start_eq := rfl

theorem before_yard (broken : Option Bool) : (yardBegun broken).before = yard broken := rfl

theorem files_yard (broken : Option Bool) :
    (yardBegun broken).files = (broken.toList.map fun _ => "/w/a.ts") ++ ["/w/b.ts"] := by
  have hfound : (yardBegun broken).files =
      Disk.sorted ((broken.toList.map fun _ => "/w/a.ts") ++ ["/w/b.ts"]) := by
    rcases broken with _ | _ | _ <;> rfl
  rw [hfound]
  refine List.mergeSort_of_pairwise ?_
  rcases broken with _ | _ | _ <;> decide

theorem load_yard {broken : Option Bool} {path : String} {text : Text}
    (hfollow : (yard broken).disk.follow path = .ok ((yard broken).disk.placeOf path))
    (hentry : (yard broken).disk.entry? ((yard broken).disk.placeOf path) =
      some (.file (Utf8.encode text))) (hplain : '\r' ∉ text) :
    (yardBegun broken).host.load path = .ok text :=
  Modules.host_load_eq_ok.2 (Disk.readText_eq_ok.2 ⟨_, text, Disk.readOctets_eq_ok.2
    ⟨hfollow, hentry⟩, Utf8.decode_encode text, Text.normalizeNewlines_of_not_mem hplain⟩)

theorem load_broken (isStray : Bool) :
    (yardBegun (some isStray)).host.load "/w/a.ts" = .ok (brokenCode isStray) := by
  cases isStray <;> exact load_yard rfl rfl (by decide)

theorem load_user (broken : Option Bool) :
    (yardBegun broken).host.load "/w/b.ts" = .ok userCode := by
  rcases broken with _ | _ | _ <;> exact load_yard rfl rfl (by decide)

theorem load_fragment (broken : Option Bool) (isStray : Bool) :
    (yardBegun broken).host.load (fragmentPath isStray) = .ok (fragmentCode isStray) := by
  rcases broken with _ | _ | _ <;> cases isStray <;> exact load_yard rfl rfl (by decide)

/-- The query depends on the fragment of the second file. -/
theorem uses_user (broken : Option Bool) :
    Index.Uses (yardBegun broken).host "/w/b.ts" (fragmentPath false) userCode (fragmentCode false)
      (fragmentSite false) where
  load_eq := load_user broken
  load_other := load_fragment broken false
  extract_other := extract_fragmentCode false
  needs_nothing := NameSet.not_mem_empty
  distinct := by
    rw [extract_userCode]
    decide
  others := by
    rw [extract_userCode]
    decide
  needs := by
    rw [extract_userCode]
    rintro site hsite name hname
    rw [List.mem_singleton.1 hsite] at hname
    simpa [userSite, fragmentSite] using hname
  imported := by
    have himport : (CallSite.parseImports userCode).get? "F" = some "./y.js" := by
      decide +kernel
    refine ⟨_, ⟨fragmentPath false, ?_⟩, himport, ?_, rfl⟩
    · rcases broken with _ | _ | _ <;> decide +kernel
    · rcases broken with _ | _ | _ <;> rfl

/-- The broken file may depend on the fragment of the first one. -/
theorem uses_stray :
    Index.Uses (yardBegun (some true)).host "/w/a.ts" (fragmentPath true) (brokenCode true)
      (fragmentCode true) (fragmentSite true) where
  load_eq := load_broken true
  load_other := load_fragment (some true) true
  extract_other := extract_fragmentCode true
  needs_nothing := NameSet.not_mem_empty
  distinct := by
    rw [extract_brokenCode]
    decide
  others := by
    rw [extract_brokenCode]
    decide
  needs := by
    rw [extract_brokenCode]
    rintro site hsite name hname
    rcases List.mem_pair.1 hsite with rfl | rfl
    · exact absurd hname (NameSet.not_mem_empty name)
    · simpa [straySite, fragmentSite] using hname
  imported := by
    have himport : (CallSite.parseImports (brokenCode true)).get? "F" = some "./x.js" := by
      decide +kernel
    exact ⟨_, ⟨fragmentPath true, by decide +kernel⟩, himport, rfl, rfl⟩

/-! ### What becomes of the files -/

/-- The field that one of the fragments has. -/
def fieldOf (isStray : Bool) : String := if isStray then "x" else "y"

/-- The query with one of the fragments. -/
def userDocument (isStray : Bool) : GraphQL.Document :=
  [.operation ⟨none, .query, none, [], [], [.spread "F" []]⟩,
    .fragment ⟨none, "F", "T", [], [.field none (fieldOf isStray) [] [] []]⟩]

/-- Its canonical text. -/
def userQuery (isStray : Bool) : String :=
  if isStray then "query { ...F } fragment F on T { x }"
  else "query { ...F } fragment F on T { y }"

/-- The merged text. -/
def userMerged (isStray : Bool) : Text :=
  Merge.append userSite.source.toList (fragmentSite isStray).source.toList

set_option maxRecDepth 8000 in
theorem canonicalize_user (isStray : Bool) :
    GraphQL.canonicalize (userMerged isStray) false = .ok (userQuery isStray).toList := by
  have hparse : GraphQL.parse (userMerged isStray) = .ok (userDocument isStray) := by
    cases isStray <;> cbv
  have hsorted : GraphQL.sortDocument (userDocument isStray) = userDocument isStray := by
    cases isStray <;> cbv
  have htext : GraphQL.canonicalText (userDocument isStray) = (userQuery isStray).toList := by
    cases isStray <;> decide +kernel
  rw [GraphQL.canonicalize_of_parse hparse, if_neg Bool.false_ne_true, hsorted, htext]

theorem persist_user {registry : Registry} {isStray : Bool}
    (h : registry.get? "F" = some (fragmentSite isStray)) :
    persist registry userSite false = .ok (.ofCanonical (userQuery isStray).toList) := by
  have hmerge : merge registry userSite = .ok (userMerged isStray) := by
    show Merge.visit registry _ _ _ ["F"] = _
    rw [Merge.visit, dif_neg (NameSet.not_mem_empty _)]
    split
    · next hnone => cases h.symm.trans hnone
    · next site hsite =>
      cases h.symm.trans hsite
      rw [show (NameSet.empty.insert "F").lacking (fragmentSite isStray).dependsOn.names ++ [] = []
        from rfl, Merge.visit]
      rfl
  exact persist_of_merge hmerge (canonicalize_user isStray)

theorem attempt_user {outcome : Index.Outcome Modules.Failure} {isStray : Bool}
    (hok : outcome.result = .ok ())
    (h : outcome.index.registry.get? "F" = some (fragmentSite isStray)) :
    ∃ made, Session.attempt {} userCode "/w/b.ts" outcome = .ok (some made) ∧
      made.sites.map (fun site => site.persisted.query) = [userQuery isStray] := by
  have hpersisted : Session.persistAll outcome.index.registry false userCode
      (CallSite.extract userCode (some "/w/b.ts")) =
        .ok [⟨userSite, 2, .ofCanonical (userQuery isStray).toList⟩] := by
    rw [extract_userCode, Session.persistAll_singleton userCode (persist_user h)]
    rfl
  obtain ⟨map, hsplice⟩ :=
    Session.spliceCalls_extract {} (Session.persistAll_eq_ok hpersisted).1
  unfold Session.attempt
  rw [hok]
  dsimp only
  rw [hpersisted]
  dsimp only
  rw [hsplice]
  refine ⟨_, rfl, ?_⟩
  simp [Persisted.ofCanonical]

/-- Whatever has been indexed, the broken text has a call site without a canonical text. -/
theorem attempt_broken (isStray : Bool) (outcome : Index.Outcome Modules.Failure) :
    ∃ fault, Session.attempt {} (brokenCode isStray) "/w/a.ts" outcome = .error fault := by
  have hmerge : merge outcome.index.registry brokenSite = .ok brokenSite.source.toList :=
    merge_of_no_names _ rfl
  have hcanonical : (GraphQL.canonicalize brokenSite.source.toList false).toOption = none := by
    decide +kernel
  obtain ⟨cause, hcause⟩ : ∃ cause, persist outcome.index.registry brokenSite false =
      .error cause := by
    unfold persist
    rw [hmerge]
    dsimp only
    cases hresult : GraphQL.canonicalize brokenSite.source.toList false with
    | error fault => exact ⟨_, rfl⟩
    | ok text =>
      rw [hresult] at hcanonical
      cases hcanonical
  have hpersisted : Session.persistAll outcome.index.registry false (brokenCode isStray)
      (CallSite.extract (brokenCode isStray) (some "/w/a.ts")) = .error cause := by
    unfold Session.persistAll
    rw [extract_brokenCode]
    cases isStray <;>
    · simp only [if_true, Bool.false_eq_true, if_false, List.mapM_cons, hcause]
      rfl
  unfold Session.attempt
  cases outcome.result with
  | error fault => exact ⟨_, rfl⟩
  | ok =>
    dsimp only
    rw [hpersisted]
    exact ⟨_, rfl⟩

/-! ### The turns -/

/-- A session with the usual options transforms a text with call sites by indexing it. -/
theorem transform_of_sites {session : Session} (disk : Disk) {code : Text} {file : String}
    (hoptions : session.options = {}) (hconcerns : session.concerns code file = true)
    (hsites : CallSite.extract code (some file) ≠ []) :
    let outcome := Index.indexFile (session.modules.host disk) session.index file code
    (session.transform disk code file).1.index = outcome.index ∧
      (session.transform disk code file).1.modules = session.modules ∧
      (session.transform disk code file).2.1 = Session.attempt {} code file outcome := by
  have hpass : ¬ session.Passes code file := by
    rintro (hdisabled | hother | hnone)
    · rw [hoptions] at hdisabled
      cases hdisabled
    · cases hconcerns.symm.trans hother
    · exact hsites hnone
  rw [← hoptions]
  exact Session.transformOn_of_not_passes _ hpass

theorem concerns_yard {session : Session} (hoptions : session.options = {}) (isStray : Bool) :
    session.concerns (brokenCode isStray) "/w/a.ts" = true ∧
      session.concerns userCode "/w/b.ts" = true := by
  unfold Session.concerns
  rw [hoptions]
  cases isStray <;> exact ⟨rfl, rfl⟩

/-- The program of the query. -/
abbrev userProgram : Program :=
  Index.twoFiles "/w/b.ts" (fragmentPath false) userCode (fragmentCode false)

theorem inOrder_user (broken : Option Bool) :
    (yardBegun broken).InOrder userProgram "/w/b.ts" userCode where
  listed := by
    rw [files_yard]
    exact List.mem_append_right _ (List.mem_singleton_self _)
  text_eq := if_pos rfl
  wellFormed := (uses_user broken).wellFormed
  canonical site hsite := by
    have hfragment (hname : "F" ∈ site.dependsOn) := (uses_user broken).get?_indexFile
      ((uses_user broken).wellFormed.holds (.empty _)) hsite hname
    rw [extract_userCode] at hsite
    rw [List.mem_singleton.1 hsite] at hfragment ⊢
    exact ⟨_, persist_user (hfragment (by decide))⟩

/-- The query is all that there is to transform without the broken file. -/
theorem turns_whole {turns : List Turn} {sources : Sources}
    (h : Turns (yardBegun none).before.disk (yardBegun none).start (yardBegun none).files turns
      sources) :
    ∃ made, turns = [("/w/b.ts", .ok (some made))] ∧
      made.sites.map (fun site => site.persisted.query) = [userQuery false] := by
  have hread := Modules.host_load_eq_ok.1 (load_user none)
  have hoptions := (yardBegun none).fits_start.options_eq
  obtain ⟨-, -, hresult⟩ := transform_of_sites (yardBegun none).before.disk hoptions
    (concerns_yard hoptions false).2 (by rw [extract_userCode]; exact List.cons_ne_nil _ _)
  have hsource : userProgram "/w/b.ts" = some userCode := if_pos rfl
  have hempty : Holds userProgram .empty := (uses_user none).wellFormed.holds (.empty _)
  have hsite : userSite ∈ CallSite.extract userCode (some "/w/b.ts") := by
    rw [extract_userCode]
    exact List.mem_singleton_self _
  obtain ⟨made, hmade, hqueries⟩ :=
    attempt_user ((uses_user none).wellFormed.indexFile_grows hempty hsource).1
      ((uses_user none).get?_indexFile hempty hsite (by decide))
  rw [files_yard] at h
  cases h with
  | next hread' htransform hrest =>
    cases hrest
    cases hread.symm.trans hread'
    rw [hresult, (yardBegun none).index_start]
    exact ⟨made, congrArg (fun result => [(_, result)]) hmade, hqueries⟩

/-- The broken file fails, and the query comes after it. -/
theorem turns_broken {isStray : Bool} {turns : List Turn} {sources : Sources}
    (h : Turns (yardBegun (some isStray)).before.disk (yardBegun (some isStray)).start
      (yardBegun (some isStray)).files turns sources) :
    let host := (yardBegun (some isStray)).host
    ∃ fault, turns = [("/w/a.ts", .error fault),
      ("/w/b.ts", Session.attempt {} userCode "/w/b.ts"
        (Index.indexFile host
          (Index.indexFile host .empty "/w/a.ts" (brokenCode isStray)).index "/w/b.ts" userCode))] := by
  intro host
  have hread := Modules.host_load_eq_ok.1 (load_broken isStray)
  have hread' := Modules.host_load_eq_ok.1 (load_user (some isStray))
  have hoptions := (yardBegun (some isStray)).fits_start.options_eq
  obtain ⟨hindex, hmodules, hresult⟩ := transform_of_sites
    (yardBegun (some isStray)).before.disk hoptions (concerns_yard hoptions isStray).1
    (by rw [extract_brokenCode]; split <;> exact List.cons_ne_nil _ _)
  rw [(yardBegun (some isStray)).index_start] at hindex hresult
  obtain ⟨fault, hfault⟩ := attempt_broken isStray
    (Index.indexFile host .empty "/w/a.ts" (brokenCode isStray))
  rw [files_yard] at h
  cases h with
  | next hread₁ htransform hrest =>
    cases hread.symm.trans hread₁
    obtain ⟨hsession, -⟩ := Sources.transform_eq_ok htransform
    cases hrest with
    | @next _ _ _ _ _ _ _ hread₂ _ hrest =>
      cases hrest
      cases hread'.symm.trans hread₂
      refine ⟨fault, ?_⟩
      rw [hresult, hsession]
      -- the second turn begins with what the first one has indexed, although it failed
      have hkept : ((yardBegun (some isStray)).start.session.transform
          (yardBegun (some isStray)).before.disk (brokenCode isStray) "/w/a.ts").1.options = {} :=
        (Session.transform_cases ..).1.trans hoptions
      obtain ⟨-, -, hresult'⟩ := transform_of_sites
        (yardBegun (some isStray)).before.disk hkept (concerns_yard hkept isStray).2
        (by rw [extract_userCode]; exact List.cons_ne_nil _ _)
      rw [hresult', hindex, hmodules]
      exact congrArg (fun result => [(_, result), _]) hfault

/-! ### The places of the files -/

theorem named_yard (broken : Option Bool) : (yard broken).disk.Named where
  working := (by decide : ∀ name ∈ [['w']], Path.IsName name)
  entries {place _} hentry := by
    have hkeys : ∀ place ∈ (yard broken).disk.entries.keys,
        ∀ name ∈ place, Path.IsName name := by
      rcases broken with _ | _ | _ <;> decide
    exact hkeys place (Table.mem_keys_iff.2 ⟨_, hentry⟩)

theorem readable_yard (broken : Option Bool) : ∀ source ∈ (yardBegun broken).files,
    ∃ code, (yardBegun broken).before.disk.readText source = .ok code := by
  intro source hsource
  rw [files_yard, List.mem_append, List.mem_singleton] at hsource
  rcases hsource with hsource | rfl
  · cases broken with
    | none => cases hsource
    | some isStray =>
      rw [List.mem_singleton.1 hsource]
      exact ⟨_, Modules.host_load_eq_ok.1 (load_broken isStray)⟩
  · exact ⟨_, Modules.host_load_eq_ok.1 (load_user broken)⟩

/-- The place of the broken file. -/
def brokenPlace : Disk.Place := [['w'], "a.ts".toList]

theorem failsAt_yard {isStray : Bool} {fault : Session.Fault} {made : Option Transformed} :
    (yardBegun (some isStray)).FailsAt [("/w/a.ts", .error fault), ("/w/b.ts", .ok made)] =
      (· = brokenPlace) := by
  have hplace : (yardBegun (some isStray)).before.disk.placeOf "/w/a.ts" = brokenPlace := by
    cases isStray <;> rfl
  funext place
  refine propext ⟨?_, ?_⟩
  · rintro ⟨turn, hturn, hfails, rfl⟩
    rcases List.mem_pair.1 hturn with rfl | rfl
    · exact hplace
    · cases hfails
  · rintro rfl
    exact ⟨_, List.mem_cons_self, rfl, hplace⟩

theorem without_yard (isStray : Bool) :
    (yardBegun (some isStray)).before.disk.Without (· = brokenPlace)
      (yardBegun none).before.disk where
  working := rfl
  isFile := by
    rintro _ rfl
    refine ⟨Utf8.encode (brokenCode isStray), ?_⟩
    cases isStray <;> rfl
  gone := by
    rintro _ rfl
    rfl
  kept {place} hplace := by
    rw [before_yard, before_yard]
    unfold Disk.entry?
    split
    · rfl
    show (((((Table.empty.insert [['w']] Disk.Entry.directory).insert [['w'], "b.ts".toList] _).insert
        [['w'], "x.js".toList] _).insert [['w'], "y.js".toList] _).get? place) =
      ((((((Table.empty.insert [['w']] Disk.Entry.directory).insert brokenPlace _).insert
        [['w'], "b.ts".toList] _).insert [['w'], "x.js".toList] _).insert
          [['w'], "y.js".toList] _).get? place)
    simp only [Table.get?_insert, if_neg (Ne.symm hplace)]

/-! ### Who defines what -/

/-- A file that the run comes to, unless the broken file imports the stray fragment. -/
def IsMet (broken : Option Bool) (id : String) : Prop :=
  broken = some false ∧ id = "/w/a.ts" ∨ id = "/w/b.ts" ∨ id = fragmentPath false

theorem text_of_isMet {broken : Option Bool} {id : String} {text : Text} {site : CallSite}
    (hid : IsMet broken id) (htext : hostTexts (yardBegun broken).host id = some text)
    (hsite : site ∈ CallSite.extract text (some id)) :
    site = brokenSite ∨ id = "/w/b.ts" ∧ text = userCode ∧ site = userSite ∨
      id = fragmentPath false ∧ site = fragmentSite false := by
  rw [Index.hostTexts_eq_some] at htext
  rcases hid with ⟨rfl, rfl⟩ | rfl | rfl
  · cases (load_broken false).symm.trans htext
    rw [extract_brokenCode] at hsite
    exact .inl (List.mem_singleton.1 hsite)
  · cases (load_user broken).symm.trans htext
    rw [extract_userCode] at hsite
    exact .inr (.inl ⟨rfl, rfl, List.mem_singleton.1 hsite⟩)
  · cases (load_fragment broken false).symm.trans htext
    rw [extract_fragmentCode] at hsite
    exact .inr (.inr ⟨rfl, List.mem_singleton.1 hsite⟩)

theorem isMet_of_reached {broken : Option Bool} (hbroken : broken ≠ some true) {id : String}
    (h : (yardBegun broken).Reached id) : IsMet broken id := by
  obtain ⟨first, hfirst, hpath⟩ := h
  induction hpath with
  | refl =>
    rw [files_yard, List.mem_append, List.mem_singleton] at hfirst
    rcases hfirst with hfirst | rfl
    · rcases broken with _ | _ | _
      · cases hfirst
      · exact .inl ⟨rfl, List.mem_singleton.1 hfirst⟩
      · exact absurd rfl hbroken
    · exact .inr (.inl rfl)
  | tail _ hleads ih =>
    obtain ⟨name, text, site, specifier, found, htext, hsite, hname, -, himport, hresolve, rfl⟩ :=
      hleads
    rcases text_of_isMet ih htext hsite with rfl | ⟨rfl, rfl, rfl⟩ | ⟨rfl, rfl⟩
    · exact absurd hname (NameSet.not_mem_empty name)
    · -- the only name that is imported
      obtain rfl : name = "F" := by simpa [userSite] using hname
      obtain ⟨specifier', target, himport', hresolve', htarget⟩ := (uses_user broken).imported
      cases himport.symm.trans himport'
      cases hresolve.symm.trans hresolve'
      exact .inr (.inr htarget)
    · exact absurd hname (NameSet.not_mem_empty name)

theorem apart_user {broken : Option Bool} (hbroken : broken ≠ some true) :
    (yardBegun broken).Apart userProgram := by
  rintro id other site own hreached ⟨text, htext, hsite⟩ hown hname
  rw [(uses_user broken).contributes_iff, extract_userCode, List.mem_singleton] at hown
  rcases text_of_isMet (isMet_of_reached hbroken hreached) htext hsite with
      rfl | ⟨rfl, -, rfl⟩ | ⟨rfl, rfl⟩ <;>
    rcases hown with ⟨rfl, rfl⟩ | ⟨rfl, rfl⟩
  · exact absurd hname (by decide)
  · exact absurd hname (by decide)
  · rfl
  · exact absurd hname (by decide)
  · exact absurd hname (by decide)
  · rfl

theorem digestsApart_whole {turns : List Turn} {sources : Sources}
    (h : Turns (yardBegun none).before.disk (yardBegun none).start (yardBegun none).files turns
      sources) : sources.DigestsApart := by
  obtain ⟨made, hturns, hqueries⟩ := turns_whole h
  have htransforms : sources.transforms = [("/w/b.ts", made)] := by
    rw [h.transforms_eq, hturns]
    rfl
  have hsame : ∀ site, sources.Has site → site.persisted.query = userQuery false := by
    rintro site ⟨file, made', hmem, hsite⟩
    rw [htransforms] at hmem
    cases List.mem_singleton.1 hmem
    exact List.mem_singleton.1 (hqueries ▸ List.mem_map_of_mem hsite)
  intro site other hsite hother _
  rw [hsame site hsite, hsame other hother]

/-- Next to a broken file the query becomes what it becomes alone, and is recorded. -/
theorem broken_files_apart_yard :
    ∃ turns sources turns' sources' made,
      (yardBegun (some false)).Processed false turns sources ∧
      (∃ fault, ("/w/a.ts", .error fault) ∈ turns) ∧ ("/w/b.ts", .ok (some made)) ∈ turns ∧
      (yardBegun none).Processed false turns' sources' ∧ ("/w/b.ts", .ok (some made)) ∈ turns' ∧
      (yardBegun none).Recorded sources' made ∧
      made.sites.map (fun site => site.persisted.query) = [userQuery false] := by
  obtain ⟨turns, sources, hprocessed, htransformed, hwithout⟩ := broken_files_apart
    (yardBegun (some false)) false (named_yard (some false)) (readable_yard (some false))
  obtain ⟨made, hmade, -⟩ :=
    htransformed _ _ _ (inOrder_user (some false)) (apart_user (by decide))
  obtain ⟨fault, hturns⟩ := turns_broken hprocessed.turns_of
  have hfirst : ("/w/a.ts", .error fault) ∈ turns := hturns ▸ List.mem_cons_self
  have hresult : turns = [("/w/a.ts", .error fault), ("/w/b.ts", .ok made)] := by
    rw [hturns] at hmade ⊢
    rcases List.mem_pair.1 hmade with heq | heq
    · cases (Prod.mk.inj heq).2
    · rw [heq]
  have hfails : (yardBegun (some false)).FailsAt turns = (· = brokenPlace) := by
    rw [hresult, failsAt_yard]
  obtain ⟨turns', sources', hprocessed', halike⟩ := hwithout (yard none) (yardBegun none)
    (hfails ▸ without_yard false)
  obtain ⟨hmade', hrecorded⟩ := halike userProgram "/w/b.ts" userCode made
    (inOrder_user (some false)) (apart_user (by decide)) (apart_user (by decide)) (by
      rintro id text htext
      rw [hfails]
      rcases (Index.twoFiles_eq_some (uses_user (some false)).ne).1 htext with ⟨rfl, -⟩ | ⟨rfl, -⟩ <;>
        decide) hmade
  obtain ⟨own, hown, hqueries⟩ := turns_whole hprocessed'.turns_of
  obtain rfl : made = some own := by
    rw [hown] at hmade'
    cases List.mem_singleton.1 hmade'
    rfl
  exact ⟨turns, sources, turns', sources', own, hprocessed, ⟨fault, hfirst⟩, hmade, hprocessed',
    hmade', hrecorded (digestsApart_whole hprocessed'.turns_of) own rfl, hqueries⟩

/-- When the broken file has imported the stray fragment, the query gets this one. -/
theorem attempt_stray :
    let host := (yardBegun (some true)).host
    let index := (Index.indexFile host .empty "/w/a.ts" (brokenCode true)).index
    ∃ made, Session.attempt {} userCode "/w/b.ts" (Index.indexFile host index "/w/b.ts" userCode) =
        .ok (some made) ∧
      made.sites.map (fun site => site.persisted.query) = [userQuery true] := by
  intro host index
  have huses := uses_stray
  have hempty : Holds _ Index.empty := huses.wellFormed.holds (.empty _)
  have hsource : Index.twoFiles "/w/a.ts" (fragmentPath true) (brokenCode true) (fragmentCode true)
      "/w/a.ts" = some (brokenCode true) := if_pos rfl
  have hgrows := (huses.wellFormed.indexFile_grows hempty hsource).2
  have hsite : straySite ∈ CallSite.extract (brokenCode true) (some "/w/a.ts") := by
    rw [extract_brokenCode]
    exact List.mem_cons_of_mem _ (List.mem_singleton_self _)
  have hfragment : index.registry.get? "F" = some (fragmentSite true) :=
    huses.get?_indexFile hempty hsite (by decide)
  have hfits := (Index.Fits.empty _).grows hgrows
  -- what is indexed are two other files, neither of which defines the name of the query
  obtain ⟨hfile, hlists⟩ : "/w/b.ts" ∉ index.files ∧ ∀ name, name ∉ index.definedIn "/w/b.ts" :=
    hfits.not_mem rfl
  have hfree : index.registry.get? "B" = none := by
    cases hknown : index.registry.get? "B" with
    | none => rfl
    | some known =>
      obtain ⟨hname, id, hsite⟩ := hfits.owned hknown
      rcases huses.contributes_iff.1 hsite with ⟨-, hown⟩ | ⟨-, rfl⟩
      · rw [extract_brokenCode] at hown
        rcases List.mem_pair.1 hown with rfl | rfl <;> exact absurd hname (by decide)
      · exact absurd hname (by decide)
  have hfree : index.Free (CallSite.extract userCode (some "/w/b.ts")) := by
    rw [extract_userCode]
    refine ⟨List.nodup_singleton _, fun site hsite => ?_⟩
    rwa [List.mem_singleton.1 hsite]
  have hclosed : Closed index.registry (· = "F") := by
    rintro name rfl
    exact ⟨_, hfragment, fun next hnext => absurd hnext (NameSet.not_mem_empty next)⟩
  have hdeps : ∀ site ∈ CallSite.extract userCode (some "/w/b.ts"), ∀ next ∈ site.dependsOn,
      next = "F" ∨ next ∈ (CallSite.extract userCode (some "/w/b.ts")).map CallSite.name := by
    rw [extract_userCode]
    intro site hsite next hnext
    rw [List.mem_singleton.1 hsite] at hnext
    exact .inl (by simpa [userSite] using hnext)
  obtain ⟨hok, hindex⟩ := @Index.indexFile_of_registered _ host index _ _ _ hfile hfree hclosed
    (fun name hname => absurd hname (hlists name)) hdeps
  refine attempt_user hok ?_
  rw [hindex, Index.get?_add_of_not_mem]
  · exact hfragment
  · rw [extract_userCode]
    decide

/-- Without the broken file the query gets the fragment that it imports. So a file that is in order
need not become what it becomes without the files that fail, although it shares no name with them. -/
theorem not_apart_of_names_apart :
    ¬ ∀ (words : List String) (environment : Environment) (file : Option Text)
      (surroundings surroundings' : Surroundings)
      (begun : Begun words environment file surroundings)
      (begun' : Begun words environment file surroundings')
      (turns turns' : List Turn) (sources sources' : Sources), surroundings.disk.Named →
      Turns begun.before.disk begun.start begun.files turns sources →
      Turns begun'.before.disk begun'.start begun'.files turns' sources' →
      begun.before.disk.Without (begun.FailsAt turns) begun'.before.disk →
      ∀ (program : Program) (source : String) (code : Text), begun.InOrder program source code →
        (∀ turn ∈ turns, turn.fails = true → ∀ site other own,
          Contributes (hostTexts begun.host) turn.1 site → Contributes program other own →
            site.name ≠ own.name) →
        ∀ made, (source, .ok made) ∈ turns → (source, .ok made) ∈ turns' := by
  intro hclaim
  obtain ⟨turns, sources, hturns⟩ := Begun.exists_turns (readable_yard (some true))
  obtain ⟨turns', sources', hturns'⟩ := Begun.exists_turns (readable_yard none)
  obtain ⟨fault, heq⟩ := turns_broken hturns
  obtain ⟨made', heq', hqueries'⟩ := turns_whole hturns'
  obtain ⟨made, hmade, hqueries⟩ := attempt_stray
  rw [hmade] at heq
  have hsame := hclaim hereWords .empty none (yard (some true)) (yard none) (yardBegun (some true))
    (yardBegun none) turns turns' sources sources' (named_yard (some true)) hturns hturns' (by
      rw [heq, failsAt_yard]
      exact without_yard true) userProgram "/w/b.ts" userCode (inOrder_user (some true)) (by
      rw [heq]
      rintro turn hturn hfails site other own ⟨text, htext, hsite⟩ hown
      rcases List.mem_pair.1 hturn with rfl | rfl
      · -- the broken file defines two names, and the query and its fragment have others
        rw [Index.hostTexts_eq_some, load_broken] at htext
        cases htext
        rw [extract_brokenCode] at hsite
        rw [(uses_user (some true)).contributes_iff, extract_userCode, List.mem_singleton] at hown
        rcases List.mem_pair.1 hsite with rfl | rfl <;>
          rcases hown with ⟨-, rfl⟩ | ⟨-, rfl⟩ <;> decide
      · cases hfails) (some made) (by
      rw [heq]
      exact List.mem_cons_of_mem _ (List.mem_singleton_self _))
  rw [heq'] at hsame
  cases List.mem_singleton.1 hsame
  exact absurd (hqueries.symm.trans hqueries') (by decide)

end PersistedQueries.Command
