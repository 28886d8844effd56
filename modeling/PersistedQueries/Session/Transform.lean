import PersistedQueries.Index.Indexing
import PersistedQueries.Persist.Basic
import PersistedQueries.Session.Basic

/-!
# Transforming source texts

A source text with call sites is indexed together with everything that it depends on, each call
site is persisted, and the calls are replaced. The manifest changes only when every call site has
a canonical text.

- `concerns`: the source texts that a session looks at.
- `Transformed`: a transformed source text with its persisted call sites.
- `persistAll`: the canonical texts of call sites.
- `transformOn`, `transform`: one source text, with its imports followed by a host or on a disk.
-/

namespace PersistedQueries.Session

/-- The session looks at a text of a file: the file has the ending of a source file and is not
part of a package, and the text may have call sites. -/
def concerns (session : Session) (code : Text) (file : String) : Bool :=
  session.options.endings.any (fun ending => ending.toList.isSuffixOf file.toList) &&
    !Text.occursIn "node_modules".toList file.toList && Text.occursIn CallSite.tagName code

/-- A call site with its canonical text. -/
structure PersistedSite where
  /-- The call site. -/
  site : CallSite
  /-- The line of the source text that it begins on. -/
  line : Nat
  /-- The canonical text and its digest. -/
  persisted : Persisted

/-- A transformed source text. -/
structure Transformed where
  /-- The text and its source map. -/
  spliced : Splice.Spliced
  /-- The call sites in order. -/
  sites : List PersistedSite

/-- The canonical texts of the call sites of a source text, as long as every one has one. -/
def persistAll (registry : Registry) (addTypename : Bool) (code : Text) (sites : List CallSite) :
    Except Persist.Fault (List PersistedSite) :=
  sites.mapM fun site =>
    (persist registry site addTypename).map
      (PersistedSite.mk site (Text.lineOf code site.span.start))

/-- The new entries of the manifest. -/
def entriesOf (sites : List PersistedSite) : Table String String :=
  .ofList (sites.map fun site => (site.persisted.hash, site.persisted.query))

/-- The manifest with the entries of call sites, to be written before long in a development
server. -/
def recorded (options : Options) (manifest : Manifest) (sites : List PersistedSite) : Manifest :=
  let (merged, _) := manifest.merge (entriesOf sites)
  if options.isDevServer then merged.schedule else merged

/-- Persist the calls in a source text. -/
def spliceCalls (options : Options) (code : Text) (file : String) (sites : List PersistedSite) :
    Except Splice.SpliceError Splice.Spliced :=
  Splice.spliceSource code
    (sites.map fun s => .ofCallSite s.site s.persisted.hash s.persisted.query)
    ⟨options.removeSource, options.isPure⟩ (some file)

/-- Transform a source text, whose imports a host follows. There is no result when the session does
not look at it or it has no call sites. -/
def transformOn (session : Session) (host : Index.Host Modules.Failure) (code : Text)
    (file : String) : Session × Except Fault (Option Transformed) × Output :=
  if !session.options.isEnabled || !session.concerns code file then (session, .ok none, .none)
  else
    match CallSite.extract code (some file) with
    | [] => (session, .ok none, .none)
    | sites =>
      let outcome := Index.indexFile host session.index file code
      let session := { session with index := outcome.index }
      let progress := Output.onlyIf session.options.isDebug ⟨Index.transcript outcome.events, ""⟩
      match outcome.result with
      | .error fault => (session, .error (.index fault), progress)
      | .ok _ =>
        match persistAll outcome.index.registry session.options.addTypename code sites with
        | .error fault => (session, .error (.persist fault), progress)
        | .ok persisted =>
          let recorded :=
            { session with
              manifest := session.manifest.map fun m => recorded session.options m persisted }
          let lines := persisted.map fun s => Output.persisted s.site.name s.persisted.hash
          let output :=
            progress ++ Output.onlyIf session.options.isDebug (lines.foldl (· ++ ·) .none)
          match spliceCalls session.options code file persisted with
          | .error fault => (recorded, .error (.splice fault), output)
          | .ok spliced => (recorded, .ok (some ⟨spliced, persisted⟩), output)

/-- Transform a source text, whose imports are followed on a disk. -/
def transform (session : Session) (disk : Disk) (code : Text) (file : String) :
    Session × Except Fault (Option Transformed) × Output :=
  session.transformOn (session.modules.host disk) code file

end PersistedQueries.Session
