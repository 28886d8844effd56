import PersistedQueries.CallSite.Import
import PersistedQueries.Index.Basic

/-!
# What a file brings

Before a file enters the index it is surveyed: its definitions and imports are read, each name
that it needs from elsewhere is followed to the file that it is imported from, and its own names
are checked against those that are taken.

- `Answer`: an answer together with the events on the way to it.
- `locate`: the file that a name is imported from.
- `firstDuplicate`: the first of some definitions whose name is taken.
- `survey`: what a file brings, and the files that have to be indexed after it.
-/

namespace PersistedQueries

namespace Index

variable {ε : Type}

/-! ## Answers -/

/-- An answer, or a fault, and the events on the way to it. -/
structure Answer (ε α : Type) where
  /-- The events in their order. -/
  events : List Event
  /-- The answer or the fault. -/
  result : Except (Fault ε) α

/-- Go on from an answer. -/
def Answer.andThen {α β : Type} (answer : Answer ε α) (next : α → Answer ε β) : Answer ε β :=
  match answer.result with
  | .error fault => ⟨answer.events, .error fault⟩
  | .ok value => ⟨answer.events ++ (next value).events, (next value).result⟩

/-! ## Names that a file needs from elsewhere -/

/-- The file that a name is imported from. -/
def locate (host : Host ε) (imports : Table String String) (importer : Option String) (name : String) :
    Answer ε host.File :=
  match imports.get? name with
  | none => ⟨[], .error (.unbound ⟨name, importer, .notImported⟩)⟩
  | some specifier =>
    let result :=
      match host.resolve specifier importer with
      | .error failure => .error (.host failure)
      | .ok none => .error (.unbound ⟨name, importer, .unresolvable specifier importer⟩)
      | .ok (some file) => .ok file
    ⟨[.resolved specifier importer], result⟩

/-- The files that some names are imported from, without those of a set. -/
def locateEach (host : Host ε) (imports : Table String String) (importer : String) (files : NameSet) :
    List String → Answer ε (List host.File)
  | [] => ⟨[], .ok []⟩
  | name :: names =>
    (locate host imports (some importer) name).andThen fun file =>
      (locateEach host imports importer files names).andThen fun located =>
        ⟨[], .ok (if file.1 ∈ files then located else file :: located)⟩

/-- The names that some definitions need and neither define nor find in the registry. -/
def needs (registry : Registry) (sites : List CallSite) : List String :=
  let names := NameSet.ofList (sites.map CallSite.name)
  sites.flatMap fun site =>
    site.dependsOn.names.filter fun name => !registry.contains name && name ∉ names

/-! ## Names that are taken -/

/-- The first definition whose name is taken, by the registry or by an earlier one of the file. -/
def firstDuplicate (registry : Registry) (file : String) (seen : NameSet) :
    List CallSite → Option (Fault ε)
  | [] => none
  | site :: sites =>
    match registry.get? site.name with
    | some known => some (.duplicate site.name known.file (some file))
    | none =>
      if site.name ∈ seen then some (.duplicate site.name (some file) (some file))
      else firstDuplicate registry file (seen.insert site.name) sites

/-! ## The survey -/

/-- What a file with a text brings to an index, and the files that it needs, in the order in
which it needs them. A file that needs itself counts as indexed. -/
def survey (host : Host ε) (index : Index) (file : String) (source : Text) :
    Answer ε (Addition × List host.File) :=
  let imports := CallSite.parseImports source
  let sites := CallSite.extract source (some file)
  let located := locateEach host imports file (index.files.insert file) (needs index.registry sites)
  (⟨[.announced file], .ok ()⟩ : Answer ε Unit).andThen fun _ => located.andThen fun queue =>
    match firstDuplicate index.registry file .empty sites with
    | some fault => ⟨[], .error fault⟩
    | none => ⟨[], .ok (⟨file, sites, imports, digest source⟩, queue)⟩

/-- The survey of a file whose text the host is asked for. -/
def loadAndSurvey (host : Host ε) (index : Index) (file : String) :
    Answer ε (Addition × List host.File) :=
  (⟨[.loaded file], (host.load file).mapError .host⟩ : Answer ε Text).andThen (survey host index file)

end Index

end PersistedQueries
