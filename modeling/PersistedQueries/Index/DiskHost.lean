import PersistedQueries.Disk.Reading
import PersistedQueries.Index.Host

/-!
# Modules on a disk

A specifier that begins with a dot is followed from the directory of the importing file, one that
begins with a slash from the root, and one that begins with an alias from the directory that the
alias stands for. Any other specifier names a package and denotes no file. The path is tried as it
is written, then with a source ending in place of a script ending, then with each ending, and then
as a directory with an index file.

- `Modules`: the root, the aliases and the endings.
- `Modules.candidates`: the paths that are tried, in order.
- `Modules.resolve`: the path of the file that a specifier denotes.
- `Modules.host`: the host for indexing.
-/

namespace PersistedQueries

/-- How specifiers lead to files. -/
structure Modules where
  /-- The absolute directory that aliases start from. -/
  root : Text
  /-- The directory that each alias stands for. -/
  aliases : Table String String
  /-- The endings that are tried. -/
  endings : List String

namespace Modules

/-- The endings that are tried unless others are given. -/
def defaultEndings : List String := [".ts", ".tsx", ".js", ".jsx", ".mjs"]

/-- The rules of a root directory on a disk, with some aliases. -/
def ofRoot (disk : Disk) (root : String) (aliases : List (String × String))
    (endings : List String := defaultEndings) : Modules :=
  ⟨disk.absolute root, .ofList aliases, endings⟩

/-! ## Where a specifier leads -/

/-- The specifier is followed from the importing file. -/
def isRelative (specifier : Text) : Bool :=
  ['.', '/'].isPrefixOf specifier || ['.', '.', '/'].isPrefixOf specifier ||
    specifier = ['.'] || specifier = ['.', '.']

/-- The path that a specifier with an alias stands for, by the first alias that it begins with. -/
def expand (root specifier : Text) : List (String × String) → Option Text
  | [] => none
  | (short, target) :: aliases =>
    if short.toList.isPrefixOf specifier then
      some (Path.join (Path.join root target.toList) (specifier.drop short.toList.length))
    else expand root specifier aliases

/-- A specifier that is followed from the importing file, without an importing file. -/
structure NoImporter where

/-- The message of a missing importing file. -/
def NoImporter.message : String :=
  "expected str, bytes or os.PathLike object, not NoneType"

/-- The path that a specifier stands for in an importing file. -/
def basePath (modules : Modules) (disk : Disk) (specifier : Text) (importer : Option String) :
    Except NoImporter (Option Text) :=
  if isRelative specifier then
    match importer with
    | none => .error ⟨⟩
    | some importer => .ok (some (Path.join (Path.directory (disk.absolute importer)) specifier))
  else if Path.isAbsolute specifier then .ok (some specifier)
  else .ok (expand modules.root specifier modules.aliases.entries)

/-- The endings of scripts, for which a source file may stand. -/
def scriptEndings : List Text := [".js".toList, ".jsx".toList, ".mjs".toList]

/-- The paths that are tried for a path, in order. -/
def candidates (endings : List String) (base : Text) : List Text :=
  let (stem, ending) := Path.stemAndExtension base
  let sources :=
    if ending ∈ scriptEndings then [stem ++ ".ts".toList, stem ++ ".tsx".toList] else []
  base :: sources ++ endings.map (fun e => base ++ e.toList) ++
    endings.map fun e => Path.join base ("index".toList ++ e.toList)

/-- The first of the paths that is tried and leads to a file. -/
def firstFile (modules : Modules) (disk : Disk) (base : Text) : Option String :=
  ((candidates modules.endings (Path.normalize base)).map String.ofList).find? (disk.isFile ·)

/-- The path of the file that a specifier denotes in an importing file. -/
def resolve (modules : Modules) (disk : Disk) (specifier : String) (importer : Option String) :
    Except NoImporter (Option String) :=
  (modules.basePath disk specifier.toList importer).map fun base =>
    base.bind (modules.firstFile disk)

/-! ## The host -/

/-- Why the host fails. -/
inductive Failure where
  /-- A text cannot be read. -/
  | read (fault : ReadFault)
  /-- There is no importing file to follow a specifier from. -/
  | noImporter

/-- The message of a failure. -/
def Failure.message : Failure → String
  | read fault => fault.message
  | noImporter => NoImporter.message

/-- The normal absolute paths of the files of a disk. A path may begin with two slashes. -/
def paths (disk : Disk) : List String :=
  disk.entries.entries.flatMap fun (place, entry) =>
    if entry matches .file _ then
      [String.ofList (Disk.pathOf place), String.ofList ('/' :: Disk.pathOf place)]
    else []

/-- The files of a disk as a host for indexing. -/
def host (modules : Modules) (disk : Disk) : Index.Host Failure where
  ids := paths disk
  resolve specifier importer :=
    match modules.resolve disk specifier importer with
    | .error _ => .error .noImporter
    | .ok none => .ok none
    | .ok (some path) => .ok (Index.Host.file? _ path)
  load path := (disk.readText path).mapError .read

end Modules

end PersistedQueries
