import PersistedQueries.Disk.Basic
import PersistedQueries.Disk.Glob

/-!
# Searching source files

Searching a directory finds the files below it with one of some endings, but no declaration
files, and nothing below a directory whose name one of the exclusion patterns describes or whose
path has too many octets. Searching a file finds that file when it has one of the endings.

- `Disk.isEligible`: a file below a directory is one of those that the search finds.
- `Disk.findFiles`: the absolute paths of the files, in ascending order.
-/

namespace PersistedQueries.Disk

/-- The ending of declaration files. -/
def declarationEnding : Text := ".d.ts".toList

/-- The name has one of the endings. -/
def hasEnding (endings : List String) (name : Text) : Bool :=
  endings.any fun ending => ending.toList.isSuffixOf name

/-- A file that some names lead to from the searched directory is one of those to be found. -/
def isEligible (endings exclusions : List String) (names : Place) : Bool :=
  match names.getLast? with
  | none => false
  | some name =>
    hasEnding endings name && !declarationEnding.isSuffixOf name &&
      names.dropLast.all fun directory =>
        !exclusions.any fun pattern => Glob.describes pattern.toList directory

/-- The path from the target of a search to a directory below it can be followed. -/
def isReachable (target : String) (directory : Place) : Bool :=
  directory.isEmpty || !isOverlong (Path.join target.toList (Path.ofParts directory))

/-- The places of the files below a place, by the names that lead to them from there. -/
def filesBelow (disk : Disk) (place : Place) : List Place :=
  disk.entries.entries.filterMap fun (other, entry) =>
    if entry matches .file _ then
      if place.isPrefixOf other then some (other.drop place.length) else none
    else none

/-- Texts in ascending order. -/
def sorted (paths : List String) : List String := paths.mergeSort (· ≤ ·)

/-- The absolute paths of the files that the search of a path finds. -/
def findFiles (disk : Disk) (target : String) (endings exclusions : List String) : List String :=
  match disk.follow target with
  | .error _ => []
  | .ok place =>
    match disk.entry? place with
    | none => []
    | some (.file _) =>
      if hasEnding endings target.toList then [String.ofList (disk.absolute target)] else []
    | some .directory =>
      let found := (disk.filesBelow place).filter fun names =>
        isEligible endings exclusions names && isReachable target names.dropLast
      sorted (found.map fun names =>
        String.ofList (Path.absolute (pathOf disk.working)
          (Path.join target.toList (Path.ofParts names))))

end PersistedQueries.Disk
