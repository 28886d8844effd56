import PersistedQueries.Disk.Path
import PersistedQueries.Table
import PersistedQueries.Text.Quoted

/-!
# Disks

A disk says for each place what stands there, a file or a directory. A place is the list of the
names that lead to it from the root. Paths are followed name by name, so a path through a missing
directory leads nowhere, even where two dots would leave that directory again.

- `Disk`: the entries, the working directory, and the failures that the next writes meet.
- `Disk.Fault`: a failed operation with the path or paths that it was about.
- `Disk.follow`: the place that a path leads to.
- `Disk.slot`: the place where a path lets a file be put.
- `Disk.readOctets`, `writeOctets`, `remove`, `makeDirectories`: the operations on files.
-/

namespace PersistedQueries

/-! ## Faults -/

namespace Disk

/-- Why an operation on a disk fails. -/
inductive Cause where
  /-- Nothing stands at the place. -/
  | missing
  /-- The place is in use. -/
  | busy
  /-- Something stands at the place already. -/
  | occupied
  /-- A file stands where a directory is needed. -/
  | notDirectory
  /-- A directory stands where a file is needed. -/
  | isDirectory
  /-- The disk is full. -/
  | full
  /-- A name or the whole path has too many octets. -/
  | nameTooLong
  /-- The path has a null character, so the system is not even asked. -/
  | nullCharacter
  deriving DecidableEq, Repr

/-- The number of a cause. A null character makes a path invalid. -/
def Cause.number : Cause → Nat
  | missing => 2
  | busy => 16
  | occupied => 17
  | notDirectory => 20
  | isDirectory => 21
  | full => 28
  | nameTooLong => 36
  | nullCharacter => 22

/-- The words for a cause. -/
def Cause.words : Cause → String
  | missing => "No such file or directory"
  | busy => "Device or resource busy"
  | occupied => "File exists"
  | notDirectory => "Not a directory"
  | isDirectory => "Is a directory"
  | full => "No space left on device"
  | nameTooLong => "File name too long"
  | nullCharacter => "embedded null byte"

/-- A failed operation on a path, or on two paths when something was to be moved. -/
structure Fault where
  /-- Why it failed. -/
  cause : Cause
  /-- The path. -/
  path : String
  /-- The path that something was to be moved to. -/
  target : Option String
  deriving DecidableEq, Repr

/-- The system has refused the operation. -/
def Fault.isRefusal (fault : Fault) : Bool := fault.cause ≠ .nullCharacter

/-- The message of a fault: the number and the words of the cause, and the quoted paths. -/
def Fault.message (fault : Fault) : String :=
  let paths :=
    match fault.target with
    | none => Text.quote fault.path
    | some target => Text.quote fault.path ++ " -> " ++ Text.quote target
  if fault.isRefusal then
    "[Errno " ++ toString fault.cause.number ++ "] " ++ fault.cause.words ++ ": " ++ paths
  else fault.cause.words

/-- The names that lead from the root to something. -/
abbrev Place := List Text

/-- What stands at a place. -/
inductive Entry where
  /-- A file with its octets. -/
  | file (octets : List UInt8)
  /-- A directory. -/
  | directory
  deriving DecidableEq

end Disk

/-- What stands where. -/
structure Disk where
  /-- The entries below the root. -/
  entries : Table Disk.Place Disk.Entry
  /-- The directory that relative paths start from. -/
  working : Disk.Place
  /-- What the next writes fail with; writes behind the end of the list succeed. -/
  refusals : List (Option Disk.Cause)

namespace Disk

/-- A disk with nothing but a working directory below the root. -/
def withDirectory (name : Text) : Disk := ⟨Table.empty.insert [name] .directory, [name], []⟩

/-- A disk with a working directory, and what stands below that directory. -/
def ofEntries (working : Place) (below : List (Place × Entry)) : Disk :=
  let above := (List.range working.length).map fun n => (working.take (n + 1), Entry.directory)
  ⟨.ofList (above ++ below.map fun (names, entry) => (working ++ names, entry)), working, []⟩

instance : Inhabited Disk := ⟨⟨.empty, [], []⟩⟩

/-- The path of a place. -/
def pathOf (place : Place) : Text := '/' :: Path.ofParts place

/-- The normal path from the root of a path that may start from the working directory. -/
def absolute (disk : Disk) (path : String) : Text := Path.absolute (pathOf disk.working) path.toList

/-! ## Following paths -/

/-- What stands at a place. The root is a directory. -/
def entry? (disk : Disk) (place : Place) : Option Entry :=
  if place.isEmpty then some .directory else disk.entries.get? place

/-- The place is a directory, or else why it is none. -/
def checkDirectory (disk : Disk) (place : Place) : Except Cause Unit :=
  match disk.entry? place with
  | some .directory => .ok ()
  | some (.file _) => .error .notDirectory
  | none => .error .missing

/-- The most octets of a name. -/
def nameLimit : Nat := 255

/-- The name has too many octets. -/
def isTooLong (name : Text) : Bool := nameLimit < (String.ofList name).utf8ByteSize

/-- The most octets of a path. -/
def pathLimit : Nat := 4095

/-- The path has too many octets, wherever it may lead. -/
def isOverlong (path : Text) : Bool := pathLimit < (String.ofList path).utf8ByteSize

/-- The place that some names lead to. Each name is looked up in a directory; the last place need
not hold anything. -/
def walk (disk : Disk) (place : Place) : List Text → Except Cause Place
  | [] => .ok place
  | name :: names => do
    checkDirectory disk place
    if name = [] ∨ name = ['.'] then walk disk place names
    else if name = ['.', '.'] then walk disk place.dropLast names
    else if isTooLong name then .error .nameTooLong
    else walk disk (place ++ [name]) names

/-- The place that a path starts from. -/
def startOf (disk : Disk) (path : Text) : Place :=
  if Path.isAbsolute path then [] else disk.working

/-- The path has a null character. -/
def hasNull (path : Text) : Bool := path.contains '\x00'

/-- The path can be followed, or else why it is not even looked at. -/
def checkPath (path : Text) : Except Cause Unit :=
  if hasNull path then .error .nullCharacter
  else if path.isEmpty then .error .missing
  else if isOverlong path then .error .nameTooLong
  else .ok ()

/-- The place that a path leads to. -/
def follow (disk : Disk) (path : String) : Except Cause Place := do
  checkPath path.toList
  walk disk (disk.startOf path.toList) (Path.parts path.toList)

/-- What stands where a path leads. -/
def find? (disk : Disk) (path : String) : Option Entry :=
  match disk.follow path with
  | .ok place => disk.entry? place
  | .error _ => none

/-- A file stands where the path leads. -/
def isFile (disk : Disk) (path : String) : Bool := disk.find? path matches some (.file _)

/-- A directory stands where the path leads. -/
def isDirectory (disk : Disk) (path : String) : Bool := disk.find? path matches some .directory

/-- The place where a path lets a file be put: a name in an existing directory. A path that ends in
dots names no file, nor does one that ends in a slash; the causes for both are given. -/
def slot (disk : Disk) (path : String) (dots slash : Cause) : Except Cause Place := do
  checkPath path.toList
  match (Path.parts path.toList).reverse.dropWhile (·.isEmpty) with
  | [] => .error dots
  | last :: before =>
    let parent ← walk disk (disk.startOf path.toList) before.reverse
    checkDirectory disk parent
    if isTooLong last then .error .nameTooLong
    else if last = ['.'] ∨ last = ['.', '.'] then .error dots
    else if Path.endsInSlash path.toList then .error slash
    else .ok (parent ++ [last])

/-! ## Operations on files -/

/-- The octets of the file that a path leads to. -/
def readOctets (disk : Disk) (path : String) : Except Fault (List UInt8) :=
  match disk.follow path with
  | .error cause => .error ⟨cause, path, none⟩
  | .ok place =>
    match disk.entry? place with
    | some (.file octets) => .ok octets
    | some .directory => .error ⟨.isDirectory, path, none⟩
    | none => .error ⟨.missing, path, none⟩

/-- The disk with an entry at a place. -/
def put (disk : Disk) (place : Place) (entry : Entry) : Disk :=
  { disk with entries := disk.entries.insert place entry }

/-- The disk with a file of some octets where a path leads. -/
def writeOctets (disk : Disk) (path : String) (octets : List UInt8) : Except Fault Disk :=
  match disk.slot path .isDirectory .isDirectory with
  | .error cause => .error ⟨cause, path, none⟩
  | .ok place =>
    match disk.entry? place with
    | some .directory => .error ⟨.isDirectory, path, none⟩
    | _ => .ok (disk.put place (.file octets))

/-- The disk without the file that a path leads to. -/
def remove (disk : Disk) (path : String) : Except Fault Disk :=
  match disk.follow path with
  | .error cause => .error ⟨cause, path, none⟩
  | .ok place =>
    match disk.entry? place with
    | some (.file _) => .ok { disk with entries := disk.entries.erase place }
    | some .directory => .error ⟨.isDirectory, path, none⟩
    | none => .error ⟨.missing, path, none⟩

/-- Make the directories that some names lead to from a place. The paths of the places begin with
the slashes `root`. The fault names the path of the first place that cannot be made a directory. -/
def makeFrom (root : Text) (disk : Disk) (place : Place) : List Text → Except (Cause × Text) Disk
  | [] =>
    if disk.entry? place = some .directory then .ok disk
    else .error (.occupied, root ++ Path.ofParts place)
  | name :: names =>
    let next := place ++ [name]
    let path := root ++ Path.ofParts next
    if hasNull name then .error (.nullCharacter, path)
    else if isOverlong path then .error (.nameTooLong, path)
    else if disk.entry? place = some .directory then
      if isTooLong name then .error (.nameTooLong, path)
      else
        match disk.entry? next with
        | none => makeFrom root (disk.put next .directory) next names
        | some _ => makeFrom root disk next names
    else .error (.notDirectory, path)

/-- Make the directory of a normal absolute path, and those on the way to it. -/
def makeDirectories (disk : Disk) (path : Text) : Except Fault Disk :=
  match makeFrom (Path.rootSlashes path) disk [] ((Path.parts path).filter (!·.isEmpty)) with
  | .ok made => .ok made
  | .error (cause, failed) => .error ⟨cause, String.ofList failed, none⟩

/-! ## Listing -/

/-- The files below the working directory, in the order in which they came, by the names that
lead to them from there. -/
def files (disk : Disk) : List (Place × List UInt8) :=
  disk.entries.entries.filterMap fun (place, entry) =>
    match entry with
    | .file octets =>
      if disk.working.isPrefixOf place then some (place.drop disk.working.length, octets) else none
    | .directory => none

end Disk

end PersistedQueries
