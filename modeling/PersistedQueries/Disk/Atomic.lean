import PersistedQueries.Disk.Basic
import PersistedQueries.Json.Writer
import PersistedQueries.Text.Utf8

/-!
# Replacing a file at once

A value is written to a temporary file beside the target, which then takes the place of the
target, so nobody sees a half-written file. When the replacing fails, the temporary file goes
away again.

- `Disk.temporaryPath`: the name of the temporary file, with its random characters masked.
- `Disk.replace`: a file takes the place that a path names.
- `Disk.writeJson`: write a value to a path, making the directories on the way.
-/

namespace PersistedQueries.Disk

/-- The directory that a path names a file in. -/
def parentOf (disk : Disk) (path : String) : Text := Path.directory (disk.absolute path)

/-- The path of the temporary file for a path; the random characters of its name are masked. -/
def temporaryPath (disk : Disk) (path : String) : String :=
  String.ofList (Path.join (disk.parentOf path) ".tmp-XXXXXXXX.json".toList)

/-- Put a file with some octets where a path leads, in the place of what stands there. -/
def replace (disk : Disk) (path : String) (octets : List UInt8) : Except Cause Disk := do
  let place ← disk.slot path .busy .notDirectory
  match disk.entry? place with
  | some .directory => .error .isDirectory
  | _ => .ok (disk.put place (.file octets))

/-- The disk after the next write, and what that write fails with. -/
def nextRefusal (disk : Disk) : Option Cause × Disk :=
  match disk.refusals with
  | [] => (none, disk)
  | refusal :: refusals => (refusal, { disk with refusals := refusals })

/-- Write octets to a path, making the directories on the way. The directories stay when the
file cannot be put into its place. -/
def replaceFile (disk : Disk) (path : String) (octets : List UInt8) : Disk × Except Fault Unit :=
  let (refusal, disk) := disk.nextRefusal
  match refusal with
  | some cause => (disk, .error ⟨cause, disk.temporaryPath path, none⟩)
  | none =>
    match disk.makeDirectories (disk.parentOf path) with
    | .error fault => (disk, .error fault)
    | .ok made =>
      let temporary := made.temporaryPath path
      if isOverlong temporary.toList then (made, .error ⟨.nameTooLong, temporary, none⟩)
      else
        match made.replace path octets with
        | .error cause => (made, .error ⟨cause, temporary, some path⟩)
        | .ok written => (written, .ok ())

/-- The octets of a value in a file: indented, in ASCII. -/
def jsonOctets (value : Json) : List UInt8 := Utf8.encode (Json.write Json.indented value)

/-- Write a value to a path. -/
def writeJson (disk : Disk) (path : String) (value : Json) : Disk × Except Fault Unit :=
  disk.replaceFile path (jsonOctets value)

end PersistedQueries.Disk
