import PersistedQueries.Disk.Atomic
import PersistedQueries.Disk.Reading
import PersistedQueries.Json.Reader
import PersistedQueries.Report.Output

/-!
# The manifest

The manifest maps digests to canonical texts. It is loaded once, only grows, and is written as a
whole. A write can be put off: it then happens when a timer fires, and starting a new timer puts
it off again.

- `Manifest`: the entries, whether they differ from the file, and the timers.
- `Manifest.load`, `opened`: reading the file. A file that cannot be read counts as empty, and is
  to be replaced.
- `Manifest.record`, `merge`: new entries.
- `Manifest.flush`, `close`: writing the file now.
- `Manifest.schedule`, `fire`: writing it when a timer fires.
-/

namespace PersistedQueries

/-- A timer that has been started. -/
structure Manifest.Timer where
  /-- The seconds that it waits. -/
  interval : Json
  /-- It has been stopped before it fired. -/
  isCancelled : Bool

/-- The entries and what is to be written. -/
structure Manifest where
  /-- The path of the file. -/
  path : String
  /-- The seconds that a write is put off. -/
  debounce : Json
  /-- The texts by their digests. -/
  entries : Table String String
  /-- The entries may differ from the file. -/
  isDirty : Bool
  /-- The timers that have been started, in order. -/
  timers : List Manifest.Timer
  /-- The timer that a write waits for. -/
  pending : Option Nat

namespace Manifest

/-! ## Loading -/

/-- Why a file is no manifest. -/
inductive LoadFault where
  /-- The file cannot be read. -/
  | read (fault : ReadFault)
  /-- Its text is no JSON. -/
  | json (document : Text) (fault : Json.Fault)
  /-- Its value is no object of strings. -/
  | shape

/-- The message of a fault. -/
def LoadFault.message : LoadFault → String
  | read fault => fault.message
  | json document fault => fault.message document
  | shape => "manifest must be a JSON object of strings"

/-- The strings of fields. -/
def stringFields : List (String × Json) → Option (List (String × String))
  | [] => some []
  | (name, .string text) :: rest => (stringFields rest).map ((name, text) :: ·)
  | _ => none

/-- The entries of a file. -/
def readEntries (disk : Disk) (path : String) : Except LoadFault (Table String String) :=
  match disk.readText path with
  | .error fault => .error (.read fault)
  | .ok document =>
    match Json.parse document with
    | .error fault => .error (.json document fault)
    | .ok (.object fields) =>
      match stringFields fields with
      | some entries => .ok (.ofList entries)
      | none => .error .shape
    | .ok _ => .error .shape

/-- The manifest with the entries of its file. When they cannot be read it is empty, and its user is
told. -/
def load (manifest : Manifest) (disk : Disk) : Manifest × Output :=
  match readEntries disk manifest.path with
  | .ok entries => ({ manifest with entries := entries }, .none)
  | .error fault =>
    ({ manifest with entries := .empty, isDirty := true },
      .warning ("Could not read persisted query manifest " ++ manifest.path ++ " (" ++
        fault.message ++ "); starting empty"))

/-- The manifest of a path. -/
def opened (disk : Disk) (path : String) (debounce : Json) : Manifest × Output :=
  load ⟨path, debounce, .empty, false, [], none⟩ disk

/-! ## Recording -/

/-- The manifest with an entry, and whether it has changed. -/
def record (manifest : Manifest) (hash text : String) : Manifest × Bool :=
  if manifest.entries.get? hash = some text then (manifest, false)
  else ({ manifest with entries := manifest.entries.insert hash text, isDirty := true }, true)

/-- The manifest with some entries, and how many of them were new or changed. -/
def recordEach (manifest : Manifest) : List (String × String) → Manifest × Nat
  | [] => (manifest, 0)
  | (hash, text) :: rest =>
    let (recorded, isChanged) := manifest.record hash text
    let (merged, count) := recorded.recordEach rest
    (merged, count + isChanged.toNat)

/-- The manifest with the entries of a table, and how many of them were new or changed. -/
def merge (manifest : Manifest) (entries : Table String String) : Manifest × Nat :=
  manifest.recordEach entries.entries

/-! ## Timers -/

/-- A list of timers in which one has been stopped. -/
def cancelAt (timers : List Timer) (number : Nat) : List Timer :=
  timers.modify number fun timer => { timer with isCancelled := true }

/-- The manifest without a pending write. -/
def cancelPending (manifest : Manifest) : Manifest :=
  match manifest.pending with
  | none => manifest
  | some number =>
    { manifest with timers := cancelAt manifest.timers number, pending := none }

/-- Put a write off from now on. -/
def schedule (manifest : Manifest) : Manifest :=
  let idle := manifest.cancelPending
  { idle with
    timers := idle.timers ++ [⟨manifest.debounce, false⟩]
    pending := some idle.timers.length }

/-! ## Writing -/

/-- The entries as a JSON object. -/
def toJson (manifest : Manifest) : Json :=
  .object (manifest.entries.entries.map fun (hash, text) => (hash, .string text))

/-- What writing leaves: the manifest, the disk, and the fault if it failed. -/
structure Written where
  /-- The manifest. -/
  manifest : Manifest
  /-- The disk. -/
  disk : Disk
  /-- Whether the file was written. -/
  result : Except Disk.Fault Unit

/-- Write the file now. -/
def flush (manifest : Manifest) (disk : Disk) : Written :=
  let idle := { manifest.cancelPending with isDirty := false }
  let (disk, result) := disk.writeJson manifest.path manifest.toJson
  ⟨idle, disk, result⟩

/-- What firing a timer or closing leaves: a write, or nothing but the manifest. -/
inductive Attempt where
  /-- Nothing was to be written. -/
  | idle (manifest : Manifest)
  /-- The file was to be written. -/
  | flushed (written : Written)

/-- A timer fires. Only the one that a write waits for has an effect. -/
def fire (manifest : Manifest) (disk : Disk) (number : Nat) : Attempt :=
  if manifest.pending = some number then
    .flushed ({ manifest with pending := none }.flush disk)
  else .idle manifest

/-- What is printed when a write that was put off fails. -/
def delayedFailure (manifest : Manifest) (fault : Disk.Fault) : Output :=
  .error ("Failed to write persisted query manifest " ++ manifest.path ++ ": " ++ fault.message)

/-- Write what has not been written. -/
def close (manifest : Manifest) (disk : Disk) : Attempt :=
  let idle := manifest.cancelPending
  if manifest.pending.isSome || manifest.isDirty then .flushed (idle.flush disk) else .idle idle

end Manifest

end PersistedQueries
