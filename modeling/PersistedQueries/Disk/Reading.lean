import PersistedQueries.Disk.Basic
import PersistedQueries.Text.Lines
import PersistedQueries.Text.Utf8

/-!
# Reading texts

A source file is read as UTF-8, and every line end of it becomes a line feed.

- `ReadFault`: the file cannot be read, or is no text.
- `Disk.readText`: the text of a file.
-/

namespace PersistedQueries

/-- Why a text cannot be read. -/
inductive ReadFault where
  /-- The file cannot be read. -/
  | disk (fault : Disk.Fault)
  /-- The octets of the file are no UTF-8. -/
  | encoding (fault : Utf8.Fault)

/-- The message of a fault. -/
def ReadFault.message : ReadFault → String
  | disk fault => fault.message
  | encoding fault => fault.message

namespace Disk

/-- The text of the file that a path leads to. -/
def readText (disk : Disk) (path : String) : Except ReadFault Text :=
  match disk.readOctets path with
  | .error fault => .error (.disk fault)
  | .ok octets =>
    match Utf8.decode octets with
    | .error fault => .error (.encoding fault)
    | .ok text => .ok (Text.normalizeNewlines text)

end Disk

end PersistedQueries
