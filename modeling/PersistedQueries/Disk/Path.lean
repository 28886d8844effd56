import PersistedQueries.Text.Basic

/-!
# Paths

A path is a text in which slashes separate names. The functions here look at the text alone and
never at a disk.

- `Path.join`, `directory`, `base`, `stemAndExtension`: putting together and taking apart.
- `Path.normalize`: the path without empty names, single dots and names that are left again.
- `Path.absolute`: the normalized path from the root.
- `Path.relativeTo`: the path that leads from one path to another.
-/

namespace PersistedQueries.Path

/-- The names between the slashes; an empty one stands before, behind and between slashes. -/
def parts (path : Text) : List Text := Text.splitOn '/' path

/-- The path of some names. -/
def ofParts (names : List Text) : Text := Text.joinWith ['/'] names

/-- The path begins at the root. -/
def isAbsolute (path : Text) : Bool := ['/'].isPrefixOf path

/-- The path ends in a slash. -/
def endsInSlash (path : Text) : Bool := ['/'].isSuffixOf path

/-- A path taken from another one. An absolute path stands for itself. -/
def join (start path : Text) : Text :=
  if isAbsolute path then path
  else if start.isEmpty || endsInSlash start then start ++ path
  else start ++ '/' :: path

/-- The part behind the last slash. -/
def base (path : Text) : Text := (path.reverse.takeWhile (· ≠ '/')).reverse

/-- The part up to the last slash, without the slashes at its end, unless it is all slashes. -/
def directory (path : Text) : Text :=
  let upTo := path.reverse.dropWhile (· ≠ '/')
  let trimmed := upTo.dropWhile (· = '/')
  if trimmed.isEmpty then upTo.reverse else trimmed.reverse

/-- The path split in front of the last dot of its last name. A dot counts only behind a
character that is no dot. -/
def stemAndExtension (path : Text) : Text × Text :=
  let name := base path
  let behind := name.reverse.takeWhile (· ≠ '.')
  let before := (name.reverse.dropWhile (· ≠ '.')).drop 1
  if name.contains '.' && before.any (· ≠ '.') then
    (path.take (path.length - behind.length - 1), '.' :: behind.reverse)
  else (path, [])

/-! ## Normal form -/

/-- The slashes at the beginning of a normal path: two when there are exactly two, one when there
are more. -/
def rootSlashes (path : Text) : Text :=
  if !isAbsolute path then []
  else if ['/', '/'].isPrefixOf path && not (['/', '/', '/'].isPrefixOf path) then ['/', '/']
  else ['/']

/-- Follow names lexically. The names so far are given last first. -/
def collapse (rooted : Bool) : (done : List Text) → List Text → List Text
  | done, [] => done.reverse
  | done, name :: names =>
    if name = [] ∨ name = ['.'] then collapse rooted done names
    else if name ≠ ['.', '.'] then collapse rooted (name :: done) names
    else
      match done with
      | [] => if rooted then collapse rooted [] names else collapse rooted [name] names
      | last :: before =>
        if last = ['.', '.'] then collapse rooted (name :: done) names
        else collapse rooted before names

/-- The path without empty names and single dots, and without names that two dots leave again. -/
def normalize (path : Text) : Text :=
  let normal := rootSlashes path ++ ofParts (collapse (isAbsolute path) [] (parts path))
  if normal.isEmpty then ['.'] else normal

/-- The normal path from the root, for a path taken from a working directory. -/
def absolute (working path : Text) : Text := normalize (join working path)

/-! ## From one path to another -/

/-- Drop the names that two lists begin with in common. -/
def dropCommon : List Text → List Text → List Text × List Text
  | first :: firsts, second :: seconds =>
    if first = second then dropCommon firsts seconds else (first :: firsts, second :: seconds)
  | firsts, seconds => (firsts, seconds)

/-- The path that leads from a starting directory to a path. -/
def relativeTo (working start path : Text) : Text :=
  let names (p : Text) := (parts (absolute working p)).filter (!·.isEmpty)
  let (up, down) := dropCommon (names start) (names path)
  let steps := up.map (fun _ => ['.', '.']) ++ down
  if steps.isEmpty then ['.'] else ofParts steps

end PersistedQueries.Path
