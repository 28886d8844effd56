import PersistedQueries.Index.Host
import PersistedQueries.Persist.Basic

/-!
# The index of definitions

The index holds the definitions of the files seen so far. A file enters as a whole: its
definitions, its imports and the digest of its text come together, and leave together.

- `Index`: the definitions by name, the indexed files, and what is known about each file.
- `Index.register`: enter one definition, unless its name is taken.
- `Index.add`: enter a file.
- `Index.invalidate`: forget a file.
-/

namespace PersistedQueries

/-- The definitions of the files seen so far. -/
structure Index where
  /-- The definitions by name. -/
  registry : Registry
  /-- The files whose definitions are entered. -/
  files : NameSet
  /-- The names that each file defines. -/
  definitions : Table String NameSet
  /-- The specifier of each name that a file imports. -/
  imports : Table String (Table String String)
  /-- The digest of the text of each file. -/
  digests : Table String String

namespace Index

/-- The index of no files. -/
def empty : Index := ⟨.empty, .empty, .empty, .empty, .empty⟩

instance : Inhabited Index := ⟨empty⟩

/-- The names that a file defines. -/
def definedIn (index : Index) (file : String) : NameSet :=
  (index.definitions.get? file).getD .empty

/-- The imports of a file. -/
def importsOf (index : Index) (file : String) : Table String String :=
  (index.imports.get? file).getD .empty

/-- The index with a definition, whatever its name meant before. -/
def enter (index : Index) (site : CallSite) : Index :=
  { index with
    registry := index.registry.insert site.name site
    definitions :=
      match site.file with
      | none => index.definitions
      | some file => index.definitions.insert file ((index.definedIn file).insert site.name) }

/-- The index with a definition whose name is not taken. -/
def register {ε : Type} (index : Index) (site : CallSite) : Except (Fault ε) Index :=
  match index.registry.get? site.name with
  | some known => .error (.duplicate site.name known.file site.file)
  | none => .ok (index.enter site)

/-- What a file brings to an index. -/
structure Addition where
  /-- The file. -/
  file : String
  /-- Its definitions. -/
  sites : List CallSite
  /-- Its imports. -/
  imports : Table String String
  /-- The digest of its text. -/
  digest : String

/-- The index with a file. -/
def add (index : Index) (addition : Addition) : Index :=
  let entered := addition.sites.foldl enter index
  { entered with
    files := index.files.insert addition.file
    imports := index.imports.insert addition.file addition.imports
    digests := index.digests.insert addition.file addition.digest }

/-- The index without a file and its definitions. -/
def invalidate (index : Index) (file : String) : Index where
  registry := (index.definedIn file).names.foldl Table.erase index.registry
  files := index.files.erase file
  definitions := index.definitions.erase file
  imports := index.imports.erase file
  digests := index.digests.erase file

/-- The index without a file whose text is no longer the one that was indexed. -/
def refresh (index : Index) (file : String) (source : Text) : Index :=
  if file ∈ index.files ∧ index.digests.get? file ≠ some (digest source) then
    index.invalidate file
  else index

end Index

end PersistedQueries
