import PersistedQueries.GraphQL.Canonical
import PersistedQueries.Persist.Merge
import PersistedQueries.Sha256
import PersistedQueries.Text.Utf8

/-!
# Persisted queries

A persisted query is the canonical text of a merged document, under the SHA-256 digest of its
UTF-8 bytes.

- `digest`: the digest of a text.
- `Persisted`: a canonical text with its digest.
- `persist`: merge, canonicalize and digest one call site.
-/

namespace PersistedQueries

/-- The SHA-256 digest of a text in UTF-8, in lower-case hexadecimal digits. -/
def digest (text : Text) : String := Sha256.hexDigest (Utf8.encode text)

/-- A canonical text under its digest. -/
structure Persisted where
  /-- The digest of the text. -/
  hash : String
  /-- The canonical text. -/
  query : String
  deriving DecidableEq

/-- The canonical text of a document under its digest. -/
def Persisted.ofCanonical (text : Text) : Persisted := ⟨digest text, String.ofList text⟩

/-- Why a call site cannot be persisted. -/
inductive Persist.Fault where
  /-- A definition that it reaches is missing. -/
  | unbound (fault : Unbound)
  /-- The merged document is no document of the language. -/
  | malformed (document : Text) (fault : GraphQL.Fault)

/-- The message of a fault. -/
def Persist.Fault.message : Persist.Fault → String
  | unbound fault => fault.message
  | malformed document fault => fault.message document

/-- The canonical text, with its digest, of a call site merged with what it reaches. -/
def persist (registry : Registry) (site : CallSite) (addTypename : Bool) :
    Except Persist.Fault Persisted :=
  match merge registry site with
  | .error fault => .error (.unbound fault)
  | .ok document =>
    match GraphQL.canonicalize document addTypename with
    | .error fault => .error (.malformed document fault)
    | .ok text => .ok (.ofCanonical text)

end PersistedQueries
