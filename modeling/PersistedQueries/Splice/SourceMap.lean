import PersistedQueries.Splice.Splicer
import PersistedQueries.Splice.Vlq
import PersistedQueries.Text.Lines
import PersistedQueries.Json.Basic

/-!
# Source maps

A source map of version 3 leads from a position of the spliced text back to the base text.
Every replacement has a segment at its first character that leads to the start of the
replaced span, and every kept line that holds more than a line end has one at its first
character.

- `Segment`: a column of the generated text and the base position it comes from.
- `Piece`: a part of the generated text that may begin with a segment.
- `segmentLines`: the segments of each line of the generated text.
- `mappings`: the segments as differences in variable-length quantities, commas between the
  segments of a line and semicolons between lines.
- `Splicer.sourceMap`: the whole map; `SourceMap.toJson` its fields in order.
-/

namespace PersistedQueries.Splice

/-- The line and the column of an offset, both counted from zero. Lines end at line feeds. -/
structure Position where
  line : Nat
  column : Nat
  deriving DecidableEq, Repr

/-- The position of an offset. -/
def positionOf (text : Text) (offset : Nat) : Position :=
  ⟨Text.lineFeeds (text.take offset), Text.lastLineLength (text.take offset)⟩

/-- A column of a generated line and the base position it comes from. -/
structure Segment where
  column : Nat
  origin : Position
  deriving DecidableEq, Repr

/-- A part of the generated text. -/
structure Piece where
  text : Text
  /-- The base position that its first character has a segment for. -/
  origin : Option Position
  deriving DecidableEq, Repr

/-- The text holds more than carriage returns and line feeds. -/
def hasContent (text : Text) : Bool := text.any fun c => c ≠ '\r' ∧ c ≠ '\n'

/-- The pieces of kept lines, the first of which begins at an offset of the base. -/
def keptPieces (base : Text) (offset : Nat) : List Text → List Piece
  | [] => []
  | line :: rest =>
    ⟨line, if hasContent line then some (positionOf base offset) else none⟩ ::
      keptPieces base (offset + line.length) rest

/-- The pieces of a chunk. -/
def Splicer.Chunk.pieces (base : Text) (chunk : Splicer.Chunk) : List Piece :=
  match chunk.content with
  | some content => [⟨content, some (positionOf base chunk.span.start)⟩]
  | none =>
    keptPieces base chunk.span.start (Text.splitLines (Text.slice base chunk.span))

/-- Put segments in front of those of the first line. -/
def prependToFirst (segments : List Segment) : List (List Segment) → List (List Segment)
  | [] => [segments]
  | line :: lines => (segments ++ line) :: lines

/-- The segments of each generated line, from a column of the first one on. -/
def segmentLines (column : Nat) : List Piece → List (List Segment)
  | [] => [[]]
  | piece :: rest =>
    let segments := (piece.origin.map (Segment.mk column)).toList
    match Text.lineFeeds piece.text with
    | 0 => prependToFirst segments (segmentLines (column + piece.text.length) rest)
    | breaks + 1 =>
      segments :: (List.replicate breaks [] ++ segmentLines (Text.lastLineLength piece.text) rest)

/-- The difference between two counts. -/
def difference (new old : Nat) : Int := (new : Int) - (old : Int)

/-- The segments of a line as differences from the segment before, the first from the given
column and position. -/
def encodeSegments (column : Nat) (origin : Position) : List Segment → List Text
  | [] => []
  | segment :: rest =>
    (encodeVlq (difference segment.column column) ++ encodeVlq 0 ++
      encodeVlq (difference segment.origin.line origin.line) ++
      encodeVlq (difference segment.origin.column origin.column)) ::
      encodeSegments segment.column segment.origin rest

/-- The encoded lines. The generated column starts anew on every line, the base position
goes on from line to line. -/
def encodeLines (origin : Position) : List (List Segment) → List Text
  | [] => []
  | line :: rest =>
    Text.joinWith [','] (encodeSegments 0 origin line) ::
      encodeLines ((line.getLast?.map Segment.origin).getD origin) rest

/-- The text of the mappings. -/
def mappings (lines : List (List Segment)) : Text := Text.joinWith [';'] (encodeLines ⟨0, 0⟩ lines)

/-- A source map with one source. -/
structure SourceMap where
  /-- The name of the base text. -/
  source : String
  mappings : String
  /-- The name of the generated file. -/
  file : Option String
  /-- The base text. -/
  content : Option String
  deriving DecidableEq, Repr

/-- The fields of a source map in order. -/
def SourceMap.toJson (map : SourceMap) : Json :=
  .object <|
    [("version", .int 3), ("sources", Json.strings [map.source]), ("names", .array []),
     ("mappings", .string map.mappings)] ++
    (map.file.map fun file => ("file", Json.string file)).toList ++
    (map.content.map fun content => ("sourcesContent", Json.strings [content])).toList

/-- The source map from the spliced text to the base. An empty file name is left out. -/
def Splicer.sourceMap (splicer : Splicer) (source file : Option String)
    (includeContent : Bool) : SourceMap where
  source := source.getD ""
  mappings := String.ofList <| mappings <|
    segmentLines 0 (splicer.chunks.flatMap (Splicer.Chunk.pieces splicer.base))
  file := file.filter (· ≠ "")
  content := if includeContent then some (String.ofList splicer.base) else none

end PersistedQueries.Splice
