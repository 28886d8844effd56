import PersistedQueries.Proofs.Splice.Quantities
import PersistedQueries.Proofs.Text.Splitting
import PersistedQueries.Splice.SourceMap

/-!
# Reading mappings

A consumer of a source map knows nothing of how it was made. It cuts the mappings at semicolons into
lines and at commas into segments, and adds up the differences: those of generated columns on each
line anew, all others over the ends of lines. What it reads are the segments that were written.

- `readMappings?`: the segments of each line, as the format of source maps says.
- `readSegments_encodeSegments`, `readLines_encodeLines`: segments and lines are read back.
- `readMappings?_mappings`: so are the mappings.
-/

namespace PersistedQueries.Splice

/-! ## A consumer -/

/-- A position in a source, all parts counted from zero. -/
structure Origin where
  /-- The number of the source. -/
  source : Int
  /-- The line. -/
  line : Int
  /-- The column. -/
  column : Int

/-- A segment as it is read. -/
structure Mapped where
  /-- The generated column. -/
  column : Int
  /-- The position that it leads to, if it leads to any. -/
  origin : Option Origin

/-- A segment by its differences from the column before and from the position that the segment before
leads to. With one difference it leads nowhere; a fifth one is for a name. -/
def readSegment (column : Int) (last : Origin) : List Int → Option (Mapped × Origin)
  | [step] => some (⟨column + step, none⟩, last)
  | step :: source :: line :: origin :: name =>
    let next : Origin := ⟨last.source + source, last.line + line, last.column + origin⟩
    if name.length ≤ 1 then some (⟨column + step, some next⟩, next) else none
  | _ => none

/-- The segments of a line from a column on, and the position that the last one leads to. -/
def readSegments (column : Int) (last : Origin) : List Text → Option (List Mapped × Origin)
  | [] => some ([], last)
  | digits :: rest => do
    let values ← decodeVlqs? digits
    let (segment, last) ← readSegment column last values
    let (segments, last) ← readSegments segment.column last rest
    return (segment :: segments, last)

/-- The segments of a line. The generated column starts anew. -/
def readLine (last : Origin) (line : Text) : Option (List Mapped × Origin) :=
  if line = [] then some ([], last) else readSegments 0 last (Text.splitOn ',' line)

/-- The segments of each line. The position goes on from line to line. -/
def readLines (last : Origin) : List Text → Option (List (List Mapped))
  | [] => some []
  | line :: rest => do
    let (segments, last) ← readLine last line
    let lines ← readLines last rest
    return segments :: lines

/-- The segments of each line of mappings. -/
def readMappings? (text : Text) : Option (List (List Mapped)) :=
  readLines ⟨0, 0, 0⟩ (Text.splitOn ';' text)

/-! ## Segments -/

/-- A position in the only source. -/
def Position.toOrigin (position : Position) : Origin := ⟨0, position.line, position.column⟩

/-- A segment that leads into the only source. -/
def Segment.toMapped (segment : Segment) : Mapped := ⟨segment.column, some segment.origin.toOrigin⟩

/-- The position that the last segment of a line leads to, or the one before the line. -/
def lastOrigin (origin : Position) (segments : List Segment) : Position :=
  (segments.getLast?.map Segment.origin).getD origin

theorem lastOrigin_cons (origin : Position) (segment : Segment) (segments : List Segment) :
    lastOrigin origin (segment :: segments) = lastOrigin segment.origin segments := by
  unfold lastOrigin
  rw [List.getLast?_cons]
  cases segments.getLast? <;> rfl

theorem add_difference (new old : Nat) : (old : Int) + difference new old = new := by
  unfold difference
  omega

/-- The segments of a line are read back. -/
theorem readSegments_encodeSegments (column : Nat) (origin : Position) (segments : List Segment) :
    readSegments column origin.toOrigin (encodeSegments column origin segments) =
      some (segments.map Segment.toMapped, (lastOrigin origin segments).toOrigin) := by
  induction segments generalizing column origin with
  | nil => rfl
  | cons segment rest ih =>
    have hvalues := decodeVlqs?_encodeVlqs [difference segment.column column, 0,
      difference segment.origin.line origin.line, difference segment.origin.column origin.column]
    have hsegment : readSegment column origin.toOrigin [difference segment.column column, 0,
        difference segment.origin.line origin.line,
        difference segment.origin.column origin.column] =
          some (segment.toMapped, segment.origin.toOrigin) := by
      simp only [readSegment, Position.toOrigin, add_difference]
      rfl
    have hdigits : encodeVlqs [difference segment.column column, 0,
        difference segment.origin.line origin.line,
        difference segment.origin.column origin.column] =
          encodeVlq (difference segment.column column) ++ encodeVlq 0 ++
            encodeVlq (difference segment.origin.line origin.line) ++
            encodeVlq (difference segment.origin.column origin.column) := by
      simp only [encodeVlqs, List.flatMap_cons, List.flatMap_nil, List.append_nil,
        List.append_assoc]
    rw [encodeSegments, ← hdigits, readSegments, hvalues]
    have hrest : readSegments segment.toMapped.column segment.origin.toOrigin
        (encodeSegments segment.column segment.origin rest) = _ := ih segment.column segment.origin
    simp only [Option.bind_eq_bind, Option.bind_some, hsegment, hrest, lastOrigin_cons]
    rfl

/-- What a segment is written as: digits, at least one. -/
theorem mem_encodeSegments {column : Nat} {origin : Position} {segments : List Segment}
    {digits : Text} (h : digits ∈ encodeSegments column origin segments) :
    digits ≠ [] ∧ ∀ c ∈ digits, c ∈ base64Digits := by
  induction segments generalizing column origin with
  | nil => cases h
  | cons segment rest ih =>
    rcases List.mem_cons.1 h with rfl | h
    · refine ⟨?_, fun c hc => ?_⟩
      · simp only [List.append_assoc]
        exact List.append_ne_nil_of_left_ne_nil (encodeVlq_ne_nil _) _
      · simp only [List.mem_append] at hc
        rcases hc with ((hc | hc) | hc) | hc <;> exact mem_base64Digits_of_mem_encodeVlq hc
    · exact ih h

/-! ## Lines -/

/-- A character that separates segments or lines is no digit. -/
theorem not_mem_of_forall_mem {separator : Char} {digits : Text} (h : separator ∉ base64Digits)
    (hdigits : ∀ c ∈ digits, c ∈ base64Digits) : separator ∉ digits :=
  fun hmem => h (hdigits separator hmem)

/-- A line of segments is read back. -/
theorem readLine_encodeSegments (origin : Position) (segments : List Segment) :
    readLine origin.toOrigin (Text.joinWith [','] (encodeSegments 0 origin segments)) =
      some (segments.map Segment.toMapped, (lastOrigin origin segments).toOrigin) := by
  cases segments with
  | nil => rfl
  | cons segment rest =>
    have hsegments := readSegments_encodeSegments 0 origin (segment :: rest)
    have hall : ∀ digits ∈ encodeSegments 0 origin (segment :: rest),
        digits ≠ [] ∧ ∀ c ∈ digits, c ∈ base64Digits := fun _ => mem_encodeSegments
    have hne : encodeSegments 0 origin (segment :: rest) ≠ [] := List.cons_ne_nil _ _
    generalize encodeSegments 0 origin (segment :: rest) = written at hsegments hall hne
    have hsplit : Text.splitOn ',' (Text.joinWith [','] written) = written :=
      Text.splitOn_joinWith hne fun digits hdigits =>
        not_mem_of_forall_mem (by decide) (hall digits hdigits).2
    have hline : Text.joinWith [','] written ≠ [] := by
      intro hnil
      -- a line without characters would be one segment without digits
      rw [hnil] at hsplit
      exact (hall [] (hsplit ▸ List.mem_singleton_self [])).1 rfl
    unfold readLine
    rw [if_neg hline, hsplit]
    exact hsegments

/-- No line has a semicolon in it. -/
theorem not_mem_encodeLines {origin : Position} {lines : List (List Segment)} {line : Text}
    (h : line ∈ encodeLines origin lines) : ';' ∉ line := by
  induction lines generalizing origin with
  | nil => cases h
  | cons segments lines ih =>
    rcases List.mem_cons.1 h with rfl | h
    · exact Text.not_mem_joinWith (by decide) fun digits hdigits =>
        not_mem_of_forall_mem (by decide) (mem_encodeSegments hdigits).2
    · exact ih h

/-- The lines are read back. -/
theorem readLines_encodeLines (origin : Position) (lines : List (List Segment)) :
    readLines origin.toOrigin (encodeLines origin lines) =
      some (lines.map fun line => line.map Segment.toMapped) := by
  induction lines generalizing origin with
  | nil => rfl
  | cons line lines ih =>
    rw [encodeLines, readLines, readLine_encodeSegments]
    have hrest : readLines (lastOrigin origin line).toOrigin
        (encodeLines (lastOrigin origin line) lines) = _ := ih (lastOrigin origin line)
    simp only [Option.bind_eq_bind, Option.bind_some]
    exact congrArg (Option.bind · _) hrest

/-- The mappings are read back as the segments that they were made of. -/
theorem readMappings?_mappings {lines : List (List Segment)} (hne : lines ≠ []) :
    readMappings? (mappings lines) = some (lines.map fun line => line.map Segment.toMapped) := by
  have hwritten : encodeLines ⟨0, 0⟩ lines ≠ [] := by
    cases lines with
    | nil => exact absurd rfl hne
    | cons line lines => exact List.cons_ne_nil _ _
  unfold readMappings? mappings
  rw [Text.splitOn_joinWith hwritten fun _ => not_mem_encodeLines]
  exact readLines_encodeLines ⟨0, 0⟩ lines

end PersistedQueries.Splice
