import PersistedQueries.Proofs.Splice.Exactness
import PersistedQueries.Proofs.Splice.Mappings
import PersistedQueries.Proofs.Splice.Positions

/-!
# Source maps lead back

A consumer who looks up a character of the generated text takes the last segment of its line that
does not stand behind it, and counts on from where that leads. For a character that was kept this is
the position of the character in the base; for a replacement it is the start of what was replaced.

- `growth`, `Moves`, `Splicer.Keeps`: where an offset of the base has come to, and which of them are kept.
- `exists_keptPiece`, `exists_pieces_behind`: the piece of a kept character, and of a replacement.
- `covering?`: the segment that a consumer takes.
- `sourceMap_leads_back`: what a consumer finds.
-/

namespace PersistedQueries.Splice

open Text (lineFeeds)

variable {base : Text} {start stop offset : Nat} {c : Char}

/-! ## Where offsets come to -/

/-- How much longer a text gets by some edits, or shorter. -/
def growth : List Edit → Int
  | [] => 0
  | edit :: rest => edit.content.length - (edit.span.stop - edit.span.start : Int) + growth rest

theorem growth_append (earlier later : List Edit) :
    growth (earlier ++ later) = growth earlier + growth later := by
  induction earlier with
  | nil => simp [growth]
  | cons edit rest ih =>
    simp only [List.cons_append, growth, ih]
    omega

/-- Where an offset of the base has come to behind some edits: it has moved by as much as they have
made the text longer. -/
def Moves (earlier : List Edit) (offset generated : Nat) : Prop :=
  generated = offset + growth earlier

/-- A character of the base is kept, and stands at an offset of the generated text: no edit touches
it, and it has moved by those in front of it. -/
def Splicer.Keeps (splicer : Splicer) (offset generated : Nat) : Prop :=
  offset < splicer.base.length ∧ ∃ earlier later, splicer.edits = earlier ++ later ∧
    (∀ edit ∈ earlier, edit.span.stop ≤ offset) ∧ (∀ edit ∈ later, offset < edit.span.start) ∧
    Moves earlier offset generated

/-- The text of an edit stands at an offset of the generated text. -/
def Splicer.Replaces (splicer : Splicer) (edit : Edit) (generated : Nat) : Prop :=
  ∃ earlier later, splicer.edits = earlier ++ edit :: later ∧
    Moves earlier edit.span.start generated

/-! ## Pieces -/

/-- The pieces of kept lines make up the lines. -/
theorem flatMap_keptPieces (base : Text) (offset : Nat) (lines : List Text) :
    (keptPieces base offset lines).flatMap Piece.text = lines.flatten := by
  induction lines generalizing offset with
  | nil => rfl
  | cons line rest ih => rw [keptPieces, List.flatMap_cons, ih, List.flatten_cons]

/-- The pieces of a chunk make up its text. -/
theorem flatMap_pieces (base : Text) (chunk : Splicer.Chunk) :
    (chunk.pieces base).flatMap Piece.text = chunk.text base := by
  unfold Splicer.Chunk.pieces Splicer.Chunk.text
  cases chunk.content with
  | none => exact (flatMap_keptPieces ..).trans (Text.flatten_splitLines _)
  | some content => exact List.append_nil content

/-- The pieces of a splicer make up its text. -/
theorem flatMap_flatMap_pieces (splicer : Splicer) :
    (splicer.chunks.flatMap (Splicer.Chunk.pieces splicer.base)).flatMap Piece.text =
      splicer.text := by
  unfold Splicer.text
  rw [List.flatMap_assoc]
  exact congrArg (splicer.chunks.flatMap ·) (funext (flatMap_pieces splicer.base))

/-- A character of kept lines stands in a piece, on the first line of it. -/
theorem exists_keptPiece {lines : List Text} (hlines : lines.flatten <+: base.drop start)
    (hfeeds : ∀ line ∈ lines, '\n' ∉ line.dropLast) (hstart : start ≤ offset)
    (hstop : offset < start + lines.flatten.length) :
    ∃ before line after first count,
      keptPieces base start lines =
        before ++ ⟨line, if hasContent line then some (positionOf base first) else none⟩ :: after ∧
      first = start + (before.flatMap Piece.text).length ∧ first + count = offset ∧
      line <+: base.drop first ∧ count < line.length ∧ '\n' ∉ line.take count := by
  induction lines generalizing start with
  | nil => exact absurd hstop (Nat.not_lt.2 hstart)
  | cons line rest ih =>
    obtain ⟨hline, hrest⟩ := List.forall_mem_cons.1 hfeeds
    rw [List.flatten_cons, List.length_append] at hstop
    rw [List.flatten_cons] at hlines
    by_cases hhere : offset < start + line.length
    · have hcount : offset - start < line.length := by omega
      refine ⟨[], line, keptPieces base (start + line.length) rest, start, offset - start, rfl, rfl,
        Nat.add_sub_cancel' hstart, (List.prefix_append _ _).trans hlines, hcount,
        fun hmem => hline ?_⟩
      rw [List.dropLast_eq_take]
      exact List.take_subset_take_left line (Nat.le_sub_one_of_lt hcount) hmem
    · have hrestLines : rest.flatten <+: base.drop (start + line.length) := by
        obtain ⟨tail, htail⟩ := hlines
        refine ⟨tail, ?_⟩
        rw [← List.drop_drop, ← htail, List.append_assoc, List.drop_left]
      obtain ⟨before, own, after, first, count, hpieces, hfirst, hoffset, hrest⟩ :=
        ih hrestLines hrest (Nat.not_lt.1 hhere) (by omega)
      refine ⟨⟨line, if hasContent line then some (positionOf base start) else none⟩ :: before, own,
        after, first, count, ?_, ?_, hoffset, hrest⟩
      · rw [keptPieces, hpieces, List.cons_append]
      · rw [List.flatMap_cons, List.length_append, hfirst, Nat.add_assoc]

theorem flatMap_pieces_keptChunk (base : Text) (start stop : Nat) :
    (Splicer.keptChunk start stop).flatMap (Splicer.Chunk.pieces base) =
      keptPieces base start (Text.splitLines (Text.slice base ⟨start, stop⟩)) := by
  unfold Splicer.keptChunk
  split
  · exact List.append_nil _
  · next h =>
    have hempty : Text.slice base ⟨start, stop⟩ = [] := by
      unfold Text.slice
      rw [Nat.sub_eq_zero_of_le (Nat.le_of_not_lt h), List.take_zero]
    rw [hempty]
    rfl

/-- The pieces behind some edits, and how far the edits have moved them. -/
theorem exists_pieces_behind {length : Nat} (earlier later : List Edit) (start : Nat)
    (hordered : earlier.Pairwise Edit.Before) (hwithin : ∀ edit ∈ earlier, edit.Within length)
    (hstart : ∀ edit ∈ earlier, start ≤ edit.span.start) (hlength : length ≤ base.length) :
    ∃ before stop, (Splicer.chunksFrom length start (earlier ++ later)).flatMap
        (Splicer.Chunk.pieces base) =
          before ++ (Splicer.chunksFrom length stop later).flatMap (Splicer.Chunk.pieces base) ∧
      (stop = start ∨ ∃ edit ∈ earlier, stop = edit.span.stop) ∧
      (before.flatMap Piece.text).length + start = stop + growth earlier := by
  induction earlier generalizing start with
  | nil => exact ⟨[], start, rfl, .inl rfl, by simp [growth]⟩
  | cons edit rest ih =>
    obtain ⟨hbefore, hordered⟩ := List.pairwise_cons.1 hordered
    obtain ⟨⟨hspan, hstop⟩, hwithin⟩ := List.forall_mem_cons.1 hwithin
    obtain ⟨hfirst, -⟩ := List.forall_mem_cons.1 hstart
    obtain ⟨before, stop, hpieces, hlast, hmoved⟩ := ih edit.span.stop hordered hwithin hbefore
    refine ⟨keptPieces base start (Text.splitLines (Text.slice base ⟨start, edit.span.start⟩)) ++
      ⟨edit.content, some (positionOf base edit.span.start)⟩ :: before, stop, ?_, ?_, ?_⟩
    · rw [List.cons_append, Splicer.chunksFrom, List.flatMap_append, List.flatMap_cons, hpieces,
        flatMap_pieces_keptChunk]
      simp [Splicer.Chunk.pieces]
    · right
      rcases hlast with rfl | ⟨other, hother, rfl⟩
      · exact ⟨edit, List.mem_cons_self, rfl⟩
      · exact ⟨other, List.mem_cons_of_mem _ hother, rfl⟩
    · have hslice : (Text.slice base ⟨start, edit.span.start⟩).length =
          edit.span.start - start := Text.length_slice (by omega)
      rw [List.flatMap_append, List.flatMap_cons, flatMap_keptPieces, Text.flatten_splitLines,
        List.length_append, List.length_append, hslice, growth]
      dsimp only
      omega

/-- The chunks from an offset on begin with what is kept up to the next edit. -/
theorem exists_chunksFrom_eq {length : Nat} {edits : List Edit} (hlength : offset < length)
    (hedits : ∀ edit ∈ edits, offset < edit.span.start) (hwithin : ∀ edit ∈ edits, edit.Within length)
    (start : Nat) : ∃ stop rest, Splicer.chunksFrom length start edits =
      Splicer.keptChunk start stop ++ rest ∧ offset < stop ∧ stop ≤ length := by
  cases edits with
  | nil => exact ⟨length, [], (List.append_nil _).symm, hlength, Nat.le_refl _⟩
  | cons edit rest =>
    obtain ⟨hspan, hstop⟩ := hwithin edit List.mem_cons_self
    exact ⟨edit.span.start, _, rfl, hedits edit List.mem_cons_self, by omega⟩

namespace Splicer

/-- The pieces of the generated text. -/
def pieces (splicer : Splicer) : List Piece :=
  splicer.chunks.flatMap (Chunk.pieces splicer.base)

variable {splicer : Splicer} {generated : Nat} {edit : Edit}

/-- The edits before one of them end before it starts. -/
theorem stop_le_start {earlier later : List Edit} (hedits : splicer.edits = earlier ++ edit :: later) :
    ∀ other ∈ earlier, other.span.stop ≤ edit.span.start := by
  have hordered : (earlier ++ edit :: later).Pairwise Edit.Before := hedits ▸ splicer.ordered
  intro other hother
  exact (List.pairwise_append.1 hordered).2.2 other hother edit List.mem_cons_self

/-- The pieces of the generated text behind some edits. -/
theorem exists_pieces_eq {earlier later : List Edit} (hedits : splicer.edits = earlier ++ later) :
    ∃ front start, splicer.pieces = front ++
        (chunksFrom splicer.base.length start later).flatMap (Chunk.pieces splicer.base) ∧
      (∀ offset, (∀ edit ∈ earlier, edit.span.stop ≤ offset) → start ≤ offset) ∧
      (front.flatMap Piece.text).length = start + growth earlier := by
  have hordered : (earlier ++ later).Pairwise Edit.Before := hedits ▸ splicer.ordered
  have hwithin : ∀ edit ∈ earlier, edit.Within splicer.base.length := fun edit hedit =>
    splicer.within edit (hedits ▸ List.mem_append_left later hedit)
  obtain ⟨front, start, hfront, hstart, hmoved⟩ := exists_pieces_behind earlier later 0
    (List.pairwise_append.1 hordered).1 hwithin (fun _ _ => Nat.zero_le _) (Nat.le_refl _)
  refine ⟨front, start, ?_, fun offset hearlier => ?_, hmoved⟩
  · unfold pieces chunks
    rw [hedits, hfront]
  · rcases hstart with rfl | ⟨edit, hedit, rfl⟩
    · exact Nat.zero_le offset
    · exact hearlier edit hedit

/-- A kept character stands in a piece, on the first line of it. -/
theorem Keeps.exists_piece (h : splicer.Keeps offset generated) :
    ∃ before line after first count,
      splicer.pieces = before ++
        ⟨line, if hasContent line then some (positionOf splicer.base first) else none⟩ :: after ∧
      (before.flatMap Piece.text).length + count = generated ∧ first + count = offset ∧
      line <+: splicer.base.drop first ∧ count < line.length ∧ '\n' ∉ line.take count := by
  obtain ⟨hlength, earlier, later, hedits, hearlier, hlater, hmoves⟩ := h
  obtain ⟨front, start, hfront, hstart, hmoved⟩ := exists_pieces_eq hedits
  have hwithin : ∀ edit ∈ later, edit.Within splicer.base.length := fun edit hedit =>
    splicer.within edit (hedits ▸ List.mem_append_right earlier hedit)
  obtain ⟨stop, rest, hrest, hoffset, hstop⟩ := exists_chunksFrom_eq hlength hlater hwithin start
  -- the kept stretch that the character stands in, from the edits before it up to those behind it
  have hslice := Text.flatten_splitLines (Text.slice splicer.base ⟨start, stop⟩)
  have hprefix : (Text.splitLines (Text.slice splicer.base ⟨start, stop⟩)).flatten <+:
      splicer.base.drop start := by
    rw [hslice]
    exact List.take_prefix _ _
  have hbehind : offset <
      start + (Text.splitLines (Text.slice splicer.base ⟨start, stop⟩)).flatten.length := by
    rw [hslice, Text.length_slice hstop]
    omega
  obtain ⟨before, line, after, first, count, hkept, hfirst, hcount, hline⟩ :=
    exists_keptPiece hprefix (fun _ => Text.not_mem_dropLast_of_mem_splitLines)
      (hstart offset hearlier) hbehind
  refine ⟨front ++ before, line, after ++ rest.flatMap (Chunk.pieces splicer.base), first, count, ?_,
    ?_, hcount, hline⟩
  · rw [hfront, hrest, List.flatMap_append, flatMap_pieces_keptChunk, hkept]
    simp only [List.append_assoc, List.cons_append]
  · unfold Moves at hmoves
    rw [List.flatMap_append, List.length_append]
    omega

/-- An edit has a piece with its text. -/
theorem Replaces.exists_piece (h : splicer.Replaces edit generated) :
    ∃ before after, splicer.pieces =
        before ++ ⟨edit.content, some (positionOf splicer.base edit.span.start)⟩ :: after ∧
      (before.flatMap Piece.text).length = generated := by
  obtain ⟨earlier, later, hedits, hmoves⟩ := h
  obtain ⟨hspan, hstop⟩ := splicer.within edit (hedits ▸ List.mem_append_right _ List.mem_cons_self)
  obtain ⟨front, start, hfront, hstart, hmoved⟩ := exists_pieces_eq hedits
  have hstart : start ≤ edit.span.start := hstart edit.span.start (stop_le_start hedits)
  have hlength : (Text.slice splicer.base ⟨start, edit.span.start⟩).length =
      edit.span.start - start := Text.length_slice (by omega)
  refine ⟨front ++ keptPieces splicer.base start
    (Text.splitLines (Text.slice splicer.base ⟨start, edit.span.start⟩)),
    (chunksFrom splicer.base.length edit.span.stop later).flatMap (Chunk.pieces splicer.base),
    ?_, ?_⟩
  · rw [hfront, chunksFrom, List.flatMap_append, List.flatMap_cons,
      flatMap_pieces_keptChunk]
    simp [Chunk.pieces]
  · unfold Moves at hmoves
    rw [List.flatMap_append, flatMap_keptPieces, Text.flatten_splitLines, List.length_append,
      hlength]
    omega

/-! ## The generated text -/

theorem text_eq (splicer : Splicer) : splicer.text = splicer.pieces.flatMap Piece.text :=
  (flatMap_flatMap_pieces splicer).symm

/-- The generated text up to some offset in a piece. -/
theorem take_text {before after : List Piece} {piece : Piece} {count : Nat}
    (h : splicer.pieces = before ++ piece :: after) (hcount : count ≤ piece.text.length) :
    splicer.text.take ((before.flatMap Piece.text).length + count) =
      before.flatMap Piece.text ++ piece.text.take count := by
  rw [text_eq, h, List.flatMap_append, List.flatMap_cons, List.take_length_add_append,
    List.take_append_of_le_length hcount]

/-- Where some offset in a piece stands in the generated text. -/
theorem positionOf_text {before after : List Piece} {piece : Piece} {count : Nat}
    (h : splicer.pieces = before ++ piece :: after) (hcount : count ≤ piece.text.length) :
    positionOf splicer.text ((before.flatMap Piece.text).length + count) =
      ((⟨0, 0⟩ : Position).behind (before.flatMap Piece.text)).behind (piece.text.take count) := by
  rw [positionOf_eq_behind, take_text h hcount, Position.behind_append]

/-- What is kept is the character of the base. -/
theorem Keeps.getElem? (h : splicer.Keeps offset generated) :
    splicer.text[generated]? = splicer.base[offset]? := by
  obtain ⟨before, line, after, first, count, hpieces, rfl, rfl, ⟨tail, htail⟩, hcount, -⟩ :=
    h.exists_piece
  calc splicer.text[(before.flatMap Piece.text).length + count]?
      = (line ++ after.flatMap Piece.text)[count]? := by
        rw [text_eq, hpieces, List.flatMap_append, List.flatMap_cons,
          List.getElem?_append_right (Nat.le_add_right _ _), Nat.add_sub_cancel_left]
    _ = (line ++ tail)[count]? := by
        rw [List.getElem?_append_left hcount, List.getElem?_append_left hcount]
    _ = splicer.base[first + count]? := by
        rw [htail, List.getElem?_drop]

/-- What an edit has put in is its content. -/
theorem Replaces.prefix_drop (h : splicer.Replaces edit generated) :
    edit.content <+: splicer.text.drop generated := by
  obtain ⟨before, after, hpieces, rfl⟩ := h.exists_piece
  rw [text_eq, hpieces, List.flatMap_append, List.flatMap_cons, List.drop_left]
  exact List.prefix_append _ _

/-- The text of an edit stands somewhere. -/
theorem exists_replaces (h : edit ∈ splicer.edits) : ∃ first, splicer.Replaces edit first := by
  obtain ⟨earlier, later, hedits⟩ := List.append_of_mem h
  obtain ⟨front, start, -, hstart, hmoved⟩ := exists_pieces_eq hedits
  have hstart : start ≤ edit.span.start := hstart edit.span.start (stop_le_start hedits)
  refine ⟨(front.flatMap Piece.text).length + (edit.span.start - start), earlier, later, hedits, ?_⟩
  unfold Moves
  omega

/-- Behind some edits, what does not stand in the text of an edit has been kept. -/
theorem keeps_or_replaces_behind {earlier later : List Edit} (hedits : splicer.edits = earlier ++ later)
    {first : Nat} (hearlier : ∀ edit ∈ earlier, edit.span.stop ≤ start)
    (hlater : ∀ edit ∈ later, start ≤ edit.span.start) (hmoves : Moves earlier start first)
    (hfirst : first ≤ generated)
    (hlength : generated < first + (replacedFrom splicer.base start later).length) :
    (∃ offset, splicer.Keeps offset generated) ∨
      ∃ edit first, splicer.Replaces edit first ∧ first ≤ generated ∧
        generated < first + edit.content.length := by
  induction later generalizing earlier start first with
  | nil =>
    rw [replacedFrom, List.length_drop] at hlength
    refine .inl ⟨start + (generated - first), by omega, earlier, [], hedits, ?_,
      List.forall_mem_nil _, ?_⟩
    · exact fun edit hedit => Nat.le_add_right_of_le (hearlier edit hedit)
    · unfold Moves at hmoves ⊢
      omega
  | cons edit rest ih =>
    have hordered : (earlier ++ edit :: rest).Pairwise Edit.Before := hedits ▸ splicer.ordered
    obtain ⟨-, hrest, hbefore⟩ := List.pairwise_append.1 hordered
    obtain ⟨hrest, -⟩ := List.pairwise_cons.1 hrest
    obtain ⟨hspan, hstop⟩ := splicer.within edit (by rw [hedits]; simp)
    have hstart := hlater edit List.mem_cons_self
    unfold Moves at hmoves
    rw [replacedFrom, List.length_append, List.length_append, Text.length_slice (by omega)] at hlength
    by_cases hkept : generated < first + (edit.span.start - start)
    · -- in front of the edit
      refine .inl ⟨start + (generated - first), by omega, earlier, edit :: rest, hedits, ?_, ?_, ?_⟩
      · exact fun edit hedit => Nat.le_add_right_of_le (hearlier edit hedit)
      · refine List.forall_mem_cons.2 ⟨by omega, fun other hother => ?_⟩
        have hother : edit.span.stop ≤ other.span.start := hrest other hother
        omega
      · unfold Moves
        omega
    · by_cases hreplaced : generated < first + (edit.span.start - start) + edit.content.length
      · -- in its text
        refine .inr ⟨edit, first + (edit.span.start - start), ⟨earlier, rest, hedits, ?_⟩, by omega,
          hreplaced⟩
        unfold Moves
        omega
      · -- behind it
        have hedits : splicer.edits = (earlier ++ [edit]) ++ rest := by simp [hedits]
        have hbehind : ∀ other ∈ rest, edit.span.stop ≤ other.span.start := hrest
        have hmoves : Moves (earlier ++ [edit]) edit.span.stop
            (first + (edit.span.start - start) + edit.content.length) := by
          unfold Moves
          simp only [growth_append, growth]
          omega
        refine ih hedits (fun other hother => ?_) hbehind hmoves (by omega) (by omega)
        rcases List.mem_append.1 hother with hother | hother
        · have hother := hearlier other hother
          omega
        · rw [List.mem_singleton.1 hother]

/-- What does not stand in the text of an edit has been kept. -/
theorem keeps_or_replaces (h : generated < splicer.text.length) :
    (∃ offset, splicer.Keeps offset generated) ∨
      ∃ edit first, splicer.Replaces edit first ∧ first ≤ generated ∧
        generated < first + edit.content.length := by
  rw [text_eq_replacedFrom] at h
  have hmoves : Moves [] 0 0 := rfl
  exact keeps_or_replaces_behind (List.nil_append _).symm (List.forall_mem_nil _)
    (fun _ _ => Nat.zero_le _) hmoves (Nat.zero_le _) (by rwa [Nat.zero_add])

end Splicer

/-! ## What a consumer finds -/

/-- The segment that a position of the generated text belongs to: the last one of its line that does
not stand behind it. -/
def covering? (lines : List (List Mapped)) (position : Position) : Option Mapped :=
  ((lines.getD position.line []).filter fun segment =>
    segment.column ≤ (position.column : Int)).getLast?

/-- Where a position of the generated text comes from: counted on from where its segment leads. -/
def trace? (lines : List (List Mapped)) (position : Position) : Option Origin := do
  let segment ← covering? lines position
  let origin ← segment.origin
  return { origin with column := origin.column + (position.column - segment.column) }

/-- The segments that a consumer reads. -/
def Splicer.mapped (splicer : Splicer) : List (List Mapped) :=
  (segmentLines 0 splicer.pieces).map fun line => line.map Segment.toMapped

theorem getD_mapped (splicer : Splicer) (number : Nat) :
    splicer.mapped.getD number [] =
      ((segmentLines 0 splicer.pieces).getD number []).map Segment.toMapped :=
  List.getD_map _ [] fun line : List Segment => line.map Segment.toMapped

/-- Within a piece that has a segment this is the segment that a consumer takes. -/
theorem covering?_eq {lines : List (List Mapped)} {position : Position} {segment : Segment}
    {earlier later : List Segment}
    (hline : lines.getD position.line [] = (earlier ++ segment :: later).map Segment.toMapped)
    (hsegment : segment.column ≤ position.column)
    (hlater : ∀ segment ∈ later, position.column < segment.column) :
    covering? lines position = some segment.toMapped := by
  have hbehind : (later.map Segment.toMapped).filter
      (fun segment => segment.column ≤ (position.column : Int)) = [] := by
    refine List.filter_eq_nil_iff.2 fun mapped hmapped => ?_
    obtain ⟨other, hother, rfl⟩ := List.mem_map.1 hmapped
    have hcolumn := hlater other hother
    show ¬ decide ((other.column : Int) ≤ position.column) = true
    rw [decide_eq_true_eq]
    omega
  have htaken : (segment.toMapped :: later.map Segment.toMapped).filter
      (fun segment => segment.column ≤ (position.column : Int)) = [segment.toMapped] := by
    have hcolumn : segment.toMapped.column ≤ (position.column : Int) := Int.ofNat_le.2 hsegment
    rw [List.filter_cons, if_pos (decide_eq_true hcolumn), hbehind]
  unfold covering?
  rw [hline, List.map_append, List.map_cons, List.filter_append, htaken, List.getLast?_concat]

/-- A consumer finds out where a kept character comes from. -/
theorem Splicer.Keeps.trace? {splicer : Splicer} {generated : Nat}
    (h : splicer.Keeps offset generated) (hchar : splicer.base[offset]? = some c)
    (hreturn : c ≠ '\r') (hfeed : c ≠ '\n') :
    trace? splicer.mapped (positionOf splicer.text generated) =
      some (positionOf splicer.base offset).toOrigin := by
  obtain ⟨before, line, after, first, count, hpieces, rfl, rfl, ⟨tail, htail⟩, hcount, hline⟩ :=
    h.exists_piece
  have hmem : c ∈ line := by
    rw [← List.getElem?_drop, ← htail, List.getElem?_append_left hcount] at hchar
    exact List.mem_of_getElem? hchar
  have hcontent : hasContent line = true :=
    List.any_eq_true.2 ⟨c, hmem, decide_eq_true ⟨hreturn, hfeed⟩⟩
  have hpieces : splicer.pieces = before ++
      ⟨line, some (positionOf splicer.base first)⟩ :: after := by rw [hpieces, hcontent]; rfl
  -- both positions stand as far behind the beginning of the piece
  have hbase : positionOf splicer.base (first + count) =
      (positionOf splicer.base first).behind (line.take count) := by
    rw [positionOf_eq_behind, positionOf_eq_behind, ← Position.behind_append, List.take_add, ← htail,
      List.take_append_of_le_length hcount.le]
  have htext := positionOf_text hpieces hcount.le
  rw [Position.behind_of_not_mem _ hline, List.length_take_of_le hcount.le] at hbase htext
  obtain ⟨earlier, later, hsegments, hlater⟩ := exists_segmentLines_piece 0 before after
    ⟨line, some (positionOf splicer.base first)⟩ rfl
  rw [← hpieces] at hsegments
  generalize (⟨0, 0⟩ : Position).behind (before.flatMap Piece.text) = own at htext hsegments hlater
  have hcovering : covering? splicer.mapped ⟨own.line, own.column + count⟩ =
      some (Segment.mk own.column (positionOf splicer.base first)).toMapped := by
    refine covering?_eq ((getD_mapped splicer own.line).trans (congrArg _ hsegments))
      (Nat.le_add_right own.column count) fun segment hsegment => ?_
    exact Nat.lt_of_lt_of_le (Nat.add_lt_add_left hcount _) (hlater segment hsegment)
  rw [hbase, htext, Splice.trace?, hcovering]
  have hcount : ((own.column + count : Nat) : Int) - own.column = count := by omega
  show some (Origin.mk 0 _ (_ + (((own.column + count : Nat) : Int) - own.column))) = _
  rw [hcount]
  rfl

/-- A replacement has a segment where its text begins. -/
theorem Splicer.Replaces.mem_mapped {splicer : Splicer} {edit : Edit} {first : Nat}
    (h : splicer.Replaces edit first) :
    let position := positionOf splicer.text first
    ⟨position.column, some (positionOf splicer.base edit.span.start).toOrigin⟩ ∈
      splicer.mapped.getD position.line [] := by
  intro position
  obtain ⟨before, after, hpieces, rfl⟩ := h.exists_piece
  have hposition : position = (⟨0, 0⟩ : Position).behind (before.flatMap Piece.text) :=
    (positionOf_text hpieces (Nat.zero_le _)).trans (Position.behind_nil _)
  obtain ⟨earlier, later, hsegments, -⟩ := exists_segmentLines_piece 0 before after
    ⟨edit.content, some (positionOf splicer.base edit.span.start)⟩ rfl
  rw [← hpieces, ← hposition] at hsegments
  rw [getD_mapped, hsegments]
  exact List.mem_map_of_mem (List.mem_append_right _ List.mem_cons_self)

/-- What a consumer reads in a source map: a line for each line of the generated text; for each kept
character that ends no line the position that it has in the base; and for each replacement, where its
text begins, the start of what was replaced. All of the generated text is kept or put in by an
edit. -/
theorem sourceMap_leads_back (splicer : Splicer) (source file : Option String)
    (includeContent : Bool) :
    ∃ lines,
      readMappings? (splicer.sourceMap source file includeContent).mappings.toList = some lines ∧
      lines.length = lineFeeds splicer.text + 1 ∧
      (∀ generated < splicer.text.length, (∃ offset, splicer.Keeps offset generated) ∨
        ∃ edit first, splicer.Replaces edit first ∧ first ≤ generated ∧
          generated < first + edit.content.length) ∧
      (∀ offset generated c, splicer.Keeps offset generated →
        splicer.text[generated]? = some c → c ≠ '\r' → c ≠ '\n' →
        splicer.base[offset]? = some c ∧ trace? lines (positionOf splicer.text generated) =
          some (positionOf splicer.base offset).toOrigin) ∧
      ∀ edit ∈ splicer.edits, ∃ first, splicer.Replaces edit first ∧
        edit.content <+: splicer.text.drop first ∧
        ⟨(positionOf splicer.text first).column,
          some (positionOf splicer.base edit.span.start).toOrigin⟩ ∈
            lines.getD (positionOf splicer.text first).line [] := by
  have hlength := length_segmentLines 0 splicer.pieces
  have hread := readMappings?_mappings (List.ne_nil_of_length_pos (by omega) :
    segmentLines 0 splicer.pieces ≠ [])
  refine ⟨splicer.mapped, ?_, ?_, fun _ => Splicer.keeps_or_replaces, ?_, fun edit hedit => ?_⟩
  · show readMappings? (String.ofList (mappings (segmentLines 0 splicer.pieces))).toList = _
    rw [String.toList_ofList]
    exact hread
  · rw [Splicer.mapped, List.length_map, hlength, Splicer.text_eq]
  · intro offset generated c hkeeps hchar hreturn hfeed
    rw [hkeeps.getElem?] at hchar
    exact ⟨hchar, hkeeps.trace? hchar hreturn hfeed⟩
  · obtain ⟨first, hfirst⟩ := Splicer.exists_replaces hedit
    exact ⟨first, hfirst, hfirst.prefix_drop, hfirst.mem_mapped⟩

end PersistedQueries.Splice
