import Mathlib.Data.List.GetD
import PersistedQueries.Proofs.Text.Splitting
import PersistedQueries.Splice.SourceMap

/-!
# Positions in mapped text

The pieces of a generated text are laid one behind the other. Where a piece begins is decided by the
text in front of it, so a piece that has a segment has it on that line and in that column, whatever
the pieces before it were.

- `Position.behind`: the position behind a text that begins at a position.
- `positionOf_eq_behind`: the position of an offset is the one behind the text in front of it.
- `length_segmentLines`: there is a list of segments for each generated line.
- `exists_segmentLines_append`: the lines from a piece on, and what stands in front of them.
- `exists_segmentLines_piece`: a piece has its segment where it begins, and the next segment of the
  line stands behind the piece.
-/

namespace PersistedQueries

/-! ## Line feeds -/

namespace Text

theorem lineFeeds_append (text more : Text) :
    lineFeeds (text ++ more) = lineFeeds text + lineFeeds more :=
  List.count_append

theorem lineFeeds_eq_zero {text : Text} : lineFeeds text = 0 ↔ '\n' ∉ text :=
  List.count_eq_zero

/-- What stands behind a line feed, without another one, is the last line. -/
theorem lastLineLength_behind (text : Text) {line : Text} (h : '\n' ∉ line) :
    lastLineLength (text ++ '\n' :: line) = line.length := by
  have hline : ∀ c ∈ line.reverse, decide (c ≠ '\n') = true := by
    intro c hc
    refine decide_eq_true ?_
    rintro rfl
    exact h (List.mem_reverse.1 hc)
  unfold lastLineLength
  rw [List.reverse_append, List.reverse_cons, List.append_assoc,
    List.takeWhile_append_of_pos hline]
  show (line.reverse ++ List.takeWhile _ ('\n' :: text.reverse)).length = _
  rw [List.takeWhile_cons_of_neg (by decide), List.append_nil, List.length_reverse]

/-- Without a line feed a text goes on the last line of what stands before it. -/
theorem lastLineLength_append_of_not_mem (text : Text) {more : Text} (h : '\n' ∉ more) :
    lastLineLength (text ++ more) = lastLineLength text + more.length := by
  have hmore : ∀ c ∈ more.reverse, decide (c ≠ '\n') = true := by
    intro c hc
    refine decide_eq_true ?_
    rintro rfl
    exact h (List.mem_reverse.1 hc)
  unfold lastLineLength
  rw [List.reverse_append, List.takeWhile_append_of_pos hmore, List.length_append,
    List.length_reverse, Nat.add_comm]

/-- A text with a line feed has a last one. -/
theorem exists_last_feed {text : Text} (h : '\n' ∈ text) :
    ∃ front line, text = front ++ '\n' :: line ∧ '\n' ∉ line := by
  obtain ⟨line, front, heq, hline⟩ := List.eq_append_cons_of_mem (List.mem_reverse.2 h)
  refine ⟨front.reverse, line.reverse, ?_, fun hmem => hline (List.mem_reverse.1 hmem)⟩
  rw [← List.reverse_reverse text, heq]
  simp

/-- With a line feed a text has a last line of its own. -/
theorem lastLineLength_append_of_mem (text : Text) {more : Text} (h : '\n' ∈ more) :
    lastLineLength (text ++ more) = lastLineLength more := by
  obtain ⟨front, line, rfl, hline⟩ := exists_last_feed h
  rw [← List.append_assoc, lastLineLength_behind _ hline, lastLineLength_behind _ hline]

end Text

namespace Splice

open Text (lineFeeds lastLineLength lineFeeds_append lineFeeds_eq_zero)

/-! ## Positions -/

/-- The position behind a text that begins at a position. -/
def Position.behind (position : Position) (text : Text) : Position :=
  if lineFeeds text = 0 then ⟨position.line, position.column + text.length⟩
  else ⟨position.line + lineFeeds text, lastLineLength text⟩

namespace Position

variable (position : Position) (text more : Text)

theorem behind_of_not_mem {text : Text} (h : '\n' ∉ text) :
    position.behind text = ⟨position.line, position.column + text.length⟩ :=
  if_pos (lineFeeds_eq_zero.2 h)

theorem behind_of_mem {text : Text} (h : '\n' ∈ text) :
    position.behind text = ⟨position.line + lineFeeds text, lastLineLength text⟩ :=
  if_neg fun hnone => lineFeeds_eq_zero.1 hnone h

theorem behind_nil : position.behind [] = position :=
  position.behind_of_not_mem List.not_mem_nil

theorem line_behind : (position.behind text).line = position.line + lineFeeds text := by
  unfold behind
  split
  · next h => exact (congrArg (position.line + ·) h).symm
  · rfl

/-- A text that is laid behind another one ends where both together end. -/
theorem behind_append : position.behind (text ++ more) = (position.behind text).behind more := by
  by_cases hmore : '\n' ∈ more
  · have hall : '\n' ∈ text ++ more := List.mem_append_right text hmore
    rw [behind_of_mem _ hall, behind_of_mem _ hmore, line_behind, lineFeeds_append,
      Text.lastLineLength_append_of_mem text hmore, Nat.add_assoc]
  · have hmoreFeeds := lineFeeds_eq_zero.2 hmore
    rw [behind_of_not_mem (position.behind text) hmore]
    by_cases htext : '\n' ∈ text
    · have hall : '\n' ∈ text ++ more := List.mem_append_left more htext
      rw [behind_of_mem _ hall, behind_of_mem _ htext, lineFeeds_append, hmoreFeeds,
        Text.lastLineLength_append_of_not_mem text hmore, Nat.add_zero]
    · have hall : '\n' ∉ text ++ more := fun hmem => (List.mem_append.1 hmem).elim htext hmore
      rw [behind_of_not_mem _ hall, behind_of_not_mem _ htext, List.length_append, Nat.add_assoc]

/-- Positions are counted on from any line. -/
theorem behind_shift (lines column : Nat) : (⟨lines, column⟩ : Position).behind text =
    ⟨lines + ((⟨0, column⟩ : Position).behind text).line,
      ((⟨0, column⟩ : Position).behind text).column⟩ := by
  unfold behind
  split
  · rfl
  · show (⟨lines + lineFeeds text, _⟩ : Position) = ⟨lines + (0 + lineFeeds text), _⟩
    rw [Nat.zero_add]

end Position

/-- The position of an offset is the one behind the text in front of it. -/
theorem positionOf_eq_behind (text : Text) (offset : Nat) :
    positionOf text offset = (⟨0, 0⟩ : Position).behind (text.take offset) := by
  unfold positionOf
  by_cases h : '\n' ∈ text.take offset
  · rw [Position.behind_of_mem _ h, Nat.zero_add]
  · have hlength := Text.lastLineLength_append_of_not_mem [] h
    rw [List.nil_append] at hlength
    rw [Position.behind_of_not_mem _ h, lineFeeds_eq_zero.2 h, hlength]
    rfl

/-! ## Lines of segments -/

theorem getD_prependToFirst_zero (segments : List Segment) (lines : List (List Segment)) :
    (prependToFirst segments lines).getD 0 [] = segments ++ lines.getD 0 [] := by
  cases lines with
  | nil => exact (List.append_nil segments).symm
  | cons line lines => rfl

theorem getD_prependToFirst_succ (segments : List Segment) (lines : List (List Segment))
    (number : Nat) :
    (prependToFirst segments lines).getD (number + 1) [] = lines.getD (number + 1) [] := by
  cases lines with
  | nil => rfl
  | cons line lines => rfl

theorem length_prependToFirst {segments : List Segment} {lines : List (List Segment)}
    (h : lines ≠ []) : (prependToFirst segments lines).length = lines.length := by
  cases lines with
  | nil => exact absurd rfl h
  | cons line lines => rfl

/-- There is a list of segments for each generated line. -/
theorem length_segmentLines (column : Nat) (pieces : List Piece) :
    (segmentLines column pieces).length = lineFeeds (pieces.flatMap Piece.text) + 1 := by
  induction pieces generalizing column with
  | nil => rfl
  | cons piece rest ih =>
    rw [segmentLines, List.flatMap_cons, lineFeeds_append]
    split
    · next hnone =>
      have hlength := ih (column + piece.text.length)
      rw [length_prependToFirst (List.ne_nil_of_length_pos (by omega)), hlength, hnone,
        Nat.zero_add]
    · next breaks hbreaks =>
      rw [List.length_cons, List.length_append, List.length_replicate, ih, hbreaks]
      omega

/-- The lines from a piece on stand behind those of the pieces before it. -/
theorem exists_segmentLines_append (column : Nat) (before rest : List Piece) (number : Nat) :
    let position := (⟨0, column⟩ : Position).behind (before.flatMap Piece.text)
    ∃ earlier, (segmentLines column (before ++ rest)).getD (position.line + number) [] =
      earlier ++ (segmentLines position.column rest).getD number [] := by
  intro position
  induction before generalizing column with
  | nil =>
    have hposition : position = ⟨0, column⟩ := Position.behind_nil _
    rw [hposition]
    refine ⟨[], ?_⟩
    rw [Nat.zero_add]
    rfl
  | cons piece before ih =>
    have hposition : position = ((⟨0, column⟩ : Position).behind piece.text).behind
        (before.flatMap Piece.text) := Position.behind_append _ _ _
    rw [List.cons_append, segmentLines]
    split
    · next hnone =>
      obtain ⟨earlier, hearlier⟩ := ih (column + piece.text.length)
      rw [Position.behind_of_not_mem _ (lineFeeds_eq_zero.1 hnone)] at hposition
      rw [hposition]
      -- the segment of the piece, if it has one, stands on the first line only
      generalize (⟨0, column + piece.text.length⟩ : Position).behind
        (before.flatMap Piece.text) = end' at hearlier ⊢
      cases hline : end'.line + number with
      | zero =>
        rw [getD_prependToFirst_zero, ← hline, hearlier, ← List.append_assoc]
        exact ⟨_, rfl⟩
      | succ line =>
        rw [getD_prependToFirst_succ, ← hline]
        exact ⟨earlier, hearlier⟩
    · next breaks hbreaks =>
      obtain ⟨earlier, hearlier⟩ := ih (lastLineLength piece.text)
      have hmem : '\n' ∈ piece.text := by
        by_contra hnone
        exact absurd (lineFeeds_eq_zero.2 hnone) (by omega)
      rw [Position.behind_of_mem _ hmem, hbreaks, Position.behind_shift] at hposition
      rw [hposition]
      refine ⟨earlier, Eq.trans ?_ hearlier⟩
      -- the line feeds of the piece have brought in as many lines
      generalize ((⟨0, lastLineLength piece.text⟩ : Position).behind
        (before.flatMap Piece.text)).line = line
      show List.getD (_ :: (List.replicate breaks [] ++ _)) (0 + (breaks + 1) + line + number) [] = _
      rw [show 0 + (breaks + 1) + line + number = breaks + (line + number) + 1 by omega,
        List.getD_cons_succ, List.getD_append_right _ _ _ _ (by rw [List.length_replicate]; omega),
        List.length_replicate, Nat.add_sub_cancel_left]

/-- No segment of the first line stands before the column that it begins with. -/
theorem column_le_of_mem_segmentLines {column : Nat} {pieces : List Piece} {segment : Segment}
    (h : segment ∈ (segmentLines column pieces).getD 0 []) : column ≤ segment.column := by
  have hown {column : Nat} {origin : Option Position}
      (hsegment : segment ∈ (origin.map (Segment.mk column)).toList) : column ≤ segment.column := by
    obtain ⟨position, -, rfl⟩ := Option.map_eq_some_iff.1 (Option.mem_toList.1 hsegment)
    exact Nat.le_refl column
  induction pieces generalizing column with
  | nil => exact absurd h List.not_mem_nil
  | cons piece rest ih =>
    rw [segmentLines] at h
    split at h
    · rw [getD_prependToFirst_zero] at h
      rcases List.mem_append.1 h with h | h
      · exact hown h
      · exact Nat.le_of_add_right_le (ih h)
    · exact hown h

/-- A piece has its segment where it begins, and the next segment of the line, if there is one, stands
behind the piece. -/
theorem exists_segmentLines_piece (column : Nat) (before after : List Piece) (piece : Piece)
    {origin : Position} (horigin : piece.origin = some origin) :
    let position := (⟨0, column⟩ : Position).behind (before.flatMap Piece.text)
    ∃ earlier later, (segmentLines column (before ++ piece :: after)).getD position.line [] =
        earlier ++ ⟨position.column, origin⟩ :: later ∧
      ∀ segment ∈ later, position.column + piece.text.length ≤ segment.column := by
  intro position
  obtain ⟨earlier, hearlier⟩ := exists_segmentLines_append column before (piece :: after) 0
  change (segmentLines column (before ++ piece :: after)).getD position.line [] =
    earlier ++ (segmentLines position.column (piece :: after)).getD 0 [] at hearlier
  rw [hearlier, segmentLines, horigin]
  split
  · rw [getD_prependToFirst_zero]
    exact ⟨earlier, _, rfl, fun segment => column_le_of_mem_segmentLines⟩
  · exact ⟨earlier, [], rfl, List.forall_mem_nil _⟩

end Splice

end PersistedQueries
