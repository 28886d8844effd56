import Mathlib.Data.List.Basic
import Mathlib.Data.List.Infix
import PersistedQueries.Text.Lines

/-!
# Searching and cutting a text

Cutting a text at a separator and joining the pieces are inverse to each other, and so are cutting it
into lines with their ends and putting these one after the other.

- `occursIn_iff`: a text occurs where it is a part.
- `splitOn_joinWith`: pieces that are joined can be cut again.
- `exists_splitOn_concat`: what the last piece is.
- `partition_append`, `partition_of_not_mem`: cutting at the first occurrence of a word.
- `flatten_splitLines`: the lines of a text make up the text.
- `not_mem_dropLast_of_mem_splitLines`: a line feed stands only at the end of a line.
- `drop_eq_slice`, `take_eq_slice`: a text around a slice.
-/

namespace PersistedQueries.Text

variable {separator : Char} {text piece : Text} {pieces : List Text}

/-- A text occurs in another one when it is a part of it. -/
theorem occursIn_iff {needle text : Text} : occursIn needle text = true ↔ needle <:+: text := by
  induction text with
  | nil => simp [occursIn]
  | cons c text ih =>
    rw [occursIn, Bool.or_eq_true, ih, List.isPrefixOf_iff_prefix, List.infix_cons_iff]

theorem splitOn_ne_nil (separator : Char) (text : Text) : splitOn separator text ≠ [] := by
  cases text with
  | nil => exact List.cons_ne_nil _ _
  | cons c rest =>
    rw [splitOn]
    split
    · exact List.cons_ne_nil _ _
    · split <;> exact List.cons_ne_nil _ _

/-- The pieces before and behind a separator. -/
theorem splitOn_append (separator : Char) (text more : Text) :
    splitOn separator (text ++ separator :: more) =
      splitOn separator text ++ splitOn separator more := by
  induction text with
  | nil =>
    rw [List.nil_append, splitOn.eq_def separator (separator :: more)]
    exact if_pos rfl
  | cons c rest ih =>
    rw [List.cons_append, splitOn, splitOn, ih]
    split
    · rfl
    · obtain ⟨piece, pieces, heq⟩ := List.exists_cons_of_ne_nil (splitOn_ne_nil separator rest)
      rw [heq]
      rfl

theorem splitOn_of_not_mem (h : separator ∉ text) : splitOn separator text = [text] := by
  induction text with
  | nil => rfl
  | cons c rest ih =>
    rw [List.mem_cons, not_or] at h
    rw [splitOn, if_neg (Ne.symm h.1), ih h.2]

/-- No piece has a separator in it. -/
theorem not_mem_of_mem_splitOn (h : piece ∈ splitOn separator text) : separator ∉ piece := by
  induction text generalizing piece with
  | nil =>
    rw [List.mem_singleton.1 h]
    exact List.not_mem_nil
  | cons c rest ih =>
    rw [splitOn] at h
    split at h
    · rcases List.mem_cons.1 h with rfl | h
      · exact List.not_mem_nil
      · exact ih h
    next hc =>
    obtain ⟨first, pieces, heq⟩ := List.exists_cons_of_ne_nil (splitOn_ne_nil separator rest)
    rw [heq] at h ih
    rcases List.mem_cons.1 h with rfl | h
    · exact fun hmem => (List.mem_cons.1 hmem).elim (fun heq => hc heq.symm) (ih List.mem_cons_self)
    · exact ih (List.mem_cons_of_mem _ h)

/-- What is no separator stands in a piece. -/
theorem exists_mem_splitOn_iff {separator c : Char} (hc : c ≠ separator) {text : Text} :
    (∃ piece ∈ splitOn separator text, c ∈ piece) ↔ c ∈ text := by
  induction text with
  | nil => simp [splitOn]
  | cons d rest ih =>
    rw [List.mem_cons, ← ih, splitOn]
    split
    · next hd => simp [hd, hc]
    · obtain ⟨piece, pieces, heq⟩ := List.exists_cons_of_ne_nil (splitOn_ne_nil separator rest)
      simp [heq, or_assoc]

/-- Pieces without separators that are joined with separators can be cut again. -/
theorem splitOn_joinWith (hne : pieces ≠ []) (h : ∀ piece ∈ pieces, separator ∉ piece) :
    splitOn separator (joinWith [separator] pieces) = pieces := by
  induction pieces with
  | nil => exact absurd rfl hne
  | cons piece rest ih =>
    obtain ⟨hpiece, hrest⟩ := List.forall_mem_cons.1 h
    cases rest with
    | nil => exact splitOn_of_not_mem hpiece
    | cons next rest =>
      rw [joinWith, List.append_assoc, List.singleton_append, splitOn_append,
        splitOn_of_not_mem hpiece, ih (List.cons_ne_nil _ _) hrest, List.singleton_append]
      exact List.cons_ne_nil _ _

/-- A character that stands in no piece and in no separator does not stand between them. -/
theorem not_mem_joinWith {c : Char} {separator : Text} (hseparator : c ∉ separator)
    (h : ∀ piece ∈ pieces, c ∉ piece) : c ∉ joinWith separator pieces := by
  induction pieces with
  | nil => exact List.not_mem_nil
  | cons piece rest ih =>
    obtain ⟨hpiece, hrest⟩ := List.forall_mem_cons.1 h
    cases rest with
    | nil => exact hpiece
    | cons next rest =>
      simp only [joinWith, List.mem_append, not_or] at ih ⊢
      exact ⟨⟨hpiece, hseparator⟩, ih hrest⟩

/-- A character that is no separator goes to the last piece of the text in front of it. -/
theorem exists_splitOn_concat {separator c : Char} (h : c ≠ separator) (text : Text) :
    ∃ pieces piece, splitOn separator text = pieces ++ [piece] ∧
      splitOn separator (text ++ [c]) = pieces ++ [piece ++ [c]] := by
  induction text with
  | nil => exact ⟨[], [], rfl, by simp [splitOn, h]⟩
  | cons first text ih =>
    obtain ⟨pieces, piece, heq, hconcat⟩ := ih
    rw [List.cons_append, splitOn, splitOn, heq, hconcat]
    split
    · exact ⟨[] :: pieces, piece, rfl, rfl⟩
    · cases pieces with
      | nil => exact ⟨[], first :: piece, rfl, rfl⟩
      | cons before pieces => exact ⟨(first :: before) :: pieces, piece, rfl, rfl⟩

/-- A text that does not end with a separator ends within its last piece. -/
theorem splitOn_concat {separator c : Char} (h : c ≠ separator) (text : Text) :
    ∃ pieces piece, splitOn separator (text ++ [c]) = pieces ++ [piece ++ [c]] := by
  obtain ⟨pieces, piece, -, heq⟩ := exists_splitOn_concat h text
  exact ⟨pieces, piece, heq⟩

/-- A text is cut at a word where the first character of the word comes for the first time. -/
theorem partition_append {c : Char} {word before : Text} (h : c ∉ before) (behind : Text) :
    partition (c :: word) (before ++ (c :: word ++ behind)) = some (before, behind) := by
  induction before with
  | nil =>
    rw [List.nil_append, List.cons_append, partition, ← List.cons_append,
      if_pos (List.isPrefixOf_iff_prefix.2 (List.prefix_append (c :: word) behind)), List.drop_left]
  | cons d before ih =>
    obtain ⟨hd, hbefore⟩ := not_or.1 (mt List.mem_cons.2 h)
    rw [List.cons_append, partition, ih hbefore, if_neg fun hprefix => ?_]
    · rfl
    · exact hd (List.cons_prefix_cons.1 (List.isPrefixOf_iff_prefix.1 hprefix)).1

theorem partition_of_not_mem {c : Char} (word : Text) (h : c ∉ text) :
    partition (c :: word) text = none := by
  induction text with
  | nil => rfl
  | cons d text ih =>
    obtain ⟨hd, htext⟩ := not_or.1 (mt List.mem_cons.2 h)
    rw [partition, ih htext, if_neg fun hprefix => ?_]
    · rfl
    · exact hd (List.cons_prefix_cons.1 (List.isPrefixOf_iff_prefix.1 hprefix)).1

/-! ## Lines -/

theorem flatten_consLine (c : Char) (lines : List Text) :
    (consLine c lines).flatten = c :: lines.flatten := by
  cases lines with
  | nil => rfl
  | cons line lines => rfl

/-- The lines of a text make up the text. -/
theorem flatten_splitLines (text : Text) : (splitLines text).flatten = text := by
  fun_induction splitLines text with
  | case1 => rfl
  | case2 rest ih => rw [List.flatten_cons, ih]; rfl
  | case3 c rest hother hboundary ih => rw [List.flatten_cons, ih]; rfl
  | case4 c rest hother hboundary ih => rw [flatten_consLine, ih]

theorem mem_consLine {c : Char} {line : Text} {lines : List Text} (h : line ∈ consLine c lines) :
    line ∈ lines ∨ line = [c] ∨ ∃ first ∈ lines, line = c :: first := by
  cases lines with
  | nil => exact .inr (.inl (List.mem_singleton.1 h))
  | cons first lines =>
    rcases List.mem_cons.1 h with rfl | h
    · exact .inr (.inr ⟨first, List.mem_cons_self, rfl⟩)
    · exact .inl (List.mem_cons_of_mem _ h)

/-- A line feed stands only at the end of a line. -/
theorem not_mem_dropLast_of_mem_splitLines {text line : Text} (h : line ∈ splitLines text) :
    '\n' ∉ line.dropLast := by
  fun_induction splitLines text generalizing line with
  | case1 => cases h
  | case2 rest ih =>
    rcases List.mem_cons.1 h with rfl | h
    · decide
    · exact ih h
  | case3 c rest hother hboundary ih =>
    rcases List.mem_cons.1 h with rfl | h
    · exact List.not_mem_nil
    · exact ih h
  | case4 c rest hother hboundary ih =>
    rcases mem_consLine h with h | rfl | ⟨first, hfirst, rfl⟩
    · exact ih h
    · exact List.not_mem_nil
    · intro hmem
      cases first with
      | nil => exact absurd hmem List.not_mem_nil
      | cons d first =>
        rw [List.dropLast_cons_of_ne_nil (List.cons_ne_nil d first)] at hmem
        rcases List.mem_cons.1 hmem with rfl | hmem
        · exact hboundary rfl
        · exact ih hfirst hmem

/-! ## Slices -/

/-- A text from an offset on is the part up to another one, and what stands behind that. -/
theorem drop_eq_slice {start stop : Nat} (h : start ≤ stop) (code : Text) :
    code.drop start = slice code ⟨start, stop⟩ ++ code.drop stop := by
  have hdrop := (List.take_append_drop (stop - start) (code.drop start)).symm
  rwa [List.drop_drop, Nat.add_sub_cancel' h] at hdrop

theorem take_eq_slice {start stop : Nat} (h : start ≤ stop) (code : Text) :
    code.take stop = code.take start ++ slice code ⟨start, stop⟩ := by
  have htake : code.take (start + (stop - start)) = _ := List.take_add
  rwa [Nat.add_sub_cancel' h] at htake

theorem length_slice {code : Text} {start stop : Nat} (h : stop ≤ code.length) :
    (slice code ⟨start, stop⟩).length = stop - start := by
  rw [slice, List.length_take, List.length_drop]
  dsimp only
  omega

end PersistedQueries.Text
