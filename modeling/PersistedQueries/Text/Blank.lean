import PersistedQueries.Text.Basic

/-!
# White space

- `isBlank`: the white space of Unicode: the controls U+0009 to U+000D and U+001C to
  U+001F, the next-line control, and the space separators and line and paragraph
  separators. The zero-width space and the byte order mark are not white space.
- `strip`: a text without its leading and trailing white space.
- `collapse`: every run of white space becomes one space.
-/

namespace PersistedQueries.Text

/-- The white space of Unicode, with the four information separators. -/
def isBlank (c : Char) : Bool :=
  let n := c.toNat
  (0x09 ≤ n && n ≤ 0x0D) || (0x1C ≤ n && n ≤ 0x20) || n == 0x85 || n == 0xA0 || n == 0x1680 ||
  (0x2000 ≤ n && n ≤ 0x200A) || n == 0x2028 || n == 0x2029 || n == 0x202F || n == 0x205F ||
  n == 0x3000

/-- Everything that core counts as white space is blank. -/
theorem isBlank_of_isWhitespace {c : Char} (h : c.isWhitespace = true) : isBlank c = true := by
  simp only [Char.isWhitespace, Bool.or_eq_true, decide_eq_true_eq] at h
  rcases h with ((rfl | rfl) | rfl) | rfl <;> decide

/-- A text without leading white space. -/
def stripLeft (text : Text) : Text := text.dropWhile isBlank

/-- A text without trailing white space. -/
def stripRight (text : Text) : Text := (text.reverse.dropWhile isBlank).reverse

/-- A text without leading and trailing white space. -/
def strip (text : Text) : Text := stripRight (stripLeft text)

/-- Collapse runs of white space; `inRun` says that the character before was blank. -/
def collapseFrom (inRun : Bool) : Text → Text
  | [] => []
  | c :: rest =>
    if isBlank c then
      if inRun then collapseFrom true rest else ' ' :: collapseFrom true rest
    else c :: collapseFrom false rest

/-- Every run of white space becomes one space. -/
def collapse (text : Text) : Text := collapseFrom false text

end PersistedQueries.Text
