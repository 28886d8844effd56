import PersistedQueries.Json.Writer
import PersistedQueries.Text.Blank

/-!
# Truth values in settings

A setting is on or off in one of several words, whatever their case and the blanks around them.

- `Truth.words`: the words and what they mean.
- `Truth.read`: the truth value of a setting.
-/

namespace PersistedQueries.Truth

/-- The words for on and off. The empty word means off. -/
def words : List (String × Bool) :=
  [("1", true), ("true", true), ("yes", true), ("on", true),
    ("0", false), ("false", false), ("no", false), ("off", false), ("", false)]

/-- The letters of a text in lower case. No letter outside ASCII stands in a word, and none of them
has a lower case that does. -/
def lowered (text : Text) : Text := text.map Char.toLower

/-- The meaning of a text, if it is one of the words. -/
def ofText? (text : Text) : Option Bool :=
  words.lookup (String.ofList (lowered (Text.strip text)))

/-- A setting that is neither on nor off. -/
structure Fault where
  /-- The setting. -/
  value : Json

/-- The message of a fault. -/
def Fault.message (fault : Fault) : String :=
  "Expected a boolean value, got " ++ fault.value.display

/-- The truth value of a setting, which null has not. -/
def read (value : Json) : Except Fault (Option Bool) :=
  match value with
  | .null => .ok none
  | .bool value => .ok (some value)
  | value =>
    let text :=
      match value with
      | .string text => text
      | other => other.display
    match ofText? text.toList with
    | some truth => .ok (some truth)
    | none => .error ⟨value⟩

end PersistedQueries.Truth
