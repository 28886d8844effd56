import PersistedQueries.Text.Basic

/-!
# Name patterns

A pattern describes names: a star stands for any characters, a question mark for one, and
brackets for one character of a set. A set lists characters and ranges, and an exclamation mark
at its beginning turns it around. A bracket that is never closed stands for itself.

- `Glob.Part`: one piece of a pattern; `Glob.parse` reads the pieces.
- `Glob.matchesAll`: a name is described by some pieces. This says what a pattern means.
- `Glob.endings`: which endings of a name are described by some pieces, found piece by piece, so
  that many stars cost no more than other pieces; `Glob.headD_endings` says that it means the same.
- `Glob.describes`: a name is described by a pattern.
-/

namespace PersistedQueries.Glob

/-- A character of a set, or the characters from one to another. -/
inductive Item where
  /-- One character. -/
  | one (c : Char)
  /-- The characters between two, both included. -/
  | range (low high : Char)
  deriving DecidableEq, Repr

/-- The character is one of an item. -/
def Item.holds (c : Char) : Item → Bool
  | one d => c = d
  | range low high => low ≤ c && c ≤ high

/-- A piece of a pattern. -/
inductive Part where
  /-- Any characters. -/
  | star
  /-- One character, whichever it is. -/
  | any
  /-- The character itself. -/
  | one (c : Char)
  /-- A character of a set, or one that the set lacks. -/
  | set (negated : Bool) (items : List Item)
  deriving DecidableEq, Repr

/-! ## Sets -/

/-- Cut the inside of a set at the hyphens that make ranges. A hyphen makes one when a character
stands before it that is not the end of a range itself. The characters of the piece being read are
given last first. -/
def chunks : (current : Text) → (free : Nat) → Text → List Text
  | current, _, [] => [current.reverse]
  | current, free + 1, c :: rest => chunks (c :: current) free rest
  | current, 0, c :: rest =>
    if c = '-' then current.reverse :: chunks [] 2 rest else chunks (c :: current) 0 rest

/-- A hyphen at the end of a set makes no range but belongs to the set. -/
def joinTrailing : List Text → List Text
  | [] => []
  | [last] => [last]
  | [before, []] => [before ++ ['-']]
  | first :: second :: rest => first :: joinTrailing (second :: rest)

/-- Take out the ranges whose end comes before their beginning. -/
def dropReversed : List Text → List Text
  | [] => []
  | first :: rest =>
    match dropReversed rest with
    | [] => [first]
    | second :: later =>
      match first.getLast?, second.head? with
      | some low, some high =>
        if high < low then (first.dropLast ++ second.drop 1) :: later else first :: second :: later
      | _, _ => first :: second :: later

/-- A character of a set, or the hyphen of a range. -/
inductive Mark where
  /-- The character. -/
  | char (c : Char)
  /-- The hyphen. -/
  | joint

/-- The marks of the pieces, with the hyphen of a range between neighbours. -/
def marks : List Text → List Mark
  | [] => []
  | [chunk] => chunk.map .char
  | chunk :: rest => chunk.map .char ++ .joint :: marks rest

/-- The items that marks stand for. -/
def items : List Mark → List Item
  | [] => []
  | .char low :: .joint :: .char high :: rest => .range low high :: items rest
  | .char c :: rest => .one c :: items rest
  | .joint :: rest => .one '-' :: items rest

/-- The set with some inside. -/
def setOf (inside : Text) : Part :=
  let free := if ['!'].isPrefixOf inside then 2 else 1
  match marks (dropReversed (joinTrailing (chunks [] free inside))) with
  | .char '!' :: rest => .set true (items rest)
  | all => .set false (items all)

/-- The number of characters at the beginning of a set that do not close it: an exclamation mark,
and a closing bracket right at the beginning or behind the mark. -/
def opening (rest : Text) : Nat :=
  let mark := if ['!'].isPrefixOf rest then 1 else 0
  if [']'].isPrefixOf (rest.drop mark) then mark + 1 else mark

/-- The inside of a set and what comes behind its closing bracket. -/
def splitSet (rest : Text) : Option (Text × Text) :=
  let behind := rest.drop (opening rest)
  match behind.dropWhile (· ≠ ']') with
  | [] => none
  | _ :: after => some (rest.take (opening rest) ++ behind.takeWhile (· ≠ ']'), after)

/-! ## Patterns -/

/-- What comes behind a set is shorter. -/
theorem length_splitSet {rest inside after : Text} (h : splitSet rest = some (inside, after)) :
    after.length < rest.length + 1 := by
  simp only [splitSet] at h
  split at h
  · simp at h
  · next c tail htail =>
    obtain ⟨-, rfl⟩ := Prod.mk.inj (Option.some.inj h)
    have hle := (List.dropWhile_sublist (· ≠ ']') (l := rest.drop (opening rest))).length_le
    rw [htail] at hle
    simp at hle
    omega

/-- The pieces of a pattern. -/
def parse : Text → List Part
  | [] => []
  | c :: rest =>
    if c = '*' then .star :: parse rest
    else if c = '?' then .any :: parse rest
    else if c = '[' then
      match _h : splitSet rest with
      | none => .one '[' :: parse rest
      | some (inside, after) => setOf inside :: parse after
    else .one c :: parse rest
  termination_by text => text.length
  decreasing_by
  · simp
  · simp
  · simp
  · exact length_splitSet _h
  · simp

/-- The piece describes the character; a star is none of the pieces that describe one. -/
def Part.holds (c : Char) : Part → Bool
  | star => false
  | any => true
  | one d => c = d
  | set negated items => items.any (Item.holds c) != negated

/-- The pieces describe the name. -/
def matchesAll : List Part → Text → Bool
  | [], text => text.isEmpty
  | .star :: parts, [] => matchesAll parts []
  | .star :: parts, c :: text => matchesAll parts (c :: text) || matchesAll (.star :: parts) text
  | _ :: _, [] => false
  | part :: parts, c :: text => part.holds c && matchesAll parts text
  termination_by parts text => parts.length + text.length

/-! ## Matching piece by piece -/

/-- For each flag: it or one behind it is set. -/
def anyFrom : List Bool → List Bool
  | [] => []
  | flag :: flags =>
    let later := anyFrom flags
    (flag || later.headD false) :: later

/-- For a name and each of its endings, the longest first: the pieces describe it. -/
def endings : List Part → Text → List Bool
  | [], text => text.map (fun _ => false) ++ [true]
  | .star :: parts, text => anyFrom (endings parts text)
  | part :: parts, text =>
    List.zipWith (fun c rest => part.holds c && rest) text ((endings parts text).drop 1) ++ [false]

/-- The empty name has one ending. -/
theorem endings_nil (parts : List Part) : endings parts [] = [matchesAll parts []] := by
  induction parts with
  | nil => simp [endings, matchesAll]
  | cons part parts ih => cases part <;> simp [endings, anyFrom, matchesAll, ih]

/-- The flags for a name are its own and those for the name without its first character. -/
theorem endings_cons (parts : List Part) (c : Char) (text : Text) :
    endings parts (c :: text) = matchesAll parts (c :: text) :: endings parts text := by
  induction parts generalizing c text with
  | nil => simp [endings, matchesAll]
  | cons part parts ih =>
    cases part with
    | star =>
      have later : ∀ t, (anyFrom (endings parts t)).headD false = matchesAll (.star :: parts) t := by
        intro t
        induction t with
        | nil => simp [endings_nil, anyFrom, matchesAll]
        | cons d t iht => rw [ih, anyFrom, iht, matchesAll, List.headD_cons]
      rw [endings, ih, anyFrom, later, matchesAll, endings]
    | _ =>
      have first : endings parts text = matchesAll parts text :: (endings parts text).drop 1 := by
        cases text <;> simp [endings_nil, ih]
      simp only [endings, ih, matchesAll, List.drop_succ_cons, List.drop_zero]
      rw [first]
      simp

/-- The first flag tells whether the pieces describe the whole name. -/
theorem headD_endings (parts : List Part) (text : Text) :
    (endings parts text).headD false = matchesAll parts text := by
  cases text <;> simp [endings_nil, endings_cons]

/-- The pattern describes the name. -/
def describes (pattern name : Text) : Bool := (endings (parse pattern) name).headD false

end PersistedQueries.Glob
