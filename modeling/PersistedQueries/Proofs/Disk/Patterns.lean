import Mathlib.Data.List.Basic
import Mathlib.Data.List.TakeWhile
import PersistedQueries.Disk.Glob

/-!
# What patterns mean

A pattern is read into pieces before any name is looked at, and the inside of a set is cut at its
hyphens, put together again and cut once more on the way. Here a pattern is given its meaning without
any of this: which names it matches is said along the pattern, and which characters a set admits is
said along its inside. What is read from a pattern describes just the names that it matches.

- `itemsOf`: the characters and ranges of the inside of a set, from left to right.
- `Admits`: a set admits a character; `holds_setOf` says that this is what is read from a set.
- `IsInside`: a text that stands in brackets; `splitSet_eq_some` finds it in front of its bracket.
- `Matches`: a pattern matches a name; `describes_iff` says that it then describes the name, and
  only then.
-/

namespace PersistedQueries.Glob

/-! ## The items of a set -/

/-- A range whose end comes before its beginning. -/
def Item.isBackward : Item → Bool
  | one _ => false
  | range low high => high < low

/-- The characters and ranges of a text, from left to right. Two characters make a range with a
hyphen between them; any other hyphen is a character of its own. -/
def itemsOf : Text → List Item
  | low :: '-' :: high :: rest => .range low high :: itemsOf rest
  | c :: rest => .one c :: itemsOf rest
  | [] => []

/-- The characters and ranges of the inside of a set. An exclamation mark at its beginning makes no
range. -/
def itemsIn : Text → List Item
  | '!' :: rest => .one '!' :: itemsOf rest
  | inside => itemsOf inside

/-- A set with some inside admits a character. Backward ranges are left out first. If an exclamation
mark is at the beginning then, the set admits what the rest lacks, and a hyphen that made a range
with the mark is a character like others. -/
def Admits (inside : Text) (c : Char) : Prop :=
  match (itemsIn inside).filter (!·.isBackward) with
  | .one '!' :: items => ∀ item ∈ items, ¬ item.holds c
  | .range '!' high :: items => c ≠ '-' ∧ c ≠ high ∧ ∀ item ∈ items, ¬ item.holds c
  | items => ∃ item ∈ items, item.holds c

/-- Some pieces, with the hyphen of a range between neighbours, are made of some items. -/
inductive Pieces : List Text → List Item → Prop where
  /-- No characters at all. -/
  | nil : Pieces [[]] []
  /-- A character of its own. -/
  | one {chunk : Text} {rest : List Text} {kept : List Item} (c : Char)
      (h : Pieces (chunk :: rest) kept) : Pieces ((c :: chunk) :: rest) (.one c :: kept)
  /-- A character before a hyphen and one behind it. -/
  | range {chunk : Text} {rest : List Text} {kept : List Item} (low high : Char)
      (h : Pieces (chunk :: rest) kept) :
      Pieces ([low] :: (high :: chunk) :: rest) (.range low high :: kept)

variable {c : Char} {inside after pattern name : Text} {pieces : List Text} {kept : List Item}

namespace Pieces

theorem exists_cons (h : Pieces pieces kept) : ∃ chunk rest, pieces = chunk :: rest := by
  cases h with
  | nil => exact ⟨_, _, rfl⟩
  | one c _ => exact ⟨_, _, rfl⟩
  | range low high _ => exact ⟨_, _, rfl⟩

theorem modifyHead (c : Char) (h : Pieces pieces kept) :
    Pieces (pieces.modifyHead (c :: ·)) (.one c :: kept) := by
  obtain ⟨chunk, rest, rfl⟩ := h.exists_cons
  exact .one c h

theorem cons_modifyHead (low high : Char) (h : Pieces pieces kept) :
    Pieces ([low] :: pieces.modifyHead (high :: ·)) (.range low high :: kept) := by
  obtain ⟨chunk, rest, rfl⟩ := h.exists_cons
  exact .range low high h

end Pieces

/-! ## Cutting and joining -/

/-- A character that was read before stands at the beginning of the first piece. -/
theorem chunks_concat (current : Text) (c : Char) (free : Nat) (text : Text) :
    chunks (current ++ [c]) free text = (chunks current free text).modifyHead (c :: ·) := by
  induction text generalizing current free with
  | nil => simp [chunks]
  | cons d rest ih =>
    cases free with
    | succ free => exact ih (d :: current) free
    | zero =>
      unfold chunks
      split
      · simp
      · exact ih (d :: current) 0

theorem joinTrailing_modifyHead (c : Char) (pieces : List Text) :
    joinTrailing (pieces.modifyHead (c :: ·)) = (joinTrailing pieces).modifyHead (c :: ·) := by
  match pieces with
  | [] => rfl
  | [_] => rfl
  | [_, []] => rfl
  | [_, _ :: _] => rfl
  | _ :: [] :: _ :: _ => rfl
  | _ :: (_ :: _) :: _ :: _ => rfl

theorem joinTrailing_cons_modifyHead (low high : Char) (h : pieces ≠ []) :
    joinTrailing ([low] :: pieces.modifyHead (high :: ·)) =
      [low] :: (joinTrailing pieces).modifyHead (high :: ·) := by
  rw [← joinTrailing_modifyHead]
  match pieces with
  | [_] => rfl
  | _ :: _ :: _ => rfl

theorem chunks_ne_nil (current : Text) (free : Nat) (text : Text) :
    chunks current free text ≠ [] := by
  induction text generalizing current free with
  | nil => exact List.cons_ne_nil _ _
  | cons d rest ih =>
    cases free with
    | succ free => exact ih (d :: current) free
    | zero =>
      unfold chunks
      split
      · exact List.cons_ne_nil _ _
      · exact ih (d :: current) 0

/-- Cutting a text at its hyphens gives the pieces that its items are made of. -/
theorem pieces_itemsOf (text : Text) :
    Pieces (joinTrailing (chunks [] 1 text)) (itemsOf text) := by
  induction text using itemsOf.induct with
  | case1 low high rest ih =>
    have hcut : chunks [] 1 (low :: '-' :: high :: rest) =
        [low] :: (chunks [] 1 rest).modifyHead (high :: ·) :=
      congrArg ([low] :: ·) (chunks_concat [] high 1 rest)
    rw [hcut, itemsOf, joinTrailing_cons_modifyHead low high (chunks_ne_nil _ _ _)]
    exact ih.cons_modifyHead low high
  | case2 c rest hrange ih =>
    have hitems : itemsOf (c :: rest) = .one c :: itemsOf rest := by
      rw [itemsOf]
      exact hrange
    rw [hitems]
    cases rest with
    | nil => exact .one c .nil
    | cons d more =>
      by_cases hd : d = '-'
      · -- a hyphen at the end makes no range
        subst hd
        cases more with
        | nil => exact .one c (.one '-' .nil)
        | cons high more => exact absurd rfl (hrange high more)
      · have hcut : chunks [] 1 (c :: d :: more) = (chunks [] 1 (d :: more)).modifyHead (c :: ·) := by
          show chunks [c] 0 (d :: more) = (chunks [d] 0 more).modifyHead (c :: ·)
          rw [chunks, if_neg hd]
          exact chunks_concat [d] c 0 more
        rw [hcut, joinTrailing_modifyHead]
        exact ih.modifyHead c
  | case3 => exact .nil

/-- The same for the inside of a set, where a hyphen behind an exclamation mark makes no range. -/
theorem pieces_itemsIn (inside : Text) :
    Pieces (joinTrailing (chunks [] (if ['!'].isPrefixOf inside then 2 else 1) inside))
      (itemsIn inside) := by
  by_cases hmark : ∃ rest, inside = '!' :: rest
  · obtain ⟨rest, rfl⟩ := hmark
    have hcut : chunks [] 2 ('!' :: rest) = (chunks [] 1 rest).modifyHead ('!' :: ·) :=
      chunks_concat [] '!' 1 rest
    show Pieces (joinTrailing (chunks [] 2 ('!' :: rest))) (.one '!' :: itemsOf rest)
    rw [hcut, joinTrailing_modifyHead]
    exact (pieces_itemsOf rest).modifyHead '!'
  · have hplain : itemsIn inside = itemsOf inside := by
      unfold itemsIn
      split
      · next rest => exact absurd ⟨rest, rfl⟩ hmark
      · rfl
    rw [hplain, if_neg]
    · exact pieces_itemsOf inside
    · rw [List.isPrefixOf_iff_prefix]
      rintro ⟨rest, rfl⟩
      exact hmark ⟨rest, rfl⟩

/-! ## Backward ranges -/

/-- A character at the beginning takes no part in a range behind it. -/
theorem dropReversed_modifyHead (c : Char) (h : Pieces pieces kept) :
    dropReversed (pieces.modifyHead (c :: ·)) = (dropReversed pieces).modifyHead (c :: ·) := by
  obtain ⟨chunk, rest, rfl⟩ := h.exists_cons
  cases chunk with
  | nil =>
    cases h
    rfl
  | cons d chunk =>
    show dropReversed ((c :: d :: chunk) :: rest) = _
    rw [dropReversed, dropReversed]
    cases dropReversed rest with
    | nil => rfl
    | cons second later =>
      dsimp only
      rw [List.getLast?_cons_cons]
      cases hlow : (d :: chunk).getLast? with
      | none => rfl
      | some low =>
        cases hhigh : second.head? with
        | none => rfl
        | some high =>
          dsimp only
          split <;> rfl

/-- Taking out backward ranges leaves the pieces of the other items. -/
theorem Pieces.dropReversed (h : Pieces pieces kept) :
    Pieces (dropReversed pieces) (kept.filter (!·.isBackward)) := by
  induction h with
  | nil => exact .nil
  | one c h ih =>
    have hdrop := dropReversed_modifyHead c h
    rw [List.modifyHead_cons] at hdrop
    rw [hdrop]
    exact ih.modifyHead c
  | @range chunk rest kept low high h ih =>
    have hdrop := dropReversed_modifyHead high h
    rw [List.modifyHead_cons] at hdrop
    obtain ⟨first, later, hfirst⟩ := ih.exists_cons
    rw [hfirst, List.modifyHead_cons] at hdrop
    rw [hfirst] at ih
    rw [Glob.dropReversed, hdrop]
    dsimp only [List.getLast?_singleton, List.head?_cons]
    by_cases hback : high < low
    · rw [if_pos hback, List.filter_cons_of_neg (by simp [Item.isBackward, hback])]
      exact ih
    · rw [if_neg hback, List.filter_cons_of_pos (by simp [Item.isBackward, hback])]
      exact .range low high ih

/-! ## What a set admits -/

theorem marks_cons (c : Char) (chunk : Text) (rest : List Text) :
    marks ((c :: chunk) :: rest) = .char c :: marks (chunk :: rest) := by
  cases rest <;> rfl

namespace Pieces

/-- No hyphen stands at the beginning of the marks. -/
theorem marks_cases (h : Pieces pieces kept) :
    marks pieces = [] ∨ ∃ c later, marks pieces = .char c :: later := by
  cases h with
  | nil => exact .inl rfl
  | one c _ => exact .inr ⟨c, _, marks_cons c _ _⟩
  | range low high _ => exact .inr ⟨low, _, rfl⟩

theorem items_char (c : Char) (h : Pieces pieces kept) :
    items (.char c :: marks pieces) = .one c :: items (marks pieces) := by
  rcases h.marks_cases with hmarks | ⟨d, later, hmarks⟩
  · rw [hmarks]
    rfl
  · rw [hmarks]
    rfl

theorem items_marks (h : Pieces pieces kept) : items (marks pieces) = kept := by
  induction h with
  | nil => rfl
  | one c h ih => rw [marks_cons, items_char c h, ih]
  | @range chunk rest kept low high h ih =>
    show items (.char low :: .joint :: marks ((high :: chunk) :: rest)) = _
    rw [marks_cons, items, ih]

end Pieces

theorem holds_set_false (items : List Item) (c : Char) :
    (Part.set false items).holds c = true ↔ ∃ item ∈ items, item.holds c := by
  show (items.any (Item.holds c) != false) = true ↔ _
  rw [Bool.bne_false, List.any_eq_true]

theorem holds_set_true (items : List Item) (c : Char) :
    (Part.set true items).holds c = true ↔ ∀ item ∈ items, ¬ item.holds c := by
  show (items.any (Item.holds c) != true) = true ↔ _
  rw [Bool.bne_true, Bool.not_eq_true', List.any_eq_false]

/-- What is read from a set holds for the characters that the set admits. -/
theorem holds_setOf (inside : Text) (c : Char) :
    (setOf inside).holds c = true ↔ Admits inside c := by
  have hpieces := (pieces_itemsIn inside).dropReversed
  unfold setOf Admits
  dsimp only
  generalize (itemsIn inside).filter (!·.isBackward) = kept at hpieces
  generalize dropReversed (joinTrailing (chunks []
    (if ['!'].isPrefixOf inside then 2 else 1) inside)) = pieces at hpieces
  have hitems := hpieces.items_marks
  cases hpieces with
  | nil => exact holds_set_false [] c
  | @one chunk rest kept d h =>
    rw [marks_cons] at hitems ⊢
    split
    · next items hmark =>
      obtain ⟨hd, rfl⟩ := List.cons.inj hmark
      cases hd
      rw [holds_set_true, h.items_marks]
      exact Iff.rfl
    · next hmark =>
      rw [hitems, holds_set_false]
      split
      · next heq =>
        cases heq
        exact absurd rfl (hmark _)
      · next heq => cases heq
      · rfl
  | @range chunk rest kept low high h =>
    have hmarks : marks ([low] :: (high :: chunk) :: rest) =
        .char low :: .joint :: .char high :: marks (chunk :: rest) :=
      congrArg (Mark.char low :: Mark.joint :: ·) (marks_cons high chunk rest)
    rw [hmarks] at hitems ⊢
    split
    · next items hmark =>
      obtain ⟨hlow, rfl⟩ := List.cons.inj hmark
      cases hlow
      rw [holds_set_true, Glob.items, h.items_char, h.items_marks]
      simp [Item.holds]
    · next hmark =>
      rw [hitems, holds_set_false]
      split
      · next heq => cases heq
      · next heq =>
        cases heq
        exact absurd rfl (hmark _)
      · rfl

/-! ## Brackets -/

/-- A text that stands between the brackets of a set. A bracket at its beginning closes nothing, nor
does one right behind an exclamation mark. -/
inductive IsInside : Text → Prop where
  /-- A set of what it lists. -/
  | listed {first : Char} {rest : Text} (hfirst : first ≠ '!') (hrest : ']' ∉ rest) :
      IsInside (first :: rest)
  /-- A set that has been turned around. -/
  | turned {first : Char} {rest : Text} (hrest : ']' ∉ rest) : IsInside ('!' :: first :: rest)

/-- The text up to the first closing bracket, and what comes behind the bracket. -/
def closing (text : Text) : Option (Text × Text) :=
  match text.dropWhile (· ≠ ']') with
  | [] => none
  | _ :: after => some (text.takeWhile (· ≠ ']'), after)

theorem closing_eq_some {text : Text} :
    closing text = some (inside, after) ↔ text = inside ++ ']' :: after ∧ ']' ∉ inside := by
  unfold closing
  constructor
  · intro h
    split at h
    · cases h
    · next c rest hdrop =>
      cases h
      have hfirst := List.head?_dropWhile_not (· ≠ ']') text
      rw [hdrop] at hfirst
      have hc : c = ']' := by simpa using hfirst
      refine ⟨?_, fun hmem => by simpa using List.mem_takeWhile_imp hmem⟩
      conv_lhs => rw [← List.takeWhile_append_dropWhile (p := (· ≠ ']')) (l := text), hdrop, hc]
  · rintro ⟨rfl, hnot⟩
    have hall : ∀ d ∈ inside, decide (d ≠ ']') = true := by
      intro d hd
      exact decide_eq_true fun heq => hnot (heq ▸ hd)
    rw [List.dropWhile_append_of_pos hall, List.takeWhile_append_of_pos hall]
    simp

theorem closing_cons (hc : c ≠ ']') (rest : Text) :
    closing (c :: rest) = (closing rest).map fun (inside, after) => (c :: inside, after) := by
  unfold closing
  rw [List.dropWhile_cons_of_pos (by simpa using hc), List.takeWhile_cons_of_pos (by simpa using hc)]
  cases rest.dropWhile (· ≠ ']') <;> rfl

theorem splitSet_eq (rest : Text) : splitSet rest = (closing (rest.drop (opening rest))).map
    fun (inside, after) => (rest.take (opening rest) ++ inside, after) := by
  unfold splitSet closing
  dsimp only
  cases (rest.drop (opening rest)).dropWhile (· ≠ ']') <;> rfl

/-- The first character of a set does not close it. -/
theorem splitSet_cons (hc : c ≠ '!') (rest : Text) :
    splitSet (c :: rest) = (closing rest).map fun (inside, after) => (c :: inside, after) := by
  rw [splitSet_eq]
  by_cases hclose : c = ']'
  · have hopening : opening (c :: rest) = 1 := by simp [opening, hclose]
    rw [hopening]
    rfl
  · have hopening : opening (c :: rest) = 0 := by simp [opening, hc.symm, Ne.symm hclose]
    rw [hopening]
    show (closing (c :: rest)).map _ = _
    rw [closing_cons hclose, Option.map_map]
    rfl

/-- Nor does the first character behind an exclamation mark. -/
theorem splitSet_mark (c : Char) (rest : Text) :
    splitSet ('!' :: c :: rest) =
      (closing rest).map fun (inside, after) => ('!' :: c :: inside, after) := by
  rw [splitSet_eq]
  by_cases hclose : c = ']'
  · have hopening : opening ('!' :: c :: rest) = 2 := by simp [opening, hclose]
    rw [hopening]
    rfl
  · have hopening : opening ('!' :: c :: rest) = 1 := by simp [opening, Ne.symm hclose]
    rw [hopening]
    show (closing (c :: rest)).map _ = _
    rw [closing_cons hclose, Option.map_map]
    rfl

/-- The inside of a set is a text that can stand in brackets, in front of a closing one. -/
theorem splitSet_eq_some {rest : Text} :
    splitSet rest = some (inside, after) ↔ IsInside inside ∧ rest = inside ++ ']' :: after := by
  constructor
  · intro h
    cases rest with
    | nil => cases h
    | cons first rest =>
      by_cases hmark : first = '!'
      · subst hmark
        cases rest with
        | nil => cases h
        | cons c rest =>
          rw [splitSet_mark, Option.map_eq_some_iff] at h
          obtain ⟨⟨more, behind⟩, hclosing, heq⟩ := h
          cases heq
          obtain ⟨rfl, hmore⟩ := closing_eq_some.1 hclosing
          exact ⟨.turned hmore, rfl⟩
      · rw [splitSet_cons hmark, Option.map_eq_some_iff] at h
        obtain ⟨⟨more, behind⟩, hclosing, heq⟩ := h
        cases heq
        obtain ⟨rfl, hmore⟩ := closing_eq_some.1 hclosing
        exact ⟨.listed hmark hmore, rfl⟩
  · rintro ⟨hinside, rfl⟩
    cases hinside with
    | @listed first rest hfirst hrest =>
      show splitSet (first :: (rest ++ ']' :: after)) = _
      rw [splitSet_cons hfirst, closing_eq_some.2 ⟨rfl, hrest⟩]
      rfl
    | @turned first rest hrest =>
      show splitSet ('!' :: first :: (rest ++ ']' :: after)) = _
      rw [splitSet_mark, closing_eq_some.2 ⟨rfl, hrest⟩]
      rfl

/-! ## Matching -/

/-- A pattern matches a name. -/
inductive Matches : Text → Text → Prop where
  /-- Nothing is left of either. -/
  | nil : Matches [] []
  /-- A star stands for no more characters. -/
  | skip {pattern name : Text} (h : Matches pattern name) : Matches ('*' :: pattern) name
  /-- A star stands for one more character. -/
  | take {pattern name : Text} {c : Char} (h : Matches ('*' :: pattern) name) :
      Matches ('*' :: pattern) (c :: name)
  /-- A question mark stands for one character. -/
  | any {pattern name : Text} {c : Char} (h : Matches pattern name) :
      Matches ('?' :: pattern) (c :: name)
  /-- A set in brackets stands for a character that it admits. -/
  | set {pattern name inside behind : Text} {c : Char} (hinside : IsInside inside)
      (hpattern : pattern = inside ++ ']' :: behind) (hc : Admits inside c)
      (h : Matches behind name) : Matches ('[' :: pattern) (c :: name)
  /-- A bracket that is never closed stands for itself. -/
  | bracket {pattern name : Text}
      (hopen : ∀ inside behind, IsInside inside → pattern ≠ inside ++ ']' :: behind)
      (h : Matches pattern name) : Matches ('[' :: pattern) ('[' :: name)
  /-- Any other character stands for itself. -/
  | char {pattern name : Text} {c : Char} (hstar : c ≠ '*') (hany : c ≠ '?') (hset : c ≠ '[')
      (h : Matches pattern name) : Matches (c :: pattern) (c :: name)

/-- A star is passed by, or stands for one more character. -/
theorem matchesAll_star {parts : List Part}
    (h : ∀ name, matchesAll parts name = true ↔ Matches pattern name) (name : Text) :
    matchesAll (.star :: parts) name = true ↔ Matches ('*' :: pattern) name := by
  induction name with
  | nil =>
    rw [matchesAll, h]
    constructor
    · exact .skip
    · intro hmatch
      cases hmatch with
      | skip hrest => exact hrest
  | cons c name ih =>
    rw [matchesAll, Bool.or_eq_true, h, ih]
    constructor
    · rintro (hrest | hrest)
      · exact .skip hrest
      · exact .take hrest
    · intro hmatch
      cases hmatch with
      | skip hrest => exact .inl hrest
      | take hrest => exact .inr hrest
      | char hstar => exact absurd rfl hstar

/-- Any other piece describes the first character, and the pieces behind it describe the rest. -/
theorem matchesAll_part {part : Part} (hpart : part ≠ .star) (parts : List Part) (name : Text) :
    matchesAll (part :: parts) name = true ↔
      ∃ c rest, name = c :: rest ∧ part.holds c = true ∧ matchesAll parts rest = true := by
  cases name with
  | nil =>
    have hnone : matchesAll (part :: parts) [] = false := by
      cases part with
      | star => exact absurd rfl hpart
      | any | one | set =>
        rw [matchesAll]
        intro h
        cases h
    simp [hnone]
  | cons c name =>
    have hsome : matchesAll (part :: parts) (c :: name) =
        (part.holds c && matchesAll parts name) := by
      cases part with
      | star => exact absurd rfl hpart
      | any | one | set =>
        rw [matchesAll]
        intro h
        cases h
    simp [hsome]

/-! ### Reading pieces -/

theorem parse_star (rest : Text) : parse ('*' :: rest) = .star :: parse rest := by
  rw [parse, if_pos rfl]

theorem parse_any (rest : Text) : parse ('?' :: rest) = .any :: parse rest := by
  rw [parse, if_neg (by decide), if_pos rfl]

theorem parse_set (h : splitSet pattern = some (inside, after)) :
    parse ('[' :: pattern) = setOf inside :: parse after := by
  rw [parse, if_neg (by decide), if_neg (by decide), if_pos rfl]
  split
  · next hnone => cases h.symm.trans hnone
  · next hsome =>
    cases h.symm.trans hsome
    rfl

theorem parse_bracket (h : splitSet pattern = none) :
    parse ('[' :: pattern) = .one '[' :: parse pattern := by
  rw [parse, if_neg (by decide), if_neg (by decide), if_pos rfl]
  split
  · rfl
  · next hsome => cases h.symm.trans hsome

theorem parse_char (hstar : c ≠ '*') (hany : c ≠ '?') (hset : c ≠ '[') (rest : Text) :
    parse (c :: rest) = .one c :: parse rest := by
  rw [parse, if_neg hstar, if_neg hany, if_neg hset]

theorem setOf_ne_star (inside : Text) : setOf inside ≠ .star := by
  unfold setOf
  dsimp only
  split
  · exact nofun
  · exact nofun

/-- What is read from a pattern describes the names that the pattern matches. -/
theorem matchesAll_parse (pattern name : Text) :
    matchesAll (parse pattern) name = true ↔ Matches pattern name := by
  induction pattern using parse.induct generalizing name with
  | case1 =>
    rw [parse, matchesAll, List.isEmpty_iff]
    constructor
    · rintro rfl
      exact .nil
    · intro hmatch
      cases hmatch
      rfl
  | case2 rest ih => exact parse_star rest ▸ matchesAll_star ih name
  | case3 rest hstar ih =>
    rw [parse_any, matchesAll_part Part.noConfusion]
    constructor
    · rintro ⟨c, behind, rfl, -, hrest⟩
      exact .any ((ih behind).1 hrest)
    · intro hmatch
      cases hmatch with
      | any hrest => exact ⟨_, _, rfl, rfl, (ih _).2 hrest⟩
      | char _ hany => exact absurd rfl hany
  | case4 rest hopen hstar hany ih =>
    have hclosed : ∀ inside behind, IsInside inside → rest ≠ inside ++ ']' :: behind := by
      intro inside behind hinside heq
      cases hopen.symm.trans (splitSet_eq_some.2 ⟨hinside, heq⟩)
    rw [parse_bracket hopen, matchesAll_part Part.noConfusion]
    constructor
    · rintro ⟨c, behind, rfl, hc, hrest⟩
      obtain rfl := of_decide_eq_true hc
      exact .bracket hclosed ((ih behind).1 hrest)
    · intro hmatch
      cases hmatch with
      | set hinside hpattern _ _ => exact absurd hpattern (hclosed _ _ hinside)
      | bracket _ hrest => exact ⟨_, _, rfl, rfl, (ih _).2 hrest⟩
      | char _ _ hset => exact absurd rfl hset
  | case5 rest inside after hsplit hstar hany ih =>
    obtain ⟨hinside, hrest⟩ := splitSet_eq_some.1 hsplit
    rw [parse_set hsplit, matchesAll_part (setOf_ne_star inside)]
    constructor
    · rintro ⟨c, behind, rfl, hc, hbehind⟩
      exact .set hinside hrest ((holds_setOf inside c).1 hc) ((ih behind).1 hbehind)
    · intro hmatch
      cases hmatch with
      | set hother hpattern hc hbehind =>
        -- a set is closed at one place only
        cases hsplit.symm.trans (splitSet_eq_some.2 ⟨hother, hpattern⟩)
        exact ⟨_, _, rfl, (holds_setOf inside _).2 hc, (ih _).2 hbehind⟩
      | bracket hopen _ => exact absurd hrest (hopen inside after hinside)
      | char _ _ hset => exact absurd rfl hset
  | case6 c rest hstar hany hset ih =>
    rw [parse_char hstar hany hset, matchesAll_part Part.noConfusion]
    constructor
    · rintro ⟨d, behind, rfl, hd, hrest⟩
      obtain rfl := of_decide_eq_true hd
      exact .char hstar hany hset ((ih behind).1 hrest)
    · intro hmatch
      cases hmatch with
      | skip | take => exact absurd rfl hstar
      | any => exact absurd rfl hany
      | set | bracket => exact absurd rfl hset
      | char _ _ _ hrest => exact ⟨_, _, rfl, decide_eq_true rfl, (ih _).2 hrest⟩

/-- A pattern describes the names that it matches. -/
theorem describes_iff : describes pattern name = true ↔ Matches pattern name := by
  unfold describes
  rw [headD_endings, matchesAll_parse]

end PersistedQueries.Glob
