import Mathlib.Data.Bool.AllAny
import PersistedQueries.Proofs.CallSite.CallFree
import PersistedQueries.Proofs.Syntax.Numbers

/-!
# The grammar of calls

A call is read in one pass, in which every run of characters is taken as long as it goes. What can be
read that way has a plain grammar: a name, an equals sign and the tag up to the first backtick, and then
a document up to the next one, a list of dependencies or none, and the closing parenthesis. So instead
of following the pass one can take a call apart, change a part of it and put it together again.

- `Opening`, `Listing`, `Ending`: the parts of a call as they are written. The types hold what a part may
  be made of, so any opening with any ending is a call.
- `CallShape.match?_append`: a call is read as what it says, whatever follows.
- `CallShape.match?_eq_some_iff`: and nothing else is read.
-/

namespace PersistedQueries.CallSite

open GraphQL (Ends ends_cons takeWhile_append_of_ends drop_length_takeWhile)
open Text (isBlank)

/-! ## Runs of characters -/

theorem dropWhile_append_of_ends {p : Char → Bool} {run rest : Text} (hrun : ∀ c ∈ run, p c)
    (hrest : Ends p rest) : (run ++ rest).dropWhile p = rest := by
  rw [← drop_length_takeWhile, takeWhile_append_of_ends hrun hrest, List.drop_left]

/-- A run has no other characters. -/
theorem not_mem_of_forall {p : Char → Bool} {c : Char} (hc : p c = false) {run : Text}
    (hrun : ∀ d ∈ run, p d = true) : c ∉ run := fun hmem => by
  cases hc.symm.trans (hrun c hmem)

/-- What is passed over is a run of the characters that are passed over. -/
theorem exists_run (p : Char → Bool) (text : Text) :
    ∃ run, text = run ++ text.dropWhile p ∧ ∀ c ∈ run, p c = true :=
  ⟨text.takeWhile p, List.takeWhile_append_dropWhile.symm, fun _ => List.mem_takeWhile_imp⟩

/-- What is not passed over is left. -/
theorem mem_dropWhile_iff {p : Char → Bool} {c : Char} (hc : p c = false) {text : Text} :
    c ∈ text.dropWhile p ↔ c ∈ text := by
  obtain ⟨run, htext, hrun⟩ := exists_run p text
  conv => rhs; rw [htext, List.mem_append]
  exact (or_iff_right (not_mem_of_forall hc hrun)).symm

theorem ends_append_cons {p q : Char → Bool} {run rest : Text} {c : Char} (hrun : ∀ d ∈ run, q d)
    (hapart : ∀ d, q d = true → p d = false) (hc : p c = false) : Ends p (run ++ c :: rest) := by
  intro d hd
  cases run with
  | nil =>
    cases hd
    exact hc
  | cons e run =>
    cases hd
    exact hapart d (hrun d List.mem_cons_self)

theorem ends_append_of_ne_nil {p : Char → Bool} {run : Text} (hne : run ≠ [])
    (hrun : ∀ c ∈ run, p c = false) (rest : Text) : Ends p (run ++ rest) := by
  obtain ⟨c, run, rfl⟩ := List.exists_cons_of_ne_nil hne
  exact ends_cons.2 (hrun c List.mem_cons_self)

/-- A text goes on up to a character that stands in it for the first time. -/
theorem takeWhile_ne_append {c : Char} {run : Text} (h : c ∉ run) (rest : Text) :
    (run ++ c :: rest).takeWhile (fun d => decide (d ≠ c)) = run ∧
      (run ++ c :: rest).dropWhile (fun d => decide (d ≠ c)) = c :: rest := by
  have hrun : ∀ d ∈ run, decide (d ≠ c) = true := fun d hd =>
    decide_eq_true fun heq => h (heq ▸ hd)
  have hend : Ends (fun d => decide (d ≠ c)) (c :: rest) := ends_cons.2 (by simp)
  exact ⟨takeWhile_append_of_ends hrun hend, dropWhile_append_of_ends hrun hend⟩

/-- A text is cut in one way only at a character that stands in it for the first time. -/
theorem append_cons_inj {c : Char} {run run' rest rest' : Text} (hrun : c ∉ run) (hrun' : c ∉ run')
    (h : run ++ c :: rest = run' ++ c :: rest') : run = run' ∧ rest = rest' := by
  obtain ⟨htake, hdrop⟩ := takeWhile_ne_append hrun rest
  obtain ⟨htake', hdrop'⟩ := takeWhile_ne_append hrun' rest'
  rw [h] at htake hdrop
  exact ⟨htake.symm.trans htake', (List.cons.inj (hdrop.symm.trans hdrop')).2⟩

theorem dropWhile_append_mark {p : Char → Bool} {mark : Char} (hp : p mark = false) (front tail : Text) :
    (front ++ mark :: tail).dropWhile p = front.dropWhile p ++ mark :: tail := by
  rw [List.dropWhile_append]
  split
  · next h =>
    rw [List.dropWhile_cons_of_neg (by simp [hp]), List.isEmpty_iff.1 h]
    rfl
  · rfl

theorem not_mem_takeWhile_ne (c : Char) (text : Text) :
    c ∉ text.takeWhile (fun d => decide (d ≠ c)) := fun h => by
  have hself := List.mem_takeWhile_imp h
  simp at hself

theorem isNameChar_of_isGap {c : Char} (h : isGap c = true) : isNameChar c = false := by
  simp only [isGap, Bool.or_eq_true, decide_eq_true_eq] at h
  rcases h with rfl | rfl <;> decide

theorem toNat_of_isNameChar {c : Char} (h : isNameChar c = true) :
    c.toNat = '$'.toNat ∨ '0'.toNat ≤ c.toNat ∧ c.toNat ≤ 'z'.toNat := by
  simp only [isNameChar, Bool.or_eq_true, Bool.and_eq_true, decide_eq_true_eq] at h
  have hrange (low high : Char) (h : low ≤ c ∧ c ≤ high) (hlow : '0'.toNat ≤ low.toNat)
      (hhigh : high.toNat ≤ 'z'.toNat) : '0'.toNat ≤ c.toNat ∧ c.toNat ≤ 'z'.toNat :=
    ⟨hlow.trans h.1, Nat.le_trans h.2 hhigh⟩
  rcases h with (((h | h) | h) | rfl) | rfl
  · exact .inr (hrange _ _ h (by decide) (by decide))
  · exact .inr (hrange _ _ h (by decide) (by decide))
  · exact .inr (hrange _ _ h (by decide) (by decide))
  · decide
  · decide

/-- White space is no part of a name. -/
theorem isBlank_of_isNameChar {c : Char} (h : isNameChar c = true) : isBlank c = false := by
  have hnat := toNat_of_isNameChar h
  simp only [Char.reduceToNat] at hnat
  simp only [isBlank, Bool.or_eq_false_iff, Bool.and_eq_false_iff, decide_eq_false_iff_not,
    beq_eq_false_iff_ne]
  omega

/-! ## The parts of a call -/

/-- A name: some letters, digits, underscores and dollar signs. -/
structure Identifier where
  text : Text
  ne_nil : text ≠ []
  isNameChar_of_mem : ∀ c ∈ text, isNameChar c = true

/-- Blanks and tabs. -/
abbrev Gap := { text : Text // ∀ c ∈ text, isGap c = true }

/-- White space. -/
abbrev Blanks := { text : Text // ∀ c ∈ text, isBlank c = true }

/-- White space and commas. -/
abbrev Trailers := { text : Text // ∀ c ∈ text, isTrailer c = true }

/-- A call up to the backtick that opens its template. -/
structure Opening where
  /-- The name that the call is assigned to. -/
  name : Identifier
  /-- Blanks and tabs in front of the equals sign. -/
  gap : Gap
  /-- Blanks and tabs behind the equals sign. -/
  gap' : Gap
  /-- White space in front of the template. -/
  lead : Blanks

/-- Brackets behind a template, and a comma in front of them. -/
structure Listing where
  /-- White space in front of the comma. -/
  behind : Blanks
  /-- White space in front of the opening bracket. -/
  lead : Blanks
  /-- What stands between the brackets. -/
  interior : Text
  not_mem : ']' ∉ interior

/-- A call from behind the backtick that opens its template. -/
structure Ending where
  /-- What stands between the backticks. -/
  source : Text
  ne_nil : source ≠ []
  not_mem : '\x60' ∉ source
  /-- The list of dependencies, if there is one. -/
  list : Option Listing
  /-- White space and commas in front of the closing parenthesis. -/
  closing : Trailers

/-- The text of an opening up to its backtick. -/
def Opening.code (opening : Opening) : Text :=
  opening.name.text ++ (opening.gap.1 ++ ('=' :: (opening.gap'.1 ++ (tagCall ++ opening.lead.1))))

/-- The text of an opening, its backtick included. -/
def Opening.text (opening : Opening) : Text := opening.code ++ ['\x60']

/-- The text of a list up to its opening bracket. -/
def Listing.opening (list : Listing) : Text := list.behind.1 ++ (',' :: (list.lead.1 ++ ['[']))

/-- The text of a list, from behind the template on. -/
def Listing.text (list : Listing) : Text := list.opening ++ (list.interior ++ [']'])

/-- The text of an ending from behind its document and the backtick on. -/
def Ending.back (ending : Ending) : Text :=
  ending.list.elim [] Listing.text ++ (ending.closing.1 ++ [')'])

/-- The text of an ending. -/
def Ending.text (ending : Ending) : Text := ending.source ++ '\x60' :: ending.back

/-- What a call says. -/
def shapeOf (opening : Opening) (ending : Ending) : CallShape where
  name := opening.name.text
  source := ending.source
  dependencies := ending.list.map Listing.interior
  length := (opening.text ++ ending.text).length

theorem isPlain_of_isBlank {c : Char} (h : isBlank c = true) : IsPlain c := by
  refine ⟨?_, ?_, ?_, ?_⟩ <;> rintro rfl <;> cases h

/-- No comment and no literal begins in an opening in front of its backtick. -/
theorem Opening.isPlain_of_mem_code (opening : Opening) : ∀ c ∈ opening.code, IsPlain c := by
  have htag : ∀ c ∈ tagCall, IsPlain c := List.all_iff_forall_prop.1 (by decide)
  simp only [code, List.mem_append, List.mem_cons]
  rintro c (hc | hc | rfl | hc | hc | hc)
  · exact isPlain_of_isNameChar (opening.name.isNameChar_of_mem c hc)
  · exact isPlain_of_isGap (opening.gap.2 c hc)
  · decide
  · exact isPlain_of_isGap (opening.gap'.2 c hc)
  · exact htag c hc
  · exact isPlain_of_isBlank (opening.lead.2 c hc)

/-! ## Reading what is written -/

theorem afterWord?_append (word rest : Text) : afterWord? word (word ++ rest) = some rest :=
  afterWord?_eq_some_iff.2 rfl

/-- White space and commas in front of a closing parenthesis, without the white space at their front. -/
theorem exists_dropWhile_isBlank_trailers {trailers : Text} (h : ∀ c ∈ trailers, isTrailer c = true)
    (rest : Text) : ∃ left : Text, (trailers ++ ')' :: rest).dropWhile isBlank = left ++ ')' :: rest ∧
      ∀ c ∈ left, isTrailer c = true := by
  induction trailers with
  | nil => exact ⟨[], rfl, nofun⟩
  | cons c trailers ih =>
    rw [List.cons_append, List.dropWhile_cons]
    split
    · exact ih fun d hd => h d (List.mem_cons_of_mem c hd)
    · exact ⟨c :: trailers, rfl, h⟩

/-- White space and commas in front of a closing parenthesis are no list of dependencies. -/
theorem dependencyList?_trailers {trailers : Text} (h : ∀ c ∈ trailers, isTrailer c = true)
    (rest : Text) : dependencyList? (trailers ++ ')' :: rest) = none := by
  refine Option.eq_none_iff_forall_ne_some.2 fun found hfound => ?_
  simp only [dependencyList?, Option.bind_eq_bind, Option.bind_eq_some_iff,
    afterWord?_eq_some_iff] at hfound
  obtain ⟨behind, hbehind, opened, hopened, -⟩ := hfound
  cases trailers with
  | nil => cases hbehind
  | cons c trailers =>
    obtain ⟨-, rfl⟩ := List.cons.inj hbehind
    -- behind the comma comes a comma or the parenthesis, never a bracket
    obtain ⟨left, hleft, htrailers⟩ :=
      exists_dropWhile_isBlank_trailers (fun d hd => h d (List.mem_cons_of_mem c hd)) rest
    have hhead := hleft.symm.trans hopened
    cases left with
    | nil => cases hhead
    | cons d left =>
      obtain ⟨rfl, -⟩ := List.cons.inj hhead
      exact absurd (htrailers _ List.mem_cons_self) (by decide)

/-- A written list of dependencies is read to its closing bracket. -/
theorem Listing.dependencyList?_text (list : Listing) (rest : Text) :
    dependencyList? ((list.text ++ rest).dropWhile isBlank) = some (list.interior, rest) := by
  have hcomma : (list.text ++ rest).dropWhile isBlank =
      [','] ++ (list.lead.1 ++ ('[' :: (list.interior ++ ']' :: rest))) := by
    have htext : list.text ++ rest = list.behind.1 ++
        (',' :: (list.lead.1 ++ ('[' :: (list.interior ++ ']' :: rest)))) := by simp [text, opening]
    rw [htext]
    exact dropWhile_append_of_ends list.behind.2 (ends_cons.2 (by decide))
  have hbracket : (list.lead.1 ++ ('[' :: (list.interior ++ ']' :: rest))).dropWhile isBlank =
      ['['] ++ (list.interior ++ ']' :: rest) :=
    dropWhile_append_of_ends list.lead.2 (ends_cons.2 (by decide))
  obtain ⟨hinterior, hclosed⟩ := takeWhile_ne_append list.not_mem rest
  rw [dependencyList?, hcomma, afterWord?_append, Option.bind_eq_bind, Option.bind_some, hbracket,
    afterWord?_append, Option.bind_some, hclosed, hinterior]
  rfl

/-- What is read of the end of a call: its list of dependencies, if it has one, and then white space and
commas up to the closing parenthesis. -/
theorem Ending.exists_dependencyList?_back (ending : Ending) (rest : Text) :
    ∃ behind, behind.dropWhile isTrailer = [')'] ++ rest ∧
      dependencyList? ((ending.back ++ rest).dropWhile isBlank) =
        ending.list.map (fun list => (list.interior, behind)) ∧
      (ending.list = none → (ending.back ++ rest).dropWhile isBlank = behind) := by
  have hclose {trailers : Text} (h : ∀ c ∈ trailers, isTrailer c = true) :
      (trailers ++ ')' :: rest).dropWhile isTrailer = [')'] ++ rest :=
    dropWhile_append_of_ends h (ends_cons.2 (by decide))
  cases hlist : ending.list with
  | none =>
    have hback : ending.back ++ rest = ending.closing.1 ++ ')' :: rest := by simp [back, hlist]
    obtain ⟨left, hleft, htrailers⟩ := exists_dropWhile_isBlank_trailers ending.closing.2 rest
    rw [hback, hleft]
    exact ⟨_, hclose htrailers, dependencyList?_trailers htrailers rest, fun _ => rfl⟩
  | some list =>
    have hback : ending.back ++ rest = list.text ++ (ending.closing.1 ++ ')' :: rest) := by
      simp [back, hlist]
    rw [hback]
    exact ⟨_, hclose ending.closing.2, list.dependencyList?_text _, nofun⟩

/-- A written call is read as what it says, whatever follows. -/
theorem CallShape.match?_append (opening : Opening) (ending : Ending) (rest : Text) :
    CallShape.match? (opening.text ++ (ending.text ++ rest)) = some (shapeOf opening ending) := by
  -- the text is taken apart behind the equals sign, the tag and the first backtick
  obtain ⟨literal, hliteral⟩ : ∃ literal, literal =
    ending.source ++ ('\x60' :: (ending.back ++ rest)) := ⟨_, rfl⟩
  obtain ⟨opened, hopened⟩ : ∃ opened, opened = opening.lead.1 ++ (['\x60'] ++ literal) := ⟨_, rfl⟩
  obtain ⟨assigned, hassigned⟩ : ∃ assigned, assigned = opening.gap'.1 ++ (tagCall ++ opened) :=
    ⟨_, rfl⟩
  have htext : opening.text ++ (ending.text ++ rest) =
      opening.name.text ++ (opening.gap.1 ++ (['='] ++ assigned)) := by
    simp [Opening.text, Opening.code, Ending.text, hliteral, hopened, hassigned]
  have hname : (opening.text ++ (ending.text ++ rest)).takeWhile isNameChar = opening.name.text := by
    rw [htext]
    exact takeWhile_append_of_ends opening.name.isNameChar_of_mem
      (ends_append_cons opening.gap.2 (fun _ => isNameChar_of_isGap) (by decide))
  have hgap : ((opening.text ++ (ending.text ++ rest)).drop opening.name.text.length).dropWhile
      isGap = ['='] ++ assigned := by
    rw [htext, List.drop_left]
    exact dropWhile_append_of_ends opening.gap.2 (ends_cons.2 (by decide))
  have hgap' : assigned.dropWhile isGap = tagCall ++ opened := by
    rw [hassigned]
    exact dropWhile_append_of_ends opening.gap'.2 (ends_cons.2 (by decide))
  have hlead : opened.dropWhile isBlank = ['\x60'] ++ literal := by
    rw [hopened]
    exact dropWhile_append_of_ends opening.lead.2 (ends_cons.2 (by decide))
  obtain ⟨hsource, hclosed⟩ := takeWhile_ne_append ending.not_mem (ending.back ++ rest)
  rw [← hliteral] at hsource hclosed
  obtain ⟨behind, hbehind, hread, hnone⟩ := ending.exists_dependencyList?_back rest
  have hopens : afterWord? ['\x60'] ('\x60' :: (ending.back ++ rest)) = some (ending.back ++ rest) :=
    afterWord?_append ['\x60'] _
  have hlength : (opening.text ++ (ending.text ++ rest)).length - rest.length =
      (opening.text ++ ending.text).length := by
    rw [← List.append_assoc, List.length_append, Nat.add_sub_cancel]
  unfold CallShape.match?
  dsimp only
  rw [hname, if_neg (by simpa using opening.name.ne_nil), hgap, afterWord?_append,
    Option.bind_eq_bind, Option.bind_some, hgap', afterWord?_append, Option.bind_some, hlead,
    afterWord?_append, Option.bind_some, hsource, hclosed, if_neg (by simpa using ending.ne_nil),
    hopens, Option.bind_some, hread]
  cases hlist : ending.list with
  | none =>
    dsimp only [Option.map_none]
    rw [hnone hlist, hbehind, afterWord?_append, Option.bind_some, hlength, shapeOf, hlist]
    rfl
  | some list =>
    dsimp only [Option.map_some]
    rw [hbehind, afterWord?_append, Option.bind_some, hlength, shapeOf, hlist]
    rfl

/-! ## Nothing else is read -/

/-- What is read as a list of dependencies is written as one. -/
theorem exists_listing {text interior rest : Text} (behind : Blanks)
    (h : dependencyList? text = some (interior, rest)) :
    ∃ list : Listing, list.behind = behind ∧ list.interior = interior ∧
      behind.1 ++ text = list.text ++ rest := by
  simp only [dependencyList?, Option.bind_eq_bind, Option.bind_eq_some_iff, Option.pure_def,
    Option.some.injEq, Prod.mk.injEq, afterWord?_eq_some_iff] at h
  obtain ⟨list, rfl, opened, hopened, closed, hclosed, rfl, rfl⟩ := h
  obtain ⟨lead, hlead, hblank⟩ := exists_run isBlank list
  refine ⟨⟨behind, ⟨lead, hblank⟩, _, not_mem_takeWhile_ne ']' opened⟩, rfl, rfl, ?_⟩
  have hsplit := List.takeWhile_append_dropWhile (p := fun c => decide (c ≠ ']')) (l := opened)
  rw [hclosed] at hsplit
  rw [hlead, hopened]
  conv => lhs; rw [← hsplit]
  simp [Listing.text, Listing.opening]

/-- What is read as a call is written as one. -/
theorem CallShape.exists_parts {text : Text} {shape : CallShape}
    (h : CallShape.match? text = some shape) :
    ∃ (opening : Opening) (ending : Ending) (rest : Text),
      text = opening.text ++ (ending.text ++ rest) := by
  obtain ⟨left⟩ := exists_left h
  obtain ⟨gap, gap', hgap, hgap', htext⟩ := left.exists_gaps
  obtain ⟨lead, hlead, hlead'⟩ := exists_run isBlank left.opened
  obtain ⟨behind, hbehind, hisBlank⟩ := exists_run isBlank left.closed
  obtain ⟨trailers, htrailers, hisTrailer⟩ := exists_run isTrailer left.listed
  rw [left.literal_eq, left.literal_split] at hlead
  rw [left.rest_eq] at htrailers
  -- whether there is a list decides to which part the white space behind the template belongs
  obtain ⟨list, closing, hback⟩ : ∃ (list : Option Listing) (closing : Trailers),
      left.closed = list.elim [] Listing.text ++ (closing.1 ++ (')' :: left.rest)) := by
    rcases left.listed_eq with ⟨interior, hlist⟩ | hlist
    · obtain ⟨list, -, -, hlist⟩ := exists_listing ⟨behind, hisBlank⟩ hlist
      refine ⟨some list, ⟨trailers, hisTrailer⟩, ?_⟩
      rw [hbehind, hlist, htrailers]
      rfl
    · refine ⟨none, ⟨behind ++ trailers, fun c hc => ?_⟩, ?_⟩
      · rcases List.mem_append.1 hc with hc | hc
        · simp [isTrailer, hisBlank c hc]
        · exact hisTrailer c hc
      · rw [hbehind, ← hlist, htrailers]
        simp
  refine ⟨⟨⟨shape.name, left.name_ne, left.name_eq ▸ fun _ => List.mem_takeWhile_imp⟩, ⟨gap, hgap⟩,
    ⟨gap', hgap'⟩, ⟨lead, hlead'⟩⟩, ⟨shape.source, left.source_ne,
    left.source_eq ▸ not_mem_takeWhile_ne _ _, list, closing⟩, left.rest, htext.trans ?_⟩
  rw [hlead, hback]
  simp [Opening.text, Opening.code, Ending.text, Ending.back]

/-- **The grammar of calls.** A call is read at the front of a text exactly when an opening and an ending
stand there. It has their name, their document and their list, and takes their characters. -/
theorem CallShape.match?_eq_some_iff {text : Text} {shape : CallShape} :
    CallShape.match? text = some shape ↔ ∃ (opening : Opening) (ending : Ending) (rest : Text),
      text = opening.text ++ (ending.text ++ rest) ∧ shape = shapeOf opening ending := by
  constructor
  · intro h
    obtain ⟨opening, ending, rest, rfl⟩ := CallShape.exists_parts h
    exact ⟨opening, ending, rest, rfl,
      Option.some.inj (h.symm.trans (CallShape.match?_append opening ending rest))⟩
  · rintro ⟨opening, ending, rest, rfl, rfl⟩
    exact CallShape.match?_append opening ending rest

end PersistedQueries.CallSite
