import PersistedQueries.CallSite.Import
import PersistedQueries.Proofs.CallSite.Grammar
import PersistedQueries.Proofs.Splice.Finality

/-!
# Written calls

A call can be written in many ways: with blanks and tabs around the equals sign, with white space within
the parentheses, with or without a list of dependencies, and with commas in front of what is closed.
However it is written, it is read as the same call, and to its last character, whatever follows.

- `Identifier`, `Template`, `DependencyList`, `Rendering`: a call as it is written. The types hold what a
  part may be made of, so every value of them is a written call.
- `entriesOf_interior`: the list of dependencies has the names that were written into it.
- `Template.isSealed`: the text of a template does not close it.
- `Rendering.match?_text`: a written call is read as what it says.
-/

namespace PersistedQueries.CallSite

open GraphQL (Ends)
open Text (isBlank strip stripLeft stripRight joinWith splitOn_append splitOn_joinWith
  exists_splitOn_concat not_mem_joinWith)

/-! ## The parts of a call -/

/-- The number of backslashes at the end of a text. -/
def backslashesAtEnd (text : Text) : Nat := (text.reverse.takeWhile (· = '\\')).length

/-- The document of a call, which stands between backticks: a text without a backtick, at whose end no
backslash would take the closing one for its own. -/
structure Template where
  text : Text
  ne_nil : text ≠ []
  not_mem : '\x60' ∉ text
  even_backslashes : backslashesAtEnd text % 2 = 0

/-- A name in a list of dependencies, with the white space in front of it and behind it. -/
structure Entry where
  front : Blanks
  name : Identifier
  back : Blanks

/-- A list of dependencies behind a template: a comma, and names between brackets. -/
structure DependencyList where
  /-- White space in front of the comma. -/
  behind : Blanks
  /-- White space in front of the opening bracket. -/
  lead : Blanks
  /-- The names. -/
  entries : List Entry
  /-- White space and commas in front of the closing bracket. -/
  closing : Trailers

/-- A call as it is written. -/
structure Rendering where
  /-- The name that the call is assigned to. -/
  name : Identifier
  /-- Blanks and tabs in front of the equals sign. -/
  gap : Gap
  /-- Blanks and tabs behind the equals sign. -/
  gap' : Gap
  /-- White space in front of the template. -/
  lead : Blanks
  /-- The document. -/
  template : Template
  /-- The list of dependencies, if there is one. -/
  list : Option DependencyList
  /-- White space and commas in front of the closing parenthesis. -/
  closing : Trailers

/-- The text of an entry. -/
def Entry.text (entry : Entry) : Text := entry.front.1 ++ (entry.name.text ++ entry.back.1)

/-- The text between the brackets of a list. -/
def DependencyList.interior (list : DependencyList) : Text :=
  joinWith [','] (list.entries.map Entry.text) ++ list.closing.1

/-- The text of a list, from behind the template on. -/
def DependencyList.text (list : DependencyList) : Text :=
  list.behind.1 ++ (',' :: (list.lead.1 ++ ('[' :: (list.interior ++ [']']))))

/-- The text of a call from behind its template on. -/
def Rendering.ending (call : Rendering) : Text :=
  call.list.elim [] DependencyList.text ++ (call.closing.1 ++ [')'])

/-- The text of a call. -/
def Rendering.text (call : Rendering) : Text :=
  call.name.text ++ (call.gap.1 ++ ('=' :: (call.gap'.1 ++ (tagCall ++ (call.lead.1 ++
    ('\x60' :: (call.template.text ++ ('\x60' :: call.ending))))))))

/-- The names that a call depends on. -/
def Rendering.dependencies (call : Rendering) : List Text :=
  call.list.elim [] fun list => list.entries.map fun entry => entry.name.text

/-! ## Templates -/

theorem backslashesAtEnd_cons {c : Char} (hc : c ≠ '\\') (text : Text) :
    backslashesAtEnd (c :: text) = backslashesAtEnd text := by
  rw [backslashesAtEnd, List.reverse_cons, takeWhile_append_cons (by simpa using hc)]
  rfl

/-- An escaped character at the front does not change whether the backslashes at the end are even. -/
theorem backslashesAtEnd_escaped (c : Char) (text : Text) :
    backslashesAtEnd ('\\' :: c :: text) % 2 = backslashesAtEnd text % 2 := by
  by_cases hc : c = '\\'
  · subst hc
    rw [backslashesAtEnd, backslashesAtEnd, List.reverse_cons, List.reverse_cons, List.append_assoc,
      List.takeWhile_append]
    split
    · next hall =>
      -- the whole text is backslashes, of which there are two more now
      rw [hall, List.length_append]
      show (text.reverse.length + 2) % 2 = text.reverse.length % 2
      omega
    · rfl
  · have hsplit : ('\\' :: c :: text).reverse = text.reverse ++ c :: ['\\'] := by simp
    rw [backslashesAtEnd, hsplit, takeWhile_append_cons (by simpa using hc)]
    rfl

theorem sealed_of_even {text : Text} (hbacktick : '\x60' ∉ text)
    (heven : backslashesAtEnd text % 2 = 0) : Splice.Sealed text := by
  induction hn : text.length using Nat.strong_induction_on generalizing text with
  | _ n ih =>
    subst hn
    cases text with
    | nil => exact .nil
    | cons c text =>
      obtain ⟨hc, htext⟩ := not_or.1 (mt List.mem_cons.2 hbacktick)
      by_cases hbackslash : c = '\\'
      · subst hbackslash
        cases text with
        | nil => cases heven
        | cons d text =>
          rw [backslashesAtEnd_escaped] at heven
          refine .escaped d (ih text.length ?_ (fun h => htext (List.mem_cons_of_mem d h)) heven rfl)
          simp only [List.length_cons]
          omega
      · rw [backslashesAtEnd_cons hbackslash] at heven
        exact .plain hbackslash (Ne.symm hc) (ih text.length (Nat.lt_succ_self _) htext heven rfl)

/-- The text of a template does not close it. -/
theorem Template.isSealed (template : Template) : Splice.Sealed template.text :=
  sealed_of_even template.not_mem template.even_backslashes

/-! ## Lists of dependencies -/

theorem entriesOf_nil : entriesOf [] = [] := by decide

theorem entriesOf_comma (text more : Text) :
    entriesOf (text ++ ',' :: more) = entriesOf text ++ entriesOf more := by
  rw [entriesOf, splitOn_append, List.map_append, List.filter_append]
  rfl

theorem strip_concat_blank {c : Char} (hc : isBlank c = true) (text : Text) :
    strip (text ++ [c]) = strip text := by
  unfold strip stripLeft
  rw [List.dropWhile_append]
  split
  · next hall => rw [List.dropWhile_cons_of_pos hc, List.dropWhile_nil, List.isEmpty_iff.1 hall]
  · rw [stripRight, List.reverse_append, List.reverse_singleton, List.singleton_append,
      List.dropWhile_cons_of_pos hc]
    rfl

/-- White space and commas at the end of a list add nothing to it. -/
theorem entriesOf_append_trailers {trailers : Text} (h : ∀ c ∈ trailers, isTrailer c = true)
    (text : Text) : entriesOf (text ++ trailers) = entriesOf text := by
  induction trailers generalizing text with
  | nil => rw [List.append_nil]
  | cons c trailers ih =>
    obtain ⟨hc, htrailers⟩ := List.forall_mem_cons.1 h
    by_cases hcomma : c = ','
    · subst hcomma
      rw [entriesOf_comma, ← List.nil_append trailers, ih htrailers [], entriesOf_nil, List.append_nil]
    · have hblank : isBlank c = true := by
        rw [isTrailer, Bool.or_eq_true, decide_eq_true_eq] at hc
        exact hc.resolve_right hcomma
      -- a blank belongs to the last entry, which is stripped of it
      obtain ⟨pieces, piece, hpieces, hconcat⟩ := exists_splitOn_concat hcomma text
      rw [← List.singleton_append, ← List.append_assoc, ih htrailers, entriesOf, entriesOf, hpieces,
        hconcat, List.map_append, List.map_append, List.map_singleton, List.map_singleton,
        strip_concat_blank hblank]

/-- A text that neither begins nor ends with white space. -/
structure Trimmed (text : Text) : Prop where
  ne_nil : text ≠ []
  ends : Ends isBlank text
  ends_reverse : Ends isBlank text.reverse

theorem Identifier.trimmed (name : Identifier) : Trimmed name.text := by
  have hblank : ∀ c ∈ name.text, isBlank c = false := fun c hc =>
    isBlank_of_isNameChar (name.isNameChar_of_mem c hc)
  refine ⟨name.ne_nil, ?_, ?_⟩
  · rw [← List.append_nil name.text]
    exact ends_append_of_ne_nil name.ne_nil hblank _
  · rw [← List.append_nil name.text.reverse]
    exact ends_append_of_ne_nil (by simpa using name.ne_nil) (by simpa using hblank) _

/-- What white space is put around is what is left of it. -/
theorem Trimmed.strip_append {text : Text} (h : Trimmed text) (front back : Blanks) :
    strip (front.1 ++ (text ++ back.1)) = text := by
  obtain ⟨hne, hends, hreverse⟩ := h
  have hleft : (front.1 ++ (text ++ back.1)).dropWhile isBlank = text ++ back.1 := by
    refine dropWhile_append_of_ends front.2 fun c hc => hends c ?_
    rwa [List.head?_append_of_ne_nil _ hne] at hc
  have hright : (back.1.reverse ++ text.reverse).dropWhile isBlank = text.reverse :=
    dropWhile_append_of_ends (fun c hc => back.2 c (List.mem_reverse.1 hc)) hreverse
  rw [strip, stripLeft, hleft, stripRight, List.reverse_append, hright, List.reverse_reverse]

theorem strip_entry (entry : Entry) : strip entry.text = entry.name.text :=
  entry.name.trimmed.strip_append entry.front entry.back

/-- An entry is made of blanks and of characters of names. -/
theorem Entry.not_mem_text {c : Char} (hblank : isBlank c = false) (hname : isNameChar c = false)
    (entry : Entry) : c ∉ entry.text := by
  simp only [Entry.text, List.mem_append]
  rintro (hc | hc | hc)
  · cases hblank.symm.trans (entry.front.2 c hc)
  · cases hname.symm.trans (entry.name.isNameChar_of_mem c hc)
  · cases hblank.symm.trans (entry.back.2 c hc)

/-- A list has the entries that were written into it, without the white space around them. -/
theorem entriesOf_joinWith {α : Type} {entries : List α} {text content : α → Text}
    (hcomma : ∀ entry ∈ entries, ',' ∉ text entry) (hstrip : ∀ entry, strip (text entry) = content entry)
    (hne : ∀ entry, content entry ≠ []) (closing : Trailers) :
    entriesOf (joinWith [','] (entries.map text) ++ closing.1) = entries.map content := by
  rw [entriesOf_append_trailers closing.2]
  rcases eq_or_ne entries [] with rfl | hentries
  · exact entriesOf_nil
  · rw [entriesOf, splitOn_joinWith (by simpa using hentries) (List.forall_mem_map.2 hcomma),
      List.map_map, show strip ∘ text = content from funext hstrip, List.filter_eq_self.2]
    rw [List.forall_mem_map]
    intro entry _
    simpa using hne entry

/-- A list of dependencies has the names that were written into it. -/
theorem entriesOf_interior (list : DependencyList) :
    entriesOf list.interior = list.entries.map fun entry => entry.name.text :=
  entriesOf_joinWith (fun entry _ => entry.not_mem_text (by decide) (by decide)) strip_entry
    (fun entry => entry.name.ne_nil) list.closing

/-! ## Reading a call -/

/-- What a written call says. -/
def Rendering.shape (call : Rendering) : CallShape where
  name := call.name.text
  source := call.template.text
  dependencies := call.list.map DependencyList.interior
  length := call.text.length

theorem DependencyList.not_mem_interior {c : Char} (hblank : isBlank c = false)
    (hname : isNameChar c = false) (hcomma : c ≠ ',') (list : DependencyList) :
    c ∉ list.interior := by
  have htrailer : isTrailer c = false := by simp [isTrailer, hblank, hcomma]
  have hentries : c ∉ joinWith [','] (list.entries.map Entry.text) :=
    not_mem_joinWith (by simpa using hcomma)
      (List.forall_mem_map.2 fun entry _ => entry.not_mem_text hblank hname)
  rw [interior, List.mem_append]
  rintro (hc | hc)
  · exact hentries hc
  · cases htrailer.symm.trans (list.closing.2 c hc)

/-- The brackets of a list of dependencies with what stands between them. -/
def DependencyList.listing (list : DependencyList) : Listing where
  behind := list.behind
  lead := list.lead
  interior := list.interior
  not_mem := list.not_mem_interior (by decide) (by decide) (by decide)

/-- A written call up to its template. -/
def Rendering.front (call : Rendering) : Opening := ⟨call.name, call.gap, call.gap', call.lead⟩

/-- A written call from its template on. -/
def Rendering.rear (call : Rendering) : Ending where
  source := call.template.text
  ne_nil := call.template.ne_nil
  not_mem := call.template.not_mem
  list := call.list.map DependencyList.listing
  closing := call.closing

theorem DependencyList.text_listing (list : DependencyList) : list.listing.text = list.text := by
  simp [Listing.text, Listing.opening, listing, text]

theorem Rendering.text_eq_parts (call : Rendering) :
    call.text = call.front.text ++ call.rear.text := by
  cases hlist : call.list with
  | none =>
    simp [text, ending, Opening.text, Opening.code, front, Ending.text, Ending.back, rear, hlist]
  | some list =>
    simp [text, ending, Opening.text, Opening.code, front, Ending.text, Ending.back, rear, hlist,
      list.text_listing]

/-- A written call is read as what it says, whatever follows. -/
theorem Rendering.match?_text (call : Rendering) (rest : Text) :
    CallShape.match? (call.text ++ rest) = some call.shape := by
  have hshape : shapeOf call.front call.rear = call.shape := by
    rw [shapeOf, ← call.text_eq_parts]
    cases hlist : call.list <;> simp [shape, front, rear, hlist, DependencyList.listing]
  rw [call.text_eq_parts, List.append_assoc, CallShape.match?_append, hshape]

end PersistedQueries.CallSite
