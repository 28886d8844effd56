import PersistedQueries.Proofs.Canonical.Reading

/-!
# A canonical text and the text it comes from

A canonical text is a document again. Where no string has white space that collapsing changes, it is
the very document that it was printed from, and it is its own canonical text. Other strings are
collapsed with the text around them, so texts that differ in such strings only can share a canonical
text.

- `Document.strings`: the strings of a document. `strings_of_parse`: they are the strings of its text.
- `canonicalize_roundTrip`: the canonical text of plain strings is parsed as what it was printed from,
  and canonicalizing it changes nothing.
- `strings_canonicalize`: the strings of a canonical text are those of the text, as they are read
  back. `not_strings_canonicalize`: they are not always the same.
-/

namespace PersistedQueries.GraphQL

variable {text : Text} {document : Document}

/-! ## Strings -/

/-- The value of a string, and whether it is a block string. -/
def Token.string? : Token → Option (String × Bool)
  | .string content => some (content, false)
  | .block content => some (content, true)
  | _ => none

/-- The strings of a document, descriptions among them. -/
def Document.strings (document : Document) : List (String × Bool) :=
  (document.flatMap Definition.tokens).filterMap Token.string?

/-- A string as it is read back from a canonical text. -/
def flatString (string : String × Bool) : String × Bool := (flatten string.2 string.1, string.2)

theorem overlooks_string? : Overlooks Token.string? := ⟨fun _ => rfl, rfl, rfl⟩

/-- The strings of a document are those of its text. -/
theorem strings_of_parse (h : parse text = .ok document) :
    ∃ tokens, lexemes text = some tokens ∧ tokens.filterMap Token.string? = document.strings :=
  overlooks_string?.of_parse h

theorem strings_unplaced (document : Document) :
    Document.strings (document.map Definition.unplaced) = document.strings :=
  congrArg (List.filterMap Token.string?) (flatMap_tokens_congr tokens_unplaced_definition document)

theorem strings_flat (document : Document) :
    Document.strings (document.map Definition.flat) = document.strings.map flatString := by
  have hstring : ∀ token : Token, (flatToken token).string? = token.string?.map flatString := by
    intro token
    cases token <;> rfl
  rw [Document.strings, flatMap_tokens_map fun d _ => tokens_flat_definition d, List.filterMap_map,
    Document.strings, List.map_filterMap]
  exact List.filterMap_congr fun token _ => hstring token

theorem strings_canonicalDocument (withTypenames : Bool) (document : Document) :
    (Document.strings (canonicalDocument withTypenames document)).Perm document.strings :=
  overlooks_string?.perm_canonicalDocument withTypenames document

/-! ## Plain strings -/

/-- Strings that collapsing leaves as they are: no block strings, and plain. -/
def AllPlain (document : Document) : Prop :=
  ∀ string ∈ document.strings, string.2 = false ∧ IsPlain string.1.toList

theorem map_flatToken_of_allPlain (h : AllPlain document) :
    (document.flatMap Definition.tokens).map flatToken = document.flatMap Definition.tokens := by
  refine map_eq_self.2 fun token htoken => ?_
  have hstring : ∀ string, token.string? = some string → string.2 = false ∧ IsPlain string.1.toList :=
    fun string hstring => h string (List.mem_filterMap.2 ⟨token, htoken, hstring⟩)
  cases token with
  | string content => exact congrArg Token.string (flatten_eq_self (hstring _ rfl).2)
  | block content => exact absurd (hstring _ rfl).1 (by simp)
  | punct | name | int | float => rfl

theorem isExecutable_canonicalDocument (withTypenames : Bool)
    (h : ∀ d ∈ document, d.IsExecutable) :
    ∀ d ∈ canonicalDocument withTypenames document, d.IsExecutable := by
  have hsort : ∀ d : Definition, d.IsExecutable → (sortDefinition d).IsExecutable := by
    intro d hd
    cases d <;> exact hd
  intro d hd
  obtain ⟨d, hmem, rfl⟩ := mem_sortDocument.1 hd
  refine hsort d ?_
  cases withTypenames with
  | true =>
    obtain ⟨own, hown, rfl⟩ := List.mem_map.1 hmem
    have hexecutable := h own hown
    cases own <;> exact hexecutable
  | false => exact h d hmem

/-- A document without places is found as it is where it has no places to forget. -/
theorem eq_of_map_unplaced {document' : Document} (hexecutable : ∀ d ∈ document, d.IsExecutable)
    (h : document'.map Definition.unplaced = document) : document' = document := by
  rw [← h]
  refine (map_eq_self.2 fun d hd => unplaced_of_isExecutable ?_).symm
  have hunplaced := hexecutable d.unplaced (h ▸ List.mem_map_of_mem hd)
  cases d <;> exact hunplaced

/-- **Round trip.** The canonical text of an executable document with plain strings is parsed as the
sorted document that it was printed from, and it is its own canonical text. -/
theorem canonicalize_roundTrip (hparse : parse text = .ok document)
    (hexecutable : ∀ d ∈ document, d.IsExecutable) (hplain : AllPlain document)
    (withTypenames : Bool) :
    ∃ canonical, canonicalize text withTypenames = .ok canonical ∧
      parse canonical =
        .ok (sortDocument (if withTypenames then addTypename document else document)) ∧
      canonicalize canonical withTypenames = .ok canonical := by
  obtain ⟨hne, hreadable⟩ := readable_of_parse hparse
  have hcanonical := canonicalize_of_parse hparse withTypenames
  have hreadable' := readable_canonicalDocument withTypenames hreadable
  have hexecutable' := isExecutable_canonicalDocument withTypenames hexecutable
  have hplain' : AllPlain (canonicalDocument withTypenames document) := fun string hstring =>
    hplain string ((strings_canonicalDocument withTypenames document).mem_iff.1 hstring)
  have htokens := lexemes_canonicalText (fun d hd => (hreadable' d hd).fits) (by
    intro token htoken
    obtain ⟨d, hd, htoken⟩ := List.mem_flatMap.1 htoken
    exact (hreadable' d hd).lexical token htoken)
  rw [map_flatToken_of_allPlain hplain'] at htokens
  obtain ⟨document', hunplaced, hparse'⟩ := parse_complete htokens
    (canonicalDocument_ne_nil withTypenames hne)
    (spellsDocument_of_fits fun d hd =>
      ⟨(hreadable' d hd).fits, unplaced_of_isExecutable (hexecutable' d hd)⟩)
  obtain rfl := eq_of_map_unplaced hexecutable' hunplaced
  refine ⟨_, hcanonical, hparse', ?_⟩
  rw [← canonicalDocument, canonicalize_of_parse hparse']
  exact congrArg (fun document => Except.ok (canonicalText document))
    (canonicalDocument_canonicalDocument withTypenames document)

/-- A query whose string has one blank. -/
def oneBlank : Text := "\x7ba(s:\"x y\")\x7d".toList

/-- The document of that query. -/
def oneBlankDocument : Document :=
  [.operation ⟨none, .query, none, [], [], [.field none "a" [⟨"s", .string "x y" false⟩] [] []]⟩]

set_option maxRecDepth 8000 in
theorem parse_oneBlank : parse oneBlank = .ok oneBlankDocument := by
  cbv

theorem allPlain_oneBlank : AllPlain oneBlankDocument := by
  have hstrings : oneBlankDocument.strings = [("x y", false)] := by
    decide
  have hbare : ∀ c ∈ ['x', ' ', 'y'], isBare c → c = ' ' := by
    simp [isBare, Text.isBlank]
  rw [AllPlain, hstrings]
  exact List.forall_mem_singleton.2 ⟨rfl, hbare, by decide⟩

theorem canonicalize_roundTrip_oneBlank : parse oneBlank = .ok oneBlankDocument ∧
    (∀ d ∈ oneBlankDocument, d.IsExecutable) ∧ AllPlain oneBlankDocument ∧
    ∃ canonical, canonicalize oneBlank true = .ok canonical ∧
      parse canonical = .ok (sortDocument (if true then addTypename oneBlankDocument
        else oneBlankDocument)) ∧
      canonicalize canonical true = .ok canonical := by
  have hexecutable : ∀ d ∈ oneBlankDocument, d.IsExecutable :=
    List.forall_mem_singleton.2 trivial
  exact ⟨parse_oneBlank, hexecutable, allPlain_oneBlank,
    canonicalize_roundTrip parse_oneBlank hexecutable allPlain_oneBlank true⟩

/-! ## Other strings -/

/-- The canonical text of a text is parsed, and has the strings of the text as they are read back. -/
theorem exists_strings (hparse : parse text = .ok document) (withTypenames : Bool) :
    ∃ canonical document', canonicalize text withTypenames = .ok canonical ∧
      parse canonical = .ok document' ∧
      (Document.strings document').Perm (document.strings.map flatString) := by
  obtain ⟨canonical, document', hcanonical, hparse', hflat⟩ := parse_canonicalize hparse withTypenames
  refine ⟨canonical, document', hcanonical, hparse', ?_⟩
  rw [← strings_unplaced document', hflat, strings_flat]
  exact (strings_canonicalDocument withTypenames document).map flatString

/-- **Strings of canonical texts.** A canonical text has the strings of its text as they are read
back, each as often. So texts that share a canonical text have the same strings but for white
space. -/
theorem strings_canonicalize (hparse : parse text = .ok document) (withTypenames : Bool) :
    ∃ canonical document', canonicalize text withTypenames = .ok canonical ∧
      parse canonical = .ok document' ∧
      (Document.strings document').Perm (document.strings.map flatString) ∧
      ∀ other document'', parse other = .ok document'' →
        canonicalize other withTypenames = .ok canonical →
        ((Document.strings document'').map flatString).Perm (document.strings.map flatString) := by
  obtain ⟨canonical, document', hcanonical, hparse', hperm⟩ := exists_strings hparse withTypenames
  refine ⟨canonical, document', hcanonical, hparse', hperm, fun other document'' hother hsame => ?_⟩
  obtain ⟨canonical', found, hcanonical', hfound, hperm'⟩ := exists_strings hother withTypenames
  obtain rfl : canonical' = canonical := Except.ok.inj (hcanonical'.symm.trans hsame)
  obtain rfl : found = document' := Except.ok.inj (hfound.symm.trans hparse')
  exact hperm'.symm.trans hperm

/-- A query whose string has two blanks, one of which it loses. -/
def twoBlanks : Text := "\x7ba(s:\"x  y\")\x7d".toList

/-- The document of that query. -/
def twoBlanksDocument : Document :=
  [.operation ⟨none, .query, none, [], [], [.field none "a" [⟨"s", .string "x  y" false⟩] [] []]⟩]

set_option maxRecDepth 8000 in
theorem parse_twoBlanks : parse twoBlanks = .ok twoBlanksDocument := by
  cbv

theorem strings_twoBlanks : twoBlanksDocument.strings = [("x  y", false)] := by
  decide

theorem strings_canonicalize_twoBlanks : parse twoBlanks = .ok twoBlanksDocument ∧
    ∃ canonical document', canonicalize twoBlanks false = .ok canonical ∧
      parse canonical = .ok document' ∧
      (Document.strings document').Perm (twoBlanksDocument.strings.map flatString) ∧
      ∀ other document'', parse other = .ok document'' →
        canonicalize other false = .ok canonical →
        ((Document.strings document'').map flatString).Perm
          (twoBlanksDocument.strings.map flatString) :=
  ⟨parse_twoBlanks, strings_canonicalize parse_twoBlanks false⟩

set_option maxRecDepth 8000 in
/-- The strings of a text are not always those of its canonical text, and operations that differ in
one string only can share a canonical text: runs of blanks become one blank within strings too. -/
theorem not_strings_canonicalize :
    (¬ ∀ (text : Text) (document : Document) (canonical : Text) (document' : Document),
      parse text = .ok document → canonicalize text false = .ok canonical →
      parse canonical = .ok document' → (Document.strings document').Perm document.strings) ∧
    canonicalize twoBlanks false = canonicalize oneBlank false := by
  constructor
  · intro hstrings
    obtain ⟨canonical, document', hcanonical, hparse', hperm⟩ := exists_strings parse_twoBlanks false
    have hsame := hstrings _ _ _ _ parse_twoBlanks hcanonical hparse'
    rw [strings_twoBlanks] at hperm hsame
    have hflat : [("x  y", false)].map flatString = [("x y", false)] := by
      decide
    rw [hflat] at hperm
    exact absurd (hsame.symm.trans hperm) (by decide)
  · have htwo : canonicalText (sortDocument twoBlanksDocument) =
        "query \x7b a(s: \"x y\") \x7d".toList := by
      cbv
    have hone : canonicalText (sortDocument oneBlankDocument) =
        "query \x7b a(s: \"x y\") \x7d".toList := by
      cbv
    rw [canonicalize_of_parse parse_twoBlanks, canonicalize_of_parse parse_oneBlank]
    exact congrArg Except.ok (htwo.trans hone.symm)

end PersistedQueries.GraphQL
