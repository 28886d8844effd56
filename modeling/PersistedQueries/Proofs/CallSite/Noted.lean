import PersistedQueries.Proofs.CallSite.Comments
import PersistedQueries.Proofs.CallSite.Templates

/-!
# Lists with comments

Comments are put into a list of names. The walk over comments and literals comes through the list, whatever
comments there are, and through a template in which the list stands. But the names of a list are found by
cutting its text at commas, and what stands in a comment is taken for a part of them.

- `Noted`: a list, and the same list with comments in it.
- `Noted.scans`, `Noted.isSealed`: the walk comes through a list with comments.
- `Noted.dependencyNames_eq_iff`: the names of a list are those without its comments only if it has none.
-/

namespace PersistedQueries.CallSite

open Splice (Sealed)
open Text (isBlank strip stripLeft stripRight exists_mem_splitOn_iff)

/-! ## Putting comments into a list -/

/-- A character of a list that has no comments: it begins no comment and no literal, opens and closes no
list, and escapes nothing. -/
def IsListChar (c : Char) : Prop := IsPlain c ∧ c ∉ "[]\x7b\x7d\\".toList

instance (c : Char) : Decidable (IsListChar c) := inferInstanceAs (Decidable (_ ∧ _))

/-- The characters that no comment within a list has: quotes, commas, braces and brackets. -/
def listMarks : Text := "\x27\x22\x60,\x7b\x7d[]".toList

/-- Words that end no comment and have no marks of a list in them. -/
structure IsNote (kind : CommentKind) (words : Text) : Prop where
  admits : kind.Admits words
  not_mem : ∀ c ∈ words, c ∉ listMarks

instance (kind : CommentKind) (words : Text) : Decidable (IsNote kind words) :=
  decidable_of_iff (kind.Admits words ∧ words.all (· ∉ listMarks) = true)
    ⟨fun h => ⟨h.1, List.all_iff_forall_prop.1 h.2⟩, fun h => ⟨h.admits, List.all_iff_forall_prop.2 h.not_mem⟩⟩

/-- What ends a comment. -/
def CommentKind.ending : CommentKind → Text
  | .line => ['\n']
  | .block => "*/".toList

/-- The text of a comment from its opening mark to its end. -/
def note (kind : CommentKind) (words : Text) : Text := '/' :: kind.mark :: (words ++ kind.ending)

/-- A list of names, and the same list with comments in it. A line comment comes with its line end, or is
put in front of one. -/
inductive Noted : Text → Text → Prop where
  | nil : Noted [] []
  | char {c : Char} {names list : Text} (isListChar : IsListChar c) (noted : Noted names list) :
      Noted (c :: names) (c :: list)
  | comment {kind : CommentKind} {words names list : Text} (isNote : IsNote kind words)
      (noted : Noted names list) : Noted names (note kind words ++ list)
  | lineEnd {words names list : Text} (isNote : IsNote .line words) (noted : Noted names list) :
      Noted ('\n' :: names) (note .line words ++ list)

namespace Noted

variable {names list : Text}

/-- A list without comments. -/
theorem refl (h : ∀ c ∈ names, IsListChar c) : Noted names names := by
  induction names with
  | nil => exact .nil
  | cons c names ih =>
    obtain ⟨hc, hnames⟩ := List.forall_mem_cons.1 h
    exact .char hc (ih hnames)

theorem isListChar_of_mem (h : Noted names list) : ∀ c ∈ names, IsListChar c := by
  induction h with
  | nil => exact nofun
  | char hc _ ih => exact List.forall_mem_cons.2 ⟨hc, ih⟩
  | comment _ _ ih => exact ih
  | lineEnd _ _ ih => exact List.forall_mem_cons.2 ⟨by decide, ih⟩

/-! ## The characters of a list -/

theorem not_mem_note {kind : CommentKind} {words : Text} {c : Char} (hnote : IsNote kind words)
    (hc : c ∈ listMarks) : c ∉ note kind words := by
  have hmark : ∀ c ∈ listMarks, c ∉ ['/', kind.mark] ∧ c ∉ kind.ending := by
    cases kind <;> exact List.all_iff_forall_prop.1 (by decide)
  obtain ⟨hopening, hending⟩ := hmark c hc
  show c ∉ ['/', kind.mark] ++ (words ++ kind.ending)
  rw [List.mem_append, List.mem_append, not_or, not_or]
  exact ⟨hopening, fun hmem => hnote.not_mem c hmem hc, hending⟩

/-- The marks of lists and literals do not stand in a list, except for the commas between its names. -/
theorem not_mem (h : Noted names list) {c : Char} (hc : c ∈ listMarks) (hcomma : c ≠ ',') : c ∉ list := by
  have hapart : ∀ c ∈ listMarks, c ≠ ',' → ¬ IsListChar c := List.all_iff_forall_prop.1 (by decide)
  induction h with
  | nil => exact List.not_mem_nil
  | char hd _ ih =>
    rw [List.mem_cons, not_or]
    exact ⟨fun heq => hapart c hc hcomma (heq ▸ hd), ih⟩
  | comment hnote _ ih =>
    rw [List.mem_append, not_or]
    exact ⟨not_mem_note hnote hc, ih⟩
  | lineEnd hnote _ ih =>
    rw [List.mem_append, not_or]
    exact ⟨not_mem_note hnote hc, ih⟩

/-- A list has comments in it if it has a slash. -/
theorem eq_or_mem (h : Noted names list) : list = names ∨ '/' ∈ list := by
  induction h with
  | nil => exact .inl rfl
  | char _ _ ih => exact ih.imp (congrArg _) (List.mem_cons_of_mem _)
  | comment => exact .inr (List.mem_append_left _ List.mem_cons_self)
  | lineEnd => exact .inr (List.mem_append_left _ List.mem_cons_self)

/-! ## The walk over comments and literals -/

/-- The walk comes through a comment. -/
theorem scans_note {kind : CommentKind} {words : Text} (hnote : IsNote kind words) (before rest : Text) :
    Scans before (note kind words) rest := by
  cases kind with
  | block =>
    have htoken := (⟨.block, [], _, rest, .mark rest⟩ : CommentSpot).tokenTail?_comment hnote.admits before
    have hscan : Scans before ('/' :: (('*' :: (words ++ "*/".toList)) ++ [])) rest := by
      refine .token ?_ .done
      simpa [CommentKind.mark, Nat.add_comm, Nat.add_left_comm] using htoken
    rwa [List.append_nil] at hscan
  | line =>
    have htoken :=
      (⟨.line, [], _, '\n' :: rest, .newline rest⟩ : CommentSpot).tokenTail?_comment hnote.admits before
    have hscan : Scans before ('/' :: (('/' :: words) ++ ['\n'])) rest := by
      refine .token ?_ (scans_of_isPlain (List.forall_mem_singleton.2 (by decide)))
      simpa [CommentKind.mark, Nat.add_comm] using htoken
    exact hscan

/-- The walk comes through a list with comments, wherever it stands. -/
theorem scans (h : Noted names list) (before rest : Text) : Scans before list rest := by
  induction h generalizing before with
  | nil => exact .done
  | char hc _ ih => exact .code (tokenTail?_of_isPlain hc.1 _ _) (ih _)
  | comment hnote _ ih => exact (scans_note hnote before _).append (ih _)
  | lineEnd hnote _ ih => exact (scans_note hnote before _).append (ih _)

/-- A list with comments does not close a template, and does not escape what follows. -/
theorem isSealed (h : Noted names list) : Sealed list := by
  have hseal {kind : CommentKind} {words : Text} (hnote : IsNote kind words) : Sealed (note kind words) := by
    refine sealed_of_even (not_mem_note hnote (by decide)) ?_
    cases kind with
    | block =>
      have hsplit : note .block words = ('/' :: '*' :: (words ++ ['*'])) ++ ['/'] := by
        simp [note, CommentKind.mark, CommentKind.ending]
      rw [hsplit, backslashesAtEnd_of_ne (by decide)]
    | line =>
      have hsplit : note .line words = ('/' :: '/' :: words) ++ ['\n'] := rfl
      rw [hsplit, backslashesAtEnd_of_ne (by decide)]
  induction h with
  | nil => exact .nil
  | @char c names list hc _ ih =>
    have hbackslash : ¬ IsListChar '\\' := by decide
    exact .plain (fun heq => hbackslash (heq ▸ hc)) hc.1.2.2.2 ih
  | comment hnote _ ih => exact sealed_append (hseal hnote) ih
  | lineEnd hnote _ ih => exact sealed_append (hseal hnote) ih

end Noted

/-! ## The names of a list -/

/-- Every character of a list but white space and commas stands in one of its entries. -/
theorem exists_mem_entriesOf_iff {c : Char} (hblank : isBlank c = false) (hcomma : c ≠ ',') {list : Text} :
    (∃ entry ∈ entriesOf list, c ∈ entry) ↔ c ∈ list := by
  have hstrip (piece : Text) : c ∈ strip piece ↔ c ∈ piece := by
    rw [strip, stripRight, List.mem_reverse, mem_dropWhile_iff hblank, List.mem_reverse, stripLeft,
      mem_dropWhile_iff hblank]
  rw [← exists_mem_splitOn_iff hcomma]
  simp only [entriesOf, List.mem_filter, List.mem_map]
  constructor
  · rintro ⟨_, ⟨⟨piece, hpiece, rfl⟩, -⟩, hmem⟩
    exact ⟨piece, hpiece, (hstrip piece).1 hmem⟩
  · rintro ⟨piece, hpiece, hmem⟩
    have hmem' := (hstrip piece).2 hmem
    exact ⟨strip piece, ⟨⟨piece, hpiece, rfl⟩, by simpa using List.ne_nil_of_mem hmem'⟩, hmem'⟩

theorem mem_dependencyNames {list : Text} {name : String} :
    name ∈ dependencyNames (some list) ↔ ∃ entry ∈ entriesOf list, String.ofList entry = name := by
  show name ∈ NameSet.ofList ((entriesOf list).map String.ofList) ↔ _
  rw [NameSet.mem_ofList, List.mem_map]

/-- The names of a list with comments are the names of the list only if there are no comments: what stands
in a comment is taken for a part of a name. -/
theorem Noted.dependencyNames_eq_iff {names list : Text} (h : Noted names list) :
    dependencyNames (some list) = dependencyNames (some names) ↔ list = names := by
  constructor
  · intro hsame
    refine h.eq_or_mem.resolve_right fun hslash => ?_
    obtain ⟨entry, hentry, hmem⟩ := (exists_mem_entriesOf_iff (by decide) (by decide)).2 hslash
    -- the name with the slash would be one of the list without comments
    have hname := mem_dependencyNames.2 ⟨entry, hentry, rfl⟩
    rw [hsame] at hname
    obtain ⟨entry', hentry', heq⟩ := mem_dependencyNames.1 hname
    have hslash' := (exists_mem_entriesOf_iff (by decide) (by decide)).1
      ⟨entry', hentry', String.ofList_injective heq ▸ hmem⟩
    exact (h.isListChar_of_mem _ hslash').1.1 rfl
  · rintro rfl
    rfl

end PersistedQueries.CallSite
