import PersistedQueries.Proofs.CallSite.Clauses
import PersistedQueries.Proofs.CallSite.Searching

/-!
# Reading the import statements that were written

Import statements that are written into a text, each with a semicolon and a line end behind it, are read
again: from such a text every name gets the specifier of the last statement that binds it. The search
finds each statement where it was written, because none of them can be read further than to its closing
quote; and the walk over comments and literals comes to each, because a specifier is closed where it ends.

- `Declaration`, `sourceOf`: import statements as they are written.
- `Declaration.match?_text`: a written statement is read as what it says, whatever follows.
- `Declaration.scans_line`: the walk over comments and literals comes through it.
- `get?_parseImports_sourceOf`: what is read from a text of such statements.
-/

namespace PersistedQueries.CallSite

open GraphQL (Ends ends_cons takeWhile_append_of_ends)
open Text (isBlank)

/-! ## Statements -/

/-- The text between the quotes of a statement. -/
structure Specifier where
  text : Text
  ne_nil : text ≠ []
  isQuote_of_mem : ∀ c ∈ text, isQuote c = false
  not_mem_backslash : '\\' ∉ text
  not_mem_newline : '\n' ∉ text

/-- A quote of either kind. -/
abbrev Quote := { c : Char // isQuote c = true }

/-- An import statement as it is written. -/
structure Declaration where
  /-- White space behind the word `import`. -/
  lead : Space
  /-- The white space behind a modifier `type`, if there is one. -/
  modifier : Option Space
  clause : Clause
  /-- White space in front of the word `from`. -/
  gap : Blanks
  ne_nil_of_endsWithName : clause.EndsWithName → gap.1 ≠ []
  /-- White space behind the word `from`. -/
  gap' : Blanks
  quote : Quote
  specifier : Specifier

/-- The text of a specifier with its quotes and what stands in front of it, from behind the clause on. -/
def Declaration.origin (decl : Declaration) : Text :=
  decl.gap.1 ++ ("from".toList ++ (decl.gap'.1 ++ (decl.quote.1 :: (decl.specifier.text ++
    [decl.quote.1]))))

/-- The word that every statement begins with. -/
def importWord : Text := "import".toList

/-- The text of a statement. -/
def Declaration.text (decl : Declaration) : Text :=
  importWord ++ (decl.lead.1 ++ ((decl.modifier.elim [] fun space => "type".toList ++ space.1) ++
    (decl.clause.text ++ decl.origin)))

/-- The text of a statement with its semicolon and its line end. -/
def Declaration.line (decl : Declaration) : Text := decl.text ++ [';', '\n']

/-- The text of some statements, one behind the other. -/
def sourceOf (decls : List Declaration) : Text := decls.flatMap Declaration.line

/-- What a statement says. -/
def Declaration.shape (decl : Declaration) : ImportShape where
  clause := decl.clause.text
  specifier := decl.specifier.text
  length := decl.text.length

/-! ## How far a statement goes -/

section Ends

variable {text rest : Text}

theorem suffix_of_afterWord? {word : Text} (h : afterWord? word text = some rest) : rest <:+ text :=
  ⟨word, (afterWord?_eq_some_iff.1 h).symm⟩

/-- White space, characters of names, commas and stars. -/
def isLoose (c : Char) : Bool := isNameChar c || isBlank c || c = ',' || c = '*'

/-- Loose characters are taken off the front of a text. -/
def Skips (text rest : Text) : Prop := ∃ pre, text = pre ++ rest ∧ ∀ c ∈ pre, isLoose c = true

/-- A statement is read by steps over white space, names, commas and stars. Where a step goes on over
anything else, there stands a brace or a quote first. -/
def Passes (text rest : Text) : Prop :=
  ∃ pre, text = pre ++ rest ∧
    ∀ c, (pre.dropWhile isLoose).head? = some c → c = '\x7b' ∨ isQuote c = true

theorem Skips.trans {more : Text} (h : Skips text rest) (h' : Skips rest more) : Skips text more := by
  obtain ⟨pre, rfl, hpre⟩ := h
  obtain ⟨pre', rfl, hpre'⟩ := h'
  exact ⟨pre ++ pre', (List.append_assoc ..).symm, List.forall_mem_append.2 ⟨hpre, hpre'⟩⟩

theorem Skips.passes (h : Skips text rest) : Passes text rest := by
  obtain ⟨pre, rfl, hpre⟩ := h
  refine ⟨pre, rfl, fun c hc => ?_⟩
  rw [List.dropWhile_eq_nil_iff.2 hpre] at hc
  cases hc

theorem Passes.suffix (h : Passes text rest) : rest <:+ text := by
  obtain ⟨pre, rfl, -⟩ := h
  exact List.suffix_append pre rest

theorem Passes.trans {more : Text} (h : Passes text rest) (h' : Passes rest more) :
    Passes text more := by
  obtain ⟨pre, rfl, hpre⟩ := h
  obtain ⟨pre', rfl, hpre'⟩ := h'
  refine ⟨pre ++ pre', (List.append_assoc ..).symm, fun c hc => ?_⟩
  rw [List.dropWhile_append] at hc
  split at hc
  · exact hpre' c hc
  · next hne =>
    rw [List.head?_append_of_ne_nil _ (by simpa using hne)] at hc
    exact hpre c hc

theorem skips_of_afterWord? {word : Text} (hword : word.all isLoose = true)
    (h : afterWord? word text = some rest) : Skips text rest :=
  ⟨word, afterWord?_eq_some_iff.1 h, List.all_eq_true.1 hword⟩

theorem skips_dropWhile {p : Char → Bool} (hp : ∀ c, p c = true → isLoose c = true) (text : Text) :
    Skips text (text.dropWhile p) := by
  obtain ⟨run, htext, hrun⟩ := exists_run p text
  exact ⟨run, htext, fun c hc => hp c (hrun c hc)⟩

theorem isLoose_of_isBlank {c : Char} (h : isBlank c = true) : isLoose c = true := by
  simp [isLoose, h]

theorem skips_of_blanks? (h : blanks? text = some rest) : Skips text rest := by
  cases text with
  | nil => cases h
  | cons c text =>
    rw [blanks?, Option.ite_none_right_eq_some, Option.some.injEq] at h
    obtain ⟨hc, rfl⟩ := h
    have hdrop := skips_dropWhile (fun _ => isLoose_of_isBlank) (c :: text)
    rwa [List.dropWhile_cons_of_pos hc] at hdrop

/-- A word and the white space behind it are taken off. -/
theorem skips_of_word {word : Text} (hword : word.all isLoose = true)
    (h : (afterWord? word text).bind blanks? = some rest) : Skips text rest := by
  obtain ⟨behind, hbehind, hblank⟩ := Option.bind_eq_some_iff.1 h
  exact (skips_of_afterWord? hword hbehind).trans (skips_of_blanks? hblank)

theorem skips_drop_name {n : Nat} (hn : n ≤ (text.takeWhile isNameChar).length) :
    Skips text (text.drop n) := by
  refine ⟨text.take n, (List.take_append_drop n text).symm, fun c hc => ?_⟩
  have htaken : text.take n <+: text.takeWhile isNameChar :=
    List.prefix_of_prefix_length_le (List.take_prefix n text) (List.takeWhile_prefix _)
      ((List.length_take_le n text).trans hn)
  have hname : isNameChar c = true := List.mem_takeWhile_imp (htaken.subset hc)
  simp [isLoose, hname]

theorem skips_of_mem_nameEnds (h : rest ∈ nameEnds text) : Skips text rest := by
  obtain ⟨n, hn, rfl⟩ := List.mem_map.1 h
  exact skips_drop_name (List.mem_range.1 (List.mem_reverse.1 hn))

theorem skips_of_mem_namespaceEnds (h : rest ∈ namespaceEnds text) : Skips text rest := by
  unfold namespaceEnds at h
  split at h
  · cases h
  next star hstar =>
  split at h
  · cases h
  next name hname =>
  exact (skips_of_afterWord? (by decide) hstar).trans ((skips_dropWhile
    (fun _ => isLoose_of_isBlank) star).trans ((skips_of_word (by decide) hname).trans
      (skips_of_mem_nameEnds h)))

theorem skips_of_defaultEnd? (h : defaultEnd? text = some rest) : Skips text rest := by
  unfold defaultEnd? at h
  dsimp only at h
  split at h
  · cases h
  obtain ⟨behind, hbehind, hrest⟩ := Option.bind_eq_some_iff.1 h
  obtain rfl := Option.some.inj hrest
  exact (skips_drop_name le_rfl).trans ((skips_dropWhile (fun _ => isLoose_of_isBlank) _).trans
    ((skips_of_afterWord? (by decide) hbehind).trans
      (skips_dropWhile (fun _ => isLoose_of_isBlank) behind)))

/-- Braces go on up to the first closing one. -/
theorem exists_interior_of_bracedEnd? (h : bracedEnd? text = some rest) :
    ∃ interior, text = '\x7b' :: (interior ++ '\x7d' :: rest) ∧ '\x7d' ∉ interior := by
  obtain ⟨list, hlist, hrest⟩ := Option.bind_eq_some_iff.1 h
  have hsplit := List.takeWhile_append_dropWhile (p := fun c => decide (c ≠ '\x7d')) (l := list)
  rw [afterWord?_eq_some_iff.1 hrest] at hsplit
  refine ⟨_, ?_, not_mem_takeWhile_ne '\x7d' list⟩
  rw [afterWord?_eq_some_iff.1 hlist]
  exact congrArg _ hsplit.symm

theorem suffix_of_bracedEnd? (h : bracedEnd? text = some rest) : rest <:+ text := by
  obtain ⟨interior, rfl, -⟩ := exists_interior_of_bracedEnd? h
  exact ⟨'\x7b' :: (interior ++ ['\x7d']), by simp⟩

/-- What is taken off a text as a clause: loose characters, and at most one pair of braces behind them. -/
theorem exists_of_mem_clauseEnds (h : rest ∈ clauseEnds text) : Skips text rest ∨
    ∃ group interior, Skips text group ∧ group = '\x7b' :: (interior ++ '\x7d' :: rest) ∧
      '\x7d' ∉ interior := by
  simp only [clauseEnds, List.mem_append, Option.mem_toList, Option.bind_eq_bind,
    Option.bind_eq_some_iff] at h
  rcases h with (((h | ⟨group, hgroup, h⟩) | h) | h) | h
  · exact .inl (skips_of_mem_namespaceEnds h)
  · obtain ⟨interior, hinterior⟩ := exists_interior_of_bracedEnd? h
    exact .inr ⟨group, interior, skips_of_defaultEnd? hgroup, hinterior⟩
  · cases hgroup : defaultEnd? text with
    | none =>
      rw [hgroup] at h
      cases h
    | some group =>
      rw [hgroup] at h
      exact .inl ((skips_of_defaultEnd? hgroup).trans (skips_of_mem_namespaceEnds h))
  · exact .inl (skips_of_mem_nameEnds h)
  · obtain ⟨interior, hinterior⟩ := exists_interior_of_bracedEnd? h
    exact .inr ⟨text, interior, ⟨[], rfl, List.forall_mem_nil _⟩, hinterior⟩

theorem passes_of_mem_clauseEnds (h : rest ∈ clauseEnds text) : Passes text rest := by
  rcases exists_of_mem_clauseEnds h with hskips | ⟨group, interior, hskips, rfl, -⟩
  · exact hskips.passes
  · refine hskips.passes.trans ⟨'\x7b' :: (interior ++ ['\x7d']), by simp, fun c hc => .inl ?_⟩
    rw [List.dropWhile_cons_of_neg (by decide)] at hc
    exact (Option.some.inj hc).symm

/-- A specifier is introduced by loose characters and a quote. -/
theorem exists_quote_of_fromClause? {specifier : Text} (h : fromClause? text = some (specifier, rest)) :
    ∃ quote quoted, Passes text (quote :: quoted) ∧ isQuote quote = true ∧ rest <:+ quoted := by
  unfold fromClause? at h
  obtain ⟨word, hword, h⟩ := Option.bind_eq_some_iff.1 h
  have hpasses : Passes text (word.dropWhile isBlank) :=
    ((skips_dropWhile (fun _ => isLoose_of_isBlank) text).trans ((skips_of_afterWord? (by decide) hword).trans
      (skips_dropWhile (fun _ => isLoose_of_isBlank) word))).passes
  split at h
  · next quote quoted hquoted =>
    rw [hquoted] at hpasses
    dsimp only at h
    split at h
    · cases h
    next hquote =>
    split at h
    · cases h
    split at h
    · next closing behind hbehind =>
      obtain ⟨-, rfl⟩ := Prod.mk.inj (Option.some.inj h)
      exact ⟨quote, quoted, hpasses, by simpa using hquote,
        (List.suffix_cons closing behind).trans (hbehind ▸ List.drop_suffix _ _)⟩
    · cases h
  · cases h

theorem suffix_of_fromClause? {specifier : Text} (h : fromClause? text = some (specifier, rest)) :
    rest <:+ text := by
  obtain ⟨quote, quoted, hpasses, -, hsuffix⟩ := exists_quote_of_fromClause? h
  exact hsuffix.trans ((List.suffix_cons quote quoted).trans hpasses.suffix)

/-- A clause with a specifier behind it is introduced by loose characters and then a brace or a quote. -/
theorem exists_quote_of_clause? {found : Text × Text × Text} (h : clause? text = some found) :
    ∃ quote quoted, Passes text (quote :: quoted) ∧ isQuote quote = true ∧ found.2.2 <:+ quoted := by
  obtain ⟨behind, hbehind, hfound⟩ := List.exists_of_findSome?_eq_some h
  obtain ⟨⟨specifier, rest⟩, hfrom, rfl⟩ := Option.map_eq_some_iff.1 hfound
  obtain ⟨quote, quoted, hpasses, hquote, hsuffix⟩ := exists_quote_of_fromClause? hfrom
  exact ⟨quote, quoted, (passes_of_mem_clauseEnds hbehind).trans hpasses, hquote, hsuffix⟩

/-- A statement is read with a modifier, or else without one. -/
theorem ImportShape.match?_eq (text : Text) : ImportShape.match? text =
    ((afterWord? "import".toList text).bind blanks?).bind fun rest =>
      ((((afterWord? "type".toList rest).bind blanks?).bind clause?).or (clause? rest)).map
        fun found => ⟨found.1, found.2.1, text.length - found.2.2.length⟩ := by
  unfold ImportShape.match?
  simp only [Option.bind_eq_bind]
  refine congrArg (Option.bind _) (funext fun rest => ?_)
  cases ((afterWord? "type".toList rest).bind blanks?).bind clause? with
  | none => cases clause? rest <;> rfl
  | some found => rfl

/-- A statement is written with some loose characters, and then a brace or a quote. It ends behind a quote. -/
theorem ImportShape.exists_quote_of_match? {shape : ImportShape} (h : ImportShape.match? text = some shape) :
    ∃ quote quoted behind, Passes text (quote :: quoted) ∧ isQuote quote = true ∧ behind <:+ quoted ∧
      shape.length = text.length - behind.length := by
  rw [ImportShape.match?_eq] at h
  obtain ⟨rest, hrest, h⟩ := Option.bind_eq_some_iff.1 h
  obtain ⟨found, hfound, rfl⟩ := Option.map_eq_some_iff.1 h
  have hpasses : Passes text rest := (skips_of_word (by decide) hrest).passes
  rcases Option.or_eq_some_iff.1 hfound with hfound | ⟨-, hfound⟩
  · obtain ⟨modified, hmodified, hfound⟩ := Option.bind_eq_some_iff.1 hfound
    obtain ⟨quote, quoted, hclause, hquote, hsuffix⟩ := exists_quote_of_clause? hfound
    exact ⟨quote, quoted, found.2.2, hpasses.trans ((skips_of_word (by decide) hmodified).passes.trans
      hclause), hquote, hsuffix, rfl⟩
  · obtain ⟨quote, quoted, hclause, hquote, hsuffix⟩ := exists_quote_of_clause? hfound
    exact ⟨quote, quoted, found.2.2, hpasses.trans hclause, hquote, hsuffix, rfl⟩

/-- A statement takes a character, and not more than there are. -/
theorem ImportShape.reads : Reads ImportShape.match? ImportShape.length where
  pos {text shape} h := by
    obtain ⟨quote, quoted, behind, hpasses, -, hsuffix, hlength⟩ := ImportShape.exists_quote_of_match? h
    have hle := hpasses.suffix.length_le
    have hle' := hsuffix.length_le
    rw [List.length_cons] at hle
    omega
  le {text shape} h := by
    obtain ⟨quote, quoted, behind, -, -, -, hlength⟩ := ImportShape.exists_quote_of_match? h
    rw [hlength]
    exact Nat.sub_le _ _

/-- No statement can be read where loose characters lead to another one that is no brace and no quote. -/
theorem ImportShape.match?_eq_none {run : Text} {c : Char} (hrun : ∀ d ∈ run, d ≠ '\x7b' ∧ isQuote d = false)
    (hc : isLoose c = false) (hbrace : c ≠ '\x7b') (hquote : isQuote c = false) (rest : Text) :
    ImportShape.match? (run ++ c :: rest) = none := by
  refine Option.eq_none_iff_forall_ne_some.2 fun shape hshape => ?_
  obtain ⟨quote, quoted, -, ⟨pre, htext, hpre⟩, hquoted, -, -⟩ :=
    ImportShape.exists_quote_of_match? hshape
  have hloose : isLoose quote = false := by
    simp only [isQuote, Bool.or_eq_true, decide_eq_true_eq] at hquoted
    rcases hquoted with rfl | rfl <;> decide
  -- the first character that is not loose would have to be a brace or a quote
  have hfirst {d : Char} (h : (pre.dropWhile isLoose ++ quote :: quoted).head? = some d) :
      d = '\x7b' ∨ isQuote d = true := by
    cases htail : pre.dropWhile isLoose with
    | nil =>
      rw [htail] at h
      exact .inr (Option.some.inj h ▸ hquoted)
    | cons e tail =>
      rw [htail] at h
      exact hpre d (htail ▸ h)
  have hdrop := congrArg (List.dropWhile isLoose) htext
  rw [dropWhile_append_mark hloose, dropWhile_append_mark hc] at hdrop
  rw [← hdrop] at hfirst
  cases htail : run.dropWhile isLoose with
  | nil =>
    rw [htail] at hfirst
    exact (hfirst rfl).elim hbrace (by simp [hquote])
  | cons d tail =>
    rw [htail] at hfirst
    obtain ⟨hd, hd'⟩ := hrun d ((List.dropWhile_sublist isLoose).subset (htail ▸ List.mem_cons_self))
    exact (hfirst rfl).elim hd (by simp [hd'])

end Ends

/-! ## Reading a statement -/

theorem Specifier.takeWhile_append (specifier : Specifier) (quote : Quote) (rest : Text) :
    (specifier.text ++ quote.1 :: rest).takeWhile (fun c => !isQuote c) = specifier.text :=
  takeWhile_append_of_ends (fun c hc => by rw [specifier.isQuote_of_mem c hc]; rfl)
    (ends_cons.2 (by rw [quote.2]; rfl))

theorem Declaration.fromClause?_origin (decl : Declaration) (rest : Text) :
    fromClause? (decl.origin ++ rest) = some (decl.specifier.text, rest) := by
  obtain ⟨quoted, hquoted⟩ : ∃ quoted, quoted =
    decl.quote.1 :: (decl.specifier.text ++ decl.quote.1 :: rest) := ⟨_, rfl⟩
  have hsplit : decl.origin ++ rest =
      decl.gap.1 ++ ("from".toList ++ (decl.gap'.1 ++ quoted)) := by
    simp only [origin, hquoted, List.append_assoc, List.cons_append, List.nil_append]
  have hgap : (decl.origin ++ rest).dropWhile isBlank = "from".toList ++ (decl.gap'.1 ++ quoted) := by
    rw [hsplit]
    exact dropWhile_append_of_ends decl.gap.2 (ends_cons.2 (by decide))
  have hblank : isBlank decl.quote.1 = false := by
    have hquote := decl.quote.2
    simp only [isQuote, Bool.or_eq_true, decide_eq_true_eq] at hquote
    rcases hquote with h | h <;> rw [h] <;> decide
  have hgap' : (decl.gap'.1 ++ quoted).dropWhile isBlank = quoted :=
    dropWhile_append_of_ends decl.gap'.2 (hquoted ▸ ends_cons.2 hblank)
  rw [fromClause?, hgap, afterWord?_append, Option.bind_eq_bind, Option.bind_some, hgap', hquoted]
  dsimp only
  rw [decl.specifier.takeWhile_append, List.drop_left, if_neg (by rw [decl.quote.2]; decide),
    if_neg (by simpa using decl.specifier.ne_nil)]
  rfl

/-- What stands behind a clause does not go on with a character of a name where the clause ends with
one. -/
theorem Declaration.ends_isNameChar (decl : Declaration) (rest : Text) (h : decl.clause.EndsWithName) :
    Ends isNameChar (decl.origin ++ rest) := by
  rw [origin, List.append_assoc]
  refine ends_append_of_ne_nil (decl.ne_nil_of_endsWithName h) (fun c hc => ?_) _
  by_contra hname
  have hblank := decl.gap.2 c hc
  rw [isBlank_of_isNameChar (by simpa using hname)] at hblank
  cases hblank

/-- A written statement is read as what it says, whatever follows. -/
theorem Declaration.match?_text (decl : Declaration) (rest : Text) :
    ImportShape.match? (decl.text ++ rest) = some decl.shape := by
  obtain ⟨clause, hclause⟩ : ∃ clause, clause = decl.clause.text ++ (decl.origin ++ rest) := ⟨_, rfl⟩
  have hends := decl.clause.ends_isBlank (decl.origin ++ rest)
  have hread := decl.clause.clause?_text (decl.ends_isNameChar rest) (decl.fromClause?_origin rest)
  have hword := decl.clause.takeWhile_not_mem_keywords (decl.ends_isNameChar rest)
  rw [← hclause] at hends hread hword
  have hlength : (decl.text ++ rest).length - rest.length = decl.text.length := by
    rw [List.length_append, Nat.add_sub_cancel]
  cases hmodifier : decl.modifier with
  | none =>
    have hsplit : decl.text ++ rest = "import".toList ++ (decl.lead.1 ++ clause) := by
      simp only [text, hmodifier, hclause, Option.elim_none, List.nil_append, List.append_assoc]
      rfl
    have hnone : (afterWord? "type".toList clause).bind blanks? = none := by
      refine Option.eq_none_iff_forall_ne_some.2 fun behind hbehind => hword ?_
      rw [Option.bind_eq_some_iff] at hbehind
      simp only [afterWord?_eq_some_iff] at hbehind
      obtain ⟨blank, rfl, hblank⟩ := hbehind
      -- the clause would begin with the word itself
      have hgoes : Ends isNameChar blank := by
        cases blank with
        | nil => cases hblank
        | cons c blank =>
          rw [blanks?, Option.ite_none_right_eq_some] at hblank
          refine ends_cons.2 ?_
          by_contra hname
          cases (isBlank_of_isNameChar (by simpa using hname)).symm.trans hblank.1
      rw [takeWhile_append_of_ends (List.all_eq_true.1 (by decide)) hgoes]
      decide
    rw [ImportShape.match?_eq, hsplit, afterWord?_append, Option.bind_some,
      decl.lead.blanks?_append hends, Option.bind_some, hnone, Option.bind_none, Option.none_or, hread,
      Option.map_some, ← hsplit, hlength]
    rfl
  | some space =>
    have hsplit : decl.text ++ rest =
        "import".toList ++ (decl.lead.1 ++ ("type".toList ++ (space.1 ++ clause))) := by
      simp only [text, hmodifier, hclause, Option.elim_some, List.append_assoc]
      rfl
    have htype : Ends isBlank ("type".toList ++ (space.1 ++ clause)) := ends_cons.2 (by decide)
    rw [ImportShape.match?_eq, hsplit, afterWord?_append, Option.bind_some,
      decl.lead.blanks?_append htype, Option.bind_some, afterWord?_append,
      Option.bind_some, space.blanks?_append hends, Option.bind_some, hread, Option.some_or,
      Option.map_some, ← hsplit, hlength]
    rfl

/-! ## The walk over comments and literals -/

theorem Clause.isPlain_of_mem (clause : Clause) : ∀ c ∈ clause.text, IsPlain c := by
  intro c hc
  refine ⟨?_, ?_, ?_, ?_⟩ <;> rintro rfl <;>
    exact clause.not_mem_text (by decide) (by decide) (by decide) hc

/-- The text of a statement up to its opening quote. -/
def Declaration.front (decl : Declaration) : Text :=
  importWord ++ (decl.lead.1 ++ ((decl.modifier.elim [] fun space => "type".toList ++ space.1) ++
    (decl.clause.text ++ (decl.gap.1 ++ ("from".toList ++ decl.gap'.1)))))

theorem Declaration.line_eq (decl : Declaration) : decl.line =
    decl.front ++ (decl.quote.1 :: ((decl.specifier.text ++ [decl.quote.1]) ++ [';', '\n'])) := by
  simp only [line, text, origin, front, List.append_assoc, List.cons_append, List.nil_append]

theorem Declaration.isPlain_of_mem_front (decl : Declaration) : ∀ c ∈ decl.front, IsPlain c := by
  have hword {word : Text} (h : word.all (IsPlain ·) = true) : ∀ c ∈ word, IsPlain c :=
    List.all_iff_forall_prop.1 h
  have hspace {blanks : Text} (h : ∀ c ∈ blanks, isBlank c = true) : ∀ c ∈ blanks, IsPlain c :=
    fun c hc => isPlain_of_isBlank (h c hc)
  have hmodifier : ∀ c ∈ decl.modifier.elim [] (fun space => "type".toList ++ space.1), IsPlain c := by
    cases decl.modifier with
    | none => exact nofun
    | some space => exact List.forall_mem_append.2 ⟨hword (by decide), hspace space.2.2⟩
  simp only [front, List.forall_mem_append]
  exact ⟨hword (by decide), hspace decl.lead.2.2, hmodifier, decl.clause.isPlain_of_mem,
    hspace decl.gap.2, hword (by decide), hspace decl.gap'.2⟩

/-- A specifier is a literal that ends with its closing quote. -/
theorem Specifier.literalLength_append (specifier : Specifier) (quote : Quote) (rest : Text) :
    literalLength quote.1 (specifier.text ++ quote.1 :: rest) = specifier.text.length + 1 := by
  have hbackslash : quote.1 ≠ '\\' := fun h => by cases h ▸ quote.2
  obtain ⟨text, hne, hquote, hslash, hline⟩ := specifier
  dsimp only
  clear hne
  induction text with
  | nil =>
    rw [List.nil_append, literalLength_cons hbackslash, if_pos rfl]
    rfl
  | cons c text ih =>
    obtain ⟨hc, hquote⟩ := List.forall_mem_cons.1 hquote
    obtain ⟨hc', hslash⟩ := not_or.1 (mt List.mem_cons.2 hslash)
    obtain ⟨hc'', hline⟩ := not_or.1 (mt List.mem_cons.2 hline)
    have hother : c ≠ quote.1 := fun h => by cases (h ▸ hc).symm.trans quote.2
    rw [List.cons_append, literalLength_cons (Ne.symm hc'), if_neg hother,
      if_neg fun h => hc'' h.1.symm, ih hquote hslash hline]
    rfl

/-- The walk over comments and literals comes through a statement. -/
theorem Declaration.scans_line (decl : Declaration) (before rest : Text) :
    Scans before decl.line rest := by
  have htoken : tokenTail? (decl.front.reverse ++ before) decl.quote.1
      ((decl.specifier.text ++ [decl.quote.1]) ++ ([';', '\n'] ++ rest)) =
        some (decl.specifier.text ++ [decl.quote.1]).length := by
    have hquote : decl.quote.1 = '\x27' ∨ decl.quote.1 = '\x22' := by
      simpa [isQuote] using decl.quote.2
    have hslash : decl.quote.1 ≠ '/' := by rcases hquote with h | h <;> rw [h] <;> decide
    rw [tokenTail?, if_neg fun h => hslash h.1, if_neg fun h => hslash h.1,
      if_pos (hquote.imp_right Or.inl), List.append_assoc, List.singleton_append,
      decl.specifier.literalLength_append, List.length_append]
    rfl
  rw [decl.line_eq]
  exact (scans_of_isPlain decl.isPlain_of_mem_front).append
    (.token htoken (scans_of_isPlain (List.all_iff_forall_prop.1 (by decide))))

/-! ## All statements of a text -/

/-- Nothing can be read behind a statement until the next one begins. -/
theorem match?_eq_none_of_head? {text : Text} (h : text.head? ≠ some 'i') :
    ImportShape.match? text = none := by
  have hnone : afterWord? "import".toList text = none :=
    Option.eq_none_iff_forall_ne_some.2 fun rest hrest => h (afterWord?_eq_some_iff.1 hrest ▸ rfl)
  rw [ImportShape.match?_eq, hnone]
  rfl

/-- A statement is found at its offset, and the search goes on behind it and its line end. -/
theorem Declaration.allFrom_line (decl : Declaration) (offset : Nat) (rest : Text) :
    ImportShape.allFrom offset (decl.line ++ rest) =
      (offset, decl.shape) :: ImportShape.allFrom (offset + decl.line.length) rest := by
  have hnone : ∀ first more, [';', '\n'] = first ++ more → more ≠ [] →
      ImportShape.match? (more ++ rest) = none := by
    intro first more heq hmore
    refine match?_eq_none_of_head? fun h => ?_
    rw [List.head?_append_of_ne_nil _ hmore] at h
    have hin : 'i' ∈ [';', '\n'] := heq ▸ List.mem_append_right first (List.mem_of_head? h)
    exact absurd hin (by decide)
  have hline : decl.line.length = decl.text.length + [';', '\n'].length := List.length_append
  rw [ImportShape.allFrom_eq, ImportShape.allFrom_eq, hline, ← Nat.add_assoc, line, List.append_assoc,
    findFrom_of_read? ImportShape.reads (decl.match?_text _), shape, List.drop_left,
    findFrom_append hnone]

/-- The statements of a text that do not begin within a comment or a literal are those that were
written. -/
theorem statements_sourceOf {front : Text} (hfront : ∀ rest, Scans [] front rest)
    (decls : List Declaration) :
    ((ImportShape.allFrom front.length (sourceOf decls)).filter fun (start, _) =>
        !inRanges start (ignoredRanges (front ++ sourceOf decls))).map Prod.snd =
      decls.map Declaration.shape := by
  -- the walk has come through the statements that were taken off, which stand in the front
  induction decls generalizing front with
  | nil => simp [sourceOf, ImportShape.allFrom]
  | cons decl decls ih =>
    have hkept : inRanges front.length (ignoredRanges (front ++ sourceOf (decl :: decls))) = false :=
      inRanges_of_scans (hfront _) (by decide : IsPlain 'i')
    have hnext : ∀ rest, Scans [] (front ++ decl.line) rest := fun rest =>
      (hfront _).append (decl.scans_line _ rest)
    have hrest := ih hnext
    rw [List.append_assoc, List.length_append] at hrest
    rw [sourceOf, List.flatMap_cons] at hkept ⊢
    rw [decl.allFrom_line, List.filter_cons_of_pos, List.map_cons, List.map_cons]
    · exact congrArg _ hrest
    · dsimp only
      rw [hkept]
      rfl

/-- What a statement says of a name: its specifier, if it binds the name. -/
theorem Declaration.find?_pairs (decl : Declaration) (name : String) :
    ((decl.clause.bound.map fun bound =>
        (String.ofList bound, String.ofList decl.specifier.text)).reverse.find? fun pair =>
          pair.1 = name).map Prod.snd =
      (Option.guard (fun decl => name ∈ decl.clause.bound.map String.ofList) decl).map
        fun decl => String.ofList decl.specifier.text := by
  generalize hpairs : (decl.clause.bound.map fun bound =>
    (String.ofList bound, String.ofList decl.specifier.text)).reverse = pairs
  have hmem {pair : String × String} : pair ∈ pairs ↔ ∃ bound ∈ decl.clause.bound,
      (String.ofList bound, String.ofList decl.specifier.text) = pair := by
    rw [← hpairs, List.mem_reverse, List.mem_map]
  by_cases hname : name ∈ decl.clause.bound.map String.ofList
  · obtain ⟨bound, hbound, rfl⟩ := List.mem_map.1 hname
    have hguard : Option.guard (fun decl : Declaration =>
        decide (String.ofList bound ∈ decl.clause.bound.map String.ofList)) decl = some decl :=
      if_pos (decide_eq_true hname)
    rw [hguard]
    -- a pair is found, and all pairs of a statement have its specifier
    cases hfind : pairs.find? fun pair => pair.1 = String.ofList bound with
    | none =>
      exact absurd (decide_eq_true rfl) (List.find?_eq_none.1 hfind _ (hmem.2 ⟨bound, hbound, rfl⟩))
    | some pair =>
      obtain ⟨other, -, rfl⟩ := hmem.1 (List.mem_of_find?_eq_some hfind)
      rfl
  · have hguard : Option.guard (fun decl : Declaration =>
        decide (name ∈ decl.clause.bound.map String.ofList)) decl = none :=
      if_neg (by simpa using hname)
    rw [hguard, List.find?_eq_none.2]
    · rfl
    · rintro pair hpair
      obtain ⟨bound, hbound, rfl⟩ := hmem.1 hpair
      rw [decide_eq_true_eq]
      exact fun h => hname (List.mem_map.2 ⟨bound, hbound, h⟩)

/-- What is read from a text whose statements are known. -/
theorem parseImports_eq {code : Text} {shapes : List ImportShape}
    (h : ((ImportShape.allFrom 0 code).filter fun (start, _) =>
      !inRanges start (ignoredRanges code)).map Prod.snd = shapes) :
    parseImports code = .ofList (shapes.flatMap fun shape => (localNames shape.clause).map fun name =>
      (String.ofList name, String.ofList shape.specifier)) := by
  rw [← h, List.flatMap_map]
  rfl

/-- **Written import statements.** From a text of import statements every name gets the specifier of the
last of them that binds it, and a name that none binds gets none. -/
theorem get?_parseImports_sourceOf (decls : List Declaration) (name : String) :
    (parseImports (sourceOf decls)).get? name =
      (decls.reverse.find? fun decl => name ∈ decl.clause.bound.map String.ofList).map
        fun decl => String.ofList decl.specifier.text := by
  have hnone : ∀ rest, Scans [] [] rest := fun _ => .done
  have hstatements := statements_sourceOf hnone decls
  rw [List.length_nil, List.nil_append] at hstatements
  have hpairs : parseImports (sourceOf decls) = .ofList (decls.flatMap fun decl =>
      decl.clause.bound.map fun bound => (String.ofList bound, String.ofList decl.specifier.text)) := by
    rw [parseImports_eq hstatements, List.flatMap_map]
    refine congrArg (fun pairs => Table.ofList (decls.flatMap pairs)) (funext fun decl => ?_)
    rw [← decl.clause.localNames_text]
    rfl
  rw [hpairs, Table.get?_ofList, List.reverse_flatMap, List.find?_flatMap, List.map_findSome?,
    List.find?_eq_findSome?_guard, List.map_findSome?]
  exact congrArg (List.findSome? · decls.reverse) (funext fun decl => decl.find?_pairs name)

end PersistedQueries.CallSite
