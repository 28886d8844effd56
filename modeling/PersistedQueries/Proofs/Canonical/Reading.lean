import PersistedQueries.Proofs.Canonical.Fixpoint
import PersistedQueries.Proofs.Printing.Definitions
import PersistedQueries.Proofs.Printing.Flattening

/-!
# Canonical texts are read back

A document that comes from a text can be read, and so can what sorting and the names of types make of
it. Its canonical text therefore is a document again, the same one but for white space in strings and
for places.

- `IsReadable`: a definition that a text can have. `readable_of_parse`: what is parsed is readable.
- `Overlooks`: something is looked for among tokens that canonicalizing neither adds nor drops.
  `Overlooks.of_parse`, `Overlooks.addTypename`, `perm_sortDocument`: the same is found among the
  tokens of a text, of its document, and of the document with the names of types, and in canonical
  order it is found in another order.
- `parse_canonicalText`: the document of a canonical text.
-/

namespace PersistedQueries.GraphQL

open PersistedQueries.GraphQL.Parser

variable {β : Type} {look? : Token → Option β} {document : Document} {isConst : Bool} {levels : Nat}

/-! ## Documents that are read -/

/-- A definition that is spelled without places can be read. -/
theorem fits_of_spells {d : Definition} {tokens : List Token} (h : SpellsDefinition d tokens) :
    d.Fits := by
  cases d with
  | operation op => exact h.1
  | fragment frag => exact h.1
  | system definition =>
    obtain ⟨-, h⟩ := h
    cases definition with
    | schema | extendSchema | directive => exact h.1
    | type definition =>
      obtain ⟨_, ⟨hfits, -⟩, -⟩ := h
      exact hfits
    | extendType addition =>
      obtain ⟨hnote, hadds, _, ⟨hfits, -⟩, -⟩ := h
      exact ⟨hfits, hnote, hadds⟩

theorem spellsListed_tokens (lead : Token) (separator : Punctuator) (names : List String) :
    SpellsListed lead separator names (tokensOfListed lead separator names) := by
  unfold tokensOfListed
  split
  · next hnil => exact .inr ⟨hnil, rfl⟩
  · next hne => exact .inl ⟨_, ⟨hne, fun _ _ => trivial, .inl rfl⟩, rfl⟩

theorem spellsType_tokens {type : TypeDefinition} (h : type.Fits) : SpellsType type
    (.name type.name :: tokensOfListed (.name "implements") .amp type.body.interfaces ++
      tokensOfDirectives type.directives ++ type.body.tokens) := by
  refine ⟨h, _, type.body.tokens, spellsListed_tokens _ _ _, ?_, rfl⟩
  cases type.body with
  | union members => exact spellsListed_tokens _ _ _
  | scalar | object | interface | enum | input => rfl

/-- A definition without places that can be read is spelled by its tokens. -/
theorem spells_of_fits {d : Definition} (hfits : d.Fits) (hplaced : d.unplaced = d) :
    SpellsDefinition d d.tokens := by
  cases d with
  | operation op => exact ⟨hfits, .inl rfl⟩
  | fragment frag => exact ⟨hfits, rfl⟩
  | system definition =>
    refine ⟨Definition.system.inj hplaced, ?_⟩
    cases definition with
    | schema | extendSchema => exact ⟨hfits, rfl⟩
    | type definition => exact ⟨_, spellsType_tokens hfits, rfl⟩
    | directive definition =>
      exact ⟨hfits, _, ⟨hfits.ne_nil, hfits.locations, .inl rfl⟩, rfl⟩
    | extendType addition =>
      obtain ⟨hfits, hnote, hadds⟩ := hfits
      exact ⟨hnote, hadds, _, spellsType_tokens hfits, rfl⟩

/-- No definition begins with what could continue one of a schema. -/
theorem head?_tokens_definition (d : Definition) :
    ∀ token, d.tokens.head? = some token → token ∉ typeStops := by
  have hstring : ∀ note : Description, stringToken note.content note.isBlock ∉ typeStops := by
    intro note
    cases hblock : note.isBlock <;> simp [stringToken, typeStops]
  have hdescribed : ∀ (description : Option Description) (word : String) (more : List Token),
      word ≠ "implements" → ∀ token,
        (tokensOfDescription description ++ .name word :: more).head? = some token →
          token ∉ typeStops := by
    intro description word more hword token htoken
    cases description with
    | none =>
      obtain rfl : Token.name word = token := Option.some.inj htoken
      simpa [typeStops] using hword
    | some note =>
      obtain rfl : stringToken note.content note.isBlock = token := Option.some.inj htoken
      exact hstring note
  intro token htoken
  cases d with
  | operation op =>
    simp only [Definition.tokens, Operation.tokens, List.append_assoc, List.cons_append] at htoken
    exact hdescribed _ _ _ (by cases op.kind <;> decide) token htoken
  | fragment frag =>
    simp only [Definition.tokens, Fragment.tokens, List.append_assoc, List.cons_append] at htoken
    exact hdescribed _ _ _ (by decide) token htoken
  | system definition =>
    cases definition with
    | schema description notes roots =>
      simp only [Definition.tokens, SystemDefinition.tokens, List.append_assoc,
        List.cons_append] at htoken
      exact hdescribed _ _ _ (by decide) token htoken
    | type definition =>
      exact hdescribed _ _ _ (by cases definition.body <;> simp [TypeBody.word]) token htoken
    | directive definition =>
      simp only [Definition.tokens, SystemDefinition.tokens, DirectiveDefinition.tokens,
        List.append_assoc, List.cons_append] at htoken
      exact hdescribed _ _ _ (by decide) token htoken
    | extendSchema notes roots => exact hdescribed none "extend" _ (by decide) token htoken
    | extendType addition => exact hdescribed none "extend" _ (by decide) token htoken

/-- A document without places that can be read is spelled by its tokens. -/
theorem spellsDocument_of_fits (h : ∀ d ∈ document, d.Fits ∧ d.unplaced = d) :
    SpellsDocument document (document.flatMap Definition.tokens) := by
  induction document with
  | nil => exact .nil
  | cons d document ih =>
    obtain ⟨⟨hfits, hplaced⟩, hmore⟩ := List.forall_mem_cons.1 h
    rw [List.flatMap_cons]
    refine .cons (spells_of_fits hfits hplaced) (ih hmore) (.inr fun token htoken => ?_)
    cases document with
    | nil => cases htoken
    | cons next document =>
      obtain ⟨first, more, hfirst⟩ := List.exists_cons_of_ne_nil (tokens_definition_ne_nil next)
      refine head?_tokens_definition next token ?_
      rw [List.flatMap_cons, hfirst] at htoken
      rw [hfirst]
      exact htoken

/-- A definition that a text can have. -/
structure IsReadable (d : Definition) : Prop where
  fits : d.Fits
  lexical : AreLexical d.tokens

/-- **The canonical text of a document** that a text can have is that document, but for white space in
strings and for places. -/
theorem parse_canonicalText (hne : document ≠ []) (h : ∀ d ∈ document, IsReadable d) :
    ∃ document', document'.map Definition.unplaced = document.map Definition.flat ∧
      parse (canonicalText document) = .ok document' := by
  have htokens := lexemes_canonicalText (fun d hd => (h d hd).fits) (by
    intro token htoken
    obtain ⟨d, hd, htoken⟩ := List.mem_flatMap.1 htoken
    exact (h d hd).lexical token htoken)
  rw [← flatMap_tokens_map fun d _ => tokens_flat_definition d] at htokens
  refine parse_complete htokens (by simpa using hne) (spellsDocument_of_fits ?_)
  exact List.forall_mem_map.2 fun d hd =>
    ⟨fits_flat_definition (h d hd).fits, unplaced_flat d⟩

/-! ## What is looked for among tokens -/

/-- Something is looked for that is neither a punctuator nor a word that canonicalizing adds. -/
structure Overlooks (look? : Token → Option β) : Prop where
  punct : ∀ p, look? (.punct p) = none
  query : look? (.name "query") = none
  typename : look? (.name "__typename") = none

theorem Overlooks.enclosed (h : Overlooks look?) (opening closing : Punctuator)
    (tokens : List Token) :
    (enclosed opening closing tokens).filterMap look? = tokens.filterMap look? := by
  unfold GraphQL.enclosed
  split
  · next hnil => rw [hnil]
  · simp [h.punct]

/-- What changes part by part without a change to what is found in a part has the same found in it. -/
theorem filterMap_flatMap_congr {α : Type} {change : α → α} {spelling : α → List Token}
    {items : List α}
    (h : ∀ a ∈ items, (spelling (change a)).filterMap look? = (spelling a).filterMap look?) :
    ((items.map change).flatMap spelling).filterMap look? =
      (items.flatMap spelling).filterMap look? := by
  rw [List.flatMap_map, List.filterMap_flatMap, List.filterMap_flatMap]
  exact List.flatMap_congr h

theorem Overlooks.names (h : Overlooks look?) {separator : Punctuator} {Fits : String → Prop}
    {names : List String} {tokens : List Token} (hspells : SpellsNames separator Fits names tokens) :
    tokens.filterMap look? = (tokensOfNames separator names).filterMap look? := by
  obtain ⟨-, -, rfl | rfl⟩ := hspells
  · rfl
  · rw [List.filterMap_cons_none (h.punct separator)]

theorem Overlooks.listed (h : Overlooks look?) {lead : Token} {separator : Punctuator}
    {names : List String} {tokens : List Token} (hspells : SpellsListed lead separator names tokens) :
    tokens.filterMap look? = (tokensOfListed lead separator names).filterMap look? := by
  obtain ⟨back, hback, rfl⟩ | ⟨rfl, rfl⟩ := hspells
  · have hnames := h.names hback
    rw [tokensOfListed, if_neg hback.1, List.filterMap_cons, List.filterMap_cons, hnames]
  · rfl

theorem Overlooks.type (h : Overlooks look?) {type : TypeDefinition} {back : List Token}
    (hspells : SpellsType type back) :
    (Token.name type.body.word :: back).filterMap look? = type.tokens.filterMap look? := by
  obtain ⟨-, front, back, hfront, hback, rfl⟩ := hspells
  have hbody : back.filterMap look? = type.body.tokens.filterMap look? := by
    cases hbody : type.body with
    | union members =>
      rw [hbody] at hback
      exact h.listed hback
    | scalar | object | interface | enum | input =>
      rw [hbody] at hback
      rw [hback]
  simp only [TypeDefinition.tokens, List.cons_append, List.filterMap_cons, List.filterMap_append,
    h.listed hfront, hbody]

/-- The same is found in what spells a definition and in its tokens. -/
theorem Overlooks.definition (h : Overlooks look?) {d : Definition} {tokens : List Token}
    (hspells : SpellsDefinition d tokens) :
    tokens.filterMap look? = d.tokens.filterMap look? := by
  cases d with
  | operation op =>
    obtain ⟨-, rfl | ⟨hshort, rfl⟩⟩ := hspells
    · rfl
    · rw [hshort]
      simp [Definition.tokens, Operation.tokens, tokensOfDescription, tokensOfDirectives,
        OperationKind.word, h.query]
  | fragment frag =>
    obtain ⟨-, rfl⟩ := hspells
    rfl
  | system definition =>
    obtain ⟨-, hspells⟩ := hspells
    cases definition with
    | schema | extendSchema =>
      obtain ⟨-, rfl⟩ := hspells
      rfl
    | type definition =>
      obtain ⟨back, hback, rfl⟩ := hspells
      simp only [Definition.tokens, SystemDefinition.tokens, List.filterMap_append, h.type hback]
    | directive definition =>
      obtain ⟨-, back, hback, rfl⟩ := hspells
      simp only [Definition.tokens, SystemDefinition.tokens, DirectiveDefinition.tokens,
        List.filterMap_append, List.filterMap_cons, h.names hback]
    | extendType addition =>
      obtain ⟨-, -, back, hback, rfl⟩ := hspells
      simp only [Definition.tokens, SystemDefinition.tokens, List.filterMap_cons]
      rw [← h.type hback, List.filterMap_cons]

/-- The same is found in a text and in its document. -/
theorem Overlooks.of_parse (h : Overlooks look?) {text : Text} (hparse : parse text = .ok document) :
    ∃ tokens, lexemes text = some tokens ∧
      tokens.filterMap look? = (document.flatMap Definition.tokens).filterMap look? := by
  obtain ⟨tokens, htokens, -, heach⟩ := parse_sound hparse
  refine ⟨tokens, htokens, ?_⟩
  rw [← flatMap_tokens_congr tokens_unplaced_definition]
  clear htokens hparse
  generalize document.map Definition.unplaced = plain at heach
  induction heach with
  | nil => rfl
  | cons hfirst _ ih =>
    rw [List.filterMap_append, ih, h.definition hfirst, List.flatMap_cons, List.filterMap_append]

/-! ### Tokens that a text can have -/

/-- A token that no text has. -/
noncomputable def misspelled? (token : Token) : Option Token :=
  open Classical in if token.Lexical then none else some token

theorem areLexical_iff {tokens : List Token} :
    AreLexical tokens ↔ tokens.filterMap misspelled? = [] := by
  rw [List.filterMap_eq_nil_iff]
  refine forall₂_congr fun token _ => ?_
  unfold misspelled?
  split <;> simp_all

theorem overlooks_misspelled? : Overlooks misspelled? where
  punct p := if_pos trivial
  query := if_pos ⟨'q', "uery".toList, rfl, by decide, List.all_eq_true.1 (by decide)⟩
  typename := if_pos ⟨'_', "_typename".toList, rfl, by decide, List.all_eq_true.1 (by decide)⟩

/-- What is parsed is readable. -/
theorem readable_of_parse {text : Text} (h : parse text = .ok document) :
    document ≠ [] ∧ ∀ d ∈ document, IsReadable d := by
  obtain ⟨tokens, htokens, hne, heach⟩ := parse_sound h
  obtain ⟨_, htokens', hfound⟩ := overlooks_misspelled?.of_parse h
  obtain rfl := Option.some.inj (htokens.symm.trans htokens')
  have hlexical : AreLexical (document.flatMap Definition.tokens) := by
    rw [areLexical_iff, ← hfound, ← areLexical_iff]
    exact lexical_of_lexemes htokens
  have hfits : ∀ {plain : Document} {tokens : List Token}, Each SpellsDefinition plain tokens →
      ∀ d ∈ plain, d.Fits := by
    intro plain tokens heach
    induction heach with
    | nil => simp
    | cons hfirst _ ih => exact List.forall_mem_cons.2 ⟨fits_of_spells hfirst, ih⟩
  refine ⟨hne, fun d hd => ⟨?_, fun token htoken => ?_⟩⟩
  · exact fits_unplaced_definition.1 (hfits heach _ (List.mem_map_of_mem hd))
  · exact hlexical token (List.mem_flatMap.2 ⟨d, hd, htoken⟩)

/-! ## The names of types -/

theorem fits_typenameField : typenameField.Fits levels :=
  .field (by simp) (by simp) (fun h => absurd rfl h) (by simp)

theorem withTypename_ne_nil {selections : List Selection} (h : selections ≠ []) :
    withTypename selections ≠ [] := by
  unfold withTypename
  split <;> simp [h]

/-- A selection that can be read can be read with the names of types. -/
theorem fits_addTypenameTo {selection : Selection} (h : selection.Fits levels) :
    (addTypenameTo selection).Fits levels := by
  induction h with
  | @field levels label name given notes below hgiven hnotes hlevels _ ih =>
    have heach : ∀ selection ∈ addTypenameToEach below, selection.Fits (levels - 1) := by
      rw [addTypenameToEach_eq_map]
      exact List.forall_mem_map.2 ih
    rw [addTypenameTo]
    refine .field hgiven hnotes (fun hne => hlevels fun hnil => hne ?_) ?_
    · rw [hnil]
      rfl
    · split
      · exact heach
      · exact forall_mem_withTypename fits_typenameField heach
  | spread hname hnotes => exact .spread hname hnotes
  | inline hnotes hlevels hne _ ih =>
    rw [addTypenameTo]
    refine .inline hnotes hlevels (withTypename_ne_nil ?_)
      (forall_mem_withTypename fits_typenameField ?_)
    · simpa [addTypenameToEach_eq_map] using hne
    · rw [addTypenameToEach_eq_map]
      exact List.forall_mem_map.2 ih

theorem SelectionSetFits.addTypenameToEach {selections : List Selection}
    (h : SelectionSetFits levels selections) :
    SelectionSetFits levels (addTypenameToEach selections) where
  ne_nil := by simpa [addTypenameToEach_eq_map] using h.ne_nil
  levels_pos := h.levels_pos
  each := by
    rw [addTypenameToEach_eq_map]
    exact List.forall_mem_map.2 fun selection hselection =>
      fits_addTypenameTo (h.each selection hselection)

theorem SelectionSetFits.withTypename {selections : List Selection}
    (h : SelectionSetFits levels selections) : SelectionSetFits levels (withTypename selections) where
  ne_nil := withTypename_ne_nil h.ne_nil
  levels_pos := h.levels_pos
  each := forall_mem_withTypename fits_typenameField h.each

theorem fits_addTypenameToDefinition {d : Definition} (h : d.Fits) :
    (addTypenameToDefinition d).Fits := by
  cases d with
  | operation op => exact ⟨h.parameters, h.directives, h.selections.addTypenameToEach⟩
  | fragment frag => exact ⟨h.name_ne, h.directives, h.selections.addTypenameToEach.withTypename⟩
  | system definition => exact h

theorem Overlooks.withTypename (h : Overlooks look?) (selections : List Selection) :
    (tokensOfSelections (withTypename selections)).filterMap look? =
      (tokensOfSelections selections).filterMap look? := by
  have htypename : typenameField.tokens = [.name "__typename"] := rfl
  rw [tokensOfSelections, tokensOfSelections, h.enclosed, h.enclosed, GraphQL.withTypename]
  split
  · rfl
  · simp [htypename, h.typename]

mutual

/-- The names of types are overlooked. -/
theorem Overlooks.addTypenameTo (h : Overlooks look?) : (selection : Selection) →
    (addTypenameTo selection).tokens.filterMap look? = selection.tokens.filterMap look?
  | .field label name given notes below => by
    have hbelow := h.addTypenameToEach below
    have hwith := h.withTypename (GraphQL.addTypenameToEach below)
    simp only [tokensOfSelections, h.enclosed] at hwith
    rw [GraphQL.addTypenameTo]
    simp only [Selection.tokens, tokensOfEach_eq, List.filterMap_append, h.enclosed]
    split
    · rw [hbelow]
    · rw [hwith, hbelow]
  | .spread name notes => rfl
  | .inline condition notes below => by
    have hbelow := h.addTypenameToEach below
    have hwith := h.withTypename (GraphQL.addTypenameToEach below)
    simp only [tokensOfSelections, h.enclosed] at hwith
    rw [GraphQL.addTypenameTo]
    simp only [Selection.tokens, tokensOfEach_eq, List.filterMap_append, h.enclosed, hwith, hbelow]

theorem Overlooks.addTypenameToEach (h : Overlooks look?) : (selections : List Selection) →
    ((addTypenameToEach selections).flatMap Selection.tokens).filterMap look? =
      (selections.flatMap Selection.tokens).filterMap look?
  | [] => rfl
  | selection :: rest => by
    rw [GraphQL.addTypenameToEach, List.flatMap_cons, List.filterMap_append,
      h.addTypenameTo selection, h.addTypenameToEach rest, List.flatMap_cons, List.filterMap_append]

end

theorem Overlooks.addTypenameToDefinition (h : Overlooks look?) (d : Definition) :
    (addTypenameToDefinition d).tokens.filterMap look? = d.tokens.filterMap look? := by
  cases d with
  | operation op =>
    have heach := h.addTypenameToEach op.selections
    simp only [GraphQL.addTypenameToDefinition, Definition.tokens, Operation.tokens,
      List.filterMap_append, tokensOfSelections, h.enclosed, heach]
  | fragment frag =>
    have heach := h.addTypenameToEach frag.selections
    have hwith := h.withTypename (GraphQL.addTypenameToEach frag.selections)
    simp only [tokensOfSelections, h.enclosed, heach] at hwith
    simp only [GraphQL.addTypenameToDefinition, Definition.tokens, Fragment.tokens,
      List.filterMap_append, tokensOfSelections, h.enclosed, hwith]
  | system definition => rfl

/-- The same is found in a document with the names of types. -/
theorem Overlooks.addTypename (h : Overlooks look?) (document : Document) :
    ((addTypename document).flatMap Definition.tokens).filterMap look? =
      (document.flatMap Definition.tokens).filterMap look? :=
  filterMap_flatMap_congr fun d _ => h.addTypenameToDefinition d

theorem IsReadable.addTypename {d : Definition} (h : IsReadable d) :
    IsReadable (addTypenameToDefinition d) where
  fits := fits_addTypenameToDefinition h.fits
  lexical := by
    rw [areLexical_iff, overlooks_misspelled?.addTypenameToDefinition, ← areLexical_iff]
    exact h.lexical

/-! ## Canonical order -/

theorem perm_enclosed {tokens others : List Token} (h : tokens.Perm others)
    (opening closing : Punctuator) :
    (enclosed opening closing tokens).Perm (enclosed opening closing others) := by
  unfold enclosed
  by_cases hnil : others = []
  · rw [if_pos hnil, if_pos (hnil ▸ h).eq_nil]
  · rw [if_neg hnil, if_neg fun htokens => hnil (htokens ▸ h).nil_eq.symm]
    exact (h.cons _).append_right _

/-- Items that change places, and whose own tokens do, have the same tokens in another order. -/
theorem perm_flatMap_map {α : Type} {change : α → α} {spelling : α → List Token}
    (h : ∀ a, (spelling (change a)).Perm (spelling a)) {items items' : List α}
    (hperm : items'.Perm items) :
    ((items'.map change).flatMap spelling).Perm (items.flatMap spelling) := by
  rw [List.flatMap_map]
  exact (List.Perm.flatMap_left items' fun a _ => h a).trans (hperm.flatMap_right spelling)

theorem perm_sortArguments (given : List Argument) :
    (tokensOfArguments (sortArguments given)).Perm (tokensOfArguments given) :=
  perm_enclosed ((perm_sortOn _ given).flatMap_right _) _ _

theorem perm_sortDirectives (notes : List Directive) :
    (tokensOfDirectives (sortDirectives notes)).Perm (tokensOfDirectives notes) :=
  perm_flatMap_map (fun note => ((perm_sortArguments note.arguments).cons _).cons _)
    (perm_sortOn _ notes)

theorem perm_orderSelections_tokens (keepOrder : Bool) (selections : List Selection) :
    ((orderSelections keepOrder selections).flatMap Selection.tokens).Perm
      (selections.flatMap Selection.tokens) :=
  (perm_orderSelections keepOrder selections).symm.flatMap_right _

mutual

/-- In canonical order the tokens of a selection come in another order. -/
theorem perm_sortSelection (keepOrder : Bool) : (selection : Selection) →
    (sortSelection keepOrder selection).tokens.Perm selection.tokens
  | .field label name given notes below => by
    have hbelow := perm_enclosed ((perm_orderSelections_tokens keepOrder _).trans
      (perm_sortEach keepOrder below)) .braceL .braceR
    simp only [sortSelection, Selection.tokens, tokensOfEach_eq]
    exact (((perm_sortArguments given).append_left _).append (perm_sortDirectives notes)).append
      hbelow
  | .spread name notes => (perm_sortDirectives notes).append_left _
  | .inline condition notes below => by
    have hbelow := perm_enclosed ((perm_orderSelections_tokens keepOrder _).trans
      (perm_sortEach keepOrder below)) .braceL .braceR
    simp only [sortSelection, Selection.tokens, tokensOfEach_eq]
    exact ((perm_sortDirectives notes).append_left _).append hbelow

theorem perm_sortEach (keepOrder : Bool) : (selections : List Selection) →
    ((sortEach keepOrder selections).flatMap Selection.tokens).Perm
      (selections.flatMap Selection.tokens)
  | [] => .rfl
  | selection :: rest => by
    rw [sortEach, List.flatMap_cons, List.flatMap_cons]
    exact (perm_sortSelection keepOrder selection).append (perm_sortEach keepOrder rest)

end

theorem perm_sortSelections (keepOrder : Bool) (selections : List Selection) :
    (tokensOfSelections (sortSelections keepOrder selections)).Perm
      (tokensOfSelections selections) :=
  perm_enclosed ((perm_orderSelections_tokens keepOrder _).trans
    (perm_sortEach keepOrder selections)) _ _

theorem perm_sortDefinition (d : Definition) : (sortDefinition d).tokens.Perm d.tokens := by
  cases d with
  | operation op =>
    have hvariable : ∀ v : VariableDefinition, v.sorted.tokens.Perm v.tokens :=
      fun v => (perm_sortDirectives v.directives).append_left _
    have hparameters := perm_enclosed (perm_flatMap_map hvariable
      (perm_sortOn (fun v => [v.name.toList]) op.parameters)) .parenL .parenR
    exact ((hparameters.append_left _).append (perm_sortDirectives op.directives)).append
      (perm_sortSelections _ op.selections)
  | fragment frag =>
    exact ((perm_sortDirectives frag.directives).append_left _).append
      (perm_sortSelections false frag.selections)
  | system definition => exact .rfl

/-- In canonical order the tokens of a document come in another order. -/
theorem perm_sortDocument (document : Document) :
    ((sortDocument document).flatMap Definition.tokens).Perm (document.flatMap Definition.tokens) := by
  have hsorted := (perm_sortOn definitionKey (document.map sortDefinition)).flatMap_right
    Definition.tokens
  exact hsorted.trans (perm_flatMap_map perm_sortDefinition .rfl)

theorem fits_sortArguments {given : List Argument}
    (h : ∀ argument ∈ given, argument.Fits isConst levels) :
    ∀ argument ∈ sortArguments given, argument.Fits isConst levels :=
  fun argument hargument => h argument ((perm_sortOn _ given).mem_iff.1 hargument)

theorem fits_sortDirectives {notes : List Directive}
    (h : ∀ note ∈ notes, note.Fits isConst levels) :
    ∀ note ∈ sortDirectives notes, note.Fits isConst levels := by
  refine List.forall_mem_map.2 fun note hnote => fits_sortArguments ?_
  exact h note ((perm_sortOn _ notes).mem_iff.1 hnote)

theorem fits_sortSelections {keepOrder : Bool} {selections : List Selection}
    (h : ∀ selection ∈ selections, (sortSelection keepOrder selection).Fits levels) :
    ∀ selection ∈ orderSelections keepOrder (sortEach keepOrder selections),
      selection.Fits levels := by
  intro selection hselection
  rw [mem_orderSelections, sortEach_eq_map] at hselection
  obtain ⟨selection, hmem, rfl⟩ := List.mem_map.1 hselection
  exact h selection hmem

theorem sortSelections_eq_nil {keepOrder : Bool} {selections : List Selection} :
    sortSelections keepOrder selections = [] ↔ selections = [] := by
  rw [← List.isEmpty_iff, isEmpty_sortSelections, List.isEmpty_iff]

theorem fits_sortSelection {selection : Selection} (keepOrder : Bool) (h : selection.Fits levels) :
    (sortSelection keepOrder selection).Fits levels := by
  induction h with
  | field hgiven hnotes hlevels _ ih =>
    exact .field (fits_sortArguments hgiven) (fits_sortDirectives hnotes)
      (fun hne => hlevels (mt sortSelections_eq_nil.2 hne)) (fits_sortSelections ih)
  | spread hname hnotes => exact .spread hname (fits_sortDirectives hnotes)
  | inline hnotes hlevels hne _ ih =>
    exact .inline (fits_sortDirectives hnotes) hlevels (mt sortSelections_eq_nil.1 hne)
      (fits_sortSelections ih)

theorem SelectionSetFits.sortSelections {selections : List Selection}
    (h : SelectionSetFits levels selections) (keepOrder : Bool) :
    SelectionSetFits levels (sortSelections keepOrder selections) where
  ne_nil := mt sortSelections_eq_nil.1 h.ne_nil
  levels_pos := h.levels_pos
  each := fits_sortSelections fun selection hselection =>
    fits_sortSelection keepOrder (h.each selection hselection)

theorem fits_sortDefinition {d : Definition} (h : d.Fits) : (sortDefinition d).Fits := by
  cases d with
  | operation op =>
    refine ⟨List.forall_mem_map.2 fun v hv => ?_, fits_sortDirectives h.directives,
      h.selections.sortSelections _⟩
    have hfits := h.parameters v ((perm_sortOn _ op.parameters).mem_iff.1 hv)
    exact ⟨hfits.type, hfits.defaultValue, fits_sortDirectives hfits.directives⟩
  | fragment frag =>
    exact ⟨h.name_ne, fits_sortDirectives h.directives, h.selections.sortSelections false⟩
  | system definition => exact h

theorem IsReadable.sorted {d : Definition} (h : IsReadable d) : IsReadable (sortDefinition d) where
  fits := fits_sortDefinition h.fits
  lexical token htoken := h.lexical token ((perm_sortDefinition d).mem_iff.1 htoken)

/-! ## Canonical documents -/

/-- The document that the canonical text of a document is printed from. -/
def canonicalDocument (withTypenames : Bool) (document : Document) : Document :=
  sortDocument (if withTypenames then addTypename document else document)

theorem canonicalDocument_ne_nil (withTypenames : Bool) (hne : document ≠ []) :
    canonicalDocument withTypenames document ≠ [] := by
  have hsort : ∀ document : Document, sortDocument document = [] → document = [] := by
    intro document hnil
    have hperm := perm_sortOn definitionKey (document.map sortDefinition)
    rw [← sortDocument, hnil] at hperm
    exact List.map_eq_nil_iff.1 hperm.nil_eq.symm
  intro hnil
  cases withTypenames with
  | true => exact hne (List.map_eq_nil_iff.1 (hsort _ hnil))
  | false => exact hne (hsort _ hnil)

/-- The canonical document of a readable one is readable. -/
theorem readable_canonicalDocument (withTypenames : Bool) (h : ∀ d ∈ document, IsReadable d) :
    ∀ d ∈ canonicalDocument withTypenames document, IsReadable d := by
  intro d hd
  obtain ⟨d, hmem, rfl⟩ := mem_sortDocument.1 hd
  cases withTypenames with
  | true =>
    obtain ⟨own, hown, rfl⟩ := List.mem_map.1 hmem
    exact (h own hown).addTypename.sorted
  | false => exact (h d hmem).sorted

/-- The same is found in a document and in its canonical one, in another order. -/
theorem Overlooks.perm_canonicalDocument (h : Overlooks look?) (withTypenames : Bool)
    (document : Document) :
    (((canonicalDocument withTypenames document).flatMap Definition.tokens).filterMap look?).Perm
      ((document.flatMap Definition.tokens).filterMap look?) := by
  refine ((perm_sortDocument _).filterMap look?).trans ?_
  cases withTypenames with
  | true =>
    rw [if_pos rfl, h.addTypename]
  | false => exact .rfl

/-- A canonical document is its own. -/
theorem canonicalDocument_canonicalDocument (withTypenames : Bool) (document : Document) :
    canonicalDocument withTypenames (canonicalDocument withTypenames document) =
      canonicalDocument withTypenames document := by
  cases withTypenames with
  | true =>
    have htyped : IsTyped (canonicalDocument true document) :=
      (isTyped_addTypename document).sortDocument
    calc canonicalDocument true (canonicalDocument true document)
      _ = sortDocument (canonicalDocument true document) := congrArg sortDocument htyped
      _ = canonicalDocument true document := sortDocument_sortDocument _
  | false => exact sortDocument_sortDocument document

/-- The canonical text of a text is that of its canonical document, which it is read back as but for
white space in strings and for places. -/
theorem parse_canonicalize {text : Text} (hparse : parse text = .ok document)
    (withTypenames : Bool) : ∃ canonical document',
      canonicalize text withTypenames = .ok canonical ∧ parse canonical = .ok document' ∧
      document'.map Definition.unplaced =
        (canonicalDocument withTypenames document).map Definition.flat := by
  obtain ⟨hne, hreadable⟩ := readable_of_parse hparse
  obtain ⟨document', hflat, hparse'⟩ := parse_canonicalText
    (canonicalDocument_ne_nil withTypenames hne)
    (readable_canonicalDocument withTypenames hreadable)
  exact ⟨_, document', canonicalize_of_parse hparse withTypenames, hparse', hflat⟩

end PersistedQueries.GraphQL
