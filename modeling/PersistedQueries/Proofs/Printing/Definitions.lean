import PersistedQueries.Proofs.Printing.Parts
import PersistedQueries.Proofs.Syntax.Documents

/-!
# What documents are printed as

Every definition is printed as its tokens, and the canonical text of a document has the tokens of its
definitions one behind the other.

- `renders_operation`, `renders_fragment`, `renders_system`: the definitions. An operation in a
  canonical text begins with the word for its kind.
- `lexemes_canonicalText`: the tokens of a canonical text.
-/

namespace PersistedQueries.GraphQL

open PersistedQueries.Text

variable {printed more separator : Text} {tokens others lead : List Token}

/-! ## Operations and fragments -/

theorem renders_default (h : Renders printed tokens) (hne : tokens ≠ []) (value? : Option Value) :
    Renders (printed ++ value?.elim [] fun v => wrap " = ".toList (printValue v) [])
      (tokens ++ tokensOfDefault value?) := by
  cases value? with
  | none =>
    rw [Option.elim_none, tokensOfDefault, Option.elim_none, List.append_nil, List.append_nil]
    exact h
  | some value =>
    have hequals : Closes " = ".toList [.punct .equals] :=
      closes_space.append ((closes_punct .equals).append closes_space)
    have hall := h.trailing hne [.punct .equals] hequals (ends_cons.2 (by decide))
      (by decide) (renders_value value)
    rw [if_neg (tokens_value_ne_nil value)] at hall
    exact hall

theorem renders_variable (v : VariableDefinition) : Renders (printVariable v) v.tokens := by
  have hname := renders_marked .dollar (renders_name v.name) (List.cons_ne_nil _ _)
  have htyped := hname.colon (List.cons_ne_nil _ _) (renders_type v.type)
    (tokens_type_ne_nil v.type)
  have hall := (renders_default htyped (by simp) v.defaultValue).noted (by simp)
    (renders_directives v.directives)
  have hdescribed := renders_described v.description hall (by simp)
  simpa [printVariable, VariableDefinition.tokens, Punctuator.text] using hdescribed

theorem renders_operationHead (operation : Operation) : Renders (printOperationHead operation)
    (tokensOfDescription operation.description ++ (.name operation.kind.word ::
      (operation.name.elim [] (fun name => [.name name]) ++
        enclosed .parenL .parenR (operation.parameters.flatMap VariableDefinition.tokens)) ++
      tokensOfDirectives operation.directives)) := by
  have hname : Renders (operation.name.elim [] String.toList)
      (operation.name.elim [] fun name => [.name name]) := by
    cases operation.name with
    | none => exact renders_nil
    | some name => exact renders_name name
  have hparameters : Renders (adaptiveList (operation.parameters.map printVariable))
      (enclosed .parenL .parenR (operation.parameters.flatMap VariableDefinition.tokens)) :=
    renders_adaptiveList fun v _ => renders_variable v
  have htitle := hname.append hparameters (boundary_adaptiveList _)
  have hall := renders_parts (.cons (renders_name operation.kind.word) (.cons htitle
    (.cons (renders_directives operation.directives) .nil)))
  have hdescribed := renders_described operation.description hall (by simp)
  simpa [printOperationHead] using hdescribed

/-- Neither a description nor the word for a kind of operation begins with a brace. -/
theorem head?_operationHead (operation : Operation) :
    (printOperationHead operation).head? ≠ some '\x7b' ∧ printOperationHead operation ≠ [] := by
  have hparts : ∀ more : List Text, ∃ c rest,
      joinParts [' '] (operation.kind.word.toList :: more) = c :: rest ∧ c ≠ '\x7b' := by
    intro more
    obtain ⟨c, word, hword, hc⟩ :
        ∃ c word, operation.kind.word.toList = c :: word ∧ c ≠ '\x7b' := by
      cases operation.kind <;> exact ⟨_, _, rfl, by decide⟩
    rw [joinParts, hword, List.filter_cons_of_pos (by simp)]
    cases more.filter (!·.isEmpty) with
    | nil => exact ⟨c, word, rfl, hc⟩
    | cons part parts =>
      exact ⟨c, word ++ [' '] ++ joinWith [' '] (part :: parts), by simp [joinWith], hc⟩
  obtain ⟨c, rest, hjoin, hc⟩ := hparts
    [(operation.name.elim [] String.toList) ++
        adaptiveList (operation.parameters.map printVariable),
      printDirectives operation.directives]
  have hprint :
      printOperationHead operation = printDescription operation.description ++ c :: rest := by
    rw [← hjoin]
    rfl
  rw [hprint]
  refine ⟨?_, by simp⟩
  cases operation.description with
  | none => simpa [printDescription] using hc
  | some d =>
    obtain ⟨content, hcontent⟩ :
        ∃ content, printContent d.content d.isBlock = '\x22' :: content := by
      unfold printContent
      split
      · exact ⟨_, rfl⟩
      · exact ⟨_, rfl⟩
    simp [printDescription, wrap, hcontent]

theorem tokensOfSelections_ne_nil {selections : List Selection} (hne : selections ≠ []) :
    tokensOfSelections selections ≠ [] := by
  obtain ⟨selection, rest, rfl⟩ := List.exists_cons_of_ne_nil hne
  rw [tokensOfSelections, enclosed, if_neg]
  · exact List.cons_ne_nil _ _
  · cases selection <;> simp [Selection.tokens]

/-- A selection set begins with a brace. -/
theorem head?_selectionSet {selections : List Selection} (hne : selections ≠ [])
    (hlexical : AreLexical (tokensOfSelections selections)) :
    ∃ rest, printSelectionSet selections = '\x7b' :: rest := by
  have hfull : printSelectionSet selections ≠ [] :=
    (renders_selectionSet selections).ne_nil hlexical (tokensOfSelections_ne_nil hne)
  unfold printSelectionSet block wrap at hfull ⊢
  split
  · next hempty =>
    rw [if_pos hempty] at hfull
    exact absurd rfl hfull
  · exact ⟨_, rfl⟩

/-- In a canonical text an operation begins with the word for its kind. -/
theorem printWithKeyword_operation {operation : Operation} (hne : operation.selections ≠ [])
    (hlexical : AreLexical (tokensOfSelections operation.selections)) :
    printWithKeyword (.operation operation) =
      printOperationHead operation ++ [' '] ++ printSelectionSet operation.selections := by
  obtain ⟨rest, hrest⟩ := head?_selectionSet hne hlexical
  obtain ⟨hhead, hfull⟩ := head?_operationHead operation
  have hprint : printDefinition (.operation operation) =
      (if printOperationHead operation = "query".toList then []
        else printOperationHead operation ++ [' ']) ++ printSelectionSet operation.selections := rfl
  rw [printWithKeyword, hprint]
  by_cases hquery : printOperationHead operation = "query".toList
  · rw [if_pos hquery, hquery, hrest]
    rfl
  · rw [if_neg hquery, if_neg]
    obtain ⟨c, head, hcons⟩ := List.exists_cons_of_ne_nil hfull
    rw [hcons] at hhead ⊢
    simpa [Definition.isOperation] using hhead

/-- An operation in a canonical text is printed as its tokens. -/
theorem renders_operation {operation : Operation} (hne : operation.selections ≠ []) :
    Renders (printWithKeyword (.operation operation)) operation.tokens := by
  have hall := (renders_operationHead operation).spaced (by simp)
    (renders_selectionSet operation.selections) (tokensOfSelections_ne_nil hne)
  have heq : operation.tokens = tokensOfDescription operation.description ++
      (.name operation.kind.word :: (operation.name.elim [] (fun name => [.name name]) ++
        enclosed .parenL .parenR (operation.parameters.flatMap VariableDefinition.tokens)) ++
      tokensOfDirectives operation.directives) ++ tokensOfSelections operation.selections := by
    simp [Operation.tokens]
  intro hlexical
  rw [printWithKeyword_operation hne fun token htoken =>
    hlexical token (by simp [Operation.tokens, htoken])]
  rw [heq] at hlexical ⊢
  exact hall hlexical

/-- Directives, when there are some, with a blank behind them. -/
theorem Renders.following (h : Renders printed tokens) (h' : Renders more others)
    (hne : others ≠ []) : Renders (wrap [] printed [' '] ++ more) (tokens ++ others) := by
  by_cases htokens : tokens = []
  · subst htokens
    have hprinted : printed = [] := (h nofun).empty.2 rfl
    rw [hprinted]
    exact h'
  · intro hlexical
    have hfull := h.ne_nil (List.forall_mem_append.1 hlexical).1 htokens
    rw [wrap, if_neg (by simpa using hfull), List.nil_append]
    exact h.spaced htokens h' hne hlexical

/-- A fragment is printed as its tokens. -/
theorem renders_fragment {fragment : Fragment} (hne : fragment.selections ≠ []) :
    Renders (printFragment fragment) fragment.tokens := by
  have hbody := (renders_directives fragment.directives).following
    (renders_selectionSet fragment.selections) (tokensOfSelections_ne_nil hne)
  have htyped := (renders_name fragment.condition).spaced (List.cons_ne_nil _ _) hbody
    (by simp [tokensOfSelections_ne_nil hne])
  have hon := (renders_name "on").spaced (List.cons_ne_nil _ _) htyped (by simp)
  have hnamed := (renders_name fragment.name).spaced (List.cons_ne_nil _ _) hon (by simp)
  have hword := (renders_name "fragment").spaced (List.cons_ne_nil _ _) hnamed (by simp)
  have hall := renders_described fragment.description hword (by simp)
  simpa [printFragment, Fragment.tokens] using hall

/-! ## Schema definitions -/

theorem mem_tokensOfNames {p : Punctuator} {names : List String} {name : String} (h : name ∈ names) :
    .name name ∈ tokensOfNames p names := by
  cases names with
  | nil => cases h
  | cons first names =>
    rcases List.mem_cons.1 h with rfl | h
    · exact List.mem_cons_self
    · exact List.mem_cons_of_mem _ (List.mem_flatMap.2 ⟨name, h, by simp⟩)

/-- Names are printed with their separator between them. -/
theorem renders_joinWith_names {p : Punctuator} (hclose : Closes separator [.punct p])
    (hbound : Boundary separator) (hne : separator ≠ []) (names : List String) :
    Renders (joinWith separator (names.map String.toList)) (tokensOfNames p names) := by
  induction names with
  | nil => exact renders_nil
  | cons name names ih =>
    cases names with
    | nil => exact renders_name name
    | cons next names =>
      have hall := (renders_name name).separated (List.cons_ne_nil _ _) [.punct p]
        hclose hbound hne ih (by simp [tokensOfNames])
      exact hall

theorem renders_names {p : Punctuator} {text : String}
    (htext : text.toList = ' ' :: (p.text ++ [' '])) (names : List String) : Renders (printNames text names) (tokensOfNames p names) := by
  intro hlexical
  have hfilter : (names.map String.toList).filter (!·.isEmpty) = names.map String.toList := by
    rw [List.filter_eq_self]
    intro name hname
    obtain ⟨name, hmem, rfl⟩ := List.mem_map.1 hname
    have hfull := (renders_name name).ne_nil
      (List.forall_mem_singleton.2 (hlexical _ (mem_tokensOfNames hmem))) (List.cons_ne_nil _ _)
    simpa using hfull
  rw [printNames, joinParts, hfilter, htext]
  exact renders_joinWith_names (closes_space.append ((closes_punct p).append closes_space))
    (ends_cons.2 (by decide)) (List.cons_ne_nil _ _) names hlexical

theorem tokensOfNames_eq_nil {p : Punctuator} {names : List String} :
    tokensOfNames p names = [] ↔ names = [] := by
  cases names <;> simp [tokensOfNames]

/-- Names behind a word or a punctuator that introduces them. -/
theorem renders_listed {p : Punctuator} {text : String} {token : Token}
    (htext : text.toList = ' ' :: (p.text ++ [' '])) (h : Renders printed [token])
    (names : List String) :
    Renders (wrap (printed ++ [' ']) (printNames text names) []) (tokensOfListed token p names) := by
  have hall := h.leading (renders_names htext names)
  simp only [tokensOfNames_eq_nil] at hall
  exact hall

theorem renders_inputValue (input : InputValue) : Renders (printInputValue input) input.tokens := by
  have htyped := (renders_name input.name).colon (List.cons_ne_nil _ _) (renders_type input.type)
    (tokens_type_ne_nil input.type)
  have hdefault : Renders (input.defaultValue.elim [] fun v => wrap "= ".toList (printValue v) [])
      (tokensOfDefault input.defaultValue) := by
    cases input.defaultValue with
    | none => exact renders_nil
    | some value =>
      have hall := (renders_punct .equals).leading (renders_value value)
      rw [if_neg (tokens_value_ne_nil value)] at hall
      exact hall
  have hall := renders_parts (.cons htyped (.cons hdefault
    (.cons (renders_directives input.directives) .nil)))
  have hdescribed := renders_described input.description hall (by simp)
  simpa [printInputValue, InputValue.tokens] using hdescribed

theorem renders_inputs (inputs : List InputValue) :
    Renders (adaptiveList (inputs.map printInputValue)) (tokensOfInputs .parenL .parenR inputs) :=
  renders_adaptiveList fun input _ => renders_inputValue input

theorem renders_fieldDefinition (field : FieldDefinition) :
    Renders (printFieldDefinition field) field.tokens := by
  have hgiven := (renders_name field.name).append (renders_inputs field.arguments)
    (boundary_adaptiveList _)
  have htyped := hgiven.colon (by simp) (renders_type field.type) (tokens_type_ne_nil field.type)
  have hall := htyped.noted (by simp) (renders_directives field.directives)
  have hdescribed := renders_described field.description hall (by simp)
  simpa [printFieldDefinition, FieldDefinition.tokens, tokensOfInputs] using hdescribed

theorem renders_enumValue (value : EnumValue) : Renders (printEnumValue value) value.tokens := by
  have hall := renders_parts (.cons (renders_name value.name)
    (.cons (renders_directives value.directives) .nil))
  have hdescribed := renders_described value.description hall (by simp)
  simpa [printEnumValue, EnumValue.tokens] using hdescribed

theorem renders_rootType (root : RootType) : Renders (printRootType root) root.tokens :=
  (renders_name root.kind.word).colon (List.cons_ne_nil _ _) (renders_name root.type)
    (List.cons_ne_nil _ _)

theorem renders_roots (roots : List RootType) :
    Renders (block (roots.map printRootType)) (tokensOfRoots roots) :=
  renders_block fun root _ => renders_rootType root

/-- A type is printed as its tokens, behind whatever introduces it. -/
theorem renders_typeBody (type : TypeDefinition) (h : Renders printed tokens) :
    Renders (printTypeBody printed type) (tokens ++ [.name type.name] ++
      tokensOfListed (.name "implements") .amp type.body.interfaces ++
      tokensOfDirectives type.directives ++ type.body.tokens) := by
  have hname := renders_name type.name
  have hnotes := renders_directives type.directives
  have habove : ∀ names, Renders (wrap "implements ".toList (printNames " & " names) [])
      (tokensOfListed (.name "implements") .amp names) :=
    fun names => renders_listed (p := .amp) rfl (renders_name "implements") names
  have hfields : ∀ fields : List FieldDefinition, Renders (block (fields.map printFieldDefinition))
      (tokensOfFieldDefinitions fields) :=
    fun fields => renders_block fun field _ => renders_fieldDefinition field
  unfold printTypeBody
  cases hbody : type.body with
  | scalar =>
    have hall := renders_parts (.cons h (.cons hname (.cons hnotes .nil)))
    simpa [TypeBody.tokens, TypeBody.interfaces, tokensOfListed] using hall
  | object above fields =>
    have hall := renders_parts (.cons h (.cons hname (.cons (habove above) (.cons hnotes
      (.cons (hfields fields) .nil)))))
    simpa [TypeBody.tokens, TypeBody.interfaces] using hall
  | interface above fields =>
    have hall := renders_parts (.cons h (.cons hname (.cons (habove above) (.cons hnotes
      (.cons (hfields fields) .nil)))))
    simpa [TypeBody.tokens, TypeBody.interfaces] using hall
  | union members =>
    have hmembers : Renders (wrap "= ".toList (printNames " | " members) [])
        (tokensOfListed (.punct .equals) .pipe members) :=
      renders_listed (p := .pipe) rfl (renders_punct .equals) members
    have hall := renders_parts (.cons h (.cons hname (.cons hnotes (.cons hmembers .nil))))
    simpa [TypeBody.tokens, TypeBody.interfaces, tokensOfListed] using hall
  | enum values =>
    have hvalues : Renders (block (values.map printEnumValue)) (tokensOfEnumValues values) :=
      renders_block fun value _ => renders_enumValue value
    have hall := renders_parts (.cons h (.cons hname (.cons hnotes (.cons hvalues .nil))))
    simpa [TypeBody.tokens, TypeBody.interfaces, tokensOfListed, tokensOfEnumValues] using hall
  | input fields =>
    have hinputs : Renders (block (fields.map printInputValue))
        (tokensOfInputs .braceL .braceR fields) :=
      renders_block fun input _ => renders_inputValue input
    have hall := renders_parts (.cons h (.cons hname (.cons hnotes (.cons hinputs .nil))))
    simpa [TypeBody.tokens, TypeBody.interfaces, tokensOfListed, tokensOfInputs] using hall

theorem renders_extend (word : String) : Renders ("extend ".toList ++ word.toList)
    [.name "extend", .name word] :=
  (renders_name "extend").spaced (List.cons_ne_nil _ _) (renders_name word) (List.cons_ne_nil _ _)

theorem renders_repeatable (h : Renders printed tokens) (hne : tokens ≠ []) (isRepeatable : Bool) :
    Renders (printed ++ if isRepeatable then " repeatable".toList else [])
      (tokens ++ if isRepeatable then [.name "repeatable"] else []) := by
  cases isRepeatable with
  | true =>
    rw [if_pos rfl, if_pos rfl]
    exact h.noted hne (renders_name "repeatable")
  | false =>
    rw [if_neg (by decide), if_neg (by decide), List.append_nil, List.append_nil]
    exact h

theorem renders_directiveDefinition (directive : DirectiveDefinition)
    (hne : directive.locations ≠ []) :
    Renders (printSystem (.directive directive)) directive.tokens := by
  have htitle := (renders_name directive.name).append (renders_inputs directive.arguments)
    (boundary_adaptiveList _)
  have hmarked := renders_marked .at htitle (by simp)
  have hintroduced := (renders_name "directive").spaced (List.cons_ne_nil _ _) hmarked
    (List.cons_ne_nil _ _)
  have hrepeatable := renders_repeatable hintroduced (by simp) directive.isRepeatable
  have hnames : Renders (printNames " | " directive.locations)
      (tokensOfNames .pipe directive.locations) := renders_names rfl directive.locations
  have hon := (renders_name "on").spaced (List.cons_ne_nil _ _) hnames
    (mt tokensOfNames_eq_nil.1 hne)
  have hall := hrepeatable.spaced (by simp) hon (by simp)
  have hdescribed := renders_described directive.description hall (by simp)
  have hopening : "directive @".toList = "directive".toList ++ ([' '] ++ Punctuator.at.text) := rfl
  have hclosing : " on ".toList = [' '] ++ ("on".toList ++ [' ']) := rfl
  have hprint : printSystem (.directive directive) = printDescription directive.description ++
      ("directive".toList ++ [' '] ++ (Punctuator.at.text ++ (directive.name.toList ++
        adaptiveList (directive.arguments.map printInputValue))) ++
        (if directive.isRepeatable then " repeatable".toList else []) ++ [' '] ++
        ("on".toList ++ [' '] ++ printNames " | " directive.locations)) := by
    rw [printSystem, hopening, hclosing]
    simp only [List.append_assoc]
  have htokens : directive.tokens = tokensOfDescription directive.description ++
      ([.name "directive"] ++ .punct .at :: ([.name directive.name] ++
        enclosed .parenL .parenR (directive.arguments.flatMap InputValue.tokens)) ++
        (if directive.isRepeatable then [.name "repeatable"] else []) ++
        ([.name "on"] ++ tokensOfNames .pipe directive.locations)) := by
    simp only [DirectiveDefinition.tokens, tokensOfInputs, List.append_assoc, List.cons_append,
      List.nil_append]
  rw [hprint, htokens]
  exact hdescribed

/-- A schema definition is printed as its tokens. -/
theorem renders_system (definition : SystemDefinition) (h : definition.Fits) :
    Renders (printSystem definition) definition.tokens := by
  cases definition with
  | schema description notes roots =>
    have hall := renders_parts (.cons (renders_name "schema") (.cons (renders_directives notes)
      (.cons (renders_roots roots) .nil)))
    have hdescribed := renders_described description hall (by simp)
    simpa [printSystem, SystemDefinition.tokens] using hdescribed
  | type definition =>
    have hall := renders_typeBody definition (renders_name definition.body.word)
    have hdescribed := renders_described definition.description hall (by simp)
    simpa [printSystem, SystemDefinition.tokens, TypeDefinition.tokens] using hdescribed
  | directive definition => exact renders_directiveDefinition definition h.ne_nil
  | extendSchema notes roots =>
    have hword : Renders "extend schema".toList [.name "extend", .name "schema"] :=
      renders_extend "schema"
    have hall := renders_parts (.cons hword (.cons (renders_directives notes)
      (.cons (renders_roots roots) .nil)))
    simpa [printSystem, SystemDefinition.tokens] using hall
  | extendType addition =>
    have hall := renders_typeBody addition (renders_extend addition.body.word)
    simpa [printSystem, SystemDefinition.tokens, TypeDefinition.tokens] using hall

/-! ## Documents -/

theorem renders_definition {d : Definition} (h : d.Fits) :
    Renders (printWithKeyword d) d.tokens := by
  cases d with
  | operation op => exact renders_operation h.selections.ne_nil
  | fragment frag => exact renders_fragment h.selections.ne_nil
  | system definition => exact renders_system definition h

theorem tokens_definition_ne_nil (d : Definition) : d.tokens ≠ [] := by
  cases d with
  | operation op => simp [Definition.tokens, Operation.tokens]
  | fragment frag => simp [Definition.tokens, Fragment.tokens]
  | system definition =>
    cases definition <;>
      simp [Definition.tokens, SystemDefinition.tokens, TypeDefinition.tokens,
        DirectiveDefinition.tokens]

/-- A document is printed as the tokens of its definitions. -/
theorem renders_document {document : Document} (h : ∀ d ∈ document, d.Fits) :
    Renders (joinWith ['\n'] (document.map printWithKeyword))
      (document.flatMap Definition.tokens) := by
  intro hlexical
  have hparts : ∀ part ∈ document.map fun d => (printWithKeyword d, d.tokens.map flatToken),
      Prints part.1 part.2 ∧ part.1 ≠ [] := by
    refine List.forall_mem_map.2 fun d hd => ?_
    have hown : AreLexical d.tokens :=
      fun token htoken => hlexical token (List.mem_flatMap.2 ⟨d, hd, htoken⟩)
    exact ⟨renders_definition (h d hd) hown,
      (renders_definition (h d hd)).ne_nil hown (tokens_definition_ne_nil d)⟩
  have hall := prints_joinWith closes_line (ends_cons.2 (by decide)) (by simp) hparts
  rw [List.map_map, List.flatMap_map] at hall
  rw [List.map_flatMap]
  exact hall

/-- A text that ends with what is no white space does so when it is collapsed. -/
theorem getLast?_collapseFrom {text : Text} {c : Char} (hc : isBlank c = false) (inRun : Bool) :
    (collapseFrom inRun (text ++ [c])).getLast? = some c := by
  induction text generalizing inRun with
  | nil =>
    rw [List.nil_append, collapseFrom_solid hc]
    rfl
  | cons d text ih =>
    have hcons : ∀ inRun e, (e :: collapseFrom inRun (text ++ [c])).getLast? = some c := by
      intro inRun e
      rw [List.getLast?_cons, ih inRun]
      rfl
    rw [List.cons_append, collapseFrom]
    split
    · split
      · exact ih true
      · exact hcons true ' '
    · exact hcons false d

/-- Nothing is stripped from a collapsed text that begins and ends with what is no white space. -/
theorem strip_collapse {text : Text} (hfirst : ∀ c, text.head? = some c → isBlank c = false)
    (hlast : ∀ c, text.getLast? = some c → isBlank c = false) :
    strip (collapse text) = collapse text := by
  rcases text.eq_nil_or_concat with rfl | ⟨front, c, rfl⟩
  · rfl
  · rw [List.concat_eq_append] at hfirst hlast ⊢
    have hc : isBlank c = false := hlast c (by simp)
    have hend : (collapseFrom false (front ++ [c])).getLast? = some c :=
      getLast?_collapseFrom hc false
    have hleft : stripLeft (collapse (front ++ [c])) = collapse (front ++ [c]) := by
      cases hfront : front ++ [c] with
      | nil => rfl
      | cons d rest =>
        have hd : isBlank d = false := hfirst d (by rw [hfront]; rfl)
        rw [collapse, collapseFrom_solid hd, stripLeft, List.dropWhile_cons_of_neg (by simp [hd])]
    obtain ⟨rest, hrest⟩ := List.getLast?_eq_some_iff.1 hend
    rw [strip, hleft, stripRight, collapse, hrest, List.reverse_append, List.reverse_singleton,
      List.singleton_append, List.dropWhile_cons_of_neg (by simp [hc]), List.reverse_cons,
      List.reverse_reverse]

/-- The tokens of a canonical text. -/
theorem lexemes_canonicalText {document : Document} (h : ∀ d ∈ document, d.Fits)
    (hlexical : AreLexical (document.flatMap Definition.tokens)) :
    lexemes (canonicalText document) =
      some ((document.flatMap Definition.tokens).map flatToken) := by
  have hprints := renders_document h hlexical
  have hscan := hprints.scans false [] (ends_nil _)
  rw [List.append_nil] at hscan
  rw [canonicalText, strip_collapse hprints.first hprints.last, collapse, hscan]
  have hnil : lexemes (collapse []) = some [] := lexemes_nil
  rw [hnil, Option.map_some, List.append_nil]

end PersistedQueries.GraphQL
