import PersistedQueries.Proofs.Printing.Strings

/-!
# What the parts of a document are printed as

A part of a document is printed as its tokens, with the strings among them as they are read back.
That holds of tokens that a text can have: their names and numbers are written as such.

- `Renders`: a text is what some tokens are printed as, if a text can have them.
- `Renders.append`, `Renders.separated`, `Renders.trailing`, `renders_parts`: how texts are put
  together, with the condition on the tokens carried along.
- `renders_value`, `renders_directives`, `renders_type`, `renders_selection`: the parts themselves,
  by induction on the tree.
-/

namespace PersistedQueries.GraphQL

open PersistedQueries.Text

/-- Tokens that a text can have. -/
abbrev AreLexical (tokens : List Token) : Prop := ∀ token ∈ tokens, token.Lexical

/-- A text is what some tokens are printed as, with their strings as they are read back. -/
def Renders (printed : Text) (tokens : List Token) : Prop :=
  AreLexical tokens → Prints printed (tokens.map flatToken)

variable {printed more separator : Text} {tokens others : List Token}

/-! ## Tokens -/

theorem renders_nil : Renders [] [] := fun _ => prints_nil

/-- The characters of names and numbers below the bound of their code points. -/
theorem isBlank_ofNat : ∀ n < 128, let c := Char.ofNat n
    isNameContinue c || isNumeric c → isBlank c = false := by
  decide +kernel

/-- Names and numbers have no white space in them. -/
theorem isBlank_eq_false {c : Char} (h : isNameContinue c || isNumeric c) :
    isBlank c = false := by
  have hsmall : c.toNat < 128 := by
    simp only [isNameContinue, isNameStart, isNumeric, isDigit, Bool.or_eq_true, Bool.and_eq_true,
      decide_eq_true_eq, List.contains_iff_mem] at h
    by_contra hlarge
    have hnot : ∀ d : Char, d.toNat < 128 → ¬c ≤ d := fun d hd hc => by
      have hle : c.toNat ≤ d.toNat := hc
      omega
    have hmem : c ∉ "_+-.eE".toList := by
      intro hmem
      have hall : "_+-.eE".toList.all fun d => d.toNat < 128 := by decide
      exact hlarge (by simpa using List.all_eq_true.1 hall c hmem)
    have hnine := hnot '9' (by decide)
    have hlower := hnot 'z' (by decide)
    have hupper := hnot 'Z' (by decide)
    simp_all
  have hall := isBlank_ofNat c.toNat hsmall
  rw [Char.ofNat_toNat] at hall
  exact hall h

theorem renders_name (name : String) : Renders name.toList [.name name] := by
  intro h
  have hname : IsName name.toList := h _ List.mem_cons_self
  obtain ⟨c, rest, htext, hstart, hrest⟩ := id hname
  refine prints_token (by simp [htext]) (fun d hd => ?_) fun more hmore =>
    lexemes_name hname hmore
  rw [htext] at hd
  refine isBlank_eq_false (Bool.or_eq_true_iff.2 (.inl ?_))
  rcases List.mem_cons.1 hd with rfl | hd
  · simp [isNameContinue, hstart]
  · exact hrest d hd

theorem prints_number {number : String} {isFloat : Bool} (h : IsNumber number.toList isFloat) :
    Prints number.toList [if isFloat then .float number else .int number] := by
  obtain ⟨c, rest, htext, -⟩ := h.starts
  refine prints_token (by simp [htext]) (fun d hd => ?_) fun more hmore => lexemes_number h hmore
  exact isBlank_eq_false (Bool.or_eq_true_iff.2 (.inr (h.numeric d hd)))

theorem renders_int (number : String) : Renders number.toList [.int number] :=
  fun h => prints_number (h _ List.mem_cons_self)

theorem renders_float (number : String) : Renders number.toList [.float number] :=
  fun h => prints_number (h _ List.mem_cons_self)

theorem renders_content (content : String) (isBlock : Bool) :
    Renders (printContent content isBlock) [stringToken content isBlock] := by
  intro _
  rw [List.map_singleton, flatToken_stringToken]
  exact prints_content content isBlock

/-! ## Texts one behind the other -/

theorem Renders.ne_nil (h : Renders printed tokens) (hlexical : AreLexical tokens)
    (hne : tokens ≠ []) : printed ≠ [] :=
  fun hempty => hne (List.map_eq_nil_iff.1 ((h hlexical).empty.1 hempty))

theorem Renders.append (h : Renders printed tokens) (h' : Renders more others)
    (hmore : Boundary more) : Renders (printed ++ more) (tokens ++ others) := by
  intro hlexical
  obtain ⟨hfront, hback⟩ := List.forall_mem_append.1 hlexical
  rw [List.map_append]
  exact prints_append (h hfront) (h' hback) hmore

/-- Two texts with a separator between them, which may have tokens of its own. -/
theorem Renders.separated (h : Renders printed tokens) (hne : tokens ≠ []) (lead : List Token)
    (hseparator : Closes separator (lead.map flatToken)) (hbound : Boundary separator)
    (hsome : separator ≠ []) (h' : Renders more others) (hne' : others ≠ []) :
    Renders (printed ++ separator ++ more) (tokens ++ lead ++ others) := by
  intro hlexical
  simp only [List.forall_mem_append] at hlexical
  obtain ⟨⟨hfront, -⟩, hback⟩ := hlexical
  rw [List.map_append, List.map_append]
  have hfull := h.ne_nil hfront hne
  exact prints_behind (closes_behind (h hfront) hseparator hbound hsome) (by simp [hsome])
    (first_append hfull (h hfront).first) (h' hback) (h'.ne_nil hback hne')

/-- Two texts with a blank between them. -/
theorem Renders.spaced (h : Renders printed tokens) (hne : tokens ≠ []) (h' : Renders more others)
    (hne' : others ≠ []) : Renders (printed ++ [' '] ++ more) (tokens ++ others) := by
  have hall := h.separated hne [] closes_space (ends_cons.2 (by decide)) (by simp) h' hne'
  rwa [List.append_nil] at hall

/-- Two texts with a colon between them. -/
theorem Renders.colon (h : Renders printed tokens) (hne : tokens ≠ []) (h' : Renders more others)
    (hne' : others ≠ []) :
    Renders (printed ++ [':', ' '] ++ more) (tokens ++ .punct .colon :: others) := by
  have hall := h.separated hne [.punct .colon] ((closes_punct .colon).append closes_space)
    (ends_cons.2 (by decide)) (by simp [Punctuator.text]) h' hne'
  rwa [List.append_assoc tokens] at hall

/-- A text that may be missing, with its separator in front. -/
theorem Renders.trailing (h : Renders printed tokens) (hne : tokens ≠ []) (lead : List Token)
    (hseparator : Closes separator (lead.map flatToken)) (hbound : Boundary separator)
    (hsome : separator ≠ []) (h' : Renders more others) :
    Renders (printed ++ wrap separator more [])
      (tokens ++ if others = [] then [] else lead ++ others) := by
  by_cases hothers : others = []
  · subst hothers
    intro hlexical
    have hmore : more = [] := (h' nofun).empty.2 rfl
    simp only [if_true, List.append_nil] at hlexical ⊢
    rw [hmore]
    have hwrap : wrap separator [] [] = [] := rfl
    rw [hwrap, List.append_nil]
    exact h hlexical
  · intro hlexical
    rw [if_neg hothers] at hlexical ⊢
    have hfull : more ≠ [] := by
      simp only [List.forall_mem_append] at hlexical
      exact h'.ne_nil hlexical.2.2 hothers
    have hall := h.separated hne lead hseparator hbound hsome h' hothers
    have hwrap : wrap separator more [] = separator ++ more := by
      rw [wrap, if_neg (by simpa using hfull), List.append_nil]
    rw [hwrap, ← List.append_assoc]
    rw [← List.append_assoc] at hlexical ⊢
    exact hall hlexical

/-- A text that may be missing, with a blank in front. -/
theorem Renders.noted (h : Renders printed tokens) (hne : tokens ≠ []) (h' : Renders more others) :
    Renders (printed ++ wrap [' '] more []) (tokens ++ others) := by
  have hall := h.trailing hne [] closes_space (ends_cons.2 (by decide)) (by simp) h'
  have htokens : (if others = [] then [] else ([] : List Token) ++ others) = others := by
    split
    · next hothers => exact hothers.symm
    · rfl
  rwa [htokens] at hall

/-- A text that may be missing, behind a token that introduces it. -/
theorem Renders.leading {token : Token} (h : Renders printed [token]) (h' : Renders more others) :
    Renders (wrap (printed ++ [' ']) more []) (if others = [] then [] else token :: others) := by
  by_cases hothers : others = []
  · subst hothers
    have hmore : more = [] := (h' nofun).empty.2 rfl
    rw [hmore]
    exact renders_nil
  · intro hlexical
    rw [if_neg hothers] at hlexical ⊢
    have hfull := h'.ne_nil (List.forall_mem_cons.1 hlexical).2 hothers
    rw [wrap, if_neg (by simpa using hfull), List.append_nil]
    exact h.spaced (List.cons_ne_nil _ _) h' hothers hlexical

/-- A text behind a punctuator. -/
theorem renders_marked (p : Punctuator) (h : Renders printed tokens) (hne : tokens ≠ []) :
    Renders (p.text ++ printed) (.punct p :: tokens) := by
  intro hlexical
  have hrest : AreLexical tokens := (List.forall_mem_cons.1 hlexical).2
  have hsolid : ∀ c, p.text.head? = some c → isBlank c = false := by
    cases p <;> (rintro c hc; cases hc; decide)
  exact prints_behind (closes_punct p) (by cases p <;> decide) hsolid (h hrest)
    (h.ne_nil hrest hne)

theorem renders_punct (p : Punctuator) : Renders p.text [.punct p] := by
  intro _
  exact prints_token (by cases p <;> decide) (solid_punct p) fun more _ => lexemes_punct p more

/-- A text between brackets, which stand there also when it is empty. -/
theorem renders_bracketed (opening closing : Punctuator) (hbound : Boundary closing.text)
    (h : Renders printed tokens) : Renders (opening.text ++ (printed ++ closing.text))
      (.punct opening :: tokens ++ [.punct closing]) :=
  renders_marked opening (h.append (renders_punct closing) hbound) (by simp)

/-! ## Lists of texts -/

/-- Texts with blanks between them. Those that are empty are left out. -/
theorem renders_parts {texts : List Text} {spellings : List (List Token)}
    (h : List.Forall₂ Renders texts spellings) :
    Renders (joinParts [' '] texts) spellings.flatten := by
  intro hlexical
  have hparts : ∃ parts : List (Text × List Token), parts.map Prod.fst = texts ∧
      parts.flatMap Prod.snd = spellings.flatten.map flatToken ∧
      ∀ part ∈ parts, Prints part.1 part.2 := by
    induction h with
    | nil => exact ⟨[], rfl, rfl, by simp⟩
    | @cons text spelling texts spellings hfirst _ ih =>
      rw [List.flatten_cons] at hlexical
      obtain ⟨hfront, hback⟩ := List.forall_mem_append.1 hlexical
      obtain ⟨parts, rfl, hspellings, hparts⟩ := ih hback
      refine ⟨(text, spelling.map flatToken) :: parts, rfl, ?_,
        List.forall_mem_cons.2 ⟨hfirst hfront, hparts⟩⟩
      rw [List.flatMap_cons, hspellings, List.flatten_cons, List.map_append]
  obtain ⟨parts, rfl, hspellings, hparts⟩ := hparts
  rw [← hspellings]
  exact prints_parts hparts

theorem mem_enclosed {opening closing : Punctuator} {token : Token} (h : token ∈ tokens) :
    token ∈ enclosed opening closing tokens := by
  unfold enclosed
  rw [if_neg (List.ne_nil_of_mem h)]
  simp [h]

section Lists

variable {α : Type} {print : α → Text} {spelling : α → List Token} {items : List α}

theorem prints_of_renders (h : ∀ a ∈ items, Renders (print a) (spelling a))
    (hlexical : AreLexical (items.flatMap spelling)) :
    ∀ a ∈ items, Prints (print a) ((spelling a).map flatToken) :=
  fun a ha => h a ha fun token htoken => hlexical token (List.mem_flatMap.2 ⟨a, ha, htoken⟩)

/-- Items with commas between them. -/
theorem renders_commas (h : ∀ a ∈ items, Renders (print a) (spelling a)) :
    Renders (joinParts [',', ' '] (items.map print)) (items.flatMap spelling) := by
  intro hlexical
  rw [List.map_flatMap]
  exact prints_items closes_commaSpace (ends_cons.2 (by decide)) (by simp)
    (prints_of_renders h hlexical)

/-- Items with blanks between them. -/
theorem renders_spaces (h : ∀ a ∈ items, Renders (print a) (spelling a)) :
    Renders (joinParts [' '] (items.map print)) (items.flatMap spelling) := by
  intro hlexical
  rw [List.map_flatMap]
  exact prints_items closes_space (ends_cons.2 (by decide)) (by simp)
    (prints_of_renders h hlexical)

/-- Items between punctuators, when they are printed so. -/
theorem renders_enclosed {opening closing : Punctuator} (layout : List Text → Text)
    (hlayout : ∀ {spelling : α → List Token}, (∀ a ∈ items, Prints (print a) (spelling a)) →
      Prints (layout (items.map print)) (enclosed opening closing (items.flatMap spelling)))
    (h : ∀ a ∈ items, Renders (print a) (spelling a)) :
    Renders (layout (items.map print)) (enclosed opening closing (items.flatMap spelling)) := by
  intro hlexical
  rw [map_enclosed, List.map_flatMap]
  exact hlayout (prints_of_renders h fun token htoken => hlexical token (mem_enclosed htoken))

theorem renders_block (h : ∀ a ∈ items, Renders (print a) (spelling a)) :
    Renders (block (items.map print)) (enclosed .braceL .braceR (items.flatMap spelling)) :=
  renders_enclosed block prints_block h

theorem renders_inlineList (h : ∀ a ∈ items, Renders (print a) (spelling a)) :
    Renders (inlineList (items.map print)) (enclosed .parenL .parenR (items.flatMap spelling)) :=
  renders_enclosed inlineList prints_inlineList h

theorem renders_spreadList (h : ∀ a ∈ items, Renders (print a) (spelling a)) :
    Renders (spreadList (items.map print)) (enclosed .parenL .parenR (items.flatMap spelling)) :=
  renders_enclosed spreadList prints_spreadList h

theorem renders_adaptiveList (h : ∀ a ∈ items, Renders (print a) (spelling a)) :
    Renders (adaptiveList (items.map print)) (enclosed .parenL .parenR (items.flatMap spelling)) :=
  renders_enclosed adaptiveList prints_adaptiveList h

end Lists

theorem boundary_wrap {opening text closing : Text} (hne : opening ≠ []) (h : Boundary opening) :
    Boundary (wrap opening text closing) := by
  unfold wrap
  split
  · exact ends_nil _
  · obtain ⟨c, opening, rfl⟩ := List.exists_cons_of_ne_nil hne
    exact ends_cons.2 (ends_cons.1 h)

theorem boundary_inlineList (items : List Text) : Boundary (inlineList items) :=
  boundary_wrap (by simp) (ends_cons.2 (by decide))

theorem boundary_spreadList (items : List Text) : Boundary (spreadList items) :=
  boundary_wrap (by simp) (ends_cons.2 (by decide))

theorem boundary_adaptiveList (items : List Text) : Boundary (adaptiveList items) := by
  unfold adaptiveList
  split
  · exact boundary_spreadList items
  · exact boundary_inlineList items

/-! ## Values and types -/

theorem printValues_eq (items : List Value) : printValues items = items.map printValue := by
  induction items with
  | nil => rfl
  | cons value rest ih => rw [printValues, ih, List.map_cons]

theorem printFields_eq (fields : List (String × Value)) : printFields fields =
    fields.map fun field => field.1.toList ++ [':', ' '] ++ printValue field.2 := by
  induction fields with
  | nil => rfl
  | cons field rest ih =>
    obtain ⟨name, value⟩ := field
    rw [printFields, ih, List.map_cons]

theorem tokens_value_ne_nil (value : Value) : value.tokens ≠ [] := by
  cases value <;> simp [Value.tokens]

theorem renders_pair {name : String} {value : Value} (h : Renders (printValue value) value.tokens) :
    Renders (name.toList ++ [':', ' '] ++ printValue value)
      (.name name :: .punct .colon :: value.tokens) :=
  (renders_name name).colon (List.cons_ne_nil _ _) h (tokens_value_ne_nil value)

mutual

/-- A value is printed as its tokens. -/
theorem renders_value : (value : Value) → Renders (printValue value) value.tokens
  | .variable name => renders_marked .dollar (renders_name name) (List.cons_ne_nil _ _)
  | .int text => renders_int text
  | .float text => renders_float text
  | .string content isBlock => renders_content content isBlock
  | .boolean true => renders_name "true"
  | .boolean false => renders_name "false"
  | .null => renders_name "null"
  | .enum name => renders_name name
  | .list items => by
    have hitems := renders_commas (renders_values items)
    rw [printValue, Value.tokens, printValues_eq, tokensOfValues_eq]
    exact renders_bracketed .bracketL .bracketR (ends_cons.2 (by decide)) hitems
  | .object fields => by
    have hfields := renders_commas (renders_fields fields)
    rw [printValue, Value.tokens, printFields_eq, tokensOfFields_eq]
    exact renders_bracketed .braceL .braceR (ends_cons.2 (by decide)) hfields

theorem renders_values : (items : List Value) →
    ∀ value ∈ items, Renders (printValue value) value.tokens
  | [] => by simp
  | value :: rest => List.forall_mem_cons.2 ⟨renders_value value, renders_values rest⟩

theorem renders_fields : (fields : List (String × Value)) →
    ∀ field ∈ fields, Renders (field.1.toList ++ [':', ' '] ++ printValue field.2)
      (fieldTokens field)
  | [] => by simp
  | (_, value) :: rest =>
    List.forall_mem_cons.2 ⟨renders_pair (renders_value value), renders_fields rest⟩

end

theorem renders_argument (argument : Argument) : Renders (printArgument argument) argument.tokens :=
  renders_pair (renders_value argument.value)

theorem renders_directive (directive : Directive) :
    Renders (printDirective directive) directive.tokens := by
  have harguments : Renders (inlineList (directive.arguments.map printArgument))
      (tokensOfArguments directive.arguments) :=
    renders_inlineList fun argument _ => renders_argument argument
  have hall := (renders_name directive.name).append harguments (boundary_inlineList _)
  exact renders_marked .at hall (by simp)

theorem renders_directives (directives : List Directive) :
    Renders (printDirectives directives) (tokensOfDirectives directives) :=
  renders_spaces fun directive _ => renders_directive directive

theorem tokens_type_ne_nil (type : TypeRef) : type.tokens ≠ [] := by
  cases type <;> simp [TypeRef.tokens]

/-- A reference to a type is printed as its tokens. -/
theorem renders_type (type : TypeRef) : Renders (printType type) type.tokens := by
  induction type with
  | named name => exact renders_name name
  | list item ih =>
    exact renders_bracketed .bracketL .bracketR (ends_cons.2 (by decide)) ih
  | nonNull type ih => exact ih.append (renders_punct .bang) (ends_cons.2 (by decide))

/-- A string stands in front of what it documents. -/
theorem renders_described (description : Option Description) (h : Renders printed tokens)
    (hne : tokens ≠ []) : Renders (printDescription description ++ printed)
      (tokensOfDescription description ++ tokens) := by
  cases description with
  | none => exact h
  | some d =>
    intro hlexical
    have hcontent : Renders (printContent d.content d.isBlock)
        [stringToken d.content d.isBlock] := renders_content d.content d.isBlock
    have hall := hcontent.separated (List.cons_ne_nil _ _) [] closes_line
      (ends_cons.2 (by decide)) (by simp) h hne
    have hfull : printContent d.content d.isBlock ≠ [] :=
      hcontent.ne_nil (List.forall_mem_append.1 hlexical).1 (List.cons_ne_nil _ _)
    have hprint : printDescription (some d) = printContent d.content d.isBlock ++ ['\n'] := by
      have hwrap : printDescription (some d) =
          wrap [] (printContent d.content d.isBlock) ['\n'] := rfl
      rw [hwrap, wrap, if_neg (by simpa using hfull), List.nil_append]
    rw [hprint]
    rw [List.append_nil] at hall
    exact hall hlexical

/-! ## Selections -/

theorem renders_label (label : Option String) (name : String) :
    Renders ((label.elim [] fun label => wrap [] label.toList [':', ' ']) ++ name.toList)
      (tokensOfLabel label ++ [.name name]) := by
  cases label with
  | none => exact renders_name name
  | some label =>
    intro hlexical
    have hall := (renders_name label).colon (List.cons_ne_nil _ _) (renders_name name)
      (List.cons_ne_nil _ _)
    have hfull : label.toList ≠ [] :=
      (renders_name label).ne_nil (by
        rintro token htoken
        exact hlexical token (by simp [tokensOfLabel, List.mem_singleton.1 htoken]))
        (List.cons_ne_nil _ _)
    have hwrap : wrap [] label.toList [':', ' '] = label.toList ++ [':', ' '] := by
      rw [wrap, if_neg (by simpa using hfull), List.nil_append]
    rw [Option.elim_some, hwrap]
    exact hall hlexical

/-- The arguments of a field stand in line or on lines of their own. -/
theorem renders_fieldHead (label : Option String) (name : String) (given : List Argument) :
    Renders (printFieldHead label name given)
      (tokensOfLabel label ++ [.name name] ++ tokensOfArguments given) := by
  have hgiven := fun argument (_ : argument ∈ given) => renders_argument argument
  have hlabel := renders_label label name
  unfold printFieldHead
  dsimp only
  split
  · exact hlabel.append (renders_spreadList hgiven) (boundary_spreadList _)
  · exact hlabel.append (renders_inlineList hgiven) (boundary_inlineList _)

theorem printSelections_eq (selections : List Selection) :
    printSelections selections = selections.map printSelection := by
  induction selections with
  | nil => rfl
  | cons selection rest ih => rw [printSelections, ih, List.map_cons]

theorem renders_condition (condition : Option String) :
    Renders (condition.elim [] fun name => wrap "on ".toList name.toList [])
      (tokensOfCondition condition) := by
  cases condition with
  | none => exact renders_nil
  | some name => exact (renders_name "on").leading (renders_name name)

mutual

/-- A selection is printed as its tokens. -/
theorem renders_selection : (selection : Selection) →
    Renders (printSelection selection) selection.tokens
  | .field label name given notes below => by
    have hbelow := renders_block (renders_each below)
    have hall := renders_parts (.cons (renders_fieldHead label name given)
      (.cons (renders_directives notes) (.cons hbelow .nil)))
    rw [printSelection, Selection.tokens, printSelections_eq, tokensOfEach_eq]
    simpa using hall
  | .spread name notes => by
    have hall := (renders_marked .spread (renders_name name) (List.cons_ne_nil _ _)).noted
      (List.cons_ne_nil _ _) (renders_directives notes)
    rw [printSelection, Selection.tokens]
    exact hall
  | .inline condition notes below => by
    have hbelow := renders_block (renders_each below)
    have hdots : Renders "...".toList [.punct .spread] := renders_punct .spread
    have hall := renders_parts (.cons hdots (.cons (renders_condition condition)
      (.cons (renders_directives notes) (.cons hbelow .nil))))
    rw [printSelection, Selection.tokens, printSelections_eq, tokensOfEach_eq]
    simpa using hall

theorem renders_each : (selections : List Selection) →
    ∀ selection ∈ selections, Renders (printSelection selection) selection.tokens
  | [] => by simp
  | selection :: rest => List.forall_mem_cons.2 ⟨renders_selection selection, renders_each rest⟩

end

theorem renders_selectionSet (selections : List Selection) :
    Renders (printSelectionSet selections) (tokensOfSelections selections) := by
  rw [printSelectionSet, printSelections_eq]
  exact renders_block fun selection _ => renders_selection selection

end PersistedQueries.GraphQL
