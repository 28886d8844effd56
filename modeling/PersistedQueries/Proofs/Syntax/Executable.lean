import PersistedQueries.GraphQL.Parser.Executable
import PersistedQueries.Proofs.Syntax.Values

/-!
# What the parsers of operations and fragments read

A selection set is read by induction on the levels that it may still nest; the parser of one
selection is given that of the selection sets below.

- `reads_field`, `reads_spreadOrInline`, `reads_selection`, `reads_selectionSet`.
- `reads_variableDefinition`, `reads_operation`, `reads_fragment`. An operation has two spellings
  when it is nothing but a selection set.
-/

namespace PersistedQueries.GraphQL

open PersistedQueries.GraphQL.Parser

variable {stream rest : TokenStream} {levels : Nat}

/-! ## Fields -/

namespace Parser

/-- The name of a field with its label. -/
def fieldName : Parser (Option String × String) :=
  (fun x : String × Option String => x.2.elim (none, x.1) fun name => (some x.1, name)) <$>
    both name (opt .colon name)

/-- The selection set below a field, when there is one. -/
def below (nested : Parser (List Selection)) : Parser (List Selection) := do
  if ← peekPunct .braceL then nested else return []

end Parser

theorem reads_fieldName : Reads fieldName
    (Exactly (fun _ => True) fun x => tokensOfLabel x.1 ++ [.name x.2]) {.punct .colon} := by
  have hlabel := (reads_name.opt .colon).mono (Set.insert_subset (Set.mem_singleton _) (by simp))
  refine (reads_name.both {.punct .colon} hlabel (by simp [StartsApart])
    (by simp)).map fun x tokens => ?_
  constructor
  · rintro ⟨-, rfl⟩
    obtain ⟨label, key⟩ := x
    cases label with
    | none => exact ⟨(key, none), rfl, _, _, rfl, .inr ⟨rfl, rfl⟩, rfl⟩
    | some label => exact ⟨(label, some key), rfl, _, _, rfl, .inl ⟨_, _, rfl, rfl, rfl⟩, rfl⟩
  · rintro ⟨⟨first, second⟩, rfl, _, _, rfl, ⟨_, _, rfl, rfl, rfl⟩ | ⟨rfl, rfl⟩, rfl⟩
    · exact ⟨trivial, rfl⟩
    · exact ⟨trivial, rfl⟩

theorem tokens_ne_nil (selection : Selection) : selection.tokens ≠ [] := by
  cases selection with
  | field label => cases label <;> simp [Selection.tokens, tokensOfLabel]
  | spread => simp [Selection.tokens]
  | inline => simp [Selection.tokens]

theorem tokensOfSelections_of_ne_nil {selections : List Selection} (h : selections ≠ []) :
    tokensOfSelections selections =
      .punct .braceL :: selections.flatMap Selection.tokens ++ [.punct .braceR] := by
  obtain ⟨selection, others, rfl⟩ := List.exists_cons_of_ne_nil h
  rw [tokensOfSelections, enclosed, if_neg]
  simp [tokens_ne_nil]

theorem reads_below {nested : Parser (List Selection)}
    (h : Reads nested (Exactly (SelectionSetFits levels) tokensOfSelections) ∅) :
    Reads (below nested)
      (Exactly (fun selections => selections ≠ [] → SelectionSetFits levels selections)
        tokensOfSelections) {.punct .braceL} where
  sound := by
    intro stream rest selections hstream hok
    simp only [below, bind_eq_ok, peekPunct_eq_ok] at hok
    obtain ⟨_, _, ⟨rfl, rfl⟩, hok⟩ := hok
    split at hok
    · obtain ⟨_, ⟨hfits, rfl⟩, hleads⟩ := h.sound hstream hok
      exact ⟨_, ⟨fun _ => hfits, rfl⟩, hleads⟩
    · obtain ⟨rfl, rfl⟩ := pure_eq_ok.1 hok
      exact ⟨[], ⟨fun hne => absurd rfl hne, rfl⟩, .nil, hstream⟩
  complete := by
    rintro stream rest selections _ ⟨hfits, rfl⟩ hleads hrest hstops
    simp only [below, bind_eq_ok, peekPunct_eq_ok]
    refine ⟨_, _, ⟨rfl, rfl⟩, ?_⟩
    by_cases hempty : selections = []
    · subst hempty
      obtain rfl := Leads.nil_iff.1 hleads
      rw [if_neg (by simpa using hstops _ rfl)]
      exact pure_eq_ok.2 ⟨rfl, rfl⟩
    · have hok := h.complete ⟨hfits hempty, rfl⟩ hleads hrest (by simp [Avoids])
      rw [tokensOfSelections_of_ne_nil hempty] at hleads
      rwa [if_pos (by simpa using hleads.token?_eq)]

theorem field_eq (levels : Nat) (nested : Parser (List Selection)) : field levels nested =
    (fun x => Selection.field x.1.1.1.1 x.1.1.1.2 x.1.1.2 x.1.2 x.2) <$>
      both (both (both fieldName (arguments false levels)) (directives false levels))
        (below nested) := by
  simp only [field, both, fieldName, below, opt, map_eq_pure_bind, bind_assoc, pure_bind]
  congr! with first colon
  cases colon <;>
    simp only [Bool.false_eq_true, if_true, if_false, bind_assoc, pure_bind, Option.elim] <;>
    congr! <;> split <;> rfl

/-- Selection sets begin with a brace. -/
theorem startsApart_selections {Fits : List Selection → Prop} {stops stops' : Set Token}
    (hopen : .punct .braceL ∉ stops) (hsub : stops ⊆ stops') :
    StartsApart (Exactly Fits tokensOfSelections) stops stops' := by
  rintro selections _ ⟨-, rfl⟩
  refine ⟨fun token htoken => ?_, fun _ => hsub⟩
  rwa [head?_enclosed _ _ _ token htoken]

/-- What follows a field must not be what could continue it. -/
def fieldStops : Set Token :=
  {.punct .colon, .punct .parenL, .punct .at, .punct .braceL}

theorem reads_field {nested : Parser (List Selection)}
    (h : Reads nested (Exactly (SelectionSetFits levels) tokensOfSelections) ∅) :
    Reads (field levels nested)
      (fun selection tokens => (∃ label name given notes below,
        selection = .field label name given notes below) ∧
        Exactly (Selection.Fits levels) Selection.tokens selection tokens) fieldStops := by
  rw [field_eq]
  have hgiven := reads_fieldName.both {.punct .colon, .punct .parenL}
    (reads_arguments false levels) (startsApart_arguments (by simp) (by simp)) (by simp)
  have hnotes := hgiven.both {.punct .colon, .punct .parenL, .punct .at}
    (reads_directives false levels)
    (startsApart_directives (by simp) (by simp [Set.insert_subset_iff]))
    (by simp [Set.insert_subset_iff])
  have hbelow := hnotes.both fieldStops (reads_below h)
    (startsApart_selections (by simp) (by simp [fieldStops, Set.insert_subset_iff]))
    (by simp [fieldStops])
  simp only [both_exactly] at hbelow
  refine hbelow.map fun selection tokens => ?_
  constructor
  · rintro ⟨⟨label, name, given, notes, below, rfl⟩, hfits, rfl⟩
    cases hfits with
    | field hgiven hnotes hlevels hbelow =>
      refine ⟨((((label, name), given), notes), below), rfl, ⟨⟨⟨⟨trivial, hgiven⟩, hnotes⟩,
        fun hne => ⟨hne, hlevels hne, hbelow⟩⟩, ?_⟩⟩
      simp [Selection.tokens, tokensOfEach_eq, tokensOfSelections]
  · rintro ⟨⟨⟨⟨⟨label, name⟩, given⟩, notes⟩, below⟩, rfl,
      ⟨⟨⟨⟨-, hgiven⟩, hnotes⟩, hbelow⟩, rfl⟩⟩
    refine ⟨⟨label, name, given, notes, below, rfl⟩, .field hgiven hnotes
      (fun hne => (hbelow hne).levels_pos) (fun selection hmem => ?_), ?_⟩
    · exact (hbelow (List.ne_nil_of_mem hmem)).each selection hmem
    · simp [Selection.tokens, tokensOfEach_eq, tokensOfSelections]

/-! ## Spreads and inline fragments -/

theorem reads_fragmentName :
    Reads fragmentName (Exactly (· ≠ "on") fun text => [.name text]) ∅ where
  sound := by
    intro stream rest text hstream hok
    obtain ⟨_, _, hpeek, hok⟩ := bind_eq_ok.1 hok
    obtain ⟨rfl, rfl⟩ := peek_eq_ok.1 hpeek
    have hname : ∀ h : name stream = .ok (text, rest), token? stream ≠ some (.name "on") →
        ∃ tokens, Exactly (· ≠ "on") (fun text => [.name text]) text tokens ∧
          Leads tokens stream rest ∧ Settled rest := by
      intro h hne
      obtain ⟨hleads, hrest⟩ := name_eq_ok.1 h
      refine ⟨_, ⟨?_, rfl⟩, hleads, hrest⟩
      rintro rfl
      exact hne hleads.token?_eq
    cases htoken : token? stream with
    | none =>
      rw [htoken] at hok
      exact hname hok (by simp [htoken])
    | some token =>
      rw [htoken] at hok
      dsimp only at hok
      split at hok
      · cases hok
      · next hne =>
        refine hname hok fun h => hne ?_
        obtain rfl := Option.some.inj (htoken.symm.trans h)
        rfl
  complete := by
    rintro stream rest text _ ⟨hne, rfl⟩ hleads hrest -
    refine bind_eq_ok.2 ⟨_, stream, peek_eq_ok.2 ⟨rfl, rfl⟩, ?_⟩
    rw [hleads.token?_eq]
    dsimp only
    rw [if_neg (by simpa [Token.content?] using hne)]
    exact name_eq_ok.2 ⟨hleads, hrest⟩

namespace Parser

/-- A fragment spread behind its dots. -/
def spreadBody (levels : Nat) : Parser Selection :=
  (fun x : String × List Directive => .spread x.1 x.2) <$>
    both fragmentName (directives false levels)

/-- An inline fragment behind its type condition. -/
def inlineBody (levels : Nat) (nested : Parser (List Selection)) :
    Parser (List Directive × List Selection) :=
  both (directives false levels) nested

/-- Whether a token is a name. -/
def isName : Token → Bool
  | .name _ => true
  | _ => false

/-- What stands behind the dots when no type condition does: the name of a fragment, or the rest of
an inline fragment. -/
def spreadOrPlain (levels : Nat) (nested : Parser (List Selection)) : Parser Selection := do
  if (← peek).any isName then spreadBody levels
  else (fun x : List Directive × List Selection => .inline none x.1 x.2) <$>
    inlineBody levels nested

end Parser

/-- The tokens that are names. -/
def nameTokens : Set Token := Set.range Token.name

theorem spreadOrInline_eq (levels : Nat) (nested : Parser (List Selection)) :
    spreadOrInline levels nested = behind (expectPunct .spread) (do
      if ← skipKeyword "on" then
        (fun x : String × List Directive × List Selection => .inline (some x.1) x.2.1 x.2.2) <$>
          both name (inlineBody levels nested)
      else spreadOrPlain levels nested) := by
  simp only [spreadOrInline, behind, spreadOrPlain, spreadBody, inlineBody, both,
    map_eq_pure_bind, bind_assoc, pure_bind]
  congr! with _ _ _ _ next
  cases next with
  | none => rfl
  | some token => cases token <;> rfl

/-- The spelling of a fragment spread behind its dots. -/
def SpellsSpread (levels : Nat) (selection : Selection) (tokens : List Token) : Prop :=
  ∃ target notes, target ≠ "on" ∧ (∀ note ∈ notes, note.Fits false levels) ∧
    selection = .spread target notes ∧ tokens = .name target :: tokensOfDirectives notes

/-- The spelling of an inline fragment without a condition behind its dots. -/
def SpellsPlain (levels : Nat) (selection : Selection) (tokens : List Token) : Prop :=
  ∃ notes below, (∀ note ∈ notes, note.Fits false levels) ∧ SelectionSetFits levels below ∧
    selection = .inline none notes below ∧
    tokens = tokensOfDirectives notes ++ tokensOfSelections below

theorem reads_spreadBody (levels : Nat) :
    Reads (spreadBody levels) (SpellsSpread levels) {.punct .at, .punct .parenL} := by
  have hboth := reads_fragmentName.both {.punct .at, .punct .parenL}
    (reads_directives false levels) (startsApart_directives (by simp) (by simp)) (by simp)
  rw [both_exactly] at hboth
  refine hboth.map fun selection tokens => ?_
  constructor
  · rintro ⟨target, notes, hname, hnotes, rfl, rfl⟩
    exact ⟨(target, notes), rfl, ⟨hname, hnotes⟩, rfl⟩
  · rintro ⟨⟨target, notes⟩, rfl, ⟨hname, hnotes⟩, rfl⟩
    exact ⟨target, notes, hname, hnotes, rfl, rfl⟩

theorem reads_inlineBody {nested : Parser (List Selection)}
    (h : Reads nested (Exactly (SelectionSetFits levels) tokensOfSelections) ∅) :
    Reads (inlineBody levels nested)
      (Exactly (fun x => (∀ note ∈ x.1, note.Fits false levels) ∧ SelectionSetFits levels x.2)
        fun x => tokensOfDirectives x.1 ++ tokensOfSelections x.2) {.punct .at, .punct .parenL} := by
  have hboth := (reads_directives false levels).both {.punct .at, .punct .parenL} h
    (startsApart_selections (by simp) (by simp)) (by simp)
  rwa [both_exactly] at hboth

/-- An inline fragment without a condition begins, behind the dots, with a directive or a brace. -/
theorem head_inlineBody (notes : List Directive) {selections : List Selection}
    (hfits : SelectionSetFits levels selections) : ∃ token more,
      tokensOfDirectives notes ++ tokensOfSelections selections = token :: more ∧
      (token = .punct .at ∨ token = .punct .braceL) := by
  cases notes with
  | nil =>
    rw [tokensOfSelections_of_ne_nil hfits.ne_nil]
    exact ⟨_, _, rfl, .inr rfl⟩
  | cons note notes => exact ⟨_, _, rfl, .inl rfl⟩

theorem reads_spreadOrPlain {nested : Parser (List Selection)}
    (h : Reads nested (Exactly (SelectionSetFits levels) tokensOfSelections) ∅) :
    Reads (spreadOrPlain levels nested)
      (fun selection tokens => SpellsSpread levels selection tokens ∨
        SpellsPlain levels selection tokens) {.punct .at, .punct .parenL} := by
  have hplain : Reads ((fun x => Selection.inline none x.1 x.2) <$> inlineBody levels nested)
      (SpellsPlain levels) {.punct .at, .punct .parenL} := by
    refine (reads_inlineBody h).map fun selection tokens => ?_
    constructor
    · rintro ⟨notes, below, hnotes, hbelow, rfl, rfl⟩
      exact ⟨(notes, below), rfl, ⟨hnotes, hbelow⟩, rfl⟩
    · rintro ⟨⟨notes, below⟩, rfl, ⟨hnotes, hbelow⟩, rfl⟩
      exact ⟨notes, below, hnotes, hbelow, rfl, rfl⟩
  refine (reads_spreadBody levels).byNext nameTokens hplain ?_ ?_ ?_ ?_ (by simp) (by simp)
  · rintro stream _ htoken ⟨word, rfl⟩
    simp [spreadOrPlain, peek_bind, htoken, isName]
  · intro stream havoids
    have hnext : (token? stream).any isName = false := by
      cases htoken : token? stream with
      | none => rfl
      | some token =>
        cases token with
        | name word => exact absurd htoken (havoids _ ⟨word, rfl⟩)
        | _ => rfl
    simp [spreadOrPlain, peek_bind, hnext]
  · rintro selection _ ⟨target, notes, -, -, -, rfl⟩
    exact ⟨_, _, rfl, target, rfl⟩
  · rintro selection _ ⟨notes, below, -, hbelow, -, rfl⟩
    obtain ⟨token, more, heq, htoken⟩ := head_inlineBody notes hbelow
    rw [heq]
    rcases htoken with rfl | rfl <;> simp [nameTokens]

theorem reads_spreadOrInline {nested : Parser (List Selection)}
    (h : Reads nested (Exactly (SelectionSetFits levels) tokensOfSelections) ∅) :
    Reads (spreadOrInline levels nested)
      (fun selection tokens => (∀ label name given notes below,
        selection ≠ .field label name given notes below) ∧
        Exactly (Selection.Fits levels) Selection.tokens selection tokens)
      {.punct .at, .punct .parenL} := by
  rw [spreadOrInline_eq]
  have hcondition := ((reads_name.both {.punct .at, .punct .parenL}
    (reads_inlineBody h) (by simp [StartsApart]) (by simp)).map (g := fun x =>
      Selection.inline (some x.1) x.2.1 x.2.2) fun _ _ => Iff.rfl)
  refine ((hcondition.choice {.punct .at, .punct .parenL} (reads_spreadOrPlain h)
    (.name "on") ?_ (by simp) (by simp)).behind (expectPunct_eq_ok (p := .spread))).congr ?_
  · rintro selection _ (⟨target, notes, hname, -, -, rfl⟩ | ⟨notes, below, -, hbelow, -, rfl⟩)
    · exact ⟨by simpa using hname, by simp⟩
    · obtain ⟨token, more, heq, htoken⟩ := head_inlineBody notes hbelow
      rw [heq]
      rcases htoken with rfl | rfl <;> simp
  · intro selection tokens
    constructor
    · rintro ⟨_, ⟨_, ⟨⟨name, notes, below⟩, rfl, _, _, rfl, ⟨⟨hnotes, hbelow⟩, rfl⟩, rfl⟩, rfl⟩ |
        ⟨target, notes, hname, hnotes, rfl, rfl⟩ | ⟨notes, below, hnotes, hbelow, rfl, rfl⟩, rfl⟩
      · refine ⟨by simp, .inline hnotes hbelow.levels_pos hbelow.ne_nil hbelow.each, ?_⟩
        simp [Selection.tokens, tokensOfEach_eq, tokensOfCondition, tokensOfSelections]
      · exact ⟨by simp, .spread hname hnotes, rfl⟩
      · refine ⟨by simp, .inline hnotes hbelow.levels_pos hbelow.ne_nil hbelow.each, ?_⟩
        simp [Selection.tokens, tokensOfEach_eq, tokensOfCondition, tokensOfSelections]
    · rintro ⟨hplain, hfits, rfl⟩
      cases hfits with
      | field => exact absurd rfl (hplain _ _ _ _ _)
      | spread hname hnotes => exact ⟨_, .inr (.inl ⟨_, _, hname, hnotes, rfl, rfl⟩), rfl⟩
      | @inline _ condition notes below hnotes hlevels hne hbelow =>
        have hbelow : SelectionSetFits levels below := ⟨hne, hlevels, hbelow⟩
        refine ⟨tokensOfCondition condition ++ (tokensOfDirectives notes ++
          tokensOfSelections below), ?_, ?_⟩
        · cases condition with
          | none => exact .inr (.inr ⟨notes, below, hnotes, hbelow, rfl, rfl⟩)
          | some name =>
            exact .inl ⟨_, ⟨(name, notes, below), rfl, _, _, rfl, ⟨⟨hnotes, hbelow⟩, rfl⟩, rfl⟩,
              rfl⟩
        · simp [Selection.tokens, tokensOfEach_eq, tokensOfSelections]

/-! ## Selection sets -/

theorem reads_selection {nested : Parser (List Selection)}
    (h : Reads nested (Exactly (SelectionSetFits levels) tokensOfSelections) ∅) :
    Reads (selection levels nested) (Exactly (Selection.Fits levels) Selection.tokens)
      fieldStops := by
  refine ((reads_spreadOrInline h).byNext {.punct .spread} (reads_field h) ?_ ?_ ?_ ?_
    (by simp [fieldStops, Set.insert_subset_iff]) (Set.Subset.refl _)).congr ?_
  · rintro stream _ htoken rfl
    simp [selection, peekPunct, peek_bind, htoken]
  · intro stream havoids
    simp [selection, peekPunct, peek_bind, havoids _ rfl]
  · rintro a _ ⟨hplain, -, rfl⟩
    cases a with
    | field => exact absurd rfl (hplain _ _ _ _ _)
    | spread | inline => exact ⟨_, _, rfl, rfl⟩
  · rintro _ _ ⟨⟨label, name, given, notes, below, rfl⟩, -, rfl⟩
    cases label <;> simp [Selection.tokens, tokensOfLabel]
  · intro a tokens
    constructor
    · rintro (⟨-, h⟩ | ⟨-, h⟩) <;> exact h
    · intro h
      cases a with
      | field => exact .inr ⟨⟨_, _, _, _, _, rfl⟩, h⟩
      | spread | inline => exact .inl ⟨by simp, h⟩

theorem separable_selection :
    Separable (Exactly (Selection.Fits levels) Selection.tokens) fieldStops (.punct .braceR) where
  closing_free := by simp [fieldStops]
  starts := by
    rintro a _ ⟨-, rfl⟩
    cases a with
    | field label => cases label <;> exact ⟨_, _, rfl, by simp [fieldStops], by simp⟩
    | spread | inline => exact ⟨_, _, rfl, by simp [fieldStops], by simp⟩

/-- The parser of selection sets reads those that nest as deep as the levels allow. -/
theorem reads_selectionSet (levels : Nat) :
    Reads (selectionSet levels) (Exactly (SelectionSetFits levels) tokensOfSelections) ∅ := by
  induction levels with
  | zero =>
    refine (reads_fail .nestedTooDeeply).congr fun selections tokens => ⟨nofun, ?_⟩
    rintro ⟨hfits, -⟩
    exact absurd hfits.levels_pos (Nat.lt_irrefl 0)
  | succ levels ih =>
    refine ((reads_selection ih).oneOrMore separable_selection).congr fun selections tokens => ?_
    simp only [each_exactly]
    constructor
    · rintro ⟨hne, _, ⟨hfits, rfl⟩, rfl⟩
      exact ⟨⟨hne, Nat.succ_pos levels, hfits⟩, rfl⟩
    · rintro ⟨⟨hne, -, hfits⟩, rfl⟩
      exact ⟨hne, _, ⟨hfits, rfl⟩, rfl⟩

/-! ## Variables -/

theorem reads_defaultValue : Reads (opt .equals (value true Parser.levels))
    (Exactly (fun value? => ∀ v, value? = some v → v.Fits true Parser.levels) tokensOfDefault)
    {.punct .equals} := by
  refine (((reads_value true Parser.levels).opt .equals).mono (by simp)).congr fun value? tokens => ?_
  constructor
  · rintro (⟨v, _, rfl, ⟨hfits, rfl⟩, rfl⟩ | ⟨rfl, rfl⟩)
    · exact ⟨fun other h => Option.some.inj h ▸ hfits, rfl⟩
    · exact ⟨nofun, rfl⟩
  · rintro ⟨hfits, rfl⟩
    cases value? with
    | none => exact .inr ⟨rfl, rfl⟩
    | some v => exact .inl ⟨v, _, rfl, ⟨hfits v rfl, rfl⟩, rfl⟩

/-- What follows a variable must not be what could continue it. -/
def variableStops : Set Token :=
  {.punct .bang, .punct .equals, .punct .at, .punct .parenL}

namespace Parser

/-- A description, a name as the first parser reads it, a type, perhaps a default value, and
directives. -/
def declaration (front : Parser String) :
    Parser (Option Description × ((String × TypeRef) × Option Value) × List Directive) :=
  both description? (both (both (both front (behind (expectPunct .colon) (typeRef Parser.levels)))
    (opt .equals (value true Parser.levels))) (directives true Parser.levels))

end Parser

theorem reads_declaration {front : Parser String} {spelling : String → List Token}
    (hfront : Reads front (Exactly (fun _ => True) spelling) ∅)
    (hstarts : ∀ text, ∃ token more, spelling text = token :: more ∧ token ∉ stringTokens) :
    Reads (declaration front)
      (Exactly (fun x => x.2.1.1.2.Fits Parser.levels ∧
          (∀ v, x.2.1.2 = some v → v.Fits true Parser.levels) ∧
          ∀ note ∈ x.2.2, note.Fits true Parser.levels)
        fun x => tokensOfDescription x.1 ++ spelling x.2.1.1.1 ++ [.punct .colon] ++
          x.2.1.1.2.tokens ++ tokensOfDefault x.2.1.2 ++ tokensOfDirectives x.2.2)
      variableStops := by
  have htype : Reads (behind (expectPunct .colon) (typeRef Parser.levels))
      (Exactly (TypeRef.Fits Parser.levels) fun type => .punct .colon :: type.tokens)
      {.punct .bang} :=
    ((reads_typeRef Parser.levels).behind expectPunct_eq_ok).congr fun type tokens => by
      simp [Exactly]
  have hnamed := hfront.both {.punct .bang} htype (by simp [StartsApart]) (by simp)
  have hvalued := hnamed.both {.punct .bang, .punct .equals} reads_defaultValue
    (by
      rintro value? _ ⟨-, rfl⟩
      cases value? <;> simp [tokensOfDefault]) (by simp)
  have hnoted := hvalued.both variableStops (reads_directives true Parser.levels)
    (startsApart_directives (by simp) (by simp [variableStops, Set.insert_subset_iff]))
    (by simp [variableStops, Set.insert_subset_iff])
  have hall := reads_description?.both variableStops hnoted
    (by
      rintro x _ ⟨_, _, ⟨_, _, ⟨_, _, ⟨-, rfl⟩, -, rfl⟩, -, rfl⟩, -, rfl⟩
      obtain ⟨token, more, heq, hfree⟩ := hstarts x.1.1.1
      simp [heq, hfree]) (by simp)
  simp only [both_exactly] at hall
  refine hall.congr fun x tokens => ?_
  simp only [Exactly, List.append_assoc, List.cons_append, true_and]
  exact and_congr_left' and_assoc

theorem variableDefinition_eq : variableDefinition =
    (fun x => (⟨x.1, x.2.1.1.1, x.2.1.1.2, x.2.1.2, x.2.2⟩ : VariableDefinition)) <$>
      declaration (behind (expectPunct .dollar) name) := by
  simp only [variableDefinition, declaration, both, behind, opt, map_eq_pure_bind, bind_assoc,
    pure_bind]
  congr! with _ _ _ _ found
  cases found <;>
    simp only [Bool.false_eq_true, if_true, if_false, bind_assoc, pure_bind]

theorem reads_variableDefinition : Reads variableDefinition
    (Exactly VariableDefinition.Fits VariableDefinition.tokens) variableStops := by
  have hname : Reads (behind (expectPunct .dollar) name)
      (Exactly (fun _ => True) fun text => [.punct .dollar, .name text]) ∅ :=
    (reads_name.behind expectPunct_eq_ok).congr fun text tokens => by simp [Exactly]
  rw [variableDefinition_eq]
  refine (reads_declaration hname fun text => ⟨_, _, rfl, by simp [stringTokens, stringToken]⟩).map
    fun v tokens => ?_
  constructor
  · rintro ⟨hfits, rfl⟩
    refine ⟨(v.description, ((v.name, v.type), v.defaultValue), v.directives), rfl,
      ⟨hfits.type, hfits.defaultValue, hfits.directives⟩, ?_⟩
    simp [VariableDefinition.tokens]
  · rintro ⟨⟨note, ⟨⟨key, type⟩, initial⟩, notes⟩, rfl, ⟨htype, hvalue, hnotes⟩, rfl⟩
    exact ⟨⟨htype, hvalue, hnotes⟩, by simp [VariableDefinition.tokens]⟩

theorem separable_variableDefinition :
    Separable (Exactly VariableDefinition.Fits VariableDefinition.tokens) variableStops
      (.punct .parenR) where
  closing_free := by simp [variableStops]
  starts := by
    rintro v _ ⟨-, rfl⟩
    cases hnote : v.description with
    | none =>
      refine ⟨.punct .dollar, _, by rw [VariableDefinition.tokens, hnote]; rfl, ?_⟩
      simp [variableStops]
    | some note =>
      refine ⟨stringToken note.content note.isBlock, _,
        by rw [VariableDefinition.tokens, hnote]; rfl, ?_⟩
      unfold stringToken
      split <;> simp [variableStops]

theorem reads_parameters : Reads (optionalList .parenL variableDefinition .parenR)
    (Exactly (fun parameters => ∀ v ∈ parameters, v.Fits)
      fun parameters => enclosed .parenL .parenR (parameters.flatMap VariableDefinition.tokens))
    {.punct .parenL} :=
  reads_variableDefinition.listed separable_variableDefinition

/-! ## Operations -/

@[simp] theorem ofWord?_word (kind : OperationKind) :
    OperationKind.ofWord? kind.word = some kind := by
  cases kind <;> decide

theorem word_of_ofWord? {word : String} {kind : OperationKind}
    (h : OperationKind.ofWord? word = some kind) : kind.word = word := by
  simpa using List.find?_some h

theorem reads_operationKind : Reads operationKind
    (Exactly (fun _ => True) fun kind => [.name kind.word]) ∅ where
  sound := by
    intro stream rest kind _ hok
    unfold operationKind at hok
    cases hname : name stream with
    | error fault =>
      rw [hname] at hok
      cases hok
    | ok found =>
      obtain ⟨word, behind⟩ := found
      rw [hname] at hok
      cases hkind : OperationKind.ofWord? word with
      | none =>
        simp only [hkind] at hok
        cases hok
      | some other =>
        simp only [hkind, Except.ok.injEq, Prod.mk.injEq] at hok
        obtain ⟨rfl, rfl⟩ := hok
        obtain rfl := word_of_ofWord? hkind
        exact ⟨_, ⟨trivial, rfl⟩, name_eq_ok.1 hname⟩
  complete := by
    rintro stream rest kind _ ⟨-, rfl⟩ hleads hrest -
    simp [operationKind, name_eq_ok.2 ⟨hleads, hrest⟩]

namespace Parser

/-- A name, when one comes next. -/
def name? : Parser (Option String) := do
  match ← peek with
  | some (.name _) => return some (← name)
  | _ => return none

/-- An operation that begins with the word for its kind, behind a description. -/
def longOperation : Parser Operation := do
  let note ← description?
  let kind ← operationKind
  let title ← name?
  let parameters ← optionalList .parenL variableDefinition .parenR
  let notes ← directives false Parser.levels
  let selections ← selectionSet Parser.levels
  return ⟨note, kind, title, parameters, notes, selections⟩

/-- An operation that is nothing but a selection set. -/
def shorthand : Parser Operation :=
  (fun selections => ⟨none, .query, none, [], [], selections⟩) <$> selectionSet Parser.levels

end Parser

/-- The tokens of a name that may be missing. -/
def tokensOfTitle (title : Option String) : List Token := title.elim [] fun text => [.name text]

theorem reads_name? : Reads name? (Exactly (fun _ => True) tokensOfTitle) nameTokens := by
  have hname := reads_name.map (g := some) fun _ _ => Iff.rfl
  rw [map_eq_pure_bind] at hname
  refine (hname.byNext nameTokens (reads_pure none) ?_ ?_ ?_ ?_ (by simp) (by simp)).congr ?_
  · rintro stream _ htoken ⟨word, rfl⟩
    rw [name?, peek_bind, htoken]
  · intro stream havoids
    rw [name?, peek_bind]
    cases htoken : token? stream with
    | none => rfl
    | some token =>
      cases token with
      | name word => exact absurd htoken (havoids _ ⟨word, rfl⟩)
      | _ => rfl
  · rintro title _ ⟨text, -, rfl⟩
    exact ⟨_, _, rfl, text, rfl⟩
  · rintro title _ ⟨rfl, rfl⟩
    exact ⟨nofun, fun _ => Set.Subset.refl _⟩
  · intro title tokens
    constructor
    · rintro (⟨text, rfl, rfl⟩ | ⟨rfl, rfl⟩) <;> exact ⟨trivial, rfl⟩
    · rintro ⟨-, rfl⟩
      cases title with
      | none => exact .inr ⟨rfl, rfl⟩
      | some text => exact .inl ⟨text, rfl, rfl⟩

theorem longOperation_eq : longOperation =
    (fun x => (⟨x.1, x.2.1.1.1.1, x.2.1.1.1.2, x.2.1.1.2, x.2.1.2, x.2.2⟩ : Operation)) <$>
      both description? (both (both (both (both operationKind name?)
        (optionalList .parenL variableDefinition .parenR)) (directives false Parser.levels))
        (selectionSet Parser.levels)) := by
  simp only [longOperation, both, map_eq_pure_bind, bind_assoc, pure_bind]

theorem reads_longOperation : Reads longOperation (Exactly Operation.Fits Operation.tokens) ∅ := by
  have htitled := reads_operationKind.both nameTokens reads_name?
    (by simp [StartsApart]) (by simp)
  have hvaried := htitled.both (insert (.punct .parenL) nameTokens) reads_parameters
    (by
      rintro parameters _ ⟨-, rfl⟩
      refine ⟨fun token htoken => ?_, fun _ => by simp⟩
      rw [head?_enclosed _ _ _ token htoken]
      simp [nameTokens]) (by simp)
  have hnoted := hvaried.both ({.punct .at, .punct .parenL} ∪ nameTokens)
    (reads_directives false Parser.levels)
    (startsApart_directives (by simp [nameTokens]) (by simp [Set.insert_subset_iff])) (by simp)
  have hwhole := hnoted.both ∅ (reads_selectionSet Parser.levels)
    (by
      rintro selections _ ⟨hfits, rfl⟩
      rw [tokensOfSelections_of_ne_nil hfits.ne_nil]
      simp [nameTokens]) (by simp)
  have hall := reads_description?.both ∅ hwhole
    (by
      rintro x _ ⟨_, _, ⟨_, _, ⟨_, _, ⟨_, _, ⟨-, rfl⟩, -, rfl⟩, -, rfl⟩, -, rfl⟩, -, rfl⟩
      simp [stringTokens, stringToken]) (by simp)
  simp only [both_exactly] at hall
  rw [longOperation_eq]
  refine hall.map fun operation tokens => ?_
  constructor
  · rintro ⟨hfits, rfl⟩
    refine ⟨(operation.description, (((operation.kind, operation.name), operation.parameters),
      operation.directives), operation.selections), rfl, ⟨trivial, ⟨⟨⟨trivial, trivial⟩,
      hfits.parameters⟩, hfits.directives⟩, hfits.selections⟩, ?_⟩
    simp [Operation.tokens, tokensOfTitle]
  · rintro ⟨⟨note, ⟨⟨⟨kind, title⟩, parameters⟩, notes⟩, selections⟩, rfl,
      ⟨-, ⟨⟨⟨-, -⟩, hparameters⟩, hnotes⟩, hselections⟩, rfl⟩
    exact ⟨⟨hparameters, hnotes, hselections⟩, by simp [Operation.tokens, tokensOfTitle]⟩

theorem operation_eq :
    operation = (do if ← peekPunct .braceL then shorthand else longOperation) := by
  simp only [operation, shorthand, longOperation, name?, map_eq_pure_bind, bind_assoc, pure_bind]
  congr! with _ _ _ _ _ next
  cases next with
  | none => rfl
  | some token => cases token <;> simp only [bind_assoc, pure_bind]

/-- The spellings of an operation: all of it, or the selection set when there is nothing else. -/
def SpellsOperation (operation : Operation) (tokens : List Token) : Prop :=
  operation.Fits ∧ (tokens = operation.tokens ∨
    operation.IsShorthand ∧ tokens = tokensOfSelections operation.selections)

theorem reads_operation : Reads operation SpellsOperation ∅ := by
  have hshort : Reads shorthand (fun operation tokens => operation.Fits ∧ operation.IsShorthand ∧
      tokens = tokensOfSelections operation.selections) ∅ := by
    refine (reads_selectionSet Parser.levels).map fun operation tokens => ?_
    constructor
    · rintro ⟨hfits, hshort, rfl⟩
      exact ⟨operation.selections, hshort.symm, hfits.selections, rfl⟩
    · rintro ⟨selections, rfl, hfits, rfl⟩
      exact ⟨⟨by simp, by simp, hfits⟩, rfl, rfl⟩
  refine (hshort.byNext {.punct .braceL} reads_longOperation ?_ ?_ ?_ ?_ (by simp) (by simp)).congr
    ?_
  · rintro stream _ htoken rfl
    simp [operation_eq, peekPunct, peek_bind, htoken, shorthand]
  · intro stream havoids
    simp [operation_eq, peekPunct, peek_bind, havoids _ rfl]
  · rintro operation _ ⟨hfits, -, rfl⟩
    rw [tokensOfSelections_of_ne_nil hfits.selections.ne_nil]
    exact ⟨_, _, rfl, rfl⟩
  · rintro operation _ ⟨-, rfl⟩
    cases hnote : operation.description with
    | none => simp [Operation.tokens, hnote, tokensOfDescription]
    | some note => cases hblock : note.isBlock <;>
        simp [Operation.tokens, hnote, tokensOfDescription, stringToken, hblock]
  · intro operation tokens
    constructor
    · rintro (⟨hfits, hshort, rfl⟩ | ⟨hfits, rfl⟩)
      · exact ⟨hfits, .inr ⟨hshort, rfl⟩⟩
      · exact ⟨hfits, .inl rfl⟩
    · rintro ⟨hfits, rfl | ⟨hshort, rfl⟩⟩
      · exact .inr ⟨hfits, rfl⟩
      · exact .inl ⟨hfits, hshort, rfl⟩

/-! ## Fragments -/

theorem fragment_eq : fragment =
    (fun x => (⟨x.1, x.2.1.1.1, x.2.1.1.2, x.2.1.2, x.2.2⟩ : Fragment)) <$>
      both description? (both (both (both (behind (expectKeyword "fragment") fragmentName)
        (behind (expectKeyword "on") name)) (directives false Parser.levels))
        (selectionSet Parser.levels)) := by
  simp only [fragment, both, behind, map_eq_pure_bind, bind_assoc, pure_bind]

theorem reads_fragment : Reads fragment (Exactly Fragment.Fits Fragment.tokens) ∅ := by
  have hname : Reads (behind (expectKeyword "fragment") fragmentName)
      (Exactly (· ≠ "on") fun text => [.name "fragment", .name text]) ∅ :=
    (reads_fragmentName.behind (expectKeyword_eq_ok _)).congr fun text tokens => by simp [Exactly]
  have hcondition : Reads (behind (expectKeyword "on") name)
      (Exactly (fun _ => True) fun text => [.name "on", .name text]) ∅ :=
    (reads_name.behind (expectKeyword_eq_ok _)).congr fun text tokens => by simp [Exactly]
  have htitled := hname.both ∅ hcondition (by simp [StartsApart]) (by simp)
  have hnoted := htitled.both {.punct .at, .punct .parenL}
    (reads_directives false Parser.levels) (startsApart_directives (by simp) (by simp)) (by simp)
  have hwhole := hnoted.both ∅ (reads_selectionSet Parser.levels)
    (by
      rintro selections _ ⟨hfits, rfl⟩
      rw [tokensOfSelections_of_ne_nil hfits.ne_nil]
      simp) (by simp)
  have hall := reads_description?.both ∅ hwhole
    (by
      rintro x _ ⟨_, _, ⟨_, _, ⟨_, _, ⟨-, rfl⟩, -, rfl⟩, -, rfl⟩, -, rfl⟩
      simp [stringTokens, stringToken]) (by simp)
  simp only [both_exactly] at hall
  rw [fragment_eq]
  refine hall.map fun fragment tokens => ?_
  constructor
  · rintro ⟨hfits, rfl⟩
    refine ⟨(fragment.description, ((fragment.name, fragment.condition), fragment.directives),
      fragment.selections), rfl, ⟨trivial, ⟨⟨hfits.name_ne, trivial⟩, hfits.directives⟩,
      hfits.selections⟩, ?_⟩
    simp [Fragment.tokens]
  · rintro ⟨⟨note, ⟨⟨title, condition⟩, notes⟩, selections⟩, rfl,
      ⟨-, ⟨⟨hname, -⟩, hnotes⟩, hselections⟩, rfl⟩
    exact ⟨⟨hname, hnotes, hselections⟩, by simp [Fragment.tokens]⟩

end PersistedQueries.GraphQL
