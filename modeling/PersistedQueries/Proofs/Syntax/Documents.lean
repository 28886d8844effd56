import PersistedQueries.Proofs.Canonical.Reordering
import PersistedQueries.Proofs.Syntax.Lexing
import PersistedQueries.Proofs.Syntax.System

/-!
# What the parser of documents reads

- `Definition.unplaced`: a definition without places. Those of operations and fragments have none.
- `definition_sound`, `definition_complete`: what comes first, or first behind a description,
  decides how a definition is read.
- `tokens_unplaced_definition`, `fits_unplaced_definition`: neither the tokens of a definition nor
  whether it can be read depend on places.
- `SpellsDocument`: definitions one behind the other, none of which goes on in the next one.
- `parse_sound`, `parse_complete`: a text is parsed when its tokens spell a document, which is then
  what is found, but for places.
-/

namespace PersistedQueries.GraphQL

open PersistedQueries.GraphQL.Parser

variable {stream rest : TokenStream}

/-! ## Definitions -/

/-- A definition without places. -/
def Definition.unplaced : Definition → Definition
  | .system definition => .system definition.unplaced
  | definition => definition

/-- Executable definitions have no places. -/
theorem unplaced_of_isExecutable {d : Definition} (h : d.IsExecutable) : d.unplaced = d := by
  cases d with
  | operation => rfl
  | fragment => rfl
  | system => cases h

/-- The tokens of a definition. -/
def Definition.tokens : Definition → List Token
  | .operation op => op.tokens
  | .fragment frag => frag.tokens
  | .system definition => definition.tokens

/-- The definitions that are read. -/
def Definition.Fits : Definition → Prop
  | .operation op => op.Fits
  | .fragment frag => frag.Fits
  | .system definition => definition.Fits

/-- The spellings of a definition without places. -/
def SpellsDefinition : Definition → List Token → Prop
  | .operation op, tokens => SpellsOperation op tokens
  | .fragment frag, tokens => frag.Fits ∧ tokens = frag.tokens
  | .system definition, tokens => definition.unplaced = definition ∧ SpellsSystem definition tokens

theorem lookahead_eq_ok {ahead : TokenStream} : lookahead stream = .ok (ahead, rest) ↔
    ahead = Parser.rest stream ∧ Settled ahead ∧ rest = stream := by
  unfold lookahead
  cases hstream : Parser.rest stream with
  | broken fault =>
    simp only [settle, reduceCtorEq, false_iff, not_and]
    rintro rfl hsettled
    exact absurd rfl (hsettled fault)
  | _ =>
    simp only [settle, Except.ok.injEq, Prod.mk.injEq]
    constructor
    · rintro ⟨rfl, rfl⟩
      exact ⟨rfl, fun _ => TokenStream.noConfusion, rfl⟩
    · rintro ⟨rfl, -, rfl⟩
      exact ⟨rfl, rfl⟩

namespace Parser

/-- The token is a string. -/
def isString : Option Token → Bool
  | some (.string _) => true
  | some (.block _) => true
  | _ => false

/-- A definition by the word that introduces it, which stands at the front of a stream. -/
def introduced (described : Bool) (front : TokenStream) : Parser Definition :=
  match wordOf? (token? front) with
  | some word =>
    if word = "schema" then Definition.system <$> schemaDefinition
    else if word ∈ typeWords then (fun type => .system (.type type)) <$> typeDefinition word
    else if word = "directive" then
      (fun directive => .system (.directive directive)) <$> directiveDefinition
    else if (OperationKind.ofWord? word).isSome then Definition.operation <$> operation
    else if word = "fragment" then Definition.fragment <$> fragment
    else if described then fail .describedExtension
    else if word = "extend" then Definition.system <$> extension
    else fun _ => unexpected front
  | none => fun _ => unexpected front

end Parser

theorem definition_eq : definition = (do
    if ← peekPunct .braceL then Definition.operation <$> operation
    else do
      let described := isString (← peek)
      let front ← if described then lookahead else get
      if described && token? front = some (.punct .braceL) then fail .describedShorthand
      else introduced described front) := by
  simp only [definition, introduced, isString, map_eq_pure_bind]
  congr!

theorem extension_eq : extension = (do
    let ahead ← lookahead
    match wordOf? (token? ahead) with
    | some word =>
      if word = "schema" then extendSchema
      else if word ∈ typeWords then extendType word
      else fun _ => unexpected ahead
    | none => fun _ => unexpected ahead) := rfl

/-! ### What is read is spelled -/

/-- What a parser reads is a definition when each result of it is one. -/
theorem definition_of_reads {α : Type} {p : Parser α} {view : α → α} {Spells : α → List Token → Prop}
    {stops : Set Token} (make : α → Definition) (h : Reads (view <$> p) Spells stops)
    (hview : ∀ a tokens, Spells (view a) tokens → SpellsDefinition (make a).unplaced tokens)
    {d : Definition} (hstream : Settled stream) (hok : (make <$> p) stream = .ok (d, rest)) :
    ∃ tokens, SpellsDefinition d.unplaced tokens ∧ Leads tokens stream rest ∧ Settled rest := by
  obtain ⟨a, rfl, ha⟩ := map_eq_ok.1 hok
  obtain ⟨tokens, hspells, hrest⟩ := h.sound hstream (map_eq_ok.2 ⟨a, rfl, ha⟩)
  exact ⟨tokens, hview a tokens hspells, hrest⟩

/-- What a parser reads that records no places is a definition when each result of it is one. -/
theorem definition_of_placeless {α : Type} {p : Parser α} {Spells : α → List Token → Prop}
    {stops : Set Token} (make : α → Definition) (h : Reads p Spells stops)
    (hspells : ∀ a tokens, Spells a tokens → SpellsDefinition (make a).unplaced tokens)
    {d : Definition} (hstream : Settled stream) (hok : (make <$> p) stream = .ok (d, rest)) :
    ∃ tokens, SpellsDefinition d.unplaced tokens ∧ Leads tokens stream rest ∧ Settled rest := by
  have hview : Reads (id <$> p) Spells stops := by rwa [id_map]
  exact definition_of_reads make hview hspells hstream hok

theorem spells_operation {d : Definition} (hstream : Settled stream)
    (hok : (Definition.operation <$> operation) stream = .ok (d, rest)) :
    ∃ tokens, SpellsDefinition d.unplaced tokens ∧ Leads tokens stream rest ∧ Settled rest :=
  definition_of_placeless .operation reads_operation (fun _ _ h => h) hstream hok

theorem spells_extension {d : Definition} (hstream : Settled stream)
    (hok : (Definition.system <$> extension) stream = .ok (d, rest)) :
    ∃ tokens, SpellsDefinition d.unplaced tokens ∧ Leads tokens stream rest ∧ Settled rest := by
  obtain ⟨addition, rfl, hextension⟩ := map_eq_ok.1 hok
  rw [extension_eq] at hextension
  obtain ⟨ahead, _, hahead, hread⟩ := bind_eq_ok.1 hextension
  obtain ⟨-, -, rfl⟩ := lookahead_eq_ok.1 hahead
  cases hword : wordOf? (token? ahead) with
  | none =>
    rw [hword] at hread
    cases hread
  | some word =>
    simp only [hword] at hread
    split at hread
    · refine definition_of_placeless .system reads_extendSchema ?_ hstream
        (map_eq_ok.2 ⟨_, rfl, hread⟩)
      rintro d tokens ⟨notes, roots, hd, h⟩
      obtain rfl : d = .extendSchema notes roots := hd
      exact ⟨rfl, h⟩
    · split at hread
      · next hword =>
        refine definition_of_reads .system (reads_extendType hword) ?_ hstream
          (map_eq_ok.2 ⟨_, rfl, hread⟩)
        rintro d tokens ⟨addition, hd, -, hplaced, h⟩
        refine ⟨?_, h⟩
        rw [hd]
        exact congrArg SystemDefinition.extendType hplaced
      · cases hread

theorem introduced_sound {described : Bool} {front : TokenStream} {d : Definition}
    (hstream : Settled stream) (hok : introduced described front stream = .ok (d, rest)) :
    ∃ tokens, SpellsDefinition d.unplaced tokens ∧ Leads tokens stream rest ∧ Settled rest := by
  cases hword : wordOf? (token? front) with
  | none =>
    simp only [introduced, hword] at hok
    cases hok
  | some word =>
    simp only [introduced, hword] at hok
    split at hok
    · refine definition_of_placeless .system reads_schemaDefinition ?_ hstream hok
      rintro d tokens ⟨note, notes, roots, hd, h⟩
      obtain rfl : d = .schema note notes roots := hd
      exact ⟨rfl, h⟩
    · split at hok
      · next hword =>
        refine definition_of_reads _ (reads_typeDefinition hword) ?_ hstream hok
        rintro type tokens ⟨-, hplaced, h⟩
        exact ⟨congrArg SystemDefinition.type hplaced, h⟩
      · split at hok
        · refine definition_of_reads _ reads_directiveDefinition ?_ hstream hok
          rintro directive tokens ⟨hplaced, h⟩
          exact ⟨congrArg SystemDefinition.directive hplaced, h⟩
        · split at hok
          · exact spells_operation hstream hok
          · split at hok
            · exact definition_of_placeless .fragment reads_fragment (fun _ _ h => h) hstream hok
            · split at hok
              · cases hok
              · split at hok
                · exact spells_extension hstream hok
                · cases hok

/-- A definition is spelled by the tokens that it is read from. -/
theorem definition_sound {d : Definition} (hstream : Settled stream)
    (hok : definition stream = .ok (d, rest)) :
    ∃ tokens, SpellsDefinition d.unplaced tokens ∧ Leads tokens stream rest ∧ Settled rest := by
  rw [definition_eq] at hok
  simp only [bind_eq_ok, peekPunct_eq_ok] at hok
  obtain ⟨_, _, ⟨rfl, rfl⟩, hok⟩ := hok
  split at hok
  · exact spells_operation hstream hok
  · rw [peek_bind] at hok
    have hread : ∃ front, (if isString (token? stream) &&
        token? front = some (.punct .braceL) then fail .describedShorthand
        else introduced (isString (token? stream)) front : Parser Definition) stream =
          .ok (d, rest) := by
      split at hok
      · obtain ⟨front, _, hfront, hok⟩ := bind_eq_ok.1 hok
        obtain ⟨-, -, rfl⟩ := lookahead_eq_ok.1 hfront
        exact ⟨front, hok⟩
      · exact ⟨stream, hok⟩
    obtain ⟨front, hread⟩ := hread
    split at hread
    · cases hread
    · exact introduced_sound hstream hread

/-! ### What is spelled is read -/

/-- The word behind the description decides how a definition is read. -/
theorem definition_of_word {note : Option Description} {word : String} {more : List Token}
    (hleads : Leads (tokensOfDescription note ++ .name word :: more) stream rest)
    (hrest : Settled rest) :
    ∃ front, token? front = some (.name word) ∧
      definition stream = introduced note.isSome front stream := by
  cases note with
  | none =>
    have htoken : token? stream = some (.name word) := hleads.token?_eq
    refine ⟨stream, htoken, ?_⟩
    simp [definition_eq, peekPunct, peek_bind, htoken, isString]
    rfl
  | some d =>
    have htoken : token? stream = some (stringToken d.content d.isBlock) := hleads.token?_eq
    have hnext := (Leads.cons_iff.1 hleads).2
    have hlook : lookahead stream = .ok (Parser.rest stream, stream) :=
      lookahead_eq_ok.2 ⟨rfl, hnext.settled hrest, rfl⟩
    have hstring : isString (token? stream) = true := by
      rw [htoken, stringToken]
      split <;> rfl
    refine ⟨Parser.rest stream, hnext.token?_eq, ?_⟩
    have hbrace : token? stream ≠ some (.punct .braceL) := by
      rw [htoken, stringToken]
      split <;> simp
    rw [definition_eq]
    simp only [peekPunct, bind_assoc, pure_bind, peek_bind, hbrace, decide_false,
      Bool.false_eq_true, if_false, hstring, if_true, Bool.true_and]
    show (lookahead stream >>= fun x => _) = _
    rw [hlook]
    show (if decide (token? (Parser.rest stream) = some (.punct .braceL)) = true then _ else _ :
      Parser Definition) stream = _
    rw [hnext.token?_eq]
    rfl

theorem read_operation {op : Operation} {tokens : List Token} (hspells : SpellsOperation op tokens)
    (hleads : Leads tokens stream rest) (hrest : Settled rest) :
    definition stream = .ok (.operation op, rest) := by
  have hok : (Definition.operation <$> operation) stream = .ok (.operation op, rest) :=
    map_eq_ok.2 ⟨_, rfl, reads_operation.complete hspells hleads hrest (by simp [Avoids])⟩
  obtain ⟨hfits, rfl | ⟨hshort, rfl⟩⟩ := hspells
  · have hwords : op.kind.word ≠ "schema" ∧ op.kind.word ∉ typeWords ∧
        op.kind.word ≠ "directive" := by
      cases op.kind <;> decide
    obtain ⟨hschema, htype, hdirective⟩ := hwords
    simp only [Operation.tokens, List.append_assoc, List.singleton_append] at hleads
    obtain ⟨front, hfront, heq⟩ := definition_of_word hleads hrest
    rw [heq]
    simpa [introduced, hfront, wordOf?, hschema, htype, hdirective] using hok
  · rw [tokensOfSelections_of_ne_nil hfits.selections.ne_nil] at hleads
    simpa [definition_eq, peekPunct, peek_bind, hleads.token?_eq] using hok

theorem read_fragment {frag : Fragment} (hfits : frag.Fits)
    (hleads : Leads frag.tokens stream rest) (hrest : Settled rest) :
    definition stream = .ok (.fragment frag, rest) := by
  have hok : (Definition.fragment <$> fragment) stream = .ok (.fragment frag, rest) :=
    map_eq_ok.2 ⟨_, rfl, reads_fragment.complete ⟨hfits, rfl⟩ hleads hrest (by simp [Avoids])⟩
  simp only [Fragment.tokens, List.append_assoc, List.cons_append] at hleads
  obtain ⟨front, hfront, heq⟩ := definition_of_word hleads hrest
  have hkind : OperationKind.ofWord? "fragment" = none := by decide
  rw [heq]
  simpa [introduced, hfront, wordOf?, typeWords, hkind] using hok

/-- The word that introduces a kind of type introduces no other definition. -/
theorem word_mem_typeWords (body : TypeBody) : body.word ∈ typeWords ∧ body.word ≠ "schema" := by
  cases body <;> simp [TypeBody.word, typeWords]

theorem read_type {d : TypeDefinition} {tokens : List Token} (hplaced : d.unplaced = d)
    (hspells : SpellsSystem (.type d) tokens) (hleads : Leads tokens stream rest)
    (hrest : Settled rest) (hstops : Avoids typeStops rest) :
    ∃ d' : TypeDefinition, d'.unplaced = d ∧
      definition stream = .ok (.system (.type d'), rest) := by
  obtain ⟨hword, hschema⟩ := word_mem_typeWords d.body
  obtain ⟨d', rfl, hok⟩ := map_eq_ok.1 ((reads_typeDefinition hword).complete
    ⟨rfl, hplaced, hspells⟩ hleads hrest hstops)
  refine ⟨d', rfl, ?_⟩
  obtain ⟨back, -, rfl⟩ := hspells
  obtain ⟨front, hfront, heq⟩ := definition_of_word hleads hrest
  rw [heq]
  simp only [introduced, hfront, wordOf?, hschema, hword, if_true, if_false]
  exact map_eq_ok.2 ⟨d', rfl, hok⟩

theorem read_directive {d : DirectiveDefinition} {tokens : List Token} (hplaced : d.unplaced = d)
    (hspells : SpellsSystem (.directive d) tokens) (hleads : Leads tokens stream rest)
    (hrest : Settled rest) (hstops : Avoids typeStops rest) :
    ∃ d' : DirectiveDefinition, d'.unplaced = d ∧
      definition stream = .ok (.system (.directive d'), rest) := by
  obtain ⟨d', rfl, hok⟩ := map_eq_ok.1 (reads_directiveDefinition.complete
    ⟨hplaced, hspells⟩ hleads hrest (hstops.mono (by simp [typeStops])))
  refine ⟨d', rfl, ?_⟩
  obtain ⟨-, back, -, rfl⟩ := hspells
  simp only [List.append_assoc, List.cons_append] at hleads
  obtain ⟨front, hfront, heq⟩ := definition_of_word hleads hrest
  rw [heq]
  simp only [introduced, hfront, wordOf?]
  exact map_eq_ok.2 ⟨d', rfl, hok⟩

/-- An extension is read when what stands behind its first word is read. -/
theorem read_extension {word : String} {more : List Token} {d : SystemDefinition}
    (hleads : Leads (.name "extend" :: .name word :: more) stream rest) (hrest : Settled rest)
    (hok : (if word = "schema" then extendSchema
      else if word ∈ typeWords then extendType word
      else fun _ => unexpected (Parser.rest stream)) stream = .ok (d, rest)) :
    definition stream = .ok (.system d, rest) := by
  have hword : Leads (tokensOfDescription none ++ .name "extend" :: .name word :: more) stream rest :=
    hleads
  obtain ⟨front, hfront, heq⟩ := definition_of_word hword hrest
  have hnext := (Leads.cons_iff.1 hleads).2
  have hlook : lookahead stream = .ok (Parser.rest stream, stream) :=
    lookahead_eq_ok.2 ⟨rfl, hnext.settled hrest, rfl⟩
  have hextension : extension stream = .ok (d, rest) := by
    rw [extension_eq]
    refine bind_eq_ok.2 ⟨_, _, hlook, ?_⟩
    simpa only [hnext.token?_eq, wordOf?] using hok
  have hkind : OperationKind.ofWord? "extend" = none := by decide
  rw [heq]
  simp [introduced, hfront, wordOf?, typeWords, hkind, map_eq_ok, hextension]

theorem read_system {d : SystemDefinition} {tokens : List Token} (hplaced : d.unplaced = d)
    (hspells : SpellsSystem d tokens) (hleads : Leads tokens stream rest) (hrest : Settled rest)
    (hstops : Avoids typeStops rest) :
    ∃ d' : SystemDefinition, d'.unplaced = d ∧ definition stream = .ok (.system d', rest) := by
  cases d with
  | schema note notes roots =>
    have hok := reads_schemaDefinition.complete ⟨note, notes, roots, rfl, hspells⟩ hleads hrest
      (by simp [Avoids])
    obtain ⟨-, rfl⟩ := hspells
    simp only [SystemDefinition.tokens, List.append_assoc, List.cons_append] at hleads
    obtain ⟨front, hfront, heq⟩ := definition_of_word hleads hrest
    refine ⟨.schema note notes roots, rfl, ?_⟩
    rw [heq]
    simp only [introduced, hfront, wordOf?, if_true]
    exact map_eq_ok.2 ⟨_, rfl, hok⟩
  | type d =>
    obtain ⟨d', rfl, hok⟩ := read_type (SystemDefinition.type.inj hplaced) hspells hleads hrest hstops
    exact ⟨.type d', rfl, hok⟩
  | directive d =>
    obtain ⟨d', rfl, hok⟩ := read_directive (SystemDefinition.directive.inj hplaced) hspells hleads
      hrest hstops
    exact ⟨.directive d', rfl, hok⟩
  | extendSchema notes roots =>
    have hok := reads_extendSchema.complete ⟨notes, roots, rfl, hspells⟩ hleads hrest
      (hstops.mono (by simp [extendSchemaStops, typeStops, Set.insert_subset_iff]))
    obtain ⟨-, rfl⟩ := hspells
    exact ⟨.extendSchema notes roots, rfl, read_extension hleads hrest (by rwa [if_pos rfl])⟩
  | extendType addition =>
    obtain ⟨hword, hschema⟩ := word_mem_typeWords addition.body
    obtain ⟨d', hd, hok⟩ := map_eq_ok.1 ((reads_extendType hword).complete
      ⟨addition, rfl, rfl, SystemDefinition.extendType.inj hplaced, hspells⟩ hleads hrest hstops)
    obtain ⟨-, -, back, -, rfl⟩ := hspells
    refine ⟨d', hd, read_extension hleads hrest ?_⟩
    rwa [if_neg hschema, if_pos hword]

/-- What spells a definition without places is read as one that is the same but for places, unless
it could go on. Executable definitions never can. -/
theorem definition_complete {d : Definition} {tokens : List Token}
    (hspells : SpellsDefinition d tokens) (hleads : Leads tokens stream rest)
    (hrest : Settled rest) (hstops : d.IsExecutable ∨ Avoids typeStops rest) :
    ∃ d' : Definition, d'.unplaced = d ∧ definition stream = .ok (d', rest) := by
  cases d with
  | operation op => exact ⟨.operation op, rfl, read_operation hspells hleads hrest⟩
  | fragment frag =>
    obtain ⟨hfits, rfl⟩ := hspells
    exact ⟨.fragment frag, rfl, read_fragment hfits hleads hrest⟩
  | system d =>
    obtain ⟨hplaced, hspells⟩ := hspells
    have hstops := hstops.resolve_left id
    obtain ⟨d', rfl, hok⟩ := read_system hplaced hspells hleads hrest hstops
    exact ⟨.system d', rfl, hok⟩

/-! ## Places make no difference to tokens -/

/-- Parts that are changed without a change to their tokens have the same tokens together. -/
theorem flatMap_tokens_congr {α : Type} {change : α → α} {spelling : α → List Token}
    (h : ∀ a, spelling (change a) = spelling a) (items : List α) :
    (items.map change).flatMap spelling = items.flatMap spelling := by
  rw [List.flatMap_map]
  exact List.flatMap_congr fun a _ => h a

@[simp] theorem directives_unplaced_input (input : InputValue) :
    input.unplaced.directives = input.directives :=
  withoutPlaces_erasePlaces _

theorem tokens_unplaced_input (input : InputValue) : input.unplaced.tokens = input.tokens := by
  rw [InputValue.tokens, directives_unplaced_input]
  rfl

theorem fits_unplaced_input {input : InputValue} : input.unplaced.Fits ↔ input.Fits :=
  ⟨fun h => ⟨h.type, h.defaultValue, by simpa using h.directives⟩,
    fun h => ⟨h.type, h.defaultValue, by simpa using h.directives⟩⟩

theorem tokens_unplaced_inputs (opening closing : Punctuator) (inputs : List InputValue) :
    tokensOfInputs opening closing (inputs.map InputValue.unplaced) =
      tokensOfInputs opening closing inputs :=
  congrArg (enclosed opening closing) (flatMap_tokens_congr tokens_unplaced_input inputs)

@[simp] theorem directives_unplaced_field (field : FieldDefinition) :
    field.unplaced.directives = field.directives :=
  withoutPlaces_erasePlaces _

theorem tokens_unplaced_field (field : FieldDefinition) : field.unplaced.tokens = field.tokens := by
  rw [FieldDefinition.tokens, directives_unplaced_field, FieldDefinition.unplaced,
    tokens_unplaced_inputs]
  rfl

theorem fits_unplaced_field {field : FieldDefinition} : field.unplaced.Fits ↔ field.Fits := by
  have harguments : (∀ input ∈ field.unplaced.arguments, input.Fits) ↔
      ∀ input ∈ field.arguments, input.Fits := by
    simp [FieldDefinition.unplaced, fits_unplaced_input]
  exact ⟨fun h => ⟨harguments.1 h.arguments, h.type, by simpa using h.directives⟩,
    fun h => ⟨harguments.2 h.arguments, h.type, by simpa using h.directives⟩⟩

@[simp] theorem directives_unplaced_enumValue (value : EnumValue) :
    value.unplaced.directives = value.directives :=
  withoutPlaces_erasePlaces _

theorem tokens_unplaced_enumValue (value : EnumValue) : value.unplaced.tokens = value.tokens := by
  rw [EnumValue.tokens, directives_unplaced_enumValue]
  rfl

theorem fits_unplaced_enumValue {value : EnumValue} : value.unplaced.Fits ↔ value.Fits :=
  ⟨fun h => ⟨h.name, by simpa using h.directives⟩, fun h => ⟨h.name, by simpa using h.directives⟩⟩

theorem tokens_unplaced_body (body : TypeBody) : body.unplaced.tokens = body.tokens := by
  cases body with
  | scalar => rfl
  | object above fields | interface above fields =>
    exact congrArg (enclosed .braceL .braceR) (flatMap_tokens_congr tokens_unplaced_field fields)
  | union members => rfl
  | enum values =>
    exact congrArg (enclosed .braceL .braceR) (flatMap_tokens_congr tokens_unplaced_enumValue values)
  | input fields => exact tokens_unplaced_inputs .braceL .braceR fields

theorem fits_unplaced_body {body : TypeBody} : body.unplaced.Fits ↔ body.Fits := by
  cases body <;>
    simp [TypeBody.unplaced, TypeBody.Fits, fits_unplaced_field, fits_unplaced_enumValue,
      fits_unplaced_input]

@[simp] theorem directives_unplaced_type (type : TypeDefinition) :
    type.unplaced.directives = type.directives :=
  withoutPlaces_erasePlaces _

theorem tokens_unplaced_type (type : TypeDefinition) : type.unplaced.tokens = type.tokens := by
  have hword : type.unplaced.body.word = type.body.word := by
    rw [TypeDefinition.unplaced]
    cases type.body <;> rfl
  have habove : type.unplaced.body.interfaces = type.body.interfaces := by
    rw [TypeDefinition.unplaced]
    cases type.body <;> rfl
  have hbody : type.unplaced.body.tokens = type.body.tokens := tokens_unplaced_body type.body
  rw [TypeDefinition.tokens, directives_unplaced_type, hword, habove, hbody]
  rfl

theorem fits_unplaced_type {type : TypeDefinition} : type.unplaced.Fits ↔ type.Fits :=
  ⟨fun h => ⟨by simpa using h.directives, fits_unplaced_body.1 h.body⟩,
    fun h => ⟨by simpa using h.directives, fits_unplaced_body.2 h.body⟩⟩

theorem tokens_unplaced_definition (d : Definition) : d.unplaced.tokens = d.tokens := by
  cases d with
  | operation | fragment => rfl
  | system definition =>
    cases definition with
    | schema | extendSchema => rfl
    | type definition =>
      exact congrArg (tokensOfDescription definition.description ++ ·)
        (tokens_unplaced_type definition)
    | directive definition =>
      simp only [Definition.unplaced, Definition.tokens, SystemDefinition.unplaced,
        SystemDefinition.tokens, DirectiveDefinition.unplaced, DirectiveDefinition.tokens,
        tokens_unplaced_inputs]
    | extendType addition =>
      exact congrArg (.name "extend" :: ·) (tokens_unplaced_type addition)

theorem fits_unplaced_definition {d : Definition} : d.unplaced.Fits ↔ d.Fits := by
  cases d with
  | operation | fragment => rfl
  | system definition =>
    cases definition with
    | schema | extendSchema => rfl
    | type definition => exact fits_unplaced_type
    | directive definition =>
      have harguments : (∀ input ∈ definition.unplaced.arguments, input.Fits) ↔
          ∀ input ∈ definition.arguments, input.Fits := by
        simp [DirectiveDefinition.unplaced, fits_unplaced_input]
      exact ⟨fun h => ⟨harguments.1 h.arguments, h.ne_nil, h.locations⟩,
        fun h => ⟨harguments.2 h.arguments, h.ne_nil, h.locations⟩⟩
    | extendType addition =>
      have hadds := isAddition_unplaced addition
      simp only [Definition.unplaced, Definition.Fits, SystemDefinition.unplaced,
        SystemDefinition.Fits, fits_unplaced_type, hadds]
      rfl

/-! ## Documents -/

/-- Definitions one behind the other. What follows a schema definition does not continue it. -/
inductive SpellsDocument : Document → List Token → Prop where
  | nil : SpellsDocument [] []
  | cons {d : Definition} {document : Document} {front back : List Token}
      (h : SpellsDefinition d front) (h' : SpellsDocument document back)
      (hnext : d.IsExecutable ∨ ∀ token, back.head? = some token → token ∉ typeStops) :
      SpellsDocument (d :: document) (front ++ back)

theorem ne_nil_of_spellsDefinition {d : Definition} {tokens : List Token}
    (h : SpellsDefinition d tokens) : tokens ≠ [] := by
  cases d with
  | operation op =>
    obtain ⟨hfits, rfl | ⟨-, rfl⟩⟩ := h
    · simp [Operation.tokens]
    · simp [tokensOfSelections_of_ne_nil hfits.selections.ne_nil]
  | fragment frag =>
    obtain ⟨-, rfl⟩ := h
    simp [Fragment.tokens]
  | system d =>
    obtain ⟨-, h⟩ := h
    cases d with
    | schema | extendSchema =>
      obtain ⟨-, rfl⟩ := h
      simp [SystemDefinition.tokens]
    | type =>
      obtain ⟨_, -, rfl⟩ := h
      simp
    | directive =>
      obtain ⟨-, _, -, rfl⟩ := h
      simp
    | extendType =>
      obtain ⟨-, -, _, -, rfl⟩ := h
      simp

/-- A document of executable definitions needs no care about what follows. -/
theorem spellsDocument_of_each {document : Document} {tokens : List Token}
    (h : Each SpellsDefinition document tokens) (hexecutable : ∀ d ∈ document, d.IsExecutable) :
    SpellsDocument document tokens := by
  induction h with
  | nil => exact .nil
  | cons h _ ih =>
    obtain ⟨hfirst, hmore⟩ := List.forall_mem_cons.1 hexecutable
    exact .cons h (ih hmore) (.inl hfirst)

theorem definitionsFuel_sound {fuel : Nat} {document : Document} (hstream : Settled stream)
    (hfuel : stream.length ≤ fuel) (hok : definitionsFuel fuel stream = .ok (document, rest)) :
    ∃ tokens, Each SpellsDefinition (document.map Definition.unplaced) tokens ∧
      Leads tokens stream rest ∧ Settled rest ∧ token? rest = none := by
  have hend : token? stream = none → (document, rest) = ([], stream) →
      ∃ tokens, Each SpellsDefinition (document.map Definition.unplaced) tokens ∧
        Leads tokens stream rest ∧ Settled rest ∧ token? rest = none := by
    rintro hnone heq
    cases heq
    exact ⟨[], .nil, .nil, hstream, hnone⟩
  induction fuel generalizing document stream with
  | zero =>
    obtain ⟨rfl, rfl⟩ := pure_eq_ok.1 hok
    refine hend ?_ rfl
    cases stream with
    | next => simp [TokenStream.length] at hfuel
    | _ => rfl
  | succ fuel ih =>
    rw [definitionsFuel, peek_bind] at hok
    cases htoken : token? stream with
    | none =>
      rw [htoken] at hok
      obtain ⟨rfl, rfl⟩ := pure_eq_ok.1 hok
      exact hend htoken rfl
    | some token =>
      simp only [htoken, bind_eq_ok, pure_eq_ok] at hok
      obtain ⟨d, middle, hd, document, _, hmore, rfl, rfl⟩ := hok
      obtain ⟨front, hfront, hleads, hmiddle⟩ := definition_sound hstream hd
      have hlength := hleads.length
      have hpos := List.length_pos_of_ne_nil (ne_nil_of_spellsDefinition hfront)
      obtain ⟨back, hback, hleads', hrest⟩ := ih hmiddle (by omega) hmore (by
        rintro hnone heq
        cases heq
        exact ⟨[], .nil, .nil, hmiddle, hnone⟩)
      exact ⟨front ++ back, .cons hfront hback, hleads.append hleads', hrest⟩

theorem definitionsFuel_complete {fuel : Nat} {document : Document} {tokens : List Token}
    (hspells : SpellsDocument document tokens) (hleads : Leads tokens stream rest)
    (hrest : Settled rest) (hnone : token? rest = none) (hfuel : tokens.length ≤ fuel) :
    ∃ document', document'.map Definition.unplaced = document ∧
      definitionsFuel fuel stream = .ok (document', rest) := by
  induction hspells generalizing fuel stream with
  | nil =>
    obtain rfl := Leads.nil_iff.1 hleads
    refine ⟨[], rfl, ?_⟩
    cases fuel with
    | zero => rfl
    | succ fuel =>
      rw [definitionsFuel, peek_bind, hnone]
      rfl
  | @cons d document front back hfront hback hnext ih =>
    have hne := ne_nil_of_spellsDefinition hfront
    have hpos := List.length_pos_of_ne_nil hne
    rw [List.length_append] at hfuel
    obtain ⟨fuel, rfl⟩ : ∃ n, fuel = n + 1 := ⟨fuel - 1, by omega⟩
    obtain ⟨middle, hleads, hleads'⟩ := Leads.append_iff.1 hleads
    have hmiddle := hleads'.settled hrest
    have hstops : d.IsExecutable ∨ Avoids typeStops middle := by
      refine hnext.imp_right fun h => hleads'.avoids h fun _ token _ htoken => ?_
      rw [hnone] at htoken
      cases htoken
    obtain ⟨d', rfl, hd⟩ := definition_complete hfront hleads hmiddle hstops
    have hlength : back.length ≤ fuel := by omega
    obtain ⟨document', rfl, hmore⟩ := ih hleads' hlength
    refine ⟨d' :: document', rfl, ?_⟩
    obtain ⟨token, more, rfl⟩ := List.exists_cons_of_ne_nil hne
    rw [definitionsFuel, peek_bind, hleads.token?_eq]
    simp only [bind_eq_ok, pure_eq_ok]
    exact ⟨d', middle, hd, document', rest, hmore, rfl, rfl⟩

/-! ## Texts -/

/-- A text is parsed when its tokens are those of a document, up to the end. -/
theorem parse_eq_ok {text : Text} {document : Document} : parse text = .ok document ↔
    Settled (tokenize text) ∧
      ∃ rest, Parser.document (tokenize text) = .ok (document, rest) := by
  have hsettle : settle (tokenize text) = .ok ((), tokenize text) ↔ Settled (tokenize text) := by
    simp [settle_eq_ok]
  unfold parse
  cases htokens : settle (tokenize text) with
  | error fault =>
    rw [htokens] at hsettle
    simp only [reduceCtorEq, false_iff] at hsettle
    constructor
    · intro h
      cases h
    · rintro ⟨h, -⟩
      exact absurd h hsettle
  | ok found =>
    obtain ⟨_, stream⟩ := found
    obtain ⟨hsettled, rfl⟩ := settle_eq_ok.1 htokens
    cases hdocument : Parser.document (tokenize text) with
    | error fault =>
      constructor
      · intro h
        simp only [bind, Except.bind, hdocument] at h
        cases h
      · rintro ⟨-, rest, h⟩
        cases h
    | ok found =>
      obtain ⟨found, rest⟩ := found
      simp only [bind, Except.bind, hdocument, pure, Except.pure, Except.ok.injEq, Prod.mk.injEq]
      constructor
      · rintro rfl
        exact ⟨hsettled, rest, rfl, rfl⟩
      · rintro ⟨-, rest, rfl, -⟩
        rfl

/-- A text that is parsed has tokens, and they spell its document. -/
theorem parse_sound {text : Text} {document : Document} (h : parse text = .ok document) :
    ∃ tokens, lexemes text = some tokens ∧ document ≠ [] ∧
      Each SpellsDefinition (document.map Definition.unplaced) tokens := by
  obtain ⟨hstream, rest, hok⟩ := parse_eq_ok.1 h
  simp only [Parser.document, bind_eq_ok, pure_eq_ok] at hok
  obtain ⟨d, middle, hd, more, last, hmore, rfl, rfl⟩ := hok
  obtain ⟨front, hfront, hleads, hmiddle⟩ := definition_sound hstream hd
  obtain ⟨back, hback, hleads', hlast, hnone⟩ :=
    definitionsFuel_sound hmiddle (Nat.le_refl _) hmore
  have hdone : ∃ offset, last = .done offset := by
    cases last with
    | done offset => exact ⟨offset, rfl⟩
    | broken fault => exact absurd rfl (hlast fault)
    | next => cases hnone
  obtain ⟨offset, rfl⟩ := hdone
  exact ⟨front ++ back, tokens?_eq_some.2 ⟨offset, hleads.append hleads'⟩, List.cons_ne_nil _ _,
    .cons hfront hback⟩

/-- A text whose tokens spell a document is parsed, and that document is found but for places. -/
theorem parse_complete {text : Text} {document : Document} {tokens : List Token}
    (htokens : lexemes text = some tokens) (hne : document ≠ [])
    (hspells : SpellsDocument document tokens) :
    ∃ document', document'.map Definition.unplaced = document ∧ parse text = .ok document' := by
  obtain ⟨offset, hleads⟩ := tokens?_eq_some.1 htokens
  have hrest : Settled (.done offset) := fun _ => TokenStream.noConfusion
  cases hspells with
  | nil => exact absurd rfl hne
  | @cons d document front back hfront hback hnext =>
    have hstream := hleads.settled hrest
    obtain ⟨middle, hleads, hleads'⟩ := Leads.append_iff.1 hleads
    have hstops : d.IsExecutable ∨ Avoids typeStops middle :=
      hnext.imp_right fun h => hleads'.avoids h fun _ _ _ => by simp [token?]
    obtain ⟨d', rfl, hd⟩ := definition_complete hfront hleads (hleads'.settled hrest) hstops
    have hlength : back.length ≤ middle.length := by
      have := hleads'.length
      omega
    obtain ⟨document', rfl, hmore⟩ := definitionsFuel_complete hback hleads' hrest rfl hlength
    refine ⟨d' :: document', rfl, parse_eq_ok.2 ⟨hstream, .done offset, ?_⟩⟩
    simp only [Parser.document, bind_eq_ok, pure_eq_ok]
    exact ⟨d', middle, hd, document', _, hmore, rfl, rfl⟩

end PersistedQueries.GraphQL
