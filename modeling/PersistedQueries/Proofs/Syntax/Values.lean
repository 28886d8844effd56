import PersistedQueries.GraphQL.Parser.Value
import PersistedQueries.Proofs.Syntax.Reading

/-!
# What the parsers of values, types and directives read

Each theorem says that a parser reads exactly the parts that fit, by their tokens.

- `reads_value`, `reads_typeRef`: by induction on the levels that brackets may still nest.
- `reads_arguments`, `reads_directives`: what stands behind a name.
- `reads_description?`: the string in front of a definition.
-/

namespace PersistedQueries.GraphQL

open PersistedQueries.GraphQL.Parser

variable {stream rest : TokenStream} {isConst : Bool} {levels : Nat}

/-! ## Values -/

theorem tokens_wordValue (word : String) : (wordValue word).tokens = [.name word] := by
  unfold wordValue
  split
  · next h => rw [h]; rfl
  · split
    · next h => rw [h]; rfl
    · split
      · next h => rw [h]; rfl
      · rfl

theorem fits_wordValue (word : String) : (wordValue word).Fits isConst levels := by
  unfold wordValue
  split
  · exact .boolean
  · split
    · exact .boolean
    · split
      · exact .null
      · exact .enum (by simp_all [valueWords])

theorem wordValue_of_not_mem {word : String} (h : word ∉ valueWords) :
    wordValue word = .enum word := by
  simp only [valueWords, List.mem_cons, List.not_mem_nil, or_false, not_or] at h
  obtain ⟨htrue, hfalse, hnull⟩ := h
  rw [wordValue, if_neg htrue, if_neg hfalse, if_neg hnull]

theorem variableValue_eq_ok {v : Value} :
    variableValue isConst stream = .ok (v, rest) ↔ ∃ name, v = .variable name ∧ isConst = false ∧
      Leads [.punct .dollar, .name name] stream rest ∧ Settled rest := by
  cases isConst with
  | true =>
    simp only [variableValue, if_true, Bool.true_eq_false, false_and, and_false, exists_false,
      iff_false]
    split <;> exact fun h => by cases h
  | false =>
    simp only [variableValue, Bool.false_eq_true, if_false, bind_eq_ok, pure_eq_ok,
      expectPunct_eq_ok, name_eq_ok, true_and]
    constructor
    · rintro ⟨_, middle, ⟨hdollar, -⟩, name, _, ⟨hname, hrest⟩, rfl, rfl⟩
      exact ⟨name, rfl, hdollar.append hname, hrest⟩
    · rintro ⟨name, rfl, hleads, hrest⟩
      obtain ⟨middle, hdollar, hname⟩ := hleads.uncons
      exact ⟨(), middle, ⟨hdollar, hname.settled hrest⟩, name, rest, ⟨hname, hrest⟩, rfl, rfl⟩

theorem starts_value (v : Value) : ∃ token more, v.tokens = token :: more ∧
    token ≠ .punct .bracketR ∧ token ≠ .punct .braceR := by
  cases v with
  | string content isBlock => cases isBlock <;> exact ⟨_, _, rfl, by simp [stringToken]⟩
  | _ => exact ⟨_, _, rfl, by simp⟩

theorem separable_value : Separable (Exactly (Value.Fits isConst levels) Value.tokens) ∅
    (.punct .bracketR) where
  closing_free := Set.notMem_empty _
  starts := by
    rintro v _ ⟨-, rfl⟩
    obtain ⟨token, more, h, hbracket, -⟩ := starts_value v
    exact ⟨token, more, h, Set.notMem_empty _, hbracket⟩

theorem objectField_eq (item : Parser Value) :
    objectField item = both name (behind (expectPunct .colon) item) := by
  simp only [objectField, both, behind, bind_assoc]

theorem reads_objectField {item : Parser Value}
    (h : Reads item (Exactly (Value.Fits isConst levels) Value.tokens) ∅) :
    Reads (objectField item)
      (Exactly (fun field => field.2.Fits isConst levels) fieldTokens) ∅ := by
  rw [objectField_eq]
  refine (reads_name.both ∅ (h.behind expectPunct_eq_ok) ?_ (Set.empty_subset _)).congr ?_
  · exact fun _ _ _ => ⟨fun _ _ => Set.notMem_empty _, fun _ => Set.empty_subset _⟩
  · rintro ⟨key, v⟩ tokens
    constructor
    · rintro ⟨_, _, rfl, ⟨_, ⟨hfits, rfl⟩, rfl⟩, rfl⟩
      exact ⟨hfits, rfl⟩
    · rintro ⟨hfits, rfl⟩
      exact ⟨_, _, rfl, ⟨_, ⟨hfits, rfl⟩, rfl⟩, rfl⟩

theorem separable_objectField : Separable
    (Exactly (fun field : String × Value => field.2.Fits isConst levels) fieldTokens) ∅
    (.punct .braceR) where
  closing_free := Set.notMem_empty _
  starts := by
    rintro field _ ⟨-, rfl⟩
    exact ⟨_, _, rfl, Set.notMem_empty _, Token.noConfusion⟩

/-- The parser of a list, given one of its items. -/
theorem reads_listValue {item : Parser Value}
    (h : Reads item (Exactly (Value.Fits isConst levels) Value.tokens) ∅) :
    Reads (do expectPunct .bracketL; return Value.list (← zeroOrMore .bracketR item))
      (fun v tokens => ∃ items, Value.list items = v ∧ (∀ v ∈ items, v.Fits isConst levels) ∧
        tokens = v.tokens) ∅ := by
  have hreads := ((h.zeroOrMore separable_value).behind
    (expectPunct_eq_ok (p := .bracketL))).map (g := Value.list) fun _ _ => Iff.rfl
  rw [map_eq_pure_bind, Parser.behind, bind_assoc] at hreads
  refine hreads.congr fun v tokens => ?_
  simp only [each_exactly]
  constructor
  · rintro ⟨items, rfl, _, ⟨_, ⟨hfits, rfl⟩, rfl⟩, rfl⟩
    exact ⟨items, rfl, hfits, by simp [Value.tokens, tokensOfValues_eq]⟩
  · rintro ⟨items, rfl, hfits, rfl⟩
    exact ⟨items, rfl, _, ⟨_, ⟨hfits, rfl⟩, rfl⟩, by simp [Value.tokens, tokensOfValues_eq]⟩

/-- The parser of an input object, given one of the values of its fields. -/
theorem reads_objectValue {item : Parser Value}
    (h : Reads item (Exactly (Value.Fits isConst levels) Value.tokens) ∅) :
    Reads (do expectPunct .braceL; return Value.object (← zeroOrMore .braceR (objectField item)))
      (fun v tokens => ∃ fields, Value.object fields = v ∧
        (∀ field ∈ fields, field.2.Fits isConst levels) ∧ tokens = v.tokens) ∅ := by
  have hreads := (((reads_objectField h).zeroOrMore separable_objectField).behind
    (expectPunct_eq_ok (p := .braceL))).map (g := Value.object) fun _ _ => Iff.rfl
  rw [map_eq_pure_bind, Parser.behind, bind_assoc] at hreads
  refine hreads.congr fun v tokens => ?_
  simp only [each_exactly]
  constructor
  · rintro ⟨fields, rfl, _, ⟨_, ⟨hfits, rfl⟩, rfl⟩, rfl⟩
    exact ⟨fields, rfl, hfits, by simp [Value.tokens, tokensOfFields_eq]⟩
  · rintro ⟨fields, rfl, hfits, rfl⟩
    exact ⟨fields, rfl, _, ⟨_, ⟨hfits, rfl⟩, rfl⟩, by simp [Value.tokens, tokensOfFields_eq]⟩

/-- A parser of values, given one of the values within. -/
theorem reads_valueWith {item? : Option (Parser Value)}
    (hitem : ∀ item, item? = some item → ∃ inner, levels = inner + 1 ∧
      Reads item (Exactly (Value.Fits isConst inner) Value.tokens) ∅)
    (hnone : item? = none → levels = 0) :
    Reads (valueWith isConst item?) (Exactly (Value.Fits isConst levels) Value.tokens) ∅ where
  sound := by
    intro stream rest v hstream hok
    obtain ⟨_, _, hpeek, hok⟩ := bind_eq_ok.1 hok
    obtain ⟨rfl, rfl⟩ := peek_eq_ok.1 hpeek
    cases htoken : token? stream with
    | none =>
      rw [htoken] at hok
      cases hok
    | some token =>
      rw [htoken] at hok
      cases token with
      | int text =>
        obtain ⟨rfl, h⟩ := (advance_return_eq_ok htoken).1 hok
        exact ⟨_, ⟨.int, rfl⟩, h⟩
      | float text =>
        obtain ⟨rfl, h⟩ := (advance_return_eq_ok htoken).1 hok
        exact ⟨_, ⟨.float, rfl⟩, h⟩
      | string content =>
        obtain ⟨rfl, h⟩ := (advance_return_eq_ok htoken).1 hok
        exact ⟨_, ⟨.string, rfl⟩, h⟩
      | block content =>
        obtain ⟨rfl, h⟩ := (advance_return_eq_ok htoken).1 hok
        exact ⟨_, ⟨.string, rfl⟩, h⟩
      | name word =>
        obtain ⟨rfl, h⟩ := (advance_return_eq_ok htoken).1 hok
        exact ⟨_, ⟨fits_wordValue word, (tokens_wordValue word).symm⟩, h⟩
      | punct p =>
        cases p with
        | dollar =>
          obtain ⟨name, rfl, hconst, h⟩ := variableValue_eq_ok.1 hok
          exact ⟨_, ⟨.mention hconst, rfl⟩, h⟩
        | bracketL =>
          cases item? with
          | none => cases hok
          | some item =>
            obtain ⟨inner, rfl, hreads⟩ := hitem item rfl
            obtain ⟨_, ⟨items, rfl, hfits, rfl⟩, h⟩ := (reads_listValue hreads).sound hstream hok
            exact ⟨_, ⟨.list hfits, rfl⟩, h⟩
        | braceL =>
          cases item? with
          | none => cases hok
          | some item =>
            obtain ⟨inner, rfl, hreads⟩ := hitem item rfl
            obtain ⟨_, ⟨fields, rfl, hfits, rfl⟩, h⟩ :=
              (reads_objectValue hreads).sound hstream hok
            exact ⟨_, ⟨.object hfits, rfl⟩, h⟩
        | _ => cases hok
  complete := by
    rintro stream rest v _ ⟨hfits, rfl⟩ hleads hrest -
    refine bind_eq_ok.2 ⟨_, stream, peek_eq_ok.2 ⟨rfl, rfl⟩, ?_⟩
    have hstep : ∀ {token : Token} {a : Value}, Leads [token] stream rest →
        (do advance; return a : Parser Value) stream = .ok (a, rest) := fun h =>
      (advance_return_eq_ok h.token?_eq).2 ⟨rfl, h, hrest⟩
    cases hfits with
    | mention hconst =>
      rw [hleads.token?_eq]
      exact variableValue_eq_ok.2 ⟨_, rfl, hconst, hleads, hrest⟩
    | int | float | null =>
      rw [hleads.token?_eq]
      exact hstep hleads
    | @string _ content isBlock =>
      cases isBlock <;> (rw [hleads.token?_eq]; exact hstep hleads)
    | @boolean _ value =>
      cases value <;> (rw [hleads.token?_eq]; exact hstep hleads)
    | @enum _ name hname =>
      rw [hleads.token?_eq, ← wordValue_of_not_mem hname]
      exact hstep hleads
    | @list inner items hitems =>
      cases item? with
      | none => cases hnone rfl
      | some item =>
        obtain ⟨inner, hinner, hreads⟩ := hitem item rfl
        cases hinner
        rw [hleads.token?_eq]
        exact (reads_listValue hreads).complete ⟨items, rfl, hitems, rfl⟩ hleads hrest
          (by simp [Avoids])
    | @object inner fields hfields =>
      cases item? with
      | none => cases hnone rfl
      | some item =>
        obtain ⟨inner, hinner, hreads⟩ := hitem item rfl
        cases hinner
        rw [hleads.token?_eq]
        exact (reads_objectValue hreads).complete ⟨fields, rfl, hfields, rfl⟩ hleads hrest
          (by simp [Avoids])

/-- The parser of values reads those whose lists and objects nest as deep as the levels allow. -/
theorem reads_value (isConst : Bool) (levels : Nat) :
    Reads (value isConst levels) (Exactly (Value.Fits isConst levels) Value.tokens) ∅ := by
  induction levels with
  | zero => exact reads_valueWith (fun _ => nofun) fun _ => rfl
  | succ levels ih =>
    refine reads_valueWith (fun item hitem => ⟨levels, rfl, ?_⟩) nofun
    cases hitem
    exact ih

/-! ## Types -/

namespace Parser

/-- A reference to a type up to the mark that says that it is not null. -/
def nullableType (item : Parser TypeRef) : Parser TypeRef := do
  if ← skipPunct .bracketL then TypeRef.list <$> ahead item (expectPunct .bracketR)
  else TypeRef.named <$> name

end Parser

theorem typeWith_eq (item : Parser TypeRef) : typeWith item =
    (fun x : TypeRef × Bool => if x.2 then .nonNull x.1 else x.1) <$>
      both (nullableType item) (skipPunct .bang) := by
  simp only [typeWith, both, nullableType, ahead, map_eq_pure_bind, bind_assoc, pure_bind]
  congr! with found
  cases found <;> simp only [Bool.false_eq_true, if_true, if_false, bind_assoc, pure_bind] <;>
    congr! <;> split <;> rfl

/-- The references that are no list deeper than the levels allow, and that may be null. -/
theorem reads_nullableType {item : Parser TypeRef} {Spells : TypeRef → List Token → Prop}
    (h : Reads item Spells {.punct .bang}) (hinner : ∀ inner tokens, Spells inner tokens ↔
      ∃ below, levels = below + 1 ∧ inner.Fits below ∧ tokens = inner.tokens) :
    Reads (nullableType item)
      (Exactly (fun type => type.Fits levels ∧ ∀ inner, type ≠ .nonNull inner) TypeRef.tokens)
      ∅ := by
  have hlist := (h.ahead (expectPunct_eq_ok (p := .bracketR)) (by simp) (by simp)).map
    (g := TypeRef.list) fun _ _ => Iff.rfl
  have hnamed := reads_name.map (g := TypeRef.named) fun _ _ => Iff.rfl
  refine (hlist.choice ∅ hnamed (.punct .bracketL)
    (by rintro _ _ ⟨name, rfl, rfl⟩; simp) (by simp) (by simp)).congr fun type tokens => ?_
  simp only [hinner]
  constructor
  · rintro (⟨_, ⟨inner, rfl, _, ⟨below, rfl, hfits, rfl⟩, rfl⟩, rfl⟩ | ⟨name, rfl, rfl⟩)
    · exact ⟨⟨.list hfits, nofun⟩, rfl⟩
    · exact ⟨⟨.named, nofun⟩, rfl⟩
  · rintro ⟨⟨hfits, hplain⟩, rfl⟩
    cases hfits with
    | named => exact .inr ⟨_, rfl, rfl⟩
    | list hfits => exact .inl ⟨_, ⟨_, rfl, _, ⟨_, rfl, hfits, rfl⟩, rfl⟩, rfl⟩
    | nonNull => exact absurd rfl (hplain _)

/-- A parser of types, given one of the item types within. -/
theorem reads_typeWith {item : Parser TypeRef} {Spells : TypeRef → List Token → Prop}
    (h : Reads item Spells {.punct .bang}) (hinner : ∀ inner tokens, Spells inner tokens ↔
      ∃ below, levels = below + 1 ∧ inner.Fits below ∧ tokens = inner.tokens) :
    Reads (typeWith item) (Exactly (TypeRef.Fits levels) TypeRef.tokens) {.punct .bang} := by
  rw [typeWith_eq]
  refine ((reads_nullableType h hinner).both {.punct .bang} (reads_skipPunct .bang)
    (by intro found tokens _; simp) (by simp)).map fun type tokens => ?_
  constructor
  · rintro ⟨hfits, rfl⟩
    by_cases hplain : ∃ core, type = .nonNull core
    · obtain ⟨core, rfl⟩ := hplain
      cases hfits with
      | nonNull hfits hplain =>
        exact ⟨(core, true), rfl, _, _, ⟨⟨hfits, hplain⟩, rfl⟩, rfl, rfl⟩
    · have hplain : ∀ inner, type ≠ .nonNull inner := fun inner h => hplain ⟨inner, h⟩
      exact ⟨(type, false), rfl, _, _, ⟨⟨hfits, hplain⟩, rfl⟩, rfl, (List.append_nil _).symm⟩
  · rintro ⟨⟨core, found⟩, rfl, _, _, ⟨⟨hfits, hplain⟩, rfl⟩, rfl, rfl⟩
    cases found with
    | false => exact ⟨hfits, List.append_nil _⟩
    | true => exact ⟨.nonNull hfits hplain, rfl⟩

/-- The parser of types reads those whose list types nest as deep as the levels allow. -/
theorem reads_typeRef (levels : Nat) :
    Reads (typeRef levels) (Exactly (TypeRef.Fits levels) TypeRef.tokens) {.punct .bang} := by
  induction levels with
  | zero =>
    refine reads_typeWith ((reads_fail .nestedTooDeeply).mono (Set.empty_subset _)) ?_
    simp
  | succ levels ih =>
    refine reads_typeWith ih fun inner tokens => ?_
    simp [Exactly]

/-! ## Arguments and directives -/

theorem argument_eq (isConst : Bool) (levels : Nat) : argument isConst levels =
    (fun x : String × Value => ⟨x.1, x.2⟩) <$>
      both name (behind (expectPunct .colon) (value isConst levels)) := by
  simp only [argument, both, behind, map_eq_pure_bind, bind_assoc, pure_bind]

theorem reads_argument (isConst : Bool) (levels : Nat) : Reads (argument isConst levels)
    (Exactly (Argument.Fits isConst levels) Argument.tokens) ∅ := by
  rw [argument_eq]
  refine (reads_name.both ∅ ((reads_value isConst levels).behind expectPunct_eq_ok)
    (by simp [StartsApart]) (by simp)).map fun given tokens => ?_
  constructor
  · rintro ⟨hfits, rfl⟩
    exact ⟨(given.name, given.value), rfl, _, _, rfl, ⟨_, ⟨hfits, rfl⟩, rfl⟩, rfl⟩
  · rintro ⟨⟨key, v⟩, rfl, _, _, rfl, ⟨_, ⟨hfits, rfl⟩, rfl⟩, rfl⟩
    exact ⟨hfits, rfl⟩

theorem reads_arguments (isConst : Bool) (levels : Nat) : Reads (arguments isConst levels)
    (Exactly (fun given => ∀ a ∈ given, a.Fits isConst levels) tokensOfArguments)
    {.punct .parenL} := by
  have hseparable : Separable (Exactly (Argument.Fits isConst levels) Argument.tokens) ∅
      (.punct .parenR) := by
    refine ⟨Set.notMem_empty _, ?_⟩
    rintro a _ ⟨-, rfl⟩
    exact ⟨_, _, rfl, Set.notMem_empty _, Token.noConfusion⟩
  exact (reads_argument isConst levels).listed hseparable

/-- Arguments begin with a parenthesis. -/
theorem startsApart_arguments {Fits : List Argument → Prop} {stops stops' : Set Token}
    (hopen : .punct .parenL ∉ stops) (hsub : stops ⊆ stops') :
    StartsApart (Exactly Fits tokensOfArguments) stops stops' := by
  rintro given _ ⟨-, rfl⟩
  refine ⟨fun token htoken => ?_, fun _ => hsub⟩
  rwa [head?_enclosed _ _ _ token htoken]

theorem directive_eq (isConst : Bool) (levels : Nat) : directive isConst levels =
    (fun x : String × List Argument => ⟨x.1, x.2⟩) <$>
      behind (expectPunct .at) (both name (arguments isConst levels)) := by
  simp only [directive, both, behind, map_eq_pure_bind, bind_assoc, pure_bind]

theorem reads_directive (isConst : Bool) (levels : Nat) : Reads (directive isConst levels)
    (Exactly (Directive.Fits isConst levels) Directive.tokens) {.punct .parenL} := by
  rw [directive_eq]
  refine ((reads_name.both {.punct .parenL} (reads_arguments isConst levels)
    (by simp [StartsApart]) (by simp)).behind expectPunct_eq_ok).map fun note tokens => ?_
  constructor
  · rintro ⟨hfits, rfl⟩
    exact ⟨(note.name, note.arguments), rfl, _, ⟨_, _, rfl, ⟨hfits, rfl⟩, rfl⟩, rfl⟩
  · rintro ⟨⟨key, given⟩, rfl, _, ⟨_, _, rfl, ⟨hfits, rfl⟩, rfl⟩, rfl⟩
    exact ⟨hfits, rfl⟩

theorem markedItems_eq {α : Type} (item : Parser α) (fuel : Nat) :
    markedItems item fuel = repeated .at item fuel := by
  induction fuel with
  | zero => rfl
  | succ fuel ih => rw [markedItems, ih, repeated]

theorem reads_directives (isConst : Bool) (levels : Nat) : Reads (directives isConst levels)
    (Exactly (fun notes => ∀ note ∈ notes, note.Fits isConst levels) tokensOfDirectives)
    {.punct .at, .punct .parenL} := by
  have heq : directives isConst levels = asLongAs .at (directive isConst levels) := by
    funext stream
    rw [directives, markedItems_eq]
    rfl
  rw [heq]
  refine ((reads_directive isConst levels).asLongAs (by simp) ?_).congr
    fun notes tokens => by rw [each_exactly]; rfl
  rintro note _ ⟨-, rfl⟩
  exact ⟨_, rfl⟩

/-- Directives begin with their mark. -/
theorem startsApart_directives {Fits : List Directive → Prop} {stops stops' : Set Token}
    (hat : .punct .at ∉ stops) (hsub : stops ⊆ stops') :
    StartsApart (Exactly Fits tokensOfDirectives) stops stops' := by
  rintro notes _ ⟨-, rfl⟩
  refine ⟨fun token htoken => ?_, fun _ => hsub⟩
  cases notes with
  | nil => cases htoken
  | cons note notes =>
    cases htoken
    exact hat

/-! ## Descriptions -/

/-- The tokens that are strings. -/
def stringTokens : Set Token := {token | ∃ content isBlock, token = stringToken content isBlock}

/-- The string in front of a definition, which is read when a string comes next. -/
theorem reads_description? : Reads description?
    (Exactly (fun _ => True) tokensOfDescription) stringTokens where
  sound := by
    intro stream rest note hstream hok
    obtain ⟨_, _, hpeek, hok⟩ := bind_eq_ok.1 hok
    obtain ⟨rfl, rfl⟩ := peek_eq_ok.1 hpeek
    have hnothing : (pure none : Parser (Option Description)) stream = .ok (note, rest) →
        Leads (tokensOfDescription note) stream rest ∧ Settled rest := by
      intro h
      obtain ⟨rfl, rfl⟩ := pure_eq_ok.1 h
      exact ⟨.nil, hstream⟩
    refine ⟨_, ⟨trivial, rfl⟩, ?_⟩
    cases htoken : token? stream with
    | none => rw [htoken] at hok; exact hnothing hok
    | some token =>
      rw [htoken] at hok
      cases token with
      | string content | block content =>
        obtain ⟨rfl, h⟩ := (advance_return_eq_ok htoken).1 hok
        exact h
      | _ => exact hnothing hok
  complete := by
    rintro stream rest note _ ⟨-, rfl⟩ hleads hrest hstops
    refine bind_eq_ok.2 ⟨_, stream, peek_eq_ok.2 ⟨rfl, rfl⟩, ?_⟩
    cases note with
    | none =>
      obtain rfl := Leads.nil_iff.1 hleads
      cases htoken : token? stream with
      | none => exact pure_eq_ok.2 ⟨rfl, rfl⟩
      | some token =>
        cases token with
        | string content => exact absurd htoken (hstops _ ⟨content, false, rfl⟩)
        | block content => exact absurd htoken (hstops _ ⟨content, true, rfl⟩)
        | _ => exact pure_eq_ok.2 ⟨rfl, rfl⟩
    | some d =>
      obtain ⟨content, isBlock⟩ := d
      cases isBlock <;>
      · rw [hleads.token?_eq]
        exact (advance_return_eq_ok hleads.token?_eq).2 ⟨rfl, hleads, hrest⟩

end PersistedQueries.GraphQL
