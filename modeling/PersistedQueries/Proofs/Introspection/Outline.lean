import Mathlib.Data.List.Forall2
import PersistedQueries.Introspection.Minified

/-!
# Outlines of introspection results

Minifying reads only a part of an introspection result: which types there are, to which types their
parts refer, and the names of the parts. This part is the outline of the result. Whatever else a
result says and in whatever order its fields stand, its minified form depends on the outline alone,
so what minifying does can be said of outlines.

- `Outline`: types with their parts, the types at which operations start, and directives.
- `Outline.ShownIn`: a value has the outline. It has no other one (`Outline.shownIn_unique`).
- `Outline.minified`: the outline of the minified form.
- `Outline.toJson`: the plain value with an outline, if its types only have the parts of their kind
  (`Outline.shownIn_toJson`).
- `minify_of_shownIn`: a value with an outline can be minified. The result is the plain value with
  the minified outline (`Outline.minified_shownIn_toJson`).
-/

namespace PersistedQueries.Introspection

open Json (Mismatch)

/-! ## Outlines -/

namespace Outline

/-- The kind and the name of a type. -/
structure Named where
  /-- The kind. -/
  kind : String
  /-- The name. -/
  name : String
  deriving DecidableEq, Repr

/-- The kinds of types around other types. -/
inductive Wrapper where
  | list
  | nonNull
  deriving DecidableEq, Repr

/-- The word for a kind of types around other types. -/
def Wrapper.word : Wrapper → String
  | list => "LIST"
  | nonNull => "NON_NULL"

/-- The kind is not one of types around others. -/
def Named.IsPlain (type : Named) : Prop := ∀ wrapper : Wrapper, type.kind ≠ wrapper.word

instance (type : Named) : Decidable type.IsPlain :=
  decidable_of_iff (type.kind ≠ Wrapper.list.word ∧ type.kind ≠ Wrapper.nonNull.word)
    ⟨fun h => fun | .list => h.1 | .nonNull => h.2, fun h => ⟨h .list, h .nonNull⟩⟩

/-- A reference to a type. -/
inductive Reference where
  /-- A named type. -/
  | named (type : Named) (plain : type.IsPlain)
  /-- A type around another one. -/
  | around (wrapper : Wrapper) (inner : Reference)

/-- The named type that is left when lists and non-null types are taken away. -/
def Reference.type : Reference → Named
  | named type _ => type
  | around _ inner => inner.type

/-- An argument or an input field. -/
structure Input where
  /-- The name. -/
  name : Json
  /-- The type of its values. -/
  type : Reference

/-- A field. -/
structure Field where
  /-- The name. -/
  name : Json
  /-- The type of its values. -/
  type : Reference
  /-- The arguments. -/
  arguments : List Input

/-- A type that is listed, with all the parts that types of any kind have. -/
structure NamedType extends Named where
  /-- The fields. -/
  fields : List Field := []
  /-- The interfaces that it implements. -/
  interfaces : List Named := []
  /-- The types that it stands for. -/
  possible : List Named := []
  /-- The input fields. -/
  inputs : List Input := []
  /-- The names of its values. -/
  values : List Json := []

/-- A directive. -/
structure Directive where
  /-- The name. -/
  name : Json
  /-- The arguments. -/
  arguments : List Input

end Outline

/-- What minifying reads of an introspection result. -/
structure Outline where
  /-- The types that are listed. -/
  types : List Outline.NamedType
  /-- The name of the type at which queries start. -/
  query : Option String := none
  /-- The name of the type at which mutations start. -/
  mutation : Option String := none
  /-- The name of the type at which subscriptions start. -/
  subscription : Option String := none
  /-- The directives. -/
  directives : List Outline.Directive := []

namespace Outline

variable {α β : Type}

/-! ## Values with an outline -/

/-- A value has a kind and a name. -/
structure Named.ShownIn (type : Named) (json : Json) : Prop where
  kind : json.get "kind" = .ok (.string type.kind)
  name : json.get "name" = .ok (.string type.name)

/-- A value is a reference. -/
inductive Reference.ShownIn : Reference → Json → Prop
  | named {type : Named} {plain : type.IsPlain} {json : Json} (shown : type.ShownIn json) :
      ShownIn (.named type plain) json
  | around {wrapper : Wrapper} {inner : Reference} {json within : Json}
      (kind : json.get "kind" = .ok (.string wrapper.word))
      (ofType : json.get "ofType" = .ok within) (shown : inner.ShownIn within) :
      ShownIn (.around wrapper inner) json

/-- A value has a part, which may be missing or null and has some items. -/
def PartShown (shown : α → Json → Prop) (part : String) (items : List α) (json : Json) : Prop :=
  ∃ value elements, json.getD part .null = .ok value ∧ value.elementsOrNone = .ok elements ∧
    List.Forall₂ shown items elements

/-- A value is an argument or an input field. -/
structure Input.ShownIn (input : Input) (json : Json) : Prop where
  name : json.get "name" = .ok input.name
  type : ∃ type, json.get "type" = .ok type ∧ input.type.ShownIn type

/-- A value is a field. -/
structure Field.ShownIn (field : Field) (json : Json) : Prop where
  name : json.get "name" = .ok field.name
  type : ∃ type, json.get "type" = .ok type ∧ field.type.ShownIn type
  arguments : PartShown Input.ShownIn "args" field.arguments json

/-- A value is a type with its parts. -/
structure NamedType.ShownIn (type : NamedType) (json : Json) : Prop where
  named : type.toNamed.ShownIn json
  fields : PartShown Field.ShownIn "fields" type.fields json
  interfaces : PartShown Named.ShownIn "interfaces" type.interfaces json
  possible : PartShown Named.ShownIn "possibleTypes" type.possible json
  inputs : PartShown Input.ShownIn "inputFields" type.inputs json
  values : PartShown (fun name value => value.get "name" = .ok name) "enumValues" type.values json

/-- A value is a directive. -/
structure Directive.ShownIn (directive : Directive) (json : Json) : Prop where
  name : json.get "name" = .ok directive.name
  arguments : PartShown Input.ShownIn "args" directive.arguments json

/-- A schema says at which type a kind of operation starts, if it does at any. -/
def RootShown (schema : Json) (key : String) (root : Option String) : Prop :=
  ∃ value, schema.getD key .null = .ok value ∧
    match root with
    | none => value.isTruthy = false
    | some name => value.isTruthy = true ∧ value.get "name" = .ok (.string name)

end Outline

/-- A value has an outline. -/
def Outline.ShownIn (outline : Outline) (json : Json) : Prop :=
  ∃ schema types elements, json.get "__schema" = .ok schema ∧ schema.get "types" = .ok types ∧
    types.elements = .ok elements ∧ List.Forall₂ NamedType.ShownIn outline.types elements ∧
    RootShown schema "queryType" outline.query ∧ RootShown schema "mutationType" outline.mutation ∧
    RootShown schema "subscriptionType" outline.subscription ∧
    PartShown Directive.ShownIn "directives" outline.directives schema

namespace Outline

/-! ## Rendering -/

/-- A named type as a value. -/
def Named.toJson (type : Named) : Json :=
  .object [("kind", .string type.kind), ("name", .string type.name)]

/-- A reference as a value. -/
def Reference.toJson : Reference → Json
  | named type _ => type.toJson
  | around wrapper inner => .object [("kind", .string wrapper.word), ("ofType", inner.toJson)]

/-- An argument or an input field as a value. -/
def Input.toJson (input : Input) : Json :=
  .object [("name", input.name), ("type", input.type.toJson)]

/-- A field as a value. -/
def Field.toJson (field : Field) : Json :=
  .object [("name", field.name), ("type", field.type.toJson),
    ("args", .array (field.arguments.map Input.toJson))]

/-- The fields of a type as a value, behind its kind and name: the parts that types of its kind
have. -/
def NamedType.parts (type : NamedType) : List (String × Json) :=
  let fields := [("fields", Json.array (type.fields.map Field.toJson)),
    ("interfaces", .array (type.interfaces.map Named.toJson))]
  let possible := [("possibleTypes", Json.array (type.possible.map Named.toJson))]
  match type.kind with
  | "OBJECT" => fields
  | "INTERFACE" => fields ++ possible
  | "UNION" => possible
  | "ENUM" => [("enumValues", .array (type.values.map fun name => .object [("name", name)]))]
  | "INPUT_OBJECT" => [("inputFields", .array (type.inputs.map Input.toJson))]
  | _ => []

/-- A type as a value. -/
def NamedType.toJson (type : NamedType) : Json :=
  .object ([("kind", .string type.kind), ("name", .string type.name)] ++ type.parts)

/-- A directive as a value. -/
def Directive.toJson (directive : Directive) : Json :=
  .object [("name", directive.name), ("args", .array (directive.arguments.map Input.toJson))]

/-- The type at which a kind of operation starts as a value. -/
def rootJson : Option String → Json
  | none => .null
  | some name => .object [("name", .string name)]

/-- An outline as a value. -/
def toJson (outline : Outline) : Json :=
  .object [("__schema", .object [
    ("queryType", rootJson outline.query), ("mutationType", rootJson outline.mutation),
    ("subscriptionType", rootJson outline.subscription),
    ("types", .array (outline.types.map NamedType.toJson)),
    ("directives", .array (outline.directives.map Directive.toJson))])]

/-! ## Minified outlines -/

/-- The scalar that stands for every type that is left out. -/
def any : Named := ⟨"SCALAR", "Any"⟩

section Minified

variable (inclusion : Inclusion)

/-- References to the type become references to `Any`. -/
def Named.IsLeftOut (type : Named) : Prop :=
  inclusion.keeps (.string type.kind) = false ∨
    Minified.isStandardScalar (.string type.name) = true

instance (type : Named) : Decidable (type.IsLeftOut inclusion) :=
  inferInstanceAs (Decidable (_ ∨ _))

/-- The name is one of those that introspection reserves for its own types. -/
def Named.IsReserved (type : Named) : Prop := type.name.startsWith "__" = true

instance (type : Named) : Decidable type.IsReserved := inferInstanceAs (Decidable (_ = _))

/-- The type stays in the list of types. -/
def Named.IsKept (type : Named) : Prop := ¬ type.IsReserved ∧ ¬ type.IsLeftOut inclusion

instance (type : Named) : Decidable (type.IsKept inclusion) := inferInstanceAs (Decidable (_ ∧ _))

/-- A type that is left out becomes `Any`. -/
def Named.minified (type : Named) : Named := if type.IsLeftOut inclusion then any else type

theorem Named.IsPlain.minified {type : Named} (h : type.IsPlain) :
    (type.minified inclusion).IsPlain := by
  unfold Named.minified
  split
  · intro wrapper
    cases wrapper <;> decide
  · exact h

/-- A reference to a type that is left out becomes one to `Any`. -/
def Reference.minified : Reference → Reference
  | named type plain => named (type.minified inclusion) (plain.minified inclusion)
  | around wrapper inner => around wrapper inner.minified

/-- An argument or an input field with its type minified. -/
def Input.minified (input : Input) : Input :=
  { input with type := input.type.minified inclusion }

/-- A field with the types in it minified. -/
def Field.minified (field : Field) : Field where
  name := field.name
  type := field.type.minified inclusion
  arguments := field.arguments.map (·.minified inclusion)

/-- An interface that a type implements. -/
def Named.asInterface (type : Named) : Named := { type with kind := "INTERFACE" }

/-- The kind of the last type of a name; a type that is not listed counts as an object type. -/
def kindIn (types : List NamedType) (name : String) : String :=
  ((types.reverse.find? (·.name = name)).map (·.kind)).getD "OBJECT"

/-- A type that another one stands for, with the kind that it is listed with. -/
def Named.asListed (types : List NamedType) (type : Named) : Named :=
  { type with kind := kindIn types type.name }

/-- A type with the types in its parts minified. -/
def NamedType.minified (types : List NamedType) (type : NamedType) : NamedType where
  toNamed := type.toNamed
  fields := type.fields.map (·.minified inclusion)
  interfaces := type.interfaces.map Named.asInterface
  possible := type.possible.map (·.asListed types)
  inputs := type.inputs.map (·.minified inclusion)
  values := type.values

/-- A directive with the types of its arguments minified. -/
def Directive.minified (directive : Directive) : Directive :=
  { directive with arguments := directive.arguments.map (·.minified inclusion) }

/-- Types of the kind have fields and implement interfaces. -/
def Named.HasFields (type : Named) : Prop := type.kind = "OBJECT" ∨ type.kind = "INTERFACE"

instance (type : Named) : Decidable type.HasFields := inferInstanceAs (Decidable (_ ∨ _))

/-- Types of the kind stand for others. -/
def Named.HasPossible (type : Named) : Prop := type.kind = "INTERFACE" ∨ type.kind = "UNION"

instance (type : Named) : Decidable type.HasPossible := inferInstanceAs (Decidable (_ ∨ _))

/-- A type with only the parts that types of its kind have. -/
def NamedType.trimmed (type : NamedType) : NamedType where
  toNamed := type.toNamed
  fields := if type.HasFields then type.fields else []
  interfaces := if type.HasFields then type.interfaces else []
  possible := if type.HasPossible then type.possible else []
  inputs := if type.kind = "INPUT_OBJECT" then type.inputs else []
  values := if type.kind = "ENUM" then type.values else []

/-- What is left of an outline when types, parts and directives are left out. -/
def trimmed (outline : Outline) : Outline :=
  { outline with
    types := (outline.types.filter (·.IsKept inclusion)).map NamedType.trimmed
    directives := if inclusion.directives then outline.directives else [] }

/-- The scalar that stands for types that are left out is added unless scalars are included. -/
def added : List NamedType := if inclusion.scalars then [] else [{ toNamed := any }]

/-- The outline of the minified form. -/
def minified (outline : Outline) : Outline :=
  { outline with
    types := (outline.trimmed inclusion).types.map (·.minified inclusion outline.types) ++
      added inclusion
    directives := (outline.trimmed inclusion).directives.map (·.minified inclusion) }

end Minified

/-! ## Items -/

/-- What is made of each item that shows something can be made of that. -/
theorem mapM_of_shown {shown : α → Json → Prop} {item : Json → Except Mismatch Json}
    {make : α → Json} {items : List α} {elements : List Json}
    (h : List.Forall₂ shown items elements)
    (hitem : ∀ a json, shown a json → item json = .ok (make a)) :
    elements.mapM item = .ok (items.map make) := by
  induction h with
  | nil => rfl
  | cons hfirst _ ih =>
    rw [List.mapM_cons, hitem _ _ hfirst, ih]
    rfl

/-- The items of a part that may be missing. -/
theorem items_of_partShown {shown : α → Json → Prop} {item : Json → Except Mismatch Json}
    {make : α → Json} {part : String} {items : List α} {json : Json}
    (h : PartShown shown part items json)
    (hitem : ∀ a json, shown a json → item json = .ok (make a)) :
    Minified.items json part item = .ok (.array (items.map make)) := by
  obtain ⟨value, elements, hvalue, helements, hshown⟩ := h
  unfold Minified.items
  rw [hvalue]
  show (value.elementsOrNone >>= _) = _
  rw [helements]
  show (elements.mapM item >>= _) = _
  rw [mapM_of_shown hshown hitem]
  rfl

theorem elementsOrNone_array (elements : List Json) :
    (Json.array elements).elementsOrNone = .ok elements := by
  cases elements <;> rfl

/-- Rendered items are shown where they stand. -/
theorem partShown_map {shown : α → Json → Prop} {render : α → Json} {part : String}
    {items : List α} {json : Json} (hitem : ∀ a, shown a (render a))
    (h : json.getD part .null = .ok (.array (items.map render))) :
    PartShown shown part items json := by
  refine ⟨_, _, h, elementsOrNone_array _, ?_⟩
  rw [List.forall₂_map_right_iff]
  exact List.forall₂_same.2 fun a _ => hitem a

/-- A part that is missing has no items. -/
theorem partShown_nil {shown : α → Json → Prop} {part : String} {json : Json}
    (h : json.getD part .null = .ok .null) : PartShown shown part [] json :=
  ⟨_, _, h, rfl, .nil⟩

/-! ## Renderings show what they render -/

theorem Named.shownIn_toJson (type : Named) : type.ShownIn type.toJson := ⟨rfl, rfl⟩

theorem Reference.shownIn_toJson (reference : Reference) : reference.ShownIn reference.toJson := by
  induction reference with
  | named type plain => exact .named type.shownIn_toJson
  | around wrapper inner ih => exact .around rfl rfl ih

theorem Input.shownIn_toJson (input : Input) : input.ShownIn input.toJson :=
  ⟨rfl, _, rfl, input.type.shownIn_toJson⟩

theorem Field.shownIn_toJson (field : Field) : field.ShownIn field.toJson :=
  ⟨rfl, ⟨_, rfl, field.type.shownIn_toJson⟩, partShown_map Input.shownIn_toJson rfl⟩

theorem Directive.shownIn_toJson (directive : Directive) : directive.ShownIn directive.toJson :=
  ⟨rfl, partShown_map Input.shownIn_toJson rfl⟩

theorem rootShown_toJson {schema : Json} {key : String} {root : Option String}
    (h : schema.getD key .null = .ok (rootJson root)) : RootShown schema key root := by
  refine ⟨_, h, ?_⟩
  cases root with
  | none => rfl
  | some name => exact ⟨rfl, rfl⟩

/-- The kinds of types with parts. -/
def kindsWithParts : List String := ["OBJECT", "INTERFACE", "UNION", "ENUM", "INPUT_OBJECT"]

/-- A kind is one of those of types with parts, or another one. -/
theorem kind_cases {p : String → Prop} (object : p "OBJECT") (interface : p "INTERFACE")
    (union : p "UNION") (enum : p "ENUM") (input : p "INPUT_OBJECT")
    (other : ∀ kind ∉ kindsWithParts, p kind) (kind : String) : p kind := by
  by_cases h : kind ∈ kindsWithParts
  · simp only [kindsWithParts, List.mem_cons, List.not_mem_nil, or_false] at h
    obtain rfl | rfl | rfl | rfl | rfl := h <;> assumption
  · exact other kind h

/-- A type of another kind is rendered as its kind and name. -/
theorem NamedType.toJson_of_other {type : NamedType} (h : type.kind ∉ kindsWithParts) :
    type.toJson = type.toNamed.toJson := by
  simp only [kindsWithParts, List.mem_cons, List.not_mem_nil, or_false, not_or] at h
  obtain ⟨hobject, hinterface, hunion, henum, hinput⟩ := h
  unfold NamedType.toJson NamedType.parts
  split
  · next hkind => exact absurd hkind hobject
  · next hkind => exact absurd hkind hinterface
  · next hkind => exact absurd hkind hunion
  · next hkind => exact absurd hkind henum
  · next hkind => exact absurd hkind hinput
  · rfl

/-- Nothing but the kind and the name is left of a type of another kind. -/
theorem NamedType.trimmed_of_other {type : NamedType} (h : type.kind ∉ kindsWithParts) :
    type.trimmed = { toNamed := type.toNamed } := by
  simp only [kindsWithParts, List.mem_cons, List.not_mem_nil, or_false, not_or] at h
  obtain ⟨hobject, hinterface, hunion, henum, hinput⟩ := h
  have hfields : ¬ type.HasFields := not_or.2 ⟨hobject, hinterface⟩
  have hpossible : ¬ type.HasPossible := not_or.2 ⟨hinterface, hunion⟩
  simp only [NamedType.trimmed, hfields, hpossible, henum, hinput, if_false]

/-- A type with only the parts of its kind is shown by its rendering. -/
theorem NamedType.shownIn_toJson {type : NamedType} (h : type.trimmed = type) :
    type.ShownIn type.toJson := by
  rw [← h]
  clear h
  obtain ⟨⟨kind, name⟩, fields, interfaces, possible, inputs, values⟩ := type
  induction kind using kind_cases with
  | object =>
    exact ⟨⟨rfl, rfl⟩, partShown_map Field.shownIn_toJson rfl,
      partShown_map Named.shownIn_toJson rfl, partShown_nil rfl, partShown_nil rfl,
      partShown_nil rfl⟩
  | interface =>
    exact ⟨⟨rfl, rfl⟩, partShown_map Field.shownIn_toJson rfl,
      partShown_map Named.shownIn_toJson rfl, partShown_map Named.shownIn_toJson rfl,
      partShown_nil rfl, partShown_nil rfl⟩
  | union =>
    exact ⟨⟨rfl, rfl⟩, partShown_nil rfl, partShown_nil rfl,
      partShown_map Named.shownIn_toJson rfl, partShown_nil rfl, partShown_nil rfl⟩
  | enum =>
    exact ⟨⟨rfl, rfl⟩, partShown_nil rfl, partShown_nil rfl, partShown_nil rfl, partShown_nil rfl,
      partShown_map (fun _ => rfl) rfl⟩
  | input =>
    exact ⟨⟨rfl, rfl⟩, partShown_nil rfl, partShown_nil rfl, partShown_nil rfl,
      partShown_map Input.shownIn_toJson rfl, partShown_nil rfl⟩
  | other kind hkind =>
    rw [trimmed_of_other hkind, toJson_of_other hkind]
    exact ⟨⟨rfl, rfl⟩, partShown_nil rfl, partShown_nil rfl, partShown_nil rfl, partShown_nil rfl,
      partShown_nil rfl⟩

/-- An outline whose types only have the parts of their kind is shown by its rendering. -/
theorem shownIn_toJson {outline : Outline} (h : ∀ type ∈ outline.types, type.trimmed = type) :
    outline.ShownIn outline.toJson := by
  refine ⟨_, _, _, rfl, rfl, rfl, ?_, rootShown_toJson rfl, rootShown_toJson rfl,
    rootShown_toJson rfl, partShown_map Directive.shownIn_toJson rfl⟩
  rw [List.forall₂_map_right_iff]
  exact List.forall₂_same.2 fun type htype => NamedType.shownIn_toJson (h type htype)

/-! ## A value has one outline -/

theorem Named.shownIn_unique : Relator.LeftUnique Named.ShownIn := by
  rintro ⟨kind, name⟩ ⟨kind', name'⟩ json h h'
  obtain rfl := Json.string.inj (Except.ok.inj (h.kind.symm.trans h'.kind))
  obtain rfl := Json.string.inj (Except.ok.inj (h.name.symm.trans h'.name))
  rfl

theorem Wrapper.word_injective : Function.Injective Wrapper.word := by
  intro wrapper wrapper' h
  cases wrapper <;> cases wrapper'
  · rfl
  · exact absurd h (by decide)
  · exact absurd h (by decide)
  · rfl

theorem Reference.shownIn_unique : Relator.LeftUnique Reference.ShownIn := by
  intro reference reference' json h h'
  induction h generalizing reference' with
  | @named type plain json shown =>
    cases h' with
    | @named type' _ _ shown' =>
      obtain rfl := Named.shownIn_unique shown shown'
      rfl
    | around kind =>
      exact absurd (Json.string.inj (Except.ok.inj (shown.kind.symm.trans kind))) (plain _)
  | @around wrapper inner json within kind ofType _ ih =>
    cases h' with
    | @named type' plain _ shown' =>
      exact absurd (Json.string.inj (Except.ok.inj (shown'.kind.symm.trans kind))) (plain _)
    | around kind' ofType' shown' =>
      obtain rfl := Wrapper.word_injective (Json.string.inj (Except.ok.inj (kind.symm.trans kind')))
      obtain rfl := Except.ok.inj (ofType.symm.trans ofType')
      rw [ih shown']

theorem partShown_unique {shown : α → Json → Prop} {part : String}
    (h : Relator.LeftUnique shown) : Relator.LeftUnique (PartShown shown part) := by
  rintro items items' json ⟨value, elements, hvalue, helements, hshown⟩
    ⟨value', elements', hvalue', helements', hshown'⟩
  obtain rfl := Except.ok.inj (hvalue.symm.trans hvalue')
  obtain rfl := Except.ok.inj (helements.symm.trans helements')
  exact List.left_unique_forall₂' h hshown hshown'

theorem Input.shownIn_unique : Relator.LeftUnique Input.ShownIn := by
  rintro ⟨name, type⟩ ⟨name', type'⟩ json ⟨hname, given, hget, hshown⟩
    ⟨hname', given', hget', hshown'⟩
  obtain rfl := Except.ok.inj (hname.symm.trans hname')
  obtain rfl := Except.ok.inj (hget.symm.trans hget')
  obtain rfl := Reference.shownIn_unique hshown hshown'
  rfl

theorem Field.shownIn_unique : Relator.LeftUnique Field.ShownIn := by
  rintro ⟨name, type, arguments⟩ ⟨name', type', arguments'⟩ json
    ⟨hname, ⟨given, hget, hshown⟩, harguments⟩ ⟨hname', ⟨given', hget', hshown'⟩, harguments'⟩
  obtain rfl := Except.ok.inj (hname.symm.trans hname')
  obtain rfl := Except.ok.inj (hget.symm.trans hget')
  obtain rfl := Reference.shownIn_unique hshown hshown'
  obtain rfl := partShown_unique Input.shownIn_unique harguments harguments'
  rfl

theorem NamedType.shownIn_unique : Relator.LeftUnique NamedType.ShownIn := by
  rintro ⟨named, fields, interfaces, possible, inputs, values⟩
    ⟨named', fields', interfaces', possible', inputs', values'⟩ json h h'
  obtain rfl := Named.shownIn_unique h.named h'.named
  obtain rfl := partShown_unique Field.shownIn_unique h.fields h'.fields
  obtain rfl := partShown_unique Named.shownIn_unique h.interfaces h'.interfaces
  obtain rfl := partShown_unique Named.shownIn_unique h.possible h'.possible
  obtain rfl := partShown_unique Input.shownIn_unique h.inputs h'.inputs
  obtain rfl := partShown_unique (fun _ _ _ hname hname' =>
    Except.ok.inj (hname.symm.trans hname')) h.values h'.values
  rfl

theorem Directive.shownIn_unique : Relator.LeftUnique Directive.ShownIn := by
  rintro ⟨name, arguments⟩ ⟨name', arguments'⟩ json ⟨hname, harguments⟩ ⟨hname', harguments'⟩
  obtain rfl := Except.ok.inj (hname.symm.trans hname')
  obtain rfl := partShown_unique Input.shownIn_unique harguments harguments'
  rfl

theorem rootShown_unique {key : String} :
    Relator.LeftUnique fun root schema => RootShown schema key root := by
  rintro root root' schema ⟨value, hvalue, hroot⟩ ⟨value', hvalue', hroot'⟩
  obtain rfl := Except.ok.inj (hvalue.symm.trans hvalue')
  cases root <;> cases root'
  · rfl
  · exact absurd hroot'.1 (Bool.eq_false_iff.1 hroot)
  · exact absurd hroot.1 (Bool.eq_false_iff.1 hroot')
  · exact congrArg some (Json.string.inj (Except.ok.inj (hroot.2.symm.trans hroot'.2)))

theorem shownIn_unique : Relator.LeftUnique ShownIn := by
  rintro ⟨types, query, mutation, subscription, directives⟩
    ⟨types', query', mutation', subscription', directives'⟩ json
    ⟨schema, listed, elements, hschema, hlisted, helements, htypes, hquery, hmutation,
      hsubscription, hdirectives⟩
    ⟨schema', listed', elements', hschema', hlisted', helements', htypes', hquery', hmutation',
      hsubscription', hdirectives'⟩
  obtain rfl := Except.ok.inj (hschema.symm.trans hschema')
  obtain rfl := Except.ok.inj (hlisted.symm.trans hlisted')
  obtain rfl := Except.ok.inj (helements.symm.trans helements')
  obtain rfl := List.left_unique_forall₂' NamedType.shownIn_unique htypes htypes'
  obtain rfl := rootShown_unique hquery hquery'
  obtain rfl := rootShown_unique hmutation hmutation'
  obtain rfl := rootShown_unique hsubscription hsubscription'
  obtain rfl := partShown_unique Directive.shownIn_unique hdirectives hdirectives'
  rfl

/-! ## References -/

section References

variable (inclusion : Inclusion) {json : Json}

/-- A named reference is minified as its type is. -/
theorem namedReference_of_shownIn {type : Named} (h : type.ShownIn json) :
    Minified.namedReference inclusion (.string type.kind) json =
      .ok (type.minified inclusion).toJson := by
  have hname : (if inclusion.keeps (.string type.kind) = true then
      .ok (if Minified.isStandardScalar (.string type.name) = true then Minified.anyScalar
        else type.toJson)
      else .ok Minified.anyScalar) =
      Minified.namedReference inclusion (.string type.kind) json := by
    unfold Minified.namedReference
    rw [h.name]
    rfl
  rw [← hname]
  unfold Named.minified
  by_cases hkeeps : inclusion.keeps (.string type.kind) = true
  · by_cases hstandard : Minified.isStandardScalar (.string type.name) = true
    · rw [if_pos hkeeps, if_pos hstandard, if_pos (.inr hstandard)]
      rfl
    · have hin : ¬ type.IsLeftOut inclusion :=
        not_or.2 ⟨Bool.not_eq_false _ ▸ hkeeps, hstandard⟩
      rw [if_pos hkeeps, if_neg hstandard, if_neg hin]
  · rw [if_neg hkeeps, if_pos (.inl (Bool.eq_false_iff.2 hkeeps))]
    rfl

theorem isWrapper_word (wrapper : Wrapper) : Minified.isWrapper (.string wrapper.word) = true := by
  cases wrapper <;> rfl

theorem Named.IsPlain.isWrapper {type : Named} (h : type.IsPlain) :
    Minified.isWrapper (.string type.kind) = false := by
  have hlist := h .list
  have hnonNull := h .nonNull
  simp only [Wrapper.word] at hlist hnonNull
  simp [Minified.isWrapper, hlist, hnonNull]

/-- A reference can be minified, and becomes the rendered minified reference. -/
theorem reference_of_shownIn {reference : Reference} (h : reference.ShownIn json) :
    Minified.reference inclusion json = .ok (reference.minified inclusion).toJson := by
  induction h with
  | @named _ plain _ shown =>
    rw [Minified.reference, shown.kind]
    dsimp only
    rw [plain.isWrapper, if_neg Bool.false_ne_true]
    exact namedReference_of_shownIn inclusion shown
  | around kind ofType _ ih =>
    rw [Minified.reference, kind]
    dsimp only
    rw [isWrapper_word, if_pos rfl]
    split
    · next hinner => cases hinner.symm.trans ofType
    · next hinner =>
      cases hinner.symm.trans ofType
      rw [ih]
      rfl

/-! ## Parts of types -/

theorem argument_of_shownIn {input : Input} (h : input.ShownIn json) :
    Minified.argument inclusion json = .ok (input.minified inclusion).toJson := by
  obtain ⟨type, htype, hshown⟩ := h.type
  unfold Minified.argument
  rw [h.name, htype]
  show (Minified.reference inclusion type >>= _) = _
  rw [reference_of_shownIn inclusion hshown]
  rfl

/-- Arguments can be minified. -/
theorem arguments_of_partShown {inputs : List Input}
    (h : PartShown Input.ShownIn "args" inputs json) :
    (json.getD "args" .null >>= Minified.arguments inclusion) =
      .ok (.array ((inputs.map (·.minified inclusion)).map Input.toJson)) := by
  rw [List.map_map]
  exact items_of_partShown h fun _ _ => argument_of_shownIn inclusion

theorem field_of_shownIn {field : Field} (h : field.ShownIn json) :
    Minified.field inclusion json = .ok (field.minified inclusion).toJson := by
  obtain ⟨type, htype, hshown⟩ := h.type
  have harguments := arguments_of_partShown inclusion h.arguments
  unfold Minified.field
  rw [h.name, htype]
  show (Minified.reference inclusion type >>= fun type => _) = _
  rw [reference_of_shownIn inclusion hshown]
  show ((json.getD "args" .null) >>= fun value => Minified.arguments inclusion value >>= _) = _
  rw [← bind_assoc, harguments]
  rfl

theorem interface_of_shownIn {type : Named} (h : type.ShownIn json) :
    Minified.interface json = .ok type.asInterface.toJson := by
  unfold Minified.interface
  rw [h.name]
  rfl

theorem enumValue_of_get {name : Json} (h : json.get "name" = .ok name) :
    Minified.enumValue json = .ok (.object [("name", name)]) := by
  unfold Minified.enumValue
  rw [h]
  rfl

theorem directive_of_shownIn {directive : Directive} (h : directive.ShownIn json) :
    Minified.directive inclusion json = .ok (directive.minified inclusion).toJson := by
  have harguments := arguments_of_partShown inclusion h.arguments
  unfold Minified.directive
  rw [h.name]
  show ((json.getD "args" .null) >>= fun value => Minified.arguments inclusion value >>= _) = _
  rw [← bind_assoc, harguments]
  rfl

end References

/-! ## Types -/

section Types

variable (inclusion : Inclusion) {json : Json} {types : List NamedType}

/-- The kinds of types by their names. -/
def kindsOf (types : List NamedType) : Minified.Kinds :=
  types.map fun type => (.string type.name, .string type.kind)

theorem kindsOf_of_shownIn {elements : List Json}
    (h : List.Forall₂ NamedType.ShownIn types elements) :
    Minified.kindsOf elements = .ok (kindsOf types) := by
  unfold Minified.kindsOf
  induction h with
  | nil => rfl
  | cons hfirst _ ih =>
    rw [List.mapM_cons, ih, hfirst.named.name, hfirst.named.kind]
    rfl

theorem kind_kindsOf (types : List NamedType) (name : String) :
    (kindsOf types).kind (.string name) = .string (kindIn types name) := by
  unfold Minified.Kinds.kind kindIn kindsOf
  rw [← List.map_reverse]
  dsimp only
  induction types.reverse with
  | nil => rfl
  | cons first rest ih =>
    rw [List.map_cons, List.find?_cons, List.find?_cons]
    by_cases hname : first.name = name
    · simp only [hname, decide_true]
      rfl
    · simp only [hname, decide_false]
      exact ih

theorem possibleType_of_shownIn (types : List NamedType) {type : Named} (h : type.ShownIn json) :
    Minified.possibleType (kindsOf types) json = .ok (type.asListed types).toJson := by
  have hmade : Minified.possibleType (kindsOf types) json =
      .ok (.object [("kind", (kindsOf types).kind (.string type.name)),
        ("name", .string type.name)]) := by
    unfold Minified.possibleType
    rw [h.name]
    rfl
  rw [hmade, kind_kindsOf]
  rfl

/-- The parts of a type can be minified, and become those of the minified type. -/
theorem typeBody_of_shownIn {type : NamedType} (h : type.ShownIn json) :
    Minified.typeBody inclusion (kindsOf types) type.kind json =
      .ok (type.trimmed.minified inclusion types).parts := by
  have hfields := items_of_partShown h.fields fun _ _ => field_of_shownIn inclusion
  have hinterfaces := items_of_partShown h.interfaces fun _ _ => interface_of_shownIn
  have hpossible := items_of_partShown h.possible fun _ _ => possibleType_of_shownIn types
  have hinputs := items_of_partShown h.inputs fun _ _ => argument_of_shownIn inclusion
  have hvalues := items_of_partShown h.values fun _ _ => enumValue_of_get
  obtain ⟨⟨kind, name⟩, fields, interfaces, possible, inputs, values⟩ := type
  clear h
  dsimp only at *
  unfold Minified.typeBody NamedType.parts NamedType.minified NamedType.trimmed
  dsimp only
  split
  · rw [hfields, hinterfaces]
    simp only [Named.HasFields, true_or, if_true, List.map_map]
    rfl
  · rw [hfields, hinterfaces, hpossible]
    simp only [Named.HasFields, Named.HasPossible, or_true, true_or, if_true, List.map_map]
    rfl
  · rw [hpossible]
    simp only [Named.HasPossible, or_true, if_true, List.map_map]
    rfl
  · rw [hvalues]
    simp only [if_true]
    rfl
  · rw [hinputs]
    simp only [if_true, List.map_map]
    rfl
  · simp only [pure, Except.pure]

theorem isListed_eq (type : Named) :
    Minified.isListed inclusion (.string type.name) (.string type.kind) =
      .ok (decide (type.IsKept inclusion)) := by
  refine congrArg Except.ok ?_
  rw [Bool.eq_iff_iff, decide_eq_true_iff]
  unfold Named.IsKept Named.IsReserved Named.IsLeftOut
  rw [Bool.not_eq_true', Bool.or_eq_false_iff, Bool.or_eq_false_iff, Bool.not_eq_eq_eq_not,
    Bool.not_false, not_or, Bool.not_eq_true, Bool.not_eq_true, Bool.not_eq_false]
  tauto

/-- A type that is kept can be minified, one that is not is dropped. -/
theorem type?_of_shownIn {type : NamedType} (h : type.ShownIn json) :
    Minified.type? inclusion (kindsOf types) json =
      .ok (if type.IsKept inclusion then some (type.trimmed.minified inclusion types).toJson
        else none) := by
  unfold Minified.type?
  rw [h.named.name, h.named.kind]
  simp only [bind, Except.bind]
  rw [isListed_eq]
  by_cases hkept : type.IsKept inclusion
  · rw [decide_eq_true hkept, if_pos hkept]
    dsimp only
    rw [if_pos rfl, typeBody_of_shownIn inclusion h]
    rfl
  · rw [decide_eq_false hkept, if_neg hkept]
    rfl

/-- The types that are kept, minified. -/
theorem filterMapM_type?_of_shownIn {listed : List NamedType} {elements : List Json}
    (h : List.Forall₂ NamedType.ShownIn listed elements) :
    elements.filterMapM (Minified.type? inclusion (kindsOf types)) =
      .ok ((((listed.filter (·.IsKept inclusion)).map NamedType.trimmed).map
        (·.minified inclusion types)).map NamedType.toJson) := by
  induction h with
  | nil => rfl
  | @cons type _ _ _ hfirst _ ih =>
    rw [List.filterMapM_cons, type?_of_shownIn inclusion hfirst, ih, List.filter_cons]
    by_cases hkept : type.IsKept inclusion
    · rw [if_pos hkept, if_pos (decide_eq_true hkept)]
      rfl
    · rw [if_neg hkept, if_neg (mt of_decide_eq_true hkept)]
      rfl

theorem root_of_shown {schema : Json} {key : String} {root : Option String}
    (h : RootShown schema key root) : Minified.root schema key = .ok (rootJson root) := by
  obtain ⟨value, hvalue, hroot⟩ := h
  unfold Minified.root
  rw [hvalue]
  cases root with
  | none =>
    show (if value.isTruthy = true then _ else _) = _
    rw [if_neg (Bool.eq_false_iff.1 hroot)]
    rfl
  | some name =>
    show (if value.isTruthy = true then _ else _) = _
    rw [if_pos hroot.1, hroot.2]
    rfl

end Types

/-! ## Minified outlines have only the parts of their kinds -/

/-- Parts are minified apart from each other. -/
theorem NamedType.trimmed_minified (inclusion : Inclusion) (types : List NamedType)
    (type : NamedType) :
    (type.trimmed.minified inclusion types).trimmed = type.trimmed.minified inclusion types := by
  have hmap {β γ : Type} {c : Prop} [Decidable c] (f : β → γ) (l : List β) :
      (if c then (if c then l else []).map f else []) = (if c then l else []).map f := by
    split <;> rfl
  unfold NamedType.minified NamedType.trimmed
  simp only [hmap]
  congr 1
  split <;> rfl

/-- A minified outline is shown by its rendering. -/
theorem minified_shownIn_toJson (inclusion : Inclusion) (outline : Outline) :
    (outline.minified inclusion).ShownIn (outline.minified inclusion).toJson := by
  refine shownIn_toJson fun type htype => ?_
  obtain hkept | hany := List.mem_append.1 htype
  · obtain ⟨_, htrimmed, rfl⟩ := List.mem_map.1 hkept
    obtain ⟨type, -, rfl⟩ := List.mem_map.1 htrimmed
    exact NamedType.trimmed_minified ..
  · unfold added at hany
    split at hany
    · cases hany
    · rw [List.mem_singleton.1 hany]
      exact NamedType.trimmed_of_other (by decide)

end Outline

/-! ## Minifying -/

section Minify

open Outline

variable (inclusion : Inclusion) {outline : Outline} {json : Json}

/-- A value with an outline can be minified, and becomes the rendering of the minified outline. -/
theorem minify_of_shownIn (h : outline.ShownIn json) :
    minify inclusion json = .ok (outline.minified inclusion).toJson := by
  obtain ⟨schema, types, elements, hschema, htypes, helements, hshown, hquery, hmutation,
    hsubscription, hdirectives⟩ := h
  have hlisted : Minified.types inclusion (kindsOf outline.types) elements =
      .ok ((outline.minified inclusion).types.map NamedType.toJson) := by
    unfold Minified.types Outline.minified added
    rw [filterMapM_type?_of_shownIn inclusion hshown, List.map_append]
    cases inclusion.scalars
    · rfl
    · exact congrArg Except.ok (List.append_nil _).symm
  have hitems := items_of_partShown hdirectives fun _ _ => directive_of_shownIn inclusion
  unfold minify
  simp only [bind, Except.bind, hschema, htypes, helements, kindsOf_of_shownIn hshown, hlisted,
    root_of_shown hquery, root_of_shown hmutation, root_of_shown hsubscription, hitems]
  unfold Outline.minified Outline.trimmed toJson
  cases inclusion.directives
  · rfl
  · simp only [if_true, List.map_map]
    rfl

end Minify

end PersistedQueries.Introspection
