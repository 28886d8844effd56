import Mathlib.Data.List.Nodup
import PersistedQueries.Proofs.Introspection.Outline

/-!
# Closed introspection results

An introspection result is well formed if its types have different names and every type that it
refers to is listed, with the kind that the reference gives. Clients look up what a result refers
to, so its minified form should be well formed again.

When scalars are left out, it is, except for schemas that have a type `Any` of their own or refer to
the types of introspection itself. When scalars are included, standard scalars still are not:
references to them, and to the enumerations and input types that are left out, become references to
`Any`, which nobody lists.

- `Outline.WellFormed`, `IsWellFormed`: names are distinct, and whatever is referred to is listed.
- `Outline.Closes`: what it takes for the minified outline to be well formed.
- `minify_closed`: a well-formed value can be minified, and the result is well formed exactly then.
- `not_minify_closed`: it is not for a schema with strings when scalars are included.
-/

namespace PersistedQueries.Introspection

namespace Outline

/-! ## Types that are referred to -/

/-- The types of a field and of its arguments. -/
def Field.mentioned (field : Field) : List Named :=
  field.type.type :: field.arguments.map (·.type.type)

/-- The types of the fields, arguments and input fields of a type. -/
def NamedType.mentioned (type : NamedType) : List Named :=
  type.fields.flatMap Field.mentioned ++ type.inputs.map (·.type.type)

/-- The types of the arguments of a directive. -/
def Directive.mentioned (directive : Directive) : List Named :=
  directive.arguments.map (·.type.type)

/-- The types that are listed. -/
def listed (outline : Outline) : List Named := outline.types.map (·.toNamed)

/-- The types of fields, arguments and input fields. -/
def mentioned (outline : Outline) : List Named :=
  outline.types.flatMap NamedType.mentioned ++ outline.directives.flatMap Directive.mentioned

/-- The interfaces that types implement. -/
def interfaces (outline : Outline) : List Named := outline.types.flatMap (·.interfaces)

/-- The types that other types stand for. -/
def possible (outline : Outline) : List Named := outline.types.flatMap (·.possible)

/-- The names of the types at which operations start. -/
def roots (outline : Outline) : List String :=
  [outline.query, outline.mutation, outline.subscription].reduceOption

/-- Types have different names, and whatever is referred to is listed, with its kind. -/
structure WellFormed (outline : Outline) : Prop where
  names : (outline.listed.map (·.name)).Nodup
  mentioned : ∀ type ∈ outline.mentioned, type ∈ outline.listed
  interfaces : ∀ type ∈ outline.interfaces, type ∈ outline.listed
  possible : ∀ type ∈ outline.possible, type ∈ outline.listed
  roots : ∀ name ∈ outline.roots, name ∈ outline.listed.map (·.name)

/-- What it takes for a well-formed outline to be well formed when it is minified. -/
structure Closes (inclusion : Inclusion) (outline : Outline) : Prop where
  /-- No type that is kept has the name of the scalar that is added. -/
  names : inclusion.scalars = false →
    ∀ type ∈ outline.listed, type.IsKept inclusion → type.name ≠ any.name
  /-- If no scalar is added and something becomes `Any`, the schema has this scalar. -/
  collapsed : inclusion.scalars = true →
    ∀ type ∈ (outline.trimmed inclusion).mentioned, type.IsLeftOut inclusion → any ∈ outline.listed
  /-- The types of introspection itself are not mentioned. -/
  mentioned : ∀ type ∈ (outline.trimmed inclusion).mentioned,
    ¬ type.IsLeftOut inclusion → ¬ type.IsReserved
  /-- What types implement are interfaces that are kept. -/
  interfaces : ∀ type ∈ (outline.trimmed inclusion).interfaces,
    type.kind = "INTERFACE" ∧ type.IsKept inclusion
  /-- What types stand for is kept, or is the scalar that is added. -/
  possible : ∀ type ∈ (outline.trimmed inclusion).possible,
    type.IsKept inclusion ∨ inclusion.scalars = false ∧ type = any
  /-- Operations start at types that are kept, or at the scalar that is added. -/
  roots : ∀ name ∈ outline.roots,
    (∃ type ∈ outline.listed, type.IsKept inclusion ∧ type.name = name) ∨
      inclusion.scalars = false ∧ name = any.name

/-! ## What a minified outline refers to -/

section Minified

variable (inclusion : Inclusion)

theorem Reference.type_minified (reference : Reference) :
    (reference.minified inclusion).type = reference.type.minified inclusion := by
  induction reference with
  | named type plain => rfl
  | around wrapper inner ih => exact ih

theorem types_inputs_minified (inputs : List Input) :
    (inputs.map (·.minified inclusion)).map (·.type.type) =
      (inputs.map (·.type.type)).map (·.minified inclusion) := by
  rw [List.map_map, List.map_map]
  exact List.map_congr_left fun input _ => Reference.type_minified inclusion input.type

theorem Field.mentioned_minified (field : Field) :
    (field.minified inclusion).mentioned = field.mentioned.map (·.minified inclusion) :=
  congrArg₂ List.cons (Reference.type_minified inclusion _) (types_inputs_minified inclusion _)

theorem NamedType.mentioned_minified (types : List NamedType) (type : NamedType) :
    (type.minified inclusion types).mentioned = type.mentioned.map (·.minified inclusion) := by
  unfold NamedType.mentioned NamedType.minified
  rw [List.map_append, List.map_flatMap, List.flatMap_map, types_inputs_minified]
  simp only [Field.mentioned_minified]

theorem Directive.mentioned_minified (directive : Directive) :
    (directive.minified inclusion).mentioned = directive.mentioned.map (·.minified inclusion) :=
  types_inputs_minified inclusion directive.arguments

variable (outline : Outline)

@[simp]
theorem mentioned_minified :
    (outline.minified inclusion).mentioned =
      (outline.trimmed inclusion).mentioned.map (·.minified inclusion) := by
  have hadded : (added inclusion).flatMap NamedType.mentioned = [] := by
    unfold added
    split <;> rfl
  unfold mentioned minified
  rw [List.flatMap_append, hadded, List.append_nil, List.flatMap_map, List.flatMap_map,
    List.map_append, List.map_flatMap, List.map_flatMap]
  simp only [NamedType.mentioned_minified, Directive.mentioned_minified]

@[simp]
theorem interfaces_minified :
    (outline.minified inclusion).interfaces =
      (outline.trimmed inclusion).interfaces.map Named.asInterface := by
  have hadded : (added inclusion).flatMap (·.interfaces) = [] := by
    unfold added
    split <;> rfl
  unfold interfaces minified
  rw [List.flatMap_append, hadded, List.append_nil, List.flatMap_map, List.map_flatMap]
  rfl

@[simp]
theorem possible_minified :
    (outline.minified inclusion).possible =
      (outline.trimmed inclusion).possible.map (·.asListed outline.types) := by
  have hadded : (added inclusion).flatMap (·.possible) = [] := by
    unfold added
    split <;> rfl
  unfold possible minified
  rw [List.flatMap_append, hadded, List.append_nil, List.flatMap_map, List.map_flatMap]
  rfl

@[simp]
theorem listed_minified :
    (outline.minified inclusion).listed =
      outline.listed.filter (·.IsKept inclusion) ++ if inclusion.scalars then [] else [any] := by
  have hadded : (added inclusion).map (·.toNamed) = if inclusion.scalars then [] else [any] := by
    unfold added
    split <;> rfl
  unfold listed minified trimmed
  rw [List.map_append, hadded, List.filter_map, List.map_map, List.map_map]
  rfl

/-- A minified outline lists the types that are kept, and the scalar that is added. -/
theorem mem_listed_minified {type : Named} :
    type ∈ (outline.minified inclusion).listed ↔
      (type ∈ outline.listed ∧ type.IsKept inclusion) ∨
        inclusion.scalars = false ∧ type = any := by
  rw [listed_minified, List.mem_append, List.mem_filter, decide_eq_true_iff]
  cases inclusion.scalars <;> simp

/-- Trimming only takes parts away. -/
theorem flatMap_trimmed_subset {β : Type} {part : NamedType → List β}
    (h : ∀ type, part type.trimmed ⊆ part type) :
    (outline.trimmed inclusion).types.flatMap part ⊆ outline.types.flatMap part := by
  intro item hitem
  obtain ⟨_, htrimmed, hmem⟩ := List.mem_flatMap.1 hitem
  obtain ⟨type, htype, rfl⟩ := List.mem_map.1 htrimmed
  exact List.mem_flatMap.2 ⟨type, List.mem_of_mem_filter htype, h type hmem⟩

theorem ite_subset {β : Type} {c : Prop} [Decidable c] (items : List β) :
    (if c then items else []) ⊆ items := by
  split
  · exact List.Subset.refl items
  · exact List.nil_subset items

theorem flatMap_ite_subset {β γ : Type} {c : Prop} [Decidable c] (part : β → List γ)
    (items : List β) : (if c then items else []).flatMap part ⊆ items.flatMap part := by
  split
  · exact List.Subset.refl _
  · exact List.nil_subset _

theorem mentioned_trimmed_subset :
    (outline.trimmed inclusion).mentioned ⊆ outline.mentioned := by
  refine List.append_subset.2 ⟨?_, ?_⟩
  · refine List.Subset.trans (flatMap_trimmed_subset inclusion outline fun type => ?_)
      (List.subset_append_left ..)
    refine List.append_subset.2 ⟨?_, ?_⟩
    · exact List.Subset.trans (flatMap_ite_subset ..) (List.subset_append_left ..)
    · exact List.Subset.trans (List.map_subset _ (ite_subset _)) (List.subset_append_right ..)
  · exact List.Subset.trans (flatMap_ite_subset ..) (List.subset_append_right ..)

theorem interfaces_trimmed_subset :
    (outline.trimmed inclusion).interfaces ⊆ outline.interfaces :=
  flatMap_trimmed_subset inclusion outline fun _ => ite_subset _

theorem possible_trimmed_subset :
    (outline.trimmed inclusion).possible ⊆ outline.possible :=
  flatMap_trimmed_subset inclusion outline fun _ => ite_subset _

end Minified

/-! ## Well-formed outlines -/

section WellFormed

variable {inclusion : Inclusion} {outline : Outline}

/-- Types that are listed are told apart by their names. -/
theorem WellFormed.eq_of_name (h : outline.WellFormed) {type type' : Named}
    (htype : type ∈ outline.listed) (htype' : type' ∈ outline.listed)
    (hname : type.name = type'.name) : type = type' :=
  List.inj_on_of_nodup_map h.names htype htype' hname

/-- A type that is listed is found with its kind. -/
theorem WellFormed.asListed_eq (h : outline.WellFormed) {type : Named}
    (htype : type ∈ outline.listed) : type.asListed outline.types = type := by
  obtain ⟨own, hown, rfl⟩ := List.mem_map.1 htype
  have hfound : ∃ found, outline.types.reverse.find? (·.name = own.name) = some found := by
    rw [← Option.isSome_iff_exists, List.find?_isSome]
    exact ⟨own, List.mem_reverse.2 hown, decide_eq_true rfl⟩
  obtain ⟨found, hfound⟩ := hfound
  have hsame : found.toNamed = own.toNamed := by
    refine h.eq_of_name (List.mem_map_of_mem ?_) htype ?_
    · exact List.mem_reverse.1 (List.mem_of_find?_eq_some hfound)
    · simpa using List.find?_some hfound
  unfold Named.asListed kindIn
  rw [hfound, ← hsame]
  rfl

/-- `Any` is left out like any other scalar. -/
theorem any_isLeftOut_iff : any.IsLeftOut inclusion ↔ inclusion.scalars = false := by
  have hstandard : Minified.isStandardScalar (.string any.name) = false := by decide
  unfold Named.IsLeftOut
  rw [hstandard]
  exact or_iff_left Bool.false_ne_true

theorem any_isKept_iff : any.IsKept inclusion ↔ inclusion.scalars = true := by
  have hreserved : ¬ any.IsReserved := by decide +kernel
  unfold Named.IsKept
  rw [any_isLeftOut_iff, and_iff_right hreserved, Bool.not_eq_false]

/-- The names stay distinct if none is that of the scalar that is added. -/
theorem WellFormed.names_minified_iff (h : outline.WellFormed) :
    ((outline.minified inclusion).listed.map (·.name)).Nodup ↔
      (inclusion.scalars = false →
        ∀ type ∈ outline.listed, type.IsKept inclusion → type.name ≠ any.name) := by
  have hkept : ((outline.listed.filter (·.IsKept inclusion)).map (·.name)).Nodup :=
    h.names.sublist (List.filter_sublist.map _)
  rw [listed_minified, List.map_append]
  cases inclusion.scalars with
  | true => simpa using hkept
  | false =>
    simp only [Bool.false_eq_true, if_false, List.map_cons, List.map_nil, List.nodup_append, hkept,
      List.nodup_singleton, List.mem_singleton, List.forall_mem_map, List.mem_filter,
      decide_eq_true_iff, forall_eq, true_and, and_imp, forall_const]

/-- What is mentioned is listed if `Any` is, where something becomes `Any`, and no type of
introspection itself is mentioned. -/
theorem WellFormed.mentioned_minified_iff (h : outline.WellFormed) :
    (∀ type ∈ (outline.minified inclusion).mentioned, type ∈ (outline.minified inclusion).listed) ↔
      (inclusion.scalars = true → ∀ type ∈ (outline.trimmed inclusion).mentioned,
        type.IsLeftOut inclusion → any ∈ outline.listed) ∧
      ∀ type ∈ (outline.trimmed inclusion).mentioned,
        ¬ type.IsLeftOut inclusion → ¬ type.IsReserved := by
  rw [mentioned_minified, List.forall_mem_map]
  simp only [mem_listed_minified]
  constructor
  · intro hclosed
    refine ⟨fun hscalars type htype hout => ?_, fun type htype hin => ?_⟩
    · have hany : type.minified inclusion = any := if_pos hout
      obtain ⟨hlisted, -⟩ | ⟨hscalars', -⟩ := hany ▸ hclosed type htype
      · exact hlisted
      · rw [hscalars] at hscalars'
        cases hscalars'
    · have hsame : type.minified inclusion = type := if_neg hin
      obtain ⟨-, hkept⟩ | ⟨hscalars, rfl⟩ := hsame ▸ hclosed type htype
      · exact hkept.1
      · exact absurd (any_isLeftOut_iff.2 hscalars) hin
  · rintro ⟨hcollapsed, hmentioned⟩ type htype
    by_cases hout : type.IsLeftOut inclusion
    · have hany : type.minified inclusion = any := if_pos hout
      rw [hany, any_isKept_iff]
      cases hscalars : inclusion.scalars with
      | true => exact .inl ⟨hcollapsed hscalars type htype hout, rfl⟩
      | false => exact .inr ⟨rfl, rfl⟩
    · have hsame : type.minified inclusion = type := if_neg hout
      rw [hsame]
      exact .inl ⟨h.mentioned type (mentioned_trimmed_subset inclusion outline htype),
        hmentioned type htype hout, hout⟩

/-- The interfaces that types implement are listed if they are interfaces that are kept. -/
theorem WellFormed.interfaces_minified_iff (h : outline.WellFormed) :
    (∀ type ∈ (outline.minified inclusion).interfaces,
        type ∈ (outline.minified inclusion).listed) ↔
      ∀ type ∈ (outline.trimmed inclusion).interfaces,
        type.kind = "INTERFACE" ∧ type.IsKept inclusion := by
  rw [interfaces_minified, List.forall_mem_map]
  refine forall₂_congr fun type htype => ?_
  have hlisted := h.interfaces type (interfaces_trimmed_subset inclusion outline htype)
  rw [mem_listed_minified]
  constructor
  · rintro (⟨hinterface, hkept⟩ | ⟨-, hany⟩)
    · have hsame : type.asInterface = type := h.eq_of_name hinterface hlisted rfl
      exact ⟨congrArg Named.kind hsame.symm, hsame ▸ hkept⟩
    · exact absurd (congrArg Named.kind hany) (show "INTERFACE" ≠ "SCALAR" by decide)
  · rintro ⟨hkind, hkept⟩
    have hsame : type.asInterface = type := by rw [Named.asInterface, ← hkind]
    rw [hsame]
    exact .inl ⟨hlisted, hkept⟩

/-- The types that others stand for are listed if they are kept, or are the scalar that is added. -/
theorem WellFormed.possible_minified_iff (h : outline.WellFormed) :
    (∀ type ∈ (outline.minified inclusion).possible, type ∈ (outline.minified inclusion).listed) ↔
      ∀ type ∈ (outline.trimmed inclusion).possible,
        type.IsKept inclusion ∨ inclusion.scalars = false ∧ type = any := by
  rw [possible_minified, List.forall_mem_map]
  refine forall₂_congr fun type htype => ?_
  have hlisted := h.possible type (possible_trimmed_subset inclusion outline htype)
  rw [h.asListed_eq hlisted, mem_listed_minified, and_iff_right hlisted]

/-- Operations start at types that are listed if these are kept, or are the scalar that is
added. -/
theorem roots_minified_iff :
    (∀ name ∈ (outline.minified inclusion).roots,
        name ∈ (outline.minified inclusion).listed.map (·.name)) ↔
      ∀ name ∈ outline.roots,
        (∃ type ∈ outline.listed, type.IsKept inclusion ∧ type.name = name) ∨
          inclusion.scalars = false ∧ name = any.name := by
  refine forall₂_congr fun name _ => ?_
  simp only [List.mem_map, mem_listed_minified, or_and_right, exists_or, and_assoc]
  refine or_congr Iff.rfl ?_
  constructor
  · rintro ⟨_, hscalars, rfl, rfl⟩
    exact ⟨hscalars, rfl⟩
  · rintro ⟨hscalars, rfl⟩
    exact ⟨any, hscalars, rfl, rfl⟩

/-- A minified outline is well formed exactly if the outline closes. -/
theorem WellFormed.minified_iff (h : outline.WellFormed) :
    (outline.minified inclusion).WellFormed ↔ outline.Closes inclusion := by
  constructor
  · intro hminified
    obtain ⟨hcollapsed, hmentioned⟩ := h.mentioned_minified_iff.1 hminified.mentioned
    exact ⟨h.names_minified_iff.1 hminified.names, hcollapsed, hmentioned,
      h.interfaces_minified_iff.1 hminified.interfaces,
      h.possible_minified_iff.1 hminified.possible, roots_minified_iff.1 hminified.roots⟩
  · intro hcloses
    exact ⟨h.names_minified_iff.2 hcloses.names,
      h.mentioned_minified_iff.2 ⟨hcloses.collapsed, hcloses.mentioned⟩,
      h.interfaces_minified_iff.2 hcloses.interfaces,
      h.possible_minified_iff.2 hcloses.possible, roots_minified_iff.2 hcloses.roots⟩

end WellFormed

instance (outline : Outline) : Decidable outline.WellFormed :=
  decidable_of_iff
    ((outline.listed.map (·.name)).Nodup ∧ (∀ type ∈ outline.mentioned, type ∈ outline.listed) ∧
      (∀ type ∈ outline.interfaces, type ∈ outline.listed) ∧
      (∀ type ∈ outline.possible, type ∈ outline.listed) ∧
      ∀ name ∈ outline.roots, name ∈ outline.listed.map (·.name))
    ⟨fun ⟨names, mentioned, interfaces, possible, roots⟩ =>
      ⟨names, mentioned, interfaces, possible, roots⟩, fun h =>
      ⟨h.names, h.mentioned, h.interfaces, h.possible, h.roots⟩⟩

end Outline

/-! ## Well-formed values -/

/-- A value with a well-formed outline. -/
def IsWellFormed (json : Json) : Prop :=
  ∃ outline : Outline, outline.ShownIn json ∧ outline.WellFormed

theorem isWellFormed_iff {outline : Outline} {json : Json} (h : outline.ShownIn json) :
    IsWellFormed json ↔ outline.WellFormed := by
  constructor
  · rintro ⟨outline', hshown, hwellFormed⟩
    rwa [Outline.shownIn_unique h hshown]
  · exact fun hwellFormed => ⟨outline, h, hwellFormed⟩

/-- A well-formed value can be minified, and the result is well formed exactly if the outline
closes. -/
theorem minify_closed {outline : Outline} {json : Json} (shown : outline.ShownIn json)
    (wellFormed : outline.WellFormed) (inclusion : Inclusion) :
    ∃ result, minify inclusion json = .ok result ∧
      (IsWellFormed result ↔ outline.Closes inclusion) := by
  refine ⟨_, minify_of_shownIn inclusion shown, ?_⟩
  rw [isWellFormed_iff (Outline.minified_shownIn_toJson inclusion outline)]
  exact wellFormed.minified_iff

section Heroes

open Outline

/-- Heroes with names, found by their ids. -/
def heroes : Outline where
  types := [
    { kind := "OBJECT", name := "Query"
      fields := [⟨.string "hero", .named ⟨"INTERFACE", "Hero"⟩ (by decide),
        [⟨.string "id", .named ⟨"SCALAR", "ID"⟩ (by decide)⟩]⟩] },
    { kind := "INTERFACE", name := "Hero"
      fields := [⟨.string "name", .around .nonNull (.named ⟨"SCALAR", "String"⟩ (by decide)), []⟩]
      possible := [⟨"OBJECT", "Human"⟩] },
    { kind := "OBJECT", name := "Human"
      fields := [⟨.string "name", .around .nonNull (.named ⟨"SCALAR", "String"⟩ (by decide)), []⟩]
      interfaces := [⟨"INTERFACE", "Hero"⟩] },
    { kind := "SCALAR", name := "ID" },
    { kind := "SCALAR", name := "String" }]
  query := some "Query"

theorem heroes_shownIn_toJson : heroes.ShownIn heroes.toJson := by
  refine shownIn_toJson fun type htype => ?_
  simp only [heroes, List.mem_cons, List.not_mem_nil, or_false] at htype
  obtain rfl | rfl | rfl | rfl | rfl := htype <;> rfl

theorem minify_closed_heroes :
    heroes.ShownIn heroes.toJson ∧ heroes.WellFormed ∧
      ∃ result, minify {} heroes.toJson = .ok result ∧ IsWellFormed result := by
  have hwellFormed : heroes.WellFormed := by decide
  obtain ⟨result, hresult, hiff⟩ := minify_closed heroes_shownIn_toJson hwellFormed {}
  refine ⟨heroes_shownIn_toJson, hwellFormed, result, hresult, hiff.2 ?_⟩
  constructor
  all_goals decide +kernel

/-- When scalars are included, the names of the heroes have a type that is not listed. -/
theorem not_minify_closed :
    IsWellFormed heroes.toJson ∧ ∃ result, minify { scalars := true } heroes.toJson = .ok result ∧
      ¬ IsWellFormed result := by
  refine ⟨⟨heroes, heroes_shownIn_toJson, by decide⟩, _,
    minify_of_shownIn _ heroes_shownIn_toJson, ?_⟩
  rw [isWellFormed_iff (minified_shownIn_toJson _ heroes)]
  decide +kernel

end Heroes

end PersistedQueries.Introspection
