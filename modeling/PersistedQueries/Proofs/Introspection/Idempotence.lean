import PersistedQueries.Proofs.Introspection.Closure

/-!
# Minifying twice

A minified result may be taken for an introspection result itself, so it should be its own minified
form. Most of it plainly is: what is left out the first time is not there the second time, and `Any`
is left out or kept like any other scalar. What is looked up is not so plain. The kind of a possible
type is that of the last type with its name, and a type that is not listed counts as an object type;
the second time some types are not listed any more, and `Any` may be.

- `Outline.trimmed_minified`: nothing has to be left out of a minified outline again but `Any`.
- `Outline.minified_minified`: a minified outline is its own minified form if the possible types are
  found with the same kinds in it.
- `Outline.kindIn_eq_object`: types of a name that only object types have are object types.
- `minify_minify`: if possible types are object types and no type has the name `Any`, minifying a
  minified result changes nothing.
-/

namespace PersistedQueries.Introspection

namespace Outline

section Parts

variable (inclusion : Inclusion)

theorem any_minified : any.minified inclusion = any := ite_self _

theorem Named.minified_minified (type : Named) :
    (type.minified inclusion).minified inclusion = type.minified inclusion := by
  by_cases hout : type.IsLeftOut inclusion
  · have hany : type.minified inclusion = any := if_pos hout
    rw [hany, any_minified]
  · have hsame : type.minified inclusion = type := if_neg hout
    rw [hsame, hsame]

theorem Reference.minified_minified (reference : Reference) :
    (reference.minified inclusion).minified inclusion = reference.minified inclusion := by
  induction reference with
  | named type plain =>
    simp only [Reference.minified, Named.minified_minified]
  | around wrapper inner ih => exact congrArg (around wrapper) ih

theorem map_map_of_idempotent {α : Type} {f : α → α} (h : ∀ a, f (f a) = f a) (items : List α) :
    (items.map f).map f = items.map f := by
  rw [List.map_map]
  exact List.map_congr_left fun a _ => h a

theorem Input.minified_minified (input : Input) :
    (input.minified inclusion).minified inclusion = input.minified inclusion :=
  congrArg (Input.mk input.name) (Reference.minified_minified inclusion input.type)

theorem Field.minified_minified (field : Field) :
    (field.minified inclusion).minified inclusion = field.minified inclusion :=
  congrArg₂ (Field.mk field.name) (Reference.minified_minified inclusion field.type)
    (map_map_of_idempotent (Input.minified_minified inclusion) field.arguments)

theorem Directive.minified_minified (directive : Directive) :
    (directive.minified inclusion).minified inclusion = directive.minified inclusion :=
  congrArg (Directive.mk directive.name)
    (map_map_of_idempotent (Input.minified_minified inclusion) directive.arguments)

/-- A minified type is its own minified form if the types that it stands for are found with the same
kinds again. -/
theorem NamedType.minified_minified {types types' : List NamedType} {type : NamedType}
    (h : ∀ possible ∈ type.possible,
      kindIn types' possible.name = kindIn types possible.name) :
    (type.minified inclusion types).minified inclusion types' = type.minified inclusion types := by
  have hpossible : (type.possible.map (·.asListed types)).map (·.asListed types') =
      type.possible.map (·.asListed types) := by
    rw [List.map_map]
    refine List.map_congr_left fun possible hmem => ?_
    show { possible with kind := kindIn types' possible.name } = _
    rw [h possible hmem]
    rfl
  unfold NamedType.minified
  dsimp only
  rw [map_map_of_idempotent (Field.minified_minified inclusion), hpossible,
    map_map_of_idempotent (Input.minified_minified inclusion),
    @map_map_of_idempotent _ Named.asInterface fun _ => rfl]

end Parts

/-! ## Minified outlines -/

section Outlines

variable (inclusion : Inclusion) (outline : Outline)

theorem filter_added : (added inclusion).filter (·.IsKept inclusion) = [] := by
  unfold added
  cases hscalars : inclusion.scalars with
  | true => rfl
  | false =>
    have hany : ¬ any.IsKept inclusion := by
      rw [any_isKept_iff, hscalars]
      exact Bool.false_ne_true
    exact List.filter_cons_of_neg (mt of_decide_eq_true hany)

/-- Nothing is left out of a minified outline again but the scalar that was added. -/
theorem trimmed_minified : (outline.minified inclusion).trimmed inclusion =
    { outline.minified inclusion with
      types := (outline.trimmed inclusion).types.map (·.minified inclusion outline.types) } := by
  have hkept : ∀ type ∈ (outline.trimmed inclusion).types.map (·.minified inclusion outline.types),
      type.IsKept inclusion ∧ type.trimmed = type := by
    intro type htype
    obtain ⟨_, htrimmed, rfl⟩ := List.mem_map.1 htype
    obtain ⟨own, hown, rfl⟩ := List.mem_map.1 htrimmed
    exact ⟨of_decide_eq_true (List.mem_filter.1 hown).2, NamedType.trimmed_minified ..⟩
  have htypes : (((outline.minified inclusion).types.filter (·.IsKept inclusion)).map
      NamedType.trimmed) =
        (outline.trimmed inclusion).types.map (·.minified inclusion outline.types) := by
    unfold minified
    rw [List.filter_append, filter_added, List.append_nil,
      List.filter_eq_self.2 fun type htype => decide_eq_true (hkept type htype).1]
    exact (List.map_congr_left fun type htype => (hkept type htype).2).trans (List.map_id _)
  have hdirectives :
      (if inclusion.directives then (outline.minified inclusion).directives else []) =
        (outline.minified inclusion).directives := by
    unfold minified trimmed
    cases inclusion.directives <;> rfl
  rw [trimmed, htypes, hdirectives]

/-- A minified outline is its own minified form if the types that others stand for are found with
the same kinds in it. -/
theorem minified_minified (h : ∀ type ∈ (outline.trimmed inclusion).possible,
    kindIn (outline.minified inclusion).types type.name = kindIn outline.types type.name) :
    (outline.minified inclusion).minified inclusion = outline.minified inclusion := by
  have htypes : ((outline.trimmed inclusion).types.map (·.minified inclusion outline.types)).map
      (·.minified inclusion (outline.minified inclusion).types) =
        (outline.trimmed inclusion).types.map (·.minified inclusion outline.types) := by
    rw [List.map_map]
    refine List.map_congr_left fun type htype => ?_
    exact NamedType.minified_minified inclusion fun possible hpossible =>
      h possible (List.mem_flatMap.2 ⟨type, htype, hpossible⟩)
  have hdirectives : (outline.minified inclusion).directives.map (·.minified inclusion) =
      (outline.minified inclusion).directives :=
    map_map_of_idempotent (Directive.minified_minified inclusion) _
  rw [minified, trimmed_minified, htypes, hdirectives]
  rfl

end Outlines

/-- Types of a name that only object types have are object types, listed or not. -/
theorem kindIn_eq_object {types : List NamedType} {name : String}
    (h : ∀ type ∈ types, type.name = name → type.kind = "OBJECT") :
    kindIn types name = "OBJECT" := by
  unfold kindIn
  cases hfind : types.reverse.find? (·.name = name) with
  | none => rfl
  | some found =>
    have hmem : found ∈ types := List.mem_reverse.1 (List.mem_of_find?_eq_some hfind)
    exact h found hmem (by simpa using List.find?_some hfind)

end Outline

/-! ## Minified results -/

section Minify

open Outline

/-- **Minifying twice is minifying once.** Let the types have different names, none of them `Any`,
and let every possible type be an object type. Then the result can be minified, whatever is
included, and its minified form is its own minified form. -/
theorem minify_minify {outline : Outline} {json : Json} (shown : outline.ShownIn json)
    (names : (outline.listed.map (·.name)).Nodup)
    (notAny : ∀ type ∈ outline.listed, type.name ≠ any.name)
    (objects : ∀ type ∈ outline.possible,
      ∃ object ∈ outline.listed, object.name = type.name ∧ object.kind = "OBJECT")
    (inclusion : Inclusion) :
    ∃ result, minify inclusion json = .ok result ∧ minify inclusion result = .ok result := by
  refine ⟨_, minify_of_shownIn inclusion shown, ?_⟩
  rw [minify_of_shownIn inclusion (minified_shownIn_toJson inclusion outline)]
  refine congrArg (fun outline => Except.ok (Outline.toJson outline))
    (minified_minified inclusion outline fun type htype => ?_)
  obtain ⟨object, hobject, hname, hkind⟩ :=
    objects type (possible_trimmed_subset inclusion outline htype)
  -- every type of the name is the object type, before and after
  have hlisted : ∀ other ∈ outline.listed, other.name = type.name → other.kind = "OBJECT" := by
    intro other hother hsame
    have heq : other = object :=
      List.inj_on_of_nodup_map names hother hobject (hsame.trans hname.symm)
    rw [heq, hkind]
  have hminified : ∀ other ∈ (outline.minified inclusion).listed, other.name = type.name →
      other.kind = "OBJECT" := by
    intro other hother hsame
    obtain ⟨hother, -⟩ | ⟨-, rfl⟩ := (mem_listed_minified inclusion outline).1 hother
    · exact hlisted other hother hsame
    · exact absurd (hname.trans hsame.symm) (notAny object hobject)
  have hbefore : kindIn outline.types type.name = "OBJECT" :=
    kindIn_eq_object fun other hother => hlisted _ (List.mem_map_of_mem hother)
  have hafter : kindIn (outline.minified inclusion).types type.name = "OBJECT" :=
    kindIn_eq_object fun other hother => hminified _ (List.mem_map_of_mem hother)
  rw [hafter, hbefore]

/-- Users found by a filter, or the types of the schema. -/
def search : Outline where
  types := [
    { kind := "OBJECT", name := "Query"
      fields := [⟨.string "search", .around .list (.named ⟨"UNION", "Found"⟩ (by decide)),
        [⟨.string "filter", .named ⟨"INPUT_OBJECT", "Filter"⟩ (by decide)⟩]⟩] },
    { kind := "UNION", name := "Found", possible := [⟨"OBJECT", "User"⟩, ⟨"OBJECT", "__Type"⟩] },
    { kind := "OBJECT", name := "User"
      fields := [⟨.string "role", .named ⟨"ENUM", "Role"⟩ (by decide), []⟩] },
    { kind := "OBJECT", name := "__Type" },
    { kind := "ENUM", name := "Role", values := [.string "ADMIN", .string "MEMBER"] },
    { kind := "INPUT_OBJECT", name := "Filter"
      inputs := [⟨.string "since", .named ⟨"SCALAR", "Date"⟩ (by decide)⟩] },
    { kind := "SCALAR", name := "Date" }]
  query := some "Query"
  directives := [⟨.string "visible", [⟨.string "to", .named ⟨"ENUM", "Role"⟩ (by decide)⟩]⟩]

/-- The union is minified twice although one of its types is not listed any more. -/
theorem minify_minify_search :
    search.ShownIn search.toJson ∧ (search.listed.map (·.name)).Nodup ∧
    (∀ type ∈ search.listed, type.name ≠ any.name) ∧
    (∀ type ∈ search.possible,
      ∃ object ∈ search.listed, object.name = type.name ∧ object.kind = "OBJECT") ∧
    ∃ result, minify { enums := true, directives := true } search.toJson = .ok result ∧
      minify { enums := true, directives := true } result = .ok result := by
  have hshown : search.ShownIn search.toJson := by
    refine shownIn_toJson fun type htype => ?_
    simp only [search, List.mem_cons, List.not_mem_nil, or_false] at htype
    obtain rfl | rfl | rfl | rfl | rfl | rfl | rfl := htype <;> rfl
  have hnames : (search.listed.map (·.name)).Nodup := by decide
  have hany : ∀ type ∈ search.listed, type.name ≠ any.name := by decide
  have hobjects : ∀ type ∈ search.possible,
      ∃ object ∈ search.listed, object.name = type.name ∧ object.kind = "OBJECT" := by decide
  exact ⟨hshown, hnames, hany, hobjects, minify_minify hshown hnames hany hobjects _⟩

end Minify

end PersistedQueries.Introspection
