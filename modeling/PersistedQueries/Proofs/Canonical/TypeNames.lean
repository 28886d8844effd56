import PersistedQueries.Proofs.Canonical.Fixpoint

/-!
# Names of types

A selection set gets the name of its type at its end, unless it has a field of introspection or stands
where it is left alone. What stands above a set decides this for the set only, not for those below it.

- `Place`: what a selection set stands in. `Place.IsNamed`: its selection set gets the name of its type.
- `Selection.HasSet`, `Definition.HasSet`: the selection sets of a node, at every depth.
- `exists_reserved_of_hasSet`: those that get the name of their type have it.
- `Selection.Extends`, `Definition.Extends`: a node with nothing changed but that the names of types
  stand at the end of selection sets that get them and had none.
- `extends_addTypenameTo`, `extends_addTypenameToDefinition`: so are the nodes of a document that gets
  the names of types.
- `addTypename_extends`: the document as a whole, which stays as it is when it gets them again.
-/

namespace PersistedQueries.GraphQL

/-! ## Selection sets and where they stand -/

/-- What a selection set stands in. -/
inductive Place where
  | operation
  | fragment
  | inline
  | field (name : String) (directives : List Directive)

/-- A name that begins with two underscores. -/
def IsReserved (name : String) : Prop := ['_', '_'] <+: name.toList

theorem isReserved_iff {name : String} : isReserved name = true ↔ IsReserved name :=
  List.isPrefixOf_iff_prefix

/-- A selection set at a place gets the name of its type. The root set of an operation does not, and
neither does the set of a field that is one of introspection, or whose result is exported. -/
def Place.IsNamed : Place → Prop
  | .operation => False
  | .fragment => True
  | .inline => True
  | .field name notes => ¬ IsReserved name ∧ ∀ note ∈ notes, note.name ≠ "export"

theorem isNamed_field_iff {name : String} {notes : List Directive} :
    (Place.field name notes).IsNamed ↔ isExempt name notes = false := by
  rw [isExempt, Bool.or_eq_false_iff, Bool.eq_false_iff, Ne, isReserved_iff, List.any_eq_false]
  simp [Place.IsNamed]

/-- A field of introspection is among the selections. -/
def SelectsReserved (selections : List Selection) : Prop :=
  ∃ label name given notes below,
    Selection.field label name given notes below ∈ selections ∧ IsReserved name

theorem hasTypename_iff {selections : List Selection} :
    HasTypename selections ↔ SelectsReserved selections := by
  constructor
  · intro h
    obtain ⟨selection, hmem, hreserved⟩ := List.any_eq_true.1 h
    cases selection with
    | field label name given notes below =>
      exact ⟨label, name, given, notes, below, hmem, isReserved_iff.1 hreserved⟩
    | spread name notes => cases hreserved
    | inline condition notes below => cases hreserved
  · rintro ⟨label, name, given, notes, below, hmem, hreserved⟩
    exact List.any_eq_true.2 ⟨_, hmem, isReserved_iff.2 hreserved⟩

/-- A selection set of a selection, at any depth, with its place. A field may be without one. -/
inductive Selection.HasSet : Selection → Place → List Selection → Prop where
  | field {label : Option String} {name : String} {given : List Argument} {notes : List Directive}
      {below : List Selection} (present : below ≠ []) :
      HasSet (.field label name given notes below) (.field name notes) below
  | inline {condition : Option String} {notes : List Directive} {below : List Selection} :
      HasSet (.inline condition notes below) .inline below
  | belowField {label : Option String} {name : String} {given : List Argument}
      {notes : List Directive} {below set : List Selection} {selection : Selection} {place : Place}
      (mem : selection ∈ below) (has : HasSet selection place set) :
      HasSet (.field label name given notes below) place set
  | belowInline {condition : Option String} {notes : List Directive} {below set : List Selection}
      {selection : Selection} {place : Place} (mem : selection ∈ below)
      (has : HasSet selection place set) : HasSet (.inline condition notes below) place set

/-- A selection set of a definition, at any depth, with its place. -/
inductive Definition.HasSet : Definition → Place → List Selection → Prop where
  | operation (op : Operation) : HasSet (.operation op) .operation op.selections
  | fragment (frag : Fragment) : HasSet (.fragment frag) .fragment frag.selections
  | belowOperation {op : Operation} {selection : Selection} {place : Place} {set : List Selection}
      (mem : selection ∈ op.selections) (has : selection.HasSet place set) :
      HasSet (.operation op) place set
  | belowFragment {frag : Fragment} {selection : Selection} {place : Place} {set : List Selection}
      (mem : selection ∈ frag.selections) (has : selection.HasSet place set) :
      HasSet (.fragment frag) place set

/-- Below a selection that got the names of types, every set that gets one has one. -/
theorem Selection.IsTyped.hasTypename {selection : Selection} {place : Place} {set : List Selection}
    (h : selection.IsTyped) (hset : selection.HasSet place set) (hplace : place.IsNamed) :
    HasTypename set := by
  induction hset with
  | field hsome =>
    refine (isTyped_field.1 h).1 ?_
    rw [Bool.or_eq_false_iff, isNamed_field_iff.1 hplace]
    exact ⟨by simpa using hsome, rfl⟩
  | inline => exact (isTyped_inline.1 h).1
  | belowField hmem _ ih => exact ih ((isTyped_field.1 h).2 _ hmem) hplace
  | belowInline hmem _ ih => exact ih ((isTyped_inline.1 h).2 _ hmem) hplace

/-- In a document that got the names of types, every set that gets one has a field of introspection. -/
theorem exists_reserved_of_hasSet {document : Document} {d : Definition} {place : Place}
    {set : List Selection} (hd : d ∈ addTypename document) (hset : d.HasSet place set)
    (hplace : place.IsNamed) : SelectsReserved set := by
  have htyped : addTypenameToDefinition d = d := isTyped_iff.1 (isTyped_addTypename document) d hd
  rw [← hasTypename_iff]
  cases hset with
  | operation op => exact hplace.elim
  | fragment frag =>
    simp only [addTypenameToDefinition, Definition.fragment.injEq] at htyped
    exact (withTypename_addTypenameToEach.1 (congrArg Fragment.selections htyped)).1
  | @belowOperation op selection _ _ hmem hset =>
    simp only [addTypenameToDefinition, Definition.operation.injEq] at htyped
    have heach := addTypenameToEach_eq_self.1 (congrArg Operation.selections htyped)
    exact (heach selection hmem).hasTypename hset hplace
  | @belowFragment frag selection _ _ hmem hset =>
    simp only [addTypenameToDefinition, Definition.fragment.injEq] at htyped
    have heach := (withTypename_addTypenameToEach.1 (congrArg Fragment.selections htyped)).2
    exact (heach selection hmem).hasTypename hset hplace

/-! ## What is added -/

mutual

/-- A selection with the names of types in its selection sets, and nothing else changed. -/
inductive Selection.Extends : Selection → Selection → Prop where
  | leaf {label : Option String} {name : String} {given : List Argument} {notes : List Directive} :
      Selection.Extends (.field label name given notes []) (.field label name given notes [])
  | field {label : Option String} {name : String} {given : List Argument} {notes : List Directive}
      {below below' : List Selection} (present : below ≠ [])
      (selections : SelectionsExtend (.field name notes) below below') :
      Selection.Extends (.field label name given notes below) (.field label name given notes below')
  | spread {name : String} {notes : List Directive} :
      Selection.Extends (.spread name notes) (.spread name notes)
  | inline {condition : Option String} {notes : List Directive} {below below' : List Selection}
      (selections : SelectionsExtend .inline below below') :
      Selection.Extends (.inline condition notes below) (.inline condition notes below')

/-- A selection set at a place, with the names of types in the selection sets below it. Without the last
selection, the name of its own type, if it got one, it is what it was. -/
inductive SelectionsExtend : Place → List Selection → List Selection → Prop where
  | kept {place : Place} {selections selections' : List Selection}
      (each : List.Forall₂ Selection.Extends selections selections')
      (left : ¬ place.IsNamed ∨ SelectsReserved selections) :
      SelectionsExtend place selections selections'
  | added {place : Place} {selections selections' : List Selection}
      (each : List.Forall₂ Selection.Extends selections selections') (named : place.IsNamed)
      (lacking : ¬ SelectsReserved selections) :
      SelectionsExtend place selections (selections' ++ [.field none "__typename" [] [] []])

end

/-- A definition with the names of types in its selection sets, and nothing else changed. -/
inductive Definition.Extends : Definition → Definition → Prop where
  | operation {op : Operation} {selections' : List Selection}
      (selections : SelectionsExtend .operation op.selections selections') :
      Extends (.operation op) (.operation { op with selections := selections' })
  | fragment {frag : Fragment} {selections' : List Selection}
      (selections : SelectionsExtend .fragment frag.selections selections') :
      Extends (.fragment frag) (.fragment { frag with selections := selections' })
  | system (definition : SystemDefinition) : Extends (.system definition) (.system definition)

theorem hasTypename_addTypenameToEach {selections : List Selection} :
    HasTypename (addTypenameToEach selections) ↔ SelectsReserved selections := by
  have hsame : Selection.isReservedField ∘ addTypenameTo = Selection.isReservedField :=
    funext isReservedField_addTypenameTo
  rw [← hasTypename_iff, HasTypename, HasTypename, addTypenameToEach_eq_map, List.any_map, hsame]

/-- A set that gets the name of its type is extended by it, or has a field of introspection. -/
theorem extend_withTypename {place : Place} {selections : List Selection} (hplace : place.IsNamed)
    (h : List.Forall₂ Selection.Extends selections (addTypenameToEach selections)) :
    SelectionsExtend place selections (withTypename (addTypenameToEach selections)) := by
  by_cases hreserved : SelectsReserved selections
  · rw [withTypename_eq_self.2 (hasTypename_addTypenameToEach.2 hreserved)]
    exact .kept h (.inr hreserved)
  · have hnone : ¬ HasTypename (addTypenameToEach selections) :=
      mt hasTypename_addTypenameToEach.1 hreserved
    unfold HasTypename at hnone
    rw [withTypename, if_neg hnone]
    exact .added h hplace hreserved

mutual

theorem extends_addTypenameTo : (selection : Selection) → selection.Extends (addTypenameTo selection)
  | .field label name given notes below => by
    have heach := extends_addTypenameToEach below
    rw [addTypenameTo]
    by_cases hsome : below = []
    · subst hsome
      exact .leaf
    · have hempty : below.isEmpty = false := by simpa using hsome
      rw [hempty, Bool.false_or]
      refine .field hsome ?_
      by_cases hplace : (Place.field name notes).IsNamed
      · rw [isNamed_field_iff.1 hplace, if_neg Bool.false_ne_true]
        exact extend_withTypename hplace heach
      · have hexempt : isExempt name notes = true := by
          rwa [isNamed_field_iff, Bool.not_eq_false] at hplace
        rw [hexempt, if_pos rfl]
        exact .kept heach (.inl hplace)
  | .spread name notes => .spread
  | .inline condition notes below => by
    rw [addTypenameTo]
    exact .inline (extend_withTypename trivial (extends_addTypenameToEach below))

theorem extends_addTypenameToEach : (selections : List Selection) →
    List.Forall₂ Selection.Extends selections (addTypenameToEach selections)
  | [] => .nil
  | selection :: rest =>
    .cons (extends_addTypenameTo selection) (extends_addTypenameToEach rest)

end

theorem extends_addTypenameToDefinition (d : Definition) : d.Extends (addTypenameToDefinition d) := by
  cases d with
  | operation op => exact .operation (.kept (extends_addTypenameToEach op.selections) (.inl id))
  | fragment frag =>
    exact .fragment (extend_withTypename trivial (extends_addTypenameToEach frag.selections))
  | system definition => exact .system definition

/-- **Names of types.** When a document gets the names of types, every selection set but the root sets
of operations and those of fields that are exempt selects a field of introspection. Nothing else is
changed: without the name of a type at the end of each set that gets one and had no field of
introspection, the document is what it was. And it stays as it is when it gets them again. -/
theorem addTypename_extends (document : Document) :
    (∀ d ∈ addTypename document, ∀ place set, d.HasSet place set → place.IsNamed →
      SelectsReserved set) ∧
    List.Forall₂ Definition.Extends document (addTypename document) ∧
    addTypename (addTypename document) = addTypename document := by
  refine ⟨fun d hd place set hset hplace => exists_reserved_of_hasSet hd hset hplace, ?_,
    isTyped_addTypename document⟩
  rw [addTypename, List.forall₂_map_right_iff]
  exact List.forall₂_same.2 fun d _ => extends_addTypenameToDefinition d

end PersistedQueries.GraphQL
