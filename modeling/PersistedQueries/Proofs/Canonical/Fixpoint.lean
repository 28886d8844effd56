import PersistedQueries.Proofs.Canonical.MutationOrder
import PersistedQueries.Proofs.Syntax.System

/-!
# What is canonical stays as it is

Sorting a sorted document changes nothing, and neither does giving the names of their types to
selection sets that have them. Sorting takes no such name away, so a canonical document comes out of
a second pass unchanged.

- `sortSelection_sortSelection`, `sortDefinition_sortDefinition`, `sortDocument_sortDocument`:
  sorting twice is sorting once.
- `IsTyped`: a document whose selection sets have the names of their types, as far as they get them.
- `isTyped_addTypename`, `IsTyped.sortDocument`: such a document comes out of `addTypename`, and is
  left when it is sorted.
-/

namespace PersistedQueries.GraphQL

/-! ## Sorting -/

theorem selectionPrecedes_trans (a b c : Selection) (hab : selectionPrecedes a b = true)
    (hbc : selectionPrecedes b c = true) : selectionPrecedes a c = true :=
  lookPrecedes_trans (look a) (look b) (look c) hab hbc

theorem selectionPrecedes_total (a b : Selection) :
    (selectionPrecedes a b || selectionPrecedes b a) = true :=
  lookPrecedes_total (look a) (look b)

theorem orderSelections_orderSelections (keepOrder : Bool) (selections : List Selection) :
    orderSelections keepOrder (orderSelections keepOrder selections) =
      orderSelections keepOrder selections := by
  cases keepOrder with
  | true => rfl
  | false =>
    exact List.mergeSort_of_pairwise
      (List.pairwise_mergeSort selectionPrecedes_trans selectionPrecedes_total selections)

theorem mem_orderSelections {keepOrder : Bool} {selections : List Selection}
    {selection : Selection} :
    selection ∈ orderSelections keepOrder selections ↔ selection ∈ selections :=
  (perm_orderSelections keepOrder selections).mem_iff.symm

/-- What selections are sorted to is sorted when each of them is. -/
theorem sortSelections_of_fixed {keepOrder : Bool} {selections : List Selection}
    (h : ∀ selection ∈ selections, sortSelection keepOrder (sortSelection keepOrder selection) =
      sortSelection keepOrder selection) :
    sortSelections keepOrder (sortSelections keepOrder selections) =
      sortSelections keepOrder selections := by
  have hfixed : ∀ selection ∈ sortSelections keepOrder selections,
      sortSelection keepOrder selection = selection := by
    intro selection hselection
    rw [sortSelections, mem_orderSelections, sortEach_eq_map] at hselection
    obtain ⟨selection, hmem, rfl⟩ := List.mem_map.1 hselection
    exact h selection hmem
  have heach : sortEach keepOrder (sortSelections keepOrder selections) =
      sortSelections keepOrder selections := by
    rw [sortEach_eq_map, map_eq_self.2 hfixed]
  calc sortSelections keepOrder (sortSelections keepOrder selections)
    _ = orderSelections keepOrder (sortSelections keepOrder selections) :=
        congrArg (orderSelections keepOrder) heach
    _ = sortSelections keepOrder selections := orderSelections_orderSelections keepOrder _

mutual

theorem sortSelection_sortSelection (keepOrder : Bool) : (selection : Selection) →
    sortSelection keepOrder (sortSelection keepOrder selection) = sortSelection keepOrder selection
  | .field label name given notes below => by
    have hbelow := sortSelections_of_fixed (sortEach_sortEach keepOrder below)
    unfold sortSelections at hbelow
    simp only [sortSelection, sortArguments_sortArguments, sortDirectives_sortDirectives, hbelow]
  | .spread name notes => by
    simp only [sortSelection, sortDirectives_sortDirectives]
  | .inline condition notes below => by
    have hbelow := sortSelections_of_fixed (sortEach_sortEach keepOrder below)
    unfold sortSelections at hbelow
    simp only [sortSelection, sortDirectives_sortDirectives, hbelow]

theorem sortEach_sortEach (keepOrder : Bool) : (selections : List Selection) →
    ∀ selection ∈ selections, sortSelection keepOrder (sortSelection keepOrder selection) =
      sortSelection keepOrder selection
  | [] => by simp
  | selection :: rest => List.forall_mem_cons.2
      ⟨sortSelection_sortSelection keepOrder selection, sortEach_sortEach keepOrder rest⟩

end

theorem sortSelections_sortSelections (keepOrder : Bool) (selections : List Selection) :
    sortSelections keepOrder (sortSelections keepOrder selections) =
      sortSelections keepOrder selections :=
  sortSelections_of_fixed (sortEach_sortEach keepOrder selections)

/-- A variable with its directives in canonical order. -/
def VariableDefinition.sorted (v : VariableDefinition) : VariableDefinition :=
  { v with directives := sortDirectives v.directives }

theorem sortParameters_sortParameters (parameters : List VariableDefinition) :
    sortParameters (sortParameters parameters) = sortParameters parameters := by
  have hsorted : ∀ v : VariableDefinition, v.sorted.sorted = v.sorted := by
    intro v
    simp [VariableDefinition.sorted]
  have hmap : ∀ parameters : List VariableDefinition, sortParameters parameters =
      sortOn (fun v => [v.name.toList]) (parameters.map VariableDefinition.sorted) := fun parameters =>
    (sortOn_map (fun v : VariableDefinition => [v.name.toList]) VariableDefinition.sorted
      parameters).symm
  have hfixed : (sortParameters parameters).map VariableDefinition.sorted =
      sortParameters parameters := by
    refine map_eq_self.2 fun v hv => ?_
    obtain ⟨v, -, rfl⟩ := List.mem_map.1 hv
    exact hsorted v
  calc sortParameters (sortParameters parameters)
    _ = sortOn (fun v => [v.name.toList]) (sortParameters parameters) := by rw [hmap, hfixed]
    _ = sortParameters parameters := by rw [hmap, sortOn_sortOn]

theorem sortDefinition_sortDefinition (d : Definition) :
    sortDefinition (sortDefinition d) = sortDefinition d := by
  cases d with
  | operation op =>
    have hparameters := sortParameters_sortParameters op.parameters
    unfold sortParameters at hparameters
    simp only [sortDefinition, hparameters, sortDirectives_sortDirectives,
      sortSelections_sortSelections]
  | fragment frag =>
    simp only [sortDefinition, sortDirectives_sortDirectives, sortSelections_sortSelections]
  | system definition => rfl

theorem mem_sortDocument {document : Document} {d : Definition} :
    d ∈ sortDocument document ↔ ∃ d' ∈ document, sortDefinition d' = d := by
  rw [sortDocument, (perm_sortOn _ _).mem_iff, List.mem_map]

/-- A document in canonical order stays as it is. -/
theorem sortDocument_sortDocument (document : Document) :
    sortDocument (sortDocument document) = sortDocument document := by
  have hfixed : (sortDocument document).map sortDefinition = sortDocument document := by
    refine map_eq_self.2 fun d hd => ?_
    obtain ⟨d, -, rfl⟩ := mem_sortDocument.1 hd
    exact sortDefinition_sortDefinition d
  calc sortDocument (sortDocument document)
    _ = sortOn definitionKey (sortDocument document) := congrArg (sortOn definitionKey) hfixed
    _ = sortDocument document := sortOn_sortOn _ _

/-! ## Type names -/

/-- The selection sets below a selection have the names of their types, as far as they get them. -/
def Selection.IsTyped (selection : Selection) : Prop := addTypenameTo selection = selection

/-- The selections have the name of their type, or some other field of introspection. -/
def HasTypename (selections : List Selection) : Prop :=
  selections.any Selection.isReservedField = true

theorem withTypename_eq_self {selections : List Selection} :
    withTypename selections = selections ↔ HasTypename selections := by
  unfold withTypename HasTypename
  split
  · next h => simpa using h
  · next h => simpa using h

theorem hasTypename_withTypename (selections : List Selection) :
    HasTypename (withTypename selections) := by
  unfold withTypename
  split
  · next h => exact h
  · have hreserved : typenameField.isReservedField = true := by decide
    simp [HasTypename, hreserved]

/-- What selections and the name of a type have, selections with the name of their type have. -/
theorem forall_mem_withTypename {P : Selection → Prop} {selections : List Selection}
    (hname : P typenameField) (h : ∀ selection ∈ selections, P selection) :
    ∀ selection ∈ withTypename selections, P selection := by
  unfold withTypename
  split
  · exact h
  · exact List.forall_mem_append.2 ⟨h, List.forall_mem_singleton.2 hname⟩

theorem addTypenameToEach_eq_self {selections : List Selection} :
    addTypenameToEach selections = selections ↔ ∀ selection ∈ selections, selection.IsTyped := by
  rw [addTypenameToEach_eq_map]
  exact map_eq_self

/-- A selection set that stays as it is has the name of its type, and so have those below it. -/
theorem withTypename_addTypenameToEach {selections : List Selection} :
    withTypename (addTypenameToEach selections) = selections ↔
      HasTypename selections ∧ ∀ selection ∈ selections, selection.IsTyped := by
  constructor
  · intro h
    have hsame : addTypenameToEach selections = selections := by
      unfold withTypename at h
      split at h
      · exact h
      · have hlength := congrArg List.length h
        simp [addTypenameToEach_eq_map] at hlength
    rw [hsame] at h
    exact ⟨withTypename_eq_self.1 h, addTypenameToEach_eq_self.1 hsame⟩
  · rintro ⟨htypename, htyped⟩
    rw [addTypenameToEach_eq_self.2 htyped, withTypename_eq_self.2 htypename]

theorem isTyped_field {label : Option String} {name : String} {given : List Argument}
    {notes : List Directive} {below : List Selection} :
    (Selection.field label name given notes below).IsTyped ↔
      ((below.isEmpty || isExempt name notes) = false → HasTypename below) ∧
        ∀ selection ∈ below, selection.IsTyped := by
  rw [Selection.IsTyped, addTypenameTo]
  simp only [Selection.field.injEq, true_and]
  cases below.isEmpty || isExempt name notes with
  | true => simpa using addTypenameToEach_eq_self
  | false => simpa using withTypename_addTypenameToEach

theorem isTyped_inline {condition : Option String} {notes : List Directive}
    {below : List Selection} : (Selection.inline condition notes below).IsTyped ↔
      HasTypename below ∧ ∀ selection ∈ below, selection.IsTyped := by
  rw [Selection.IsTyped, addTypenameTo]
  simpa using withTypename_addTypenameToEach

theorem isTyped_typenameField : typenameField.IsTyped := rfl

mutual

/-- A selection is typed when it got the names of types. -/
theorem isTyped_addTypenameTo : (selection : Selection) → (addTypenameTo selection).IsTyped
  | .field label name given notes below => by
    have heach := isTyped_addTypenameToEach below
    rw [addTypenameTo]
    refine isTyped_field.2 ?_
    cases hexempt : below.isEmpty || isExempt name notes with
    | true =>
      refine ⟨fun hnot => ?_, by simpa using heach⟩
      simp [addTypenameToEach_eq_map, hexempt] at hnot
    | false =>
      have hnot : (false = true) = False := by simp
      simp only [hnot, if_false]
      exact ⟨fun _ => hasTypename_withTypename _,
        forall_mem_withTypename isTyped_typenameField heach⟩
  | .spread name notes => rfl
  | .inline condition notes below => by
    rw [addTypenameTo]
    exact isTyped_inline.2
      ⟨hasTypename_withTypename _,
        forall_mem_withTypename isTyped_typenameField (isTyped_addTypenameToEach below)⟩

theorem isTyped_addTypenameToEach : (selections : List Selection) →
    ∀ selection ∈ addTypenameToEach selections, selection.IsTyped
  | [] => by simp [addTypenameToEach]
  | selection :: rest => List.forall_mem_cons.2
      ⟨isTyped_addTypenameTo selection, isTyped_addTypenameToEach rest⟩

end

/-! ## Sorting leaves the names of types where they are -/

@[simp] theorem isReservedField_sortSelection (keepOrder : Bool) (selection : Selection) :
    (sortSelection keepOrder selection).isReservedField = selection.isReservedField := by
  cases selection <;> rfl

theorem HasTypename.sortSelections {selections : List Selection} (h : HasTypename selections)
    (keepOrder : Bool) : HasTypename (sortSelections keepOrder selections) := by
  obtain ⟨selection, hmem, hreserved⟩ := List.any_eq_true.1 h
  refine List.any_eq_true.2 ⟨sortSelection keepOrder selection, ?_, by simpa using hreserved⟩
  rw [GraphQL.sortSelections, mem_orderSelections, sortEach_eq_map]
  exact List.mem_map_of_mem hmem

theorem isExempt_sortDirectives (name : String) (notes : List Directive) :
    isExempt name (sortDirectives notes) = isExempt name notes := by
  have hany : (sortDirectives notes).any (·.name = "export") = notes.any (·.name = "export") := by
    unfold sortDirectives
    rw [List.any_map]
    exact (perm_sortOn _ notes).any_eq
  rw [isExempt, isExempt, hany]

theorem isEmpty_sortSelections (keepOrder : Bool) (selections : List Selection) :
    (sortSelections keepOrder selections).isEmpty = selections.isEmpty := by
  rw [sortSelections, ← (perm_orderSelections keepOrder _).isEmpty_eq, sortEach_eq_map,
    List.isEmpty_map]

theorem isTyped_sortSelections {keepOrder : Bool} {selections : List Selection}
    (h : ∀ selection ∈ selections, (sortSelection keepOrder selection).IsTyped) :
    ∀ selection ∈ sortSelections keepOrder selections, selection.IsTyped := by
  intro selection hselection
  rw [sortSelections, mem_orderSelections, sortEach_eq_map] at hselection
  obtain ⟨selection, hmem, rfl⟩ := List.mem_map.1 hselection
  exact h selection hmem

mutual

theorem Selection.IsTyped.sortSelection (keepOrder : Bool) : (selection : Selection) →
    selection.IsTyped → (sortSelection keepOrder selection).IsTyped
  | .field label name given notes below, h => by
    obtain ⟨htypename, hbelow⟩ := isTyped_field.1 h
    have heach := isTyped_sortSelections (isTyped_sortEach keepOrder below hbelow)
    refine isTyped_field.2 ⟨fun hexempt => ?_, heach⟩
    rw [isExempt_sortDirectives] at hexempt
    have hempty := isEmpty_sortSelections keepOrder below
    unfold sortSelections at hempty
    rw [hempty] at hexempt
    exact (htypename hexempt).sortSelections keepOrder
  | .spread name notes, _ => rfl
  | .inline condition notes below, h => by
    obtain ⟨htypename, hbelow⟩ := isTyped_inline.1 h
    exact isTyped_inline.2 ⟨htypename.sortSelections keepOrder,
      isTyped_sortSelections (isTyped_sortEach keepOrder below hbelow)⟩

theorem isTyped_sortEach (keepOrder : Bool) : (selections : List Selection) →
    (∀ selection ∈ selections, selection.IsTyped) →
      ∀ selection ∈ selections, (sortSelection keepOrder selection).IsTyped
  | [], _ => by simp
  | selection :: rest, h => by
    obtain ⟨hselection, hrest⟩ := List.forall_mem_cons.1 h
    exact List.forall_mem_cons.2 ⟨hselection.sortSelection keepOrder selection,
      isTyped_sortEach keepOrder rest hrest⟩

end

/-- A document whose selection sets have the names of their types, as far as they get them. -/
def IsTyped (document : Document) : Prop := addTypename document = document

theorem isTyped_iff {document : Document} :
    IsTyped document ↔ ∀ d ∈ document, addTypenameToDefinition d = d := map_eq_self

theorem isTyped_addTypename (document : Document) : IsTyped (addTypename document) := by
  refine isTyped_iff.2 fun d hd => ?_
  obtain ⟨d, -, rfl⟩ := List.mem_map.1 hd
  cases d with
  | operation op =>
    have heach := addTypenameToEach_eq_self.2 (isTyped_addTypenameToEach op.selections)
    simp only [addTypenameToDefinition, heach]
  | fragment frag =>
    have heach := withTypename_addTypenameToEach.2
      ⟨hasTypename_withTypename (addTypenameToEach frag.selections),
        forall_mem_withTypename isTyped_typenameField (isTyped_addTypenameToEach frag.selections)⟩
    simp only [addTypenameToDefinition, heach]
  | system definition => rfl

theorem IsTyped.sortDocument {document : Document} (h : IsTyped document) :
    IsTyped (sortDocument document) := by
  refine isTyped_iff.2 fun d hd => ?_
  obtain ⟨d, hmem, rfl⟩ := mem_sortDocument.1 hd
  have hd := isTyped_iff.1 h d hmem
  cases d with
  | operation op =>
    have hselections : addTypenameToEach op.selections = op.selections :=
      congrArg Operation.selections (Definition.operation.inj hd)
    have heach := addTypenameToEach_eq_self.2 (isTyped_sortSelections
      (isTyped_sortEach (op.kind = .mutation) op.selections
        (addTypenameToEach_eq_self.1 hselections)))
    simp only [sortDefinition, addTypenameToDefinition, heach]
  | fragment frag =>
    have hselections : withTypename (addTypenameToEach frag.selections) = frag.selections :=
      congrArg Fragment.selections (Definition.fragment.inj hd)
    obtain ⟨htypename, hbelow⟩ := withTypename_addTypenameToEach.1 hselections
    have heach := withTypename_addTypenameToEach.2 ⟨htypename.sortSelections false,
      isTyped_sortSelections (isTyped_sortEach false frag.selections hbelow)⟩
    simp only [sortDefinition, addTypenameToDefinition, heach]
  | system definition => rfl

end PersistedQueries.GraphQL
