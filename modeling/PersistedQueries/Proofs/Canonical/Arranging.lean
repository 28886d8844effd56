import PersistedQueries.Proofs.Canonical.MutationOrder

/-!
# Sorting loses nothing

Canonical order takes a document apart and puts it together again at every level: definitions,
variables, selection sets, directives and arguments are lists of their own, and each is the task of
another function. What comes out is the document that went in, with its lists in another order.

- `ByName`: the items of a list in the order of a name. `byName_sortOn`: sorting gives this order.
- `EachByName`: the same after a change of each item, for items that have lists of their own.
- `Selection.Arranged`, `Definition.Arranged`: a node with its lists in another order, and all else
  as it was.
- `arranged_sortSelection`, `arranged_sortDefinition`: so are the nodes that are sorted, one case for
  each kind of node.
- `sortDocument_arranges`: what sorting does to a document.
-/

namespace PersistedQueries.GraphQL

/-! ## Lists in the order of names -/

/-- The items of a list in ascending order of their names. Items of one name stay in their order. -/
structure ByName {α : Type} (nameOf : α → String) (items items' : List α) : Prop where
  perm : items.Perm items'
  ascending : items'.Pairwise fun a b => nameOf a ≤ nameOf b
  stable : ∀ name, items'.filter (nameOf · = name) = items.filter (nameOf · = name)

theorem nameKey_lt_iff {a b : String} : ([a.toList] : List Text) < [b.toList] ↔ a < b := by
  rw [List.cons_lt_cons_iff]
  exact or_iff_left fun h => List.not_lt_nil _ h.2

theorem nameKey_inj {a b : String} : ([a.toList] : List Text) = [b.toList] ↔ a = b := by
  rw [List.cons.injEq, String.toList_inj, and_iff_left rfl]

/-- Items that are alike stay in their order when those that are alike have one key. -/
theorem filter_sortOn {α : Type} {key : α → List Text} {p : α → Bool} (items : List α)
    (h : ∀ a b, p a = true → p b = true → key a = key b) :
    (sortOn key items).filter p = items.filter p := by
  rw [← List.filterMap_eq_filter]
  refine filterMap_sortOn fun a _ b _ ha hb => h a b ?_ ?_
  · by_contra hnot
    exact ha (by simp [Option.guard, hnot])
  · by_contra hnot
    exact hb (by simp [Option.guard, hnot])

/-- Sorting by a name gives the order of the names. -/
theorem byName_sortOn {α : Type} (nameOf : α → String) (items : List α) :
    ByName nameOf items (sortOn (fun item => [(nameOf item).toList]) items) := by
  refine ⟨(perm_sortOn _ items).symm, (pairwise_sortOn _ items).imp fun {a b} h => ?_, fun name => ?_⟩
  · rw [byKey_iff, nameKey_lt_iff] at h
    exact String.not_lt.1 h
  · refine filter_sortOn items fun a b ha hb => nameKey_inj.2 ?_
    exact (of_decide_eq_true ha).trans (of_decide_eq_true hb).symm

/-- Each item of a list changed, and the changed items in ascending order of their names. -/
def EachByName {α : Type} (Changed : α → α → Prop) (nameOf : α → String) (items items' : List α) :
    Prop :=
  ∃ changed, List.Forall₂ Changed items changed ∧ ByName nameOf changed items'

theorem forall₂_map {α : Type} {Changed : α → α → Prop} {change : α → α} (items : List α)
    (h : ∀ item, Changed item (change item)) : List.Forall₂ Changed items (items.map change) := by
  rw [List.forall₂_map_right_iff]
  exact List.forall₂_same.2 fun item _ => h item

/-! ## Directives and variables -/

/-- A directive with its arguments in the order of their names. -/
structure Directive.Arranged (note note' : Directive) : Prop where
  name : note'.name = note.name
  arguments : ByName Argument.name note.arguments note'.arguments

/-- Directives in the order of their names, and the arguments of each. -/
def DirectivesArranged : List Directive → List Directive → Prop :=
  EachByName Directive.Arranged Directive.name

theorem arranged_sortDirectives (notes : List Directive) :
    DirectivesArranged notes (sortDirectives notes) := by
  rw [sortDirectives_eq]
  refine ⟨_, forall₂_map notes fun note => ?_, byName_sortOn Directive.name _⟩
  exact ⟨rfl, byName_sortOn Argument.name note.arguments⟩

/-- A variable with its directives arranged. -/
inductive VariableDefinition.Arranged : VariableDefinition → VariableDefinition → Prop where
  | intro {v : VariableDefinition} {notes : List Directive}
      (directives : DirectivesArranged v.directives notes) :
      Arranged v { v with directives := notes }

/-- Variables in the order of their names, and the directives of each. -/
def ParametersArranged : List VariableDefinition → List VariableDefinition → Prop :=
  EachByName VariableDefinition.Arranged VariableDefinition.name

theorem arranged_sortParameters (parameters : List VariableDefinition) :
    ParametersArranged parameters (sortParameters parameters) := by
  have hmap : sortParameters parameters = sortOn (fun v : VariableDefinition => [v.name.toList])
      (parameters.map fun v => { v with directives := sortDirectives v.directives }) :=
    (sortOn_map (fun v : VariableDefinition => [v.name.toList]) _ parameters).symm
  rw [hmap]
  exact ⟨_, forall₂_map parameters fun v => .intro (arranged_sortDirectives v.directives),
    byName_sortOn VariableDefinition.name _⟩

/-! ## Selections -/

mutual

/-- A selection whose arguments and directives are arranged, and whose selection set is, here and at
every depth. -/
inductive Selection.Arranged (keepOrder : Bool) : Selection → Selection → Prop where
  | field {label : Option String} {name : String} {given given' : List Argument}
      {notes notes' : List Directive} {below below' : List Selection}
      (arguments : ByName Argument.name given given') (directives : DirectivesArranged notes notes')
      (selections : SelectionsArranged keepOrder below below') :
      Selection.Arranged keepOrder (.field label name given notes below)
        (.field label name given' notes' below')
  | spread {name : String} {notes notes' : List Directive}
      (directives : DirectivesArranged notes notes') :
      Selection.Arranged keepOrder (.spread name notes) (.spread name notes')
  | inline {condition : Option String} {notes notes' : List Directive}
      {below below' : List Selection} (directives : DirectivesArranged notes notes')
      (selections : SelectionsArranged keepOrder below below') :
      Selection.Arranged keepOrder (.inline condition notes below) (.inline condition notes' below')

/-- The selections of a set, each of them arranged, in any order. Where the order is kept, they stand in
the order that they had. -/
inductive SelectionsArranged (keepOrder : Bool) : List Selection → List Selection → Prop where
  | intro {selections changed selections' : List Selection}
      (each : List.Forall₂ (Selection.Arranged keepOrder) selections changed)
      (perm : changed.Perm selections') (kept : keepOrder = true → selections' = changed) :
      SelectionsArranged keepOrder selections selections'

end

theorem arranged_orderSelections {keepOrder : Bool} {selections : List Selection}
    (h : List.Forall₂ (Selection.Arranged keepOrder) selections (sortEach keepOrder selections)) :
    SelectionsArranged keepOrder selections
      (orderSelections keepOrder (sortEach keepOrder selections)) := by
  refine .intro h (perm_orderSelections keepOrder _) ?_
  rintro rfl
  rfl

mutual

theorem arranged_sortSelection (keepOrder : Bool) : (selection : Selection) →
    Selection.Arranged keepOrder selection (sortSelection keepOrder selection)
  | .field label name given notes below => by
    rw [sortSelection]
    exact .field (byName_sortOn Argument.name given) (arranged_sortDirectives notes)
      (arranged_orderSelections (arranged_sortEach keepOrder below))
  | .spread name notes => by
    rw [sortSelection]
    exact .spread (arranged_sortDirectives notes)
  | .inline condition notes below => by
    rw [sortSelection]
    exact .inline (arranged_sortDirectives notes)
      (arranged_orderSelections (arranged_sortEach keepOrder below))

theorem arranged_sortEach (keepOrder : Bool) : (selections : List Selection) →
    List.Forall₂ (Selection.Arranged keepOrder) selections (sortEach keepOrder selections)
  | [] => by
    rw [sortEach]
    exact .nil
  | selection :: rest => by
    rw [sortEach]
    exact .cons (arranged_sortSelection keepOrder selection) (arranged_sortEach keepOrder rest)

end

theorem arranged_sortSelections (keepOrder : Bool) (selections : List Selection) :
    SelectionsArranged keepOrder selections
      (sortSelections keepOrder selections) :=
  arranged_orderSelections (arranged_sortEach keepOrder selections)

/-! ## Definitions and documents -/

/-- A definition with its lists arranged. The selection sets of a mutation keep their order, at every
depth; a definition of a schema stays as it is. -/
inductive Definition.Arranged : Definition → Definition → Prop where
  | operation {op : Operation} {parameters' : List VariableDefinition} {notes' : List Directive}
      {selections' : List Selection} (parameters : ParametersArranged op.parameters parameters')
      (directives : DirectivesArranged op.directives notes')
      (selections : SelectionsArranged (op.kind = .mutation) op.selections selections') :
      Arranged (.operation op) (.operation { op with
        parameters := parameters'
        directives := notes'
        selections := selections' })
  | fragment {frag : Fragment} {notes' : List Directive} {selections' : List Selection}
      (directives : DirectivesArranged frag.directives notes')
      (selections : SelectionsArranged false frag.selections selections') :
      Arranged (.fragment frag)
        (.fragment { frag with directives := notes', selections := selections' })
  | system (definition : SystemDefinition) : Arranged (.system definition) (.system definition)

theorem arranged_sortDefinition (d : Definition) : d.Arranged (sortDefinition d) := by
  cases d with
  | operation op =>
    exact .operation (arranged_sortParameters op.parameters) (arranged_sortDirectives op.directives)
      (arranged_sortSelections _ op.selections)
  | fragment frag =>
    exact .fragment (arranged_sortDirectives frag.directives)
      (arranged_sortSelections false frag.selections)
  | system definition => exact .system definition

/-- The name by which a definition is ordered; one without a name has the empty text. -/
def Definition.orderName (d : Definition) : String := d.name?.getD ""

/-- A document with its definitions arranged: operations stand in front of all others, and both are in
ascending order of their names, those of one name in the order in which they came. -/
structure Document.Arranged (document document' : Document) (definitions : List Definition) : Prop where
  each : List.Forall₂ Definition.Arranged document definitions
  perm : definitions.Perm document'
  operations_first : document'.Pairwise fun a b => b.isOperation = true → a.isOperation = true
  by_name : ∀ kind, ByName Definition.orderName (definitions.filter (·.isOperation = kind))
    (document'.filter (·.isOperation = kind))

/-- Operations have the lesser keys, and among operations as among other definitions the name decides. -/
theorem definitionKey_lt_iff {a b : Definition} : definitionKey a < definitionKey b ↔
    (a.isOperation = true ∧ b.isOperation = false) ∨
      (a.isOperation = b.isOperation ∧ a.orderName < b.orderName) := by
  have hless : ['0'] < ['1'] := by decide
  have hnot : ¬ ['1'] < ['0'] := by decide
  unfold definitionKey
  rw [elim_toList, elim_toList, List.cons_lt_cons_iff, nameKey_lt_iff]
  cases a.isOperation <;> cases b.isOperation <;> simp [Definition.orderName, hless, hnot]

theorem definitionKey_inj {a b : Definition} : definitionKey a = definitionKey b ↔
    a.isOperation = b.isOperation ∧ a.orderName = b.orderName := by
  unfold definitionKey
  rw [elim_toList, elim_toList, List.cons.injEq, nameKey_inj]
  cases a.isOperation <;> cases b.isOperation <;> simp [Definition.orderName]

/-- **Sorting.** What comes out of sorting is the document that went in, with the definitions, the
variables, the directives and their arguments in the order of their names, and the selection sets in
another order; all else is as it was, here and at every depth. The selection sets of a mutation are in
the order that they had. -/
theorem sortDocument_arranges (document : Document) :
    ∃ definitions, Document.Arranged document (sortDocument document) definitions := by
  have hperm := perm_sortOn definitionKey (document.map sortDefinition)
  have hascending := pairwise_sortOn definitionKey (document.map sortDefinition)
  refine ⟨document.map sortDefinition, forall₂_map document arranged_sortDefinition, hperm.symm, ?_,
    fun kind => ⟨(hperm.filter _).symm, ?_, fun name => ?_⟩⟩
  · refine hascending.imp fun {a b} h hb => ?_
    rw [byKey_iff, definitionKey_lt_iff] at h
    by_contra ha
    exact h (.inl ⟨hb, Bool.eq_false_iff.2 ha⟩)
  · refine (hascending.filter _).imp_of_mem fun {a b} ha hb h => ?_
    have ha : a.isOperation = kind := by simpa using (List.mem_filter.1 ha).2
    have hb : b.isOperation = kind := by simpa using (List.mem_filter.1 hb).2
    rw [byKey_iff, definitionKey_lt_iff] at h
    exact String.not_lt.1 fun hlt => h (.inr ⟨hb.trans ha.symm, hlt⟩)
  · rw [List.filter_filter, List.filter_filter]
    refine filter_sortOn _ fun a b ha hb => definitionKey_inj.2 ?_
    simp only [Bool.and_eq_true, decide_eq_true_eq] at ha hb
    exact ⟨ha.2.trans hb.2.symm, ha.1.trans hb.1.symm⟩

end PersistedQueries.GraphQL
