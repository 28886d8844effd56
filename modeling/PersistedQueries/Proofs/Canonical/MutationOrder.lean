import PersistedQueries.Proofs.Canonical.Confluence

/-!
# The root fields of a mutation

The root fields of a mutation run one after the other, in the order in which its root selection set
comes to them when each spread is replaced by the selections of its fragment. Canonical order keeps
the selections of a mutation in their order, but not those of a fragment, whoever spreads it.

- `RootField`: a field as it is called, with its arguments and directives in canonical order in
  `RootField.canonical`.
- `Expands`: the root fields that selections come to. `Expands.unique`: they come to one sequence.
- `Complete`, `SelfContained`: every spread has a fragment, and none comes back to itself.
- `Expands.sorted`: sorting any selections rearranges the root fields.
- `KeepsOrder`: what stands in a mutation itself keeps its order and its place among the spreads;
  the root fields of one spread stay together, in an order of their own.
- `mutation_rootFields`: this is what happens to the root fields of a mutation in canonical order.
- `not_mutation_order`: a spread can change the order in which the root fields run.
-/

namespace PersistedQueries.GraphQL

variable {document : Document} {selections rest : List Selection}

/-! ## Root fields -/

/-- A field as it is called. -/
structure RootField where
  /-- The name that it answers to, if it is another one. -/
  label : Option String
  /-- The name. -/
  name : String
  /-- What it is called with. -/
  arguments : List Argument
  /-- The annotations. -/
  directives : List Directive

/-- A field with its arguments and directives in canonical order. -/
def RootField.canonical (root : RootField) : RootField :=
  { root with
    arguments := sortArguments root.arguments
    directives := sortDirectives root.directives }

@[simp] theorem sortArguments_sortArguments (given : List Argument) :
    sortArguments (sortArguments given) = sortArguments given :=
  sortOn_sortOn _ given

@[simp] theorem sortDirectives_sortDirectives (notes : List Directive) :
    sortDirectives (sortDirectives notes) = sortDirectives notes := by
  have harguments : (sortDirectives notes).map (fun note : Directive =>
      { note with arguments := sortArguments note.arguments }) = sortDirectives notes := by
    unfold sortDirectives
    rw [List.map_map]
    refine List.map_congr_left fun note _ => ?_
    simp only [Function.comp_apply, sortArguments_sortArguments]
  rw [sortDirectives_eq (sortDirectives notes), harguments, sortDirectives_eq notes, sortOn_sortOn]

/-! ## Fragments by their names -/

/-- The definition as a fragment of a name. -/
def fragmentNamed? (name : String) : Definition → Option Fragment
  | .fragment fragment => if fragment.name = name then some fragment else none
  | _ => none

/-- The first fragment of a name. -/
def Document.fragment? (document : Document) (name : String) : Option Fragment :=
  (document.filterMap (fragmentNamed? name)).head?

/-- A fragment in canonical order. -/
def sortFragment (fragment : Fragment) : Fragment :=
  { fragment with
    directives := sortDirectives fragment.directives
    selections := sortSelections false fragment.selections }

theorem fragmentNamed?_sortDefinition (name : String) (definition : Definition) :
    fragmentNamed? name (sortDefinition definition) =
      (fragmentNamed? name definition).map sortFragment := by
  cases definition with
  | operation operation => rfl
  | system definition => rfl
  | fragment fragment =>
    simp only [sortDefinition, fragmentNamed?]
    split <;> rfl

/-- Fragments of one name have one key. -/
theorem definitionKey_of_fragmentNamed? {name : String} {definition : Definition}
    (h : fragmentNamed? name definition ≠ none) :
    definitionKey definition = [['1'], name.toList] := by
  cases definition with
  | operation operation => exact absurd rfl h
  | system definition => exact absurd rfl h
  | fragment fragment =>
    have hname : fragment.name = name := by
      by_contra hne
      exact h (if_neg hne)
    rw [← hname]
    rfl

/-- Canonical order keeps the first fragment of a name. -/
theorem fragment?_sortDocument (document : Document) (name : String) :
    Document.fragment? (sortDocument document) name =
      (document.fragment? name).map sortFragment := by
  unfold Document.fragment? sortDocument
  rw [filterMap_sortOn, List.filterMap_map, ← List.head?_map, List.map_filterMap]
  · have hanswer : fragmentNamed? name ∘ sortDefinition =
        Option.map sortFragment ∘ fragmentNamed? name :=
      funext (fragmentNamed?_sortDefinition name)
    rw [hanswer]
    rfl
  · intro a _ b _ ha hb
    rw [definitionKey_of_fragmentNamed? ha, definitionKey_of_fragmentNamed? hb]

/-! ## Expansion -/

/-- The root fields that selections come to, in the order in which they run: a spread stands for the
selections of its fragment, and an inline fragment for its own. -/
inductive Expands (document : Document) : List Selection → List RootField → Prop where
  | nil : Expands document [] []
  | field {label : Option String} {name : String} {given : List Argument} {notes : List Directive}
      {below rest : List Selection} {fields : List RootField}
      (hrest : Expands document rest fields) :
      Expands document (.field label name given notes below :: rest)
        (⟨label, name, given, notes⟩ :: fields)
  | spread {name : String} {notes : List Directive} {fragment : Fragment} {rest : List Selection}
      {inner fields : List RootField} (hfragment : document.fragment? name = some fragment)
      (hinner : Expands document fragment.selections inner) (hrest : Expands document rest fields) :
      Expands document (.spread name notes :: rest) (inner ++ fields)
  | inline {condition : Option String} {notes : List Directive} {below rest : List Selection}
      {inner fields : List RootField} (hinner : Expands document below inner)
      (hrest : Expands document rest fields) :
      Expands document (.inline condition notes below :: rest) (inner ++ fields)

/-- Selections come to one sequence of root fields. -/
theorem Expands.unique {fields fields' : List RootField} (h : Expands document selections fields)
    (h' : Expands document selections fields') : fields = fields' := by
  induction h generalizing fields' with
  | nil => cases h'; rfl
  | field _ ih =>
    cases h' with
    | field hrest => rw [ih hrest]
  | spread hfragment _ _ ihinner ih =>
    cases h' with
    | spread hfragment' hinner hrest =>
      cases hfragment.symm.trans hfragment'
      rw [ihinner hinner, ih hrest]
  | inline _ _ ihinner ih =>
    cases h' with
    | inline hinner hrest => rw [ihinner hinner, ih hrest]

/-- The first selection and the others come to their root fields apart. -/
theorem Expands.uncons {selection : Selection} {fields : List RootField}
    (h : Expands document (selection :: rest) fields) :
    ∃ front back, fields = front ++ back ∧ Expands document [selection] front ∧
      Expands document rest back := by
  cases h with
  | field hrest => exact ⟨[_], _, rfl, .field .nil, hrest⟩
  | spread hfragment hinner hrest =>
    exact ⟨_, _, rfl, by simpa using Expands.spread hfragment hinner .nil, hrest⟩
  | inline hinner hrest => exact ⟨_, _, rfl, by simpa using Expands.inline hinner .nil, hrest⟩

theorem Expands.cons {selection : Selection} {front back : List RootField}
    (hfront : Expands document [selection] front) (hback : Expands document rest back) :
    Expands document (selection :: rest) (front ++ back) := by
  cases hfront with
  | field hnil => cases hnil; exact .field hback
  | spread hfragment hinner hnil =>
    cases hnil
    simpa using Expands.spread hfragment hinner hback
  | inline hinner hnil =>
    cases hnil
    simpa using Expands.inline hinner hback

/-- Rearranged selections come to rearranged root fields. -/
theorem Expands.of_perm {selections' : List Selection} {fields : List RootField}
    (hperm : selections.Perm selections') (h : Expands document selections fields) :
    ∃ fields', Expands document selections' fields' ∧ fields.Perm fields' := by
  induction hperm generalizing fields with
  | nil => exact ⟨fields, h, .rfl⟩
  | cons selection _ ih =>
    obtain ⟨front, back, rfl, hfront, hback⟩ := h.uncons
    obtain ⟨back', hback', hperm⟩ := ih hback
    exact ⟨front ++ back', hfront.cons hback', hperm.append_left front⟩
  | swap first second _ =>
    obtain ⟨front, back, rfl, hfront, hback⟩ := h.uncons
    obtain ⟨middle, back, rfl, hmiddle, hback⟩ := hback.uncons
    refine ⟨middle ++ (front ++ back), hmiddle.cons (hfront.cons hback), ?_⟩
    rw [← List.append_assoc, ← List.append_assoc]
    exact List.perm_append_comm.append_right back
  | trans _ _ ih ih' =>
    obtain ⟨between, hbetween, hperm⟩ := ih h
    obtain ⟨fields', h', hperm'⟩ := ih' hbetween
    exact ⟨fields', h', hperm.trans hperm'⟩

theorem perm_orderSelections (keepOrder : Bool) (selections : List Selection) :
    selections.Perm (orderSelections keepOrder selections) := by
  unfold orderSelections
  split
  · exact .rfl
  · exact (List.mergeSort_perm selections selectionPrecedes).symm

/-! ## Self-contained documents -/

/-- Each spread in the selections, at any depth, has a fragment whose selections are complete. A
derivation is finite, so no fragment comes back to itself. -/
inductive Complete (document : Document) : List Selection → Prop where
  | nil : Complete document []
  | field {label : Option String} {name : String} {given : List Argument} {notes : List Directive}
      {below rest : List Selection} (hbelow : Complete document below)
      (hrest : Complete document rest) :
      Complete document (.field label name given notes below :: rest)
  | spread {name : String} {notes : List Directive} {fragment : Fragment} {rest : List Selection}
      (hfragment : document.fragment? name = some fragment)
      (hinner : Complete document fragment.selections) (hrest : Complete document rest) :
      Complete document (.spread name notes :: rest)
  | inline {condition : Option String} {notes : List Directive} {below rest : List Selection}
      (hbelow : Complete document below) (hrest : Complete document rest) :
      Complete document (.inline condition notes below :: rest)

/-- Complete selections come to root fields. -/
theorem Complete.expands (h : Complete document selections) :
    ∃ fields, Expands document selections fields := by
  induction h with
  | nil => exact ⟨[], .nil⟩
  | field _ _ _ ih =>
    obtain ⟨fields, hfields⟩ := ih
    exact ⟨_, .field hfields⟩
  | spread hfragment _ _ ihinner ih =>
    obtain ⟨inner, hinner⟩ := ihinner
    obtain ⟨fields, hfields⟩ := ih
    exact ⟨_, .spread hfragment hinner hfields⟩
  | inline _ _ ihinner ih =>
    obtain ⟨inner, hinner⟩ := ihinner
    obtain ⟨fields, hfields⟩ := ih
    exact ⟨_, .inline hinner hfields⟩

/-- A document of operations and fragments that has a fragment for each spread, and no fragment
that comes back to itself. -/
def Document.SelfContained (document : Document) : Prop :=
  ∀ definition ∈ document,
    match definition with
    | .operation operation => Complete document operation.selections
    | .fragment fragment => Complete document fragment.selections
    | .system _ => False

/-! ## Sorted selections -/

/-- Canonical order rearranges the root fields that selections come to. -/
theorem Expands.sorted {fields : List RootField} (h : Expands document selections fields)
    (keepOrder : Bool) :
    ∃ fields', Expands (sortDocument document) (sortEach keepOrder selections) fields' ∧
      (fields.map RootField.canonical).Perm (fields'.map RootField.canonical) := by
  -- a fragment is sorted in its own way, so the induction is for both ways at once
  induction h generalizing keepOrder with
  | nil => exact ⟨[], .nil, .rfl⟩
  | field _ ih =>
    obtain ⟨fields', h', hperm⟩ := ih keepOrder
    refine ⟨_, .field h', ?_⟩
    simpa [RootField.canonical] using hperm
  | @spread name _ fragment _ _ _ hfragment _ _ ihinner ih =>
    obtain ⟨sorted, hsorted, hpermSorted⟩ := ihinner false
    obtain ⟨inner', hinner', hpermInner⟩ := hsorted.of_perm (perm_orderSelections false _)
    obtain ⟨fields', h', hperm⟩ := ih keepOrder
    have hfragment' : Document.fragment? (sortDocument document) name =
        some (sortFragment fragment) := by
      rw [fragment?_sortDocument, hfragment, Option.map_some]
    refine ⟨inner' ++ fields', .spread hfragment' hinner' h', ?_⟩
    rw [List.map_append, List.map_append]
    exact (hpermSorted.trans (hpermInner.map _)).append hperm
  | inline _ _ ihinner ih =>
    obtain ⟨sorted, hsorted, hpermSorted⟩ := ihinner keepOrder
    obtain ⟨inner', hinner', hpermInner⟩ := hsorted.of_perm (perm_orderSelections keepOrder _)
    obtain ⟨fields', h', hperm⟩ := ih keepOrder
    refine ⟨inner' ++ fields', .inline hinner' h', ?_⟩
    rw [List.map_append, List.map_append]
    exact (hpermSorted.trans (hpermInner.map _)).append hperm

/-! ## Mutations -/

/-- Two sequences of the root fields of some selections. The fields that stand in the selections
themselves have one place in both; the root fields of one spread may come in two orders. -/
inductive KeepsOrder : List Selection → List RootField → List RootField → Prop where
  | nil : KeepsOrder [] [] []
  | field {label : Option String} {name : String} {given : List Argument} {notes : List Directive}
      {below rest : List Selection} {fields fields' : List RootField}
      (hrest : KeepsOrder rest fields fields') :
      KeepsOrder (.field label name given notes below :: rest)
        (RootField.canonical ⟨label, name, given, notes⟩ :: fields)
        (RootField.canonical ⟨label, name, given, notes⟩ :: fields')
  | spread {name : String} {notes : List Directive} {rest : List Selection}
      {inner inner' fields fields' : List RootField} (hinner : inner.Perm inner')
      (hrest : KeepsOrder rest fields fields') :
      KeepsOrder (.spread name notes :: rest) (inner ++ fields) (inner' ++ fields')
  | inline {condition : Option String} {notes : List Directive} {below rest : List Selection}
      {inner inner' fields fields' : List RootField} (hinner : KeepsOrder below inner inner')
      (hrest : KeepsOrder rest fields fields') :
      KeepsOrder (.inline condition notes below :: rest) (inner ++ fields) (inner' ++ fields')

mutual

/-- No root field of the selection comes from a fragment. -/
def Selection.isDirect : Selection → Bool
  | .field .. => true
  | .spread .. => false
  | .inline _ _ below => areDirect below

/-- No root field of the selections comes from a fragment. -/
def areDirect : List Selection → Bool
  | [] => true
  | selection :: rest => selection.isDirect && areDirect rest

end

/-- Without spreads there is one order. -/
theorem KeepsOrder.eq_of_areDirect {fields fields' : List RootField}
    (h : KeepsOrder selections fields fields') (hdirect : areDirect selections = true) :
    fields = fields' := by
  induction h with
  | nil => rfl
  | field _ ih => rw [ih hdirect]
  | spread _ _ _ => cases hdirect
  | inline _ _ ihinner ih =>
    obtain ⟨hinner, hrest⟩ := Bool.and_eq_true_iff.1 hdirect
    rw [ihinner hinner, ih hrest]

/-- Selections that keep their order keep it up to what their spreads stand for. -/
theorem Expands.keepsOrder {fields : List RootField} (h : Expands document selections fields) :
    ∃ fields', Expands (sortDocument document) (sortEach true selections) fields' ∧
      KeepsOrder selections (fields.map RootField.canonical) (fields'.map RootField.canonical) := by
  induction h with
  | nil => exact ⟨[], .nil, .nil⟩
  | field _ ih =>
    obtain ⟨fields', h', hkeeps⟩ := ih
    refine ⟨_, .field h', ?_⟩
    simpa [RootField.canonical] using KeepsOrder.field hkeeps
  | @spread name notes fragment rest inner fields hfragment hinner _ _ ih =>
    obtain ⟨fields', h', hkeeps⟩ := ih
    -- the spread alone is sorted like any selection
    have halone : Expands document [.spread name notes] (inner ++ []) :=
      .spread hfragment hinner .nil
    obtain ⟨inner', hinner', hperm⟩ := halone.sorted true
    refine ⟨inner' ++ fields', hinner'.cons h', ?_⟩
    rw [List.map_append, List.map_append]
    exact .spread (by simpa using hperm) hkeeps
  | inline _ _ ihinner ih =>
    obtain ⟨inner', hinner', hkeepsInner⟩ := ihinner
    obtain ⟨fields', h', hkeeps⟩ := ih
    refine ⟨inner' ++ fields', .inline hinner' h', ?_⟩
    rw [List.map_append, List.map_append]
    exact .inline hkeepsInner hkeeps

/-- **The order of a mutation.** In a self-contained document, the root fields that stand in a
mutation itself keep their order and their places among its spreads in canonical order. The root
fields that a spread stands for stay at its place, and none is lost, but they may come in another
order. So a mutation without spreads at its root runs as it is written. -/
theorem mutation_rootFields (hself : document.SelfContained) {operation : Operation}
    (hmem : .operation operation ∈ document) (hkind : operation.kind = .mutation) :
    ∃ sorted fields fields', sortDefinition (.operation operation) = .operation sorted ∧
      .operation sorted ∈ sortDocument document ∧
      Expands document operation.selections fields ∧
      Expands (sortDocument document) sorted.selections fields' ∧
      KeepsOrder operation.selections (fields.map RootField.canonical)
        (fields'.map RootField.canonical) ∧
      (areDirect operation.selections = true →
        fields.map RootField.canonical = fields'.map RootField.canonical) := by
  obtain ⟨fields, hfields⟩ := (hself _ hmem : Complete document operation.selections).expands
  obtain ⟨fields', hfields', hkeeps⟩ := hfields.keepsOrder
  refine ⟨_, fields, fields', rfl, ?_, hfields, ?_, hkeeps, hkeeps.eq_of_areDirect⟩
  · exact (perm_sortOn definitionKey _).mem_iff.2 (List.mem_map_of_mem hmem)
  · simpa [sortSelections, orderSelections, hkind] using hfields'

/-- The fields of a fragment. -/
def stepsFragment : Fragment :=
  ⟨none, "S", "M", [], [.field none "b" [] [] [], .field none "a" [] [] []]⟩

/-- A mutation that spreads them. -/
def stepsMutation : Operation := ⟨none, .mutation, none, [], [], [.spread "S" []]⟩

/-- The mutation and its fragment. -/
def stepsDocument : Document := [.operation stepsMutation, .fragment stepsFragment]

theorem selfContained_stepsDocument : stepsDocument.SelfContained := by
  have hfragment : Complete stepsDocument stepsFragment.selections := .field .nil (.field .nil .nil)
  intro definition hdefinition
  rcases List.mem_cons.1 hdefinition with rfl | hdefinition
  · exact @Complete.spread stepsDocument "S" [] stepsFragment [] rfl hfragment .nil
  · obtain rfl := List.mem_singleton.1 hdefinition
    exact hfragment

/-- The root fields of the mutation are those of the fragment in some order. -/
theorem mutation_rootFields_steps :
    stepsDocument.SelfContained ∧ .operation stepsMutation ∈ stepsDocument ∧
      stepsMutation.kind = .mutation ∧
      ∃ sorted fields fields', sortDefinition (.operation stepsMutation) = .operation sorted ∧
        Expands stepsDocument stepsMutation.selections fields ∧
        Expands (sortDocument stepsDocument) sorted.selections fields' ∧
        KeepsOrder stepsMutation.selections (fields.map RootField.canonical)
          (fields'.map RootField.canonical) := by
  have hmem : .operation stepsMutation ∈ stepsDocument := List.mem_cons_self
  obtain ⟨sorted, fields, fields', hsorted, -, hfields, hfields', hkeeps, -⟩ :=
    mutation_rootFields selfContained_stepsDocument hmem rfl
  exact ⟨selfContained_stepsDocument, hmem, rfl, sorted, fields, fields', hsorted, hfields,
    hfields', hkeeps⟩

set_option maxRecDepth 4000 in
theorem parse_stepsDocument :
    parse "mutation{...S}fragment S on M{b a}".toList = .ok stepsDocument := by
  cbv

/-- Not every mutation of a self-contained document runs its root fields in canonical order as it
does in the document: the fields of a fragment are sorted by their names. -/
theorem not_mutation_order :
    ¬ ∀ (text : Text) (document : Document) (operation sorted : Operation)
      (fields fields' : List RootField), parse text = .ok document → document.SelfContained →
      .operation operation ∈ document → operation.kind = .mutation →
      sortDefinition (.operation operation) = .operation sorted →
      Expands document operation.selections fields →
      Expands (sortDocument document) sorted.selections fields' →
      fields.map RootField.canonical = fields'.map RootField.canonical := by
  intro horder
  have hsorted : (sortFragment stepsFragment).selections =
      [.field none "a" [] [] [], .field none "b" [] [] []] := by
    cbv
  have hfragment : Document.fragment? (sortDocument stepsDocument) "S" =
      some (sortFragment stepsFragment) := fragment?_sortDocument stepsDocument "S"
  have hfields : Expands stepsDocument stepsMutation.selections
      [⟨none, "b", [], []⟩, ⟨none, "a", [], []⟩] :=
    @Expands.spread stepsDocument "S" [] stepsFragment [] [_, _] [] rfl (.field (.field .nil)) .nil
  have hfields' : Expands (sortDocument stepsDocument) [.spread "S" (sortDirectives [])]
      [⟨none, "a", [], []⟩, ⟨none, "b", [], []⟩] := by
    refine @Expands.spread _ "S" _ (sortFragment stepsFragment) [] [_, _] [] hfragment ?_ .nil
    rw [hsorted]
    exact .field (.field .nil)
  have heq := horder _ stepsDocument stepsMutation _ _ _ parse_stepsDocument
    selfContained_stepsDocument List.mem_cons_self rfl rfl hfields hfields'
  have hnames := congrArg (List.map RootField.name) heq
  exact absurd hnames (by decide)

end PersistedQueries.GraphQL
