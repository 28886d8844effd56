import Mathlib
import PersistedQueries.Persist.Basic
import PersistedQueries.Proofs.Canonical.Reordering
import PersistedQueries.Proofs.Canonical.StableSort

/-!
# Equivalent documents have one canonical text

Reordering a document does not change its canonical text. Arguments, directives and variables are
sorted to the very same lists. Selections are not: two selections may tie, and then their order
shows where they came from. But they tie only when their keys and their printed texts are equal,
so the *looks* of a sorted selection set (its keys and texts, `look`) are the same list, and the
look of a selection is all that sorting and printing the set above it can see.

- `SelectionsReordered.map_look_sortSelections`: reordered selection sets have sorted forms that
  look the same, by induction on the depth of the reordering.
- `DefinitionReordered.definitionLook_eq`, `Reordered.canonicalText_eq`: the same for definitions
  and documents.
- `canonicalize_eq_of_equivalent`: texts of equivalent documents have one canonical text.
-/

namespace PersistedQueries.GraphQL

/-! ## Arguments, directives and variables

Their sorted lists are equal, not only alike. -/

/-- The key of a name tells names apart. -/
theorem nodup_nameKey {α : Type} {nameOf : α → String} {items : List α}
    (h : (items.map nameOf).Nodup) : (items.map fun item => [(nameOf item).toList]).Nodup := by
  have hinjective : Function.Injective fun name : String => [name.toList] := fun a b hab =>
    String.toList_inj.1 (List.head_eq_of_cons_eq hab)
  simpa only [List.map_map, Function.comp_def] using h.map hinjective

theorem ArgumentsReordered.sortArguments_eq {given given' : List Argument}
    (h : ArgumentsReordered given given') : sortArguments given = sortArguments given' :=
  sortOn_eq_of_perm h.perm (nodup_nameKey h.distinct)

/-- Sorting the arguments of each directive commutes with sorting the directives. -/
theorem sortDirectives_eq (notes : List Directive) :
    sortDirectives notes = sortOn (fun note => [note.name.toList])
      (notes.map fun note => { note with arguments := sortArguments note.arguments }) :=
  (sortOn_map (fun note : Directive => [note.name.toList]) _ notes).symm

theorem DirectivesReordered.sortDirectives_eq {notes notes' : List Directive}
    (h : DirectivesReordered notes notes') : sortDirectives notes = sortDirectives notes' := by
  cases h with
  | order _ kept =>
    -- a stable sort sees, for each name, the directives of that name in their order
    refine congrArg (List.map _) (sortOn_congr fun note => ?_)
    have hkey : ∀ other : Directive,
        ([other.name.toList] = [note.name.toList]) = (other.name = note.name) := by
      simp [String.toList_inj]
    simpa only [sameKey, hkey] using kept note.name
  | arguments front back name h =>
    rw [GraphQL.sortDirectives_eq, GraphQL.sortDirectives_eq]
    simp only [List.map_append, List.map_cons, h.sortArguments_eq]

/-- The variables of an operation in canonical order. -/
def sortParameters (parameters : List VariableDefinition) : List VariableDefinition :=
  (sortOn (fun v => [v.name.toList]) parameters).map fun v =>
    { v with directives := sortDirectives v.directives }

theorem ParametersReordered.sortParameters_eq {parameters parameters' : List VariableDefinition}
    (h : ParametersReordered parameters parameters') :
    sortParameters parameters = sortParameters parameters' := by
  cases h with
  | order perm distinct =>
    exact congrArg (List.map _) (sortOn_eq_of_perm perm (nodup_nameKey distinct))
  | directives front back parameter h =>
    have hsort : ∀ parameters, sortParameters parameters =
        sortOn (fun v : VariableDefinition => [v.name.toList])
          (parameters.map fun v => { v with directives := sortDirectives v.directives }) :=
      fun parameters =>
        (sortOn_map (fun v : VariableDefinition => [v.name.toList]) _ parameters).symm
    rw [hsort, hsort]
    simp only [List.map_append, List.map_cons, h.sortDirectives_eq]

/-! ## What a selection looks like -/

/-- The key and the text of a selection, which is all that the set above it can see. -/
def look (selection : Selection) : List Text × Text :=
  (selectionKey selection, printSelection selection)

/-- The order of selections, as one of looks. -/
def lookPrecedes (a b : List Text × Text) : Bool :=
  if a.1 = b.1 then !decide (b.2 < a.2) else decide (a.1 < b.1)

theorem lookPrecedes_iff {a b : List Text × Text} :
    lookPrecedes a b = true ↔ a.1 < b.1 ∨ a.1 = b.1 ∧ ¬ b.2 < a.2 := by
  unfold lookPrecedes
  split
  · next h => simp [h]
  · next h => simp [h]

theorem lookPrecedes_trans (a b c : List Text × Text) (hab : lookPrecedes a b = true)
    (hbc : lookPrecedes b c = true) : lookPrecedes a c = true := by
  rw [lookPrecedes_iff, not_lt] at *
  rcases hab with hab | ⟨hab, htext⟩ <;> rcases hbc with hbc | ⟨hbc, htext'⟩
  · exact .inl (hab.trans hbc)
  · exact .inl (hbc ▸ hab)
  · exact .inl (hab ▸ hbc)
  · exact .inr ⟨hab.trans hbc, htext.trans htext'⟩

theorem lookPrecedes_total (a b : List Text × Text) :
    (lookPrecedes a b || lookPrecedes b a) = true := by
  rw [Bool.or_eq_true, lookPrecedes_iff, lookPrecedes_iff, not_lt, not_lt]
  rcases lt_trichotomy a.1 b.1 with h | h | h
  · exact .inl (.inl h)
  · exact (le_total a.2 b.2).imp (fun ht => .inr ⟨h, ht⟩) fun ht => .inr ⟨h.symm, ht⟩
  · exact .inr (.inl h)

/-- Only equal looks tie. -/
theorem eq_of_lookPrecedes {a b : List Text × Text} (hab : lookPrecedes a b = true)
    (hba : lookPrecedes b a = true) : a = b := by
  rw [lookPrecedes_iff, not_lt] at *
  rcases hab with hab | ⟨hkey, htext⟩ <;> rcases hba with hba | ⟨hkey', htext'⟩
  · exact absurd hba hab.asymm
  · exact absurd hab (hkey' ▸ lt_irrefl _)
  · exact absurd hba (hkey ▸ lt_irrefl _)
  · exact Prod.ext hkey (le_antisymm htext htext')

/-- The looks of ordered selections hang on the looks of the selections. -/
theorem map_look_orderSelections (keepOrder : Bool) (selections : List Selection) :
    (orderSelections keepOrder selections).map look =
      if keepOrder then selections.map look else (selections.map look).mergeSort lookPrecedes := by
  unfold orderSelections
  split
  · rfl
  · exact List.map_mergeSort (f := look) fun _ _ _ _ => rfl

/-- Looks in any order have one sort. -/
theorem mergeSort_lookPrecedes_of_perm {looks looks' : List (List Text × Text)}
    (h : looks.Perm looks') : looks.mergeSort lookPrecedes = looks'.mergeSort lookPrecedes := by
  refine List.Perm.eq_of_pairwise (fun a b _ _ => eq_of_lookPrecedes)
    (List.pairwise_mergeSort lookPrecedes_trans lookPrecedes_total looks)
    (List.pairwise_mergeSort lookPrecedes_trans lookPrecedes_total looks') ?_
  exact (List.mergeSort_perm looks _).trans (h.trans (List.mergeSort_perm looks' _).symm)

/-! ## Selections -/

theorem printSelections_eq_map (selections : List Selection) :
    printSelections selections = (selections.map look).map Prod.snd := by
  induction selections with
  | nil => rfl
  | cons selection rest ih => rw [printSelections, ih]; rfl

theorem sortEach_eq_map (keepOrder : Bool) (selections : List Selection) :
    sortEach keepOrder selections = selections.map (sortSelection keepOrder) := by
  induction selections with
  | nil => rfl
  | cons selection rest ih => rw [sortEach, ih, List.map_cons]

/-- A selection set is printed as it looks. -/
theorem printSelectionSet_congr {below below' : List Selection}
    (h : below.map look = below'.map look) :
    printSelectionSet below = printSelectionSet below' := by
  unfold printSelectionSet
  rw [printSelections_eq_map, printSelections_eq_map, h]

theorem look_field_congr {below below' : List Selection} (h : below.map look = below'.map look)
    (label : Option String) (name : String) (given : List Argument) (notes : List Directive) :
    look (.field label name given notes below) = look (.field label name given notes below') := by
  have hprint := printSelectionSet_congr h
  unfold printSelectionSet at hprint
  simp only [look, selectionKey, printSelection, hprint]

theorem look_inline_congr {below below' : List Selection} (h : below.map look = below'.map look)
    (condition : Option String) (notes : List Directive) :
    look (.inline condition notes below) = look (.inline condition notes below') := by
  have hprint := printSelectionSet_congr h
  unfold printSelectionSet at hprint
  simp only [look, selectionKey, printSelection, printSelectionSet, hprint]

theorem NodeReordered.sortSelection_eq {selection selection' : Selection}
    (h : NodeReordered selection selection') (keepOrder : Bool) :
    sortSelection keepOrder selection = sortSelection keepOrder selection' := by
  cases h with
  | arguments h => simp only [sortSelection, h.sortArguments_eq]
  | field h | spread h | inline h => simp only [sortSelection, h.sortDirectives_eq]

/-- A selection set whose selections look the same, one by one, looks the same when it is in
canonical order. -/
theorem map_look_sortSelections_congr {keepOrder : Bool} {selections selections' : List Selection}
    (h : selections.map (look ∘ sortSelection keepOrder) =
      selections'.map (look ∘ sortSelection keepOrder)) :
    (sortSelections keepOrder selections).map look =
      (sortSelections keepOrder selections').map look := by
  unfold sortSelections
  rw [map_look_orderSelections, map_look_orderSelections, sortEach_eq_map, sortEach_eq_map,
    List.map_map, List.map_map, h]

/-- Reordered selection sets look the same in canonical order. -/
theorem SelectionsReordered.map_look_sortSelections {keepOrder : Bool}
    {selections selections' : List Selection}
    (h : SelectionsReordered keepOrder selections selections') :
    (sortSelections keepOrder selections).map look =
      (sortSelections keepOrder selections').map look := by
  induction h with
  | order free perm =>
    -- selections that tie look the same, so the sorted looks do not show the order
    unfold sortSelections
    rw [map_look_orderSelections, map_look_orderSelections, sortEach_eq_map, sortEach_eq_map, free,
      if_neg Bool.false_ne_true, if_neg Bool.false_ne_true]
    exact mergeSort_lookPrecedes_of_perm ((perm.map _).map look)
  | node front back h =>
    refine map_look_sortSelections_congr ?_
    simp only [List.map_append, List.map_cons, Function.comp_apply, h.sortSelection_eq]
  | field front back label name given notes h ih =>
    refine map_look_sortSelections_congr ?_
    simp only [List.map_append, List.map_cons, Function.comp_apply, sortSelection]
    -- the key of a field holds the text of the sorted set below it
    unfold sortSelections at ih
    rw [look_field_congr ih]
  | inline front back condition notes h ih =>
    refine map_look_sortSelections_congr ?_
    simp only [List.map_append, List.map_cons, Function.comp_apply, sortSelection]
    unfold sortSelections at ih
    rw [look_inline_congr ih]

/-! ## Definitions and documents -/

/-- The key and the text of a definition. -/
def definitionLook (definition : Definition) : List Text × Text :=
  (definitionKey definition, printWithKeyword definition)

theorem definitionLook_congr {definition definition' : Definition}
    (hkind : definition.isOperation = definition'.isOperation)
    (hname : definition.name? = definition'.name?)
    (hprint : printDefinition definition = printDefinition definition') :
    definitionLook definition = definitionLook definition' := by
  simp only [definitionLook, definitionKey, printWithKeyword, hkind, hname, hprint]

/-- Reordered definitions look the same in canonical order. -/
theorem DefinitionReordered.definitionLook_eq {definition definition' : Definition}
    (h : DefinitionReordered definition definition') :
    definitionLook (sortDefinition definition) = definitionLook (sortDefinition definition') := by
  cases h with
  | parameters h =>
    have hsort := h.sortParameters_eq
    unfold sortParameters at hsort
    simp only [sortDefinition, hsort]
  | operationDirectives h => simp only [sortDefinition, h.sortDirectives_eq]
  | operationSelections h =>
    have hprint := printSelectionSet_congr h.map_look_sortSelections
    exact definitionLook_congr rfl rfl (congrArg (_ ++ ·) hprint)
  | fragmentDirectives h => simp only [sortDefinition, h.sortDirectives_eq]
  | fragmentSelections h =>
    have hprint := printSelectionSet_congr h.map_look_sortSelections
    exact definitionLook_congr rfl rfl (congrArg (_ ++ ·) hprint)

@[simp] theorem definitionKey_sortDefinition (definition : Definition) :
    definitionKey (sortDefinition definition) = definitionKey definition := by
  cases definition <;> rfl

/-- No name and the empty name have one text. -/
theorem elim_toList (name : Option String) :
    name.elim [] String.toList = (name.getD "").toList := by
  cases name <;> rfl

/-- Operations have other keys than fragments, so distinct names within each kind make the keys
distinct. -/
theorem nodup_definitionKey {document : Document}
    (executable : ∀ definition ∈ document, definition.IsExecutable)
    (operations : (document.filterMap Definition.operationName?).Nodup)
    (fragments : (document.filterMap Definition.fragmentName?).Nodup) :
    (document.map definitionKey).Nodup := by
  induction document with
  | nil => exact List.nodup_nil
  | cons definition rest ih =>
    have hrest := fun other hother => executable other (List.mem_cons_of_mem definition hother)
    rw [List.map_cons, List.nodup_cons]
    cases definition with
    | system system => exact absurd (executable _ List.mem_cons_self) id
    | operation op =>
      obtain ⟨hnew, hop⟩ := List.nodup_cons.1 operations
      refine ⟨fun hkey => hnew ?_, ih hrest hop fragments⟩
      obtain ⟨other, hother, heq⟩ := List.mem_map.1 hkey
      refine List.mem_filterMap.2 ⟨other, hother, ?_⟩
      cases other with
      | system system => exact absurd (hrest _ hother) id
      | fragment frag => simp [definitionKey, Definition.isOperation] at heq
      | operation op' =>
        have hname : (op'.name.getD "").toList = (op.name.getD "").toList := by
          simpa [definitionKey, Definition.isOperation, Definition.name?, elim_toList] using heq
        exact congrArg some (String.toList_inj.1 hname)
    | fragment frag =>
      obtain ⟨hnew, hfrag⟩ := List.nodup_cons.1 fragments
      refine ⟨fun hkey => hnew ?_, ih hrest operations hfrag⟩
      obtain ⟨other, hother, heq⟩ := List.mem_map.1 hkey
      refine List.mem_filterMap.2 ⟨other, hother, ?_⟩
      cases other with
      | system system => exact absurd (hrest _ hother) id
      | operation op => simp [definitionKey, Definition.isOperation] at heq
      | fragment frag' =>
        have hname : frag'.name.toList = frag.name.toList := by
          simpa [definitionKey, Definition.isOperation, Definition.name?] using heq
        exact congrArg some (String.toList_inj.1 hname)

/-- The looks of a document in canonical order are sorted by the keys. -/
theorem map_definitionLook_sortDocument (document : Document) :
    (sortDocument document).map definitionLook =
      sortOn Prod.fst (document.map (definitionLook ∘ sortDefinition)) := by
  have hmap := sortOn_map (Prod.fst : List Text × Text → List Text) definitionLook
    (document.map sortDefinition)
  rw [List.map_map] at hmap
  exact hmap.symm

/-- A document is printed as it looks. -/
theorem canonicalText_congr {document document' : Document}
    (h : document.map definitionLook = document'.map definitionLook) :
    canonicalText document = canonicalText document' := by
  have hprint : ∀ document : Document,
      document.map printWithKeyword = (document.map definitionLook).map Prod.snd := by
    intro document
    rw [List.map_map]
    rfl
  unfold canonicalText
  rw [hprint, hprint, h]

/-- A reordering keeps the canonical text. -/
theorem Reordered.canonicalText_eq {document document' : Document}
    (h : Reordered document document') :
    canonicalText (sortDocument document) = canonicalText (sortDocument document') := by
  cases h with
  | order perm executable operations fragments =>
    have hkeys : ((document.map sortDefinition).map definitionKey).Nodup := by
      have := nodup_definitionKey executable operations fragments
      simpa only [List.map_map, Function.comp_def, definitionKey_sortDefinition] using this
    exact congrArg canonicalText (sortOn_eq_of_perm (perm.map sortDefinition) hkeys)
  | definition front back h =>
    refine canonicalText_congr ?_
    rw [map_definitionLook_sortDocument, map_definitionLook_sortDocument]
    simp only [List.map_append, List.map_cons, Function.comp_apply, h.definitionLook_eq]

/-- Equivalent documents have one canonical text. -/
theorem Equivalent.canonicalText_eq {document document' : Document}
    (h : Equivalent document document') :
    canonicalText (sortDocument document) = canonicalText (sortDocument document') := by
  induction h with
  | refl => rfl
  | tail _ hstep ih => exact ih.trans hstep.canonicalText_eq

/-- The canonical text of a text that is a document. -/
theorem canonicalize_of_parse {text : Text} {document : Document} (h : parse text = .ok document)
    (withTypenames : Bool) :
    canonicalize text withTypenames = .ok (canonicalText (sortDocument
      (if withTypenames then addTypename document else document))) := by
  unfold canonicalize
  rw [h]
  rfl

/-- **Confluence.** Texts that are equivalent documents have one canonical text, with and without
the names of types, and so one persisted query: one text under one digest. -/
theorem canonicalize_eq_of_equivalent {text text' : Text} {document document' : Document}
    (hparse : parse text = .ok document) (hparse' : parse text' = .ok document')
    (h : Equivalent document document') (withTypenames : Bool) :
    ∃ canonical, canonicalize text withTypenames = .ok canonical ∧
      canonicalize text' withTypenames = .ok canonical ∧
      (canonicalize text withTypenames).map digest =
        (canonicalize text' withTypenames).map digest := by
  have heq : canonicalize text withTypenames = canonicalize text' withTypenames := by
    rw [canonicalize_of_parse hparse, canonicalize_of_parse hparse']
    cases withTypenames with
    | false => exact congrArg Except.ok h.canonicalText_eq
    | true => exact congrArg Except.ok h.addTypename.canonicalText_eq
  exact ⟨_, canonicalize_of_parse hparse withTypenames,
    heq.symm.trans (canonicalize_of_parse hparse withTypenames), congrArg (Except.map digest) heq⟩

set_option maxRecDepth 4000 in
/-- Two orders of one document: of the arguments and the selections of a field, and of a query and
its fragment. -/
theorem canonicalize_two_orders : ∃ document document',
    parse "{f(y:1,x:2){v...F}}fragment F on T{z}".toList = .ok document ∧
    parse "fragment F on T{z}{f(x:2,y:1){...F v}}".toList = .ok document' ∧
    Equivalent document document' ∧
    ∃ canonical,
      canonicalize "{f(y:1,x:2){v...F}}fragment F on T{z}".toList true = .ok canonical ∧
      canonicalize "fragment F on T{z}{f(x:2,y:1){...F v}}".toList true = .ok canonical ∧
      (canonicalize "{f(y:1,x:2){v...F}}fragment F on T{z}".toList true).map digest =
        (canonicalize "fragment F on T{z}{f(x:2,y:1){...F v}}".toList true).map digest := by
  have hparse : parse "{f(y:1,x:2){v...F}}fragment F on T{z}".toList = .ok
      [.operation ⟨none, .query, none, [], [],
        [.field none "f" [⟨"y", .int "1"⟩, ⟨"x", .int "2"⟩] []
          [.field none "v" [] [] [], .spread "F" []]]⟩,
       .fragment ⟨none, "F", "T", [], [.field none "z" [] [] []]⟩] := by
    cbv
  have hparse' : parse "fragment F on T{z}{f(x:2,y:1){...F v}}".toList = .ok
      [.fragment ⟨none, "F", "T", [], [.field none "z" [] [] []]⟩,
       .operation ⟨none, .query, none, [], [],
        [.field none "f" [⟨"x", .int "2"⟩, ⟨"y", .int "1"⟩] []
          [.spread "F" [], .field none "v" [] [] []]]⟩] := by
    cbv
  have harguments : ArgumentsReordered [⟨"y", .int "1"⟩, ⟨"x", .int "2"⟩]
      [⟨"x", .int "2"⟩, ⟨"y", .int "1"⟩] := ⟨.swap .., by decide⟩
  have hbelow : SelectionsReordered false [.field none "v" [] [] [], .spread "F" []]
      [.spread "F" [], .field none "v" [] [] []] := .order rfl (.swap ..)
  suffices h : Equivalent _ _ from
    ⟨_, _, hparse, hparse', h, canonicalize_eq_of_equivalent hparse hparse' h true⟩
  refine .head (.definition [] _ (.operationSelections (.node [] [] (.arguments harguments)))) ?_
  refine .head (.definition [] _ (.operationSelections (.field [] [] none "f" _ [] hbelow))) ?_
  refine .single (.order (.swap ..) ?_ (by decide) (by decide))
  rintro _ (_ | ⟨_, _ | ⟨_, ⟨⟩⟩⟩) <;> trivial

end PersistedQueries.GraphQL
