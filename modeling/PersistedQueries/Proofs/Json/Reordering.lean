import Mathlib.Data.List.Nodup
import PersistedQueries.Proofs.Json.FieldOrder

/-!
# What sorting fields leaves out

Sorted fields are a means to compare values; what the comparison comes to is said here without them.
Two objects are equal up to the order of their fields when they have the same names, with values that
are equal in the same way; the items of arrays keep their order. Sorting makes exactly such values
equal, as long as no object has a name twice.

- `Plain`: a value in which numbers are whole and names are distinct.
- `Reordered`: values that differ in the order of fields at any depth, and in nothing else.
- `perm_sortFields`, `pairwise_sortFields`: sorted fields are the fields, in ascending order.
- `sortFields_eq_of_perm`: so they do not depend on the order.
- `sameFields_iff_reordered`: sorting erases the order of fields, and nothing else.
-/

namespace PersistedQueries.Json

variable {a b : Json} {name : String} {value : Json} {fields fields' : List (String × Json)}

/-! ## Values and their order -/

/-- Every number is whole, and no object has a name twice. -/
inductive Plain : Json → Prop where
  | null : Plain .null
  | bool (value : Bool) : Plain (.bool value)
  | int (value : Int) : Plain (.int value)
  | string (value : String) : Plain (.string value)
  | array {items : List Json} (items_plain : ∀ item ∈ items, Plain item) : Plain (.array items)
  | object {fields : List (String × Json)} (nodup : (fields.map Prod.fst).Nodup)
      (values_plain : ∀ field ∈ fields, Plain field.2) : Plain (.object fields)

attribute [simp] Plain.null Plain.bool Plain.int Plain.string

@[simp] theorem plain_array_iff {items : List Json} :
    Plain (.array items) ↔ ∀ item ∈ items, Plain item := by
  constructor
  · rintro ⟨h⟩
    assumption
  · exact .array

@[simp] theorem plain_object_iff : Plain (.object fields) ↔
    (fields.map Prod.fst).Nodup ∧ ∀ field ∈ fields, Plain field.2 := by
  constructor
  · rintro ⟨h⟩
    exact ⟨‹_›, ‹_›⟩
  · exact fun ⟨hnodup, hvalues⟩ => .object hnodup hvalues

/-- The values are equal up to the order of fields, at any depth: arrays have equally many items, which
are equal in this way one by one, and objects have the same names, with values that are. -/
inductive Reordered : Json → Json → Prop where
  | null : Reordered .null .null
  | bool (value : Bool) : Reordered (.bool value) (.bool value)
  | int (value : Int) : Reordered (.int value) (.int value)
  | real (value : Binary64) : Reordered (.real value) (.real value)
  | string (value : String) : Reordered (.string value) (.string value)
  | array {items items' : List Json} (length_eq : items.length = items'.length)
      (each : ∀ (i : Nat) (item item' : Json), items[i]? = some item → items'[i]? = some item' →
        Reordered item item') :
      Reordered (.array items) (.array items')
  | object {fields fields' : List (String × Json)}
      (names : ∀ name, name ∈ fields.map Prod.fst ↔ name ∈ fields'.map Prod.fst)
      (each : ∀ name value value', (name, value) ∈ fields → (name, value') ∈ fields' →
        Reordered value value') :
      Reordered (.object fields) (.object fields')

/-! ## Sorted fields -/

theorem perm_insertField (name : String) (value : Json) (fields : List (String × Json)) :
    (insertField name value fields).Perm ((name, value) :: fields) := by
  induction fields with
  | nil => exact .refl _
  | cons field fields ih =>
    obtain ⟨key, old⟩ := field
    rw [insertField]
    split
    · exact (ih.cons (key, old)).trans (.swap ..)
    · exact .refl _

/-- A field with a value whose fields are sorted. -/
def sortedField (field : String × Json) : String × Json := (field.1, field.2.sortKeys)

/-- Sorting fields sorts those of their values, and puts all in another order. -/
theorem perm_sortFields (fields : List (String × Json)) :
    (sortFields fields).Perm (fields.map sortedField) := by
  induction fields with
  | nil => exact .refl _
  | cons field fields ih =>
    rw [sortFields]
    exact (perm_insertField ..).trans (ih.cons _)

theorem mem_map_sortedField : (name, value) ∈ fields.map sortedField ↔
    ∃ old, (name, old) ∈ fields ∧ old.sortKeys = value := by
  rw [List.mem_map]
  constructor
  · rintro ⟨⟨key, old⟩, hmem, heq⟩
    cases heq
    exact ⟨old, hmem, rfl⟩
  · rintro ⟨old, hmem, rfl⟩
    exact ⟨(name, old), hmem, rfl⟩

theorem mem_sortFields : (name, value) ∈ sortFields fields ↔
    ∃ old, (name, old) ∈ fields ∧ old.sortKeys = value := by
  rw [(perm_sortFields fields).mem_iff, mem_map_sortedField]

theorem map_fst_sortFields (fields : List (String × Json)) :
    ((sortFields fields).map Prod.fst).Perm (fields.map Prod.fst) := by
  have hperm := (perm_sortFields fields).map Prod.fst
  rwa [List.map_map] at hperm

theorem pairwise_insertField (h : fields.Pairwise fun field field' => field.1 ≤ field'.1) :
    (insertField name value fields).Pairwise fun field field' => field.1 ≤ field'.1 := by
  induction fields with
  | nil => exact List.pairwise_singleton ..
  | cons field fields ih =>
    obtain ⟨key, old⟩ := field
    obtain ⟨hfirst, hrest⟩ := List.pairwise_cons.1 h
    rw [insertField]
    split
    · next hlt =>
      refine List.pairwise_cons.2 ⟨?_, ih hrest⟩
      intro other hother
      rcases List.mem_cons.1 ((perm_insertField name value fields).mem_iff.1 hother) with
        rfl | hother
      · exact Std.le_of_lt hlt
      · exact hfirst other hother
    · next hnot =>
      have hle : name ≤ key := String.not_lt.1 hnot
      refine List.pairwise_cons.2 ⟨?_, h⟩
      intro other hother
      rcases List.mem_cons.1 hother with rfl | hother
      · exact hle
      · exact String.le_trans hle (hfirst other hother)

/-- Sorted fields ascend. -/
theorem pairwise_sortFields (fields : List (String × Json)) :
    (sortFields fields).Pairwise fun field field' => field.1 ≤ field'.1 := by
  induction fields with
  | nil => exact .nil
  | cons field fields ih =>
    rw [sortFields]
    exact pairwise_insertField ih

/-- Fields of distinct names are sorted alike, in whatever order they come. -/
theorem sortFields_eq_of_perm (hnodup : (fields.map Prod.fst).Nodup)
    (h : (fields.map sortedField).Perm (fields'.map sortedField)) :
    sortFields fields = sortFields fields' := by
  have hperm : (sortFields fields).Perm (sortFields fields') :=
    (perm_sortFields fields).trans (h.trans (perm_sortFields fields').symm)
  refine hperm.eq_of_pairwise ?_ (pairwise_sortFields fields) (pairwise_sortFields fields')
  rintro field field' hmem hmem' hle hge
  have hdistinct : ((sortFields fields).map Prod.fst).Nodup :=
    (map_fst_sortFields fields).nodup_iff.2 hnodup
  exact List.inj_on_of_nodup_map hdistinct hmem (hperm.mem_iff.2 hmem') (String.le_antisymm hle hge)

/-! ## Values with sorted fields -/

theorem Plain.reordered (ha : Plain a) (h : SameFields a b) : Reordered a b := by
  induction ha generalizing b with
  | null => cases b <;> cases h; exact .null
  | bool value => cases b <;> cases h; exact .bool value
  | int value => cases b <;> cases h; exact .int value
  | string value => cases b <;> cases h; exact .string value
  | @array items _ ih =>
    cases b with
    | array items' =>
      have hitems := sameFields_array.1 h
      refine .array hitems.length_eq ?_
      intro i item item' hitem hitem'
      obtain ⟨hi, rfl⟩ := List.getElem?_eq_some_iff.1 hitem
      obtain ⟨hi', rfl⟩ := List.getElem?_eq_some_iff.1 hitem'
      exact ih _ (List.getElem_mem hi) (hitems.get hi hi')
    | _ => cases h
  | @object fields hnodup _ ih =>
    cases b with
    | object fields' =>
      have hsorted : sortFields fields = sortFields fields' := object.inj h
      refine .object ?_ ?_
      · intro name
        rw [← (map_fst_sortFields fields).mem_iff, hsorted, (map_fst_sortFields fields').mem_iff]
      · intro name value value' hmem hmem'
        have hfound : (name, value'.sortKeys) ∈ sortFields fields := by
          rw [hsorted]
          exact mem_sortFields.2 ⟨value', hmem', rfl⟩
        obtain ⟨old, hold, heq⟩ := mem_sortFields.1 hfound
        -- no name comes twice, so this is the value itself
        cases List.inj_on_of_nodup_map hnodup hmem hold rfl
        exact ih (name, value) hmem heq
    | _ => cases h

theorem Reordered.sameFields (h : Reordered a b) (ha : Plain a) (hb : Plain b) : SameFields a b := by
  induction h with
  | null => rfl
  | bool value => rfl
  | int value => rfl
  | real value => rfl
  | string value => rfl
  | @array items items' hlength _ ih =>
    cases ha with
    | array hitems =>
    cases hb with
    | array hitems' =>
    refine sameFields_array.2 (List.forall₂_iff_get.2 ⟨hlength, ?_⟩)
    intro i hi hi'
    exact ih i _ _ (List.getElem?_eq_getElem hi) (List.getElem?_eq_getElem hi')
      (hitems _ (List.getElem_mem hi)) (hitems' _ (List.getElem_mem hi'))
  | @object fields fields' hnames _ ih =>
    cases ha with
    | object hnodup hvalues =>
    cases hb with
    | object hnodup' hvalues' =>
    have hdistinct {fields : List (String × Json)} (h : (fields.map Prod.fst).Nodup) :
        (fields.map sortedField).Nodup := by
      refine List.Nodup.of_map Prod.fst ?_
      rwa [List.map_map]
    show Json.object (sortFields fields) = Json.object (sortFields fields')
    rw [sortFields_eq_of_perm hnodup]
    refine (List.perm_ext_iff_of_nodup (hdistinct hnodup) (hdistinct hnodup')).2 ?_
    rintro ⟨name, value⟩
    rw [mem_map_sortedField, mem_map_sortedField]
    constructor
    · rintro ⟨old, hold, rfl⟩
      obtain ⟨⟨_, new⟩, hnew, rfl⟩ := List.mem_map.1 ((hnames name).1 (List.mem_map_of_mem hold))
      exact ⟨new, hnew, (ih _ old new hold hnew (hvalues _ hold) (hvalues' _ hnew)).symm⟩
    · rintro ⟨new, hnew, rfl⟩
      obtain ⟨⟨_, old⟩, hold, rfl⟩ := List.mem_map.1 ((hnames name).2 (List.mem_map_of_mem hnew))
      exact ⟨old, hold, ih _ old new hold hnew (hvalues _ hold) (hvalues' _ hnew)⟩

/-- Sorting fields leaves a value plain. -/
theorem Plain.sortKeys (h : Plain a) : Plain a.sortKeys := by
  induction h with
  | null => exact .null
  | bool value => exact .bool value
  | int value => exact .int value
  | string value => exact .string value
  | @array items _ ih =>
    rw [Json.sortKeys, sortKeysOfItems_eq_map]
    refine .array fun item hitem => ?_
    obtain ⟨old, hold, rfl⟩ := List.mem_map.1 hitem
    exact ih old hold
  | @object fields hnodup _ ih =>
    refine .object ((map_fst_sortFields fields).nodup_iff.2 hnodup) ?_
    rintro ⟨name, value⟩ hfield
    obtain ⟨old, hold, rfl⟩ := mem_sortFields.1 hfield
    exact ih (name, old) hold

/-- **Sorting erases the order of fields, and nothing else.** -/
theorem sameFields_iff_reordered (ha : Plain a) (hb : Plain b) : SameFields a b ↔ Reordered a b :=
  ⟨ha.reordered, fun h => h.sameFields ha hb⟩

end PersistedQueries.Json
