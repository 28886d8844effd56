import Mathlib.Data.List.Forall2
import PersistedQueries.Json.Access

/-!
# Values up to the order of fields

Two values that have the same form with sorted fields differ in the order of fields at most. Looking
into one of them finds what looking into the other finds, or fails for the same reason: only the
names of an object's fields come in another order, where something goes through them.

- `SameFields`: values that are equal up to the order of fields.
- `SameParts`: fields of which only the values differ, and those in the order of fields at most.
- `Agrees`: two results fail with the same fault, or have related values.
- `SameFields.get`, `getD`, `asKey`, `elements`: ways of looking into such values agree.
- `SameItems.mapM`, `SameItems.filterMapM`, `SameItems.foldlM`: so does what is made of their
  elements, if a string fails like any other one.
- `equals_iff`: whether two values are equal can be computed.
-/

namespace PersistedQueries.Json

variable {α β γ δ ε : Type} {R : α → β → Prop} {S : γ → δ → Prop}

/-! ## Equal values -/

mutual

/-- Whether two values are equal. -/
def equals : Json → Json → Bool
  | .null, .null => true
  | .bool value, .bool value' => value == value'
  | .int value, .int value' => value == value'
  | .real value, .real value' => value == value'
  | .string value, .string value' => value == value'
  | .array items, .array items' => equalsEach items items'
  | .object fields, .object fields' => equalsFields fields fields'
  | _, _ => false

/-- Whether the items of two arrays are equal. -/
def equalsEach : List Json → List Json → Bool
  | [], [] => true
  | item :: items, item' :: items' => equals item item' && equalsEach items items'
  | _, _ => false

/-- Whether the fields of two objects are equal. -/
def equalsFields : List (String × Json) → List (String × Json) → Bool
  | [], [] => true
  | (name, value) :: fields, (name', value') :: fields' =>
    name == name' && equals value value' && equalsFields fields fields'
  | _, _ => false

end

mutual

theorem equals_iff (a b : Json) : equals a b = true ↔ a = b := by
  cases a <;> cases b <;> simp [equals, equalsEach_iff, equalsFields_iff]

theorem equalsEach_iff (items items' : List Json) :
    equalsEach items items' = true ↔ items = items' := by
  cases items <;> cases items' <;> simp [equalsEach, equals_iff, equalsEach_iff]

theorem equalsFields_iff (fields fields' : List (String × Json)) :
    equalsFields fields fields' = true ↔ fields = fields' := by
  rcases fields with _ | ⟨⟨name, value⟩, fields⟩ <;>
    rcases fields' with _ | ⟨⟨name', value'⟩, fields'⟩ <;>
    simp [equalsFields, equals_iff, equalsFields_iff]

end

instance : DecidableEq Json := fun a b => decidable_of_iff (equals a b = true) (equals_iff a b)

/-! ## Sorted fields -/

/-- The values are equal up to the order of fields. -/
def SameFields (a b : Json) : Prop := a.sortKeys = b.sortKeys

instance (a b : Json) : Decidable (SameFields a b) := inferInstanceAs (Decidable (_ = _))

namespace SameFields

variable {a b c : Json}

@[refl] theorem refl (a : Json) : SameFields a a := rfl

@[symm] theorem symm (h : SameFields a b) : SameFields b a := Eq.symm h

theorem trans (h : SameFields a b) (h' : SameFields b c) : SameFields a c := Eq.trans h h'

end SameFields

theorem lookupField_insertField (name other : String) (value : Json)
    (fields : List (String × Json)) :
    lookupField other (insertField name value fields) =
      if name = other then some value else lookupField other fields := by
  induction fields with
  | nil => rfl
  | cons field fields ih =>
    obtain ⟨key, old⟩ := field
    rw [insertField]
    split
    · next hlt =>
      -- the name of a field that stands in front of the new one is another one
      have hne : key ≠ name := by
        rintro rfl
        exact String.lt_irrefl key hlt
      rw [lookupField, lookupField, ih]
      split
      · next hkey =>
        subst hkey
        rw [if_neg (Ne.symm hne)]
      · rfl
    · rw [lookupField]

theorem lookupField_sortFields (name : String) (fields : List (String × Json)) :
    lookupField name (sortFields fields) = (lookupField name fields).map sortKeys := by
  induction fields with
  | nil => rfl
  | cons field fields ih =>
    obtain ⟨key, value⟩ := field
    rw [sortFields, lookupField_insertField, lookupField, ih]
    split <;> rfl

theorem length_insertField (name : String) (value : Json) (fields : List (String × Json)) :
    (insertField name value fields).length = fields.length + 1 := by
  induction fields with
  | nil => rfl
  | cons field fields ih =>
    rw [insertField]
    split
    · rw [List.length_cons, ih, List.length_cons]
    · rfl

theorem length_sortFields (fields : List (String × Json)) :
    (sortFields fields).length = fields.length := by
  induction fields with
  | nil => rfl
  | cons field fields ih => rw [sortFields, length_insertField, ih, List.length_cons]

/-- Objects with the same sorted fields have equally many. -/
theorem length_eq_of_sortFields {fields fields' : List (String × Json)}
    (h : sortFields fields = sortFields fields') : fields.length = fields'.length := by
  rw [← length_sortFields, h, length_sortFields]

/-- They have fields of the same names, with values that are equal up to the order of fields. -/
theorem rel_lookupField {fields fields' : List (String × Json)}
    (h : sortFields fields = sortFields fields') (name : String) :
    Option.Rel SameFields (lookupField name fields) (lookupField name fields') := by
  have hlookup := congrArg (lookupField name) h
  rw [lookupField_sortFields, lookupField_sortFields] at hlookup
  generalize lookupField name fields = found, lookupField name fields' = found' at hlookup
  cases found <;> cases found'
  · exact .none
  · cases hlookup
  · cases hlookup
  · exact .some (Option.some.inj hlookup)

theorem sortKeysOfItems_eq_map (items : List Json) :
    sortKeysOfItems items = items.map sortKeys := by
  induction items with
  | nil => rfl
  | cons item items ih => rw [sortKeysOfItems, ih, List.map_cons]

theorem sameFields_array {items items' : List Json} :
    SameFields (.array items) (.array items') ↔ List.Forall₂ SameFields items items' := by
  rw [SameFields, sortKeys, sortKeys, array.injEq, sortKeysOfItems_eq_map, sortKeysOfItems_eq_map,
    ← List.forall₂_eq_eq_eq, List.forall₂_map_left_iff, List.forall₂_map_right_iff]
  rfl

/-- Fields of the same names in the same order, whose values are equal up to the order of fields. -/
def SameParts : List (String × Json) → List (String × Json) → Prop :=
  List.Forall₂ fun field field' => field.1 = field'.1 ∧ SameFields field.2 field'.2

theorem SameParts.object {fields fields' : List (String × Json)} (h : SameParts fields fields') :
    SameFields (.object fields) (.object fields') := by
  rw [SameFields, sortKeys, sortKeys, object.injEq]
  induction h with
  | nil => rfl
  | cons hfield _ ih => rw [sortFields, sortFields, ih, hfield.1, hfield.2]

/-- What values that are equal up to the order of fields have in common. -/
theorem SameFields.cases {a b : Json} (h : SameFields a b) :
    a = b ∨ (∃ items items', a = .array items ∧ b = .array items' ∧
        List.Forall₂ SameFields items items') ∨
      ∃ fields fields', a = .object fields ∧ b = .object fields' ∧
        sortFields fields = sortFields fields' := by
  cases a <;> cases b <;> first
    | exact .inr (.inl ⟨_, _, rfl, rfl, sameFields_array.1 h⟩)
    | exact .inr (.inr ⟨_, _, rfl, rfl, object.inj h⟩)
    | exact .inl h
    | cases h

/-! ## Results that agree -/

/-- Two results fail with the same fault, or have related values. -/
def Agrees (R : α → β → Prop) : Except ε α → Except ε β → Prop
  | .ok a, .ok b => R a b
  | .error fault, .error fault' => fault = fault'
  | _, _ => False

theorem Agrees.of_ok {x : Except ε α} {y : Except ε β} {a : α} (h : Agrees R x y)
    (hx : x = .ok a) : ∃ b, y = .ok b ∧ R a b := by
  subst hx
  cases y with
  | error fault => exact h.elim
  | ok b => exact ⟨b, rfl, h⟩

theorem Agrees.of_error {x : Except ε α} {y : Except ε β} {fault : ε} (h : Agrees R x y)
    (hx : x = .error fault) : y = .error fault := by
  subst hx
  cases y with
  | error fault' => exact congrArg Except.error (Eq.symm h)
  | ok b => exact h.elim

theorem Agrees.bind {x : Except ε α} {y : Except ε β} {f : α → Except ε γ} {g : β → Except ε δ}
    (h : Agrees R x y) (hfg : ∀ a b, R a b → Agrees S (f a) (g b)) :
    Agrees S (x >>= f) (y >>= g) := by
  cases x <;> cases y <;> first
    | exact hfg _ _ h
    | exact h
    | exact h.elim

theorem Agrees.map {x : Except ε α} {y : Except ε β} {f : α → γ} {g : β → δ}
    (h : Agrees R x y) (hfg : ∀ a b, R a b → S (f a) (g b)) :
    Agrees S (x.map f) (y.map g) := by
  cases x <;> cases y <;> first
    | exact hfg _ _ h
    | exact h

theorem Agrees.mapError {η : Type} {x : Except ε α} {y : Except ε β} (h : Agrees R x y)
    (f : ε → η) : Agrees R (x.mapError f) (y.mapError f) := by
  cases x <;> cases y <;> first
    | exact congrArg f h
    | exact h

/-! ## Looking into values -/

namespace SameFields

variable {a b : Json}

theorem get (h : SameFields a b) (name : String) : Agrees SameFields (a.get name) (b.get name) := by
  rcases h.cases with rfl | ⟨items, items', rfl, rfl, -⟩ | ⟨fields, fields', rfl, rfl, hfields⟩
  · cases a.get name <;> rfl
  · rfl
  · have hfound := rel_lookupField hfields name
    unfold Json.get
    dsimp only
    generalize lookupField name fields = found, lookupField name fields' = found' at hfound ⊢
    cases hfound with
    | none => rfl
    | some hvalue => exact hvalue

theorem getD (h : SameFields a b) (name : String) (default : Json) :
    Agrees SameFields (a.getD name default) (b.getD name default) := by
  rcases h.cases with rfl | ⟨items, items', rfl, rfl, -⟩ | ⟨fields, fields', rfl, rfl, hfields⟩
  · cases a.getD name default <;> rfl
  · rfl
  · have hfound := rel_lookupField hfields name
    unfold Json.getD
    dsimp only
    generalize lookupField name fields = found, lookupField name fields' = found' at hfound ⊢
    cases hfound with
    | none => rfl
    | some hvalue => exact hvalue

theorem isTruthy (h : SameFields a b) : a.isTruthy = b.isTruthy := by
  rcases h.cases with rfl | ⟨items, items', rfl, rfl, hitems⟩ | ⟨fields, fields', rfl, rfl, hfields⟩
  · rfl
  · cases hitems <;> rfl
  · have hlength := length_eq_of_sortFields hfields
    cases fields <;> cases fields' <;> first
      | rfl
      | cases hlength

/-- A key is no object, so keys that are equal up to the order of fields are equal. -/
theorem asKey (h : SameFields a b) : Agrees (· = ·) a.asKey b.asKey := by
  rcases h.cases with rfl | ⟨items, items', rfl, rfl, -⟩ | ⟨fields, fields', rfl, rfl, -⟩
  · cases a <;> rfl
  · rfl
  · rfl

end SameFields

/-! ## Elements -/

/-- Elements that are equal up to the order of fields; or the names of the fields of objects, which
are strings in whatever order. -/
def SameItems (items items' : List Json) : Prop :=
  List.Forall₂ SameFields items items' ∨
    ∃ name names name' names', items = .string name :: names ∧ items' = .string name' :: names'

theorem SameFields.elements {a b : Json} (h : SameFields a b) :
    Agrees SameItems a.elements b.elements := by
  rcases h.cases with rfl | ⟨items, items', rfl, rfl, hitems⟩ | ⟨fields, fields', rfl, rfl, hfields⟩
  · cases a.elements with
    | error fault => rfl
    | ok items => exact .inl (List.forall₂_same.2 fun item _ => .refl item)
  · exact .inl hitems
  · have hlength := length_eq_of_sortFields hfields
    cases fields <;> cases fields' <;> first
      | exact .inl .nil
      | exact .inr ⟨_, _, _, _, rfl, rfl⟩
      | cases hlength

theorem SameFields.elementsOrNone {a b : Json} (h : SameFields a b) :
    Agrees SameItems a.elementsOrNone b.elementsOrNone := by
  unfold Json.elementsOrNone
  rw [h.isTruthy]
  split
  · exact h.elements
  · exact .inl .nil

namespace SameItems

variable {items items' : List Json} {f : Json → Except ε γ} {g : Json → Except ε δ}

/-- What is made of elements agrees, if it agrees for each one and every string fails with the same
fault. -/
theorem mapM (h : SameItems items items')
    (hfg : ∀ a b, SameFields a b → Agrees S (f a) (g b)) {fault : ε}
    (hf : ∀ text, f (.string text) = .error fault) (hg : ∀ text, g (.string text) = .error fault) :
    Agrees (List.Forall₂ S) (items.mapM f) (items'.mapM g) := by
  rcases h with h | ⟨name, names, name', names', rfl, rfl⟩
  · induction h with
    | nil => exact .nil
    | cons hitem _ ih =>
      rw [List.mapM_cons, List.mapM_cons]
      exact (hfg _ _ hitem).bind fun _ _ hfirst => ih.bind fun _ _ hrest => .cons hfirst hrest
  · rw [List.mapM_cons, List.mapM_cons, hf, hg]
    rfl

/-- The same for what is left out or made of elements. -/
theorem filterMapM {f : Json → Except ε (Option γ)} {g : Json → Except ε (Option δ)}
    (h : SameItems items items')
    (hfg : ∀ a b, SameFields a b → Agrees (Option.Rel S) (f a) (g b)) {fault : ε}
    (hf : ∀ text, f (.string text) = .error fault) (hg : ∀ text, g (.string text) = .error fault) :
    Agrees (List.Forall₂ S) (items.filterMapM f) (items'.filterMapM g) := by
  rcases h with h | ⟨name, names, name', names', rfl, rfl⟩
  · induction h with
    | nil => exact .nil
    | cons hitem _ ih =>
      rw [List.filterMapM_cons, List.filterMapM_cons]
      refine (hfg _ _ hitem).bind fun made made' hmade => ?_
      cases hmade with
      | none => exact ih
      | some hfirst => exact ih.bind fun _ _ hrest => .cons hfirst hrest
  · rw [List.filterMapM_cons, List.filterMapM_cons, hf, hg]
    rfl

/-- The same for what is gathered from elements one after the other. -/
theorem foldlM {R : γ → δ → Prop} {f : γ → Json → Except ε γ} {g : δ → Json → Except ε δ}
    {start : γ} {start' : δ} (h : SameItems items items')
    (hfg : ∀ c d a b, R c d → SameFields a b → Agrees R (f c a) (g d b)) {fault : ε}
    (hf : ∀ c text, f c (.string text) = .error fault)
    (hg : ∀ d text, g d (.string text) = .error fault) (hstart : R start start') :
    Agrees R (items.foldlM f start) (items'.foldlM g start') := by
  rcases h with h | ⟨name, names, name', names', rfl, rfl⟩
  · induction h generalizing start start' with
    | nil => exact hstart
    | cons hitem _ ih =>
      rw [List.foldlM_cons, List.foldlM_cons]
      exact (hfg _ _ _ _ hstart hitem).bind fun _ _ hnext => ih hnext
  · rw [List.foldlM_cons, List.foldlM_cons, hf, hg]
    rfl

end SameItems

end PersistedQueries.Json
