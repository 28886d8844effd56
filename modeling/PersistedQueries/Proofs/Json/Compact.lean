import PersistedQueries.Proofs.Json.Reordering
import PersistedQueries.Proofs.Json.RoundTrip

/-!
# Compact texts tell values apart

In the compact layout nothing stands between a value and what follows it, and a number has no end of its
own. All the same no two values have one text, and neither is the text of one the beginning of that of
another: inside a value a comma or a bracket follows each part.

- `Ends`: a text that no number goes on with.
- `toString_unique`, `writeString_unique`: whole numbers and strings can be told from what follows.
- `kind_eq_of_write_eq`: the first character tells what sort of value it is.
- `inner_unique`: items between brackets can be told from what follows, if each one can.
- `Plain.write_unique`: so values can.
- `digestText_eq_iff`: values have one digest text exactly when they differ in the order of fields.
-/

namespace PersistedQueries.Json

variable {a b : Json} {s t : Text} {level : Nat}

/-! ## Whole numbers and strings -/

/-- The character may stand in a whole number. -/
def isNumeral (c : Char) : Bool := c == '-' || c.isDigit

/-- The text does not go on with a number that stands in front of it. -/
def Ends (text : Text) : Prop := ∀ c ∈ text.head?, isNumeral c = false

theorem ends_nil : Ends [] := by
  intro c hc
  cases hc

theorem ends_cons {c : Char} (h : isNumeral c = false) : Ends (c :: t) := by
  rintro _ ⟨⟩
  exact h

/-- A whole number is written in digits, behind a sign if it is negative. -/
theorem toList_toString : ∀ value : Int, (toString value).toList =
    match value with
    | .ofNat n => Nat.toDigits 10 n
    | .negSucc n => '-' :: Nat.toDigits 10 (n + 1)
  | .ofNat n => String.toList_ofList
  | .negSucc n => by
    show ("-" ++ Nat.repr (n + 1)).toList = _
    rw [String.toList_append]
    exact congrArg ('-' :: ·) String.toList_ofList

theorem isDigit_of_mem {c : Char} {n : Nat} (h : c ∈ Nat.toDigits 10 n) : c.isDigit = true :=
  Nat.isDigit_of_mem_toDigits (by decide) (by decide) h

theorem all_isNumeral_toString (value : Int) : (toString value).toList.all isNumeral = true := by
  have hdigits (n : Nat) : (Nat.toDigits 10 n).all isNumeral = true :=
    List.all_eq_true.2 fun c hc => Bool.or_eq_true_iff.2 (.inr (isDigit_of_mem hc))
  rw [toList_toString]
  cases value with
  | ofNat n => exact hdigits n
  | negSucc n => exact hdigits (n + 1)

theorem toDigits_inj {m n : Nat} (h : Nat.toDigits 10 m = Nat.toDigits 10 n) : m = n := by
  rw [← @Nat.ofDigitChars_ten_toDigits m, h, Nat.ofDigitChars_ten_toDigits]

theorem toString_inj {value value' : Int} (h : (toString value).toList = (toString value').toList) :
    value = value' := by
  -- the sign is no digit
  have hsign (m n : Nat) : Nat.toDigits 10 m ≠ '-' :: Nat.toDigits 10 n := by
    intro heq
    have hmem : '-' ∈ Nat.toDigits 10 m := by
      rw [heq]
      exact List.mem_cons_self
    exact absurd (isDigit_of_mem hmem) (by decide)
  rw [toList_toString, toList_toString] at h
  cases value with
  | ofNat m =>
    cases value' with
    | ofNat n => rw [toDigits_inj h]
    | negSucc n => exact absurd h (hsign m (n + 1))
  | negSucc m =>
    cases value' with
    | ofNat n => exact absurd h.symm (hsign n (m + 1))
    | negSucc n => rw [Nat.succ.inj (toDigits_inj (List.cons.inj h).2)]

theorem takeWhile_isNumeral {digits : Text} (hdigits : digits.all isNumeral = true) (hs : Ends s) :
    (digits ++ s).takeWhile isNumeral = digits := by
  rw [List.takeWhile_append_of_pos (List.all_eq_true.1 hdigits)]
  cases s with
  | nil => exact List.append_nil digits
  | cons c s =>
    rw [List.takeWhile_cons_of_neg (by rw [hs c rfl]; exact Bool.false_ne_true), List.append_nil]

/-- A whole number can be told from what follows it. -/
theorem toString_unique {value value' : Int} (hs : Ends s) (ht : Ends t)
    (h : (toString value).toList ++ s = (toString value').toList ++ t) : value = value' ∧ s = t := by
  have htext := congrArg (List.takeWhile isNumeral) h
  rw [takeWhile_isNumeral (all_isNumeral_toString value) hs,
    takeWhile_isNumeral (all_isNumeral_toString value') ht] at htext
  rw [htext] at h
  exact ⟨toString_inj htext, List.append_cancel_left h⟩

/-- A quoted string can be told from what follows it. -/
theorem writeString_unique {name name' : String} (h : writeString name ++ s = writeString name' ++ t) :
    name = name' ∧ s = t := by
  have hread (text : String) (more : Text) (fuel : Nat) (hfuel : text.toList.length < fuel) :
      readString 0 fuel 0 ((writeString text ++ more).drop 1) =
        .ok (text.toList, 0 + (escape text.toList).length + 1, more) := by
    unfold writeString
    rw [List.append_assoc]
    exact readString_escape hfuel
  have hone := hread name s (name.toList.length + name'.toList.length + 1) (by omega)
  have hother := hread name' t (name.toList.length + name'.toList.length + 1) (by omega)
  rw [h, hother] at hone
  obtain ⟨htext, hmore⟩ := Prod.mk.inj (Except.ok.inj hone)
  exact ⟨(String.toList_inj.1 htext).symm, (Prod.mk.inj hmore).2.symm⟩

/-! ## Sorts of values -/

/-- A sort of values, which have one first character or, if they are numbers, a digit or a sign. -/
inductive Kind where
  | null
  | bool
  | number
  | string
  | array
  | object
  /-- None of these. -/
  | other
  deriving DecidableEq

/-- The sort of a value. -/
def kind : Json → Kind
  | .null => .null
  | .bool _ => .bool
  | .int _ => .number
  | .real _ => .other
  | .string _ => .string
  | .array _ => .array
  | .object _ => .object

/-- The sort of the values whose texts begin with a character. -/
def kindOf (c : Char) : Kind :=
  if isNumeral c then .number
  else if c = 'n' then .null
  else if c = 't' ∨ c = 'f' then .bool
  else if c = '\x22' then .string
  else if c = '[' then .array
  else if c = '\x7b' then .object
  else .other

/-- What stands behind an opening bracket. -/
def inner (closing : Char) : List Text → Text
  | [] => [closing]
  | item :: rest => item ++ rest.flatMap (',' :: ·) ++ [closing]

theorem bracket_compact (level : Nat) (opening closing : Char) (items : List Text) :
    bracket compact level opening closing items = opening :: inner closing items := by
  have hjoin (item : Text) (rest : List Text) :
      Text.joinWith [','] (item :: rest) = item ++ rest.flatMap (',' :: ·) := by
    induction rest generalizing item with
    | nil => exact (List.append_nil item).symm
    | cons next rest ih =>
      show item ++ [','] ++ Text.joinWith [','] (next :: rest) = _
      rw [ih, List.append_assoc]
      rfl
  cases items with
  | nil => rfl
  | cons item rest =>
    show opening :: ([] ++ Text.joinWith ([','] ++ []) (item :: rest) ++ [] ++ [closing]) = _
    rw [List.append_nil, List.nil_append, List.append_nil, hjoin]
    rfl

theorem writeItems_eq_map (layout : Layout) (level : Nat) (items : List Json) :
    writeItems layout level items = items.map (writeAt layout level) := by
  induction items with
  | nil => rfl
  | cons item items ih => rw [writeItems, ih, List.map_cons]

/-- A field of an object. -/
def writeField (level : Nat) (field : String × Json) : Text :=
  writeString field.1 ++ ':' :: writeAt compact level field.2

theorem writeFields_eq_map (level : Nat) (fields : List (String × Json)) :
    writeFields compact level fields = fields.map (writeField level) := by
  induction fields with
  | nil => rfl
  | cons field fields ih =>
    obtain ⟨name, value⟩ := field
    rw [writeFields, ih, List.map_cons, List.append_assoc]
    rfl

/-- The first character of a value tells its sort. -/
theorem Plain.kindOf_head (h : Plain a) (level : Nat) :
    ∃ c rest, writeAt compact level a = c :: rest ∧ kindOf c = a.kind := by
  cases h with
  | null => exact ⟨_, _, rfl, rfl⟩
  | bool value => cases value <;> exact ⟨_, _, rfl, rfl⟩
  | int value =>
    have hall := all_isNumeral_toString value
    have hne : (toString value).toList ≠ [] := by
      rw [toList_toString]
      cases value with
      | ofNat n => exact Nat.toDigits_ne_nil
      | negSucc n => exact List.cons_ne_nil _ _
    obtain ⟨c, rest, heq⟩ := List.exists_cons_of_ne_nil hne
    rw [heq, List.all_cons, Bool.and_eq_true_iff] at hall
    exact ⟨c, rest, heq, if_pos hall.1⟩
  | string value => exact ⟨_, _, rfl, rfl⟩
  | array _ =>
    rw [writeAt, bracket_compact]
    exact ⟨_, _, rfl, rfl⟩
  | object _ _ =>
    rw [writeAt, bracket_compact]
    exact ⟨_, _, rfl, rfl⟩

theorem kind_eq_of_write_eq (ha : Plain a) (hb : Plain b)
    (h : writeAt compact level a ++ s = writeAt compact level b ++ t) : a.kind = b.kind := by
  obtain ⟨c, rest, hwrite, hkind⟩ := ha.kindOf_head level
  obtain ⟨c', rest', hwrite', hkind'⟩ := hb.kindOf_head level
  rw [hwrite, hwrite'] at h
  obtain ⟨rfl, -⟩ := List.cons.inj h
  exact hkind.symm.trans hkind'

/-- No value begins like a bracket that closes others. -/
theorem Plain.head_ne (h : Plain a) {c : Char} (hc : kindOf c = .other) (level : Nat) :
    ∃ c' rest, writeAt compact level a = c' :: rest ∧ c' ≠ c := by
  obtain ⟨c', rest, hwrite, hkind⟩ := h.kindOf_head level
  refine ⟨c', rest, hwrite, ?_⟩
  rintro rfl
  rw [hc] at hkind
  cases h <;> cases hkind

/-! ## Items between brackets -/

section Items

variable {α : Type} {write : α → Text} {closing : Char} {items items' : List α}

theorem ends_flatMap (hclosing : isNumeral closing = false) (items : List Text) :
    Ends (items.flatMap (',' :: ·) ++ [closing] ++ s) := by
  cases items with
  | nil => exact ends_cons hclosing
  | cons item items => exact ends_cons (by decide)

/-- Further items can be told from what follows the bracket that closes them. -/
theorem flatMap_unique (hclosing : isNumeral closing = false) (hcomma : closing ≠ ',')
    (heach : ∀ item ∈ items, ∀ item' ∈ items', ∀ s t, Ends s → Ends t →
      write item ++ s = write item' ++ t → item = item' ∧ s = t)
    (h : (items.map write).flatMap (',' :: ·) ++ [closing] ++ s =
      (items'.map write).flatMap (',' :: ·) ++ [closing] ++ t) : items = items' ∧ s = t := by
  induction items generalizing items' with
  | nil =>
    cases items' with
    | nil => exact ⟨rfl, (List.cons.inj h).2⟩
    | cons item' items' => exact absurd (List.cons.inj h).1 hcomma
  | cons item items ih =>
    cases items' with
    | nil => exact absurd (List.cons.inj h).1.symm hcomma
    | cons item' items' =>
      rw [List.map_cons, List.map_cons, List.flatMap_cons, List.flatMap_cons, List.append_assoc,
        List.append_assoc, List.append_assoc, List.append_assoc, ← List.append_assoc _ [closing],
        ← List.append_assoc _ [closing]] at h
      obtain ⟨rfl, hrest⟩ := heach item List.mem_cons_self item' List.mem_cons_self _ _
        (ends_flatMap hclosing _) (ends_flatMap hclosing _) (List.cons.inj h).2
      obtain ⟨rfl, hst⟩ := ih (fun item hitem item' hitem' =>
        heach item (List.mem_cons_of_mem _ hitem) item' (List.mem_cons_of_mem _ hitem')) hrest
      exact ⟨rfl, hst⟩

/-- Items between brackets can be told from what follows, if each of them can, and if none begins like
the bracket that closes them. -/
theorem inner_unique (hclosing : isNumeral closing = false) (hcomma : closing ≠ ',')
    (hhead : ∀ item, item ∈ items ∨ item ∈ items' →
      ∃ c rest, write item = c :: rest ∧ c ≠ closing)
    (heach : ∀ item ∈ items, ∀ item' ∈ items', ∀ s t, Ends s → Ends t →
      write item ++ s = write item' ++ t → item = item' ∧ s = t)
    (h : inner closing (items.map write) ++ s = inner closing (items'.map write) ++ t) :
    items = items' ∧ s = t := by
  cases items with
  | nil =>
    cases items' with
    | nil => exact ⟨rfl, (List.cons.inj h).2⟩
    | cons item' items' =>
      obtain ⟨c, rest, heq, hne⟩ := hhead item' (.inr List.mem_cons_self)
      rw [List.map_cons, inner, heq] at h
      exact absurd (List.cons.inj h).1.symm hne
  | cons item items =>
    cases items' with
    | nil =>
      obtain ⟨c, rest, heq, hne⟩ := hhead item (.inl List.mem_cons_self)
      rw [List.map_cons, inner, heq] at h
      exact absurd (List.cons.inj h).1 hne
    | cons item' items' =>
      rw [List.map_cons, List.map_cons, inner, inner, List.append_assoc, List.append_assoc,
        List.append_assoc, List.append_assoc, ← List.append_assoc _ [closing],
        ← List.append_assoc _ [closing]] at h
      obtain ⟨rfl, hrest⟩ := heach item List.mem_cons_self item' List.mem_cons_self _ _
        (ends_flatMap hclosing _) (ends_flatMap hclosing _) h
      obtain ⟨rfl, hst⟩ := flatMap_unique hclosing hcomma (fun item hitem item' hitem' =>
        heach item (List.mem_cons_of_mem _ hitem) item' (List.mem_cons_of_mem _ hitem')) hrest
      exact ⟨rfl, hst⟩

end Items

/-! ## Values -/

/-- A value can be told from what follows it. -/
theorem Plain.write_unique (ha : Plain a) (hb : Plain b) (hs : Ends s) (ht : Ends t)
    (h : writeAt compact level a ++ s = writeAt compact level b ++ t) : a = b ∧ s = t := by
  have hkind := kind_eq_of_write_eq ha hb h
  induction ha generalizing b s t level with
  | null =>
    cases hb with
    | null => exact ⟨rfl, List.append_cancel_left h⟩
    | _ => cases hkind
  | bool value =>
    cases hb with
    | bool value' =>
      cases value <;> cases value'
      · exact ⟨rfl, List.append_cancel_left h⟩
      · cases h
      · cases h
      · exact ⟨rfl, List.append_cancel_left h⟩
    | _ => cases hkind
  | int value =>
    cases hb with
    | int value' =>
      obtain ⟨rfl, hst⟩ := toString_unique hs ht h
      exact ⟨rfl, hst⟩
    | _ => cases hkind
  | string value =>
    cases hb with
    | string value' =>
      obtain ⟨rfl, hst⟩ := writeString_unique h
      exact ⟨rfl, hst⟩
    | _ => cases hkind
  | @array items hitems ih =>
    cases hb with
    | @array items' hitems' =>
      rw [writeAt, writeAt, bracket_compact, bracket_compact, writeItems_eq_map,
        writeItems_eq_map] at h
      have hhead (item : Json) (hitem : item ∈ items ∨ item ∈ items') :
          ∃ c rest, writeAt compact (level + 1) item = c :: rest ∧ c ≠ ']' :=
        (hitem.elim (hitems item) (hitems' item)).head_ne (by decide) (level + 1)
      obtain ⟨rfl, hst⟩ := inner_unique (by decide) (by decide) hhead
        (fun item hitem item' hitem' s t hs ht heq =>
          have hplain := hitems item hitem
          have hplain' := hitems' item' hitem'
          ih item hitem hplain' hs ht heq (kind_eq_of_write_eq hplain hplain' heq))
        (List.cons.inj h).2
      exact ⟨rfl, hst⟩
    | _ => cases hkind
  | @object fields _ hvalues ih =>
    cases hb with
    | @object fields' _ hvalues' =>
      rw [writeAt, writeAt, bracket_compact, bracket_compact, writeFields_eq_map,
        writeFields_eq_map] at h
      have heach : ∀ field ∈ fields, ∀ field' ∈ fields', ∀ s t, Ends s → Ends t →
          writeField (level + 1) field ++ s = writeField (level + 1) field' ++ t →
          field = field' ∧ s = t := by
        rintro ⟨name, value⟩ hfield ⟨name', value'⟩ hfield' s t hs ht heq
        unfold writeField at heq
        rw [List.append_assoc, List.append_assoc] at heq
        obtain ⟨rfl, hrest⟩ := writeString_unique heq
        have hvalue := (List.cons.inj hrest).2
        obtain ⟨rfl, hst⟩ := ih _ hfield (hvalues' _ hfield') hs ht hvalue
          (kind_eq_of_write_eq (hvalues _ hfield) (hvalues' _ hfield') hvalue)
        exact ⟨rfl, hst⟩
      obtain ⟨rfl, hst⟩ := inner_unique (by decide) (by decide)
        (fun field _ => ⟨_, _, rfl, by decide⟩) heach (List.cons.inj h).2
      exact ⟨rfl, hst⟩
    | _ => cases hkind

/-- Values have one digest text exactly when they are equal up to the order of fields. -/
theorem digestText_eq_iff (ha : Plain a) (hb : Plain b) :
    digestText a = digestText b ↔ Reordered a b := by
  rw [← sameFields_iff_reordered ha hb]
  constructor
  · intro h
    have hwrite : writeAt compact 0 a.sortKeys ++ [] = writeAt compact 0 b.sortKeys ++ [] :=
      congrArg (· ++ []) h
    exact (ha.sortKeys.write_unique hb.sortKeys ends_nil ends_nil hwrite).1
  · intro h
    exact congrArg (write compact) h

end PersistedQueries.Json
