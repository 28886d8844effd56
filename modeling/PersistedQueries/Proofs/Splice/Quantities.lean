import Mathlib.Data.Nat.Digits.Defs
import PersistedQueries.Splice.Vlq

/-!
# Reading variable-length quantities

What the digits of an integer are is a rule that needs no reader: all of them but the last have the
continuation bit, the other five bits of each make up a number, the lowest first, and the lowest bit of
the number is the sign. What is written follows the rule, and the readers are exact for it, so an
integer is read back whatever stands behind it. The digits of several integers can be cut in one way
only, whoever reads them.

- `Quantity`: digits by the rule, with the integer that they say.
- `exists_quantity`: what is written for an integer is a quantity that says it.
- `decodeVlq?_eq_some_iff`, `decodeVlqs?_eq_some_iff`: the readers take quantities and nothing else.
- `decodeVlq?_encodeVlq`: an integer is read back in front of any text.
- `decodeVlqs?`: all integers of a text.
- `decodeVlqs?_encodeVlqs`: integers that are written one after the other are read back.
- `mem_base64Digits_of_mem_encodeVlq`: nothing but digits is written, so no separator is.
- `encodeVlqs_uniquely_decodable`: integers that are written one after the other are read back, and
  there is no other way to read them.
-/

namespace PersistedQueries.Splice

/-! ## Digits -/

theorem base64Value?_base64Digit {value : Nat} (h : value < 64) :
    base64Value? (base64Digit value) = some value := by
  have hall : ∀ value < 64, base64Value? (base64Digit value) = some value := by decide +kernel
  exact hall value h

theorem base64Digit_mem {value : Nat} (h : value < 64) : base64Digit value ∈ base64Digits := by
  have hall : ∀ value < 64, base64Digit value ∈ base64Digits := by decide +kernel
  exact hall value h

theorem base64Value?_eq_some {c : Char} {digit : Nat} (h : base64Value? c = some digit) :
    digit < 64 ∧ base64Digit digit = c := by
  obtain ⟨hlt, hdigit, -⟩ := List.idxOf?_eq_some_iff.1 h
  refine ⟨hlt, ?_⟩
  rw [base64Digit, List.getD_eq_getElem?_getD, List.getElem?_eq_getElem hlt, hdigit, Option.getD_some]

theorem unzigzag_zigzag (value : Int) : unzigzag (zigzag value) = value := by
  unfold unzigzag zigzag
  by_cases h : value < 0
  · rw [if_pos h, if_pos (by omega)]
    omega
  · rw [if_neg h, if_neg (by omega)]
    omega

/-! ## Quantities -/

/-- The values of the digits of one integer: all but the last have the continuation bit, the bit of
32. -/
structure Quantity where
  /-- The digits in front of the last one. -/
  more : List Nat
  /-- The last digit. -/
  last : Nat
  more_continue : ∀ digit ∈ more, 32 ≤ digit ∧ digit < 64
  last_ends : last < 32

namespace Quantity

/-- The digits as they are written. -/
def text (quantity : Quantity) : Text :=
  quantity.more.map base64Digit ++ [base64Digit quantity.last]

/-- The number that the digits make up with five bits each, the lowest first. -/
def number (quantity : Quantity) : Nat :=
  Nat.ofDigits 32 ((quantity.more ++ [quantity.last]).map (· % 32))

/-- The integer that the digits say: the lowest bit of the number is its sign. -/
def value (quantity : Quantity) : Int := unzigzag quantity.number

/-- A quantity of one digit. -/
def single (digit : Nat) (h : digit < 32) : Quantity := ⟨[], digit, nofun, h⟩

/-- One more digit in front. -/
def cons (digit : Nat) (h : 32 ≤ digit ∧ digit < 64) (quantity : Quantity) : Quantity :=
  ⟨digit :: quantity.more, quantity.last, List.forall_mem_cons.2 ⟨h, quantity.more_continue⟩,
    quantity.last_ends⟩

variable {digit : Nat}

theorem text_single (h : digit < 32) : (single digit h).text = [base64Digit digit] := rfl

theorem number_single (h : digit < 32) : (single digit h).number = digit := by
  show Nat.ofDigits 32 [digit % 32] = digit
  rw [Nat.ofDigits_singleton, Nat.mod_eq_of_lt h]

theorem text_cons (h : 32 ≤ digit ∧ digit < 64) (quantity : Quantity) :
    (cons digit h quantity).text = base64Digit digit :: quantity.text := rfl

theorem number_cons (h : 32 ≤ digit ∧ digit < 64) (quantity : Quantity) :
    (cons digit h quantity).number = digit - 32 + 32 * quantity.number := by
  show Nat.ofDigits 32 (digit % 32 :: (quantity.more ++ [quantity.last]).map (· % 32)) = _
  rw [Nat.ofDigits_cons, ← number]
  omega

theorem text_ne_nil (quantity : Quantity) : quantity.text ≠ [] :=
  List.append_ne_nil_of_right_ne_nil _ (List.cons_ne_nil _ _)

theorem mem_base64Digits (quantity : Quantity) {c : Char} (h : c ∈ quantity.text) :
    c ∈ base64Digits := by
  rcases List.mem_append.1 h with h | h
  · obtain ⟨digit, hdigit, rfl⟩ := List.mem_map.1 h
    exact base64Digit_mem (quantity.more_continue digit hdigit).2
  · rw [List.mem_singleton.1 h]
    exact base64Digit_mem (Nat.lt_trans quantity.last_ends (by decide))

/-- Quantities are made of their last digit and further ones in front of it. -/
theorem induction {motive : Quantity → Prop} (hsingle : ∀ digit h, motive (single digit h))
    (hcons : ∀ digit h quantity, motive quantity → motive (cons digit h quantity))
    (quantity : Quantity) : motive quantity := by
  obtain ⟨more, last, hmore, hlast⟩ := quantity
  induction more with
  | nil => exact hsingle last hlast
  | cons digit more ih =>
    obtain ⟨hdigit, hmore⟩ := List.forall_mem_cons.1 hmore
    exact hcons digit hdigit ⟨more, last, hmore, hlast⟩ (ih hmore)

end Quantity

/-! ## Reading one integer -/

section Reading

variable {c : Char} {digit n : Nat} {text rest : Text} {value : Int}

/-- A digit without the continuation bit is a number. -/
theorem decodeUnsigned?_of_lt (hdigit : base64Value? c = some digit) (h : digit < 32) :
    decodeUnsigned? (c :: rest) = some (digit, rest) := by
  show (base64Value? c).bind _ = _
  rw [hdigit]
  exact if_pos h

/-- A digit with the continuation bit is the lowest part of the number that goes on behind it. -/
theorem decodeUnsigned?_of_ge (hdigit : base64Value? c = some digit) (h : 32 ≤ digit) :
    decodeUnsigned? (c :: rest) =
      (decodeUnsigned? rest).map fun (high, rest) => (digit - 32 + 32 * high, rest) := by
  show (base64Value? c).bind _ = _
  rw [hdigit]
  refine (if_neg (Nat.not_lt_of_le h)).trans ?_
  cases decodeUnsigned? rest <;> rfl

/-- What is read as a number is a quantity, and all that stands behind it is left. -/
theorem decodeUnsigned?_eq_some_iff : decodeUnsigned? text = some (n, rest) ↔
    ∃ quantity : Quantity, text = quantity.text ++ rest ∧ quantity.number = n := by
  constructor
  · intro h
    induction text generalizing n with
    | nil => cases h
    | cons c text ih =>
      cases hvalue : base64Value? c with
      | none =>
        rw [decodeUnsigned?, hvalue] at h
        cases h
      | some digit =>
        obtain ⟨hlt, rfl⟩ := base64Value?_eq_some hvalue
        by_cases hlast : digit < 32
        · rw [decodeUnsigned?_of_lt hvalue hlast] at h
          cases h
          exact ⟨.single _ hlast, rfl, Quantity.number_single hlast⟩
        · rw [decodeUnsigned?_of_ge hvalue (Nat.le_of_not_lt hlast)] at h
          obtain ⟨⟨high, later⟩, hread, heq⟩ := Option.map_eq_some_iff.1 h
          cases heq
          obtain ⟨quantity, rfl, rfl⟩ := ih hread
          exact ⟨.cons digit ⟨Nat.le_of_not_lt hlast, hlt⟩ quantity, rfl, Quantity.number_cons _ _⟩
  · rintro ⟨quantity, rfl, rfl⟩
    induction quantity using Quantity.induction with
    | hsingle digit h =>
      rw [Quantity.number_single, Quantity.text_single, List.singleton_append]
      exact decodeUnsigned?_of_lt (base64Value?_base64Digit (Nat.lt_trans h (by decide))) h
    | hcons digit h quantity ih =>
      rw [Quantity.number_cons, Quantity.text_cons, List.cons_append,
        decodeUnsigned?_of_ge (base64Value?_base64Digit h.2) h.1, ih]
      rfl

/-- What is read as an integer is a quantity that says it, and all that stands behind it is left. -/
theorem decodeVlq?_eq_some_iff : decodeVlq? text = some (value, rest) ↔
    ∃ quantity : Quantity, text = quantity.text ++ rest ∧ quantity.value = value := by
  unfold decodeVlq?
  rw [Option.map_eq_some_iff]
  constructor
  · rintro ⟨⟨n, later⟩, hread, heq⟩
    cases heq
    obtain ⟨quantity, rfl, rfl⟩ := decodeUnsigned?_eq_some_iff.1 hread
    exact ⟨quantity, rfl, rfl⟩
  · rintro ⟨quantity, rfl, rfl⟩
    exact ⟨_, decodeUnsigned?_eq_some_iff.2 ⟨quantity, rfl, rfl⟩, rfl⟩

/-- Reading an integer takes at least one digit. -/
theorem length_decodeVlq? (h : decodeVlq? text = some (value, rest)) : rest.length < text.length := by
  obtain ⟨quantity, rfl, -⟩ := decodeVlq?_eq_some_iff.1 h
  have hpos := List.length_pos_iff.2 quantity.text_ne_nil
  rw [List.length_append]
  omega

end Reading

/-! ## Writing one integer -/

/-- What is written for a number is a quantity that makes it up. -/
theorem exists_quantity_encodeUnsigned (n : Nat) :
    ∃ quantity : Quantity, encodeUnsigned n = quantity.text ∧ quantity.number = n := by
  fun_induction encodeUnsigned n with
  | case1 n hlast =>
    have hdigit : n < 32 := by omega
    exact ⟨.single n hdigit, rfl, Quantity.number_single hdigit⟩
  | case2 n hmore ih =>
    obtain ⟨quantity, htext, hnumber⟩ := ih
    have hdigit : 32 ≤ n % 32 + 32 ∧ n % 32 + 32 < 64 := by omega
    refine ⟨.cons (n % 32 + 32) hdigit quantity, by rw [htext]; rfl, ?_⟩
    rw [Quantity.number_cons, hnumber, Nat.add_sub_cancel, Nat.mod_add_div]

/-- What is written for an integer is a quantity that says it. -/
theorem exists_quantity (value : Int) :
    ∃ quantity : Quantity, encodeVlq value = quantity.text ∧ quantity.value = value := by
  obtain ⟨quantity, htext, hnumber⟩ := exists_quantity_encodeUnsigned (zigzag value)
  exact ⟨quantity, htext, by rw [Quantity.value, hnumber, unzigzag_zigzag]⟩

/-- An integer is read back in front of any text. -/
theorem decodeVlq?_encodeVlq (value : Int) (rest : Text) :
    decodeVlq? (encodeVlq value ++ rest) = some (value, rest) := by
  obtain ⟨quantity, htext, hvalue⟩ := exists_quantity value
  exact decodeVlq?_eq_some_iff.2 ⟨quantity, by rw [htext], hvalue⟩

/-- Nothing but digits is written. -/
theorem mem_base64Digits_of_mem_encodeVlq {value : Int} {c : Char} (h : c ∈ encodeVlq value) :
    c ∈ base64Digits := by
  obtain ⟨quantity, htext, -⟩ := exists_quantity value
  exact quantity.mem_base64Digits (htext ▸ h)

theorem encodeVlq_ne_nil (value : Int) : encodeVlq value ≠ [] := by
  obtain ⟨quantity, htext, -⟩ := exists_quantity value
  exact htext ▸ quantity.text_ne_nil

/-! ## Several integers -/

/-- All integers of a text, if it consists of nothing else. -/
def decodeVlqs? (text : Text) : Option (List Int) :=
  if text = [] then some []
  else
    match _hread : decodeVlq? text with
    | none => none
    | some (value, rest) => (decodeVlqs? rest).map (value :: ·)
  termination_by text.length
  decreasing_by exact length_decodeVlq? _hread

/-- An integer that is read comes first, and all that stands behind it is read likewise. -/
theorem decodeVlqs?_of_decodeVlq? {text rest : Text} {value : Int}
    (h : decodeVlq? text = some (value, rest)) :
    decodeVlqs? text = (decodeVlqs? rest).map (value :: ·) := by
  have hne : text ≠ [] := by
    rintro rfl
    cases h
  rw [decodeVlqs?, if_neg hne]
  split
  · next hnone => cases hnone.symm.trans h
  · next later behind hsome =>
    cases hsome.symm.trans h
    rfl

/-- The digits of integers, one after the other. -/
def encodeVlqs (values : List Int) : Text := values.flatMap encodeVlq

/-- Integers that are written one after the other are read back. -/
theorem decodeVlqs?_encodeVlqs (values : List Int) :
    decodeVlqs? (encodeVlqs values) = some values := by
  induction values with
  | nil => rw [encodeVlqs, List.flatMap_nil, decodeVlqs?, if_pos rfl]
  | cons value values ih =>
    have hread := decodeVlq?_encodeVlq value (encodeVlqs values)
    show decodeVlqs? (encodeVlq value ++ encodeVlqs values) = _
    rw [decodeVlqs?_of_decodeVlq? hread, ih]
    rfl

/-- What is read as integers is a row of quantities that say them. -/
theorem decodeVlqs?_eq_some_iff {text : Text} {values : List Int} : decodeVlqs? text = some values ↔
    ∃ quantities : List Quantity, text = quantities.flatMap Quantity.text ∧
      quantities.map Quantity.value = values := by
  constructor
  · intro h
    fun_induction decodeVlqs? text generalizing values with
    | case1 =>
      cases h
      exact ⟨[], rfl, rfl⟩
    | case2 => cases h
    | case3 text hne value rest hread ih =>
      obtain ⟨quantity, rfl, rfl⟩ := decodeVlq?_eq_some_iff.1 hread
      obtain ⟨later, hlater, rfl⟩ := Option.map_eq_some_iff.1 h
      obtain ⟨quantities, rfl, rfl⟩ := ih hlater
      exact ⟨quantity :: quantities, rfl, rfl⟩
  · rintro ⟨quantities, rfl, rfl⟩
    induction quantities with
    | nil => exact decodeVlqs?_encodeVlqs []
    | cons quantity quantities ih =>
      have hread : decodeVlq? (quantity.text ++ quantities.flatMap Quantity.text) =
          some (quantity.value, quantities.flatMap Quantity.text) :=
        decodeVlq?_eq_some_iff.2 ⟨quantity, rfl, rfl⟩
      rw [List.flatMap_cons, decodeVlqs?_of_decodeVlq? hread, ih]
      rfl

/-- A quantity ends at the same place whatever stands behind it. -/
theorem Quantity.text_append_inj {quantity other : Quantity} {rest rest' : Text}
    (h : quantity.text ++ rest = other.text ++ rest') :
    quantity.text = other.text ∧ rest = rest' := by
  have hread : decodeVlq? (quantity.text ++ rest) = some (quantity.value, rest) :=
    decodeVlq?_eq_some_iff.2 ⟨quantity, rfl, rfl⟩
  have hother : decodeVlq? (quantity.text ++ rest) = some (other.value, rest') :=
    decodeVlq?_eq_some_iff.2 ⟨other, h, rfl⟩
  obtain ⟨-, rfl⟩ := Prod.mk.inj (Option.some.inj (hread.symm.trans hother))
  exact ⟨List.append_cancel_right h, rfl⟩

/-- The text of integers that are written one after the other is cut into quantities in one way only:
each of them is what was written for one of the integers. -/
theorem map_text_of_flatMap_text {quantities : List Quantity} {values : List Int}
    (h : quantities.flatMap Quantity.text = encodeVlqs values) :
    quantities.map Quantity.text = values.map encodeVlq := by
  induction values generalizing quantities with
  | nil =>
    cases quantities with
    | nil => rfl
    | cons quantity quantities => exact absurd (List.append_eq_nil_iff.1 h).1 quantity.text_ne_nil
  | cons value values ih =>
    obtain ⟨own, hown, -⟩ := exists_quantity value
    cases quantities with
    | nil => exact absurd (List.append_eq_nil_iff.1 h.symm).1 (encodeVlq_ne_nil value)
    | cons quantity quantities =>
      have hsplit : quantity.text ++ quantities.flatMap Quantity.text =
          own.text ++ encodeVlqs values := hown ▸ h
      obtain ⟨htext, hrest⟩ := Quantity.text_append_inj hsplit
      rw [List.map_cons, List.map_cons, ih hrest, htext, hown]

/-- Integers that are written one after the other are read back, with nothing of the text left over. The
text can be cut into quantities in one way only, at the ends of what was written for each integer, and
they say these integers. What is written for an integer has a last digit, which has no continuation
bit, and all digits in front of it have one. -/
theorem encodeVlqs_uniquely_decodable (values : List Int) :
    decodeVlqs? (encodeVlqs values) = some values ∧
      (∀ quantities : List Quantity, quantities.flatMap Quantity.text = encodeVlqs values →
        quantities.map Quantity.text = values.map encodeVlq ∧
          quantities.map Quantity.value = values) ∧
      ∀ value, ∃ quantity : Quantity, quantity.value = value ∧
        encodeVlq value = quantity.more.map base64Digit ++ [base64Digit quantity.last] := by
  refine ⟨decodeVlqs?_encodeVlqs values, fun quantities h => ⟨map_text_of_flatMap_text h, ?_⟩,
    fun value => ?_⟩
  · have hread : decodeVlqs? (encodeVlqs values) = some (quantities.map Quantity.value) :=
      decodeVlqs?_eq_some_iff.2 ⟨quantities, h.symm, rfl⟩
    exact Option.some.inj (hread.symm.trans (decodeVlqs?_encodeVlqs values))
  · obtain ⟨quantity, htext, hvalue⟩ := exists_quantity value
    exact ⟨quantity, hvalue, htext⟩

/-- The digits of 16, of -1 and of a number whose only bit stands thirteen digits above its sign. -/
def mixedQuantities : List Quantity :=
  [⟨[32], 1, by decide, by decide⟩, ⟨[], 3, by decide, by decide⟩,
    ⟨33 :: List.replicate 12 32, 1, by decide, by decide⟩]

theorem encodeVlqs_uniquely_decodable_mixed :
    mixedQuantities.flatMap Quantity.text = encodeVlqs [16, -1, -18446744073709551616] ∧
      decodeVlqs? "gBDhggggggggggggB".toList = some [16, -1, -18446744073709551616] ∧
      mixedQuantities.map Quantity.text =
        ["gB".toList, "D".toList, "hggggggggggggB".toList] ∧
      mixedQuantities.map Quantity.value = [16, -1, -18446744073709551616] := by
  have htext : encodeVlqs [16, -1, -18446744073709551616] = "gBDhggggggggggggB".toList := by decide +kernel
  have hquantities : mixedQuantities.flatMap Quantity.text = encodeVlqs [16, -1, -18446744073709551616] := by
    decide +kernel
  obtain ⟨hread, hcut, -⟩ := encodeVlqs_uniquely_decodable [16, -1, -18446744073709551616]
  refine ⟨hquantities, htext ▸ hread, ?_, (hcut mixedQuantities hquantities).2⟩
  exact (hcut mixedQuantities hquantities).1.trans (by decide +kernel)

end PersistedQueries.Splice
