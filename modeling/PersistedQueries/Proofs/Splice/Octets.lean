import PersistedQueries.Proofs.Splice.Exactness
import PersistedQueries.Proofs.Text.Octets

/-!
# Edits of octets

A file is read and written as octets, but its call sites have offsets that count characters. The
octets of a text with some spans replaced are the octets of the text with the octets of these spans
replaced, and all other octets are kept.

- `octetOffset`: the number of octets in front of a character.
- `replacedOctets`: octets with some spans of them replaced.
- `encode_replacedFrom`: replacing spans of a text replaces these spans of its octets.
-/

namespace PersistedQueries.Splice

/-- The number of octets in front of the character at an offset. -/
def octetOffset (text : Text) (offset : Nat) : Nat := (Utf8.encode (text.take offset)).length

/-- A span of octets and the octets that take its place. -/
structure OctetEdit where
  span : Span
  content : List UInt8

/-- The octets that an edit of a text replaces, and those that it puts there. -/
def Edit.octets (text : Text) (edit : Edit) : OctetEdit where
  span := ⟨octetOffset text edit.span.start, octetOffset text edit.span.stop⟩
  content := Utf8.encode edit.content

/-- Octets from an offset on, in which the spans of some edits, given in order, are replaced. -/
def replacedOctets (base : List UInt8) (offset : Nat) : List OctetEdit → List UInt8
  | [] => base.drop offset
  | edit :: rest =>
    (base.drop offset).take (edit.span.start - offset) ++ edit.content ++
      replacedOctets base edit.span.stop rest

theorem encode_append (text more : Text) :
    Utf8.encode (text ++ more) = Utf8.encode text ++ Utf8.encode more :=
  List.flatMap_append

/-- The octets behind the first characters. -/
theorem encode_drop (text : Text) (offset : Nat) :
    Utf8.encode (text.drop offset) = (Utf8.encode text).drop (octetOffset text offset) := by
  conv_rhs => rw [← List.take_append_drop offset text, encode_append]
  unfold octetOffset
  rw [List.take_append_drop, List.drop_left]

theorem octetOffset_add (text : Text) (offset more : Nat) :
    octetOffset text (offset + more) =
      octetOffset text offset + octetOffset (text.drop offset) more := by
  unfold octetOffset
  rw [List.take_add, encode_append, List.length_append]

/-- The octets of a part of a text. -/
theorem encode_slice (text : Text) (start stop : Nat) :
    Utf8.encode (Text.slice text ⟨start, stop⟩) =
      ((Utf8.encode text).drop (octetOffset text start)).take
        (octetOffset text stop - octetOffset text start) := by
  unfold Text.slice
  rw [← encode_drop]
  rcases Nat.le_total start stop with h | h
  · obtain ⟨more, rfl⟩ := Nat.exists_eq_add_of_le h
    rw [octetOffset_add, Nat.add_sub_cancel_left, Nat.add_sub_cancel_left]
    conv_rhs => rw [← List.take_append_drop more (text.drop start), encode_append]
    unfold octetOffset
    rw [List.take_append_drop, List.take_left]
  · -- an empty part has no octets
    obtain ⟨more, rfl⟩ := Nat.exists_eq_add_of_le h
    rw [octetOffset_add, Nat.sub_eq_zero_of_le (Nat.le_add_right _ _),
      Nat.sub_eq_zero_of_le (Nat.le_add_right _ _)]
    rfl

/-- **Edits of octets.** A text with some spans replaced has the octets of the text with the octets
of these spans replaced. -/
theorem encode_replacedFrom (text : Text) (offset : Nat) (edits : List Edit) :
    Utf8.encode (replacedFrom text offset edits) =
      replacedOctets (Utf8.encode text) (octetOffset text offset)
        (edits.map (Edit.octets text)) := by
  induction edits generalizing offset with
  | nil => exact encode_drop text offset
  | cons edit rest ih =>
    rw [replacedFrom, encode_append, encode_append, encode_slice, ih]
    rfl

end PersistedQueries.Splice
