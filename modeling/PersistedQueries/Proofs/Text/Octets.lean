import Mathlib.Data.List.Basic
import PersistedQueries.Text.Lines
import PersistedQueries.Text.Utf8

/-!
# Texts from their octets

What is written to a file is the octets of a text, and what is read from it is the text of its
octets, with the line ends made line feeds.

- `Utf8.decodeFrom_encodeChar`: the octets of a character are read as the character.
- `Utf8.decode_encode`: so the octets of a text are read as the text.
- `Utf8.encode_of_decode`: and octets that are read as a text are the octets of the text.
- `Text.normalizeNewlines_of_not_mem`: a text without carriage returns keeps its line ends.
- `normalizeNewlines_of_decode`: so octets without carriage returns are those of the text that is
  read.
-/

namespace PersistedQueries

namespace Utf8

variable {fuel position count low high value n : Nat} {first : UInt8} {octets rest : List UInt8}

theorem toNat_toUInt8 (h : n < 0x100) : n.toUInt8.toNat = n := by
  rw [Nat.toUInt8, UInt8.toNat_ofNat', Nat.mod_eq_of_lt h]

/-- An octet that continues a sequence adds its six bits. -/
theorem tailOctets_cons {octet : Nat} {result : Nat × List UInt8} (hlow : low ≤ octet)
    (hhigh : octet ≤ high) (hoctet : octet < 0x100)
    (h : tailOctets count 0x80 0xBF (value * 0x40 + octet % 0x40) rest = .ok result) :
    tailOctets (count + 1) low high value (octet.toUInt8 :: rest) = .ok result := by
  rw [tailOctets, toNat_toUInt8 hoctet, if_pos ⟨hlow, hhigh⟩, h]

/-- A sequence of several octets is read as the character that its bits make up. -/
theorem decodeFrom_sequence (hfirst : 0x80 ≤ first.toNat)
    (hlead : lead first = some (count, low, high))
    (htail : tailOctets count low high (leadBits count first) octets = .ok (value, rest)) :
    decodeFrom (fuel + 1) position (first :: octets) =
      (decodeFrom fuel (position + 1 + count) rest).map (Char.ofNat value :: ·) := by
  rw [decodeFrom, if_neg (Nat.not_lt.2 hfirst), hlead]
  dsimp only
  rw [htail]

theorem decodeFrom_two (hlow : 0x80 ≤ n) (hhigh : n < 0x800) :
    decodeFrom (fuel + 1) position
        ((0xC0 + n / 0x40).toUInt8 :: (0x80 + n % 0x40).toUInt8 :: rest) =
      (decodeFrom fuel (position + 1 + 1) rest).map (Char.ofNat n :: ·) := by
  have hfirst : (0xC0 + n / 0x40).toUInt8.toNat = 0xC0 + n / 0x40 := toNat_toUInt8 (by omega)
  have hlead : lead (0xC0 + n / 0x40).toUInt8 = some (1, 0x80, 0xBF) := by
    unfold lead
    rw [hfirst, if_neg (by omega), if_pos (by omega)]
  refine decodeFrom_sequence (by omega) hlead (tailOctets_cons (by omega) (by omega) (by omega) ?_)
  have hvalue : (0xC0 + n / 0x40) % 0x20 * 0x40 + (0x80 + n % 0x40) % 0x40 = n := by omega
  rw [leadBits, if_pos rfl, hfirst, hvalue]
  rfl

theorem decodeFrom_three (hlow : 0x800 ≤ n) (hhigh : n < 0xD800 ∨ 0xDFFF < n ∧ n < 0x10000) :
    decodeFrom (fuel + 1) position ((0xE0 + n / 0x1000).toUInt8 ::
        (0x80 + n / 0x40 % 0x40).toUInt8 :: (0x80 + n % 0x40).toUInt8 :: rest) =
      (decodeFrom fuel (position + 1 + 2) rest).map (Char.ofNat n :: ·) := by
  have hfirst : (0xE0 + n / 0x1000).toUInt8.toNat = 0xE0 + n / 0x1000 := toNat_toUInt8 (by omega)
  -- the first octet leaves out what is written shorter, and the surrogates
  obtain ⟨low, high, hlead, hnext⟩ : ∃ low high,
      lead (0xE0 + n / 0x1000).toUInt8 = some (2, low, high) ∧
        low ≤ 0x80 + n / 0x40 % 0x40 ∧ 0x80 + n / 0x40 % 0x40 ≤ high := by
    unfold lead
    rw [hfirst, if_neg (by omega), if_neg (by omega)]
    split
    · exact ⟨_, _, rfl, by omega, by omega⟩
    split
    · exact ⟨_, _, rfl, by omega, by omega⟩
    · rw [if_pos (by omega)]
      exact ⟨_, _, rfl, by omega, by omega⟩
  refine decodeFrom_sequence (by omega) hlead (tailOctets_cons hnext.1 hnext.2 (by omega)
    (tailOctets_cons (by omega) (by omega) (by omega) ?_))
  have hvalue : ((0xE0 + n / 0x1000) % 0x10 * 0x40 + (0x80 + n / 0x40 % 0x40) % 0x40) * 0x40 +
      (0x80 + n % 0x40) % 0x40 = n := by omega
  rw [leadBits, if_neg (by decide), if_pos rfl, hfirst, hvalue]
  rfl

theorem decodeFrom_four (hlow : 0x10000 ≤ n) (hhigh : n < 0x110000) :
    decodeFrom (fuel + 1) position ((0xF0 + n / 0x40000).toUInt8 ::
        (0x80 + n / 0x1000 % 0x40).toUInt8 :: (0x80 + n / 0x40 % 0x40).toUInt8 ::
          (0x80 + n % 0x40).toUInt8 :: rest) =
      (decodeFrom fuel (position + 1 + 3) rest).map (Char.ofNat n :: ·) := by
  have hfirst : (0xF0 + n / 0x40000).toUInt8.toNat = 0xF0 + n / 0x40000 :=
    toNat_toUInt8 (by omega)
  obtain ⟨low, high, hlead, hnext⟩ : ∃ low high,
      lead (0xF0 + n / 0x40000).toUInt8 = some (3, low, high) ∧
        low ≤ 0x80 + n / 0x1000 % 0x40 ∧ 0x80 + n / 0x1000 % 0x40 ≤ high := by
    unfold lead
    rw [hfirst, if_neg (by omega), if_neg (by omega), if_neg (by omega), if_neg (by omega),
      if_neg (by omega)]
    split
    · exact ⟨_, _, rfl, by omega, by omega⟩
    split
    · exact ⟨_, _, rfl, by omega, by omega⟩
    · rw [if_pos (by omega)]
      exact ⟨_, _, rfl, by omega, by omega⟩
  refine decodeFrom_sequence (by omega) hlead (tailOctets_cons hnext.1 hnext.2 (by omega)
    (tailOctets_cons (by omega) (by omega) (by omega)
      (tailOctets_cons (by omega) (by omega) (by omega) ?_)))
  have hvalue : (((0xF0 + n / 0x40000) % 0x08 * 0x40 + (0x80 + n / 0x1000 % 0x40) % 0x40) * 0x40 +
      (0x80 + n / 0x40 % 0x40) % 0x40) * 0x40 + (0x80 + n % 0x40) % 0x40 = n := by omega
  rw [leadBits, if_neg (by decide), if_neg (by decide), hfirst, hvalue]
  rfl

/-- The octets of a character are read as the character. -/
theorem decodeFrom_encodeChar (c : Char) :
    ∃ behind, decodeFrom (fuel + 1) position (encodeChar c ++ rest) =
      (decodeFrom fuel behind rest).map (c :: ·) := by
  have hvalid : c.toNat < 0xD800 ∨ 0xDFFF < c.toNat ∧ c.toNat < 0x110000 := c.valid
  have hchar : Char.ofNat c.toNat = c := Char.ofNat_toNat c
  unfold encodeChar
  dsimp only
  generalize c.toNat = n at hvalid hchar
  subst hchar
  split
  · next hone =>
    refine ⟨position + 1, ?_⟩
    rw [List.singleton_append, decodeFrom, toNat_toUInt8 (by omega), if_pos hone]
  split
  · exact ⟨_, decodeFrom_two (by omega) (by omega)⟩
  split
  · exact ⟨_, decodeFrom_three (by omega) (by omega)⟩
  · exact ⟨_, decodeFrom_four (by omega) (by omega)⟩

theorem length_le_encode (text : Text) : text.length ≤ (encode text).length := by
  induction text with
  | nil => exact Nat.zero_le _
  | cons c text ih =>
    have hchar : 1 ≤ (encodeChar c).length := by
      unfold encodeChar
      dsimp only
      split_ifs <;> exact Nat.succ_pos _
    rw [List.length_cons, Nat.add_comm, encode, List.flatMap_cons, List.length_append]
    exact Nat.add_le_add hchar ih

theorem decodeFrom_encode {text : Text} (h : text.length ≤ fuel) :
    decodeFrom fuel position (encode text) = .ok text := by
  induction text generalizing fuel position with
  | nil => cases fuel <;> rfl
  | cons c text ih =>
    obtain ⟨fewer, rfl⟩ := Nat.exists_eq_add_one.2 (Nat.zero_lt_of_lt h)
    have hencode : encode (c :: text) = encodeChar c ++ encode text := List.flatMap_cons
    obtain ⟨behind, hread⟩ := @decodeFrom_encodeChar fewer position (encode text) c
    rw [hencode, hread, ih (Nat.le_of_succ_le_succ h)]
    rfl

/-- The octets of a text are read as the text. -/
theorem decode_encode (text : Text) : decode (encode text) = .ok text :=
  decodeFrom_encode (length_le_encode text)

/-! ## Texts that octets are read as -/

/-- A sequence that begins with an octet has as many more octets as its range says, and the first of
them leaves out what is written shorter, the surrogates and what is no code point. -/
theorem lead_eq_some (h : lead first = some (count, low, high)) :
    0xC2 ≤ first.toNat ∧ 0x80 ≤ low ∧ high ≤ 0xBF ∧
      (count = 1 ∧ first.toNat < 0xE0 ∨
        count = 2 ∧ 0xE0 ≤ first.toNat ∧ first.toNat < 0xF0 ∧ (first.toNat = 0xE0 → 0xA0 ≤ low) ∧
          (first.toNat = 0xED → high ≤ 0x9F) ∨
        count = 3 ∧ 0xF0 ≤ first.toNat ∧ first.toNat ≤ 0xF4 ∧ (first.toNat = 0xF0 → 0x90 ≤ low) ∧
          (first.toNat = 0xF4 → high ≤ 0x8F)) := by
  unfold lead at h
  dsimp only at h
  split_ifs at h <;> cases h <;> omega

/-- The octet that continues a sequence, and what is read after it. -/
theorem tailOctets_eq_ok {result : Nat × List UInt8}
    (h : tailOctets (count + 1) low high value octets = .ok result) :
    ∃ octet behind, octets = octet :: behind ∧ low ≤ octet.toNat ∧ octet.toNat ≤ high ∧
      tailOctets count 0x80 0xBF (value * 0x40 + octet.toNat % 0x40) behind = .ok result := by
  cases octets with
  | nil => cases h
  | cons octet behind =>
    rw [tailOctets] at h
    split at h
    · next hrange =>
      refine ⟨octet, behind, rfl, hrange.1, hrange.2, ?_⟩
      split at h
      · next htail => rwa [← h]
      · cases h
    · cases h

theorem toUInt8_eq (octet : UInt8) (h : n = octet.toNat) : n.toUInt8 = octet := by
  subst h
  exact UInt8.ofNat_toNat

theorem toNat_ofNat_char (h : n < 0xD800 ∨ 0xDFFF < n ∧ n < 0x110000) :
    (Char.ofNat n).toNat = n := by
  have hvalid : n.isValidChar := h
  unfold Char.ofNat
  rw [dif_pos hvalid]
  rfl

/-- The octets that are read as a character are those of the character. -/
theorem encodeChar_sequence (hlead : lead first = some (count, low, high))
    (htail : tailOctets count low high (leadBits count first) octets = .ok (value, rest)) :
    encodeChar (Char.ofNat value) ++ rest = first :: octets := by
  obtain ⟨hfirst, hlow, hhigh, hcount⟩ := lead_eq_some hlead
  have hlimit := first.toNat_lt
  rcases hcount with ⟨rfl, hfirst'⟩ | ⟨rfl, hfirst', hfirst'', hshort, hlong⟩ |
    ⟨rfl, hfirst', hfirst'', hshort, hlong⟩
  · obtain ⟨second, behind, rfl, hsecond, hsecond', htail⟩ := tailOctets_eq_ok htail
    obtain ⟨rfl, rfl⟩ := Prod.mk.inj (Except.ok.inj htail)
    rw [leadBits, if_pos rfl]
    unfold encodeChar
    rw [toNat_ofNat_char (by omega)]
    dsimp only
    rw [if_neg (by omega), if_pos (by omega), toUInt8_eq first (by omega),
      toUInt8_eq second (by omega)]
    rfl
  · obtain ⟨second, behind, rfl, hsecond, hsecond', htail⟩ := tailOctets_eq_ok htail
    obtain ⟨third, behind, rfl, hthird, hthird', htail⟩ := tailOctets_eq_ok htail
    obtain ⟨rfl, rfl⟩ := Prod.mk.inj (Except.ok.inj htail)
    rw [leadBits, if_neg (by decide), if_pos rfl]
    unfold encodeChar
    rw [toNat_ofNat_char (by omega)]
    dsimp only
    rw [if_neg (by omega), if_neg (by omega), if_pos (by omega), toUInt8_eq first (by omega),
      toUInt8_eq second (by omega), toUInt8_eq third (by omega)]
    rfl
  · obtain ⟨second, behind, rfl, hsecond, hsecond', htail⟩ := tailOctets_eq_ok htail
    obtain ⟨third, behind, rfl, hthird, hthird', htail⟩ := tailOctets_eq_ok htail
    obtain ⟨fourth, behind, rfl, hfourth, hfourth', htail⟩ := tailOctets_eq_ok htail
    obtain ⟨rfl, rfl⟩ := Prod.mk.inj (Except.ok.inj htail)
    rw [leadBits, if_neg (by decide), if_neg (by decide)]
    unfold encodeChar
    rw [toNat_ofNat_char (by omega)]
    dsimp only
    rw [if_neg (by omega), if_neg (by omega), if_neg (by omega), toUInt8_eq first (by omega),
      toUInt8_eq second (by omega), toUInt8_eq third (by omega), toUInt8_eq fourth (by omega)]
    rfl

theorem length_tailOctets (h : tailOctets count low high value octets = .ok (n, rest)) :
    rest.length ≤ octets.length := by
  induction count generalizing low high value octets with
  | zero =>
    cases h
    exact Nat.le_refl _
  | succ count ih =>
    obtain ⟨octet, behind, rfl, -, -, htail⟩ := tailOctets_eq_ok h
    exact Nat.le_succ_of_le (ih htail)

theorem encode_decodeFrom {text : Text} (hfuel : octets.length ≤ fuel)
    (h : decodeFrom fuel position octets = .ok text) : encode text = octets := by
  induction fuel generalizing position octets text with
  | zero =>
    obtain rfl := List.length_eq_zero_iff.1 (Nat.le_zero.1 hfuel)
    cases h
    rfl
  | succ fuel ih =>
    cases octets with
    | nil =>
      cases h
      rfl
    | cons first rest =>
      have hrest : rest.length ≤ fuel := Nat.le_of_succ_le_succ hfuel
      rw [decodeFrom] at h
      split at h
      · next hfirst =>
        cases hread : decodeFrom fuel (position + 1) rest with
        | error fault =>
          rw [hread] at h
          cases h
        | ok text =>
          rw [hread] at h
          cases h
          show encodeChar (Char.ofNat first.toNat) ++ encode text = first :: rest
          unfold encodeChar
          rw [toNat_ofNat_char (by omega)]
          dsimp only
          rw [if_pos hfirst, toUInt8_eq first rfl, ih hrest hread]
          rfl
      · split at h
        · cases h
        next count low high hlead =>
        split at h
        · cases h
        next value rest' htail =>
        have hrest' : rest'.length ≤ fuel := Nat.le_trans (length_tailOctets htail) hrest
        cases hread : decodeFrom fuel (position + 1 + count) rest' with
        | error fault =>
          rw [hread] at h
          cases h
        | ok text =>
          rw [hread] at h
          cases h
          show encodeChar (Char.ofNat value) ++ encode text = first :: rest
          rw [ih hrest' hread]
          exact encodeChar_sequence hlead htail

/-- The octets that are read as a text are those of the text. -/
theorem encode_of_decode {octets : List UInt8} {text : Text} (h : decode octets = .ok text) :
    encode text = octets :=
  encode_decodeFrom (Nat.le_refl _) h

end Utf8

/-- A text without carriage returns keeps its line ends. -/
theorem Text.normalizeNewlines_of_not_mem {text : Text} (h : '\r' ∉ text) :
    normalizeNewlines text = text := by
  induction text with
  | nil => rfl
  | cons c text ih =>
    obtain ⟨hc, htext⟩ := not_or.1 (mt List.mem_cons.2 h)
    rw [normalizeNewlines, ih htext]
    · rintro rest rfl
      exact absurd rfl hc
    · rintro rfl
      exact absurd rfl hc

/-- Octets without carriage returns are those of their text, which is read as it is. -/
theorem normalizeNewlines_of_decode {octets : List UInt8} {text : Text}
    (h : Utf8.decode octets = .ok text) (hreturn : (13 : UInt8) ∉ octets) :
    Text.normalizeNewlines text = text ∧ Utf8.encode text = octets := by
  have hencode := Utf8.encode_of_decode h
  refine ⟨Text.normalizeNewlines_of_not_mem fun hmem => hreturn ?_, hencode⟩
  rw [← hencode]
  exact List.mem_flatMap.2 ⟨'\r', hmem, by decide⟩

end PersistedQueries
