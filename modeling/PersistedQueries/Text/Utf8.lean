import PersistedQueries.Text.Basic

/-!
# UTF-8

Files and request bodies are octets; the texts in them are encoded in UTF-8.

- `encode`: the octets of a text.
- `decode`: the text of a list of octets, or the first place where they are no UTF-8.
- `Fault.message`: the words for such a place. A sequence that is cut off is told apart from
  an octet that starts no sequence and from one that cannot continue the sequence begun.
-/

namespace PersistedQueries.Utf8

/-- The octets of one character. -/
def encodeChar (c : Char) : List UInt8 :=
  let n := c.toNat
  if n < 0x80 then [n.toUInt8]
  else if n < 0x800 then [(0xC0 + n / 0x40).toUInt8, (0x80 + n % 0x40).toUInt8]
  else if n < 0x10000 then
    [(0xE0 + n / 0x1000).toUInt8, (0x80 + n / 0x40 % 0x40).toUInt8, (0x80 + n % 0x40).toUInt8]
  else
    [(0xF0 + n / 0x40000).toUInt8, (0x80 + n / 0x1000 % 0x40).toUInt8,
     (0x80 + n / 0x40 % 0x40).toUInt8, (0x80 + n % 0x40).toUInt8]

/-- The octets of a text. -/
def encode (text : Text) : List UInt8 := text.flatMap encodeChar

/-- The octets of a string. -/
def encodeString (s : String) : List UInt8 := encode s.toList

/-- Why octets are no UTF-8. -/
inductive FaultKind where
  /-- The octet starts no sequence. -/
  | invalidStart
  /-- The sequence begun goes on with an octet that cannot continue it. -/
  | invalidContinuation
  /-- The octets end within a sequence. -/
  | unexpectedEnd
  deriving DecidableEq, Repr

/-- The first place where octets are no UTF-8: the sequence that begins there, as far as it
goes. -/
structure Fault where
  kind : FaultKind
  /-- The offset of the octet that begins the sequence. -/
  position : Nat
  /-- The octets of the sequence that were read. -/
  octets : List UInt8
  deriving DecidableEq, Repr

/-- Two lower-case hexadecimal digits. -/
def hexPair (octet : UInt8) : String :=
  String.ofList [Nat.digitChar (octet.toNat / 16), Nat.digitChar (octet.toNat % 16)]

/-- The words for a fault: one octet is shown, several are named by their positions. -/
def Fault.message (fault : Fault) : String :=
  let reason :=
    match fault.kind with
    | .invalidStart => "invalid start byte"
    | .invalidContinuation => "invalid continuation byte"
    | .unexpectedEnd => "unexpected end of data"
  match fault.octets with
  | [octet] =>
    s!"'utf-8' codec can't decode byte 0x{hexPair octet} in position {fault.position}: {reason}"
  | octets =>
    let last := fault.position + octets.length - 1
    s!"'utf-8' codec can't decode bytes in position {fault.position}-{last}: {reason}"

/-- The octets that may follow the first octet of a longer sequence, by that octet: how many
follow, and the least and the greatest that may come next. -/
def lead (octet : UInt8) : Option (Nat × Nat × Nat) :=
  let n := octet.toNat
  if n < 0xC2 then none
  else if n < 0xE0 then some (1, 0x80, 0xBF)
  else if n = 0xE0 then some (2, 0xA0, 0xBF)
  else if n = 0xED then some (2, 0x80, 0x9F)
  else if n < 0xF0 then some (2, 0x80, 0xBF)
  else if n = 0xF0 then some (3, 0x90, 0xBF)
  else if n < 0xF4 then some (3, 0x80, 0xBF)
  else if n = 0xF4 then some (3, 0x80, 0x8F)
  else none

/-- The payload bits of a first octet that `count` octets follow. -/
def leadBits (count : Nat) (octet : UInt8) : Nat :=
  if count = 1 then octet.toNat % 0x20 else if count = 2 then octet.toNat % 0x10 else octet.toNat % 0x08

/-- Read `count` more octets of a sequence: the code point and the rest, or the kind of fault
and the octets read. -/
def tailOctets : (count : Nat) → (low high value : Nat) → List UInt8 →
    Except (FaultKind × List UInt8) (Nat × List UInt8)
  | 0, _, _, value, rest => .ok (value, rest)
  | _ + 1, _, _, _, [] => .error (.unexpectedEnd, [])
  | count + 1, low, high, value, octet :: rest =>
    if low ≤ octet.toNat ∧ octet.toNat ≤ high then
      match tailOctets count 0x80 0xBF (value * 0x40 + octet.toNat % 0x40) rest with
      | .ok result => .ok result
      | .error (kind, octets) => .error (kind, octet :: octets)
    else .error (.invalidContinuation, [])

/-- Decode octets from an offset on. The fuel bounds the number of characters. -/
def decodeFrom : (fuel position : Nat) → List UInt8 → Except Fault Text
  | _, _, [] => .ok []
  | 0, _, _ => .ok []
  | fuel + 1, position, first :: rest =>
    if first.toNat < 0x80 then
      (decodeFrom fuel (position + 1) rest).map (Char.ofNat first.toNat :: ·)
    else
      match lead first with
      | none => .error ⟨.invalidStart, position, [first]⟩
      | some (count, low, high) =>
        match tailOctets count low high (leadBits count first) rest with
        | .error (kind, octets) => .error ⟨kind, position, first :: octets⟩
        | .ok (value, rest') =>
          (decodeFrom fuel (position + 1 + count) rest').map (Char.ofNat value :: ·)

/-- The text of a list of octets. -/
def decode (octets : List UInt8) : Except Fault Text := decodeFrom octets.length 0 octets

end PersistedQueries.Utf8
