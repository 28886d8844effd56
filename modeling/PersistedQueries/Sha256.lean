/-!
# SHA-256

The hash function of FIPS 180-4 on lists of octets.

- `pad`: the message, a one bit, zeros, and the bit length in eight octets; its length is a
  multiple of 64 octets.
- `expand`: the 64 words of the message schedule of a block.
- `compress`: the 64 rounds on the eight working words.
- `hexDigest`: the digest of a message in lower-case hexadecimal digits.
-/

namespace PersistedQueries.Sha256

/-- The first 32 bits of the fractional parts of the cube roots of the first 64 primes. -/
def roundConstants : List UInt32 :=
  [0x428a2f98, 0x71374491, 0xb5c0fbcf, 0xe9b5dba5, 0x3956c25b, 0x59f111f1, 0x923f82a4, 0xab1c5ed5,
   0xd807aa98, 0x12835b01, 0x243185be, 0x550c7dc3, 0x72be5d74, 0x80deb1fe, 0x9bdc06a7, 0xc19bf174,
   0xe49b69c1, 0xefbe4786, 0x0fc19dc6, 0x240ca1cc, 0x2de92c6f, 0x4a7484aa, 0x5cb0a9dc, 0x76f988da,
   0x983e5152, 0xa831c66d, 0xb00327c8, 0xbf597fc7, 0xc6e00bf3, 0xd5a79147, 0x06ca6351, 0x14292967,
   0x27b70a85, 0x2e1b2138, 0x4d2c6dfc, 0x53380d13, 0x650a7354, 0x766a0abb, 0x81c2c92e, 0x92722c85,
   0xa2bfe8a1, 0xa81a664b, 0xc24b8b70, 0xc76c51a3, 0xd192e819, 0xd6990624, 0xf40e3585, 0x106aa070,
   0x19a4c116, 0x1e376c08, 0x2748774c, 0x34b0bcb5, 0x391c0cb3, 0x4ed8aa4a, 0x5b9cca4f, 0x682e6ff3,
   0x748f82ee, 0x78a5636f, 0x84c87814, 0x8cc70208, 0x90befffa, 0xa4506ceb, 0xbef9a3f7, 0xc67178f2]

/-- The eight working words. -/
structure State where
  a : UInt32
  b : UInt32
  c : UInt32
  d : UInt32
  e : UInt32
  f : UInt32
  g : UInt32
  h : UInt32

/-- The first 32 bits of the fractional parts of the square roots of the first eight primes. -/
def State.initial : State :=
  ⟨0x6a09e667, 0xbb67ae85, 0x3c6ef372, 0xa54ff53a, 0x510e527f, 0x9b05688c, 0x1f83d9ab, 0x5be0cd19⟩

/-- The words of two states added place by place. -/
def State.add (s t : State) : State :=
  ⟨s.a + t.a, s.b + t.b, s.c + t.c, s.d + t.d, s.e + t.e, s.f + t.f, s.g + t.g, s.h + t.h⟩

/-- Rotate a word to the right by `n` places. -/
def rotate (x n : UInt32) : UInt32 := (x >>> n) ||| (x <<< (32 - n))

/-- A number in four octets, the highest first. -/
def wordOctets (x : UInt32) : List UInt8 :=
  [(x >>> 24).toUInt8, (x >>> 16).toUInt8, (x >>> 8).toUInt8, x.toUInt8]

/-- A number in `n` octets, the highest first. -/
def octetsOf : Nat → Nat → List UInt8
  | 0, _ => []
  | n + 1, x => octetsOf n (x / 256) ++ [x.toUInt8]

/-- The message, a one bit, zeros, and the bit length. -/
def pad (message : List UInt8) : List UInt8 :=
  let length := message.length
  message ++ 0x80 :: List.replicate ((119 - length % 64) % 64) 0 ++ octetsOf 8 (length * 8)

/-- The words of a list of octets, four octets a word. -/
def wordsOf : List UInt8 → List UInt32
  | p :: q :: r :: s :: rest =>
    ((p.toUInt32 <<< 24) ||| (q.toUInt32 <<< 16) ||| (r.toUInt32 <<< 8) ||| s.toUInt32) ::
      wordsOf rest
  | _ => []

/-- The message schedule: the words of a block and 48 more. -/
def expand (block : List UInt8) : List UInt32 :=
  let extend (words : Array UInt32) (_ : Nat) : Array UInt32 :=
    let word (back : Nat) := words.getD (words.size - back) 0
    let x := word 15
    let y := word 2
    let s0 := rotate x 7 ^^^ rotate x 18 ^^^ (x >>> 3)
    let s1 := rotate y 17 ^^^ rotate y 19 ^^^ (y >>> 10)
    words.push (word 16 + s0 + word 7 + s1)
  ((List.range 48).foldl extend (wordsOf block).toArray).toList

/-- One round with its constant and its word of the schedule. -/
def round (s : State) (constant word : UInt32) : State :=
  let s1 := rotate s.e 6 ^^^ rotate s.e 11 ^^^ rotate s.e 25
  let choice := (s.e &&& s.f) ^^^ ((~~~s.e) &&& s.g)
  let t1 := s.h + s1 + choice + constant + word
  let s0 := rotate s.a 2 ^^^ rotate s.a 13 ^^^ rotate s.a 22
  let majority := (s.a &&& s.b) ^^^ (s.a &&& s.c) ^^^ (s.b &&& s.c)
  ⟨t1 + s0 + majority, s.a, s.b, s.c, s.d + t1, s.e, s.f, s.g⟩

/-- Mix one block into the state. -/
def compress (s : State) (block : List UInt8) : State :=
  s.add ((roundConstants.zip (expand block)).foldl (fun t (k, w) => round t k w) s)

/-- Mix `n` blocks of 64 octets into the state. -/
def absorb : Nat → List UInt8 → State → State
  | 0, _, s => s
  | n + 1, octets, s => absorb n (octets.drop 64) (compress s (octets.take 64))

/-- The digest of a message in octets. -/
def digest (message : List UInt8) : List UInt8 :=
  let padded := pad message
  let s := absorb (padded.length / 64) padded State.initial
  [s.a, s.b, s.c, s.d, s.e, s.f, s.g, s.h].flatMap wordOctets

/-- An octet in two lower-case hexadecimal digits. -/
def hexOctet (octet : UInt8) : List Char :=
  [Nat.digitChar (octet.toNat / 16), Nat.digitChar (octet.toNat % 16)]

/-- The digest of a message in 64 lower-case hexadecimal digits. -/
def hexDigest (message : List UInt8) : String :=
  String.ofList ((digest message).flatMap hexOctet)

end PersistedQueries.Sha256
