import MLDSA.Codec.Hints
import MLDSA.Codec.Poly

/-! # Signatures as bytes

A signature is malformed only by its hints. Since those have one encoding, a byte string that
decodes is the encoding of what it decodes to. -/

namespace MLDSA

/-- The buckets of a commitment, as they are hashed. -/
def PolyVec.encodeW1 (w1 : PolyVec rows) : Octets commitmentBytes :=
  Octets.join (w1.polys.map Poly.encodeW1)

/-- A signature: the hash that fixes the challenge, the response and the hints. -/
structure Signature where
  challenge : Octets challengeBytes
  z : PolyVec columns
  hints : HintVec
deriving DecidableEq

namespace Signature

def encode (s : Signature) : Octets signatureBytes :=
  s.challenge ++ Octets.join (s.z.polys.map Poly.encodeZ) ++ s.hints.encode

/-- The signature, if its hints are well formed. -/
def decode? (b : Octets signatureBytes) : Option Signature := do
  let hints ← HintVec.decode? (b.slice 3248 hintBytes (by decide))
  return {
    challenge := b.slice 0 challengeBytes (by decide)
    z := ⟨(b.slice 48 (columns * zBytes) (by decide)).pieces.map Poly.decodeZ⟩
    hints }

/-- The signature in a byte string of any length. -/
def ofBytes? (b : Bytes) : Option Signature := (Octets.ofBytes? signatureBytes b).bind decode?

end Signature

end MLDSA
