import MLDSA.Codec.Keys
import MLDSA.Codec.Signature
import MLDSA.Sample

/-! # Verification

A signature is accepted if the commitment recomputed from it has the hash that it carries. The
checks are made in one order, and the first that fails is the reason of the refusal. -/

namespace MLDSA

inductive Refusal where
  | contextLength (length : Nat)
  | signatureLength (length : Nat)
  | malformedHints
  | zNorm
  | publicKeyLength (length : Nat)
  /-- The recomputed commitment has another hash. -/
  | challengeMismatch
  /-- The signed message is shorter than a signature. -/
  | tooShort (length : Nat)
deriving DecidableEq

/-- An answer that may be a refusal, or may be missing because a search for a sample ran out of its
budget. -/
abbrev Checked := ExceptT Refusal Option

/-- What a caller is told: that verification has failed, and not why. -/
def Checked.answer {α : Type} (x : Checked α) : Option (Except Error α) :=
  x.run.map (Except.mapError fun _ => .verificationFailed)

/-! ## Keys made ready -/

/-- A public key as verification uses it: the matrix, `t1 * 2^13` and the hash of the key. -/
structure ExpandedKey where
  a : Matrix rows columns
  t1 : NttVec rows
  tr : Octets longHashBytes

namespace ExpandedKey

def ofBytes (S : HashSuite) (publicKey : Bytes) : Checked ExpandedKey := do
  let some pk := PublicKey.ofBytes? publicKey | throw (.publicKeyLength publicKey.length)
  let a ← S.matrix pk.rho
  return { a, t1 := (pk.t1.shiftLeft 13).toNtt, tr := S.keyHash publicKey }

/-- The commitment that an honest signer has hashed: the buckets of `A * z - c * t1 * 2^13`, moved
by the hints. -/
def commitment (k : ExpandedKey) (s : Signature) (c : NttPoly) : PolyVec rows :=
  s.hints.use (k.a.mulVec s.z.toNtt - k.t1.scale c).residues

/-- The check of the hash, for a message representative. -/
def check (S : HashSuite) (k : ExpandedKey) (mu : Octets longHashBytes) (s : Signature) :
    Checked Unit := do
  let c ← S.challengeOf s.challenge.bytes
  unless S.challenge mu (k.commitment s c.toNtt).encodeW1.bytes = s.challenge do
    throw .challengeMismatch

end ExpandedKey

/-! ## The checks in order -/

def checkContext (context : Bytes) : Checked Unit := do
  if context.length > maxContextBytes then throw (.contextLength context.length)

/-- The signature in a byte string, after the checks that need no public key. -/
def Signature.ofBytes (b : Bytes) : Checked Signature := do
  let some o := Octets.ofBytes? signatureBytes b | throw (.signatureLength b.length)
  let some s := decode? o | throw .malformedHints
  unless s.z.isBelow (Int32.ofNat (gamma1 - beta)) do throw .zNorm
  return s

def verifyExpanded (S : HashSuite) (k : ExpandedKey) (message context signature : Bytes) :
    Checked Unit := do
  checkContext context
  let s ← Signature.ofBytes signature
  k.check S (S.messageRepresentative k.tr context message) s

/-- Verifies a message that is framed already. -/
def verifyFramed (S : HashSuite) (publicKey framed signature : Bytes) : Checked Unit := do
  let s ← Signature.ofBytes signature
  let k ← ExpandedKey.ofBytes S publicKey
  k.check S (S.representative k.tr framed) s

/-- Verifies a message with its context. -/
def verify (S : HashSuite) (publicKey message context signature : Bytes) : Checked Unit := do
  checkContext context
  let s ← Signature.ofBytes signature
  let k ← ExpandedKey.ofBytes S publicKey
  k.check S (S.messageRepresentative k.tr context message) s

/-- The message behind a signature, if it verifies. -/
def openAttached (S : HashSuite) (publicKey signed context : Bytes) : Checked Bytes := do
  if signed.length < signatureBytes then throw (.tooShort signed.length)
  verify S publicKey (signed.drop signatureBytes) context (signed.take signatureBytes)
  return signed.drop signatureBytes

end MLDSA
