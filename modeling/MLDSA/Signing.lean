import MLDSA.Codec.Signature
import MLDSA.KeyPair

/-! # Signing

An attempt answers the challenge to its commitment, and is rejected if the answer could tell
something about the secret. The first attempt that passes all four tests is the signature. -/

namespace MLDSA

/-! ## One attempt -/

/-- The test that an attempt fails first. -/
inductive Rejection where
  /-- The response is too large. -/
  | zNorm
  /-- The low part of `w - c * s2` is too large. -/
  | lowBitsNorm
  /-- The product `c * t0` is too large. -/
  | ct0Norm
  /-- There are more hints than a signature has slots. -/
  | tooManyHints
deriving DecidableEq

/-- A secret key as an attempt uses it. -/
structure ExpandedSecret where
  a : Matrix rows columns
  s1 : NttVec columns
  s2 : NttVec rows
  t0 : NttVec rows

namespace ExpandedSecret

def ofKey (S : HashSuite) (sk : SecretKey) : Option ExpandedSecret :=
  (S.matrix sk.rho).map fun a =>
    { a, s1 := sk.s1.toNtt, s2 := sk.s2.toNtt, t0 := sk.t0.toNtt }

/-- The answer to a challenge `c`, for the masks `y` and the commitment `w = A * y`. -/
def respond (k : ExpandedSecret) (y : PolyVec columns) (w : PolyVec rows)
    (challenge : Octets challengeBytes) (c : NttPoly) : Except Rejection Signature := do
  let z := (y + k.s1.timesChallenge c).reduce
  unless z.isBelow (Int32.ofNat (gamma1 - beta)) do throw .zNorm
  let r := (w - k.s2.timesChallenge c).canonical
  unless r.lowBits.isBelow (Int32.ofNat (gamma2 - beta)) do throw .lowBitsNorm
  let ct0 := k.t0.timesChallenge c
  unless ct0.isBelow (Int32.ofNat gamma2) do throw .ct0Norm
  let hints := HintVec.make (-ct0) (r + ct0)
  unless hints.weight ≤ omega do throw .tooManyHints
  return { challenge, z, hints }

def attempt (S : HashSuite) (k : ExpandedSecret) (mu seed : Octets longHashBytes) (kappa : Nat) :
    Option (Except Rejection Signature) :=
  let y := S.masks seed kappa
  let w := k.a.product y
  let challenge := S.challenge mu w.highBits.encodeW1.bytes
  (S.challengeOf challenge.bytes).map fun c => k.respond y w challenge c.toNtt

end ExpandedSecret

/-! ## Attempts until one passes -/

/-- What the attempts came to: why each one before the last was rejected, and what the last one
gave, or nothing if they were all rejected. -/
structure SigningRun (α : Type) where
  rejections : List Rejection
  output : Option α

namespace SigningRun

variable {α β : Type}

def map (f : α → β) (r : SigningRun α) : SigningRun β := { r with output := r.output.map f }

/-- The output, or the error of giving up. -/
def result (r : SigningRun α) : Except Error α :=
  match r.output with
  | some v => .ok v
  | none => .error (.signingAttemptsExhausted maxAttempts)

/-- At most `left` attempts, of which the first has the number `kappa`. -/
def ofAttempts (attempt : Nat → Option (Except Rejection α)) :
    (left : Nat) → (kappa : Nat) → Option (SigningRun α)
  | 0, _ => some ⟨[], none⟩
  | left + 1, kappa =>
    match attempt kappa with
    | none => none
    | some (.ok v) => some ⟨[], some v⟩
    | some (.error e) =>
      (ofAttempts attempt left (kappa + 1)).map fun r => { r with rejections := e :: r.rejections }

end SigningRun

def SecretKey.sign (S : HashSuite) (sk : SecretKey) (mu : Octets longHashBytes)
    (rnd : Octets seedBytes) : Option (SigningRun Signature) := do
  let k ← ExpandedSecret.ofKey S sk
  SigningRun.ofAttempts (k.attempt S mu (S.maskSeed sk.key rnd mu)) maxAttempts 0

/-! ## Messages -/

/-- An answer that may be an error, or may be missing because a search for a sample ran out of its
budget. -/
abbrev Signing := ExceptT Error Option

/-- Signs a message that is framed already. -/
def signFramed (S : HashSuite) (secretKey framed : Bytes) (rnd : Octets seedBytes) :
    Signing (SigningRun (Octets signatureBytes)) := do
  let sk ← SecretKey.ofBytes secretKey
  let run ← sk.sign S (S.representative sk.tr framed) rnd
  return run.map Signature.encode

/-- Signs a message with its context, whose length is looked at before the key. -/
def sign (S : HashSuite) (secretKey message context : Bytes) (rnd : Octets seedBytes) :
    Signing (SigningRun (Octets signatureBytes)) := do
  if context.length > maxContextBytes then throw (.contextTooLong context.length)
  let sk ← SecretKey.ofBytes secretKey
  let run ← sk.sign S (S.messageRepresentative sk.tr context message) rnd
  return run.map Signature.encode

/-- Signs a message and puts it behind the signature. -/
def signAttached (S : HashSuite) (secretKey message context : Bytes) (rnd : Octets seedBytes) :
    Signing (SigningRun Bytes) := do
  let run ← sign S secretKey message context rnd
  return run.map fun s => s.bytes ++ message

end MLDSA
