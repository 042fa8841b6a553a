import MLDSA.RandomTape
import MLDSA.Signing
import MLDSA.Verification

/-! # Handles

Keys and signatures as callers hold them: byte strings whose length is right, and of which no more
is known. A log shows the first bytes of a handle, and nothing of a signing key. -/

namespace MLDSA

structure SigningKey where
  octets : Octets secretKeyBytes
deriving DecidableEq

structure VerificationKey where
  octets : Octets publicKeyBytes
deriving DecidableEq

structure SignatureHandle where
  octets : Octets signatureBytes
deriving DecidableEq

/-- A name and the first eight bytes. -/
def abridged (name : String) (b : Bytes) : String := name ++ "(" ++ hex (b.take 8) ++ "..)"

/-! ## Signing -/

/-- Where the randomness of a signature comes from. -/
inductive SigningMode where
  /-- There is none, so a message has one signature. -/
  | deterministic
  /-- It is drawn anew for each signature. -/
  | hedged
deriving DecidableEq

namespace SigningMode

instance : Inhabited SigningMode := ⟨deterministic⟩

def name : SigningMode → String
  | deterministic => "Deterministic"
  | hedged => "Hedged"

/-- The randomness of a signature. The tape is read in hedged mode only. -/
def randomness (mode : SigningMode) (t : RandomTape) : Octets seedBytes × RandomTape :=
  match mode with
  | deterministic => (Octets.zero seedBytes, t)
  | hedged => t.draw seedBytes

end SigningMode

namespace SigningKey

def ofBytes (b : Bytes) : Except Error SigningKey :=
  match Octets.ofBytes? secretKeyBytes b with
  | none => .error (.invalidKeyLength secretKeyBytes b.length)
  | some o => .ok ⟨o⟩

def describe (_ : SigningKey) : String := "SigningKey([REDACTED])"

/-- What is left of a key that is wiped. -/
def erase (_ : SigningKey) : SigningKey := ⟨Octets.zero secretKeyBytes⟩

def sign (S : HashSuite) (k : SigningKey) (message context : Bytes) (rnd : Octets seedBytes) :
    Signing (SigningRun SignatureHandle) := do
  let run ← MLDSA.sign S k.octets.bytes message context rnd
  return run.map SignatureHandle.mk

def signAttached (S : HashSuite) (k : SigningKey) (message context : Bytes) :
    Signing (SigningRun Bytes) :=
  MLDSA.signAttached S k.octets.bytes message context (Octets.zero seedBytes)

/-- Signs as the mode says, and gives the tape after that. -/
def signWith (S : HashSuite) (k : SigningKey) (mode : SigningMode) (message context : Bytes)
    (t : RandomTape) : Signing (SigningRun SignatureHandle) × RandomTape :=
  let (rnd, rest) := mode.randomness t
  (k.sign S message context rnd, rest)

end SigningKey

/-! ## Verification -/

namespace SignatureHandle

def ofBytes (b : Bytes) : Except Error SignatureHandle :=
  match Octets.ofBytes? signatureBytes b with
  | none => .error (.invalidSignatureLength signatureBytes b.length)
  | some o => .ok ⟨o⟩

def describe (s : SignatureHandle) : String := abridged "Signature" s.octets.bytes

end SignatureHandle

namespace VerificationKey

def ofBytes (b : Bytes) : Except Error VerificationKey :=
  match Octets.ofBytes? publicKeyBytes b with
  | none => .error (.invalidKeyLength publicKeyBytes b.length)
  | some o => .ok ⟨o⟩

def describe (k : VerificationKey) : String := abridged "VerificationKey" k.octets.bytes

def expand (S : HashSuite) (k : VerificationKey) : Checked ExpandedKey :=
  ExpandedKey.ofBytes S k.octets.bytes

def verify (S : HashSuite) (k : VerificationKey) (message context : Bytes) (s : SignatureHandle) :
    Checked Unit :=
  MLDSA.verify S k.octets.bytes message context s.octets.bytes

def openAttached (S : HashSuite) (k : VerificationKey) (signed context : Bytes) : Checked Bytes :=
  MLDSA.openAttached S k.octets.bytes signed context

end VerificationKey

/-! ## Key pairs -/

namespace KeyPair

def signingKey (p : KeyPair) : SigningKey := ⟨p.secretKey.encode⟩

def verificationKey (p : KeyPair) : VerificationKey := ⟨p.publicKey.encode⟩

/-- The key pair of a seed, which must have 32 bytes. -/
def ofBytes (S : HashSuite) (seed : Bytes) : Signing KeyPair := do
  let some xi := Octets.ofBytes? seedBytes seed | throw .insufficientRandomness
  let pair ← ofSeed S xi
  return pair

def generate (S : HashSuite) (t : RandomTape) : Option KeyPair × RandomTape :=
  let (xi, rest) := t.draw seedBytes
  (ofSeed S xi, rest)

end KeyPair

end MLDSA
