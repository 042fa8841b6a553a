import MLDSA.Params

/-! # Why an operation gives no result

A caller who hands in a key or a signature of the wrong length learns that, and the length. A caller
whose signature does not verify learns nothing more. -/

namespace MLDSA

inductive Error where
  | invalidKeyLength (expected actual : Nat)
  | invalidSignatureLength (expected actual : Nat)
  /-- The context has more bytes than one length byte can say. -/
  | contextTooLong (length : Nat)
  | verificationFailed
  | insufficientRandomness
  /-- A key has the right length and holds a coefficient out of range. -/
  | encodingError
  /-- Each attempt of the signing loop was rejected. -/
  | signingAttemptsExhausted (attempts : Nat)
deriving DecidableEq

namespace Error

def message : Error → String
  | invalidKeyLength expected actual =>
    s!"invalid key length: expected {expected}, got {actual}"
  | invalidSignatureLength expected actual =>
    s!"invalid signature length: expected {expected}, got {actual}"
  | contextTooLong length => s!"context string too long: {length} bytes (max 255)"
  | verificationFailed => "signature verification failed"
  | insufficientRandomness => "insufficient randomness provided"
  | encodingError => "encoding or decoding error"
  | signingAttemptsExhausted attempts => s!"signing gave up after {attempts} rejected attempts"

def kind : Error → String
  | invalidKeyLength .. => "InvalidKeyLength"
  | invalidSignatureLength .. => "InvalidSignatureLength"
  | contextTooLong .. => "ContextTooLong"
  | verificationFailed => "VerificationFailed"
  | insufficientRandomness => "InsufficientRandomness"
  | encodingError => "EncodingError"
  | signingAttemptsExhausted .. => "SigningAttemptsExhausted"

/-- The numbers that come with the error, each with its name. -/
def fields : Error → List (String × Nat)
  | invalidKeyLength expected actual => [("expected", expected), ("actual", actual)]
  | invalidSignatureLength expected actual => [("expected", expected), ("actual", actual)]
  | contextTooLong length => [("len", length)]
  | signingAttemptsExhausted attempts => [("attempts", attempts)]
  | _ => []

/-- The kind and the fields, for a log. -/
def describe (e : Error) : String :=
  match e.fields with
  | [] => e.kind
  | fields =>
    let listed := fields.map fun (name, value) => s!"{name}: {value}"
    e.kind ++ " \x7b " ++ ", ".intercalate listed ++ " \x7d"

end Error

end MLDSA
