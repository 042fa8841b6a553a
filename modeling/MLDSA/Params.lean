/-! # The ML-DSA-65 parameter set

Dimensions and bounds are plain numbers under short names, so that types can mention them; a
`ParameterSet` collects them for a reader of the set as a value. -/

namespace MLDSA

/-! ## The numbers -/

/-- The modulus `2^23 - 2^13 + 1`. -/
abbrev modulus : Nat := 8380417

/-- The number of coefficients of a polynomial. -/
abbrev degree : Nat := 256

/-- The low bits of `t` that the public key drops. -/
abbrev droppedBits : Nat := 13

abbrev rows : Nat := 6

abbrev columns : Nat := 5

/-- The bound on secret coefficients. -/
abbrev eta : Nat := 4

/-- The number of coefficients `±1` of a challenge. -/
abbrev tau : Nat := 49

/-- How far a challenge times a secret reaches: `tau * eta`. -/
abbrev beta : Nat := 196

/-- The bound on mask coefficients, `2^19`. -/
abbrev gamma1 : Nat := 524288

/-- Half the width of a bucket of high bits, `(q - 1) / 32`. -/
abbrev gamma2 : Nat := 261888

/-- The number of buckets of high bits, `(q - 1) / (2 * gamma2)`. -/
abbrev buckets : Nat := 16

/-- The largest number of hints in a signature. -/
abbrev omega : Nat := 55

/-- The bits of collision strength of a challenge hash. -/
abbrev strength : Nat := 192

/-- How often signing tries before it gives up. -/
abbrev maxAttempts : Nat := 1000

/-- The longest context string, the most that one length byte can say. -/
abbrev maxContextBytes : Nat := 255

/-! ## Lengths in bytes -/

/-- A block of the stream that gives the public matrix. -/
abbrev matrixBlockBytes : Nat := 168

/-- A block of any other stream. -/
abbrev hashBlockBytes : Nat := 136

abbrev seedBytes : Nat := 32

abbrev longHashBytes : Nat := 64

/-- The hash that fixes a challenge, `strength / 4`. -/
abbrev challengeBytes : Nat := 48

/-- A polynomial of the public key, ten bits a coefficient. -/
abbrev t1Bytes : Nat := 320

/-- A polynomial of low parts, thirteen bits a coefficient. -/
abbrev t0Bytes : Nat := 416

/-- A secret polynomial, four bits a coefficient. -/
abbrev secretBytes : Nat := 128

/-- A polynomial of the response, twenty bits a coefficient. -/
abbrev zBytes : Nat := 640

/-- A polynomial of the commitment, four bits a coefficient. -/
abbrev bucketBytes : Nat := 128

abbrev commitmentBytes : Nat := 768

/-- A hint vector: a slot for each hint and a count for each row. -/
abbrev hintBytes : Nat := 61

abbrev publicKeyBytes : Nat := 1952
abbrev secretKeyBytes : Nat := 4032
abbrev signatureBytes : Nat := 3309

/-! ## The set as a value -/

/-- The parameters of one level of ML-DSA. -/
structure ParameterSet where
  name : String
  q : Nat
  n : Nat
  d : Nat
  k : Nat
  l : Nat
  eta : Nat
  tau : Nat
  beta : Nat
  gamma1 : Nat
  gamma2 : Nat
  omega : Nat
  lambda : Nat
  publicKeyBytes : Nat
  secretKeyBytes : Nat
  signatureBytes : Nat
deriving DecidableEq

def mldsa65 : ParameterSet where
  name := "ML-DSA-65"
  q := modulus
  n := degree
  d := droppedBits
  k := rows
  l := columns
  eta := eta
  tau := tau
  beta := beta
  gamma1 := gamma1
  gamma2 := gamma2
  omega := omega
  lambda := strength
  publicKeyBytes := publicKeyBytes
  secretKeyBytes := secretKeyBytes
  signatureBytes := signatureBytes

namespace ParameterSet

/-- A challenge hash has two bits for each bit of strength. -/
def challengeBytes (p : ParameterSet) : Nat := p.lambda / 4

/-- The fields in order, each with its name. -/
def describe (p : ParameterSet) : String :=
  s!"ParameterSet \x7b name: \"{p.name}\", q: {p.q}, n: {p.n}, d: {p.d}, k: {p.k}, l: {p.l}, " ++
  s!"eta: {p.eta}, tau: {p.tau}, beta: {p.beta}, gamma1: {p.gamma1}, gamma2: {p.gamma2}, " ++
  s!"omega: {p.omega}, lambda: {p.lambda}, pk_bytes: {p.publicKeyBytes}, " ++
  s!"sk_bytes: {p.secretKeyBytes}, sig_bytes: {p.signatureBytes} \x7d"

end ParameterSet

end MLDSA
