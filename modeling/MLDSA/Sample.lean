import MLDSA.Codec.Poly
import MLDSA.Hash.Suite
import MLDSA.Ring.Matrix

/-! # Sampling polynomials

A polynomial is read off the stream that a hash function gives for a seed. A mask uses every byte.
The other three kinds take the good candidates of the stream until there are enough, and are `none`
if the budget of the suite runs out first. -/

namespace MLDSA

/-! ## Candidates -/

/-- The numbers below `q` among the groups of three bytes, the top bit of a group left out. -/
def uniformCandidates : Bytes → List Coeff
  | x :: y :: z :: rest =>
    let v := x.toNat + 256 * y.toNat + 65536 * (z.toNat % 128)
    if v < modulus then Int32.ofNat v :: uniformCandidates rest else uniformCandidates rest
  | _ => []

/-- The numbers `4 - t` for the four-bit numbers `t` up to 8, the low half of a byte first. -/
def secretCandidates (b : Bytes) : List Coeff :=
  (b.flatMap fun x => [x.toNat % 16, x.toNat / 16]).filterMap fun t =>
    if t ≤ 2 * eta then some (4 - Int32.ofNat t) else none

/-- The first byte that is at most `i`, then the next that is at most `i + 1`, and so on. -/
def placeCandidates : (i : Nat) → Bytes → List (Fin 256)
  | _, [] => []
  | i, b :: rest =>
    if b.toNat ≤ i then Fin.ofNat 256 b.toNat :: placeCandidates (i + 1) rest
    else placeCandidates i rest

/-! ## Challenges -/

/-- Puts a sign at place `j`, after the coefficient there has moved to place `i`. -/
def putSign (v : Vector Coeff 256) (i j : Fin 256) (negative : Bool) : Vector Coeff 256 :=
  (v.set i v[j]).set j (if negative then -1 else 1)

/-- Puts signs one by one, where place `i` is the first that is not in use. -/
def putSigns : (i : Nat) → List (Fin 256 × Bool) → Vector Coeff 256 → Vector Coeff 256
  | _, [], v => v
  | i, (j, negative) :: rest, v => putSigns (i + 1) rest (putSign v (Fin.ofNat 256 i) j negative)

/-- The polynomial with a sign for each draw, of which there are `tau`. -/
def challengePoly (draws : List (Fin 256 × Bool)) : Poly :=
  ⟨putSigns (256 - tau) draws Poly.zero.coeffs⟩

/-! ## Polynomials -/

namespace HashSuite

variable (S : HashSuite)

/-- The entry of the public matrix in row `i` and column `j`. -/
def uniformPoly (rho : Octets seedBytes) (i j : UInt8) : Option NttPoly :=
  (S.g.search (fun _ => uniformCandidates) 256 S.budget [] 0
    (S.g.absorb (rho.bytes ++ [j, i]))).map fun l => ⟨(Poly.ofList l).coeffs⟩

/-- A polynomial with coefficients from `-eta` to `eta`. -/
def secretPoly (seed : Octets longHashBytes) (nonce : Nat) : Option Poly :=
  (S.h.search (fun _ => secretCandidates) 256 S.budget [] 0
    (S.h.absorb (numbered seed nonce))).map Poly.ofList

/-- A polynomial with coefficients above `-gamma1` and at most `gamma1`. -/
def maskPoly (seed : Octets longHashBytes) (nonce : Nat) : Poly :=
  Poly.decodeZ (S.digest zBytes (numbered seed nonce))

/-- The challenge that a hash fixes. The first eight bytes of the stream are the signs, bit by bit,
and the places follow. -/
def challengeOf (hash : Bytes) : Option Poly :=
  let start := S.h.absorb hash
  let signs := bitsOfBytes ((S.h.block start).bytes.take 8)
  (S.h.search (fun k => placeCandidates (256 - tau + k)) tau S.budget [] 8 start).map fun places =>
    challengePoly (places.zip signs)

/-! ## Vectors -/

def matrix (rho : Octets seedBytes) : Option (Matrix rows columns) :=
  (allSome (Vector.ofFn fun i : Fin rows => allSome (Vector.ofFn fun j : Fin columns =>
    S.uniformPoly rho (UInt8.ofNat i.val) (UInt8.ofNat j.val)))).map Matrix.mk

/-- A secret vector, whose polynomials have the numbers from `first` on. -/
def secretVec (m : Nat) (seed : Octets longHashBytes) (first : Nat) : Option (PolyVec m) :=
  (allSome (Vector.ofFn fun i : Fin m => S.secretPoly seed (first + i.val))).map PolyVec.mk

/-- The masks of the attempt with number `kappa`. -/
def masks (seed : Octets longHashBytes) (kappa : Nat) : PolyVec columns :=
  ⟨Vector.ofFn fun i : Fin columns => S.maskPoly seed (columns * kappa + i.val)⟩

end HashSuite

end MLDSA
