import MLDSA.Codec.Poly
import MLDSA.Error
import MLDSA.Ring.Matrix

/-! # Keys as bytes

Each part of a key has its place, so any byte string of the right length is a public key. It is a
secret key if the coefficients of the two secrets are in range. -/

namespace MLDSA

/-! ## Public keys -/

/-- A public key: the seed of the matrix, and the high part of `t`. -/
structure PublicKey where
  rho : Octets seedBytes
  t1 : PolyVec rows
deriving DecidableEq

namespace PublicKey

def encode (pk : PublicKey) : Octets publicKeyBytes :=
  pk.rho ++ Octets.join (pk.t1.polys.map Poly.encodeT1)

def decode (b : Octets publicKeyBytes) : PublicKey where
  rho := b.slice 0 seedBytes (by decide)
  t1 := ⟨(b.slice 32 (rows * t1Bytes) (by decide)).pieces.map Poly.decodeT1⟩

/-- The public key in a byte string of any length. -/
def ofBytes? (b : Bytes) : Option PublicKey := (Octets.ofBytes? publicKeyBytes b).map decode

end PublicKey

/-! ## Secret keys -/

/-- A secret key: the seed of the matrix, the key of the masks, the hash of the public key, the two
secrets and the low part of `t`. -/
structure SecretKey where
  rho : Octets seedBytes
  key : Octets seedBytes
  tr : Octets longHashBytes
  s1 : PolyVec columns
  s2 : PolyVec rows
  t0 : PolyVec rows
deriving DecidableEq

namespace SecretKey

def encode (sk : SecretKey) : Octets secretKeyBytes :=
  sk.rho ++ sk.key ++ sk.tr ++ Octets.join (sk.s1.polys.map Poly.encodeSecret) ++
    Octets.join (sk.s2.polys.map Poly.encodeSecret) ++ Octets.join (sk.t0.polys.map Poly.encodeT0)

/-- The secret key, if the coefficients of both secrets are in range. -/
def decode? (b : Octets secretKeyBytes) : Option SecretKey := do
  let s1 ← allSome ((b.slice 128 (columns * secretBytes) (by decide)).pieces.map Poly.decodeSecret?)
  let s2 ← allSome ((b.slice 768 (rows * secretBytes) (by decide)).pieces.map Poly.decodeSecret?)
  return {
    rho := b.slice 0 seedBytes (by decide)
    key := b.slice 32 seedBytes (by decide)
    tr := b.slice 64 longHashBytes (by decide)
    s1 := ⟨s1⟩
    s2 := ⟨s2⟩
    t0 := ⟨(b.slice 1536 (rows * t0Bytes) (by decide)).pieces.map Poly.decodeT0⟩ }

/-- The secret key in a byte string of any length, or what is wrong with it. -/
def ofBytes (b : Bytes) : Except Error SecretKey :=
  match Octets.ofBytes? secretKeyBytes b with
  | none => .error (.invalidKeyLength secretKeyBytes b.length)
  | some o =>
    match decode? o with
    | none => .error .encodingError
    | some sk => .ok sk

end SecretKey

end MLDSA
