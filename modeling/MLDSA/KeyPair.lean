import MLDSA.Codec.Keys
import MLDSA.Sample

/-! # Key generation

A seed gives the seed of the matrix `A`, the seed of the secrets `s1` and `s2`, and the key of the
masks. Of `t = A * s1 + s2` the public key holds the high part and the secret key the low part. -/

namespace MLDSA

structure KeyPair where
  secretKey : SecretKey
  publicKey : PublicKey
deriving DecidableEq

/-- The key pair of a seed. The dimensions of the matrix are hashed with it. -/
def KeyPair.ofSeed (S : HashSuite) (xi : Octets seedBytes) : Option KeyPair := do
  let seeds := S.digest 128 (xi.bytes ++ [UInt8.ofNat rows, UInt8.ofNat columns])
  let rho := seeds.slice 0 seedBytes (by decide)
  let secretSeed := seeds.slice 32 longHashBytes (by decide)
  let a ← S.matrix rho
  let s1 ← S.secretVec columns secretSeed 0
  let s2 ← S.secretVec rows secretSeed columns
  let t := (a.product s1 + s2).canonical
  let publicKey : PublicKey := { rho, t1 := t.mapCoeffs fun r => (Coeff.powerSplit r).high }
  let secretKey : SecretKey :=
    { rho, key := seeds.slice 96 seedBytes (by decide)
      tr := S.keyHash publicKey.encode.bytes, s1, s2
      t0 := t.mapCoeffs fun r => (Coeff.powerSplit r).low }
  return { secretKey, publicKey }

end MLDSA
