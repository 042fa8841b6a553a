import MLDSA.Params
import MLDSA.Hash.Xof

/-! # What the scheme hashes

The hash functions are a parameter of the scheme: it works with any two that a `HashSuite` holds.
Each use absorbs its parts one after the other. All parts but the last have a fixed length, so
different parts make different inputs. -/

namespace MLDSA

/-- The hash functions of the scheme, `g` for the public matrix and `h` for all else, and the number
of blocks that one search for a sample may read. -/
structure HashSuite where
  g : Xof matrixBlockBytes
  h : Xof hashBlockBytes
  budget : Nat

/-! ## Inputs -/

/-- A framed message: a zero byte, the length of the context, the context and the message. -/
def frame (context message : Bytes) : Bytes :=
  0 :: UInt8.ofNat context.length :: (context ++ message)

/-- The input for the polynomial with a number, of all those that a seed gives. -/
def numbered (seed : Octets longHashBytes) (nonce : Nat) : Bytes := seed.bytes ++ bytes16 nonce

/-! ## Hashes -/

namespace HashSuite

variable (S : HashSuite)

/-- The first `n` bytes that `h` gives. -/
def digest (n : Nat) (m : Bytes) : Octets n := ⟨S.h.read n m, S.h.length_read n m (by decide)⟩

/-- The hash `tr` of an encoded public key. -/
def keyHash (publicKey : Bytes) : Octets longHashBytes := S.digest longHashBytes publicKey

/-- The representative `mu` of a framed message under a public key. -/
def representative (tr : Octets longHashBytes) (framed : Bytes) : Octets longHashBytes :=
  S.digest longHashBytes (tr.bytes ++ framed)

/-- The representative of a message with its context, which is not framed first. The length of the
context must fit a byte. -/
def messageRepresentative (tr : Octets longHashBytes) (context message : Bytes) :
    Octets longHashBytes :=
  S.digest longHashBytes (tr.bytes ++ [0, UInt8.ofNat context.length] ++ context ++ message)

/-- The seed of the masks of one signature. -/
def maskSeed (key rnd : Octets seedBytes) (mu : Octets longHashBytes) : Octets longHashBytes :=
  S.digest longHashBytes (key.bytes ++ rnd.bytes ++ mu.bytes)

/-- The hash that ties the challenge to a message and a commitment. -/
def challenge (mu : Octets longHashBytes) (w1 : Bytes) : Octets challengeBytes :=
  S.digest challengeBytes (mu.bytes ++ w1)

end HashSuite

end MLDSA
