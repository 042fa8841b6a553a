import MLDSA.Bytes.Bits
import MLDSA.Ring.Poly

/-! # Polynomials as bytes

A coefficient is packed as it is where its range begins at zero. A range from `-a` to `b` is turned
into `[0, a + b]` by `c ↦ b - c` first. A coefficient out of its range loses its high bits. -/

namespace MLDSA.Poly

/-! ## Any range -/

/-- The low `width` bits of each coefficient. -/
def pack (width : Nat) (p : Poly) : Bytes :=
  packBits width (p.coeffs.toList.map fun c => c.toUInt32.toNat)

def unpack (width : Nat) (b : Bytes) : Poly := ofList ((unpackBits width b).map Int32.ofNat)

/-- Coefficients from `-a` to `b`, in as many bits as `a + b` takes. -/
def packRange (a b : Int) (p : Poly) : Bytes :=
  (p.map (Int32.ofInt b - ·)).pack (bitLength (a + b).toNat)

def unpackRange (a b : Int) (x : Bytes) : Poly :=
  (unpack (bitLength (a + b).toNat) x).map (Int32.ofInt b - ·)

@[simp] theorem length_pack (width : Nat) (p : Poly) :
    (p.pack width).length = (256 * width + 7) / 8 := by
  simp [pack]

@[simp] theorem length_packRange (a b : Int) (p : Poly) :
    (p.packRange a b).length = (256 * bitLength (a + b).toNat + 7) / 8 := by
  simp [packRange]

/-! ## The ranges of keys and signatures -/

/-- The high parts in a public key, ten bits each. -/
def encodeT1 (p : Poly) : Octets t1Bytes := ⟨p.pack 10, by simp⟩

def decodeT1 (b : Octets t1Bytes) : Poly := unpack 10 b.bytes

/-- The low parts in a secret key, above `-2^12` and at most `2^12`. -/
def encodeT0 (p : Poly) : Octets t0Bytes := ⟨p.packRange 4095 4096, by rw [length_packRange]; rfl⟩

def decodeT0 (b : Octets t0Bytes) : Poly := unpackRange 4095 4096 b.bytes

/-- Secret coefficients, from `-eta` to `eta`. -/
def encodeSecret (p : Poly) : Octets secretBytes := ⟨p.packRange 4 4, by rw [length_packRange]; rfl⟩

/-- The secret coefficients, unless some four bits hold more than `2 * eta`. -/
def decodeSecret? (b : Octets secretBytes) : Option Poly :=
  let p := unpackRange 4 4 b.bytes
  if p.coeffs.all (-4 ≤ ·) then some p else none

/-- Responses, whose centred residues are above `-gamma1` and at most `gamma1`. -/
def encodeZ (p : Poly) : Octets zBytes :=
  ⟨(p.map fun c => Coeff.center (Coeff.canonical c)).packRange 524287 524288, by
    rw [length_packRange]; rfl⟩

def decodeZ (b : Octets zBytes) : Poly := unpackRange 524287 524288 b.bytes

/-- Buckets of a commitment, four bits each. -/
def encodeW1 (p : Poly) : Octets bucketBytes := ⟨p.pack 4, by simp⟩

end MLDSA.Poly
