import MLDSA.Bytes.Octets

/-! # Dense packing of numbers

Numbers of `width` bits are written bit by bit without a gap, the lowest bit first, and the bits are
cut into bytes. With the list of bits between the two, each direction is a rule about lists. -/

namespace MLDSA

/-- The low `width` bits of `v`, the lowest first. -/
def bitsOf (width v : Nat) : List Bool := (List.range width).map v.testBit

/-- The number with these bits. -/
def ofBits (bits : List Bool) : Nat := bits.foldr (fun b v => 2 * v + b.toNat) 0

/-- The number of bits that `v` takes. -/
def bitLength (v : Nat) : Nat := if v = 0 then 0 else v.log2 + 1

/-- All bits of a byte string. -/
def bitsOfBytes (b : Bytes) : List Bool := b.flatMap fun x => bitsOf 8 x.toNat

/-- The bytes with these bits, the last one filled up with zeros. -/
def bytesOfBits (bits : List Bool) : Bytes :=
  (chunks 8 ((bits.length + 7) / 8) bits).map fun c => UInt8.ofNat (ofBits c)

/-- The low `width` bits of each number. -/
def packBits (width : Nat) (values : List Nat) : Bytes :=
  bytesOfBits (values.flatMap (bitsOf width))

/-- As many numbers as the bytes hold in full. -/
def unpackBits (width : Nat) (b : Bytes) : List Nat :=
  (chunks width (8 * b.length / width) (bitsOfBytes b)).map ofBits

@[simp] theorem length_bitsOf (width v : Nat) : (bitsOf width v).length = width := by
  simp [bitsOf]

theorem length_flatMap_bitsOf (width : Nat) (values : List Nat) :
    (values.flatMap (bitsOf width)).length = values.length * width := by
  induction values with
  | nil => simp
  | cons v values ih => simp [ih, Nat.succ_mul, Nat.add_comm]

@[simp] theorem length_packBits (width : Nat) (values : List Nat) :
    (packBits width values).length = (values.length * width + 7) / 8 := by
  simp only [packBits, bytesOfBits, List.length_map, length_chunks, length_flatMap_bitsOf]

end MLDSA
