import MLDSA.Hash.Suite

/-! # SHAKE

The Keccak permutation of 1600 bits and the two extendable-output functions made from it. The state
is five rows of five words, because the one step of a round that is not linear works on a row. -/

namespace MLDSA.Keccak

/-- Five words of the state with one `y` coordinate. -/
structure Row where
  a : UInt64
  b : UInt64
  c : UInt64
  d : UInt64
  e : UInt64

structure State where
  r0 : Row
  r1 : Row
  r2 : Row
  r3 : Row
  r4 : Row

/-- Rotation to the left, by 1 to 63 bits. -/
@[inline] def rotate (w n : UInt64) : UInt64 := (w <<< n) ||| (w >>> (64 - n))

namespace Row

def zero : Row := ⟨0, 0, 0, 0, 0⟩

@[inline] def xor (x y : Row) : Row :=
  ⟨x.a ^^^ y.a, x.b ^^^ y.b, x.c ^^^ y.c, x.d ^^^ y.d, x.e ^^^ y.e⟩

/-- Each word against the two that follow it. -/
@[inline] def chi (x : Row) : Row :=
  ⟨x.a ^^^ (~~~x.b &&& x.c), x.b ^^^ (~~~x.c &&& x.d), x.c ^^^ (~~~x.d &&& x.e),
    x.d ^^^ (~~~x.e &&& x.a), x.e ^^^ (~~~x.a &&& x.b)⟩

def words (x : Row) : List UInt64 := [x.a, x.b, x.c, x.d, x.e]

end Row

namespace State

def zero : State := ⟨.zero, .zero, .zero, .zero, .zero⟩

def xor (s t : State) : State :=
  ⟨s.r0.xor t.r0, s.r1.xor t.r1, s.r2.xor t.r2, s.r3.xor t.r3, s.r4.xor t.r4⟩

def words (s : State) : List UInt64 :=
  s.r0.words ++ s.r1.words ++ s.r2.words ++ s.r3.words ++ s.r4.words

/-- The state with these words, the missing ones zero. -/
def ofWords (l : List UInt64) : State :=
  let w := l.toArray
  let row (i : Nat) : Row :=
    ⟨w.getD i 0, w.getD (i + 1) 0, w.getD (i + 2) 0, w.getD (i + 3) 0, w.getD (i + 4) 0⟩
  ⟨row 0, row 5, row 10, row 15, row 20⟩

/-! ## The permutation -/

/-- Adds to each word the parities of two columns next to it. -/
@[inline] def theta (s : State) : State :=
  let p := (((s.r0.xor s.r1).xor s.r2).xor s.r3).xor s.r4
  let d : Row :=
    ⟨p.e ^^^ rotate p.b 1, p.a ^^^ rotate p.c 1, p.b ^^^ rotate p.d 1, p.c ^^^ rotate p.e 1,
      p.d ^^^ rotate p.a 1⟩
  ⟨s.r0.xor d, s.r1.xor d, s.r2.xor d, s.r3.xor d, s.r4.xor d⟩

/-- Rotates each word by its own distance and puts the diagonals into rows. -/
@[inline] def rhoPi (s : State) : State :=
  ⟨⟨s.r0.a, rotate s.r1.b 44, rotate s.r2.c 43, rotate s.r3.d 21, rotate s.r4.e 14⟩,
    ⟨rotate s.r0.d 28, rotate s.r1.e 20, rotate s.r2.a 3, rotate s.r3.b 45, rotate s.r4.c 61⟩,
    ⟨rotate s.r0.b 1, rotate s.r1.c 6, rotate s.r2.d 25, rotate s.r3.e 8, rotate s.r4.a 18⟩,
    ⟨rotate s.r0.e 27, rotate s.r1.a 36, rotate s.r2.b 10, rotate s.r3.c 15, rotate s.r4.d 56⟩,
    ⟨rotate s.r0.c 62, rotate s.r1.d 55, rotate s.r2.e 39, rotate s.r3.a 41, rotate s.r4.b 2⟩⟩

@[inline] def chi (s : State) : State :=
  ⟨s.r0.chi, s.r1.chi, s.r2.chi, s.r3.chi, s.r4.chi⟩

def round (s : State) (constant : UInt64) : State :=
  let t := s.theta.rhoPi.chi
  { t with r0 := { t.r0 with a := t.r0.a ^^^ constant } }

def roundConstants : List UInt64 :=
  [0x0000000000000001, 0x0000000000008082, 0x800000000000808A, 0x8000000080008000,
    0x000000000000808B, 0x0000000080000001, 0x8000000080008081, 0x8000000000008009,
    0x000000000000008A, 0x0000000000000088, 0x0000000080008009, 0x000000008000000A,
    0x000000008000808B, 0x800000000000008B, 0x8000000000008089, 0x8000000000008003,
    0x8000000000008002, 0x8000000000000080, 0x000000000000800A, 0x800000008000000A,
    0x8000000080008081, 0x8000000000008080, 0x0000000080000001, 0x8000000080008008]

def permute (s : State) : State := roundConstants.foldl round s

end State

/-! ## The sponge -/

/-- The message, a mark that it has ended, and zeros up to a whole number of blocks, with the last
byte marked as well. -/
def pad (rate : Nat) (m : Bytes) : Bytes :=
  let free := rate - m.length % rate
  if free = 1 then m ++ [0x9F] else m ++ 0x1F :: List.replicate (free - 2) 0 ++ [0x80]

/-- Adds a block to the state and permutes it. -/
def absorbBlock (s : State) (b : Bytes) : State :=
  (s.xor (.ofWords ((chunks 8 25 b).map word64))).permute

def absorb (rate : Nat) (m : Bytes) : State :=
  (chunks rate (m.length / rate + 1) (pad rate m)).foldl absorbBlock .zero

theorem length_flatMap_bytes64 (l : List UInt64) : (l.flatMap bytes64).length = 8 * l.length := by
  induction l with
  | nil => rfl
  | cons w l ih =>
    rw [List.flatMap_cons, List.length_append, ih, List.length_cons, Nat.mul_succ, Nat.add_comm]
    rfl

/-- The first `rate` bytes of the state. -/
def block (rate : Nat) (h : rate ≤ 200) (s : State) : Octets rate :=
  ⟨(s.words.flatMap bytes64).take rate, by
    rw [List.length_take, length_flatMap_bytes64, show s.words.length = 25 from rfl]; omega⟩

def shake (rate : Nat) (h : rate ≤ 200) : Xof rate where
  State := State
  absorb := absorb rate
  block := block rate h
  next := State.permute

def shake128 : Xof matrixBlockBytes := shake matrixBlockBytes (by decide)

def shake256 : Xof hashBlockBytes := shake hashBlockBytes (by decide)

/-- The hash functions of the standard, with a budget that no search uses up. -/
def suite : HashSuite where
  g := shake128
  h := shake256
  budget := 4294967296

end MLDSA.Keccak
