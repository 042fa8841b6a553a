import MLDSA.Ring.Transform

/-! # Vectors and matrices of polynomials

All work on a vector is the work on its polynomials, one by one. Only `Matrix.mulVec` mixes them. -/

namespace MLDSA

/-- A vector of polynomials by their coefficients. -/
structure PolyVec (m : Nat) where
  polys : Vector Poly m
deriving DecidableEq

/-- A vector of polynomials by their values. -/
structure NttVec (m : Nat) where
  polys : Vector NttPoly m
deriving DecidableEq

/-- A matrix of polynomials by their values, row by row. -/
structure Matrix (k l : Nat) where
  entries : Vector (Vector NttPoly l) k
deriving DecidableEq

namespace PolyVec

variable {m : Nat}

def zero : PolyVec m := ⟨Vector.replicate m Poly.zero⟩

def map (f : Poly → Poly) (v : PolyVec m) : PolyVec m := ⟨v.polys.map f⟩

/-- The function at each coefficient. -/
def mapCoeffs (f : Coeff → Coeff) : PolyVec m → PolyVec m := map (Poly.map f)

instance : Add (PolyVec m) := ⟨fun a b => ⟨Vector.zipWith (· + ·) a.polys b.polys⟩⟩
instance : Sub (PolyVec m) := ⟨fun a b => ⟨Vector.zipWith (· - ·) a.polys b.polys⟩⟩
instance : Neg (PolyVec m) := ⟨map (-·)⟩

def reduce : PolyVec m → PolyVec m := map Poly.reduce
def addModulus : PolyVec m → PolyVec m := map Poly.addModulus
def canonical : PolyVec m → PolyVec m := map Poly.canonical
def shiftLeft (bits : Coeff) : PolyVec m → PolyVec m := map (Poly.shiftLeft bits)

def isBelow (bound : Coeff) (v : PolyVec m) : Bool := v.polys.all (Poly.isBelow bound)

def toNtt (v : PolyVec m) : NttVec m := ⟨v.polys.map Poly.toNtt⟩

end PolyVec

namespace NttVec

variable {m : Nat}

def zero : NttVec m := ⟨Vector.replicate m NttPoly.zero⟩

def map (f : NttPoly → NttPoly) (v : NttVec m) : NttVec m := ⟨v.polys.map f⟩

instance : Sub (NttVec m) := ⟨fun a b => ⟨Vector.zipWith (· - ·) a.polys b.polys⟩⟩

def reduce : NttVec m → NttVec m := map NttPoly.reduce

/-- Each polynomial times `c`. -/
def scale (c : NttPoly) : NttVec m → NttVec m := map (c * ·)

def toPoly (v : NttVec m) : PolyVec m := ⟨v.polys.map NttPoly.toPoly⟩

/-- The coefficients in `[0, q)` of a sum of products that is not reduced yet. -/
def residues (v : NttVec m) : PolyVec m := v.reduce.toPoly.addModulus

/-- The coefficients of `c` times the vector, less than `q` away from zero. -/
def timesChallenge (c : NttPoly) (v : NttVec m) : PolyVec m := (v.scale c).reduce.toPoly

end NttVec

namespace Matrix

variable {k l : Nat}

/-- The matrix times a vector of values, divided by `2^32`. The sum of a row is not reduced. -/
def mulVec (a : Matrix k l) (v : NttVec l) : NttVec k :=
  ⟨a.entries.map fun row => (Vector.zipWith (· * ·) row v.polys).foldl (· + ·) NttPoly.zero⟩

/-- The coefficients in `[0, q)` of the matrix times a vector. -/
def product (a : Matrix k l) (v : PolyVec l) : PolyVec k := (a.mulVec v.toNtt).residues

end Matrix

end MLDSA
