import MLDSA.Ring.Matrix

/-! # Hint vectors

A hint vector marks the coefficients of a vector of six polynomials whose bucket has moved. -/

namespace MLDSA

/-- The marks, row by row. -/
structure HintVec where
  marks : Vector (Vector Bool 256) rows
deriving DecidableEq

namespace HintVec

/-- The marked places of each row, in order. -/
def places (h : HintVec) : List (List (Fin 256)) :=
  h.marks.toList.map fun row => (List.finRange 256).filter row.get

/-- The number of marks. -/
def weight (h : HintVec) : Nat := h.places.flatten.length

/-- The places where adding `z` to `r` changes the bucket. -/
def make (z r : PolyVec rows) : HintVec :=
  ⟨Vector.zipWith (fun p s => Vector.zipWith Coeff.makeHint p.coeffs s.coeffs) z.polys r.polys⟩

/-- The buckets of `v`, moved where there is a mark. -/
def use (h : HintVec) (v : PolyVec rows) : PolyVec rows :=
  ⟨Vector.zipWith (fun row p => ⟨Vector.zipWith Coeff.useHint row p.coeffs⟩) h.marks v.polys⟩

end HintVec

namespace PolyVec

variable {m : Nat}

def highBits : PolyVec m → PolyVec m := mapCoeffs Coeff.highBits

def lowBits : PolyVec m → PolyVec m := mapCoeffs Coeff.lowBits

end PolyVec

end MLDSA
