import MLDSA.Params

/-! # Coefficients modulo `q`

A coefficient is a 32-bit word that stands for its residue modulo `q`. Reduction is delayed, so one
residue has many words, and each function below says which of them it gives. A product goes through
64 bits and comes back by Montgomery reduction, which divides by `2^32`. -/

namespace MLDSA

abbrev Coeff := Int32

namespace Coeff

def q : Coeff := 8380417

/-- The largest centred residue, `(q - 1) / 2`. -/
def halfQ : Coeff := 4190208

/-- The inverse of `q` modulo `2^32`. -/
def inverseQ : Coeff := 58728449

/-! ## Smaller words of one residue -/

/-- Barrett reduction: a word between `-6283009` and `6283008`. The quotient is `a / 2^23` to the
nearest integer, because `q` is a little less than `2^23`. -/
def reduce (a : Coeff) : Coeff := a - ((a + 4194304) >>> 23) * q

/-- Adds `q` to a negative word: exactly then `a >>> 31` is all ones. -/
def addModulus (a : Coeff) : Coeff := a + (q &&& (a >>> 31))

/-- The word in `[0, q)`. -/
def canonical (a : Coeff) : Coeff := addModulus (reduce a)

/-- Takes a word in `[0, q)` to the centred one, at most `halfQ` away from zero. -/
def center (a : Coeff) : Coeff := a - (q &&& ((halfQ - a) >>> 31))

/-- The residue is less than `bound` away from zero. -/
def isBelow (bound a : Coeff) : Bool := (center (canonical a)).abs < bound

/-! ## Products -/

/-- A word of the residue `a / 2^32`, less than `q` away from zero. The word `t` is chosen so that
`t * q` agrees with `a` in the low 32 bits, and the division is exact. -/
def montgomery (a : Int64) : Coeff :=
  let t := a.toInt32 * inverseQ
  ((a - t.toInt64 * q.toInt64) >>> 32).toInt32

/-- A word of the residue `a * b / 2^32`. -/
def mul (a b : Coeff) : Coeff := montgomery (a.toInt64 * b.toInt64)

end Coeff

end MLDSA
