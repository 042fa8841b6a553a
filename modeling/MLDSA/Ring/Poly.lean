import MLDSA.Ring.Split

/-! # Polynomials

An element of `Z_q[X] / (X^256 + 1)` is held either by its coefficients (`Poly`) or by its values at
the 256 roots of `X^256 + 1` (`NttPoly`). They are two types, because a product of values is the
product in the ring and a product of coefficients, one by one, is nothing. Sums do not reduce. -/

namespace MLDSA

/-- A polynomial by its coefficients, the constant one first. -/
structure Poly where
  coeffs : Vector Coeff 256
deriving DecidableEq

/-- A polynomial by its values, in the order in which the transform leaves them. -/
structure NttPoly where
  values : Vector Coeff 256
deriving DecidableEq

namespace Poly

def zero : Poly := ⟨Vector.replicate 256 0⟩

/-- The polynomial with these coefficients, the missing ones zero. -/
def ofList (l : List Coeff) : Poly :=
  let a := l.toArray
  ⟨Vector.ofFn fun i => a.getD i 0⟩

def map (f : Coeff → Coeff) (p : Poly) : Poly := ⟨p.coeffs.map f⟩

instance : Add Poly := ⟨fun a b => ⟨Vector.zipWith (· + ·) a.coeffs b.coeffs⟩⟩
instance : Sub Poly := ⟨fun a b => ⟨Vector.zipWith (· - ·) a.coeffs b.coeffs⟩⟩
instance : Neg Poly := ⟨map (-·)⟩

@[simp] theorem coeffs_map (f : Coeff → Coeff) (p : Poly) : (p.map f).coeffs = p.coeffs.map f := rfl

@[simp] theorem coeffs_add (a b : Poly) :
    (a + b).coeffs = Vector.zipWith (· + ·) a.coeffs b.coeffs := rfl

@[simp] theorem coeffs_sub (a b : Poly) :
    (a - b).coeffs = Vector.zipWith (· - ·) a.coeffs b.coeffs := rfl

@[simp] theorem coeffs_neg (a : Poly) : (-a).coeffs = a.coeffs.map (-·) := rfl

def reduce : Poly → Poly := map Coeff.reduce
def addModulus : Poly → Poly := map Coeff.addModulus
def canonical : Poly → Poly := map Coeff.canonical

/-- Each coefficient times `2^bits`, within its word. -/
def shiftLeft (bits : Coeff) : Poly → Poly := map (· <<< bits)

/-- Each coefficient's residue is less than `bound` away from zero. -/
def isBelow (bound : Coeff) (p : Poly) : Bool := p.coeffs.all (Coeff.isBelow bound)

end Poly

namespace NttPoly

def zero : NttPoly := ⟨Vector.replicate 256 0⟩

def map (f : Coeff → Coeff) (p : NttPoly) : NttPoly := ⟨p.values.map f⟩

instance : Add NttPoly := ⟨fun a b => ⟨Vector.zipWith (· + ·) a.values b.values⟩⟩
instance : Sub NttPoly := ⟨fun a b => ⟨Vector.zipWith (· - ·) a.values b.values⟩⟩

/-- The product at each root, divided by `2^32`. -/
instance : Mul NttPoly := ⟨fun a b => ⟨Vector.zipWith Coeff.mul a.values b.values⟩⟩

@[simp] theorem values_map (f : Coeff → Coeff) (p : NttPoly) :
    (p.map f).values = p.values.map f := rfl

@[simp] theorem values_add (a b : NttPoly) :
    (a + b).values = Vector.zipWith (· + ·) a.values b.values := rfl

@[simp] theorem values_sub (a b : NttPoly) :
    (a - b).values = Vector.zipWith (· - ·) a.values b.values := rfl

@[simp] theorem values_mul (a b : NttPoly) :
    (a * b).values = Vector.zipWith Coeff.mul a.values b.values := rfl

def reduce : NttPoly → NttPoly := map Coeff.reduce

end NttPoly

end MLDSA
