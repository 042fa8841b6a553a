import Mathlib.Algebra.BigOperators.Fin
import Mathlib.Algebra.Order.BigOperators.Group.Finset
import Mathlib.Algebra.BigOperators.Ring.Finset
import Mathlib.Algebra.Order.Ring.Int
import Mathlib.Tactic.Ring
import MLDSA.Proofs.Ring.Residue

/-! # Schoolbook arithmetic modulo `X^256 + 1`

The ring `R[X] / (X^256 + 1)` with the product written out coefficient by coefficient. The key fact
is that a root of `X^256 + 1` turns this product into a product of values. -/

namespace MLDSA

/-- An element of `R[X] / (X^256 + 1)` by its coefficients, the constant one first. -/
@[ext] structure Negacyclic (R : Type) where
  coeff : Fin 256 → R
deriving DecidableEq

namespace Negacyclic

variable {R T : Type} [CommRing R] [CommRing T]

instance : Zero (Negacyclic R) := ⟨⟨fun _ => 0⟩⟩
instance : Add (Negacyclic R) := ⟨fun a b => ⟨fun k => a.coeff k + b.coeff k⟩⟩
instance : Neg (Negacyclic R) := ⟨fun a => ⟨fun k => -a.coeff k⟩⟩
instance : Sub (Negacyclic R) := ⟨fun a b => ⟨fun k => a.coeff k - b.coeff k⟩⟩
instance : SMul R (Negacyclic R) := ⟨fun r a => ⟨fun k => r * a.coeff k⟩⟩

/-- Degrees that add up to `k` count for `X^k`, and those that add up to `k + 256` count against it,
because `X^256` is `-1`. -/
instance : Mul (Negacyclic R) := ⟨fun a b => ⟨fun k => ∑ i : Fin 256, ∑ j : Fin 256,
  if i.val + j.val = k.val then a.coeff i * b.coeff j
  else if i.val + j.val = k.val + 256 then -(a.coeff i * b.coeff j)
  else 0⟩⟩

@[simp] theorem coeff_zero (k : Fin 256) : (0 : Negacyclic R).coeff k = 0 := rfl

@[simp] theorem coeff_add (a b : Negacyclic R) (k : Fin 256) :
    (a + b).coeff k = a.coeff k + b.coeff k := rfl

@[simp] theorem coeff_neg (a : Negacyclic R) (k : Fin 256) : (-a).coeff k = -a.coeff k := rfl

@[simp] theorem coeff_sub (a b : Negacyclic R) (k : Fin 256) :
    (a - b).coeff k = a.coeff k - b.coeff k := rfl

@[simp] theorem coeff_smul (r : R) (a : Negacyclic R) (k : Fin 256) :
    (r • a).coeff k = r * a.coeff k := rfl

theorem coeff_mul (a b : Negacyclic R) (k : Fin 256) :
    (a * b).coeff k = ∑ i : Fin 256, ∑ j : Fin 256,
      if i.val + j.val = k.val then a.coeff i * b.coeff j
      else if i.val + j.val = k.val + 256 then -(a.coeff i * b.coeff j)
      else 0 := rfl

instance : AddCommGroup (Negacyclic R) where
  add_assoc a b c := Negacyclic.ext (funext fun k => add_assoc _ _ _)
  zero_add a := Negacyclic.ext (funext fun k => zero_add _)
  add_zero a := Negacyclic.ext (funext fun k => add_zero _)
  add_comm a b := Negacyclic.ext (funext fun k => add_comm _ _)
  neg_add_cancel a := Negacyclic.ext (funext fun k => neg_add_cancel _)
  sub_eq_add_neg a b := Negacyclic.ext (funext fun k => sub_eq_add_neg _ _)
  nsmul := nsmulRec
  zsmul := zsmulRec

instance : MulZeroClass (Negacyclic R) where
  zero_mul a := by
    ext k
    simp [coeff_mul]
  mul_zero a := by
    ext k
    simp [coeff_mul]

/-- A matrix times a vector. -/
def mulVec {k l : Nat} (A : Fin k → Fin l → Negacyclic R) (v : Fin l → Negacyclic R) :
    Fin k → Negacyclic R := fun i => ∑ j, A i j * v j

/-! ## Values -/

/-- The value at `x`. -/
def eval (x : R) (a : Negacyclic R) : R := ∑ i : Fin 256, a.coeff i * x ^ i.val

theorem eval_add (x : R) (a b : Negacyclic R) : (a + b).eval x = a.eval x + b.eval x := by
  simp only [eval, coeff_add, add_mul, Finset.sum_add_distrib]

theorem eval_sub (x : R) (a b : Negacyclic R) : (a - b).eval x = a.eval x - b.eval x := by
  simp only [eval, coeff_sub, sub_mul, Finset.sum_sub_distrib]

theorem eval_smul (x r : R) (a : Negacyclic R) : (r • a).eval x = r * a.eval x := by
  simp only [eval, coeff_smul, mul_assoc, Finset.mul_sum]

theorem eval_zero (x : R) : (0 : Negacyclic R).eval x = 0 := by
  simp [eval]

theorem eval_sum {ι : Type} (x : R) (s : Finset ι) (f : ι → Negacyclic R) :
    (∑ j ∈ s, f j).eval x = ∑ j ∈ s, (f j).eval x :=
  map_sum (⟨⟨eval x, eval_zero x⟩, eval_add x⟩ : Negacyclic R →+ R) f s

theorem sum_wrap {x : R} (hx : x ^ 256 = -1) (v : R) (i j : Fin 256) :
    ∑ k : Fin 256, (if i.val + j.val = k.val then v
      else if i.val + j.val = k.val + 256 then -v else 0) * x ^ k.val =
      v * x ^ (i.val + j.val) := by
  by_cases h : i.val + j.val < 256
  · rw [Finset.sum_eq_single ⟨i.val + j.val, h⟩]
    · simp
    · intro k _ hk
      have : i.val + j.val ≠ k.val := fun e => hk (Fin.ext e.symm)
      rw [if_neg this, if_neg (by omega), zero_mul]
    · simp
  · obtain ⟨m, hm⟩ : ∃ m, i.val + j.val = m + 256 := ⟨i.val + j.val - 256, by omega⟩
    rw [Finset.sum_eq_single ⟨m, by omega⟩]
    · rw [hm, pow_add, hx, if_neg (Nat.ne_of_gt (Nat.lt_add_of_pos_right (by decide))), if_pos rfl]
      ring
    · intro k _ hk
      have : i.val + j.val ≠ k.val + 256 := fun e => hk (Fin.ext (by simp; omega))
      rw [if_neg (by omega), if_neg this, zero_mul]
    · simp

theorem eval_mul {x : R} (hx : x ^ 256 = -1) (a b : Negacyclic R) :
    (a * b).eval x = a.eval x * b.eval x := by
  calc (a * b).eval x
      = ∑ i : Fin 256, ∑ j : Fin 256, ∑ k : Fin 256,
          (if i.val + j.val = k.val then a.coeff i * b.coeff j
            else if i.val + j.val = k.val + 256 then -(a.coeff i * b.coeff j) else 0) *
            x ^ k.val := by
        simp only [eval, coeff_mul, Finset.sum_mul]
        rw [Finset.sum_comm]
        refine Finset.sum_congr rfl fun i _ => Finset.sum_comm
    _ = ∑ i : Fin 256, ∑ j : Fin 256, a.coeff i * b.coeff j * x ^ (i.val + j.val) := by
        simp only [sum_wrap hx]
    _ = a.eval x * b.eval x := by
        simp only [eval, Finset.sum_mul_sum]
        refine Finset.sum_congr rfl fun i _ => Finset.sum_congr rfl fun j _ => ?_
        rw [pow_add]; ring

theorem eval_mulVec {k l : Nat} {x : R} (hx : x ^ 256 = -1) (A : Fin k → Fin l → Negacyclic R)
    (v : Fin l → Negacyclic R) (i : Fin k) :
    (mulVec A v i).eval x = ∑ j, (A i j).eval x * (v j).eval x := by
  simp only [mulVec, eval_sum, eval_mul hx]

/-! ## Change of coefficients -/

def mapCoeff (f : R →+* T) (a : Negacyclic R) : Negacyclic T := ⟨fun k => f (a.coeff k)⟩

@[simp] theorem coeff_mapCoeff (f : R →+* T) (a : Negacyclic R) (k : Fin 256) :
    (a.mapCoeff f).coeff k = f (a.coeff k) := rfl

theorem mapCoeff_mul (f : R →+* T) (a b : Negacyclic R) :
    (a * b).mapCoeff f = a.mapCoeff f * b.mapCoeff f := by
  ext k
  simp only [coeff_mapCoeff, coeff_mul, map_sum, apply_ite f, map_mul, map_neg, map_zero]

/-! ## Size -/

theorem sum_wrap_le {B : Nat} {b : Negacyclic ℤ} (hb : ∀ j, (b.coeff j).natAbs ≤ B) (v : ℤ)
    (i k : Fin 256) :
    (∑ j : Fin 256, if i.val + j.val = k.val then v * b.coeff j
      else if i.val + j.val = k.val + 256 then -(v * b.coeff j) else 0).natAbs ≤ v.natAbs * B := by
  rw [Finset.sum_eq_single (k - i)]
  · have : (v * b.coeff (k - i)).natAbs ≤ v.natAbs * B := by
      rw [Int.natAbs_mul]; exact Nat.mul_le_mul_left _ (hb _)
    split
    · exact this
    · split
      · rwa [Int.natAbs_neg]
      · simp
  · intro j _ hj
    have hne : ∀ m, i.val + j.val = k.val + m * 256 → j = k - i := fun m h =>
      Fin.ext (by rw [Fin.val_sub]; omega)
    rw [if_neg fun h => hj (hne 0 (by omega)), if_neg fun h => hj (hne 1 (by omega))]
  · simp

theorem natAbs_coeff_mul_le {B : Nat} (a : Negacyclic ℤ) {b : Negacyclic ℤ}
    (hb : ∀ j, (b.coeff j).natAbs ≤ B) (k : Fin 256) :
    ((a * b).coeff k).natAbs ≤ (∑ i, (a.coeff i).natAbs) * B := by
  rw [coeff_mul, Finset.sum_mul]
  refine le_trans (Int.natAbs_sum_le _ _) (Finset.sum_le_sum fun i _ => ?_)
  exact sum_wrap_le hb _ i k

end Negacyclic

/-- The ring in which the scheme computes. -/
abbrev Rq := Negacyclic Zq

end MLDSA
