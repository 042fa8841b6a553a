import Mathlib.RingTheory.AdjoinRoot
import MLDSA.Proofs.Ring.Product

/-! # The ring as remainders modulo `X^256 + 1`

An element of the ring is the polynomial with its coefficients, and the schoolbook product is the
remainder of the product of polynomials. The transform takes the values of that polynomial, and its
inverse gives the polynomial back. The key fact is that `X` is a root of `X^256 + 1` in the
quotient, so that what holds of the value at every root holds of the remainder. -/

namespace MLDSA

open Polynomial Coeff

instance : Nontrivial Zq := ZMod.nontrivial_iff.mpr (by decide)

namespace Negacyclic

variable {R : Type} [CommRing R]

/-! ## Elements as polynomials -/

noncomputable def polynomial (a : Negacyclic R) : R[X] := ∑ i : Fin 256, C (a.coeff i) * X ^ i.val

theorem degree_polynomial_lt (a : Negacyclic R) : a.polynomial.degree < 256 :=
  degree_sum_fin_lt a.coeff

theorem coeff_polynomial (a : Negacyclic R) (k : Fin 256) : a.polynomial.coeff k = a.coeff k := by
  simp only [polynomial, finsetSum_coeff, coeff_C_mul_X_pow, Fin.val_inj]
  simp

theorem eval_polynomial (x : R) (a : Negacyclic R) : a.polynomial.eval x = a.eval x := by
  simp only [polynomial, eval_finsetSum, Polynomial.eval_mul, Polynomial.eval_C,
    Polynomial.eval_pow, Polynomial.eval_X, eval]

theorem polynomial_sub (a b : Negacyclic R) :
    (a - b).polynomial = a.polynomial - b.polynomial := by
  simp only [polynomial, coeff_sub, map_sub, sub_mul, Finset.sum_sub_distrib]

theorem polynomial_smul (r : R) (a : Negacyclic R) :
    (r • a).polynomial = C r * a.polynomial := by
  simp only [polynomial, coeff_smul, map_mul, mul_assoc, Finset.mul_sum]

theorem coeff_sum {ι : Type} (s : Finset ι) (f : ι → Negacyclic R) (k : Fin 256) :
    (∑ j ∈ s, f j).coeff k = ∑ j ∈ s, (f j).coeff k :=
  map_sum (⟨⟨fun a => a.coeff k, rfl⟩, fun _ _ => rfl⟩ : Negacyclic R →+ R) f s

theorem polynomial_sum {ι : Type} (s : Finset ι) (f : ι → Negacyclic R) :
    (∑ j ∈ s, f j).polynomial = ∑ j ∈ s, (f j).polynomial := by
  simp only [polynomial, coeff_sum, map_sum, Finset.sum_mul]
  exact Finset.sum_comm

/-! ## Remainders -/

theorem degree_modulus [Nontrivial R] {n : Nat} (hn : 0 < n) : (X ^ n + 1 : R[X]).degree = n := by
  rw [← C_1, degree_X_pow_add_C hn]

theorem monic_modulus {n : Nat} (hn : 0 < n) : (X ^ n + 1 : R[X]).Monic := by
  rw [← C_1]
  exact monic_X_pow_add_C 1 hn.ne'

theorem pow_modByMonic [Nontrivial R] {n : Nat} (hn : 0 < n) :
    (X ^ n : R[X]) %ₘ (X ^ n + 1) = -1 := by
  have hsum : (-1 : R[X]) + (X ^ n + 1) * 1 = X ^ n := by ring
  have hdegree : (-1 : R[X]).degree < (X ^ n + 1 : R[X]).degree := by
    rw [degree_modulus hn, degree_neg, degree_one]
    exact_mod_cast hn
  exact (div_modByMonic_unique 1 (-1) (monic_modulus hn) ⟨hsum, hdegree⟩).2

theorem root_pow : AdjoinRoot.root (X ^ 256 + 1 : R[X]) ^ 256 = -1 := by
  have h := AdjoinRoot.mk_self (f := (X ^ 256 + 1 : R[X]))
  rw [map_add, map_pow, map_one, AdjoinRoot.mk_X] at h
  exact eq_neg_of_add_eq_zero_left h

theorem mk_polynomial (a : Negacyclic R) : AdjoinRoot.mk (X ^ 256 + 1) a.polynomial =
    (a.mapCoeff (AdjoinRoot.of (X ^ 256 + 1))).eval (AdjoinRoot.root (X ^ 256 + 1)) := by
  simp only [polynomial, eval, map_sum, map_mul, map_pow, AdjoinRoot.mk_C, AdjoinRoot.mk_X,
    coeff_mapCoeff]

theorem mk_mul (a b : Negacyclic R) : AdjoinRoot.mk (X ^ 256 + 1) (a * b).polynomial =
    AdjoinRoot.mk (X ^ 256 + 1) (a.polynomial * b.polynomial) := by
  -- Each polynomial is, in the quotient, its value at the root.
  rw [map_mul, mk_polynomial, mk_polynomial, mk_polynomial, mapCoeff_mul, eval_mul root_pow]

theorem mk_mulVec {k l : Nat} (A : Fin k → Fin l → Negacyclic R) (v : Fin l → Negacyclic R)
    (i : Fin k) : AdjoinRoot.mk (X ^ 256 + 1) (mulVec A v i).polynomial =
      AdjoinRoot.mk (X ^ 256 + 1) (∑ j, (A i j).polynomial * (v j).polynomial) := by
  rw [mulVec, polynomial_sum, map_sum, map_sum]
  exact Finset.sum_congr rfl fun j _ => mk_mul (A i j) (v j)

theorem modByMonic_eq_polynomial [Nontrivial R] {f : R[X]} {a : Negacyclic R}
    (h : AdjoinRoot.mk (X ^ 256 + 1) a.polynomial = AdjoinRoot.mk (X ^ 256 + 1) f) :
    f %ₘ (X ^ 256 + 1) = a.polynomial := by
  have hmonic : (X ^ 256 + 1 : R[X]).Monic := monic_modulus (by decide)
  rw [modByMonic_eq_of_dvd_sub hmonic (AdjoinRoot.mk_eq_mk.mp h.symm),
    modByMonic_eq_self_iff hmonic, degree_modulus (by decide)]
  exact a.degree_polynomial_lt

end Negacyclic

/-! ## Words -/

namespace Poly

/-- The polynomial whose coefficients are the residues of the words. -/
noncomputable def polynomial (p : Poly) : Zq[X] := p.element.polynomial

/-- The words are the coefficients in `[0, q)` of what `f` is modulo `X^256 + 1`. -/
def IsCanonicalOf (p : Poly) (f : Zq[X]) : Prop :=
  ∀ k : Fin 256, (p k).toInt = ((f %ₘ (X ^ 256 + 1)).coeff k).val

theorem IsCanonical.of_mk {p : Poly} {f : Zq[X]} (h : p.IsCanonical)
    (hmk : AdjoinRoot.mk (X ^ 256 + 1) p.polynomial = AdjoinRoot.mk (X ^ 256 + 1) f) :
    p.IsCanonicalOf f := by
  intro k
  rw [h k, Negacyclic.modByMonic_eq_polynomial hmk, Negacyclic.coeff_polynomial]

theorem IsCanonicalOf.toInt_eq {p : Poly} {f g : Zq[X]} (h : p.IsCanonicalOf f)
    (hg : f %ₘ (X ^ 256 + 1) = g) (k : Fin 256) : (p k).toInt = (g.coeff k).val := by
  rw [h k, hg]

theorem IsCanonicalOf.toInt_polynomial {p a : Poly} (h : p.IsCanonicalOf a.polynomial)
    (k : Fin 256) : (p k).toInt = (residue (a k)).val := by
  have hcoeff : a.polynomial.coeff k = residue (a k) := Negacyclic.coeff_polynomial a.element k
  rw [h.toInt_eq (Negacyclic.modByMonic_eq_polynomial rfl) k, ← hcoeff]
  rfl

/-- The word `w` at degree `n`, and zero elsewhere. -/
def monomial (n : Fin 256) (w : Coeff) : Poly := ofFn fun i => if i = n then w else 0

theorem monomial_apply (n i : Fin 256) (w : Coeff) : monomial n w i = if i = n then w else 0 :=
  ofFn_apply _ i

theorem monomial_within {B : Nat} {w : Coeff} (h : size w ≤ B) (n : Fin 256) :
    (monomial n w).Within B := by
  intro i
  rw [monomial_apply]
  split
  · exact h
  · exact Nat.zero_le B

theorem isCanonical_monomial {w : Coeff} (h0 : 0 ≤ w.toInt) (hq : w.toInt < 8380417)
    (n : Fin 256) : (monomial n w).IsCanonical := by
  intro i
  have hzero : (0 : Coeff).toInt = 0 := rfl
  rw [coeff_element, val_residue, monomial_apply]
  split
  · omega
  · omega

theorem polynomial_monomial (n : Fin 256) (w : Coeff) :
    (monomial n w).polynomial = C (residue w) * X ^ n.val := by
  rw [polynomial, Negacyclic.polynomial, Finset.sum_eq_single n]
  · rw [coeff_element, monomial_apply, if_pos rfl]
  · intro i _ hi
    have hzero : residue 0 = 0 := by decide
    rw [coeff_element, monomial_apply, if_neg hi, hzero, C_0, zero_mul]
  · exact fun h => absurd (Finset.mem_univ n) h

end Poly

/-! ## Products -/

namespace Poly

/-- The words are less than `q` away from zero. Their residues are the coefficients of the
schoolbook product of `a` and `b`, which is the product modulo `X^256 + 1`. -/
structure IsProduct (p a b : Poly) : Prop where
  small : ∀ k : Fin 256, size (p k) < 8380417
  schoolbook : ∀ k : Fin 256, residue (p k) = (a.element * b.element).coeff k
  canonical : p.canonical.IsCanonicalOf (a.polynomial * b.polynomial)

theorem isProduct_of {p a b : Poly} (h : p.element = a.element * b.element)
    (hp : p.Within 8380416) : p.IsProduct a b where
  small k := Nat.lt_succ_of_le (hp k)
  schoolbook k := by rw [← h, coeff_element]
  canonical := by
    obtain ⟨helement, hcanon⟩ := canonical_spec hp (by decide)
    refine hcanon.of_mk ?_
    rw [polynomial, helement, h]
    exact Negacyclic.mk_mul a.element b.element

end Poly

/-- Values multiplied one by one are the values of the product in the ring. No factor `2^32` is left
over, and each word is less than `q` away from zero. -/
theorem products_by_values :
    (∀ a b : Poly, a.Within 8380416 → b.Within 8380416 →
      (a.toNtt * b.toNtt).reduce.toPoly.IsProduct a b) ∧
    ∀ (m : Nat) (c : Poly) (v : PolyVec m), c.Within 8380416 → v.Within 8380416 →
      ∀ i : Fin m, (v.toNtt.timesChallenge c.toNtt i).IsProduct c (v i) := by
  constructor
  · intro a b ha hb
    obtain ⟨helement, hwithin⟩ := Poly.product_spec ha hb
    exact Poly.isProduct_of helement hwithin
  · intro m c v hc hv i
    obtain ⟨helements, hwithin⟩ := PolyVec.timesChallenge_spec hc hv
    exact Poly.isProduct_of (congrFun helements i) (hwithin i)

theorem product_of_monomials :
    let p := Poly.monomial 1 8380416
    let r := Poly.monomial 255 8380416
    ((p.toNtt * r.toNtt).reduce.toPoly.canonical 0).toInt = 8380416 ∧
      ((NttVec.timesChallenge p.toNtt (⟨#v[r]⟩ : PolyVec 1).toNtt 0).canonical 0).toInt =
        8380416 := by
  intro p r
  have hsize : size 8380416 ≤ 8380416 := by decide +kernel
  have hp : p.Within 8380416 := Poly.monomial_within hsize 1
  have hr : r.Within 8380416 := Poly.monomial_within hsize 255
  have hwrap : (p.polynomial * r.polynomial) %ₘ (X ^ 256 + 1) = -1 := by
    have hone : residue 8380416 * residue 8380416 = 1 := by decide
    have hdegrees : (1 : Fin 256).val + (255 : Fin 256).val = 256 := rfl
    rw [Poly.polynomial_monomial, Poly.polynomial_monomial, mul_mul_mul_comm, ← C_mul, hone, C_1,
      one_mul, ← pow_add, hdegrees]
    exact Negacyclic.pow_modByMonic (by decide)
  have hlast : (((-1 : Zq[X]).coeff (0 : Fin 256).val).val : Int) = 8380416 := by
    rw [Fin.val_zero, coeff_neg, coeff_one_zero]
    decide
  have hv : (⟨#v[r]⟩ : PolyVec 1).Within 8380416 := fun i => Subsingleton.elim 0 i ▸ hr
  have hpair := (products_by_values.1 p r hp hr).canonical
  have hvec := (products_by_values.2 1 p ⟨#v[r]⟩ hp hv 0).canonical
  exact ⟨(hpair.toInt_eq hwrap 0).trans hlast, (hvec.toInt_eq hwrap 0).trans hlast⟩

/-! ## Values and back -/

theorem point_eq (k : Fin 256) :
    point k = 1753 ^ (2 * (BitVec.ofNat 8 k.val).reverse.toNat + 1) := by
  have h : ∀ k < 256, reversedBits k = (BitVec.ofNat 8 k).reverse.toNat := by
    decide +kernel
  rw [point, h k.val k.isLt]

namespace Poly

/-- Each word by Montgomery reduction, which divides by `2^32`. -/
def unscaled : Poly → Poly := map fun a => montgomery a.toInt64

theorem unscaled_spec {p : Poly} {e : Rq} (h : p.element = (2 ^ 32 : Zq) • e) :
    p.unscaled.element = e ∧ p.unscaled.Within 8380416 := by
  apply spec_of_residues
  intro i
  have hmul : montgomery (p i).toInt64 = mul (p i) 1 := congrArg montgomery (Int64.mul_one _).symm
  have hsize : size (p i) * size 1 < 8380417 * 2 ^ 31 := by
    have hone : size 1 = 1 := rfl
    obtain ⟨h1, h2⟩ := toInt_fits (p i)
    rw [hone, size]
    omega
  have hcoeff : residue (p i) = 2 ^ 32 * e.coeff i := congrFun (congrArg Negacyclic.coeff h) i
  have hres : residue (mul (p i) 1) * 2 ^ 32 = residue (p i) * residue 1 := residue_mul hsize
  rw [unscaled, map_apply, hmul]
  refine ⟨isUnit_montgomery.mul_right_cancel ?_, Nat.le_of_lt_succ (size_mul hsize)⟩
  have hone : residue 1 = 1 := by decide
  rw [hres, hcoeff, hone, mul_one, mul_comm]

end Poly

theorem Poly.element_toNtt_toPoly {a : Poly} (ha : a.Within 8380416) :
    a.toNtt.reduce.toPoly.element = (2 ^ 32 : Zq) • a.element := by
  obtain ⟨hwithin, hvalue⟩ := Poly.toNtt_spec ha (by decide)
  refine Negacyclic.ext_eval fun k => ?_
  rw [(NttPoly.reduce_toPoly_spec hwithin (by decide)).2, hvalue, Negacyclic.eval_smul]

theorem NttPoly.element_toPoly {v : NttPoly} (hv : v.Within 8380416) :
    v.toPoly.element = (2 ^ 32 : Zq) • v.element := by
  refine Negacyclic.ext_eval fun k => ?_
  rw [(NttPoly.toPoly_spec hv).2, Negacyclic.eval_smul, NttPoly.eval_element]

theorem Poly.value_toNtt {p : Poly} {v : NttPoly} (hp : p.Within 8380416)
    (h : p.element = v.element) (k : Fin 256) : p.toNtt.value k = v.value k := by
  rw [(Poly.toNtt_spec hp (by decide)).2, h, NttPoly.eval_element]

/-- Entry `k` of the transform is the value at 1753 to the power `2 * b + 1`, where `b` has the
reversed bits of `k`. There and back, in either order, leaves a factor `2^32` and nothing else. -/
theorem transform_inverts :
    (∀ a : Poly, a.Within 8380416 → ∀ k : Fin 256, residue (a.toNtt k) =
      a.polynomial.eval (1753 ^ (2 * (BitVec.ofNat 8 k.val).reverse.toNat + 1))) ∧
    (∀ a : Poly, a.Within 8380416 → ∀ k : Fin 256,
      residue (a.toNtt.reduce.toPoly.unscaled k) = residue (a k)) ∧
    ∀ v : NttPoly, v.Within 8380416 → ∀ k : Fin 256,
      residue (v.toPoly.unscaled.toNtt k) = residue (v k) := by
  refine ⟨fun a ha k => ?_, fun a ha k => ?_, fun v hv k => ?_⟩
  · rw [← point_eq, Poly.polynomial, Negacyclic.eval_polynomial]
    exact (Poly.toNtt_spec ha (by decide)).2 k
  · have helement := (Poly.unscaled_spec (Poly.element_toNtt_toPoly ha)).1
    exact congrFun (congrArg Negacyclic.coeff helement) k
  · obtain ⟨helement, hwithin⟩ := Poly.unscaled_spec (NttPoly.element_toPoly hv)
    exact Poly.value_toNtt hwithin helement k

theorem transform_of_monomial :
    let a := Poly.monomial 1 8380416
    let v : NttPoly := ⟨a.coeffs⟩
    residue (a.toNtt 1) = 1753 ∧ residue (a.toNtt.reduce.toPoly.unscaled 1) = -1 ∧
      residue (v.toPoly.unscaled.toNtt 1) = -1 := by
  intro a v
  have ha : a.Within 8380416 := Poly.monomial_within (by decide +kernel) 1
  have hword : residue (a 1) = -1 := by
    have h : a 1 = 8380416 := Poly.monomial_apply 1 1 8380416
    rw [h]
    decide
  obtain ⟨hvalue, hback, hforth⟩ := transform_inverts
  refine ⟨?_, (hback a ha 1).trans hword, (hforth v ha 1).trans hword⟩
  have hneg : residue 8380416 = -1 := by decide
  rw [hvalue a ha 1, Poly.polynomial_monomial, hneg, eval_mul, eval_C, eval_pow, eval_X]
  decide +kernel

end MLDSA
