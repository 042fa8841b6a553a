import MLDSA.Proofs.Ring.Quotient
import MLDSA.Proofs.Verification

/-! # The two commitments

The signer commits to `A * y`, and the verifier finds `A * z - c * t1 * 2^13` again. Both add up
products of values before they reduce once, and both come out as the coefficients in `[0, q)` of the
polynomials that they stand for. The key fact is that an entry of the matrix is the transform of one
polynomial and no other, so a row of values is a row of polynomials. -/

namespace MLDSA

open Polynomial Coeff

/-! ## The polynomials of a matrix -/

theorem Poly.IsCanonical.eq_of_element {a b : Poly} (ha : a.IsCanonical) (hb : b.IsCanonical)
    (h : a.element = b.element) : a = b :=
  Poly.ext_toInt fun k => by rw [ha k, hb k, h]

/-- The values are those of this polynomial, whose coefficients are in `[0, q)`. -/
structure NttPoly.IsTransformOf (v : NttPoly) (p : Poly) : Prop where
  canonical : p.IsCanonical
  values : ∀ k : Fin 256, residue (v k) = residue (p.toNtt k)

theorem NttPoly.IsTransformOf.element_eq {v : NttPoly} {p : Poly} (h : v.IsTransformOf p) :
    p.element = v.element := by
  refine NttPoly.eq_element fun k => ?_
  rw [← (Poly.toNtt_spec h.canonical.within (by decide)).2 k]
  exact (h.values k).symm

theorem NttPoly.existsUnique_isTransformOf {v : NttPoly} (hv : v.Within 8380416) :
    ∃! p : Poly, v.IsTransformOf p := by
  -- The polynomial is what the program's own inverse gives, less its factor.
  obtain ⟨hunscaled, hwithin⟩ := Poly.unscaled_spec (NttPoly.element_toPoly hv)
  obtain ⟨helement, hcanon⟩ := Poly.canonical_spec hwithin (by decide)
  have hvalue := Poly.value_toNtt hcanon.within (helement.trans hunscaled)
  refine ⟨v.toPoly.unscaled.canonical, ⟨hcanon, fun k => (hvalue k).symm⟩, fun p hp => ?_⟩
  exact hp.canonical.eq_of_element hcanon
    (hp.element_eq.trans (helement.trans hunscaled).symm)

namespace Matrix

variable {k l : Nat}

def IsReduced (a : Matrix k l) : Prop :=
  ∀ i j (x : Fin 256), 0 ≤ (a i j x).toInt ∧ (a i j x).toInt < 8380417

theorem IsReduced.within {a : Matrix k l} (h : a.IsReduced) : a.Within 8380416 := by
  intro i j x
  obtain ⟨h0, hq⟩ := h i j x
  unfold size
  omega

def IsTransformOf (a : Matrix k l) (p : Fin k → Fin l → Poly) : Prop :=
  ∀ i j, (a i j).IsTransformOf (p i j)

theorem IsTransformOf.elements_eq {a : Matrix k l} {p : Fin k → Fin l → Poly}
    (h : a.IsTransformOf p) : a.elements = fun i j => (p i j).element :=
  funext fun i => funext fun j => (h i j).element_eq.symm

theorem existsUnique_isTransformOf {a : Matrix k l} (ha : a.Within 8380416) :
    ∃! p : Fin k → Fin l → Poly, a.IsTransformOf p := by
  choose p hp hunique using fun i j => NttPoly.existsUnique_isTransformOf (ha i j)
  exact ⟨p, hp, fun r hr => funext fun i => funext fun j => hunique i j _ (hr i j)⟩

end Matrix

theorem HashSuite.matrix_isReduced {S : HashSuite} {rho : Octets seedBytes}
    {a : Matrix rows columns} (h : S.matrix rho = some a) : a.IsReduced :=
  fun i j => uniformPoly_bounds (matrix_eq_some.mp h i j)

/-! ## Rows -/

namespace Matrix

variable {k l : Nat} {a : Matrix k l} {p : Fin k → Fin l → Poly} {v : PolyVec l}

theorem mk_mulVec (hp : a.IsTransformOf p) (v : PolyVec l) (i : Fin k) :
    AdjoinRoot.mk (X ^ 256 + 1) (Negacyclic.mulVec a.elements v.elements i).polynomial =
      AdjoinRoot.mk (X ^ 256 + 1) (∑ j, (p i j).polynomial * (v j).polynomial) := by
  rw [hp.elements_eq]
  exact Negacyclic.mk_mulVec _ _ i

theorem product_isCanonicalOf (hp : a.IsTransformOf p) (ha : a.Within 8380416)
    (hv : v.Within 8380416) (hl : l ≤ 255) (i : Fin k) :
    (a.product v i).IsCanonicalOf (∑ j, (p i j).polynomial * (v j).polynomial) := by
  obtain ⟨helements, hcanon⟩ := product_spec ha hv hl
  refine (hcanon i).of_mk ?_
  rw [← mk_mulVec hp, ← helements]
  rfl

theorem product_sub_isCanonicalOf {c : Poly} {u : PolyVec k} (hp : a.IsTransformOf p)
    (ha : a.Within 8380416) (hv : v.Within 8380416) (hc : c.Within 8380416)
    (hu : u.Within 8380416) (hl : l ≤ 254) (i : Fin k) :
    ((a.mulVec v.toNtt - u.toNtt.scale c.toNtt).residues i).IsCanonicalOf
      (∑ j, (p i j).polynomial * (v j).polynomial - c.polynomial * (u i).polynomial) := by
  obtain ⟨helements, hcanon⟩ := product_sub_spec ha hv hc hu hl
  refine (hcanon i).of_mk ?_
  have hrow : ((a.mulVec v.toNtt - u.toNtt.scale c.toNtt).residues i).polynomial =
      (Negacyclic.mulVec a.elements v.elements i - c.element * u.elements i).polynomial :=
    congrArg Negacyclic.polynomial (congrFun helements i)
  rw [hrow, Negacyclic.polynomial_sub, map_sub, map_sub, mk_mulVec hp, Negacyclic.mk_mul]
  rfl

end Matrix

theorem PolyVec.polynomial_shiftLeft {m : Nat} {v : PolyVec m} (hv : v.InRange 0 1023)
    (i : Fin m) : (v.shiftLeft 13 i).polynomial = C (2 ^ 13) * (v i).polynomial :=
  (congrArg Negacyclic.polynomial (congrFun (shiftLeft_spec hv).1 i)).trans
    (Negacyclic.polynomial_smul _ _)

/-- A sampled matrix has its words in `[0, q)`, and each of its entries stands for one polynomial.
With these, the signer's product is the matrix times the vector, and what the verifier takes away is
the challenge times `t1 * 2^13`, both modulo `X^256 + 1` and with coefficients in `[0, q)`. -/
theorem commitments_canonical :
    (∀ (S : HashSuite) (rho : Octets seedBytes) (a : Matrix rows columns),
      S.matrix rho = some a → a.IsReduced) ∧
    ∀ a : Matrix rows columns, a.IsReduced →
      (∃! p : Fin rows → Fin columns → Poly, a.IsTransformOf p) ∧
      ∀ p, a.IsTransformOf p →
        (∀ v : PolyVec columns, v.Within 8380416 → ∀ i : Fin rows,
          (a.product v i).IsCanonicalOf (∑ j, (p i j).polynomial * (v j).polynomial)) ∧
        ∀ (z : PolyVec columns) (t1 : PolyVec rows) (c : Poly), z.Within 524288 →
          t1.InRange 0 1023 → c.Within 8380416 → ∀ i : Fin rows,
          ((a.mulVec z.toNtt - (t1.shiftLeft 13).toNtt.scale c.toNtt).residues i).IsCanonicalOf
            (∑ j, (p i j).polynomial * (z j).polynomial -
              c.polynomial * (C (2 ^ 13) * (t1 i).polynomial)) := by
  refine ⟨fun S rho a => HashSuite.matrix_isReduced, fun a ha => ?_⟩
  refine ⟨Matrix.existsUnique_isTransformOf ha.within, fun p hp => ⟨fun v hv i => ?_, ?_⟩⟩
  · exact Matrix.product_isCanonicalOf hp ha.within hv (by decide) i
  · intro z t1 c hz ht1 hc i
    rw [← PolyVec.polynomial_shiftLeft ht1]
    exact Matrix.product_sub_isCanonicalOf hp ha.within (hz.mono (by decide)) hc
      (PolyVec.shiftLeft_spec ht1).2 (by decide) i

/-! ## Ones -/

namespace Matrix

variable {k l : Nat}

def ones : Matrix k l := ⟨Vector.ofFn fun _ => Vector.ofFn fun _ => ⟨Vector.replicate 256 1⟩⟩

theorem ones_apply (i : Fin k) (j : Fin l) (x : Fin 256) : (ones : Matrix k l) i j x = 1 := by
  rw [ones, ofFn_apply]
  exact Vector.getElem_replicate x.isLt

theorem isReduced_ones : (ones : Matrix k l).IsReduced := by
  intro i j x
  rw [ones_apply]
  decide

end Matrix

theorem Poly.polynomial_one : (monomial 0 1).polynomial = 1 := by
  have hone : residue 1 = 1 := by decide
  rw [polynomial_monomial, hone, C_1, Fin.val_zero, pow_zero, one_mul]

theorem Matrix.isTransformOf_ones {k l : Nat} :
    (ones : Matrix k l).IsTransformOf fun _ _ => Poly.monomial 0 1 := by
  have hcanon : (Poly.monomial 0 1).IsCanonical :=
    Poly.isCanonical_monomial (by decide) (by decide) 0
  refine fun i j => ⟨hcanon, fun x => ?_⟩
  have hvalue := (Poly.toNtt_spec hcanon.within (by decide)).2 x
  rw [← Negacyclic.eval_polynomial, ← Poly.polynomial, Poly.polynomial_one, eval_one] at hvalue
  rw [ones_apply, ← NttPoly.value, hvalue]
  decide

/-- With ones for the matrix and for the challenge, five times `-X^255` has `q - 5` at the top, and
five times `2^19` less `1023 * 2^13` is lifted by `q`. -/
theorem commitments_of_ones :
    let ones : Matrix rows columns := Matrix.ones
    let v : PolyVec columns := ⟨Vector.replicate columns (Poly.monomial 255 8380416)⟩
    let z : PolyVec columns := ⟨Vector.replicate columns (Poly.monomial 0 524288)⟩
    let t1 : PolyVec rows := ⟨Vector.replicate rows (Poly.monomial 0 1023)⟩
    let c := Poly.monomial 0 1
    (ones.product v 0 255).toInt = 8380412 ∧
      ((ones.mulVec z.toNtt - (t1.shiftLeft 13).toNtt.scale c.toNtt).residues 0 0).toInt =
        2621441 := by
  intro ones v z t1 c
  have hv : ∀ j, v j = Poly.monomial 255 8380416 := fun j => Vector.getElem_replicate j.isLt
  have hz : ∀ j, z j = Poly.monomial 0 524288 := fun j => Vector.getElem_replicate j.isLt
  have ht1 : ∀ i, t1 i = Poly.monomial 0 1023 := fun i => Vector.getElem_replicate i.isLt
  have hc : c.polynomial = 1 := Poly.polynomial_one
  obtain ⟨hsigner, hverifier⟩ :=
    (commitments_canonical.2 ones Matrix.isReduced_ones).2 (fun _ _ => c) Matrix.isTransformOf_ones
  constructor
  · have hwithin : v.Within 8380416 := by
      intro j
      rw [hv]
      exact Poly.monomial_within (by decide +kernel) 255
    have hsum : ∑ j, c.polynomial * (v j).polynomial = (Poly.monomial 255 (-5)).polynomial := by
      have hword : 5 • residue 8380416 = residue (-5) := by decide
      simp only [hv, hc, one_mul, Poly.polynomial_monomial, Finset.sum_const,
        Finset.card_univ, Fintype.card_fin, ← smul_mul_assoc, smul_C, hword]
    have h := hsigner v hwithin 0
    have hlast : ((residue (-5)).val : Int) = 8380412 := by decide
    rw [hsum] at h
    rw [h.toInt_polynomial, Poly.monomial_apply, if_pos rfl, hlast]
  · have hwithin : z.Within 524288 := by
      intro j
      rw [hz]
      exact Poly.monomial_within (by decide) 0
    have hrange : t1.InRange 0 1023 := by
      intro i x
      rw [ht1, Poly.monomial_apply]
      split
      · decide
      · decide
    have hdiff : ∑ j, c.polynomial * (z j).polynomial -
        c.polynomial * (C (2 ^ 13) * (t1 0).polynomial) =
          (Poly.monomial 0 (-5758976)).polynomial := by
      have hword : 5 • residue 524288 - 2 ^ 13 * residue 1023 = residue (-5758976) := by decide
      simp only [hz, ht1, hc, one_mul, Poly.polynomial_monomial, Finset.sum_const,
        Finset.card_univ, Fintype.card_fin, ← smul_mul_assoc, smul_C, ← mul_assoc, ← C_mul,
        ← sub_mul, ← C_sub, hword]
    have h := hverifier z t1 c hwithin hrange (Poly.monomial_within (by decide) 0) 0
    have hlast : ((residue (-5758976)).val : Int) = 2621441 := by decide
    rw [hdiff] at h
    rw [h.toInt_polynomial, Poly.monomial_apply, if_pos rfl, hlast]

end MLDSA
