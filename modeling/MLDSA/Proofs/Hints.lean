import MLDSA.Proofs.Binding

/-! # What a hint does

A hint that was made for a sum takes it back to the bucket of its first term, and any other hint
goes no further than to a neighbour. The key fact is that the sixteen buckets are one short of `q`,
so that a neighbour around the end is one further away than elsewhere. -/

namespace MLDSA

open Coeff

/-! ## Hints that were made -/

namespace Coeff

variable {r v t : Coeff}

theorem useHint_makeHint_of_lt {z : Coeff} (h0 : 0 ≤ r.toInt) (hq : r.toInt < 8380417)
    (hz : z.toInt.natAbs ≤ 261888) : useHint (makeHint z r) r = highBits (canonical (r + z)) := by
  have hfits : Fits (r.toInt + z.toInt) := by constructor <;> omega
  have hback := useHint_makeHint (by omega) hfits (by omega) ((absResidue_le_natAbs _).trans hz)
  rwa [canonical_eq_self h0 hq] at hback

theorem useHint_makeHint_neg (h0 : 0 ≤ v.toInt) (hq : v.toInt < 8380417)
    (ht : t.toInt.natAbs < 8380417) (hsmall : absResidue (residue t) ≤ 261888) :
    useHint (makeHint (-t) (v + t)) (canonical (v + t)) = highBits v := by
  have hneg : (-t).toInt = -t.toInt := toInt_neg_of_fits (by constructor <;> omega)
  have hsum : (v + t).toInt = v.toInt + t.toInt := toInt_add_of_fits (by constructor <;> omega)
  have hfits : Fits ((v + t).toInt + (-t).toInt) := by
    rw [hsum, hneg]
    constructor <;> omega
  have hcancel : v + t + -t = v := by
    apply Int32.toInt.inj
    rw [toInt_add_of_fits hfits, hsum, hneg, add_neg_cancel_right]
  have hminus : absResidue (residue (-t)) ≤ 261888 := by
    rw [residue_neg (by constructor <;> omega)]
    exact (absResidue_neg_le _).trans hsmall
  rw [useHint_makeHint (by omega) hfits (by omega) hminus, hcancel, canonical_eq_self h0 hq]

end Coeff

theorem HintVec.use_make {v t : PolyVec rows} (hv : v.IsCanonical) (ht : t.Within 8380416)
    (hsmall : maxNorm t.elements ≤ 261888) :
    (make (-t) (v + t)).use (v + t).canonical = v.highBits := by
  refine PolyVec.ext_apply fun i j => ?_
  obtain ⟨h0, hq⟩ := (hv i).bounds j
  have hneg : (-t) i j = -t i j := by rw [PolyVec.neg_apply, Poly.neg_apply]
  have hsum : (v + t) i j = v i j + t i j := by rw [PolyVec.add_apply, Poly.add_apply]
  have hcanon : (v + t).canonical i j = canonical (v i j + t i j) := by
    rw [PolyVec.canonical, PolyVec.map_apply, Poly.canonical, Poly.map_apply, hsum]
  rw [use_apply, make_apply, hneg, hsum, hcanon, PolyVec.highBits, PolyVec.mapCoeffs_apply]
  exact useHint_makeHint_neg h0 hq (Nat.lt_succ_of_le (ht i j)) (maxNorm_le_iff.mp hsmall i j)

/-- A hint gives the bucket of a sum at one of its terms, and the bucket of a term at the sum. -/
theorem hints_recover :
    (∀ r z : Coeff, 0 ≤ r.toInt → r.toInt < modulus → z.toInt.natAbs ≤ gamma2 →
      useHint (makeHint z r) r = highBits (canonical (r + z))) ∧
    (∀ v t : Coeff, 0 ≤ v.toInt → v.toInt < modulus → t.toInt.natAbs < modulus →
      (centered modulus t.toInt).natAbs ≤ gamma2 →
      useHint (makeHint (-t) (v + t)) (canonical (v + t)) = highBits v) ∧
    ∀ v t : PolyVec rows, v.IsCanonical → t.Within (modulus - 1) → maxNorm t.elements ≤ gamma2 →
      (HintVec.make (-t) (v + t)).use (v + t).canonical = v.highBits := by
  refine ⟨fun r z h0 hq hz => useHint_makeHint_of_lt h0 hq hz, fun v t h0 hq ht hsmall => ?_,
    fun v t hv ht hsmall => HintVec.use_make hv ht hsmall⟩
  refine useHint_makeHint_neg h0 hq ht ?_
  rw [absResidue_residue]
  exact hsmall

/-- Half a bucket down from zero, and half a bucket up from `q - 1` by another word. -/
theorem hints_recover_ends :
    useHint (makeHint (-261888) 0) 0 = highBits (canonical (0 + -261888)) ∧
    useHint (makeHint 8118529 (8380416 + -8118529)) (canonical (8380416 + -8118529)) =
      highBits 8380416 ∧
    (HintVec.make (-PolyVec.ofFn fun _ _ => 261888)
        ((PolyVec.ofFn fun _ _ => 8380416) + PolyVec.ofFn fun _ _ => 261888)).use
      ((PolyVec.ofFn fun _ _ => 8380416) + PolyVec.ofFn fun _ _ => 261888).canonical =
        (PolyVec.ofFn fun _ _ => 8380416).highBits := by
  obtain ⟨hsum, hterm, hvec⟩ := hints_recover
  refine ⟨hsum 0 (-261888) (by decide) (by decide) (by decide),
    hterm 8380416 (-8118529) (by decide) (by decide) (by decide) (by decide),
    hvec _ _ (fun i j => ?_) (fun i j => ?_) (maxNorm_le_iff.mpr fun i j => ?_)⟩
  · rw [Poly.coeff_element, PolyVec.ofFn_apply]
    decide
  · rw [PolyVec.ofFn_apply]
    decide
  · rw [PolyVec.elements, Poly.coeff_element, PolyVec.ofFn_apply, absResidue_residue]
    decide

/-! ## Any hints -/

theorem Coeff.natAbs_centered_sub_useHint {hint : Bool} {r : Coeff}
    (h : r.toInt = (residue r).val) :
    (centered 8380417 (r.toInt - (useHint hint r).toInt * 523776)).natAbs =
      absResidue (residue r - ((523776 * Schoolbook.useHint hint (residue r) : Int) : Zq)) := by
  rw [toInt_useHint h, ← absResidue_cast, Int.cast_sub, mul_comm]
  rfl

theorem HintVec.maxNorm_sub_use (h : HintVec) {v : PolyVec rows} (hv : v.IsCanonical) :
    maxNorm (v.elements - (523776 : Zq) • (h.use v).elements) ≤ 523777 := by
  refine maxNorm_le_iff.mpr fun i j => ?_
  have huse : residue (h.use v i j) = (Schoolbook.useHint (h i j) ((v.elements i).coeff j) : Zq) :=
    congrArg _ (toInt_use h hv i j)
  have hcoeff : ((v.elements - (523776 : Zq) • (h.use v).elements) i).coeff j =
      (v.elements i).coeff j -
        ((523776 * Schoolbook.useHint (h i j) ((v.elements i).coeff j) : Int) : Zq) := by
    rw [Int.cast_mul, ← huse]
    rfl
  rw [hcoeff]
  exact Schoolbook.absResidue_sub_useHint_le _ _

/-- A hint goes to a neighbour, which is at most a bucket and one away. So what is recomputed from
any signature is close to what its hints were used on. -/
theorem hint_moves_one_bucket :
    (∀ r : Coeff, 0 ≤ r.toInt → r.toInt < modulus →
      (∀ hint, 0 ≤ (useHint hint r).toInt ∧ (useHint hint r).toInt < buckets) ∧
      (((useHint true r).toInt - (useHint false r).toInt) % buckets = 1 ∨
        ((useHint false r).toInt - (useHint true r).toInt) % buckets = 1) ∧
      (centered modulus (r.toInt - (useHint false r).toInt * (2 * gamma2))).natAbs ≤ gamma2 ∧
      gamma2 ≤ (centered modulus (r.toInt - (useHint true r).toInt * (2 * gamma2))).natAbs ∧
      (centered modulus (r.toInt - (useHint true r).toInt * (2 * gamma2))).natAbs ≤
        2 * gamma2 + 1) ∧
    (∀ (h : HintVec) (v : PolyVec rows), v.IsCanonical →
      maxNorm (v.elements - ((2 * gamma2 : Nat) : Zq) • (h.use v).elements) ≤ 2 * gamma2 + 1) ∧
    ∀ S publicKey signature k s c, (ExpandedKey.ofBytes S publicKey).run = some (.ok k) →
      (Signature.ofBytes signature).run = some (.ok s) →
      S.challengeOf s.challenge.bytes = some c →
      maxNorm ((k.approximation s.z c.toNtt).elements -
        ((2 * gamma2 : Nat) : Zq) • (k.commitment s c.toNtt).elements) ≤ 2 * gamma2 + 1 := by
  refine ⟨fun r h0 hq => ?_, fun h v hv => h.maxNorm_sub_use hv, fun S _ _ k s c hk hs hc => ?_⟩
  · have hval := toInt_eq_val h0 hq
    have hfalse := Schoolbook.absResidue_sub_useHint_false (residue r)
    have htrue := Schoolbook.absResidue_sub_useHint_true (residue r)
    rw [← natAbs_centered_sub_useHint hval] at hfalse htrue
    refine ⟨fun hint => ?_, ?_, hfalse, htrue.1, htrue.2⟩
    · rw [toInt_useHint hval]
      exact Schoolbook.useHint_bounds hint (residue r)
    · rw [toInt_useHint hval, toInt_useHint hval]
      exact Schoolbook.useHint_neighbour (residue r)
  · exact s.hints.maxNorm_sub_use (ExpandedKey.isCanonical_approximation hk hs hc)

theorem hint_moves_one_bucket_zero :
    (useHint true 0).toInt = 15 ∧ (useHint false 0).toInt = 0 ∧
    (centered modulus ((0 : Coeff).toInt - (useHint true 0).toInt * (2 * gamma2))).natAbs =
      2 * gamma2 + 1 ∧
    (∀ h : HintVec, maxNorm ((PolyVec.zero : PolyVec rows).elements -
      ((2 * gamma2 : Nat) : Zq) • (h.use PolyVec.zero).elements) ≤ 2 * gamma2 + 1) ∧
    ∃ signature k s c,
      (ExpandedKey.ofBytes HashSuite.zeros (Octets.zero publicKeyBytes).bytes).run =
        some (.ok k) ∧
      (Signature.ofBytes signature).run = some (.ok s) ∧
      HashSuite.zeros.challengeOf s.challenge.bytes = some c ∧
      maxNorm ((k.approximation s.z c.toNtt).elements -
        ((2 * gamma2 : Nat) : Zq) • (k.commitment s c.toNtt).elements) ≤ 2 * gamma2 + 1 := by
  obtain ⟨hword, hvec, hrun⟩ := hint_moves_one_bucket
  obtain ⟨-, -, -, -, hfar⟩ := hword 0 (by decide) (by decide)
  have haccepted := verify_zeros ((HintVec.weight_column 1 0).trans (by decide))
    (Octets.zero publicKeyBytes) [] (show ([] : Bytes).length ≤ 255 by decide)
  obtain ⟨-, w, hw, -⟩ := accepted_iff.mp haccepted
  obtain ⟨s, k, c, hs, hk, hc, -⟩ := recomputed_eq_ok.mp hw
  refine ⟨by decide, by decide, le_antisymm hfar (by decide), fun h => hvec h _ fun i j => ?_,
    _, k, s, c, hk, hs, hc, hrun _ _ _ k s c hk hs hc⟩
  rw [Poly.coeff_element, PolyVec.zero_apply, Poly.zero_apply]
  decide

end MLDSA
