import MLDSA.Proofs.Exact.Ring

/-! # The test of a norm

The test of a bound as a run over the integers, for every bound that a word holds. A bound that is
not positive fails at once. Any other is compared, as a word without a sign, with the size of each
centred coefficient, and a flag keeps the failures, so that all coefficients are looked at. The key
fact is that only the residues decide, whatever words stand for them. -/

namespace MLDSA

open Coeff

namespace Exact

/-! ## The run -/

/-- The word without a sign that has the bits of `a`. -/
def unsigned (a : Int) : Int := a % 2 ^ 32

/-- The residue of `a` is more than `limit` away from zero. -/
def exceeds (limit a : Int) : Exact Bool := do
  let t ← center (← canonical a)
  let size ← sub (xor t (shiftRight t 31)) (shiftRight t 31)
  return decide (limit < unsigned size)

def polyBelow (bound : Int) (p : Fin 256 → Int) : Exact Bool := do
  if bound ≤ 0 then return false
  let limit ← sub bound 1
  let fail ← (List.finRange 256).foldlM
    (fun fail j => return fail || (← exceeds (unsigned limit) (p j))) false
  return !fail

def vecBelow {m : Nat} (bound : Int) (v : Fin m → Fin 256 → Int) : Exact Bool :=
  (List.finRange m).foldlM (fun pass i => return pass && (← polyBelow bound (v i))) true

/-! ## Flags -/

section

variable {α : Type} {l : List α} {f : α → Exact Bool} {g : α → Bool}

theorem foldlM_or (h : ∀ a, f a = .ok (g a)) (flag : Bool) :
    l.foldlM (fun flag a => return flag || (← f a)) flag = .ok (flag || l.any g) := by
  induction l generalizing flag with
  | nil => simp
  | cons a l ih => rw [List.foldlM_cons, h, ok_bind, pure_eq_ok, ok_bind, ih, List.any_cons,
      Bool.or_assoc]

theorem foldlM_and (h : ∀ a, f a = .ok (g a)) (flag : Bool) :
    l.foldlM (fun flag a => return flag && (← f a)) flag = .ok (flag && l.all g) := by
  induction l generalizing flag with
  | nil => simp
  | cons a l ih => rw [List.foldlM_cons, h, ok_bind, pure_eq_ok, ok_bind, ih, List.all_cons,
      Bool.and_assoc]

end

/-! ## The run follows the test -/

theorem exceeds_toInt {bound a : Coeff} (hbound : 0 < bound.toInt) (h : a.toInt ≤ 2143289343) :
    exceeds (unsigned (bound.toInt - 1)) a.toInt = .ok (!Coeff.isBelow bound a) := by
  obtain ⟨b1, b2⟩ := toInt_fits bound
  have hword := toInt_canonical h
  have hcenter := toInt_center_canonical h
  have hcb := centered_bounds a.toInt
  have ht : center (Coeff.canonical a).toInt = .ok (Coeff.center (Coeff.canonical a)).toInt :=
    center_toInt (by omega) (by omega)
  have hsize := natAbs_toInt (a := Coeff.center (Coeff.canonical a)) ⟨by omega, by omega⟩
  rw [exceeds, canonical_toInt h, ok_bind, ht, ok_bind, hsize, ok_bind, pure_eq_ok]
  refine congrArg Except.ok (Bool.eq_iff_iff.mpr ?_)
  -- Neither of the two words has its top bit set, so the sign makes no difference.
  rw [decide_eq_true_iff, Bool.not_eq_true', ← Bool.not_eq_true, Coeff.isBelow_iff h,
    absResidue_residue, ← hcenter]
  unfold unsigned
  omega

theorem polyBelow_ints {bound : Coeff} {p : Poly}
    (hp : ∀ j : Fin 256, (p j).toInt ≤ 2143289343) :
    polyBelow bound.toInt p.ints = .ok (p.isBelow bound) := by
  obtain ⟨b1, b2⟩ := toInt_fits bound
  unfold polyBelow
  by_cases hbound : bound.toInt ≤ 0
  · have hfirst : Coeff.isBelow bound (p 0) = false := by
      rw [← Bool.not_eq_true, Coeff.isBelow_iff (hp 0)]
      omega
    have hfalse : p.isBelow bound = false := by
      rw [← Bool.not_eq_true, Poly.isBelow_eq_true]
      intro h
      rw [h 0] at hfirst
      cases hfirst
    simp [hbound, hfalse]
  · have hlimit : sub bound.toInt 1 = .ok (bound.toInt - 1) := fit_of rfl ⟨by omega, by omega⟩
    have hplace : ∀ j, exceeds (unsigned (bound.toInt - 1)) (p.ints j) =
        .ok (!Coeff.isBelow bound (p j)) :=
      fun j => exceeds_toInt (Int.not_le.mp hbound) (hp j)
    have hall : (!(List.finRange 256).any fun j => !Coeff.isBelow bound (p j)) =
        p.isBelow bound := by
      rw [Bool.eq_iff_iff, Poly.isBelow_eq_true]
      simp
    rw [if_neg hbound, hlimit, ok_bind, foldlM_or hplace, ok_bind, Bool.false_or, hall, pure_eq_ok]

theorem vecBelow_ints {m : Nat} {bound : Coeff} {v : PolyVec m} (hv : v.Within 2143289343) :
    vecBelow bound.toInt v.ints = .ok (v.isBelow bound) := by
  have hall : ((List.finRange m).all fun i => (v i).isBelow bound) = v.isBelow bound := by
    rw [Bool.eq_iff_iff, PolyVec.isBelow_eq_true]
    simp [Poly.isBelow_eq_true]
  have hpoly : ∀ i, polyBelow bound.toInt (v.ints i) = .ok ((v i).isBelow bound) :=
    fun i => polyBelow_ints ((hv i).toInt_le le_rfl)
  unfold vecBelow
  rw [foldlM_and hpoly, Bool.true_and, hall]

end Exact

/-! ## The test looks at residues -/

namespace PolyVec

variable {m : Nat} {v w : PolyVec m} {bound : Coeff}

theorem isBelow_iff_centered (hm : 0 < m) (hv : v.Within 2143289343) : v.isBelow bound = true ↔
    0 < bound.toInt ∧
      ∀ (i : Fin m) (j : Fin 256), |centered modulus (v i j).toInt| < bound.toInt := by
  have hplace : ∀ (i : Fin m) (j : Fin 256), Coeff.isBelow bound (v i j) = true ↔
      |centered modulus (v i j).toInt| < bound.toInt := by
    intro i j
    rw [Coeff.isBelow_iff ((hv i).toInt_le le_rfl j), absResidue_residue, Int.abs_eq_natAbs]
  simp only [isBelow_eq_true, hplace]
  constructor
  · intro h
    exact ⟨(abs_nonneg _).trans_lt (h ⟨0, hm⟩ 0), h⟩
  · exact And.right

theorem isBelow_congr (hv : v.Within 2143289343) (hw : w.Within 2143289343)
    (h : ∀ (i : Fin m) (j : Fin 256), residue (w i j) = residue (v i j)) :
    w.isBelow bound = v.isBelow bound := by
  rw [Bool.eq_iff_iff, isBelow_eq_true, isBelow_eq_true]
  refine forall_congr' fun i => forall_congr' fun j => ?_
  rw [Coeff.isBelow_iff ((hw i).toInt_le le_rfl j), Coeff.isBelow_iff ((hv i).toInt_le le_rfl j),
    h i j]

end PolyVec

/-- The test of a vector, for every bound and all words from `-(2^31 - 2^22)` to `2^31 - 2^22`, both
left out: it is about the centred residues, other words of the same residues change nothing, and no
operation leaves its words. -/
theorem norm_test_exact {m : Nat} (hm : 0 < m) {v : PolyVec m}
    (hv : v.Within (2 ^ 31 - 2 ^ 22 - 1)) (bound : Coeff) :
    (v.isBelow bound = true ↔ 0 < bound.toInt ∧
      ∀ (i : Fin m) (j : Fin 256), |centered modulus (v i j).toInt| < bound.toInt) ∧
    (∀ w : PolyVec m, w.Within (2 ^ 31 - 2 ^ 22 - 1) →
      (∀ (i : Fin m) (j : Fin 256), (w i j).toInt ≡ (v i j).toInt [ZMOD modulus]) →
      w.isBelow bound = v.isBelow bound) ∧
    Exact.vecBelow bound.toInt v.ints = .ok (v.isBelow bound) := by
  refine ⟨PolyVec.isBelow_iff_centered hm hv, fun w hw h => ?_, Exact.vecBelow_ints hv⟩
  exact PolyVec.isBelow_congr hv hw fun i j => residue_eq_iff.mpr (h i j)

theorem norm_test_exact_ends : ∃ v w : PolyVec 1,
    (∀ (i : Fin 1) (j : Fin 256), v i j = 2141196543 ∧ w i j = -2141196544) ∧
    v.isBelow 4190209 = true ∧ w.isBelow 4190209 = true ∧ v.isBelow 4190208 = false ∧
    Exact.vecBelow (-2147483648) v.ints = .ok false := by
  set v : PolyVec 1 := .ofFn fun _ _ => 2141196543 with hvdef
  set w : PolyVec 1 := .ofFn fun _ _ => -2141196544 with hwdef
  have hplace : ∀ (i : Fin 1) (j : Fin 256), v i j = 2141196543 ∧ w i j = -2141196544 :=
    fun i j => ⟨PolyVec.ofFn_apply _ i j, PolyVec.ofFn_apply _ i j⟩
  have hv : v.Within (2 ^ 31 - 2 ^ 22 - 1) := fun i j => by
    rw [(hplace i j).1]
    decide
  have hw : w.Within (2 ^ 31 - 2 ^ 22 - 1) := fun i j => by
    rw [(hplace i j).2]
    decide
  have hcenter : ∀ (i : Fin 1) (j : Fin 256), |centered modulus (v i j).toInt| = 4190208 :=
    fun i j => by
      rw [(hplace i j).1]
      decide
  obtain ⟨hlarge, hsame, -⟩ := norm_test_exact Nat.one_pos hv 4190209
  obtain ⟨hequal, -, -⟩ := norm_test_exact Nat.one_pos hv 4190208
  obtain ⟨hsmall, -, hrun⟩ := norm_test_exact Nat.one_pos hv (-2147483648)
  have hpass : v.isBelow 4190209 = true :=
    hlarge.mpr ⟨by decide, fun i j => by rw [hcenter]; decide⟩
  refine ⟨v, w, hplace, hpass, ?_, ?_, ?_⟩
  · rw [hsame w hw fun i j => ?_, hpass]
    rw [(hplace i j).1, (hplace i j).2]
    decide
  · rw [← Bool.not_eq_true, hequal, not_and]
    intro _ h
    have hfirst := h 0 0
    rw [hcenter] at hfirst
    exact absurd hfirst (by decide)
  · have hfail : v.isBelow (-2147483648) = false := by
      rw [← Bool.not_eq_true, hsmall, not_and]
      intro h
      exact absurd h (by decide)
    rwa [hfail] at hrun

end MLDSA
