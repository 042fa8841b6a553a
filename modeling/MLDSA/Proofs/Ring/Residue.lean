import Mathlib.Data.ZMod.Basic
import Mathlib.Tactic.Linarith
import MLDSA.Ring.Coeff

/-! # Words and their residues

What the word operations compute over the integers, and which residue modulo `q` they keep. The key
fact is that each reduction subtracts a multiple of `q` that its bound makes small enough to fit. -/

namespace MLDSA

/-- The residues modulo `q`. -/
abbrev Zq := ZMod modulus

instance : NeZero modulus := ⟨by decide⟩

/-- The residue of `x` modulo `m` that is above `-m / 2` and at most `m / 2`. -/
def centered (m : Nat) (x : Int) : Int := if x % m ≤ m / 2 then x % m else x % m - m

theorem centered_emod (x : Int) : centered 8380417 (x % 8380417) = centered 8380417 x := by
  simp only [centered, Nat.cast_ofNat, Int.emod_emod]

/-- How far a residue is from zero. -/
def absResidue (x : Zq) : Nat := (centered modulus x.val).natAbs

theorem absResidue_eq (x : Zq) : absResidue x = (centered 8380417 x.val).natAbs := rfl

/-- An integer that a word holds. -/
def Fits (v : Int) : Prop := -2147483648 ≤ v ∧ v < 2147483648

namespace Coeff

def residue (a : Coeff) : Zq := a.toInt

/-- How far a word is from zero. -/
def size (a : Coeff) : Nat := a.toInt.natAbs

/-! ## Words as integers -/

theorem bmod_of_fits {v : Int} (h : Fits v) : v.bmod (2 ^ 32) = v := by
  obtain ⟨h1, h2⟩ := h
  exact Int.bmod_eq_of_le (by omega) (by omega)

theorem toInt_fits (a : Coeff) : Fits a.toInt := ⟨a.le_toInt, a.toInt_lt⟩

theorem toInt_add_of_fits {a b : Coeff} (h : Fits (a.toInt + b.toInt)) :
    (a + b).toInt = a.toInt + b.toInt := by
  rw [Int32.toInt_add, bmod_of_fits h]

theorem toInt_sub_of_fits {a b : Coeff} (h : Fits (a.toInt - b.toInt)) :
    (a - b).toInt = a.toInt - b.toInt := by
  rw [Int32.toInt_sub, bmod_of_fits h]

theorem toInt_mul_of_fits {a b : Coeff} (h : Fits (a.toInt * b.toInt)) :
    (a * b).toInt = a.toInt * b.toInt := by
  rw [Int32.toInt_mul, bmod_of_fits h]

theorem toInt_neg_of_fits {a : Coeff} (h : Fits (-a.toInt)) : (-a).toInt = -a.toInt := by
  rw [Int32.toInt_neg, bmod_of_fits h]

theorem toInt_ofInt_of_fits {v : Int} (h : Fits v) : (Int32.ofInt v).toInt = v := by
  rw [Int32.toInt_ofInt]; exact bmod_of_fits h

theorem toInt_shiftRight (a : Coeff) (s : Nat) (h : s < 32) :
    (a >>> Int32.ofNat s).toInt = a.toInt / 2 ^ s := by
  have hs : ((Int32.ofNat s).toBitVec.smod 32).toNat = s := by decide +revert
  rw [← Int32.toInt_toBitVec, Int32.toBitVec_shiftRight, BitVec.toInt_sshiftRight', hs,
    Int32.toInt_toBitVec, Int.shiftRight_eq_div_pow]
  norm_cast

theorem and_signMask (m a : Coeff) : m &&& (a >>> 31) = if a.toInt < 0 then m else 0 := by
  have h := toInt_shiftRight a 31 (by decide)
  obtain ⟨h1, h2⟩ := toInt_fits a
  split
  · have hmask : a >>> 31 = -1 := Int32.toInt.inj (h.trans (by simp; omega))
    rw [hmask]; exact Int32.and_neg_one
  · have hmask : a >>> 31 = 0 := Int32.toInt.inj (h.trans (by simp; omega))
    rw [hmask]; exact Int32.and_zero

theorem toInt_and_fifteen (a : Coeff) : (a &&& 15).toInt = a.toInt % 16 := by
  have h : (a &&& 15).toBitVec.toNat = a.toBitVec.toNat % 16 := by
    rw [Int32.toBitVec_and, BitVec.toNat_and]
    exact Nat.and_two_pow_sub_one_eq_mod _ 4
  have := a.toBitVec.isLt
  rw [← Int32.toInt_toBitVec, ← Int32.toInt_toBitVec, BitVec.toInt_eq_toNat_cond,
    BitVec.toInt_eq_toNat_cond, h]
  split <;> split <;> omega

/-! ## Residues -/

theorem val_residue (a : Coeff) : ((residue a).val : Int) = a.toInt % 8380417 :=
  ZMod.val_intCast a.toInt

theorem residue_eq_iff {a b : Coeff} :
    residue a = residue b ↔ a.toInt % 8380417 = b.toInt % 8380417 :=
  ZMod.intCast_eq_intCast_iff' _ _ _

theorem absResidue_cast (v : Int) : absResidue (v : Zq) = (centered 8380417 v).natAbs := by
  have hval : ((v : Zq).val : Int) = v % 8380417 := ZMod.val_intCast v
  rw [absResidue, hval]
  exact congrArg Int.natAbs (centered_emod _)

theorem absResidue_residue (a : Coeff) :
    absResidue (residue a) = (centered 8380417 a.toInt).natAbs :=
  absResidue_cast a.toInt

theorem residue_add {a b : Coeff} (h : Fits (a.toInt + b.toInt)) :
    residue (a + b) = residue a + residue b := by
  simp only [residue, toInt_add_of_fits h, Int.cast_add]

theorem residue_sub {a b : Coeff} (h : Fits (a.toInt - b.toInt)) :
    residue (a - b) = residue a - residue b := by
  simp only [residue, toInt_sub_of_fits h, Int.cast_sub]

theorem residue_neg {a : Coeff} (h : Fits (-a.toInt)) : residue (-a) = -residue a := by
  simp only [residue, toInt_neg_of_fits h, Int.cast_neg]

/-! ## Smaller words of one residue -/

theorem toInt_reduce {a : Coeff} (h : a.toInt ≤ 2143289343) :
    (reduce a).toInt = a.toInt - (a.toInt + 4194304) / 8388608 * 8380417 := by
  obtain ⟨h1, h2⟩ := toInt_fits a
  have hadd : (a + 4194304).toInt = a.toInt + 4194304 :=
    toInt_add_of_fits ⟨by simp; omega, by simp; omega⟩
  have hshift : ((a + 4194304) >>> 23).toInt = (a.toInt + 4194304) / 8388608 := by
    rw [← hadd]; exact toInt_shiftRight _ 23 (by decide)
  have hmul : ((a + 4194304) >>> 23 * q).toInt = (a.toInt + 4194304) / 8388608 * 8380417 := by
    rw [toInt_mul_of_fits, hshift]
    · rfl
    · rw [hshift]; constructor <;> simp [q] <;> omega
  rw [reduce, toInt_sub_of_fits, hmul]
  rw [hmul]; constructor <;> omega

theorem reduce_bounds {a : Coeff} (h : a.toInt ≤ 2143289343) :
    -6283009 ≤ (reduce a).toInt ∧ (reduce a).toInt ≤ 6283008 := by
  obtain ⟨h1, h2⟩ := toInt_fits a
  rw [toInt_reduce h]
  omega

theorem residue_reduce {a : Coeff} (h : a.toInt ≤ 2143289343) : residue (reduce a) = residue a := by
  rw [residue_eq_iff, toInt_reduce h]
  omega

theorem toInt_reduce_of_gt {a : Coeff} (h : 2143289343 < a.toInt) :
    (reduce a).toInt = a.toInt - 2149580544 := by
  obtain ⟨h1, h2⟩ := toInt_fits a
  have hadd : (a + 4194304).toInt = a.toInt - 4290772992 := by
    rw [Int32.toInt_add, show (4194304 : Coeff).toInt = 4194304 from rfl, Int.bmod_def]
    split <;> omega
  have hshift : ((a + 4194304) >>> 23).toInt = -256 := by
    have hquotient := toInt_shiftRight (a + 4194304) 23 (by decide)
    rw [hadd] at hquotient
    have hvalue : (a.toInt - 4290772992) / 8388608 = -256 := by omega
    exact hquotient.trans hvalue
  have hmul : ((a + 4194304) >>> 23 * q).toInt = -2145386752 := by
    rw [toInt_mul_of_fits, hshift]
    · rfl
    · rw [hshift]; constructor <;> simp [q]
  rw [reduce, Int32.toInt_sub, hmul, Int.bmod_def]
  split <;> omega

theorem toInt_addModulus {a : Coeff} (h : a.toInt < 2147483648 - 8380417) :
    (addModulus a).toInt = if a.toInt < 0 then a.toInt + 8380417 else a.toInt := by
  obtain ⟨h1, h2⟩ := toInt_fits a
  rw [addModulus, and_signMask, toInt_add_of_fits]
  · split
    · rfl
    · simp
  · split <;> simp [q, Fits] <;> omega

theorem toInt_addModulus_of_size {a : Coeff} (h : size a < 8380417) :
    (addModulus a).toInt = a.toInt % 8380417 := by
  unfold size at h
  rw [toInt_addModulus (by omega)]
  split <;> omega

theorem toInt_canonical {a : Coeff} (h : a.toInt ≤ 2143289343) :
    (canonical a).toInt = a.toInt % 8380417 := by
  have hb := reduce_bounds h
  have hr := residue_eq_iff.mp (residue_reduce h)
  rw [canonical, toInt_addModulus_of_size (by unfold size; omega), hr]

theorem residue_canonical {a : Coeff} (h : a.toInt ≤ 2143289343) :
    residue (canonical a) = residue a := by
  rw [residue_eq_iff, toInt_canonical h, Int.emod_emod]

theorem toInt_canonical_of_gt {a : Coeff} (h : 2143289343 < a.toInt) :
    (canonical a).toInt = a.toInt - 2141200127 := by
  obtain ⟨-, h2⟩ := toInt_fits a
  have hreduce := toInt_reduce_of_gt h
  rw [canonical, toInt_addModulus (by omega), if_pos (by omega), hreduce]
  omega

theorem toInt_canonical_eq_val {a : Coeff} (h : a.toInt ≤ 2143289343) :
    (canonical a).toInt = (residue (canonical a)).val := by
  rw [residue_canonical h, toInt_canonical h, val_residue]

theorem toInt_eq_val {a : Coeff} (h0 : 0 ≤ a.toInt) (hq : a.toInt < 8380417) :
    a.toInt = (residue a).val := by
  rw [val_residue, Int.emod_eq_of_lt h0 hq]

theorem canonical_eq_self {a : Coeff} (h0 : 0 ≤ a.toInt) (hq : a.toInt < 8380417) :
    canonical a = a := by
  apply Int32.toInt.inj
  rw [toInt_canonical (by omega), Int.emod_eq_of_lt h0 hq]

theorem toInt_center_eq {a : Coeff} (h0 : -8380417 ≤ a.toInt) (hq : a.toInt < 8380417) :
    (center a).toInt = if 4190208 < a.toInt then a.toInt - 8380417 else a.toInt := by
  have hd : (halfQ - a).toInt = 4190208 - a.toInt := by
    have hh : halfQ.toInt = 4190208 := rfl
    rw [toInt_sub_of_fits, hh]
    rw [hh]; constructor <;> omega
  have hm : (q &&& ((halfQ - a) >>> 31)).toInt = if 4190208 < a.toInt then 8380417 else 0 := by
    rw [and_signMask, hd]
    split
    · rw [if_pos (by omega)]; rfl
    · rw [if_neg (by omega)]; rfl
  rw [center, toInt_sub_of_fits, hm]
  · split <;> omega
  · rw [hm]
    split <;> constructor <;> omega

theorem toInt_center {a : Coeff} (h0 : 0 ≤ a.toInt) (hq : a.toInt < 8380417) :
    (center a).toInt = centered 8380417 a.toInt := by
  rw [toInt_center_eq (by omega) hq]
  unfold centered
  split <;> split <;> omega

theorem toInt_center_canonical {a : Coeff} (h : a.toInt ≤ 2143289343) :
    (center (canonical a)).toInt = centered 8380417 a.toInt := by
  have hc := toInt_canonical h
  rw [toInt_center (by omega) (by omega), hc, centered_emod]

theorem intCast_centered (x : Int) : ((centered 8380417 x : Int) : Zq) = x := by
  rw [ZMod.intCast_eq_intCast_iff', centered]
  split <;> simp

theorem intCast_centered_val (x : Zq) : ((centered 8380417 x.val : Int) : Zq) = x := by
  rw [intCast_centered, Int.cast_natCast, ZMod.natCast_zmod_val]

theorem centered_bounds (x : Int) :
    -4190208 ≤ centered 8380417 x ∧ centered 8380417 x ≤ 4190208 := by
  unfold centered
  split <;> omega

theorem centered_of_bounds {x : Int} (h1 : -4190208 ≤ x) (h2 : x ≤ 4190208) :
    centered 8380417 x = x := by
  unfold centered
  split <;> omega

theorem absResidue_intCast {v : Int} (h : v.natAbs ≤ 4190208) : absResidue (v : Zq) = v.natAbs := by
  rw [absResidue_cast, centered_of_bounds (by omega) (by omega)]

theorem absResidue_le_natAbs (v : Int) : absResidue (v : Zq) ≤ v.natAbs := by
  rw [absResidue_cast, centered]
  split <;> omega

theorem absResidue_neg_le (x : Zq) : absResidue (-x) ≤ absResidue x := by
  have h := absResidue_le_natAbs (-centered 8380417 x.val)
  rwa [Int.cast_neg, intCast_centered_val, Int.natAbs_neg, ← absResidue_eq] at h

theorem absResidue_sub_le (x y : Zq) : absResidue (x - y) ≤ absResidue x + absResidue y := by
  have hdist := absResidue_le_natAbs (centered 8380417 x.val - centered 8380417 y.val)
  rw [Int.cast_sub, intCast_centered_val, intCast_centered_val] at hdist
  rw [absResidue_eq x, absResidue_eq y]
  omega

theorem toInt_abs_of_fits {a : Coeff} (h : Fits (-a.toInt)) : a.abs.toInt = size a := by
  have hne : a.toBitVec ≠ BitVec.intMin 32 := by
    intro hmin
    have : a.toInt = -2147483648 := by rw [← Int32.toInt_toBitVec, hmin]; rfl
    obtain ⟨-, h2⟩ := h
    omega
  exact BitVec.toInt_abs_eq_natAbs_of_ne_intMin hne

theorem isBelow_iff {bound a : Coeff} (h : a.toInt ≤ 2143289343) :
    isBelow bound a = true ↔ (absResidue (residue a) : Int) < bound.toInt := by
  have hc := toInt_center_canonical h
  have hb := centered_bounds a.toInt
  rw [isBelow, decide_eq_true_iff, Int32.lt_iff_toInt_lt, toInt_abs_of_fits, size, hc,
    absResidue_residue]
  rw [hc]; constructor <;> omega

theorem toInt_le_of_isBelow {bound a : Coeff} (hbound : bound.toInt ≤ 2089217)
    (h : isBelow bound a = true) :
    a.toInt ≤ 2143289343 := by
  refine Int.not_lt.mp fun hgt => ?_
  obtain ⟨-, h2⟩ := toInt_fits a
  have hcanon := toInt_canonical_of_gt hgt
  have hcenter := toInt_center_eq (a := canonical a) (by omega) (by omega)
  have hsize : 2089217 ≤ size (center (canonical a)) := by
    unfold size
    rw [hcenter]
    split <;> omega
  rw [isBelow, decide_eq_true_iff, Int32.lt_iff_toInt_lt, toInt_abs_of_fits] at h
  · omega
  · rw [hcenter]
    split <;> constructor <;> omega

/-! ## Products -/

theorem toInt_product (a b : Coeff) : (a.toInt64 * b.toInt64).toInt = a.toInt * b.toInt := by
  obtain ⟨a1, a2⟩ := toInt_fits a
  obtain ⟨b1, b2⟩ := toInt_fits b
  rw [Int64.toInt_mul, Int32.toInt_toInt64, Int32.toInt_toInt64]
  have h1 : -(2147483648 * 2147483648) ≤ a.toInt * b.toInt := by nlinarith
  have h2 : a.toInt * b.toInt ≤ 2147483648 * 2147483648 := by nlinarith
  exact Int.bmod_eq_of_le (by omega) (by omega)

/-- The multiple of `q` that the Montgomery reduction takes away. -/
def multiplier (a : Int64) : Coeff := a.toInt32 * inverseQ

theorem toInt_multiplier (a : Int64) :
    (multiplier a).toInt = (a.toInt * 58728449).bmod (2 ^ 32) := by
  rw [multiplier, Int32.toInt_mul, Int64.toInt_toInt32, Int.bmod_mul_bmod]
  rfl

theorem dvd_sub_multiple (a : Int64) :
    (2 : Int) ^ 32 ∣ a.toInt - (multiplier a).toInt * 8380417 := by
  -- `q * inverseQ` is `1 + 114592 * 2^32`.
  obtain ⟨k, hk⟩ : (2 : Int) ^ 32 ∣ a.toInt * 58728449 - (multiplier a).toInt := by
    rw [toInt_multiplier]
    exact Int.dvd_self_sub_bmod
  exact ⟨k * 8380417 - 114592 * a.toInt, by omega⟩

theorem toInt_multiple (t : Coeff) : (t.toInt64 * q.toInt64).toInt = t.toInt * 8380417 :=
  toInt_product t q

theorem toInt_sub_multiple {a : Int64} (h : a.toInt.natAbs < 8380417 * 2 ^ 31) (t : Coeff) :
    (a - t.toInt64 * q.toInt64).toInt = a.toInt - t.toInt * 8380417 := by
  obtain ⟨t1, t2⟩ := toInt_fits t
  rw [Int64.toInt_sub, toInt_multiple]
  exact Int.bmod_eq_of_le (by omega) (by omega)

theorem toInt_montgomery_eq {a : Int64} (h : a.toInt.natAbs < 8380417 * 2 ^ 31) :
    (montgomery a).toInt = (a.toInt - (multiplier a).toInt * 8380417) / 2 ^ 32 := by
  obtain ⟨t1, t2⟩ := toInt_fits (multiplier a)
  have hshift : ((a - (multiplier a).toInt64 * q.toInt64) >>> 32).toInt =
      (a.toInt - (multiplier a).toInt * 8380417) / 2 ^ 32 := by
    rw [← Int64.toInt_toBitVec, Int64.toBitVec_shiftRight, BitVec.toInt_sshiftRight',
      Int64.toInt_toBitVec, toInt_sub_multiple h, Int.shiftRight_eq_div_pow]
    rfl
  show ((a - (multiplier a).toInt64 * q.toInt64) >>> 32).toInt32.toInt = _
  rw [Int64.toInt_toInt32, hshift]
  exact Int.bmod_eq_of_le (by omega) (by omega)

theorem toInt_montgomery {a : Int64} (h : a.toInt.natAbs < 8380417 * 2 ^ 31) :
    (montgomery a).toInt * 2 ^ 32 = a.toInt - (multiplier a).toInt * 8380417 := by
  rw [toInt_montgomery_eq h, Int.ediv_mul_cancel (dvd_sub_multiple a)]

theorem size_montgomery {a : Int64} (h : a.toInt.natAbs < 8380417 * 2 ^ 31) :
    size (montgomery a) < 8380417 := by
  obtain ⟨t1, t2⟩ := toInt_fits (multiplier a)
  have hexact := toInt_montgomery h
  unfold size
  omega

theorem residue_mul {a b : Coeff} (h : size a * size b < 8380417 * 2 ^ 31) :
    residue (mul a b) * 2 ^ 32 = residue a * residue b := by
  rw [size, size, ← Int.natAbs_mul, ← toInt_product] at h
  have hexact := toInt_montgomery h
  have hq : ((8380417 : Int) : Zq) = 0 := by decide
  set t := multiplier (a.toInt64 * b.toInt64)
  calc residue (mul a b) * 2 ^ 32
      = (((mul a b).toInt * 2 ^ 32 : Int) : Zq) := by simp only [residue]; push_cast; rfl
    _ = ((a.toInt * b.toInt - t.toInt * 8380417 : Int) : Zq) := by rw [mul, hexact, toInt_product]
    _ = residue a * residue b := by
      rw [Int.cast_sub, Int.cast_mul, Int.cast_mul, hq, mul_zero, sub_zero]; rfl

theorem size_mul {a b : Coeff} (h : size a * size b < 8380417 * 2 ^ 31) :
    size (mul a b) < 8380417 := by
  rw [size, size, ← Int.natAbs_mul, ← toInt_product] at h
  exact size_montgomery h

theorem isUnit_montgomery : IsUnit (2 ^ 32 : Zq) := by
  refine IsUnit.of_mul_eq_one 8265825 ?_
  decide

/-- A constant is kept as the word of `2^32` times its residue, so that the product with it loses
nothing. -/
theorem mul_constant {w : Coeff} {r : Zq} (hw : size w ≤ 4190208) (hr : residue w = r * 2 ^ 32)
    (a : Coeff) : residue (mul w a) = r * residue a ∧ size (mul w a) ≤ 8380416 := by
  obtain ⟨a1, a2⟩ := toInt_fits a
  have hb : size w * size a < 8380417 * 2 ^ 31 := by
    have : size a ≤ 2147483648 := by unfold size; omega
    calc size w * size a ≤ 4190208 * 2147483648 := Nat.mul_le_mul hw this
      _ < 8380417 * 2 ^ 31 := by decide
  constructor
  · refine isUnit_montgomery.mul_right_cancel ?_
    rw [residue_mul hb, hr, mul_right_comm]
  · exact Nat.le_of_lt_succ (size_mul hb)

end Coeff

end MLDSA
