import MLDSA.Proofs.Ring.Residue
import MLDSA.Ring.Split

/-! # Rounding by its definition

The splits of a residue as they are defined, by remainders, and the words that compute them by
shifts. The key fact is that a bucket is a rounded quotient: bucket `v` of the seventeen begins at
`523776 * v - 261887`, and the last one is the first one again. -/

namespace MLDSA

/-! ## The definitions -/

/-- An integer in two parts. -/
structure Parts where
  high : Int
  low : Int
deriving DecidableEq

namespace Schoolbook

/-- The high part times `2^13`, and the residue modulo `2^13` that is closest to zero. -/
def powerParts (r : Int) : Parts :=
  let low := centered (2 ^ droppedBits) r
  ⟨(r - low) / 2 ^ droppedBits, low⟩

/-- The bucket, and the residue modulo the width that is closest to zero. The bucket of `q - 1` is
the first one, with the low part one less. -/
def bucketParts (r : Int) : Parts :=
  let low := centered (2 * gamma2) r
  if r - low = modulus - 1 then ⟨0, low - 1⟩ else ⟨(r - low) / (2 * gamma2), low⟩

def highBits (x : Zq) : Int := (bucketParts x.val).high

def lowBits (x : Zq) : Int := (bucketParts x.val).low

/-- The bucket, or with a hint the neighbour on the side of the low part. -/
def useHint (hint : Bool) (x : Zq) : Int :=
  if hint then
    if 0 < lowBits x then (highBits x + 1) % buckets else (highBits x - 1) % buckets
  else highBits x

end Schoolbook

open Schoolbook

/-! ## Buckets as quotients -/

/-- The number of a bucket among the seventeen. -/
def bucketIndex (r : Int) : Int := (r + 261887) / 523776

theorem bucketIndex_bounds {r : Int} (h0 : 0 ≤ r) (hq : r < 8380417) :
    0 ≤ bucketIndex r ∧ bucketIndex r ≤ 16 := by
  unfold bucketIndex
  omega

theorem mem_bucket (r : Int) : 523776 * bucketIndex r - 261887 ≤ r ∧
    r ≤ 523776 * bucketIndex r + 261888 := by
  unfold bucketIndex
  omega

theorem bucketParts_eq {r : Int} (h0 : 0 ≤ r) (hq : r < 8380417) :
    bucketParts r = if bucketIndex r = 16 then ⟨0, r - 8380417⟩
      else ⟨bucketIndex r, r - 523776 * bucketIndex r⟩ := by
  have hlow : r - centered (2 * gamma2) r = 523776 * bucketIndex r := by
    simp only [centered, bucketIndex, Nat.cast_mul, Nat.cast_ofNat]
    split <;> omega
  obtain ⟨h1, h2⟩ := bucketIndex_bounds h0 hq
  simp only [bucketParts, hlow, Nat.cast_ofNat]
  split
  · rw [if_pos (by omega)]
    congr 1
    omega
  · rw [if_neg (by omega)]
    congr 1
    · omega
    · omega

theorem centered_bucket (r : Int) : -gamma2 < centered (2 * gamma2) r ∧
    centered (2 * gamma2) r ≤ gamma2 ∧ (2 * gamma2 : Int) ∣ r - centered (2 * gamma2) r := by
  simp only [centered, Nat.cast_mul, Nat.cast_ofNat]
  split <;> omega

theorem powerParts_eq (r : Int) :
    powerParts r = ⟨(r + 4095) / 8192, r - (r + 4095) / 8192 * 8192⟩ := by
  have hlow : centered (2 ^ droppedBits) r = r - (r + 4095) / 8192 * 8192 := by
    show centered 8192 r = _
    simp only [centered, Nat.cast_ofNat]
    split <;> omega
  simp only [powerParts, hlow, sub_sub_cancel]
  congr 1
  exact Int.mul_ediv_cancel _ (by decide)

/-! ## Words -/

/-- The parts of a split as integers. -/
def Split.parts (s : Split) : Parts := ⟨s.high.toInt, s.low.toInt⟩

namespace Coeff

variable {a : Coeff}

theorem toInt_shiftLeft_thirteen (h : Fits (a.toInt * 8192)) :
    (a <<< 13).toInt = a.toInt * 8192 := by
  have hm : (a <<< 13).toBitVec = (a * 8192).toBitVec := by
    rw [Int32.toBitVec_shiftLeft, Int32.toBitVec_mul]
    exact BitVec.shiftLeft_eq_mul_twoPow a.toBitVec 13
  rw [Int32.toBitVec_inj.mp hm]
  exact toInt_mul_of_fits h

theorem powerSplit_spec (h0 : 0 ≤ a.toInt) (hq : a.toInt < 8380417) :
    (powerSplit a).high.toInt = (powerParts a.toInt).high ∧
      (powerSplit a).low.toInt = (powerParts a.toInt).low := by
  have hadd : (a + 4095).toInt = a.toInt + 4095 :=
    toInt_add_of_fits ⟨by simp; omega, by simp; omega⟩
  have hhigh : ((a + 4095) >>> 13).toInt = (a.toInt + 4095) / 8192 := by
    rw [← hadd]; exact toInt_shiftRight _ 13 (by decide)
  have hback : (((a + 4095) >>> 13) <<< 13).toInt = (a.toInt + 4095) / 8192 * 8192 := by
    rw [toInt_shiftLeft_thirteen, hhigh]
    rw [hhigh]; constructor <;> omega
  rw [powerParts_eq]
  refine ⟨hhigh, ?_⟩
  simp only [powerSplit]
  rw [toInt_sub_of_fits, hback]
  rw [hback]; constructor <;> omega

theorem powerSplit_bounds (h0 : 0 ≤ a.toInt) (hq : a.toInt < 8380417) :
    (powerSplit a).high.toInt * 8192 + (powerSplit a).low.toInt = a.toInt ∧
      (0 ≤ (powerSplit a).high.toInt ∧ (powerSplit a).high.toInt ≤ 1023) ∧
      (-4095 ≤ (powerSplit a).low.toInt ∧ (powerSplit a).low.toInt ≤ 4096) := by
  obtain ⟨hhigh, hlow⟩ := powerSplit_spec h0 hq
  rw [powerParts_eq] at hhigh hlow
  simp only at hhigh hlow
  omega

theorem shifted_quotient {r : Int} (h0 : 0 ≤ r) (hq : r < 8380417) :
    ((r + 127) / 128 * 1025 + 2097152) / 4194304 = bucketIndex r := by
  obtain ⟨h1, h2⟩ := bucketIndex_bounds h0 hq
  -- A bucket is 4092 steps of 128 wide, and `4092 * 1025` is `2^22 - 4`.
  have hsteps : 4092 * bucketIndex r - 2045 ≤ (r + 127) / 128 ∧
      (r + 127) / 128 ≤ 4092 * bucketIndex r + 2046 := by
    unfold bucketIndex
    omega
  omega

theorem toInt_bucketHigh (h0 : 0 ≤ a.toInt) (hq : a.toInt < 8380417) :
    (bucketSplit a).high.toInt = bucketIndex a.toInt % 16 := by
  have hadd : (a + 127).toInt = a.toInt + 127 :=
    toInt_add_of_fits ⟨by simp; omega, by simp; omega⟩
  have hsteps : ((a + 127) >>> 7).toInt = (a.toInt + 127) / 128 := by
    rw [← hadd]; exact toInt_shiftRight _ 7 (by decide)
  have hmul : ((a + 127) >>> 7 * 1025).toInt = (a.toInt + 127) / 128 * 1025 := by
    rw [toInt_mul_of_fits, hsteps]
    · rfl
    · rw [hsteps]; constructor <;> simp <;> omega
  have hsum : ((a + 127) >>> 7 * 1025 + 2097152).toInt =
      (a.toInt + 127) / 128 * 1025 + 2097152 := by
    rw [toInt_add_of_fits, hmul]
    · rfl
    · rw [hmul]; constructor <;> simp <;> omega
  rw [bucketSplit, toInt_and_fifteen, ← shifted_quotient h0 hq, ← hsum]
  exact congrArg (· % 16) (toInt_shiftRight _ 22 (by decide))

theorem bucketSplit_spec (h0 : 0 ≤ a.toInt) (hq : a.toInt < 8380417) :
    (bucketSplit a).high.toInt = (bucketParts a.toInt).high ∧
      (bucketSplit a).low.toInt = (bucketParts a.toInt).low := by
  obtain ⟨h1, h2⟩ := bucketIndex_bounds h0 hq
  have hhigh := toInt_bucketHigh h0 hq
  have hindex := mem_bucket a.toInt
  have hwidth : ((bucketSplit a).high * bucketWidth).toInt = bucketIndex a.toInt % 16 * 523776 := by
    rw [toInt_mul_of_fits, hhigh]
    · rfl
    · rw [hhigh]; constructor <;> simp [bucketWidth] <;> omega
  have hdist : (a - (bucketSplit a).high * bucketWidth).toInt =
      a.toInt - bucketIndex a.toInt % 16 * 523776 := by
    rw [toInt_sub_of_fits, hwidth]
    rw [hwidth]; constructor <;> omega
  have hcenter : (bucketSplit a).low = center (a - (bucketSplit a).high * bucketWidth) := by
    rw [center, Int32.and_comm]
    rfl
  have hlow := toInt_center_eq (a := a - (bucketSplit a).high * bucketWidth) (by omega) (by omega)
  rw [bucketParts_eq h0 hq, hhigh, hcenter, hlow, hdist]
  split
  · rename_i h16
    rw [h16, if_pos (by omega)]
    exact ⟨rfl, by simp⟩
  · rw [if_neg (by omega), Int.emod_eq_of_lt h1 (by omega)]
    exact ⟨rfl, congrArg _ (Int.mul_comm ..)⟩

theorem parts_bucketSplit (h0 : 0 ≤ a.toInt) (hq : a.toInt < 8380417) :
    (bucketSplit a).parts = bucketParts a.toInt := by
  obtain ⟨hhigh, hlow⟩ := bucketSplit_spec h0 hq
  rw [Split.parts, hhigh, hlow]

/-- The shifts give the split of the definition. The low part leaves the centred range of a bucket
at one point, the first of the seventeenth bucket. -/
theorem bucketSplit_definition {r : Coeff} (h0 : 0 ≤ r.toInt) (hq : r.toInt < modulus) :
    (∃ d : Int, -gamma2 < d ∧ d ≤ gamma2 ∧ (2 * gamma2 : Int) ∣ r.toInt - d ∧
      (bucketSplit r).parts = if r.toInt - d = modulus - 1 then ⟨0, d - 1⟩
        else ⟨(r.toInt - d) / (2 * gamma2), d⟩) ∧
    r.toInt ≡ (bucketSplit r).high.toInt * (2 * gamma2) + (bucketSplit r).low.toInt
      [ZMOD modulus] ∧
    (0 ≤ (bucketSplit r).high.toInt ∧ (bucketSplit r).high.toInt < buckets) ∧
    (-gamma2 ≤ (bucketSplit r).low.toInt ∧ (bucketSplit r).low.toInt ≤ gamma2) ∧
    ((bucketSplit r).low.toInt = -gamma2 ↔ r.toInt = modulus - gamma2) := by
  have hparts := parts_bucketSplit h0 hq
  obtain ⟨hgt, hle, hdvd⟩ := centered_bucket r.toInt
  refine ⟨⟨centered (2 * gamma2) r.toInt, hgt, hle, hdvd, hparts⟩, ?_⟩
  have hindex := mem_bucket r.toInt
  obtain ⟨hfirst, hlast⟩ := bucketIndex_bounds h0 hq
  have hq' : r.toInt < 8380417 := hq
  rw [bucketParts_eq h0 hq] at hparts
  simp only [Int.ModEq, Nat.cast_ofNat]
  split at hparts
  · obtain ⟨hhigh, hlow⟩ := Parts.mk.inj hparts
    rw [hhigh, hlow]
    omega
  · obtain ⟨hhigh, hlow⟩ := Parts.mk.inj hparts
    rw [hhigh, hlow]
    omega

theorem bucketSplit_definition_fold :
    0 ≤ (8118529 : Coeff).toInt ∧ (8118529 : Coeff).toInt = modulus - gamma2 ∧
    (bucketSplit 8118529).low.toInt = -gamma2 ∧ (bucketSplit 8118529).high.toInt < buckets := by
  obtain ⟨-, -, ⟨-, hhigh⟩, -, hlow⟩ :=
    bucketSplit_definition (r := 8118529) (by decide) (by decide)
  exact ⟨by decide, by decide, hlow.mpr (by decide), hhigh⟩

theorem canonical_bounds (h : a.toInt = (residue a).val) : 0 ≤ a.toInt ∧ a.toInt < 8380417 := by
  have : (residue a).val < 8380417 := ZMod.val_lt _
  omega

theorem toInt_highBits (h : a.toInt = (residue a).val) :
    (highBits a).toInt = Schoolbook.highBits (residue a) := by
  rw [Schoolbook.highBits, ← h]
  exact (bucketSplit_spec (canonical_bounds h).1 (canonical_bounds h).2).1

theorem toInt_lowBits (h : a.toInt = (residue a).val) :
    (lowBits a).toInt = Schoolbook.lowBits (residue a) := by
  rw [Schoolbook.lowBits, ← h]
  exact (bucketSplit_spec (canonical_bounds h).1 (canonical_bounds h).2).2

end Coeff

/-! ## Residues -/

namespace Schoolbook

theorem parts_val (x : Zq) : ∃ r v : Int, (x.val : Int) = r ∧ 0 ≤ r ∧ r < 8380417 ∧
    523776 * v - 261887 ≤ r ∧ r ≤ 523776 * v + 261888 ∧
    (v = 16 ∧ highBits x = 0 ∧ lowBits x = r - 8380417 ∨
      0 ≤ v ∧ v < 16 ∧ highBits x = v ∧ lowBits x = r - 523776 * v) := by
  have hq : x.val < 8380417 := ZMod.val_lt x
  obtain ⟨h1, h2⟩ := bucketIndex_bounds (r := x.val) (by omega) (by omega)
  obtain ⟨hfirst, hlast⟩ := mem_bucket x.val
  refine ⟨x.val, bucketIndex x.val, rfl, by omega, by omega, hfirst, hlast, ?_⟩
  rw [highBits, lowBits, bucketParts_eq (by omega) (by omega)]
  split
  · exact .inl ⟨‹_›, rfl, rfl⟩
  · exact .inr ⟨h1, by omega, rfl, rfl⟩

theorem highBits_bounds (x : Zq) : 0 ≤ highBits x ∧ highBits x < 16 := by
  obtain ⟨r, v, -, h0, hq, h1, h2, h | h⟩ := parts_val x <;> omega

theorem lowBits_bounds (x : Zq) : -261888 ≤ lowBits x ∧ lowBits x ≤ 261888 := by
  obtain ⟨r, v, -, h0, hq, h1, h2, h | h⟩ := parts_val x <;> omega

theorem useHint_bounds (hint : Bool) (x : Zq) : 0 ≤ useHint hint x ∧ useHint hint x < 16 := by
  have := highBits_bounds x
  simp only [useHint, Nat.cast_ofNat]
  split
  · split <;> omega
  · exact this

theorem useHint_false (x : Zq) : useHint false x = highBits x := rfl

/-- A hint goes to the next bucket on the side of the low part, and `k` times around the end. -/
theorem useHint_true_cases (x : Zq) : ∃ k : Int, (k = 0 ∨ k = 1) ∧
    (0 < lowBits x ∧ useHint true x = highBits x + 1 - 16 * k ∨
      lowBits x ≤ 0 ∧ useHint true x = highBits x - 1 + 16 * k) := by
  have hbounds := highBits_bounds x
  simp only [useHint, if_true, Nat.cast_ofNat]
  split
  · exact ⟨(highBits x + 1) / 16, by omega, .inl ⟨‹_›, by omega⟩⟩
  · exact ⟨-((highBits x - 1) / 16), by omega, .inr ⟨by omega, by omega⟩⟩

theorem useHint_neighbour (x : Zq) : (useHint true x - useHint false x) % 16 = 1 ∨
    (useHint false x - useHint true x) % 16 = 1 := by
  obtain ⟨k, -, ⟨-, huse⟩ | ⟨-, huse⟩⟩ := useHint_true_cases x
  · rw [huse, useHint_false]
    exact .inl (by omega)
  · rw [huse, useHint_false]
    exact .inr (by omega)

theorem useHint_inj {hint hint' : Bool} {x : Zq} (h : useHint hint x = useHint hint' x) :
    hint = hint' := by
  have hmove : useHint true x ≠ useHint false x := by
    have := useHint_neighbour x
    omega
  cases hint <;> cases hint'
  · rfl
  · exact absurd h.symm hmove
  · exact absurd h hmove
  · rfl

theorem intCast_parts (x : Zq) : ((523776 * highBits x + lowBits x : Int) : Zq) = x := by
  obtain ⟨r, v, hr, -, -, -, -, h⟩ := parts_val x
  have hmod : (523776 * highBits x + lowBits x) % 8380417 = r % 8380417 := by
    rcases h with ⟨-, hhigh, hlow⟩ | ⟨-, -, hhigh, hlow⟩
    · rw [hhigh, hlow]
      omega
    · rw [hhigh, hlow]
      omega
  calc ((523776 * highBits x + lowBits x : Int) : Zq)
      = (r : Zq) := (ZMod.intCast_eq_intCast_iff' _ _ 8380417).mpr hmod
    _ = x := by rw [← hr, Int.cast_natCast, ZMod.natCast_zmod_val]

theorem absResidue_sub_useHint_false (x : Zq) :
    absResidue (x - ((523776 * useHint false x : Int) : Zq)) ≤ 261888 := by
  have hbounds := lowBits_bounds x
  have hlow : x - ((523776 * highBits x : Int) : Zq) = (lowBits x : Zq) := by
    have hparts := intCast_parts x
    rw [Int.cast_add] at hparts
    exact sub_eq_of_eq_add' hparts.symm
  rw [useHint_false, hlow]
  exact (Coeff.absResidue_le_natAbs _).trans (by omega)

/-- Once around the end, the width of sixteen buckets is `q - 1`, so the distance grows by one. -/
theorem absResidue_sub_useHint_true (x : Zq) :
    261888 ≤ absResidue (x - ((523776 * useHint true x : Int) : Zq)) ∧
      absResidue (x - ((523776 * useHint true x : Int) : Zq)) ≤ 523777 := by
  have hbounds := lowBits_bounds x
  have hdist : ∀ d : Int, (523776 * highBits x + lowBits x - 523776 * useHint true x) % 8380417 =
      d % 8380417 → x - ((523776 * useHint true x : Int) : Zq) = (d : Zq) := by
    intro d hd
    have hcast := (ZMod.intCast_eq_intCast_iff' _ _ 8380417).mpr hd
    rwa [Int.cast_sub, intCast_parts] at hcast
  obtain ⟨k, hk, ⟨hlow, huse⟩ | ⟨hlow, huse⟩⟩ := useHint_true_cases x
  · rw [hdist (lowBits x - 523776 - k) (by omega), Coeff.absResidue_intCast (by omega)]
    omega
  · rw [hdist (lowBits x + 523776 + k) (by omega), Coeff.absResidue_intCast (by omega)]
    omega

theorem absResidue_sub_useHint_le (hint : Bool) (x : Zq) :
    absResidue (x - ((523776 * useHint hint x : Int) : Zq)) ≤ 523777 := by
  cases hint
  · exact (absResidue_sub_useHint_false x).trans (by decide)
  · exact (absResidue_sub_useHint_true x).2

theorem val_add (x e : Zq) : ∃ d : Int, d.natAbs = absResidue e ∧
    (((x + e).val : Int) = x.val + d ∨ ((x + e).val : Int) = x.val + d - 8380417 ∨
      ((x + e).val : Int) = x.val + d + 8380417) := by
  have hsum : ((x + e).val : Int) = (x.val + centered 8380417 e.val) % 8380417 :=
    calc ((x + e).val : Int)
        = (((x.val + centered 8380417 e.val : Int) : Zq).val : Int) := by
          rw [Int.cast_add, Coeff.intCast_centered_val, Int.cast_natCast, ZMod.natCast_zmod_val]
      _ = (x.val + centered 8380417 e.val) % 8380417 := ZMod.val_intCast _
  have hb := Coeff.centered_bounds e.val
  have hx : x.val < 8380417 := ZMod.val_lt x
  exact ⟨centered 8380417 e.val, rfl, by omega⟩

theorem natAbs_lowBits {x : Zq} (h : absResidue x ≤ 261888) :
    (lowBits x).natAbs = absResidue x := by
  obtain ⟨d, hd, hadd⟩ := val_add 0 x
  rw [zero_add, ZMod.val_zero] at hadd
  obtain ⟨r, v, hr, r0, rq, r1, r2, hv⟩ := parts_val x
  omega

theorem highBits_add (x e : Zq) (h : (lowBits x).natAbs + absResidue e < 261888) :
    highBits (x + e) = highBits x := by
  obtain ⟨d, hd, hadd⟩ := val_add x e
  obtain ⟨r, v, hr, r0, rq, r1, r2, hv⟩ := parts_val x
  obtain ⟨s, u, hs, s0, sq, s1, s2, hu⟩ := parts_val (x + e)
  rcases hv with hv | hv <;> rcases hu with hu | hu <;> omega

theorem highBits_sub_of_lowBits (w e : Zq) (he : absResidue e ≤ 196)
    (hlow : (lowBits (w - e)).natAbs < 261692) : highBits (w - e) = highBits w := by
  have hstay := highBits_add (w - e) e (by omega)
  rwa [sub_add_cancel, eq_comm] at hstay

theorem useHint_add (x e : Zq) (h : absResidue e ≤ 261888) :
    useHint (highBits (x + e) != highBits x) (x + e) = highBits x := by
  simp only [useHint, Nat.cast_ofNat, bne_iff_ne]
  split
  · obtain ⟨d, hd, hadd⟩ := val_add x e
    obtain ⟨r, v, hr, r0, rq, r1, r2, hv⟩ := parts_val x
    obtain ⟨s, u, hs, s0, sq, s1, s2, hu⟩ := parts_val (x + e)
    rcases hv with hv | hv <;> rcases hu with hu | hu <;> split <;> omega
  · rename_i heq
    exact not_not.mp heq

end Schoolbook

namespace Coeff

variable {a : Coeff}

/-! ## Tests and hints of words -/

theorem isBelow_lowBits_iff {bound : Coeff} (h : a.toInt = (residue a).val) :
    isBelow bound (lowBits a) = true ↔
      ((Schoolbook.lowBits (residue a)).natAbs : Int) < bound.toInt := by
  have hlow := toInt_lowBits h
  have hb := lowBits_bounds (residue a)
  rw [isBelow_iff (by omega), absResidue_residue, hlow, centered_of_bounds (by omega) (by omega)]

theorem toInt_useHint {hint : Bool} (h : a.toInt = (residue a).val) :
    (useHint hint a).toInt = Schoolbook.useHint hint (residue a) := by
  have hhigh : (bucketSplit a).high.toInt = Schoolbook.highBits (residue a) := toInt_highBits h
  have hlow : (bucketSplit a).low.toInt = Schoolbook.lowBits (residue a) := toInt_lowBits h
  have hb := highBits_bounds (residue a)
  have hup : ((bucketSplit a).high + 1).toInt = Schoolbook.highBits (residue a) + 1 := by
    rw [toInt_add_of_fits, hhigh]
    · rfl
    · rw [hhigh]; constructor <;> simp <;> omega
  have hdown : ((bucketSplit a).high - 1).toInt = Schoolbook.highBits (residue a) - 1 := by
    rw [toInt_sub_of_fits, hhigh]
    · rfl
    · rw [hhigh]; constructor <;> simp <;> omega
  cases hint
  · exact hhigh
  · simp only [useHint, Schoolbook.useHint, Bool.not_true, Bool.false_eq_true, if_false, if_true,
      Int32.lt_iff_toInt_lt, hlow, Int32.toInt_zero]
    split
    · rw [toInt_and_fifteen, hup]; rfl
    · rw [toInt_and_fifteen, hdown]; rfl

theorem toInt_highBits_canonical (h : a.toInt ≤ 2143289343) :
    (highBits (canonical a)).toInt = Schoolbook.highBits (residue a) := by
  rw [toInt_highBits (toInt_canonical_eq_val h), residue_canonical h]

theorem makeHint_eq {z r : Coeff} (hr : r.toInt ≤ 2143289343)
    (hz : Fits (r.toInt + z.toInt)) (hrz : r.toInt + z.toInt ≤ 2143289343) :
    makeHint z r =
      (Schoolbook.highBits (residue r) != Schoolbook.highBits (residue r + residue z)) := by
  have hsum := toInt_add_of_fits hz
  rw [← residue_add hz, ← toInt_highBits_canonical hr, ← toInt_highBits_canonical (by omega),
    makeHint]
  exact Bool.eq_iff_iff.mpr (by simp only [bne_iff_ne, ne_eq, Int32.toInt_inj])

theorem useHint_makeHint {z r : Coeff} (hr : r.toInt ≤ 2143289343)
    (hz : Fits (r.toInt + z.toInt)) (hrz : r.toInt + z.toInt ≤ 2143289343)
    (hsmall : absResidue (residue z) ≤ 261888) :
    useHint (makeHint z r) (canonical r) = highBits (canonical (r + z)) := by
  have hsum := toInt_add_of_fits hz
  have hback := Schoolbook.useHint_add (residue r + residue z) (-residue z)
    ((absResidue_neg_le _).trans hsmall)
  rw [add_neg_cancel_right] at hback
  apply Int32.toInt.inj
  rw [toInt_useHint (toInt_canonical_eq_val hr), residue_canonical hr, makeHint_eq hr hz hrz, hback,
    toInt_highBits_canonical (by omega), residue_add hz]

theorem highBits_canonical_sub {w e : Coeff} (hw : w.toInt = (residue w).val)
    (he : Fits (w.toInt - e.toInt)) (hle : w.toInt - e.toInt ≤ 2143289343)
    (hsmall : absResidue (residue e) ≤ 196)
    (hlow : size (lowBits (canonical (w - e))) < 261692) :
    highBits (canonical (w - e)) = highBits w := by
  have hdiff := toInt_sub_of_fits he
  rw [size, toInt_lowBits (toInt_canonical_eq_val (by omega)), residue_canonical (by omega),
    residue_sub he] at hlow
  apply Int32.toInt.inj
  rw [toInt_highBits_canonical (by omega), residue_sub he, toInt_highBits hw]
  exact Schoolbook.highBits_sub_of_lowBits _ _ hsmall hlow

end Coeff

end MLDSA
