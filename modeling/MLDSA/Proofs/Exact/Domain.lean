import MLDSA.Proofs.Exact.Ring

/-! # The domains of the word functions

What the two reductions and the hint do on the whole domain that is written down for each of them.
The Montgomery reduction keeps its word everywhere. The Barrett reduction comes out one too low at
a single word, and a hint is about another sum where its terms add up to more than the Barrett
reduction takes, although each term alone is well inside of the domain. -/

namespace MLDSA

open Coeff

/-! ## Montgomery reduction -/

namespace Coeff

theorem modEq_montgomery {a : Int64} (h : a.toInt.natAbs < 8380417 * 2 ^ 31) :
    (montgomery a).toInt * 2 ^ 32 ≡ a.toInt [ZMOD modulus] := by
  have hexact := toInt_montgomery h
  simp only [Int.ModEq, Nat.cast_ofNat]
  omega

theorem abs_montgomery {a : Int64} (h : a.toInt.natAbs < 8380417 * 2 ^ 31) :
    |(montgomery a).toInt| < modulus := by
  have hsize := size_montgomery h
  rw [Int.abs_eq_natAbs]
  exact_mod_cast hsize

theorem size_product {a b : Coeff} (h : |a.toInt * b.toInt| < modulus * 2 ^ 31) :
    size a * size b < 8380417 * 2 ^ 31 := by
  rw [Int.abs_eq_natAbs, Int.natAbs_mul] at h
  unfold size
  exact_mod_cast h

end Coeff

/-- The reduction divides exactly on its whole domain, and none of its 64-bit operations overflows:
the product with `q` and the difference are those of the integers, and only the low word
`multiplier` wraps around. So the product of two words is the one of their residues, if the integers
allow it. -/
theorem montgomery_exact :
    (∀ a : Int64, |a.toInt| < modulus * 2 ^ 31 →
      (montgomery a).toInt * 2 ^ 32 ≡ a.toInt [ZMOD modulus] ∧ |(montgomery a).toInt| < modulus ∧
      (2 : Int) ^ 32 ∣ a.toInt - (multiplier a).toInt * modulus ∧
      ((multiplier a).toInt64 * q.toInt64).toInt = (multiplier a).toInt * modulus ∧
      (a - (multiplier a).toInt64 * q.toInt64).toInt = a.toInt - (multiplier a).toInt * modulus ∧
      (montgomery a).toInt * 2 ^ 32 = a.toInt - (multiplier a).toInt * modulus ∧
      Exact.montgomery a.toInt = .ok (montgomery a).toInt) ∧
    ∀ a b : Coeff, |a.toInt * b.toInt| < modulus * 2 ^ 31 →
      (mul a b).toInt * 2 ^ 32 ≡ a.toInt * b.toInt [ZMOD modulus] ∧ |(mul a b).toInt| < modulus ∧
      Exact.mul a.toInt b.toInt = .ok (mul a b).toInt := by
  refine ⟨fun a h => ?_, fun a b h => ?_⟩
  · have hsmall : a.toInt.natAbs < 8380417 * 2 ^ 31 := by
      rw [Int.abs_eq_natAbs] at h
      exact_mod_cast h
    exact ⟨modEq_montgomery hsmall, abs_montgomery hsmall, dvd_sub_multiple a, toInt_multiple _,
      toInt_sub_multiple hsmall _, toInt_montgomery hsmall, Exact.montgomery_toInt hsmall⟩
  · have hsize := size_product h
    have hsmall : (a.toInt64 * b.toInt64).toInt.natAbs < 8380417 * 2 ^ 31 := by
      rw [toInt_product, Int.natAbs_mul]
      exact hsize
    have hmod := modEq_montgomery hsmall
    rw [toInt_product] at hmod
    exact ⟨hmod, abs_montgomery hsmall, Exact.mul_toInt hsize⟩

theorem montgomery_exact_ends :
    |(17996808470921215 : Int64).toInt| < modulus * 2 ^ 31 ∧
    (17996808470921215 : Int64).toInt + 1 = modulus * 2 ^ 31 ∧
    |(montgomery 17996808470921215).toInt| < modulus ∧
    |(-2147483648 : Coeff).toInt * (8380416 : Coeff).toInt| < modulus * 2 ^ 31 ∧
    (mul (-2147483648) 8380416).toInt * 2 ^ 32 ≡ -2147483648 * 8380416 [ZMOD modulus] := by
  obtain ⟨hword, hproduct⟩ := montgomery_exact
  obtain ⟨-, hsize, -⟩ := hword 17996808470921215 (by decide)
  obtain ⟨hmod, -⟩ := hproduct (-2147483648) 8380416 (by decide)
  exact ⟨by decide, by decide, hsize, by decide, hmod⟩

/-! ## Barrett reduction -/

namespace Coeff

variable {a : Coeff}

theorem modEq_reduce (h : a.toInt ≤ 2143289343) : (reduce a).toInt ≡ a.toInt [ZMOD modulus] :=
  residue_eq_iff.mp (residue_reduce h)

/-- The words of the quotient `k` come out between `8191 * k - 2^22` and `8191 * k + 2^22 - 1`. The
quotient 255 reaches the bound, and the quotient -255 goes one further. -/
theorem reduce_ge_iff (h : a.toInt ≤ 2143289343) :
    -6283008 ≤ (reduce a).toInt ↔ a.toInt ≠ -2143289344 := by
  obtain ⟨h1, h2⟩ := toInt_fits a
  rw [toInt_reduce h]
  omega

end Coeff

/-- The reduction on its whole domain, which is open to below. One word comes out below the
symmetric range, and a polynomial is reduced into the range if it does not have this word. -/
theorem reduce_range (a : Coeff) (p : Poly) (v : NttPoly) :
    (a.toInt ≤ 2 ^ 31 - 2 ^ 22 - 1 →
      Exact.reduce a.toInt = .ok (reduce a).toInt ∧ (reduce a).toInt ≡ a.toInt [ZMOD modulus] ∧
      -6283009 ≤ (reduce a).toInt ∧ (reduce a).toInt ≤ 6283008 ∧
      (-6283008 ≤ (reduce a).toInt ↔ a.toInt ≠ -(2 ^ 31 - 2 ^ 22))) ∧
    ((∀ i : Fin 256, (p i).toInt ≤ 2 ^ 31 - 2 ^ 22 - 1) →
      ((∀ i : Fin 256, |(p.reduce i).toInt| ≤ 6283008) ↔
        ∀ i : Fin 256, (p i).toInt ≠ -(2 ^ 31 - 2 ^ 22))) ∧
    ((∀ i : Fin 256, (v i).toInt ≤ 2 ^ 31 - 2 ^ 22 - 1) →
      ((∀ i : Fin 256, |(v.reduce i).toInt| ≤ 6283008) ↔
        ∀ i : Fin 256, (v i).toInt ≠ -(2 ^ 31 - 2 ^ 22))) := by
  have hword : ∀ a : Coeff, a.toInt ≤ 2143289343 →
      (|(reduce a).toInt| ≤ 6283008 ↔ a.toInt ≠ -2143289344) := by
    intro a h
    rw [abs_le, reduce_ge_iff h]
    exact and_iff_left (reduce_bounds h).2
  refine ⟨fun h => ?_, fun hp => ?_, fun hv => ?_⟩
  · exact ⟨Exact.reduce_toInt h, modEq_reduce h, (reduce_bounds h).1, (reduce_bounds h).2,
      reduce_ge_iff h⟩
  · refine forall_congr' fun i => ?_
    rw [Poly.reduce, Poly.map_apply]
    exact hword (p i) (hp i)
  · refine forall_congr' fun i => ?_
    rw [NttPoly.reduce, NttPoly.map_apply]
    exact hword (v i) (hv i)

theorem reduce_range_ends :
    (-2143289343 : Coeff).toInt ≤ 2 ^ 31 - 2 ^ 22 - 1 ∧ -6283008 ≤ (reduce (-2143289343)).toInt ∧
    (reduce 2143289343).toInt = 6283008 ∧
    ∃ (p : Poly) (v : NttPoly), (∀ i : Fin 256, (p i).toInt = 2143289343) ∧
      (∀ i : Fin 256, (v i).toInt = 2143289343) ∧
      (∀ i : Fin 256, |(p.reduce i).toInt| ≤ 6283008) ∧
      ∀ i : Fin 256, |(v.reduce i).toInt| ≤ 6283008 := by
  obtain ⟨hword, hpoly, hvalues⟩ := reduce_range (-2143289343) ⟨Vector.replicate 256 2143289343⟩
    ⟨Vector.replicate 256 2143289343⟩
  obtain ⟨-, -, -, -, hlow⟩ := hword (by decide)
  have hlargest : ∀ i : Fin 256,
      ((Vector.replicate 256 (2143289343 : Coeff)).get i).toInt = 2143289343 :=
    fun i => congrArg Int32.toInt (Vector.getElem_replicate i.isLt)
  refine ⟨by decide, hlow.mpr (by decide), by decide, _, _, hlargest, hlargest,
    (hpoly fun i => ?_).mpr fun i => ?_, (hvalues fun i => ?_).mpr fun i => ?_⟩
  all_goals
    rw [hlargest]
    decide

/-- The least word of the quotient -255 is in the domain, and comes out below the range. -/
theorem reduce_below_range : ¬ ∀ a : Coeff, a.toInt ≤ 2 ^ 31 - 2 ^ 22 - 1 →
    -6283008 ≤ (reduce a).toInt ∧ (reduce a).toInt ≤ 6283008 := by
  intro h
  obtain ⟨hlow, -⟩ := h (-2143289344) (by decide)
  exact absurd hlow (by decide)

/-! ## Hints -/

namespace Coeff

variable {a z r : Coeff}

theorem toInt_highBits_canonical_of_gt (h : 2143289343 < a.toInt) :
    (highBits (canonical a)).toInt = Schoolbook.highBits ((a.toInt - 4193792 : Int) : Zq) := by
  obtain ⟨-, h2⟩ := toInt_fits a
  have hcanon := toInt_canonical_of_gt h
  have hresidue : residue (canonical a) = ((a.toInt - 4193792 : Int) : Zq) := by
    rw [residue, hcanon]
    refine (ZMod.intCast_eq_intCast_iff' _ _ 8380417).mpr ?_
    omega
  rw [toInt_highBits (toInt_eq_val (by omega) (by omega)), hresidue]

theorem makeHint_iff : makeHint z r = true ↔
    (highBits (canonical r)).toInt ≠ (highBits (canonical (r + z))).toInt := by
  rw [makeHint, bne_iff_ne, ne_eq, ne_eq, Int32.toInt_inj]

end Coeff

namespace Exact

variable {z r : Coeff}

theorem add_step_of_gt {v : Int} (h : 2143289343 < v) :
    add v 4194304 = .error (.overflow (v + 4194304)) :=
  if_neg fun hfits => by
    obtain ⟨-, hlt⟩ := hfits
    omega

theorem canonical_of_gt {v : Int} (h : 2143289343 < v) : canonical v = .error .domain := by
  have hrequire : require (v ≤ 2 ^ 31 - 2 ^ 22 - 1) = .error .domain := if_neg (by omega)
  rw [canonical, reduce, hrequire]
  rfl

theorem highBits_canonical (h : r.toInt ≤ 2143289343) :
    highBits (Coeff.canonical r).toInt = .ok (Coeff.highBits (Coeff.canonical r)).toInt := by
  have hcanon := Coeff.toInt_canonical h
  exact highBits_toInt (by omega) (by omega)

theorem makeHint_of_gt (hr : r.toInt ≤ 2143289343) (hfits : Fits (r.toInt + z.toInt))
    (hsum : 2143289343 < r.toInt + z.toInt) : makeHint z.toInt r.toInt = .error .domain := by
  have hword : (r + z).toInt = r.toInt + z.toInt := toInt_add_of_fits hfits
  rw [makeHint, canonical_toInt hr, ok_bind, highBits_canonical hr, ok_bind, add_toInt hfits,
    ok_bind, hword, canonical_of_gt hsum]
  rfl

end Exact

/-- A hint of any two words that are less than `2^30` away from zero. It is about the sum, and no
operation overflows, as long as the reduction takes the sum. Above that its first operation
overflows, and in words that wrap around the hint is about a sum that is 4193792 less. -/
theorem makeHint_domain {z r : Coeff} (hz : |z.toInt| < 2 ^ 30) (hr : |r.toInt| < 2 ^ 30) :
    (r.toInt + z.toInt ≤ 2 ^ 31 - 2 ^ 22 - 1 →
      Exact.makeHint z.toInt r.toInt = .ok (makeHint z r) ∧
      (makeHint z r = true ↔ Schoolbook.highBits (r.toInt : Zq) ≠
        Schoolbook.highBits ((r.toInt + z.toInt : Int) : Zq))) ∧
    (2 ^ 31 - 2 ^ 22 - 1 < r.toInt + z.toInt →
      Exact.makeHint z.toInt r.toInt = .error .domain ∧
      Exact.add (r.toInt + z.toInt) (2 ^ 22) = .error (.overflow (r.toInt + z.toInt + 2 ^ 22)) ∧
      (makeHint z r = true ↔ Schoolbook.highBits (r.toInt : Zq) ≠
        Schoolbook.highBits ((r.toInt + z.toInt - 4193792 : Int) : Zq))) := by
  obtain ⟨z1, z2⟩ := abs_lt.mp hz
  obtain ⟨r1, r2⟩ := abs_lt.mp hr
  have hfits : Fits (r.toInt + z.toInt) := ⟨by omega, by omega⟩
  have hword : (r + z).toInt = r.toInt + z.toInt := toInt_add_of_fits hfits
  have hfirst : (highBits (canonical r)).toInt = Schoolbook.highBits (r.toInt : Zq) :=
    toInt_highBits_canonical (by omega)
  rw [makeHint_iff, hfirst, ← hword]
  constructor
  · intro hsum
    refine ⟨Exact.makeHint_toInt (by omega) hfits (hword ▸ hsum), ?_⟩
    rw [toInt_highBits_canonical hsum]
    rfl
  · intro hsum
    refine ⟨Exact.makeHint_of_gt (by omega) hfits (hword ▸ hsum), Exact.add_step_of_gt hsum, ?_⟩
    rw [toInt_highBits_canonical_of_gt hsum]

theorem makeHint_domain_end :
    |(1072693376 : Coeff).toInt| < 2 ^ 30 ∧ |(1070595967 : Coeff).toInt| < 2 ^ 30 ∧
    (1070595967 : Coeff).toInt + (1072693376 : Coeff).toInt = 2 ^ 31 - 2 ^ 22 - 1 ∧
    Exact.makeHint 1072693376 1070595967 = .ok (makeHint 1072693376 1070595967) := by
  obtain ⟨hinside, -⟩ := makeHint_domain (z := 1072693376) (r := 1070595967) (by decide) (by decide)
  exact ⟨by decide, by decide, by decide, (hinside (by decide)).1⟩

/-- One more, and the hint tells of a move to another bucket, although a multiple of `q` was added
and the sum overflows in the reduction. -/
theorem makeHint_outgrows_domain :
    |(1072693376 : Coeff).toInt| < 2 ^ 30 ∧ |(1070595968 : Coeff).toInt| < 2 ^ 30 ∧
    Exact.add (1070595968 + 1072693376) (2 ^ 22) = .error (.overflow (2 ^ 31)) ∧
    ¬ (makeHint 1072693376 1070595968 = true ↔ Schoolbook.highBits ((1070595968 : Int) : Zq) ≠
      Schoolbook.highBits ((1070595968 + 1072693376 : Int) : Zq)) := by
  have hmultiple : ((1070595968 + 1072693376 : Int) : Zq) = ((1070595968 : Int) : Zq) :=
    (ZMod.intCast_eq_intCast_iff' _ _ 8380417).mpr (by decide)
  have hmoved : makeHint 1072693376 1070595968 = true := by decide
  refine ⟨by decide, by decide, by decide, ?_⟩
  rw [hmultiple, hmoved]
  simp

end MLDSA
