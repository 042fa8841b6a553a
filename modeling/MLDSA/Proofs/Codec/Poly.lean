import Mathlib.Data.List.GetD
import MLDSA.Codec.Poly
import MLDSA.Proofs.Bytes.Bits
import MLDSA.Proofs.Ring.Product

/-! # Polynomials come back from their bytes

A polynomial whose coefficients are in the range of its encoding is decoded as it was, and every
byte string decodes to coefficients in the range of its width, from which it comes back. The key
fact is that a word in the range is the number that is packed. -/

namespace MLDSA.Poly

open Coeff

/-- Each coefficient is at least `lo` and at most `hi`. -/
def InRange (lo hi : Int) (p : Poly) : Prop :=
  ∀ i : Fin 256, lo ≤ (p i).toInt ∧ (p i).toInt ≤ hi

theorem InRange.within {lo hi : Int} {p : Poly} {B : Nat} (h : p.InRange lo hi) (hlo : -B ≤ lo)
    (hhi : hi ≤ B) : p.Within B := by
  intro i
  have := h i
  unfold size
  omega

theorem ext_toInt {p r : Poly} (h : ∀ i : Fin 256, (p i).toInt = (r i).toInt) :
    p = r := by
  cases p
  cases r
  congr 1
  ext i hi
  exact Int32.toInt.inj (h ⟨i, hi⟩)

/-! ## Any range -/

theorem ofList_apply (l : List Coeff) (i : Fin 256) : ofList l i = l.getD i 0 := by
  show (ofList l).coeffs[i.val] = l.getD i 0
  simp [ofList, List.getD_eq_getElem?_getD]

theorem toNat_toUInt32 {c : Coeff} (h : 0 ≤ c.toInt) : (c.toUInt32.toNat : Int) = c.toInt := by
  have h1 : c.toUInt32.toNat = c.toBitVec.toNat := rfl
  rw [← Int32.toInt_toBitVec] at h ⊢
  rw [h1, BitVec.toInt_eq_toNat_cond] at *
  split at h <;> omega

theorem packed_eq {p : Poly} (hp : ∀ i : Fin 256, 0 ≤ (p i).toInt) :
    (p.coeffs.toList.map fun c => c.toUInt32.toNat) = List.ofFn fun i => (p i).toInt.toNat := by
  apply List.ext_getElem
  · rw [List.length_map, Vector.length_toList, List.length_ofFn]
  · intro i h1 h2
    have hi : i < 256 := by rwa [List.length_ofFn] at h2
    have hnat := toNat_toUInt32 (hp ⟨i, hi⟩)
    rw [List.getElem_map, List.getElem_ofFn, Vector.getElem_toList]
    exact (Int.toNat_natCast _).symm.trans (congrArg Int.toNat hnat)

theorem getD_unpackBits_lt {width : Nat} (b : Bytes) (i : Nat) :
    (unpackBits width b).getD i 0 < 2 ^ width := by
  rcases Nat.lt_or_ge i (unpackBits width b).length with hi | hi
  · rw [List.getD_eq_getElem _ _ hi]
    exact lt_of_mem_unpackBits (List.getElem_mem hi)
  · rw [List.getD_eq_default _ _ hi]
    exact Nat.two_pow_pos width

theorem toInt_unpack {width : Nat} {b : Bytes} (hw : width ≤ 31) (i : Fin 256) :
    (unpack width b i).toInt = ((unpackBits width b).getD i 0 : Nat) := by
  have hlt : (unpackBits width b).getD i 0 < 2 ^ 31 :=
    lt_of_lt_of_le (getD_unpackBits_lt b i) (Nat.pow_le_pow_right (by decide) hw)
  rw [unpack, ofList_apply, show (0 : Coeff) = Int32.ofNat 0 from rfl, List.getD_map,
    Int32.toInt_ofNat_of_lt hlt]

theorem unpack_bounds {width : Nat} (b : Bytes) (hw : width ≤ 31) :
    (unpack width b).InRange 0 (2 ^ width - 1) := by
  intro i
  have hlt : _ < 2 ^ width := getD_unpackBits_lt b i
  rw [toInt_unpack hw]
  constructor
  · omega
  · have hcast : (((unpackBits width b).getD i 0 : Nat) : Int) < 2 ^ width := by exact_mod_cast hlt
    omega

theorem unpack_pack {width : Nat} (h0 : 0 < width) (hw : width ≤ 31) {p : Poly}
    (hp : p.InRange 0 (2 ^ width - 1)) : unpack width (p.pack width) = p := by
  apply ext_toInt
  intro i
  obtain ⟨hlo, hhi⟩ := hp i
  have hword := toNat_toUInt32 hlo
  have hlt : (p i).toUInt32.toNat < 2 ^ width := by
    zify
    rw [hword]
    omega
  have hlen : (p.coeffs.toList.map fun c => c.toUInt32.toNat).length = 256 := by simp
  have hi : i.val <
      ((p.coeffs.toList.map fun c => c.toUInt32.toNat).map (· % 2 ^ width)).length := by
    simp
  rw [toInt_unpack hw, pack, unpackBits_packBits h0 (by rw [hlen]; omega),
    List.getD_eq_getElem _ _ hi]
  simp only [List.getElem_map, Vector.getElem_toList]
  show (((p i).toUInt32.toNat % 2 ^ width : Nat) : Int) = (p i).toInt
  rw [Nat.mod_eq_of_lt hlt, hword]

theorem pack_unpack {width : Nat} (h0 : 0 < width) (hw : width ≤ 31) {b : Bytes}
    (hb : 8 * b.length = 256 * width) : (unpack width b).pack width = b := by
  have hlen : (unpackBits width b).length = 256 := by
    rw [length_unpackBits, hb, Nat.mul_div_cancel _ h0]
  have hwords : (unpack width b).coeffs.toList.map (fun c => c.toUInt32.toNat) =
      unpackBits width b := by
    apply List.ext_getElem
    · rw [List.length_map, Vector.length_toList, hlen]
    · intro i h1 h2
      rw [List.getElem_map, Vector.getElem_toList]
      have hword := toInt_unpack (b := b) hw ⟨i, by rwa [hlen] at h2⟩
      have hnat := toNat_toUInt32 (c := unpack width b ⟨i, by rwa [hlen] at h2⟩) (by omega)
      rw [hword, List.getD_eq_getElem _ _ h2] at hnat
      exact_mod_cast hnat
  rw [pack, hwords, packBits_unpackBits ⟨256, by omega⟩]

section Range

variable {a b : Int} {width : Nat} {p : Poly}

theorem toInt_reflect {c : Coeff} (hb : Fits b) (hc : Fits (b - c.toInt)) :
    (Int32.ofInt b - c).toInt = b - c.toInt := by
  rw [toInt_sub_of_fits, toInt_ofInt_of_fits hb]
  rwa [toInt_ofInt_of_fits hb]

theorem toInt_unpackRange (x : Bytes) (hw : bitLength (a + b).toNat = width) (h31 : width ≤ 31)
    (hb : 0 ≤ b) (hb' : b < 2147483648) (i : Fin 256) :
    (unpackRange a b x i).toInt = b - ((unpackBits width x).getD i 0 : Nat) := by
  have hpow : (2 : Int) ^ width ≤ 2147483648 := by
    exact_mod_cast Nat.pow_le_pow_right (n := 2) (by decide) h31
  have hbounds := unpack_bounds x h31 i
  rw [unpackRange, hw, map_apply, toInt_reflect ⟨by omega, hb'⟩ ⟨by omega, by omega⟩,
    toInt_unpack h31]

theorem unpackRange_bounds (x : Bytes) (hw : bitLength (a + b).toNat = width) (h31 : width ≤ 31)
    (hb : 0 ≤ b) (hb' : b < 2147483648) : (unpackRange a b x).InRange (b - (2 ^ width - 1)) b := by
  intro i
  have hbounds := unpack_bounds x h31 i
  rw [toInt_unpack h31] at hbounds
  rw [toInt_unpackRange x hw h31 hb hb']
  omega

theorem unpackRange_packRange (hw : bitLength (a + b).toNat = width) (h0 : 0 < width)
    (h31 : width ≤ 31) (hb : 0 ≤ b) (hb' : b < 2147483648)
    (hp : p.InRange (b - (2 ^ width - 1)) b) : unpackRange a b (p.packRange a b) = p := by
  have hpow : (2 : Int) ^ width ≤ 2147483648 := by
    exact_mod_cast Nat.pow_le_pow_right (n := 2) (by decide) h31
  have hword : ∀ i : Fin 256, (Int32.ofInt b - p i).toInt = b - (p i).toInt := by
      intro i
      have := hp i
      exact toInt_reflect ⟨by omega, hb'⟩ ⟨by omega, by omega⟩
  have hin : (p.map (Int32.ofInt b - ·)).InRange 0 (2 ^ width - 1) := by
    intro i
    have := hp i
    rw [map_apply, hword]
    omega
  rw [unpackRange, packRange, hw, unpack_pack h0 h31 hin]
  apply ext_toInt
  intro i
  rw [map_apply, map_apply, toInt_reflect ⟨by omega, hb'⟩, hword]
  · omega
  · have := hp i
    rw [hword]
    constructor <;> omega

theorem packRange_unpackRange {x : Bytes} (hw : bitLength (a + b).toNat = width) (h0 : 0 < width)
    (h31 : width ≤ 31) (hx : 8 * x.length = 256 * width) :
    (unpackRange a b x).packRange a b = x := by
  have hreflect : ∀ c : Coeff, Int32.ofInt b - (Int32.ofInt b - c) = c := by
    intro c
    grind
  have hback : ((unpack width x).map (Int32.ofInt b - ·)).map (Int32.ofInt b - ·) =
      unpack width x := by
    refine ext_toInt fun i => ?_
    rw [map_apply, map_apply, hreflect]
  rw [packRange, unpackRange, hw, hback, pack_unpack h0 h31 hx]

end Range

/-! ## The ranges of keys and signatures -/

theorem decodeT1_bounds (b : Octets t1Bytes) : (decodeT1 b).InRange 0 1023 :=
  unpack_bounds b.bytes (by decide)

theorem decodeT1_encodeT1 {p : Poly} (hp : p.InRange 0 1023) : decodeT1 p.encodeT1 = p :=
  unpack_pack (by decide) (by decide) hp

theorem decodeT0_bounds (b : Octets t0Bytes) : (decodeT0 b).InRange (-4095) 4096 :=
  unpackRange_bounds b.bytes (show _ = 13 by decide) (by decide) (by decide) (by decide)

theorem decodeT0_encodeT0 {p : Poly} (hp : p.InRange (-4095) 4096) : decodeT0 p.encodeT0 = p :=
  unpackRange_packRange (show _ = 13 by decide) (by decide) (by decide) (by decide) (by decide) hp

theorem encodeT1_decodeT1 (b : Octets t1Bytes) : (decodeT1 b).encodeT1 = b :=
  Octets.ext (pack_unpack (by decide) (by decide) (congrArg (8 * ·) b.length_eq))

theorem encodeT0_decodeT0 (b : Octets t0Bytes) : (decodeT0 b).encodeT0 = b :=
  Octets.ext (packRange_unpackRange (show _ = 13 by decide) (by decide) (by decide)
    (congrArg (8 * ·) b.length_eq))

theorem all_ge_four_iff {p : Poly} :
    p.coeffs.all (-4 ≤ ·) = true ↔ ∀ i : Fin 256, -4 ≤ (p i).toInt := by
  simp only [Vector.all_eq_true, decide_eq_true_eq, Int32.le_iff_toInt_le]
  exact ⟨fun h i => h i i.isLt, fun h i hi => h ⟨i, hi⟩⟩

theorem decodeSecret?_bounds {b : Octets secretBytes} {p : Poly} (h : decodeSecret? b = some p) :
    p.InRange (-4) 4 := by
  have hrange := unpackRange_bounds (a := 4) (b := 4) b.bytes (show _ = 4 by decide) (by decide)
    (by decide) (by decide)
  simp only [decodeSecret?, Option.ite_none_right_eq_some, Option.some.injEq] at h
  obtain ⟨hall, rfl⟩ := h
  exact fun i => ⟨all_ge_four_iff.mp hall i, (hrange i).2⟩

theorem decodeSecret?_encodeSecret {p : Poly} (hp : p.InRange (-4) 4) :
    decodeSecret? p.encodeSecret = some p := by
  have hback : unpackRange 4 4 p.encodeSecret.bytes = p :=
    unpackRange_packRange (show _ = 4 by decide) (by decide) (by decide) (by decide) (by decide)
      fun i => ⟨le_trans (by decide) (hp i).1, (hp i).2⟩
  simp only [decodeSecret?, hback]
  exact if_pos (all_ge_four_iff.mpr fun i => (hp i).1)

theorem encodeSecret_of_decodeSecret? {b : Octets secretBytes} {p : Poly}
    (h : decodeSecret? b = some p) : p.encodeSecret = b := by
  simp only [decodeSecret?, Option.ite_none_right_eq_some, Option.some.injEq] at h
  obtain ⟨-, rfl⟩ := h
  exact Octets.ext (packRange_unpackRange (show _ = 4 by decide) (by decide) (by decide)
    (congrArg (8 * ·) b.length_eq))

theorem decodeSecret?_eq_none {b : Octets secretBytes} :
    decodeSecret? b = none ↔ ∃ x ∈ b.bytes, 8 < x.toNat % 16 ∨ 8 < x.toNat / 16 := by
  have hlen : (unpackBits 4 b.bytes).length = 256 := by
    rw [length_unpackBits, b.length_eq]
    rfl
  have hcoeff := toInt_unpackRange (a := 4) (b := 4) b.bytes (show _ = 4 by decide) (by decide)
    (by decide) (by decide)
  have hnone : decodeSecret? b = none ↔
      ¬ ∀ i : Fin 256, -4 ≤ (unpackRange 4 4 b.bytes i).toInt := by
    rw [← all_ge_four_iff]
    simp [decodeSecret?]
  have hnumber : (¬ ∀ i : Fin 256, -4 ≤ (unpackRange 4 4 b.bytes i).toInt) ↔
      ∃ v ∈ unpackBits 4 b.bytes, 8 < v := by
    simp only [hcoeff, not_forall]
    constructor
    · rintro ⟨i, hi⟩
      have hlt : i.val < (unpackBits 4 b.bytes).length := by omega
      rw [List.getD_eq_getElem _ _ hlt] at hi
      exact ⟨_, List.getElem_mem hlt, by omega⟩
    · rintro ⟨v, hv, h8⟩
      obtain ⟨i, hi, rfl⟩ := List.mem_iff_getElem.mp hv
      refine ⟨⟨i, by omega⟩, ?_⟩
      rw [List.getD_eq_getElem _ _ hi]
      omega
  rw [hnone, hnumber, unpackBits_four]
  simp only [List.mem_flatMap, List.mem_cons, List.not_mem_nil, or_false]
  constructor
  · rintro ⟨v, ⟨x, hx, rfl | rfl⟩, h8⟩
    · exact ⟨x, hx, .inl h8⟩
    · exact ⟨x, hx, .inr h8⟩
  · rintro ⟨x, hx, h8 | h8⟩
    · exact ⟨_, ⟨x, hx, .inl rfl⟩, h8⟩
    · exact ⟨_, ⟨x, hx, .inr rfl⟩, h8⟩

theorem decodeZ_bounds (b : Octets zBytes) : (decodeZ b).InRange (-524287) 524288 :=
  unpackRange_bounds b.bytes (show _ = 20 by decide) (by decide) (by decide) (by decide)

/-! ## Responses -/

/-- The words of an element that are closest to zero. -/
def ofElement (a : Rq) : Poly :=
  ⟨Vector.ofFn fun i => Int32.ofInt (centered modulus (a.coeff i).val)⟩

theorem toInt_ofElement (a : Rq) (i : Fin 256) :
    (ofElement a i).toInt = centered 8380417 (a.coeff i).val := by
  have hfits : Fits (centered 8380417 (a.coeff i).val) := by
    have hb := centered_bounds (a.coeff i).val
    constructor <;> omega
  show (ofElement a).coeffs[i.val].toInt = _
  rw [ofElement, Vector.getElem_ofFn]
  exact toInt_ofInt_of_fits hfits

theorem element_ofElement (a : Rq) : (ofElement a).element = a := by
  ext i
  rw [coeff_element, residue, toInt_ofElement, intCast_centered_val]

theorem within_ofElement (a : Rq) : (ofElement a).Within 4190208 := by
  intro i
  have hb := centered_bounds (a.coeff i).val
  rw [size, toInt_ofElement]
  omega

theorem ofElement_element {p : Poly} (hp : p.Within 4190208) : ofElement p.element = p := by
  refine ext_toInt fun i => ?_
  have hi := hp i
  unfold size at hi
  rw [toInt_ofElement, coeff_element, val_residue, centered_emod,
    centered_of_bounds (by omega) (by omega)]

theorem map_center_canonical {p : Poly} (hp : ∀ i : Fin 256, (p i).toInt ≤ 2143289343) :
    (p.map fun c => Coeff.center (Coeff.canonical c)) = ofElement p.element := by
  apply ext_toInt
  intro i
  rw [map_apply, toInt_center_canonical (hp i), toInt_ofElement, coeff_element,
    val_residue, centered_emod]

theorem encodeZ_ofElement {p : Poly} (hp : ∀ i : Fin 256, (p i).toInt ≤ 2143289343) :
    (ofElement p.element).encodeZ = p.encodeZ := by
  apply Octets.ext
  simp only [encodeZ]
  rw [map_center_canonical ((within_ofElement _).toInt_le (by decide)), map_center_canonical hp,
    element_ofElement]

theorem decodeZ_encodeZ {p : Poly} (hp : ∀ i : Fin 256, (p i).toInt ≤ 2143289343)
    (hz : (ofElement p.element).InRange (-524287) 524288) :
    decodeZ p.encodeZ = ofElement p.element := by
  have hbytes : p.encodeZ.bytes = (ofElement p.element).packRange 524287 524288 := by
    rw [← map_center_canonical hp]
    rfl
  rw [decodeZ, hbytes]
  exact unpackRange_packRange (show _ = 20 by decide) (by decide) (by decide) (by decide)
    (by decide) hz

theorem encodeZ_decodeZ (b : Octets zBytes) : (decodeZ b).encodeZ = b := by
  have hwithin : (decodeZ b).Within 524288 := (decodeZ_bounds b).within (by decide) (by decide)
  apply Octets.ext
  simp only [encodeZ]
  rw [map_center_canonical (hwithin.toInt_le (by decide)),
    ofElement_element (hwithin.mono (by decide)), decodeZ]
  exact packRange_unpackRange (show _ = 20 by decide) (by decide) (by decide)
    (congrArg (8 * ·) b.length_eq)

end MLDSA.Poly
