import MLDSA.Proofs.Bytes.Accumulator
import MLDSA.Proofs.Codec.Poly
import MLDSA.Proofs.Stream

/-! # Packing is dense

Every bit of a packing has its place: bit `p` is bit `p % width` of number `p / width`, and behind
the last number all bits are zero. The key fact is that this holds of the list of bits that is cut
into bytes, and that a byte has the bits of its piece. -/

namespace MLDSA

/-! ## Bits by their places -/

theorem getD_bitsOf {width k : Nat} (v : Nat) (h : k < width) :
    (bitsOf width v).getD k false = v.testBit k := by
  have hlen : k < (bitsOf width v).length := by rwa [length_bitsOf]
  rw [List.getD_eq_getElem _ _ hlen]
  simp [bitsOf]

theorem getD_flatMap_bitsOf {width : Nat} (hw : 0 < width) (values : List Nat) (p : Nat) :
    (values.flatMap (bitsOf width)).getD p false =
      (values.getD (p / width) 0).testBit (p % width) := by
  induction values generalizing p with
  | nil => simp
  | cons v values ih =>
    rw [List.flatMap_cons]
    rcases Nat.lt_or_ge p width with hp | hp
    · rw [List.getD_append _ _ _ _ (by rwa [length_bitsOf]), getD_bitsOf v hp, Nat.div_eq_of_lt hp,
        Nat.mod_eq_of_lt hp, List.getD_cons_zero]
    · obtain ⟨k, rfl⟩ := Nat.exists_eq_add_of_le hp
      rw [List.getD_append_right _ _ _ _ (by rwa [length_bitsOf]), length_bitsOf,
        Nat.add_sub_cancel_left, ih, Nat.add_div_left _ hw, Nat.add_mod_left, List.getD_cons_succ]

/-- The bit at place `p` of a byte string, the lowest bit of a byte first. -/
def bitOfBytes (b : Bytes) (p : Nat) : Bool := Schoolbook.bitAt (fun i => b.getD i 0) p

theorem bitOfBytes_bytesOfBits (bits : List Bool) (p : Nat) :
    bitOfBytes (bytesOfBits bits) p = bits.getD p false := by
  have hlen : (bytesOfBits bits).length = (bits.length + 7) / 8 := by simp [bytesOfBits]
  simp only [bitOfBytes, Schoolbook.bitAt]
  rcases Nat.lt_or_ge (p / 8) (bytesOfBits bits).length with hp | hp
  · have hbyte : (bytesOfBits bits)[p / 8] =
        UInt8.ofNat (ofBits ((bits.drop (p / 8 * 8)).take 8)) := by
      simp only [bytesOfBits, List.getElem_map, getElem_chunks]
    rw [List.getD_eq_getElem _ _ hp, hbyte, UInt8.toNat_ofNat', ofBits_take, Nat.mod_mod,
      Nat.testBit_mod_two_pow, decide_eq_true (Nat.mod_lt p (by decide)), Bool.true_and,
      testBit_ofBits, List.getD_eq_getElem?_getD, List.getElem?_drop, Nat.div_add_mod',
      List.getD_eq_getElem?_getD]
  · rw [List.getD_eq_default _ _ hp, List.getD_eq_default _ _ (by omega)]
    exact Nat.zero_testBit _

theorem bitOfBytes_packBits {width : Nat} (hw : 0 < width) (values : List Nat) (p : Nat) :
    bitOfBytes (packBits width values) p = (values.getD (p / width) 0).testBit (p % width) := by
  rw [packBits, bitOfBytes_bytesOfBits, getD_flatMap_bitsOf hw]

/-! ## Widths of ranges -/

theorem lt_two_pow_bitLength (v : Nat) : v < 2 ^ bitLength v := by
  unfold bitLength
  split
  · omega
  · exact Nat.lt_log2_self

theorem bitLength_le {v width : Nat} (h : v < 2 ^ width) : bitLength v ≤ width := by
  unfold bitLength
  split
  · exact Nat.zero_le width
  · exact (Nat.log2_lt ‹_›).mpr h

theorem bitLength_pos {v : Nat} (h : v ≠ 0) : 0 < bitLength v := by
  unfold bitLength
  rw [if_neg h]
  exact Nat.succ_pos _

theorem Poly.unpackRange_packRange_of_inRange {a b : Int} (ha : 0 ≤ a) (hb : 0 ≤ b)
    (hpos : 1 ≤ a + b) (hlt : a + b < 2 ^ 24) {p : Poly} (hp : p.InRange (-a) b) :
    unpackRange a b (p.packRange a b) = p := by
  set width := bitLength (a + b).toNat with hw
  have h24 : width ≤ 24 := bitLength_le (by omega)
  have hwide : a + b ≤ 2 ^ width - 1 := by
    have hbits : (a + b).toNat < 2 ^ width := lt_two_pow_bitLength _
    zify at hbits
    omega
  exact unpackRange_packRange hw.symm (bitLength_pos (by omega)) (h24.trans (by decide)) hb
    (by omega) fun i => ⟨by linarith [(hp i).1], (hp i).2⟩

/-! ## Every width -/

/-- The packing of 32-bit numbers of `width` bits, bit by bit and back, and the loops that do it. -/
structure PacksDensely (width : Nat) : Prop where
  length : ∀ values : List UInt32,
    (packBits width (values.map UInt32.toNat)).length = (values.length * width + 7) / 8
  bit : ∀ (values : List UInt32) (p : Nat), p < values.length * width →
    bitOfBytes (packBits width (values.map UInt32.toNat)) p =
      (values.getD (p / width) 0).toNat.testBit (p % width)
  padding : ∀ (values : List UInt32) (p : Nat), values.length * width ≤ p →
    bitOfBytes (packBits width (values.map UInt32.toNat)) p = false
  unpack_pack : ∀ values : List UInt32, 8 ∣ values.length * width →
    unpackBits width (packBits width (values.map UInt32.toNat)) =
      values.map fun v => v.toNat % 2 ^ width
  pack_unpack : ∀ (n : Nat) (b : Bytes), 8 * b.length = n * width →
    (unpackBits width b).length = n ∧ packBits width (unpackBits width b) = b
  pack_loop : ∀ values : List UInt32,
    packWords width values = packBits width (values.map UInt32.toNat)
  unpack_loop : ∀ (n : Nat) (b : Bytes), 8 * b.length = n * width →
    unpackWords width n b = (unpackBits width b).map Int32.ofNat

theorem packsDensely {width : Nat} (h0 : 1 ≤ width) (h24 : width ≤ 24) : PacksDensely width where
  length values := by rw [length_packBits, List.length_map]
  bit values p _ := by
    rw [bitOfBytes_packBits h0, show (0 : Nat) = UInt32.toNat 0 from rfl, List.getD_map]
  padding values p hp := by
    have hlen : (values.map UInt32.toNat).length ≤ p / width := by
      rw [List.length_map]
      exact (Nat.le_div_iff_mul_le h0).mpr hp
    rw [bitOfBytes_packBits h0, List.getD_eq_default _ _ hlen, Nat.zero_testBit]
  unpack_pack values h8 := by
    rw [unpackBits_packBits h0 (by rwa [List.length_map]), List.map_map]
    rfl
  pack_unpack n b hb :=
    ⟨by rw [length_unpackBits, hb, Nat.mul_div_cancel n h0], packBits_unpackBits ⟨n, by
      rw [hb, Nat.mul_comm]⟩⟩
  pack_loop := packWords_eq (h24.trans (by decide))
  unpack_loop n b hb :=
    unpackWords_eq (by omega) (by rw [hb, Nat.mul_div_cancel n h0])

/-- Packing is dense at every width, and a polynomial comes back through the width of its range. -/
theorem packing_dense :
    (∀ width, 1 ≤ width → width ≤ 24 → PacksDensely width) ∧
    ∀ a b : Int, 0 ≤ a → 0 ≤ b → 1 ≤ a + b → a + b < 2 ^ 24 → ∀ p : Poly, p.InRange (-a) b →
      Poly.unpackRange a b (p.packRange a b) = p :=
  ⟨fun _ => packsDensely,
    fun _ _ ha hb hpos hlt _ => Poly.unpackRange_packRange_of_inRange ha hb hpos hlt⟩

theorem packing_dense_high_bits :
    unpackBits 5 (packBits 5 [33, 2, 3, 4, 5, 6, 7, 4294967295]) = [1, 2, 3, 4, 5, 6, 7, 31] ∧
    Poly.unpackRange 0 1 (Poly.zero.packRange 0 1) = Poly.zero :=
  have hfive : PacksDensely 5 := packing_dense.1 5 (by decide) (by decide)
  ⟨hfive.unpack_pack [33, 2, 3, 4, 5, 6, 7, 4294967295] (by decide),
    packing_dense.2 0 1 (by decide) (by decide) (by decide) (by decide) Poly.zero fun i => by
      rw [Poly.zero_apply]
      decide⟩

end MLDSA
