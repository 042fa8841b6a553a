import Mathlib.Algebra.Group.Nat.Defs
import MLDSA.Bytes.Bits
import MLDSA.Proofs.Bytes.Octets

/-! # Packed numbers come back

Packing and unpacking undo each other, because each of them only regroups one list of bits. -/

namespace MLDSA

/-! ## Numbers and their bits -/

theorem bitsOf_succ (width v : Nat) :
    bitsOf (width + 1) v = v.testBit 0 :: bitsOf width (v / 2) := by
  simp [bitsOf, List.range_succ_eq_map, Function.comp_def, Nat.testBit_succ]

theorem ofBits_cons (b : Bool) (l : List Bool) : ofBits (b :: l) = 2 * ofBits l + b.toNat := rfl

theorem toNat_testBit_zero (v : Nat) : (v.testBit 0).toNat = v % 2 := by
  rw [Nat.testBit_zero]
  rcases Nat.mod_two_eq_zero_or_one v with h | h <;> simp [h]

theorem bitsOf_mod (width v : Nat) : bitsOf width (v % 2 ^ width) = bitsOf width v := by
  unfold bitsOf
  refine List.map_congr_left fun k hk => ?_
  rw [Nat.testBit_mod_two_pow, decide_eq_true (List.mem_range.mp hk), Bool.true_and]

theorem ofBits_bitsOf (width v : Nat) : ofBits (bitsOf width v) = v % 2 ^ width := by
  induction width generalizing v with
  | zero => simp [bitsOf, ofBits, Nat.mod_one]
  | succ width ih =>
    rw [bitsOf_succ, ofBits_cons, ih, toNat_testBit_zero, Nat.pow_succ', Nat.mod_mul]
    omega

theorem ofBits_lt (l : List Bool) : ofBits l < 2 ^ l.length := by
  induction l with
  | nil => decide
  | cons b l ih =>
    rw [ofBits_cons, List.length_cons, Nat.pow_succ]
    cases b <;> simp <;> omega

theorem ofBits_cons_div_two (b : Bool) (l : List Bool) : ofBits (b :: l) / 2 = ofBits l := by
  rw [ofBits_cons]
  cases b with
  | false => simp
  | true => simp; omega

theorem ofBits_cons_mod_two (b : Bool) (l : List Bool) : ofBits (b :: l) % 2 = b.toNat := by
  rw [ofBits_cons]
  cases b <;> simp

theorem testBit_ofBits (l : List Bool) (k : Nat) : (ofBits l).testBit k = l.getD k false := by
  induction l generalizing k with
  | nil => simp [ofBits]
  | cons b l ih =>
    cases k with
    | zero =>
      rw [Nat.testBit_zero, ofBits_cons_mod_two, List.getD_cons_zero]
      cases b <;> rfl
    | succ k => rw [Nat.testBit_succ, ofBits_cons_div_two, ih, List.getD_cons_succ]

theorem bitsOf_ofBits (l : List Bool) : bitsOf l.length (ofBits l) = l := by
  induction l with
  | nil => rfl
  | cons b l ih =>
    rw [List.length_cons, bitsOf_succ, testBit_ofBits, ofBits_cons_div_two, ih,
      List.getD_cons_zero]

theorem ofBits_append (l r : List Bool) : ofBits (l ++ r) = ofBits l + 2 ^ l.length * ofBits r := by
  induction l with
  | nil => simp [ofBits]
  | cons b l ih =>
    rw [List.cons_append, ofBits_cons, ih, ofBits_cons, List.length_cons, Nat.pow_succ']
    simp only [Nat.mul_add, Nat.mul_assoc]
    omega

theorem ofBits_drop (k : Nat) (l : List Bool) : ofBits (l.drop k) = ofBits l / 2 ^ k := by
  induction k generalizing l with
  | zero => rw [List.drop_zero, Nat.pow_zero, Nat.div_one]
  | succ k ih =>
    cases l with
    | nil => simp [ofBits]
    | cons b l =>
      rw [List.drop_succ_cons, ih, Nat.pow_succ', ← Nat.div_div_eq_div_mul, ofBits_cons_div_two]

theorem ofBits_take (k : Nat) (l : List Bool) : ofBits (l.take k) = ofBits l % 2 ^ k := by
  induction k generalizing l with
  | zero => rw [List.take_zero, Nat.pow_zero, Nat.mod_one]; rfl
  | succ k ih =>
    cases l with
    | nil => simp [ofBits]
    | cons b l =>
      rw [List.take_succ_cons, ofBits_cons, ih, Nat.pow_succ', Nat.mod_mul, ofBits_cons_div_two,
        ofBits_cons_mod_two, Nat.add_comm]

theorem bitsOf_add (m n v : Nat) : bitsOf (m + n) v = bitsOf m v ++ bitsOf n (v / 2 ^ m) := by
  induction m generalizing v with
  | zero => simp [bitsOf]
  | succ m ih =>
    rw [Nat.succ_add, bitsOf_succ, ih, bitsOf_succ, Nat.div_div_eq_div_mul, ← Nat.pow_succ',
      List.cons_append]

/-! ## Bytes and their bits -/

@[simp] theorem length_bitsOfBytes (b : Bytes) : (bitsOfBytes b).length = 8 * b.length := by
  induction b with
  | nil => rfl
  | cons x b ih =>
    rw [bitsOfBytes, List.flatMap_cons, List.length_append, length_bitsOf, List.length_cons]
    rw [bitsOfBytes] at ih
    omega

theorem bitsOfBytes_bytesOfBits {bits : List Bool} (h : 8 ∣ bits.length) :
    bitsOfBytes (bytesOfBits bits) = bits := by
  obtain ⟨n, hn⟩ := h
  have hbyte : ∀ c ∈ chunks 8 n bits, bitsOf 8 (UInt8.ofNat (ofBits c)).toNat = c := by
    intro c hc
    have hlen : c.length = 8 := length_of_mem_chunks (by omega) hc
    have hlt : ofBits c < 2 ^ 8 := hlen ▸ ofBits_lt c
    have hback := bitsOf_ofBits c
    rw [hlen] at hback
    rw [UInt8.toNat_ofNat_of_lt' hlt, hback]
  have hcount : (bits.length + 7) / 8 = n := by omega
  rw [bitsOfBytes, bytesOfBits, hcount, List.flatMap_map, List.flatMap_def,
    List.map_congr_left hbyte, List.map_id', flatten_chunks, List.take_of_length_le (by omega)]

theorem bytesOfBits_bitsOfBytes (b : Bytes) : bytesOfBits (bitsOfBytes b) = b := by
  have hcount : ((bitsOfBytes b).length + 7) / 8 = b.length := by
    rw [length_bitsOfBytes]
    omega
  have hchunks := chunks_flatMap (f := fun x : UInt8 => bitsOf 8 x.toNat) b []
    fun x _ => length_bitsOf 8 x.toNat
  rw [List.append_nil] at hchunks
  rw [bytesOfBits, hcount, bitsOfBytes, hchunks, List.map_map]
  refine (List.map_congr_left fun x _ => ?_).trans (List.map_id b)
  rw [Function.comp_apply, ofBits_bitsOf, Nat.mod_eq_of_lt x.toNat_lt, UInt8.ofNat_toNat, id]

/-! ## Packing -/

@[simp] theorem length_unpackBits (width : Nat) (b : Bytes) :
    (unpackBits width b).length = 8 * b.length / width := by
  simp [unpackBits]

theorem lt_of_mem_unpackBits {width v : Nat} {b : Bytes} (hv : v ∈ unpackBits width b) :
    v < 2 ^ width := by
  obtain ⟨c, hc, rfl⟩ := List.mem_map.mp hv
  exact Nat.lt_of_lt_of_le (ofBits_lt c)
    (Nat.pow_le_pow_right (by decide) (length_le_of_mem_chunks hc))

theorem unpackBits_packBits {width : Nat} (hw : 0 < width) {values : List Nat}
    (h : 8 ∣ values.length * width) :
    unpackBits width (packBits width values) = values.map (· % 2 ^ width) := by
  have hbits : bitsOfBytes (packBits width values) = values.flatMap (bitsOf width) :=
    bitsOfBytes_bytesOfBits (by rwa [length_flatMap_bitsOf])
  have hcount : 8 * (packBits width values).length / width = values.length := by
    rw [length_packBits]
    obtain ⟨n, hn⟩ := h
    rw [show 8 * ((values.length * width + 7) / 8) = values.length * width by omega,
      Nat.mul_div_cancel _ hw]
  have hchunks := chunks_flatMap (f := bitsOf width) values [] fun v _ => length_bitsOf width v
  rw [List.append_nil] at hchunks
  rw [unpackBits, hbits, hcount, hchunks, List.map_map]
  exact List.map_congr_left fun v _ => ofBits_bitsOf width v

theorem packBits_unpackBits {width : Nat} {b : Bytes} (h : width ∣ 8 * b.length) :
    packBits width (unpackBits width b) = b := by
  have hcount : 8 * b.length / width * width = 8 * b.length := Nat.div_mul_cancel h
  have hback : ∀ c ∈ chunks width (8 * b.length / width) (bitsOfBytes b),
      bitsOf width (ofBits c) = c := by
    intro c hc
    have hlen : c.length = width :=
      length_of_mem_chunks (Nat.le_of_eq (hcount.trans (length_bitsOfBytes b).symm)) hc
    have hc := bitsOf_ofBits c
    rwa [hlen] at hc
  rw [packBits, unpackBits, List.flatMap_map, List.flatMap_def, List.map_congr_left hback,
    List.map_id', flatten_chunks, hcount,
    List.take_of_length_le (Nat.le_of_eq (length_bitsOfBytes b)), bytesOfBits_bitsOfBytes]

/-! ## Four bits -/

theorem unpackBits_four (b : Bytes) :
    unpackBits 4 b = b.flatMap fun x => [x.toNat % 16, x.toNat / 16] := by
  induction b with
  | nil => rfl
  | cons x b ih =>
    have hx := x.toNat_lt
    have hbits : bitsOfBytes (x :: b) =
        bitsOf 4 x.toNat ++ (bitsOf 4 (x.toNat / 16) ++ bitsOfBytes b) := by
      rw [← List.append_assoc]
      exact congrArg (· ++ _) (bitsOf_add 4 4 x.toNat)
    have hcount : 8 * (x :: b).length / 4 = 8 * b.length / 4 + 1 + 1 := by
      rw [List.length_cons]
      omega
    rw [unpackBits, hbits, hcount, chunks, List.take_left' (length_bitsOf ..),
      List.drop_left' (length_bitsOf ..), chunks, List.take_left' (length_bitsOf ..),
      List.drop_left' (length_bitsOf ..), List.map_cons, List.map_cons, ofBits_bitsOf,
      ofBits_bitsOf]
    rw [unpackBits] at ih
    rw [ih, List.flatMap_cons, Nat.mod_eq_of_lt (by omega : x.toNat / 16 < 2 ^ 4)]
    rfl

theorem packBits_four_cons {u v : Nat} (hu : u < 16) (hv : v < 16) (values : List Nat) :
    packBits 4 (u :: v :: values) = UInt8.ofNat (u + 16 * v) :: packBits 4 values := by
  have hlen := length_flatMap_bitsOf 4 (u :: v :: values)
  have hlen' := length_flatMap_bitsOf 4 values
  rw [List.length_cons, List.length_cons] at hlen
  have hbits : (u :: v :: values).flatMap (bitsOf 4) =
      (bitsOf 4 u ++ bitsOf 4 v) ++ values.flatMap (bitsOf 4) := by
    simp
  have hbyte : (bitsOf 4 u ++ bitsOf 4 v).length = 8 := by simp
  have hvalue : u % 2 ^ 4 + 2 ^ 4 * (v % 2 ^ 4) = u + 16 * v := by omega
  rw [packBits, bytesOfBits, hlen,
    show ((values.length + 1 + 1) * 4 + 7) / 8 = (values.length * 4 + 7) / 8 + 1 by omega, chunks,
    hbits, List.take_left' hbyte, List.drop_left' hbyte, List.map_cons, ofBits_append,
    ofBits_bitsOf, ofBits_bitsOf, length_bitsOf, hvalue, packBits, bytesOfBits, hlen']

theorem packBits_four_pairs {ι : Type} {f g : ι → Nat} (l : List ι) (hf : ∀ k, f k < 16)
    (hg : ∀ k, g k < 16) : packBits 4 (l.flatMap fun k => [f k, g k]) =
      l.map fun k => UInt8.ofNat (f k + 16 * g k) := by
  induction l with
  | nil => simp [packBits, bytesOfBits, chunks]
  | cons k l ih =>
    rw [List.flatMap_cons, List.map_cons, List.cons_append, List.cons_append,
      packBits_four_cons (hf k) (hg k), List.nil_append, ih]

end MLDSA
