import MLDSA.Proofs.Bytes.Bits
import MLDSA.Ring.Coeff

/-! # Packing through a word

Numbers are packed and unpacked through a word of 64 bits. They go in above the bits that wait in
it and leave at its low end. The key fact is that the word is the number of the bits that wait,
which are few enough that none is lost at the high end. -/

namespace MLDSA

/-! ## The loops -/

/-- A word, and how many bits wait in it. -/
structure Accumulator where
  word : UInt64
  count : Nat

namespace Accumulator

def empty : Accumulator := ⟨0, 0⟩

/-- Puts a number of `width` bits above the bits that wait. -/
def push (a : Accumulator) (width : Nat) (x : UInt64) : Accumulator :=
  ⟨a.word ||| x <<< UInt64.ofNat a.count, a.count + width⟩

def drop (a : Accumulator) (width : Nat) : Accumulator :=
  ⟨a.word >>> UInt64.ofNat width, a.count - width⟩

def mask (width : Nat) : UInt64 := (1 <<< UInt64.ofNat width) - 1

/-- Writes bytes while a whole one waits. -/
def drain (a : Accumulator) : Bytes × Accumulator :=
  if 8 ≤ a.count then (a.word.toUInt8 :: (a.drop 8).drain.1, (a.drop 8).drain.2) else ([], a)
termination_by a.count
decreasing_by all_goals simp only [drop]; omega

/-- Reads bytes while fewer than `width` bits wait, and zeros behind the last one. -/
def fill (width : Nat) (a : Accumulator) (b : Bytes) : Accumulator × Bytes :=
  if a.count < width then fill width (a.push 8 (b.headD 0).toUInt64) b.tail else (a, b)
termination_by width - a.count
decreasing_by simp only [push]; omega

def pack (width : Nat) : List UInt32 → Accumulator → Bytes
  | [], a => if 0 < a.count then [a.word.toUInt8] else []
  | v :: values, a =>
    let out := (a.push width (v.toUInt64 &&& mask width)).drain
    out.1 ++ pack width values out.2

def unpack (width : Nat) : (n : Nat) → Accumulator → Bytes → List Coeff
  | 0, _, _ => []
  | n + 1, a, b =>
    let read := fill width a b
    (read.1.word &&& mask width).toUInt32.toInt32 :: unpack width n (read.1.drop width) read.2

end Accumulator

/-- The low `width` bits of each word, written byte by byte. -/
def packWords (width : Nat) (values : List UInt32) : Bytes :=
  Accumulator.pack width values .empty

def unpackWords (width n : Nat) (b : Bytes) : List Coeff := Accumulator.unpack width n .empty b

/-! ## Bytes one by one -/

theorem bytesOfBits_of_le {l : List Bool} (h : 8 ≤ l.length) :
    bytesOfBits l = UInt8.ofNat (ofBits (l.take 8)) :: bytesOfBits (l.drop 8) := by
  have hcount : (l.length + 7) / 8 = ((l.drop 8).length + 7) / 8 + 1 := by
    rw [List.length_drop]
    omega
  rw [bytesOfBits, hcount, chunks, List.map_cons, bytesOfBits]

theorem bytesOfBits_of_lt {l : List Bool} (h : l.length < 8) :
    bytesOfBits l = if 0 < l.length then [UInt8.ofNat (ofBits (l.take 8))] else [] := by
  unfold bytesOfBits
  split
  · have hcount : (l.length + 7) / 8 = 1 := by omega
    rw [hcount, chunks, chunks, List.map_singleton]
  · have hcount : (l.length + 7) / 8 = 0 := by omega
    rw [hcount, chunks, List.map_nil]

namespace Accumulator

/-! ## The bits that wait -/

/-- These bits wait in the word, the first one lowest. -/
structure Holds (a : Accumulator) (bits : List Bool) : Prop where
  count : a.count = bits.length
  word : a.word.toNat = ofBits bits

variable {a : Accumulator} {bits : List Bool} {width : Nat}

theorem holds_empty : empty.Holds [] := ⟨rfl, rfl⟩

theorem toNat_ofNat {k : Nat} (h : k < 64) : (UInt64.ofNat k).toNat = k :=
  UInt64.toNat_ofNat_of_lt' (Nat.lt_trans h (by decide))

theorem Holds.drop (h : a.Holds bits) (hw : width < 64) :
    (a.drop width).Holds (bits.drop width) := by
  constructor
  · rw [Accumulator.drop, h.count, List.length_drop]
  · rw [Accumulator.drop, UInt64.toNat_shiftRight, toNat_ofNat hw, Nat.mod_eq_of_lt hw, h.word,
      Nat.shiftRight_eq_div_pow, ofBits_drop]

theorem Holds.push (h : a.Holds bits) (hroom : bits.length + width ≤ 64) (hlow : bits.length < 64)
    {x : UInt64} (hx : x.toNat < 2 ^ width) :
    (a.push width x).Holds (bits ++ bitsOf width x.toNat) := by
  have hbits := ofBits_lt bits
  have hfits : x.toNat <<< bits.length < 2 ^ 64 := by
    rw [Nat.shiftLeft_eq]
    calc x.toNat * 2 ^ bits.length < 2 ^ width * 2 ^ bits.length :=
          Nat.mul_lt_mul_of_pos_right hx (Nat.two_pow_pos _)
      _ = 2 ^ (bits.length + width) := by rw [← Nat.pow_add, Nat.add_comm]
      _ ≤ 2 ^ 64 := Nat.pow_le_pow_right (by decide) hroom
  constructor
  · rw [Accumulator.push, h.count, List.length_append, length_bitsOf]
  · rw [Accumulator.push, UInt64.toNat_or, UInt64.toNat_shiftLeft, h.count, toNat_ofNat hlow,
      Nat.mod_eq_of_lt hlow, Nat.mod_eq_of_lt hfits, h.word, ofBits_append, ofBits_bitsOf,
      Nat.mod_eq_of_lt hx, Nat.or_comm, Nat.shiftLeft_eq, Nat.mul_comm,
      ← Nat.two_pow_add_eq_or_of_lt hbits, Nat.add_comm]

theorem toNat_mask (hw : width < 64) : (mask width).toNat = 2 ^ width - 1 := by
  have hpow : 2 ^ width < 2 ^ 64 := Nat.pow_lt_pow_right (by decide) hw
  have hone : ((1 : UInt64) <<< UInt64.ofNat width).toNat = 2 ^ width := by
    rw [UInt64.toNat_shiftLeft, toNat_ofNat hw, Nat.mod_eq_of_lt hw, UInt64.toNat_one,
      Nat.one_shiftLeft, Nat.mod_eq_of_lt hpow]
  have hle : (1 : UInt64) ≤ 1 <<< UInt64.ofNat width := by
    rw [UInt64.le_iff_toNat_le, hone]
    exact Nat.two_pow_pos width
  rw [mask, UInt64.toNat_sub_of_le _ _ hle, hone, UInt64.toNat_one]

theorem toNat_and_mask (hw : width < 64) (x : UInt64) :
    (x &&& mask width).toNat = x.toNat % 2 ^ width := by
  rw [UInt64.toNat_and, toNat_mask hw, Nat.and_two_pow_sub_one_eq_mod]

theorem Holds.toUInt8 (h : a.Holds bits) :
    a.word.toUInt8 = UInt8.ofNat (ofBits (bits.take 8)) := by
  apply UInt8.toNat.inj
  rw [UInt64.toNat_toUInt8, h.word, UInt8.toNat_ofNat', ofBits_take, Nat.mod_mod]

theorem Holds.toInt32 (h : a.Holds bits) (hw : width < 32) :
    (a.word &&& mask width).toUInt32.toInt32 = Int32.ofNat (ofBits (bits.take width)) := by
  have hword : (a.word &&& mask width).toUInt32 = UInt32.ofNat (ofBits (bits.take width)) := by
    apply UInt32.toNat.inj
    rw [UInt64.toNat_toUInt32, toNat_and_mask (by omega), h.word, UInt32.toNat_ofNat', ofBits_take]
  exact congrArg UInt32.toInt32 hword

/-! ## Runs -/

theorem Holds.drain (h : a.Holds bits) (hroom : bits.length < 64) :
    ∃ left, a.drain.2.Holds left ∧ left.length < 8 ∧
      ∀ rest, bytesOfBits (bits ++ rest) = a.drain.1 ++ bytesOfBits (left ++ rest) := by
  induction a using drain.induct generalizing bits with
  | case1 a hcount ih =>
    have hlong : 8 ≤ bits.length := h.count ▸ hcount
    obtain ⟨left, hleft, hshort, hwrote⟩ :=
      ih (h.drop (by decide)) (by rw [List.length_drop]; omega)
    -- The byte that leaves is the first one of all the bits that are still to be written.
    rw [Accumulator.drain, if_pos hcount]
    refine ⟨left, hleft, hshort, fun rest => ?_⟩
    rw [bytesOfBits_of_le (by rw [List.length_append]; omega),
      List.take_append_of_le_length hlong, List.drop_append_of_le_length hlong, hwrote, h.toUInt8,
      List.cons_append]
  | case2 a hcount =>
    have hshort : bits.length < 8 := Nat.not_le.mp (h.count ▸ hcount)
    rw [Accumulator.drain, if_neg hcount]
    exact ⟨bits, h, hshort, fun rest => rfl⟩

theorem Holds.pack (hw : width ≤ 56) (h : a.Holds bits) (hshort : bits.length < 8)
    (values : List UInt32) : Accumulator.pack width values a =
      bytesOfBits (bits ++ (values.map UInt32.toNat).flatMap (bitsOf width)) := by
  induction values generalizing a bits with
  | nil =>
    rw [Accumulator.pack, List.map_nil, List.flatMap_nil, List.append_nil,
      bytesOfBits_of_lt hshort, h.count, h.toUInt8]
  | cons v values ih =>
    have hmask : (v.toUInt64 &&& mask width).toNat = v.toNat % 2 ^ width := by
      rw [toNat_and_mask (by omega), UInt32.toNat_toUInt64]
    have hin : (a.push width (v.toUInt64 &&& mask width)).Holds (bits ++ bitsOf width v.toNat) := by
      rw [← bitsOf_mod, ← hmask]
      exact h.push (by omega) (by omega) (hmask ▸ Nat.mod_lt _ (Nat.two_pow_pos width))
    obtain ⟨left, hleft, hshort', hwrote⟩ :=
      hin.drain (by rw [List.length_append, length_bitsOf]; omega)
    rw [Accumulator.pack, ih hleft hshort', List.map_cons, List.flatMap_cons, ← List.append_assoc,
      hwrote]

theorem Holds.fill (hw : width ≤ 56) (h : a.Holds bits) (hshort : bits.length < width + 8)
    {b : Bytes} (henough : width ≤ bits.length + 8 * b.length) :
    ∃ more, (fill width a b).1.Holds more ∧ width ≤ more.length ∧ more.length < width + 8 ∧
      more ++ bitsOfBytes (fill width a b).2 = bits ++ bitsOfBytes b := by
  induction a, b using fill.induct width generalizing bits with
  | case1 a b hcount ih =>
    have hfew : bits.length < width := h.count ▸ hcount
    cases b with
    | nil =>
      -- The loop never asks for a byte behind the last one.
      rw [List.length_nil] at henough
      omega
    | cons x b =>
      have hx : x.toUInt64.toNat = x.toNat := UInt8.toNat_toUInt64 x
      have hin : (a.push 8 x.toUInt64).Holds (bits ++ bitsOf 8 x.toNat) := by
        rw [← hx]
        exact h.push (by omega) (by omega) (hx ▸ x.toNat_lt)
      have hlen : (bits ++ bitsOf 8 x.toNat).length = bits.length + 8 := by simp
      rw [List.length_cons] at henough
      obtain ⟨more, hmore, hlong, hshort', hbits⟩ :=
        ih hin (by omega) (by rw [List.tail_cons]; omega)
      rw [Accumulator.fill, if_pos hcount]
      refine ⟨more, hmore, hlong, hshort', hbits.trans ?_⟩
      rw [List.append_assoc]
      rfl
  | case2 a b hcount =>
    rw [Accumulator.fill, if_neg hcount]
    exact ⟨bits, h, Nat.not_lt.mp (h.count ▸ hcount), hshort, rfl⟩

theorem Holds.unpack (hw : width < 32) (h : a.Holds bits) (hshort : bits.length < 8) {n : Nat}
    {b : Bytes} (henough : n * width ≤ bits.length + 8 * b.length) :
    Accumulator.unpack width n a b =
      (chunks width n (bits ++ bitsOfBytes b)).map fun c => Int32.ofNat (ofBits c) := by
  induction n generalizing a bits b with
  | zero => rfl
  | succ n ih =>
    rw [Nat.succ_mul] at henough
    have hsmall : width ≤ 56 := by omega
    obtain ⟨more, hmore, hlong, hshort', hbits⟩ := h.fill hsmall (by omega) (b := b) (by omega)
    have hlen := congrArg List.length hbits
    rw [List.length_append, List.length_append, length_bitsOfBytes, length_bitsOfBytes] at hlen
    rw [Accumulator.unpack, hmore.toInt32 hw,
      ih (hmore.drop (by omega)) (by rw [List.length_drop]; omega)
        (by rw [List.length_drop]; omega),
      ← List.drop_append_of_le_length hlong, hbits, chunks, List.map_cons, ← hbits,
      List.take_append_of_le_length hlong]

end Accumulator

theorem packWords_eq {width : Nat} (hw : width ≤ 56) (values : List UInt32) :
    packWords width values = packBits width (values.map UInt32.toNat) := by
  unfold packWords packBits
  rw [Accumulator.holds_empty.pack hw (by decide), List.nil_append]

theorem unpackWords_eq {width n : Nat} (hw : width < 32) {b : Bytes}
    (hb : 8 * b.length / width = n) :
    unpackWords width n b = (unpackBits width b).map Int32.ofNat := by
  have henough : n * width ≤ 8 * b.length := hb ▸ Nat.div_mul_le_self _ _
  unfold unpackWords unpackBits
  rw [Accumulator.holds_empty.unpack hw (by decide) (by simpa using henough), List.nil_append, hb,
    List.map_map]
  rfl

end MLDSA
