import Mathlib.Data.List.GetD
import Mathlib.Logic.Function.Iterate
import MLDSA.Bytes.Bits
import MLDSA.Hash.Xof

/-! # Streams without blocks

A stream is read in blocks, but what is found in it does not depend on where they end. The key fact
is that a search which can go on after each unit of bytes finds in the blocks, one after the other,
what it would find in all of their bytes at once. -/

namespace MLDSA

namespace Xof

variable {rate : Nat} {x : Xof rate}

/-! ## Bytes by their places -/

/-- The byte at place `n` of the stream from `s` on. -/
def byteAt (x : Xof rate) (s : x.State) (n : Nat) : UInt8 :=
  (x.block (x.next^[n / rate] s)).bytes.getD (n % rate) 0

def firstBytes (x : Xof rate) (s : x.State) (n : Nat) : Bytes := (List.range n).map (x.byteAt s)

theorem byteAt_add (s : x.State) (n : Nat) (h : 0 < rate) :
    x.byteAt s (rate + n) = x.byteAt (x.next s) n := by
  rw [byteAt, Nat.add_div_left n h, Nat.add_mod_left, Function.iterate_succ_apply]
  rfl

theorem bytes_block (s : x.State) : (x.block s).bytes = x.firstBytes s rate := by
  have hlen := (x.block s).length_eq
  apply List.ext_getElem
  · rw [hlen, firstBytes, List.length_map, List.length_range]
  · intro n h1 h2
    have hn : n < rate := hlen ▸ h1
    have hbyte : x.byteAt s n = (x.block s).bytes[n] := by
      rw [byteAt, Nat.div_eq_of_lt hn, Nat.mod_eq_of_lt hn, Function.iterate_zero_apply,
        List.getD_eq_getElem _ _ h1]
    simp only [firstBytes, List.getElem_map, List.getElem_range, hbyte]

theorem firstBytes_add (s : x.State) (n : Nat) (h : 0 < rate) :
    x.firstBytes s (rate + n) = (x.block s).bytes ++ x.firstBytes (x.next s) n := by
  rw [bytes_block, firstBytes, List.range_add, List.map_append, List.map_map]
  exact congrArg _ (List.map_congr_left fun k _ => byteAt_add s k h)

theorem take_firstBytes (s : x.State) {m n : Nat} (h : m ≤ n) :
    (x.firstBytes s n).take m = x.firstBytes s m := by
  rw [firstBytes, ← List.map_take, List.take_range, Nat.min_eq_left h, firstBytes]

theorem flatMap_blocks (s : x.State) (more : Nat) (h : 0 < rate) :
    (x.blocks more s).flatMap Octets.bytes = x.firstBytes s (rate * (more + 1)) := by
  induction more generalizing s with
  | zero => rw [blocks, List.flatMap_singleton, Nat.zero_add, Nat.mul_one, bytes_block]
  | succ more ih =>
    rw [blocks, List.flatMap_cons, ih, Nat.mul_succ rate (more + 1), Nat.add_comm _ rate,
      firstBytes_add s _ h]

theorem read_eq (m : Bytes) (n : Nat) (h : 0 < rate) :
    x.read n m = x.firstBytes (x.absorb m) n := by
  have henough : n ≤ rate * ((n - 1) / rate + 1) := by
    have := Nat.lt_mul_div_succ (n - 1) h
    omega
  rw [read, flatMap_blocks _ _ h, take_firstBytes _ henough]

/-! ## Searches -/

/-- A search that can go on after each `unit` of bytes, with what it has found so far. -/
structure Resumable {α : Type} (unit : Nat) (found : Nat → Bytes → List α) : Prop where
  nil : ∀ k, found k [] = []
  append : ∀ k a b, unit ∣ a.length →
    found k (a ++ b) = found k a ++ found (k + (found k a).length) b

theorem search_eq_firstBytes {α : Type} {found : Nat → Bytes → List α} {unit need : Nat}
    (hfound : Resumable unit found) (hunit : unit ∣ rate) (hrate : 0 < rate) {budget skip : Nat}
    {got l : List α} {s : x.State} (hskip : skip ≤ rate) (hstart : unit ∣ skip)
    (hgot : got.length < need)
    (hl : l = got ++ found got.length ((x.firstBytes s (rate * budget)).drop skip)) :
    x.search found need budget got skip s =
      if need ≤ l.length then some (l.take need) else none := by
  induction budget generalizing got skip l s with
  | zero =>
    have hnone : l = got := by
      rw [hl, Nat.mul_zero, firstBytes, List.range_zero, List.map_nil, List.drop_nil, hfound.nil,
        List.append_nil]
    rw [hnone, if_neg (Nat.not_le.mpr hgot), search]
  | succ budget ih =>
    have hblock := (x.block s).length_eq
    have hcut : unit ∣ ((x.block s).bytes.drop skip).length := by
      rw [List.length_drop, hblock]
      exact Nat.dvd_sub hunit hstart
    rw [Nat.mul_succ, Nat.add_comm, firstBytes_add s _ hrate,
      List.drop_append_of_le_length (hblock.symm ▸ hskip), hfound.append _ _ _ hcut,
      ← List.append_assoc] at hl
    -- What the first block gives joins what is there, and the rest is a search of the next blocks.
    simp only [search]
    generalize hmore : got ++ found got.length ((x.block s).bytes.drop skip) = more at hl ⊢
    have hlen : got.length + (found got.length ((x.block s).bytes.drop skip)).length =
        more.length := by
      rw [← hmore, List.length_append]
    rw [hlen] at hl
    by_cases hneed : need ≤ more.length
    · have hle : more.length ≤ l.length := by
        rw [hl, List.length_append]
        exact Nat.le_add_right ..
      rw [if_pos hneed, if_pos (Nat.le_trans hneed hle), hl, List.take_append_of_le_length hneed]
    · rw [if_neg hneed]
      exact ih (Nat.zero_le rate) (Nat.dvd_zero unit) (Nat.not_le.mp hneed) hl

end Xof

/-! ## Bits by their places -/

/-- The bit at place `k` of a stream, the lowest bit of a byte first. -/
def Schoolbook.bitAt (stream : Nat → UInt8) (k : Nat) : Bool :=
  (stream (k / 8)).toNat.testBit (k % 8)

theorem bitsOfBytes_stream (stream : Nat → UInt8) (n : Nat) :
    bitsOfBytes ((List.range n).map stream) =
      (List.range (8 * n)).map (Schoolbook.bitAt stream) := by
  induction n with
  | zero => rfl
  | succ n ih =>
    have hbyte : bitsOf 8 (stream n).toNat =
        (List.range 8).map fun k => Schoolbook.bitAt stream (8 * n + k) := by
      refine List.map_congr_left fun k hk => ?_
      have hk8 : k < 8 := List.mem_range.mp hk
      rw [Schoolbook.bitAt, Nat.mul_add_div (by decide), Nat.mul_add_mod, Nat.div_eq_of_lt hk8,
        Nat.mod_eq_of_lt hk8, Nat.add_zero]
    rw [bitsOfBytes] at ih
    rw [List.range_succ, List.map_append, bitsOfBytes, List.flatMap_append, ih, List.map_singleton,
      List.flatMap_singleton, hbyte, Nat.mul_succ, List.range_add, List.map_append, List.map_map]
    rfl

end MLDSA
