import Mathlib.Data.Nat.Nth
import MLDSA.Proofs.Sample
import MLDSA.Proofs.Stream

/-! # Rejection is a filter

A rejection sampler reads the stream candidate by candidate and takes the first 256 that are good.
The key fact is that the good ones among the first `n` candidates are the candidates at the places
`Nat.nth good 0`, `Nat.nth good 1` and so on, as many as `Nat.count good n` says. -/

namespace MLDSA

/-! ## Candidates by their places -/

namespace Schoolbook

/-- Three bytes as a number, the low byte first and the top bit cleared. -/
def group (stream : Nat → UInt8) (n : Nat) : Nat :=
  ((stream (3 * n)).toNat + 2 ^ 8 * (stream (3 * n + 1)).toNat +
    2 ^ 16 * (stream (3 * n + 2)).toNat) % 2 ^ 23

/-- Half a byte, the low half first. -/
def nibble (stream : Nat → UInt8) (n : Nat) : Nat := (stream (n / 2)).toNat / 16 ^ (n % 2) % 16

end Schoolbook

open Schoolbook

theorem filterMap_range {α : Type} {good : Nat → Prop} [DecidablePred good] (value : Nat → α)
    (n : Nat) : ((List.range n).filterMap fun k => if good k then some (value k) else none) =
      (List.range (Nat.count good n)).map fun k => value (Nat.nth good k) := by
  induction n with
  | zero => simp
  | succ n ih =>
    rw [List.range_succ, List.filterMap_append, ih, Nat.count_succ]
    by_cases hn : good n
    · simp [hn, List.range_succ, Nat.nth_count]
    · simp [hn]

theorem uniformCandidates_append {a : Bytes} (b : Bytes) (h : 3 ∣ a.length) :
    uniformCandidates (a ++ b) = uniformCandidates a ++ uniformCandidates b := by
  fun_induction uniformCandidates a with
  | case1 x y z rest v hv ih =>
    have hrest : 3 ∣ rest.length := (Nat.dvd_add_left (dvd_refl 3)).mp h
    simp only [List.cons_append, uniformCandidates]
    rw [if_pos hv, ih hrest]
  | case2 x y z rest v hv ih =>
    have hrest : 3 ∣ rest.length := (Nat.dvd_add_left (dvd_refl 3)).mp h
    simp only [List.cons_append, uniformCandidates]
    rw [if_neg hv, ih hrest]
  | case3 a ha =>
    have hnil : a = [] := by
      match a, ha, h with
      | [], _, _ => rfl
      | [_], _, h => exact absurd h (show ¬ 3 ∣ 1 by decide)
      | [_, _], _, h => exact absurd h (show ¬ 3 ∣ 2 by decide)
      | x :: y :: z :: rest, ha, _ => exact (ha x y z rest rfl).elim
    rw [hnil, List.nil_append, List.nil_append]

theorem resumable_uniformCandidates : Xof.Resumable 3 fun _ => uniformCandidates where
  nil _ := by rw [uniformCandidates]; simp
  append _ a b h := uniformCandidates_append b h

theorem resumable_secretCandidates : Xof.Resumable 1 fun _ => secretCandidates where
  nil _ := rfl
  append _ a b _ := by
    unfold secretCandidates
    rw [List.flatMap_append, List.filterMap_append]

theorem uniformCandidates_stream (stream : Nat → UInt8) (n : Nat) :
    uniformCandidates ((List.range (3 * n)).map stream) = (List.range n).filterMap fun k =>
      if group stream k < modulus then some (Int32.ofNat (group stream k)) else none := by
  induction n with
  | zero => simp [uniformCandidates]
  | succ n ih =>
    have hgroup : (stream (3 * n)).toNat + 256 * (stream (3 * n + 1)).toNat +
        65536 * ((stream (3 * n + 2)).toNat % 128) = group stream n := by
      unfold group
      have := (stream (3 * n)).toNat_lt
      have := (stream (3 * n + 1)).toNat_lt
      omega
    have hbytes : (List.range (3 * (n + 1))).map stream = (List.range (3 * n)).map stream ++
        [stream (3 * n), stream (3 * n + 1), stream (3 * n + 2)] := by
      rw [Nat.mul_succ, List.range_add, List.map_append]
      rfl
    rw [hbytes, uniformCandidates_append _ (by simp), ih, List.range_succ (n := n),
      List.filterMap_append]
    simp only [uniformCandidates, hgroup]
    by_cases hgood : group stream n < modulus
    · simp [hgood]
    · simp [hgood]

theorem nibbles_stream (stream : Nat → UInt8) (n : Nat) :
    (((List.range n).map stream).flatMap fun x => [x.toNat % 16, x.toNat / 16]) =
      (List.range (2 * n)).map (nibble stream) := by
  induction n with
  | zero => rfl
  | succ n ih =>
    have hlow : nibble stream (2 * n) = (stream n).toNat % 16 := by
      unfold nibble
      rw [Nat.mul_div_cancel_left n (by decide), Nat.mul_mod_right, Nat.pow_zero, Nat.div_one]
    have hhigh : nibble stream (2 * n + 1) = (stream n).toNat / 16 := by
      have := (stream n).toNat_lt
      unfold nibble
      rw [show (2 * n + 1) / 2 = n by omega, show (2 * n + 1) % 2 = 1 by omega]
      omega
    rw [List.range_succ, List.map_append, List.flatMap_append, ih, Nat.mul_succ, List.range_succ,
      List.range_succ]
    simp [hlow, hhigh]

theorem secretCandidates_stream (stream : Nat → UInt8) (n : Nat) :
    secretCandidates ((List.range n).map stream) = (List.range (2 * n)).filterMap fun k =>
      if nibble stream k ≤ 2 * eta then some (4 - Int32.ofNat (nibble stream k)) else none := by
  unfold secretCandidates
  rw [nibbles_stream, List.filterMap_map]
  rfl

/-! ## Searches -/

theorem Xof.search_eq_nth {rate unit total : Nat} {x : Xof rate} {s : x.State}
    {found : Bytes → List Coeff} {good : Nat → Prop} [DecidablePred good] {value : Nat → Coeff}
    (hfound : Resumable unit fun _ => found) (hunit : unit ∣ rate) (hrate : 0 < rate) (budget : Nat)
    (hgood : found (x.firstBytes s (rate * budget)) =
      (List.range total).filterMap fun k => if good k then some (value k) else none) :
    x.search (fun _ => found) 256 budget [] 0 s = if 256 ≤ Nat.count good total then
      some ((List.range 256).map fun k => value (Nat.nth good k)) else none := by
  rw [search_eq_firstBytes hfound hunit hrate (Nat.zero_le rate) (Nat.dvd_zero unit)
    (by decide) rfl, List.nil_append, List.drop_zero, hgood, filterMap_range, List.length_map,
    List.length_range]
  split
  · rw [← List.map_take, List.take_range, Nat.min_eq_left ‹_›]
  · rfl

end MLDSA
