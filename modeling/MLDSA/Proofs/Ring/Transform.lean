import Mathlib.Data.Fintype.EquivFin
import Mathlib.Tactic.LinearCombination
import MLDSA.Proofs.Ring.Negacyclic
import MLDSA.Ring.Transform

/-! # The transform evaluates

Entry `k` of the transform is the value at `1753` to the power `2 * b + 1`, where `b` has the
reversed bits of `k`, and the inverse gives back the coefficients times `2^32`. The key fact is that
the power of `X` that a node splits off is, at each point below the node, the root of the node or
its negative. -/

namespace MLDSA

open Coeff

/-! ## The roots -/

/-- The eight bits of `k` in reversed order. -/
def reversedBits (k : Nat) : Nat :=
  (List.range 8).foldl (fun r i => 2 * r + (k.testBit i).toNat) 0

/-- The centred word of 1753 to the reversed bits of `k`, times `2^32`. There is no node 0, and its
word is 0. -/
def rootWord (k : Nat) : Coeff :=
  if k = 0 then 0
  else Coeff.center (Int32.ofNat (Nat.pow 1753 (reversedBits k) * 4294967296 % modulus))

/-- The residue that `root k` stands for. -/
def nodeRoot (k : Nat) : Zq := 1753 ^ reversedBits k

/-- The node above splits its values into those at `nodeRoot` and those at the negative. This is the
one that node `k` has, and below the last split it is the point itself. -/
def nodePower (k : Nat) : Zq :=
  if k = 1 then -1 else if k % 2 = 0 then nodeRoot (k / 2) else -nodeRoot (k / 2)

/-- The point at which entry `k` of the transform is the value. -/
def point (k : Nat) : Zq := 1753 ^ (2 * reversedBits k + 1)

theorem pow_1753 : (1753 : Zq) ^ 256 = -1 := by
  decide +kernel

theorem nodeRoot_sq {k : Nat} (h0 : 0 < k) (hk : k < 256) : nodeRoot k ^ 2 = nodePower k := by
  have h : ∀ k < 256, 0 < k → 2 * reversedBits k =
      if k = 1 then 256 else if k % 2 = 0 then reversedBits (k / 2)
        else reversedBits (k / 2) + 256 := by
    decide +kernel
  unfold nodePower nodeRoot
  rw [← pow_mul, mul_comm, h k hk h0]
  split
  · exact pow_1753
  · split
    · rfl
    · rw [pow_add, pow_1753, mul_neg_one]

theorem nodePower_leaf {k : Nat} (hk : k < 256) : nodePower (256 + k) = point k := by
  have h : ∀ k < 256, 2 * reversedBits k + 1 =
      if (256 + k) % 2 = 0 then reversedBits ((256 + k) / 2)
        else reversedBits ((256 + k) / 2) + 256 := by
    decide +kernel
  unfold nodePower point nodeRoot
  rw [if_neg (by omega), h k hk]
  split
  · rfl
  · rw [pow_add, pow_1753, mul_neg_one]

theorem nodeRoot_mirror {d m : Nat} (hd : d < 8) (hm : m < 2 ^ d) :
    nodeRoot (2 ^ d + m) * nodeRoot (2 ^ (d + 1) - 1 - m) = -1 := by
  have h : ∀ d < 8, ∀ m < 2 ^ d, reversedBits (2 ^ d + m) +
      reversedBits (2 ^ (d + 1) - 1 - m) = 256 := by
    decide +kernel
  rw [nodeRoot, nodeRoot, ← pow_add, h d hd m hm, pow_1753]

theorem roots_eq : roots.toList = (List.range 256).map rootWord := by
  decide +kernel

theorem root_eq {k : Nat} (hk : k < 256) : root k = rootWord k := by
  rw [root, Array.getD_eq_getD_getElem?, ← Array.getElem?_toList, Vector.toList_toArray, roots_eq,
    List.getElem?_map, List.getElem?_range hk]
  rfl

theorem toInt_root {k : Nat} (h0 : 0 < k) (hk : k < 256) :
    (root k).toInt = centered 8380417 ((1753 ^ reversedBits k * 4294967296 : Nat) : Int) := by
  have hlt : 1753 ^ reversedBits k * 4294967296 % modulus < 8380417 := Nat.mod_lt _ (by decide)
  have hint : (Int32.ofNat (1753 ^ reversedBits k * 4294967296 % modulus)).toInt =
      ((1753 ^ reversedBits k * 4294967296 : Nat) : Int) % 8380417 := by
    rw [Int32.toInt_ofNat_of_lt (by omega), Int.natCast_mod]
    rfl
  rw [root_eq hk, rootWord, if_neg (by omega)]
  show (center (Int32.ofNat (1753 ^ reversedBits k * 4294967296 % modulus))).toInt = _
  rw [toInt_center (by omega) (by omega), hint, centered_emod]

theorem size_root {k : Nat} (h0 : 0 < k) (hk : k < 256) : size (root k) ≤ 4190208 := by
  have := centered_bounds ((1753 ^ reversedBits k * 4294967296 : Nat) : Int)
  rw [size, toInt_root h0 hk]
  omega

theorem fits_neg_root {k : Nat} (h0 : 0 < k) (hk : k < 256) : Fits (-(root k).toInt) := by
  have hs := size_root h0 hk
  unfold size at hs
  constructor <;> omega

theorem size_neg_root {k : Nat} (h0 : 0 < k) (hk : k < 256) : size (-root k) ≤ 4190208 := by
  rw [size, toInt_neg_of_fits (fits_neg_root h0 hk), Int.natAbs_neg]
  exact size_root h0 hk

theorem residue_root {k : Nat} (h0 : 0 < k) (hk : k < 256) :
    residue (root k) = nodeRoot k * 2 ^ 32 := by
  rw [residue, toInt_root h0 hk, intCast_centered, Int.cast_natCast, Nat.cast_mul, Nat.cast_pow]
  rfl

theorem residue_mul_root {k : Nat} (h0 : 0 < k) (hk : k < 256) (a : Coeff) :
    residue (mul (root k) a) = nodeRoot k * residue a ∧ size (mul (root k) a) ≤ 8380416 :=
  mul_constant (size_root h0 hk) (residue_root h0 hk) a

theorem residue_mul_neg_root {k : Nat} (h0 : 0 < k) (hk : k < 256) (a : Coeff) :
    residue (mul (-root k) a) = -nodeRoot k * residue a ∧ size (mul (-root k) a) ≤ 8380416 := by
  refine mul_constant (size_neg_root h0 hk) ?_ a
  rw [residue_neg (fits_neg_root h0 hk), residue_root h0 hk, neg_mul]

/-! ## Splitting -/

/-- The value at `x` of the polynomial with these coefficients. -/
def valueAt {n : Nat} (x : Zq) (a : Vector Coeff n) : Zq :=
  ∑ j : Fin n, residue (a.get j) * x ^ j.val

theorem span_pos (height : Nat) : 0 < span height := by
  induction height with
  | zero => exact Nat.one_pos
  | succ height ih => exact Nat.add_pos_left ih _

theorem span_succ (height : Nat) : span (height + 1) = span height + span height := rfl

theorem place_low (height k i : Nat) :
    span (height + 1) * k + i = span height * (2 * k) + i := by
  rw [span_succ]; ring

theorem place_high (height k i : Nat) :
    span (height + 1) * k + (span height + i) = span height * (2 * k + 1) + i := by
  rw [span_succ]; ring

theorem node_lt {height k : Nat} (hk : span (height + 1) * (k + 1) ≤ 512) :
    k < 256 ∧ span height * (2 * k + 1) ≤ 512 ∧ span height * (2 * k + 1 + 1) ≤ 512 := by
  have hpos := span_pos height
  rw [span_succ] at hk
  refine ⟨?_, ?_, ?_⟩ <;> nlinarith

theorem nodePower_children {k : Nat} (h0 : 0 < k) :
    nodePower (2 * k) = nodeRoot k ∧ nodePower (2 * k + 1) = -nodeRoot k := by
  unfold nodePower
  constructor
  · rw [if_neg (by omega), if_pos (by omega), Nat.mul_div_cancel_left k (by decide)]
  · rw [if_neg (by omega), if_neg (by omega), show (2 * k + 1) / 2 = k by omega]

theorem nodePower_pow_span {height k i : Nat} (h0 : 0 < k) (hk : span height * (k + 1) ≤ 512)
    (hi : i < span height) : nodePower (span height * k + i) ^ span height = nodePower k := by
  induction height generalizing k i with
  | zero =>
    have : i = 0 := Nat.lt_one_iff.mp hi
    simp [span, this]
  | succ height ih =>
    obtain ⟨hlt, hk0, hk1⟩ := node_lt hk
    obtain ⟨heven, hodd⟩ := nodePower_children h0
    rw [← nodeRoot_sq h0 hlt, sq]
    by_cases hlow : i < span height
    · rw [place_low, span_succ, pow_add, ih (by omega) hk0 hlow, heven]
    · obtain ⟨m, rfl⟩ := Nat.exists_eq_add_of_le (Nat.le_of_not_lt hlow)
      rw [span_succ] at hi
      rw [place_high, span_succ, pow_add, ih (by omega) hk1 (by omega), hodd, neg_mul_neg]

section Halves

variable {n : Nat}

theorem getElem_lowerHalf (a : Vector Coeff (n + n)) (i : Nat) (h : i < n) :
    (lowerHalf a)[i] = a[i] := by
  simp [lowerHalf]

theorem getElem_upperHalf (a : Vector Coeff (n + n)) (i : Nat) (h : i < n) :
    (upperHalf a)[i] = a[n + i] := by
  simp [upperHalf, Nat.add_comm]

theorem valueAt_halves (x : Zq) (a : Vector Coeff (n + n)) :
    valueAt x a = ∑ j : Fin n,
      (residue ((lowerHalf a).get j) + x ^ n * residue ((upperHalf a).get j)) * x ^ j.val := by
  unfold valueAt
  rw [Fin.sum_univ_add, ← Finset.sum_add_distrib]
  refine Finset.sum_congr rfl fun j _ => ?_
  show residue a[j.val] * x ^ j.val + residue a[n + j.val] * x ^ (n + j.val) =
    (residue (lowerHalf a)[j.val] + x ^ n * residue (upperHalf a)[j.val]) * x ^ j.val
  rw [getElem_lowerHalf, getElem_upperHalf, pow_add]
  ring

/-- The remainder modulo `X^n - r`, where `r` is the root of node `k`. -/
def firstRemainder (k : Nat) (a : Vector Coeff (n + n)) : Vector Coeff n :=
  Vector.zipWith (· + ·) (lowerHalf a) ((upperHalf a).map (mul (root k)))

/-- The remainder modulo `X^n + r`. -/
def secondRemainder (k : Nat) (a : Vector Coeff (n + n)) : Vector Coeff n :=
  Vector.zipWith (· - ·) (lowerHalf a) ((upperHalf a).map (mul (root k)))

variable {k B : Nat} {a : Vector Coeff (n + n)}

theorem fits_halves (h0 : 0 < k) (hk : k < 256) (ha : ∀ i (h : i < n + n), size a[i] ≤ B)
    (hB : B + 8380416 ≤ 2147483647) (i : Fin n) :
    Fits ((lowerHalf a)[i].toInt + ((upperHalf a).map (mul (root k)))[i].toInt) ∧
      Fits ((lowerHalf a)[i].toInt - ((upperHalf a).map (mul (root k)))[i].toInt) := by
  have hlow := ha i (Nat.lt_add_right n i.isLt)
  obtain ⟨-, hsize⟩ := residue_mul_root h0 hk (upperHalf a)[i]
  simp only [Fin.getElem_fin, Vector.getElem_map, getElem_lowerHalf] at hsize ⊢
  unfold size at hlow hsize
  constructor <;> constructor <;> omega

theorem getElem_firstRemainder (h0 : 0 < k) (hk : k < 256)
    (ha : ∀ i (h : i < n + n), size a[i] ≤ B) (hB : B + 8380416 ≤ 2147483647) (i : Nat)
    (hi : i < n) :
    size (firstRemainder k a)[i] ≤ B + 8380416 ∧ residue (firstRemainder k a)[i] =
      residue (lowerHalf a)[i] + nodeRoot k * residue (upperHalf a)[i] := by
  have hlow := ha i (by omega)
  have hfits := (fits_halves h0 hk ha hB ⟨i, hi⟩).1
  obtain ⟨hres, hsize⟩ := residue_mul_root h0 hk (upperHalf a)[i]
  simp only [firstRemainder, Fin.getElem_fin, Vector.getElem_zipWith, Vector.getElem_map,
    getElem_lowerHalf] at hfits ⊢
  unfold size at hlow hsize ⊢
  rw [residue_add hfits, toInt_add_of_fits hfits, hres]
  exact ⟨by omega, rfl⟩

theorem getElem_secondRemainder (h0 : 0 < k) (hk : k < 256)
    (ha : ∀ i (h : i < n + n), size a[i] ≤ B) (hB : B + 8380416 ≤ 2147483647) (i : Nat)
    (hi : i < n) :
    size (secondRemainder k a)[i] ≤ B + 8380416 ∧ residue (secondRemainder k a)[i] =
      residue (lowerHalf a)[i] - nodeRoot k * residue (upperHalf a)[i] := by
  have hlow := ha i (by omega)
  have hfits := (fits_halves h0 hk ha hB ⟨i, hi⟩).2
  obtain ⟨hres, hsize⟩ := residue_mul_root h0 hk (upperHalf a)[i]
  simp only [secondRemainder, Fin.getElem_fin, Vector.getElem_zipWith, Vector.getElem_map,
    getElem_lowerHalf] at hfits ⊢
  unfold size at hlow hsize ⊢
  rw [residue_sub hfits, toInt_sub_of_fits hfits, hres]
  exact ⟨by omega, rfl⟩

/-- A remainder has the value of the whole where the modulus is zero. -/
theorem valueAt_firstRemainder (h0 : 0 < k) (hk : k < 256)
    (ha : ∀ i (h : i < n + n), size a[i] ≤ B) (hB : B + 8380416 ≤ 2147483647) {x : Zq}
    (hx : x ^ n = nodeRoot k) : valueAt x (firstRemainder k a) = valueAt x a := by
  rw [valueAt_halves, valueAt, hx]
  refine Finset.sum_congr rfl fun j _ => ?_
  exact congrArg (· * x ^ j.val) (getElem_firstRemainder h0 hk ha hB j.val j.isLt).2

theorem valueAt_secondRemainder (h0 : 0 < k) (hk : k < 256)
    (ha : ∀ i (h : i < n + n), size a[i] ≤ B) (hB : B + 8380416 ≤ 2147483647) {x : Zq}
    (hx : x ^ n = -nodeRoot k) : valueAt x (secondRemainder k a) = valueAt x a := by
  rw [valueAt_halves, valueAt, hx]
  refine Finset.sum_congr rfl fun j _ => ?_
  rw [neg_mul, ← sub_eq_add_neg]
  exact congrArg (· * x ^ j.val) (getElem_secondRemainder h0 hk ha hB j.val j.isLt).2

end Halves

section Succ

variable {height k i : Nat} {a : Vector Coeff (span height + span height)}

theorem getElem_splitAll_low (h : i < span height) (hi : i < span (height + 1)) :
    (splitAll (height + 1) k a)[i] = (splitAll height (2 * k) (firstRemainder k a))[i] :=
  Vector.getElem_append_left h

theorem getElem_splitAll_high (h : i < span height) (hi : span height + i < span (height + 1)) :
    (splitAll (height + 1) k a)[span height + i] =
      (splitAll height (2 * k + 1) (secondRemainder k a))[i] :=
  (Vector.getElem_append_right hi (Nat.le_add_right _ _)).trans
    (by simp only [Nat.add_sub_cancel_left]; rfl)

end Succ

theorem splitAll_spec (height : Nat) {k B : Nat} {a : Vector Coeff (span height)} (h0 : 0 < k)
    (hk : span height * (k + 1) ≤ 512) (ha : ∀ i (h : i < span height), size a[i] ≤ B)
    (hB : B + height * 8380416 ≤ 2147483647) (i : Nat) (hi : i < span height) :
    size (splitAll height k a)[i] ≤ B + height * 8380416 ∧
      residue (splitAll height k a)[i] = valueAt (nodePower (span height * k + i)) a := by
  induction height generalizing k B i with
  | zero =>
    obtain rfl : i = 0 := Nat.lt_one_iff.mp hi
    have hv : ∀ x, valueAt x a = residue a[0] * x ^ 0 := fun x => Fin.sum_univ_one _
    rw [hv, pow_zero, mul_one]
    exact ⟨le_trans (ha 0 Nat.one_pos) (Nat.le_add_right _ _), rfl⟩
  | succ height ih =>
    obtain ⟨hlt, hk0, hk1⟩ := node_lt hk
    obtain ⟨heven, hodd⟩ := nodePower_children h0
    have hB1 : B + 8380416 ≤ 2147483647 := by omega
    change Vector Coeff (span height + span height) at a
    have h1 := fun i hi => (getElem_firstRemainder h0 hlt ha hB1 i hi).1
    have h2 := fun i hi => (getElem_secondRemainder h0 hlt ha hB1 i hi).1
    -- Each half goes to one child, where the value below the child is that of the remainder.
    by_cases hlow : i < span height
    · obtain ⟨hsize, hres⟩ := ih (by omega) hk0 h1 (by omega) i hlow
      have hx := nodePower_pow_span (by omega) hk0 hlow
      rw [getElem_splitAll_low hlow hi, hres, place_low]
      exact ⟨by omega, valueAt_firstRemainder h0 hlt ha hB1 (hx.trans heven)⟩
    · obtain ⟨m, rfl⟩ := Nat.exists_eq_add_of_le (Nat.le_of_not_lt hlow)
      have hm : m < span height := by rw [span_succ] at hi; omega
      obtain ⟨hsize, hres⟩ := ih (by omega) hk1 h2 (by omega) m hm
      have hx := nodePower_pow_span (by omega) hk1 hm
      rw [getElem_splitAll_high hm hi, hres, place_high]
      exact ⟨by omega, valueAt_secondRemainder h0 hlt ha hB1 (hx.trans hodd)⟩

/-! ## Joining -/

theorem span_eq (height : Nat) : span height = 2 ^ height := by
  induction height with
  | zero => rfl
  | succ height ih => rw [span_succ, ih, pow_succ, Nat.mul_two]

theorem valueAt_append {n : Nat} (x : Zq) (u v : Vector Coeff n) :
    valueAt x (u ++ v) = valueAt x u + x ^ n * valueAt x v := by
  unfold valueAt
  rw [Fin.sum_univ_add, Finset.mul_sum]
  congr 1
  · refine Finset.sum_congr rfl fun j _ => ?_
    show residue (u ++ v)[j.val] * x ^ j.val = residue u[j.val] * x ^ j.val
    rw [Vector.getElem_append_left]
  · refine Finset.sum_congr rfl fun j _ => ?_
    have hj : (u ++ v)[n + j.val] = v[j.val] := by simp
    show residue (u ++ v)[n + j.val] * x ^ (n + j.val) = x ^ n * (residue v[j.val] * x ^ j.val)
    rw [hj, pow_add]
    ring

section Joined

variable {n k B : Nat} {f s : Vector Coeff n}

/-- The coefficients, twice, of a polynomial with these two remainders. -/
def joined (k : Nat) (f s : Vector Coeff n) : Vector Coeff (n + n) :=
  Vector.zipWith (· + ·) f s ++ (Vector.zipWith (· - ·) f s).map (mul (-root k))

variable (h0 : 0 < k) (hk : k < 256) (hf : ∀ i (h : i < n), size f[i] ≤ B)
  (hs : ∀ i (h : i < n), size s[i] ≤ B) (hB : 2 * B ≤ 2147483647)

include hf hs hB

theorem fits_entries (i : Nat) (h : i < n) :
    Fits (f[i].toInt + s[i].toInt) ∧ Fits (f[i].toInt - s[i].toInt) := by
  have h1 := hf i h
  have h2 := hs i h
  unfold size at h1 h2
  constructor <;> constructor <;> omega

include h0 hk

theorem size_joined (hq : 8380416 ≤ B) (i : Nat) (h : i < n + n) :
    size (joined k f s)[i] ≤ 2 * B := by
  by_cases hi : i < n
  · have h1 := hf i hi
    have h2 := hs i hi
    unfold size at h1 h2 ⊢
    rw [joined, Vector.getElem_append_left hi, Vector.getElem_zipWith,
      toInt_add_of_fits (fits_entries hf hs hB i hi).1]
    omega
  · rw [joined, Vector.getElem_append_right h (Nat.le_of_not_lt hi), Vector.getElem_map]
    exact le_trans (residue_mul_neg_root h0 hk _).2 (by omega)

theorem valueAt_joined (x : Zq) : valueAt x (joined k f s) = valueAt x f + valueAt x s +
    x ^ n * (-nodeRoot k * (valueAt x f - valueAt x s)) := by
  have hsum : valueAt x (Vector.zipWith (· + ·) f s) = valueAt x f + valueAt x s := by
    unfold valueAt
    rw [← Finset.sum_add_distrib]
    refine Finset.sum_congr rfl fun j _ => ?_
    show residue (Vector.zipWith (· + ·) f s)[j.val] * x ^ j.val =
      residue f[j.val] * x ^ j.val + residue s[j.val] * x ^ j.val
    rw [Vector.getElem_zipWith, residue_add (fits_entries hf hs hB j.val j.isLt).1, add_mul]
  have hdiff : valueAt x ((Vector.zipWith (· - ·) f s).map (mul (-root k))) =
      -nodeRoot k * (valueAt x f - valueAt x s) := by
    unfold valueAt
    rw [← Finset.sum_sub_distrib, Finset.mul_sum]
    refine Finset.sum_congr rfl fun j _ => ?_
    show residue ((Vector.zipWith (· - ·) f s).map (mul (-root k)))[j.val] * x ^ j.val =
      -nodeRoot k * (residue f[j.val] * x ^ j.val - residue s[j.val] * x ^ j.val)
    rw [Vector.getElem_map, Vector.getElem_zipWith, (residue_mul_neg_root h0 hk _).1,
      residue_sub (fits_entries hf hs hB j.val j.isLt).2]
    ring
  rw [joined, valueAt_append, hsum, hdiff]

variable {v : Nat} (hv : nodeRoot v * nodeRoot k = -1) {x : Zq}

include hv

theorem valueAt_joined_first (hx : x ^ n = nodeRoot v) :
    valueAt x (joined k f s) = 2 * valueAt x f := by
  rw [valueAt_joined h0 hk hf hs hB, hx]
  linear_combination (valueAt x s - valueAt x f) * hv

theorem valueAt_joined_second (hx : x ^ n = -nodeRoot v) :
    valueAt x (joined k f s) = 2 * valueAt x s := by
  rw [valueAt_joined h0 hk hf hs hB, hx]
  linear_combination (valueAt x f - valueAt x s) * hv

end Joined

theorem joinAll_succ (height k : Nat) (a : Vector Coeff (span height + span height)) :
    joinAll (height + 1) k a =
      joined k (joinAll height (2 * k + 1) (lowerHalf a)) (joinAll height (2 * k) (upperHalf a)) :=
  rfl

/-- The reflections of the children are the children of the reflection, in the other order. -/
theorem reflection_children {d m : Nat} (hm : m < 2 ^ d) :
    (2 * m < 2 ^ (d + 1) ∧ 2 ^ (d + 1) + 2 * m = 2 * (2 ^ d + m) ∧
      2 ^ (d + 1 + 1) - 1 - 2 * m = 2 * (2 ^ (d + 1) - 1 - m) + 1) ∧
    2 * m + 1 < 2 ^ (d + 1) ∧ 2 ^ (d + 1) + (2 * m + 1) = 2 * (2 ^ d + m) + 1 ∧
      2 ^ (d + 1 + 1) - 1 - (2 * m + 1) = 2 * (2 ^ (d + 1) - 1 - m) := by
  have hpow : 2 ^ (d + 1) = 2 * 2 ^ d := pow_succ' 2 d
  have hpow' : 2 ^ (d + 1 + 1) = 2 * (2 * 2 ^ d) := by rw [pow_succ', hpow]
  omega

theorem node_room {height d m : Nat} (hd : height + 1 + d ≤ 8) (hm : m < 2 ^ d) :
    span (height + 1) * (2 ^ d + m + 1) ≤ 512 := by
  have hpow : 2 ^ (d + 1) = 2 * 2 ^ d := pow_succ' 2 d
  rw [span_eq]
  calc 2 ^ (height + 1) * (2 ^ d + m + 1) ≤ 2 ^ (height + 1) * 2 ^ (d + 1) :=
        Nat.mul_le_mul_left _ (by omega)
    _ = 2 ^ (height + 1 + (d + 1)) := (pow_add 2 _ _).symm
    _ ≤ 2 ^ 9 := Nat.pow_le_pow_right (by decide) (by omega)

/-- Each join doubles the bound of the words, and a polynomial with the given values comes back
times `2^height`. The node of the roots is the reflection of the node of the values. -/
theorem joinAll_spec (height : Nat) {d m B : Nat} {a : Vector Coeff (span height)}
    (hd : height + d ≤ 8) (hm : m < 2 ^ d) (ha : ∀ i (h : i < span height), size a[i] ≤ B)
    (hB : 2 ^ height * B ≤ 2147483647) (hq : 8380416 ≤ B) :
    (∀ i (h : i < span height), size (joinAll height (2 ^ (d + 1) - 1 - m) a)[i] ≤
      2 ^ height * B) ∧
    ∀ i (h : i < span height), valueAt (nodePower (span height * (2 ^ d + m) + i))
      (joinAll height (2 ^ (d + 1) - 1 - m) a) = 2 ^ height * residue a[i] := by
  induction height generalizing d m with
  | zero =>
    constructor
    · intro i h
      rw [pow_zero, one_mul]
      exact ha i h
    · intro i h
      obtain rfl : i = 0 := Nat.lt_one_iff.mp h
      have hv : ∀ x, valueAt x a = residue a[0] * x ^ 0 := fun x => Fin.sum_univ_one _
      rw [pow_zero, one_mul, joinAll, hv, pow_zero, mul_one]
  | succ height ih =>
    change Vector Coeff (span height + span height) at a
    have h256 : 2 ^ d ≤ 128 := Nat.pow_le_pow_right (n := 2) (by decide) (show d ≤ 7 by omega)
    have hpow : 2 ^ (d + 1) = 2 * 2 ^ d := pow_succ' 2 d
    have hB' : 2 * (2 ^ height * B) ≤ 2147483647 := by rwa [pow_succ', mul_assoc] at hB
    have hq' : 8380416 ≤ 2 ^ height * B := le_trans hq (Nat.le_mul_of_pos_left B (by positivity))
    have hlow : ∀ i (h : i < span height), size (lowerHalf a)[i] ≤ B := by
      intro i h
      rw [getElem_lowerHalf]
      exact ha i (Nat.lt_of_lt_of_le h (Nat.le_add_right _ _))
    have hhigh : ∀ i (h : i < span height), size (upperHalf a)[i] ≤ B := by
      intro i h
      rw [getElem_upperHalf]
      exact ha _ (Nat.add_lt_add_left h _)
    obtain ⟨⟨hm0, hv0, hk0⟩, hm1, hv1, hk1⟩ := reflection_children hm
    obtain ⟨fsize, fval⟩ := ih (d := d + 1) (by omega) hm0 hlow (by omega)
    obtain ⟨ssize, sval⟩ := ih (d := d + 1) (by omega) hm1 hhigh (by omega)
    rw [hv0, hk0] at fval
    rw [hv1, hk1] at sval
    rw [hk0] at fsize
    rw [hk1] at ssize
    have hmirror := nodeRoot_mirror (show d < 8 by omega) hm
    obtain ⟨hk256, hroom0, hroom1⟩ := node_lt (node_room hd hm)
    obtain ⟨heven, hodd⟩ := nodePower_children (k := 2 ^ d + m) (by omega)
    rw [joinAll_succ]
    constructor
    · intro i h
      rw [pow_succ' 2 height, mul_assoc]
      exact size_joined (by omega) (by omega) fsize ssize hB' hq' i h
    · intro i h
      by_cases hi : i < span height
      · have hx := (nodePower_pow_span (by omega) hroom0 hi).trans heven
        rw [place_low]
        refine (valueAt_joined_first (by omega) (by omega) fsize ssize hB' hmirror hx).trans ?_
        rw [fval i hi, getElem_lowerHalf, pow_succ', mul_assoc]
        rfl
      · obtain ⟨j, rfl⟩ := Nat.exists_eq_add_of_le (Nat.le_of_not_lt hi)
        have hj : j < span height := by rw [span_succ] at h; omega
        have hx := (nodePower_pow_span (by omega) hroom1 hj).trans hodd
        rw [place_high]
        refine (valueAt_joined_second (by omega) (by omega) fsize ssize hB' hmirror hx).trans ?_
        rw [sval j hj, getElem_upperHalf, pow_succ', mul_assoc]
        rfl

end MLDSA
