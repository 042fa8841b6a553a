import MLDSA.Proofs.Exact.Run
import MLDSA.Proofs.Ring.HintVec

/-! # Transforms and products over the integers

The work on polynomials, vectors and matrices as a run over the integers. A polynomial is here the
function of its coefficients or of its values. The key fact is that the sums of a transform and of a
product stay below `2^31` although none of them is reduced. -/

namespace MLDSA

open Coeff

namespace Exact

/-! ## Words -/

/-- The integers that words stand for. -/
def ints {n : Nat} (v : Vector Coeff n) : Fin n → Int := fun i => (v.get i).toInt

section

variable {n : Nat} {u v : Vector Coeff n}

theorem map_ints {f : Int → Exact Int} {g : Coeff → Coeff}
    (h : ∀ i, f (v.get i).toInt = .ok (g (v.get i)).toInt) :
    map f (ints v) = .ok (ints (v.map g)) :=
  all_ok fun i => (h i).trans
    (congrArg (fun c : Coeff => (.ok c.toInt : Exact Int)) (Vector.getElem_map g i.isLt).symm)

theorem zipWith_ints {f : Int → Int → Exact Int} {g : Coeff → Coeff → Coeff}
    (h : ∀ i, f (u.get i).toInt (v.get i).toInt = .ok (g (u.get i) (v.get i)).toInt) :
    zipWith f (ints u) (ints v) = .ok (ints (Vector.zipWith g u v)) :=
  all_ok fun i => (h i).trans
    (congrArg (fun c : Coeff => (.ok c.toInt : Exact Int)) (Vector.getElem_zipWith i.isLt).symm)

end

end Exact

def Poly.ints (p : Poly) : Fin 256 → Int := Exact.ints p.coeffs

def NttPoly.ints (p : NttPoly) : Fin 256 → Int := Exact.ints p.values

def PolyVec.ints {m : Nat} (v : PolyVec m) : Fin m → Fin 256 → Int := fun i => (v i).ints

def NttVec.ints {m : Nat} (v : NttVec m) : Fin m → Fin 256 → Int := fun i => (v i).ints

def Matrix.ints {k l : Nat} (a : Matrix k l) : Fin k → Fin l → Fin 256 → Int :=
  fun i j => (a i j).ints

namespace Exact

/-! ## The number-theoretic transform -/

def root (k : Nat) : Exact Int := do return (roots.get (← index 256 k)).toInt

def lower {n : Nat} (a : Fin (n + n) → Int) : Fin n → Int := fun i => a (Fin.castAdd n i)

def upper {n : Nat} (a : Fin (n + n) → Int) : Fin n → Int := fun i => a (Fin.natAdd n i)

def splitAll : (height k : Nat) → (Fin (span height) → Int) → Exact (Fin (span height) → Int)
  | 0, _, a => .ok a
  | height + 1, k, a => do
    let high ← map (mul (← root k)) (upper a)
    let first ← splitAll height (2 * k) (← zipWith add (lower a) high)
    let second ← splitAll height (2 * k + 1) (← zipWith sub (lower a) high)
    return Fin.append first second

def joinAll : (height k : Nat) → (Fin (span height) → Int) → Exact (Fin (span height) → Int)
  | 0, _, a => .ok a
  | height + 1, k, a => do
    let first ← joinAll height (2 * k + 1) (lower a)
    let second ← joinAll height (2 * k) (upper a)
    let sums ← zipWith add first second
    let high ← map (mul (← neg (← root k))) (← zipWith sub first second)
    return Fin.append sums high

def toNtt (p : Fin 256 → Int) : Exact (Fin 256 → Int) := do
  require (∀ i, (p i).natAbs < 8380417)
  splitAll 8 1 p

def toPoly (p : Fin 256 → Int) : Exact (Fin 256 → Int) := do
  require (∀ i, (p i).natAbs < 8380417)
  map (mul 41978) (← joinAll 8 1 p)

theorem root_toInt {k : Nat} (hk : k < 256) : root k = .ok (MLDSA.root k).toInt := by
  have hword : MLDSA.root k = roots.get ⟨k, hk⟩ := by
    rw [MLDSA.root, Array.getD_eq_getD_getElem?]
    simp [hk]
    rfl
  rw [root, index_of hk, hword]
  rfl

section

variable {n : Nat}

theorem lower_ints (a : Vector Coeff (n + n)) : lower (ints a) = ints (lowerHalf a) :=
  funext fun i => congrArg Int32.toInt (getElem_lowerHalf a i i.isLt).symm

theorem upper_ints (a : Vector Coeff (n + n)) : upper (ints a) = ints (upperHalf a) :=
  funext fun i => congrArg Int32.toInt (getElem_upperHalf a i i.isLt).symm

theorem append_ints (u v : Vector Coeff n) : Fin.append (ints u) (ints v) = ints (u ++ v) := by
  funext i
  refine Fin.addCases (fun i => ?_) (fun i => ?_) i
  · rw [Fin.append_left]
    exact congrArg Int32.toInt (Vector.getElem_append_left i.isLt).symm
  · have hright : (u ++ v)[n + i.val] = v[i.val] := by simp
    rw [Fin.append_right]
    exact congrArg Int32.toInt hright.symm

end

theorem splitAll_succ (height k : Nat) (a : Fin (span height + span height) → Int) :
    splitAll (height + 1) k a = do
      let high ← map (mul (← root k)) (upper a)
      let first ← splitAll height (2 * k) (← zipWith add (lower a) high)
      let second ← splitAll height (2 * k + 1) (← zipWith sub (lower a) high)
      return Fin.append first second :=
  rfl

theorem joinAll_succ (height k : Nat) (a : Fin (span height + span height) → Int) :
    joinAll (height + 1) k a = do
      let first ← joinAll height (2 * k + 1) (lower a)
      let second ← joinAll height (2 * k) (upper a)
      let sums ← zipWith add first second
      let high ← map (mul (← neg (← root k))) (← zipWith sub first second)
      return Fin.append sums high :=
  rfl

theorem splitAll_ints (height : Nat) {k B : Nat} {a : Vector Coeff (span height)} (h0 : 0 < k)
    (hk : span height * (k + 1) ≤ 512) (ha : ∀ i (h : i < span height), size a[i] ≤ B)
    (hB : B + height * 8380416 ≤ 2147483647) :
    splitAll height k (ints a) = .ok (ints (MLDSA.splitAll height k a)) := by
  induction height generalizing k B with
  | zero => rfl
  | succ height ih =>
    obtain ⟨hlt, hk0, hk1⟩ := node_lt hk
    have hB1 : B + 8380416 ≤ 2147483647 := by omega
    change Vector Coeff (span height + span height) at a
    have hhigh : map (mul (MLDSA.root k).toInt) (ints (upperHalf a)) =
        .ok (ints ((upperHalf a).map (Coeff.mul (MLDSA.root k)))) :=
      map_ints fun i => mul_constant_toInt (size_root h0 hlt) _
    have hfits := fun i => fits_halves h0 hlt ha hB1 i
    have hsum : zipWith add (ints (lowerHalf a))
        (ints ((upperHalf a).map (Coeff.mul (MLDSA.root k)))) = .ok (ints (firstRemainder k a)) :=
      zipWith_ints fun i => add_toInt (hfits i).1
    have hdiff : zipWith sub (ints (lowerHalf a))
        (ints ((upperHalf a).map (Coeff.mul (MLDSA.root k)))) = .ok (ints (secondRemainder k a)) :=
      zipWith_ints fun i => sub_toInt (hfits i).2
    have hfirst := ih (by omega) hk0
      (fun i hi => (getElem_firstRemainder h0 hlt ha hB1 i hi).1) (by omega)
    have hsecond := ih (k := 2 * k + 1) (by omega) hk1
      (fun i hi => (getElem_secondRemainder h0 hlt ha hB1 i hi).1) (by omega)
    refine (splitAll_succ height k (ints a)).trans ?_
    rw [root_toInt hlt, ok_bind, upper_ints, hhigh, ok_bind, lower_ints, hsum, ok_bind, hfirst,
      ok_bind, hdiff, ok_bind, hsecond, ok_bind, append_ints]
    rfl

/-- Each join doubles the bound, and `256 * (q - 1)` is still below `2^31`. -/
theorem joinAll_ints (height : Nat) {k B : Nat} {a : Vector Coeff (span height)} (h0 : 0 < k)
    (hk : span height * (k + 1) ≤ 512) (ha : ∀ i (h : i < span height), size a[i] ≤ B)
    (hB : 2 ^ height * B ≤ 2147483647) (hq : 8380416 ≤ B) :
    joinAll height k (ints a) = .ok (ints (MLDSA.joinAll height k a)) ∧
      ∀ i (h : i < span height), size (MLDSA.joinAll height k a)[i] ≤ 2 ^ height * B := by
  induction height generalizing k with
  | zero => exact ⟨rfl, fun i h => (ha i h).trans_eq (Nat.one_mul B).symm⟩
  | succ height ih =>
    obtain ⟨hlt, hk0, hk1⟩ := node_lt hk
    change Vector Coeff (span height + span height) at a
    have hB' : 2 * (2 ^ height * B) ≤ 2147483647 := by rwa [pow_succ', mul_assoc] at hB
    have hq' : 8380416 ≤ 2 ^ height * B := le_trans hq (Nat.le_mul_of_pos_left B (by positivity))
    have hlow : ∀ i (h : i < span height), size (lowerHalf a)[i] ≤ B := by
      intro i h
      rw [getElem_lowerHalf]
      exact ha i (Nat.lt_of_lt_of_le h (Nat.le_add_right _ _))
    have hhigh : ∀ i (h : i < span height), size (upperHalf a)[i] ≤ B := by
      intro i h
      rw [getElem_upperHalf]
      exact ha _ (Nat.add_lt_add_left h _)
    obtain ⟨hfirst, fsize⟩ := ih (k := 2 * k + 1) (by omega) hk1 hlow (by omega)
    obtain ⟨hsecond, ssize⟩ := ih (k := 2 * k) (by omega) hk0 hhigh (by omega)
    have hfits := fits_entries fsize ssize hB'
    set f := MLDSA.joinAll height (2 * k + 1) (lowerHalf a) with hf
    set s := MLDSA.joinAll height (2 * k) (upperHalf a) with hs
    have hsum : zipWith add (ints f) (ints s) = .ok (ints (Vector.zipWith (· + ·) f s)) :=
      zipWith_ints fun i => add_toInt (hfits i i.isLt).1
    have hdiff : zipWith sub (ints f) (ints s) = .ok (ints (Vector.zipWith (· - ·) f s)) :=
      zipWith_ints fun i => sub_toInt (hfits i i.isLt).2
    have hscale : map (mul (-MLDSA.root k).toInt) (ints (Vector.zipWith (· - ·) f s)) =
        .ok (ints ((Vector.zipWith (· - ·) f s).map (Coeff.mul (-MLDSA.root k)))) :=
      map_ints fun i => mul_constant_toInt (size_neg_root h0 hlt) _
    constructor
    · refine (joinAll_succ height k (ints a)).trans ?_
      rw [lower_ints, hfirst, ok_bind, upper_ints, hsecond, ok_bind, hsum, ok_bind, hdiff,
        root_toInt hlt, ok_bind, neg_toInt (fits_neg_root h0 hlt), ok_bind, ok_bind, hscale,
        ok_bind, append_ints]
      rfl
    · intro i h
      rw [pow_succ' 2 height, mul_assoc]
      exact size_joined h0 hlt fsize ssize hB' hq' i h

theorem toNtt_ints {p : Poly} (hp : p.Within 8380416) : toNtt p.ints = .ok p.toNtt.ints := by
  have hdomain : ∀ i, (p.ints i).natAbs < 8380417 := fun i => Nat.lt_succ_of_le (hp i)
  rw [toNtt, require_of hdomain, ok_bind]
  exact splitAll_ints 8 (B := 8380416) (by decide) (by decide) (fun i hi => hp ⟨i, hi⟩) (by decide)

theorem toPoly_eq {p s : Fin 256 → Int} (hp : ∀ i, (p i).natAbs < 8380417)
    (hs : joinAll 8 1 p = .ok s) : toPoly p = map (mul 41978) s := by
  rw [toPoly, require_of hp, ok_bind, hs]
  rfl

theorem toPoly_ints {p : NttPoly} (hp : p.Within 8380416) : toPoly p.ints = .ok p.toPoly.ints := by
  have hjoin := (joinAll_ints 8 (k := 1) (a := p.values) (B := 8380416) (by decide) (by decide)
    (fun i hi => hp ⟨i, hi⟩) (by decide) (by decide)).1
  have hdomain : ∀ i, (p.ints i).natAbs < 8380417 := fun i => Nat.lt_succ_of_le (hp i)
  have hscale : map (mul inverseScale.toInt) (ints (MLDSA.joinAll 8 1 p.values)) =
      .ok (ints ((MLDSA.joinAll 8 1 p.values).map (Coeff.mul inverseScale))) :=
    map_ints fun i => mul_constant_toInt (w := inverseScale) (by decide) _
  exact (toPoly_eq hdomain hjoin).trans hscale

/-! ## Sums -/

section

variable {m B C : Nat} {a b : Coeff}

theorem fits_of_size (ha : size a ≤ B) (hb : size b ≤ C) (h : B + C ≤ 2147483647) :
    Fits (a.toInt + b.toInt) ∧ Fits (a.toInt - b.toInt) := by
  unfold size at ha hb
  constructor <;> constructor <;> omega

theorem add_polys {u v : PolyVec m} (hu : u.Within B) (hv : v.Within C) (h : B + C ≤ 2147483647) :
    zipWith (zipWith add) u.ints v.ints = .ok (u + v).ints :=
  all_ok fun i => (zipWith_ints fun j => add_toInt (fits_of_size (hu i j) (hv i j) h).1).trans
    (congrArg (fun p => Except.ok (Poly.ints p)) (PolyVec.add_apply i u v).symm)

theorem sub_polys {u v : PolyVec m} (hu : u.Within B) (hv : v.Within C) (h : B + C ≤ 2147483647) :
    zipWith (zipWith sub) u.ints v.ints = .ok (u - v).ints :=
  all_ok fun i => (zipWith_ints fun j => sub_toInt (fits_of_size (hu i j) (hv i j) h).2).trans
    (congrArg (fun p => Except.ok (Poly.ints p)) (PolyVec.sub_apply i u v).symm)

theorem neg_polys {v : PolyVec m} (hv : v.Within B) (h : B ≤ 2147483647) :
    map (map neg) v.ints = .ok (-v).ints := by
  have hfits : ∀ (i : Fin m) (j : Fin 256), Fits (-(v i j).toInt) := by
    intro i j
    have hsize := hv i j
    unfold size at hsize
    constructor <;> omega
  exact all_ok fun i => (map_ints fun j => neg_toInt (hfits i j)).trans
    (congrArg (fun p => Except.ok (Poly.ints p)) (PolyVec.neg_apply i v).symm)

theorem sub_values {u v : NttVec m} (hu : u.Within B) (hv : v.Within C)
    (h : B + C ≤ 2147483647) :
    zipWith (zipWith sub) u.ints v.ints = .ok (u - v).ints :=
  all_ok fun i => (zipWith_ints fun j => sub_toInt (fits_of_size (hu i j) (hv i j) h).2).trans
    (congrArg (fun p => Except.ok (NttPoly.ints p)) (NttVec.sub_apply i u v).symm)

end

/-! ## Coefficient by coefficient -/

section

variable {m B : Nat} {v : PolyVec m}

theorem mapCoeffs_ints {f : Int → Exact Int} {g : Coeff → Coeff}
    (h : ∀ (i : Fin m) (j : Fin 256), f (v i j).toInt = .ok (g (v i j)).toInt) :
    map (map f) v.ints = .ok (v.mapCoeffs g).ints :=
  all_ok fun i => (map_ints (h i)).trans
    (congrArg (fun p => Except.ok (Poly.ints p)) (PolyVec.map_apply i (Poly.map g) v).symm)

theorem reduce_polys (hv : v.Within B) (hB : B ≤ 2143289343) :
    map (map reduce) v.ints = .ok v.reduce.ints :=
  mapCoeffs_ints fun i j => reduce_toInt ((hv i).toInt_le hB j)

theorem canonical_polys (hv : v.Within B) (hB : B ≤ 2143289343) :
    map (map canonical) v.ints = .ok v.canonical.ints :=
  mapCoeffs_ints fun i j => canonical_toInt ((hv i).toInt_le hB j)

theorem addModulus_polys (hv : v.Within 8380416) :
    map (map addModulus) v.ints = .ok v.addModulus.ints :=
  mapCoeffs_ints fun i j => addModulus_toInt <| by
    have hsize := hv i j
    unfold size at hsize
    omega

theorem highBits_polys (hv : v.IsCanonical) : map (map highBits) v.ints = .ok v.highBits.ints :=
  mapCoeffs_ints fun i j => highBits_toInt ((hv i).bounds j).1 ((hv i).bounds j).2

theorem lowBits_polys (hv : v.IsCanonical) : map (map lowBits) v.ints = .ok v.lowBits.ints :=
  mapCoeffs_ints fun i j => lowBits_toInt ((hv i).bounds j).1 ((hv i).bounds j).2

theorem reduce_values {v : NttVec m} (hv : v.Within B) (hB : B ≤ 2143289343) :
    map (map reduce) v.ints = .ok v.reduce.ints :=
  all_ok fun i => (map_ints fun j => reduce_toInt
      (Poly.Within.toInt_le (p := ⟨(v i).values⟩) (hv i) hB j)).trans
    (congrArg (fun p => Except.ok (NttPoly.ints p)) (NttVec.map_apply i NttPoly.reduce v).symm)

/-- The test of a bound looks at each coefficient. -/
def allBelow (bound : Int) (v : Fin m → Fin 256 → Int) : Exact Bool := do
  let tests ← map (map (isBelow bound)) v
  return decide (∀ i j, tests i j = true)

theorem allBelow_polys {bound : Nat} (h0 : 0 < bound) (hlt : bound < 2147483648) (hv : v.Within B)
    (hB : B ≤ 2143289343) : allBelow bound v.ints = .ok (v.isBelow (Int32.ofNat bound)) := by
  have hword : (Int32.ofNat bound).toInt = bound := Int32.toInt_ofNat_of_lt hlt
  have hpositive : 0 < (Int32.ofNat bound).toInt := by omega
  have htests : map (map (isBelow bound)) v.ints =
      .ok fun i j => Coeff.isBelow (Int32.ofNat bound) (v i j) := by
    rw [← hword]
    exact all_ok fun i => all_ok fun j => isBelow_toInt hpositive ((hv i).toInt_le hB j)
  rw [allBelow, htests, ok_bind, pure_eq_ok]
  exact congrArg Except.ok (Bool.eq_iff_iff.mpr
    (decide_eq_true_iff.trans (PolyVec.isBelow_eq_true (Int32.ofNat bound)).symm))

end

/-! ## Products -/

/-- The coefficients in `[0, q)` of a sum of products that is not reduced yet. -/
def residues {m : Nat} (v : Fin m → Fin 256 → Int) : Exact (Fin m → Fin 256 → Int) := do
  let polys ← map toPoly (← map (map reduce) v)
  map (map addModulus) polys

def scale {m : Nat} (c : Fin 256 → Int) (v : Fin m → Fin 256 → Int) :
    Exact (Fin m → Fin 256 → Int) :=
  map (zipWith mul c) v

def timesChallenge {m : Nat} (c : Fin 256 → Int) (v : Fin m → Fin 256 → Int) :
    Exact (Fin m → Fin 256 → Int) := do
  map toPoly (← map (map reduce) (← scale c v))

/-- The products of a row are added up one by one, without reduction. -/
def mulVec {k l : Nat} (a : Fin k → Fin l → Fin 256 → Int) (v : Fin l → Fin 256 → Int) :
    Exact (Fin k → Fin 256 → Int) :=
  all fun i => (List.finRange l).foldlM
    (fun sum j => do zipWith add sum (← zipWith mul (a i j) (v j))) fun _ => 0

def product {k l : Nat} (a : Fin k → Fin l → Fin 256 → Int) (v : Fin l → Fin 256 → Int) :
    Exact (Fin k → Fin 256 → Int) := do
  residues (← mulVec a (← map toNtt v))

section

variable {k l m B C : Nat}

theorem toNtt_polys {v : PolyVec m} (hv : v.Within 8380416) :
    map toNtt v.ints = .ok v.toNtt.ints :=
  all_ok fun i => (toNtt_ints (hv i)).trans
    (congrArg (fun p => Except.ok (NttPoly.ints p)) (PolyVec.toNtt_apply i v).symm)

theorem toPoly_values {v : NttVec m} (hv : v.Within 8380416) :
    map toPoly v.ints = .ok v.toPoly.ints :=
  all_ok fun i => (toPoly_ints (hv i)).trans
    (congrArg (fun p => Except.ok (Poly.ints p)) (NttVec.toPoly_apply i v).symm)

theorem mul_values {a b : NttPoly} (ha : a.Within B) (hb : b.Within C)
    (h : B * C < 8380417 * 2 ^ 31) : zipWith mul a.ints b.ints = .ok (a * b).ints :=
  zipWith_ints fun j => mul_toInt ((Nat.mul_le_mul (ha j) (hb j)).trans_lt h)

theorem add_values {a b : NttPoly} (ha : a.Within B) (hb : b.Within C)
    (h : B + C ≤ 2147483647) : zipWith add a.ints b.ints = .ok (a + b).ints :=
  zipWith_ints fun j => add_toInt (fits_of_size (ha j) (hb j) h).1

theorem scale_values {c : NttPoly} {v : NttVec m} (hc : c.Within B) (hv : v.Within C)
    (h : B * C < 8380417 * 2 ^ 31) : scale c.ints v.ints = .ok (v.scale c).ints :=
  all_ok fun i => (mul_values hc (hv i) h).trans
    (congrArg (fun p => Except.ok (NttPoly.ints p)) (NttVec.map_apply i (c * ·) v).symm)

theorem residues_values {v : NttVec m} (hv : v.Within B) (hB : B ≤ 2143289343) :
    residues v.ints = .ok v.residues.ints := by
  have hreduced := (NttVec.reduce_within hv hB).mono (show 6283009 ≤ 8380416 by decide)
  rw [residues, reduce_values hv hB, ok_bind, toPoly_values hreduced, ok_bind,
    addModulus_polys (NttVec.toPoly_within hreduced)]
  rfl

theorem timesChallenge_polys {c : Poly} {v : PolyVec m} (hc : c.Within 8380416)
    (hv : v.Within 8380416) : timesChallenge c.toNtt.ints v.toNtt.ints =
      .ok (v.toNtt.timesChallenge c.toNtt).ints := by
  have hcn := (Poly.toNtt_spec hc (by decide)).1
  have hvn := PolyVec.toNtt_within hv (by decide)
  have hscaled := NttVec.scale_within hcn hvn (by decide)
  have hreduced := (NttVec.reduce_within hscaled (by decide)).mono
    (show 6283009 ≤ 8380416 by decide)
  rw [timesChallenge, scale_values hcn hvn (by decide), ok_bind, reduce_values hscaled (by decide),
    ok_bind, toPoly_values hreduced]
  rfl

theorem foldlM_values (js : List (Fin l)) {a v : Fin l → NttPoly} {D Q : Nat}
    (hprod : ∀ j, zipWith mul (a j).ints (v j).ints = .ok (a j * v j).ints)
    (hQ : ∀ j, (a j * v j).Within Q) {p : NttPoly} (hp : p.Within D)
    (h : D + js.length * Q ≤ 2147483647) :
    js.foldlM (fun sum j => do zipWith add sum (← zipWith mul (a j).ints (v j).ints)) p.ints =
      .ok ((js.map fun j => a j * v j).foldl (· + ·) p).ints := by
  induction js generalizing D p with
  | nil => rfl
  | cons j js ih =>
    rw [List.length_cons, Nat.succ_mul] at h
    rw [List.foldlM_cons, hprod, ok_bind, add_values hp (hQ j) (by omega), ok_bind,
      ih (NttPoly.add_spec hp (hQ j) (by omega)).2 (by omega), List.map_cons, List.foldl_cons]

theorem mulVec_values {a : Matrix k l} {v : NttVec l} (ha : a.Within B) (hv : v.Within C)
    (hBC : B * C < 8380417 * 2 ^ 31)
    (hl : l * 8380416 ≤ 2147483647) : mulVec a.ints v.ints = .ok (a.mulVec v).ints :=
  all_ok fun i => by
    have hzero : (fun _ => 0) = NttPoly.zero.ints := funext fun j =>
      (congrArg Int32.toInt (NttPoly.zero_apply j)).symm
    have hrow := foldlM_values (List.finRange l) (fun j => mul_values (ha i j) (hv j) hBC)
      (fun j => (NttPoly.mul_spec (ha i j) (hv j) hBC).2) NttPoly.zero_spec.1 (by simpa using hl)
    rw [← List.ofFn_eq_map, ← Matrix.mulVec_apply] at hrow
    rw [hzero]
    exact hrow

theorem mulVec_polys {a : Matrix k l} {v : PolyVec l} (ha : a.Within 8380416)
    (hv : v.Within 8380416) (hl : l ≤ 256) :
    mulVec a.ints v.toNtt.ints = .ok (a.mulVec v.toNtt).ints :=
  mulVec_values ha (PolyVec.toNtt_within hv (by decide)) (by decide) (by omega)

theorem product_polys {a : Matrix k l} {v : PolyVec l} (ha : a.Within 8380416)
    (hv : v.Within 8380416) (hl : l ≤ 255) : product a.ints v.ints = .ok (a.product v).ints := by
  have hrow := fun i => (Matrix.mulVec_toNtt_spec ha hv (by omega) i).2
  rw [product, toNtt_polys hv, ok_bind, mulVec_polys ha hv (by omega), ok_bind,
    residues_values hrow (by omega)]
  rfl

end

/-! ## Hints -/

def makeHints (z r : Fin rows → Fin 256 → Int) : Exact (Fin rows → Fin 256 → Bool) :=
  zipWith (zipWith makeHint) z r

def useHints (h : Fin rows → Fin 256 → Bool) (v : Fin rows → Fin 256 → Int) :
    Exact (Fin rows → Fin 256 → Int) :=
  zipWith (zipWith useHint) h v

end Exact

/-- The marks by their places. -/
def HintVec.bits (h : HintVec) : Fin rows → Fin 256 → Bool := fun i j => h i j

namespace Exact

variable {B C : Nat}

theorem makeHints_polys {z r : PolyVec rows} (hz : z.Within B) (hr : r.Within C)
    (h : B + C ≤ 2143289343) : makeHints z.ints r.ints = .ok (HintVec.make z r).bits := by
  have hword : ∀ (i : Fin rows) (j : Fin 256),
      makeHint (z i j).toInt (r i j).toInt = .ok (Coeff.makeHint (z i j) (r i j)) := by
    intro i j
    have hz' := hz i j
    have hr' := hr i j
    unfold size at hz' hr'
    exact makeHint_toInt (by omega) ⟨by omega, by omega⟩ (by omega)
  have hplace : ∀ (i : Fin rows) (j : Fin 256),
      HintVec.make z r i j = Coeff.makeHint (z i j) (r i j) := by
    intro i j
    show (HintVec.make z r).marks[i.val][j.val] = _
    rw [HintVec.make, Vector.getElem_zipWith, Vector.getElem_zipWith]
    rfl
  exact all_ok fun i => all_ok fun j => (hword i j).trans
    (congrArg Except.ok (hplace i j).symm)

theorem useHints_polys (h : HintVec) {v : PolyVec rows} (hv : v.IsCanonical) :
    useHints h.bits v.ints = .ok (h.use v).ints := by
  have hplace : ∀ (i : Fin rows) (j : Fin 256), h.use v i j = Coeff.useHint (h i j) (v i j) := by
    intro i j
    show (h.use v).polys[i.val].coeffs[j.val] = _
    simp only [HintVec.use, Vector.getElem_zipWith]
    rfl
  exact all_ok fun i => all_ok fun j =>
    (useHint_toInt (h i j) ((hv i).bounds j).1 ((hv i).bounds j).2).trans
      (congrArg (fun c : Coeff => Except.ok c.toInt) (hplace i j).symm)

end Exact

end MLDSA
