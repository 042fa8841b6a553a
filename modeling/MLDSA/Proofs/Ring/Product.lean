import Mathlib.Data.ZMod.Basic
import MLDSA.Proofs.Ring.Transform
import MLDSA.Ring.Matrix

/-! # Products of polynomials, vectors and matrices

What each operation on polynomials does to the element of the ring that they stand for, and how
large the words get. The key fact is that an element is determined by its values at the 256 points,
so a product of values is the schoolbook product. -/

namespace MLDSA

open Coeff

/-! ## Places -/

instance : CoeFun Poly fun _ => Fin 256 → Coeff := ⟨fun p => p.coeffs.get⟩

instance : CoeFun NttPoly fun _ => Fin 256 → Coeff := ⟨fun p => p.values.get⟩

instance {m : Nat} : CoeFun (PolyVec m) fun _ => Fin m → Poly := ⟨fun v => v.polys.get⟩

instance {m : Nat} : CoeFun (NttVec m) fun _ => Fin m → NttPoly := ⟨fun v => v.polys.get⟩

instance {k l : Nat} : CoeFun (Matrix k l) fun _ => Fin k → Fin l → NttPoly :=
  ⟨fun a i => (a.entries.get i).get⟩

section

variable {m : Nat} (i : Fin 256) (j : Fin m)

theorem Poly.zero_apply : Poly.zero i = 0 := Vector.getElem_replicate i.isLt

theorem NttPoly.zero_apply : NttPoly.zero i = 0 := Vector.getElem_replicate i.isLt

theorem PolyVec.zero_apply : (zero : PolyVec m) j = Poly.zero := Vector.getElem_replicate j.isLt

theorem Poly.map_apply (f : Coeff → Coeff) (p : Poly) : p.map f i = f (p i) :=
  Vector.getElem_map f i.isLt

theorem Poly.add_apply (a b : Poly) : (a + b) i = a i + b i := Vector.getElem_zipWith i.isLt

theorem Poly.sub_apply (a b : Poly) : (a - b) i = a i - b i := Vector.getElem_zipWith i.isLt

theorem Poly.neg_apply (a : Poly) : (-a) i = -a i := Poly.map_apply i (-·) a

theorem NttPoly.map_apply (f : Coeff → Coeff) (p : NttPoly) : p.map f i = f (p i) :=
  Vector.getElem_map f i.isLt

theorem NttPoly.mul_apply (a b : NttPoly) : (a * b) i = mul (a i) (b i) :=
  Vector.getElem_zipWith i.isLt

theorem PolyVec.map_apply (f : Poly → Poly) (v : PolyVec m) : v.map f j = f (v j) :=
  Vector.getElem_map f j.isLt

theorem PolyVec.add_apply (u v : PolyVec m) : (u + v) j = u j + v j :=
  Vector.getElem_zipWith j.isLt

theorem PolyVec.neg_apply (v : PolyVec m) : (-v) j = -v j := PolyVec.map_apply j (-·) v

theorem PolyVec.sub_apply (u v : PolyVec m) : (u - v) j = u j - v j :=
  Vector.getElem_zipWith j.isLt

theorem PolyVec.toNtt_apply (v : PolyVec m) : v.toNtt j = (v j).toNtt :=
  Vector.getElem_map Poly.toNtt j.isLt

theorem PolyVec.toList_map {α : Type} (f : Poly → α) (v : PolyVec m) :
    (v.polys.map f).toList = List.ofFn fun i : Fin m => f (v i) := by
  rw [← Vector.toList_ofFn]
  refine congrArg Vector.toList (Vector.ext fun i hi => ?_)
  rw [Vector.getElem_map, Vector.getElem_ofFn]
  rfl

theorem NttVec.map_apply (f : NttPoly → NttPoly) (v : NttVec m) : v.map f j = f (v j) :=
  Vector.getElem_map f j.isLt

theorem NttVec.sub_apply (u v : NttVec m) : (u - v) j = u j - v j :=
  Vector.getElem_zipWith j.isLt

theorem NttVec.toPoly_apply (v : NttVec m) : v.toPoly j = (v j).toPoly :=
  Vector.getElem_map NttPoly.toPoly j.isLt

theorem Matrix.ofFn_apply {k : Nat} (f : Fin k → Fin m → NttPoly) (i : Fin k) :
    (⟨Vector.ofFn fun i => Vector.ofFn (f i)⟩ : Matrix k m) i j = f i j := by
  show (Vector.ofFn fun i => Vector.ofFn (f i))[i.val][j.val] = f i j
  rw [Vector.getElem_ofFn, Vector.getElem_ofFn]

end

/-! ## Words by their places -/

theorem PolyVec.ext_apply {m : Nat} {u v : PolyVec m} (h : ∀ (i : Fin m) (j : Fin 256),
    u i j = v i j) : u = v := by
  refine congrArg mk (Vector.ext fun i hi => congrArg Poly.mk (Vector.ext fun j hj => ?_))
  exact h ⟨i, hi⟩ ⟨j, hj⟩

def Poly.ofFn (f : Fin 256 → Coeff) : Poly := ⟨Vector.ofFn f⟩

theorem Poly.ofFn_apply (f : Fin 256 → Coeff) (j : Fin 256) : ofFn f j = f j :=
  Vector.getElem_ofFn j.isLt

def PolyVec.ofFn {m : Nat} (f : Fin m → Fin 256 → Coeff) : PolyVec m :=
  ⟨Vector.ofFn fun i => Poly.ofFn (f i)⟩

theorem PolyVec.ofFn_apply {m : Nat} (f : Fin m → Fin 256 → Coeff) (i : Fin m) (j : Fin 256) :
    ofFn f i j = f i j :=
  (congrArg (fun p : Poly => p j) (Vector.getElem_ofFn i.isLt)).trans (Poly.ofFn_apply (f i) j)

/-! ## Elements and values -/

namespace Poly

/-- The element of the ring that the coefficients stand for. -/
def element (p : Poly) : Rq := ⟨fun i => residue (p i)⟩

/-- No coefficient is more than `B` away from zero. -/
def Within (B : Nat) (p : Poly) : Prop := ∀ i : Fin 256, size (p i) ≤ B

@[simp] theorem coeff_element (p : Poly) (i : Fin 256) : p.element.coeff i = residue (p i) :=
  rfl

theorem Within.mono {B C : Nat} {p : Poly} (h : p.Within B) (hBC : B ≤ C) : p.Within C :=
  fun i => le_trans (h i) hBC

end Poly

namespace NttPoly

def value (p : NttPoly) (k : Fin 256) : Zq := residue (p k)

/-- No value is more than `B` away from zero. -/
def Within (B : Nat) (p : NttPoly) : Prop := ∀ k : Fin 256, size (p k) ≤ B

theorem Within.mono {B C : Nat} {p : NttPoly} (h : p.Within B) (hBC : B ≤ C) : p.Within C :=
  fun i => le_trans (h i) hBC

end NttPoly

theorem eval_element (x : Zq) (p : Poly) : p.element.eval x = valueAt x p.coeffs := rfl

theorem Poly.toNtt_spec {B : Nat} {p : Poly} (hp : p.Within B) (hB : B ≤ 2080440319) :
    p.toNtt.Within (B + 67043328) ∧ ∀ k, p.toNtt.value k = p.element.eval (point k) := by
  have h := splitAll_spec 8 (k := 1) (a := p.coeffs) (by decide) (by decide)
    (fun i hi => hp ⟨i, hi⟩) (by omega)
  constructor
  · intro k
    exact (h k.val k.isLt).1
  · intro k
    rw [eval_element, ← nodePower_leaf k.isLt]
    exact (h k.val k.isLt).2

theorem residue_inverseScale : residue inverseScale = 2 ^ 32 * 8347681 * 2 ^ 32 := by
  decide

/-- The factor `2^32` is the one that a product of values has lost. -/
theorem NttPoly.toPoly_spec {p : NttPoly} (hp : p.Within 8380416) :
    p.toPoly.Within 8380416 ∧
      ∀ k : Fin 256, p.toPoly.element.eval (point k) = 2 ^ 32 * p.value k := by
  have hscale := mul_constant (w := inverseScale) (by decide) residue_inverseScale
  constructor
  · intro k
    show size ((joinAll 8 1 p.values).map (mul inverseScale))[k.val] ≤ 8380416
    rw [Vector.getElem_map]
    exact (hscale _).2
  · intro k
    have hjoin := (joinAll_spec 8 (d := 0) (m := 0) (a := p.values) (by decide)
      (by decide) (fun i hi => hp ⟨i, hi⟩) (by decide) le_rfl).2 k.val k.isLt
    have hinv : (8347681 * 2 ^ 8 : Zq) = 1 := by decide
    calc p.toPoly.element.eval (point k)
        = valueAt (point k) ((joinAll 8 1 p.values).map (mul inverseScale)) := rfl
      _ = 2 ^ 32 * 8347681 * valueAt (point k) (joinAll 8 1 p.values) := by
        unfold valueAt
        rw [Finset.mul_sum]
        refine Finset.sum_congr rfl fun j _ => ?_
        have hj : ((joinAll 8 1 p.values).map (mul inverseScale)).get j =
            mul inverseScale ((joinAll 8 1 p.values).get j) := Vector.getElem_map _ j.isLt
        rw [hj, (hscale _).1, mul_assoc]
      _ = 2 ^ 32 * 8347681 * (2 ^ 8 * p.value k) := by
        rw [← nodePower_leaf k.isLt]
        exact congrArg _ hjoin
      _ = 2 ^ 32 * p.value k := by linear_combination 2 ^ 32 * p.value k * hinv

/-! ## An element is its values -/

theorem point_pow (k : Nat) : point k ^ 256 = -1 := by
  rw [point, ← pow_mul, mul_comm, pow_mul, pow_1753, pow_succ, pow_mul]
  simp

theorem exists_element (v : Fin 256 → Zq) : ∃ a : Rq, ∀ k : Fin 256, a.eval (point k) = v k := by
  -- The words of the values are joined, and what comes out too large is divided away.
  let p : NttPoly := ⟨Vector.ofFn fun k => Int32.ofNat (8265825 * v k).val⟩
  have hword : ∀ k : Fin 256, (p k).toInt = ((8265825 * v k).val : Int) := by
    intro k
    have := ZMod.val_lt (8265825 * v k)
    show (Vector.ofFn fun k => Int32.ofNat (8265825 * v k).val)[k.val].toInt = _
    rw [Vector.getElem_ofFn, Int32.toInt_ofNat_of_lt]
    exact lt_trans this (by decide)
  have hval : ∀ k, p.value k = 8265825 * v k := by
    intro k
    rw [NttPoly.value, residue, hword, Int.cast_natCast, ZMod.natCast_zmod_val]
  have hin : p.Within 8380416 := by
    intro k
    have : (8265825 * v k).val < 8380417 := ZMod.val_lt _
    rw [size, hword]
    omega
  refine ⟨p.toPoly.element, fun k => ?_⟩
  have hinv : (2 ^ 32 * 8265825 : Zq) = 1 := by decide
  rw [(NttPoly.toPoly_spec hin).2 k, hval, ← mul_assoc, hinv, one_mul]

theorem Negacyclic.ext_eval {a b : Rq}
    (h : ∀ k : Fin 256, a.eval (point k) = b.eval (point k)) : a = b := by
  -- There are as many lists of values as elements, so it is enough that each list is reached.
  let f : (Fin 256 → Zq) → (Fin 256 → Zq) := fun c k => Negacyclic.eval (point k) ⟨c⟩
  have hsurj : Function.Surjective f := by
    intro v
    obtain ⟨a, ha⟩ := exists_element v
    exact ⟨a.coeff, funext ha⟩
  have hinj : Function.Injective f := Finite.injective_iff_surjective.mpr hsurj
  exact Negacyclic.ext (hinj (funext h))

/-- The element with these values. -/
noncomputable def NttPoly.element (p : NttPoly) : Rq := (exists_element p.value).choose

theorem NttPoly.eval_element (p : NttPoly) (k : Fin 256) : p.element.eval (point k) = p.value k :=
  (exists_element p.value).choose_spec k

theorem NttPoly.eq_element {p : NttPoly} {a : Rq}
    (h : ∀ k : Fin 256, a.eval (point k) = p.value k) : a = p.element :=
  Negacyclic.ext_eval fun k => (h k).trans (p.eval_element k).symm

/-! ## Polynomials -/

namespace Poly

variable {B C : Nat} {a b p : Poly}

/-- Each coefficient is the word of its residue in `[0, q)`. -/
def IsCanonical (p : Poly) : Prop := ∀ i : Fin 256, (p i).toInt = (p.element.coeff i).val

theorem IsCanonical.bounds (h : p.IsCanonical) (i : Fin 256) :
    0 ≤ (p i).toInt ∧ (p i).toInt < 8380417 := by
  have : (p.element.coeff i).val < 8380417 := ZMod.val_lt _
  rw [h i]
  omega

theorem IsCanonical.within (h : p.IsCanonical) : p.Within 8380416 := by
  intro i
  have := h.bounds i
  unfold size
  omega

theorem spec_of_residues {e : Rq} (h : ∀ i : Fin 256, residue (p i) = e.coeff i ∧ size (p i) ≤ B) :
    p.element = e ∧ p.Within B :=
  ⟨Negacyclic.ext (funext fun i => (h i).1), fun i => (h i).2⟩

theorem spec_of_words {e : Rq} (h : ∀ i : Fin 256, (p i).toInt = (e.coeff i).val) :
    p.element = e ∧ p.IsCanonical := by
  have he : p.element = e := by
    ext i
    rw [coeff_element, residue, h, Int.cast_natCast, ZMod.natCast_zmod_val]
  exact ⟨he, fun i => by rw [he, h]⟩

theorem add_spec (ha : a.Within B) (hb : b.Within C) (h : B + C ≤ 2147483647) :
    (a + b).element = a.element + b.element ∧ (a + b).Within (B + C) := by
  apply spec_of_residues
  intro i
  have h1 := ha i
  have h2 := hb i
  unfold size at h1 h2
  have hfits : Fits ((a i).toInt + (b i).toInt) := by constructor <;> omega
  rw [add_apply, residue_add hfits, size, toInt_add_of_fits hfits]
  exact ⟨rfl, by omega⟩

theorem sub_spec (ha : a.Within B) (hb : b.Within C) (h : B + C ≤ 2147483647) :
    (a - b).element = a.element - b.element ∧ (a - b).Within (B + C) := by
  apply spec_of_residues
  intro i
  have h1 := ha i
  have h2 := hb i
  unfold size at h1 h2
  have hfits : Fits ((a i).toInt - (b i).toInt) := by constructor <;> omega
  rw [sub_apply, residue_sub hfits, size, toInt_sub_of_fits hfits]
  exact ⟨rfl, by omega⟩

theorem neg_spec (ha : a.Within B) (h : B ≤ 2147483647) :
    (-a).element = -a.element ∧ (-a).Within B := by
  apply spec_of_residues
  intro i
  have h1 := ha i
  unfold size at h1
  have hfits : Fits (-(a i).toInt) := by constructor <;> omega
  rw [neg_apply, residue_neg hfits, size, toInt_neg_of_fits hfits, Int.natAbs_neg]
  exact ⟨rfl, h1⟩

theorem Within.toInt_le (h : p.Within B) (hB : B ≤ 2143289343) (i : Fin 256) :
    (p i).toInt ≤ 2143289343 := by
  have := h i
  unfold size at this
  omega

theorem reduce_spec (h : p.Within B) (hB : B ≤ 2143289343) :
    p.reduce.element = p.element ∧ p.reduce.Within 6283009 := by
  apply spec_of_residues
  intro i
  have hbounds := reduce_bounds (h.toInt_le hB i)
  rw [reduce, map_apply, residue_reduce (h.toInt_le hB i), size]
  exact ⟨rfl, by omega⟩

theorem canonical_spec (h : p.Within B) (hB : B ≤ 2143289343) :
    p.canonical.element = p.element ∧ p.canonical.IsCanonical := by
  apply spec_of_words
  intro i
  rw [canonical, map_apply, toInt_canonical (h.toInt_le hB i), coeff_element, val_residue]

theorem addModulus_spec (h : p.Within 8380416) :
    p.addModulus.element = p.element ∧ p.addModulus.IsCanonical := by
  apply spec_of_words
  intro i
  rw [addModulus, map_apply, toInt_addModulus_of_size (Nat.lt_succ_of_le (h i)), coeff_element,
    val_residue]

end Poly

/-! ## Values of polynomials -/

namespace NttPoly

variable {B C : Nat} {a b p : NttPoly}

theorem add_spec (ha : a.Within B) (hb : b.Within C) (h : B + C ≤ 2147483647) :
    (∀ k, (a + b).value k = a.value k + b.value k) ∧ (a + b).Within (B + C) := by
  obtain ⟨he, hw⟩ := Poly.add_spec (a := ⟨a.values⟩) (b := ⟨b.values⟩) ha hb h
  exact ⟨fun k => congrFun (congrArg Negacyclic.coeff he) k, hw⟩

theorem sub_spec (ha : a.Within B) (hb : b.Within C) (h : B + C ≤ 2147483647) :
    (∀ k, (a - b).value k = a.value k - b.value k) ∧ (a - b).Within (B + C) := by
  obtain ⟨he, hw⟩ := Poly.sub_spec (a := ⟨a.values⟩) (b := ⟨b.values⟩) ha hb h
  exact ⟨fun k => congrFun (congrArg Negacyclic.coeff he) k, hw⟩

theorem reduce_spec (h : p.Within B) (hB : B ≤ 2143289343) :
    (∀ k, p.reduce.value k = p.value k) ∧ p.reduce.Within 6283009 := by
  obtain ⟨he, hw⟩ := Poly.reduce_spec (p := ⟨p.values⟩) h hB
  exact ⟨fun k => congrFun (congrArg Negacyclic.coeff he) k, hw⟩

theorem mul_spec (ha : a.Within B) (hb : b.Within C) (h : B * C < 8380417 * 2 ^ 31) :
    (∀ k, 2 ^ 32 * (a * b).value k = a.value k * b.value k) ∧ (a * b).Within 8380416 := by
  have hlt : ∀ k : Fin 256, size (a k) * size (b k) < 8380417 * 2 ^ 31 := fun k =>
    lt_of_le_of_lt (Nat.mul_le_mul (ha k) (hb k)) h
  constructor
  · intro k
    rw [value, mul_apply, mul_comm]
    exact residue_mul (hlt k)
  · intro k
    rw [mul_apply]
    exact Nat.le_of_lt_succ (size_mul (hlt k))

theorem reduce_toPoly_spec (h : p.Within B) (hB : B ≤ 2143289343) :
    p.reduce.toPoly.Within 8380416 ∧
      ∀ k : Fin 256, p.reduce.toPoly.element.eval (point k) = 2 ^ 32 * p.value k := by
  obtain ⟨hval, hw⟩ := reduce_spec h hB
  obtain ⟨hin, heval⟩ := toPoly_spec (hw.mono (by decide))
  exact ⟨hin, fun k => by rw [heval, hval]⟩

end NttPoly

theorem Poly.product_spec {c s : Poly} (hc : c.Within 8380416) (hs : s.Within 8380416) :
    (c.toNtt * s.toNtt).reduce.toPoly.element = c.element * s.element ∧
      (c.toNtt * s.toNtt).reduce.toPoly.Within 8380416 := by
  obtain ⟨cin, cval⟩ := Poly.toNtt_spec hc (by decide)
  obtain ⟨sin, sval⟩ := Poly.toNtt_spec hs (by decide)
  obtain ⟨mval, min⟩ := NttPoly.mul_spec cin sin (by decide)
  obtain ⟨hin, heval⟩ := NttPoly.reduce_toPoly_spec min (by decide)
  refine ⟨Negacyclic.ext_eval fun k => ?_, hin⟩
  rw [heval, mval, cval, sval, Negacyclic.eval_mul (point_pow k)]

/-! ## Vectors -/

/-- The elements with these coefficients. -/
def Schoolbook.elements {m : Nat} (v : Fin m → Fin 256 → Int) : Fin m → Rq :=
  fun i => ⟨fun j => (v i j : Zq)⟩

namespace PolyVec

variable {m B C : Nat} {u v : PolyVec m}

/-- The elements of the ring that the polynomials stand for. -/
def elements (v : PolyVec m) : Fin m → Rq := fun i => (v i).element

theorem elements_eq {w : Fin m → Fin 256 → Int}
    (h : ∀ (i : Fin m) (j : Fin 256), (v i j).toInt = w i j) :
    v.elements = Schoolbook.elements w := by
  funext i
  ext j
  show residue (v i j) = (w i j : Zq)
  rw [residue, h]

def Within (B : Nat) (v : PolyVec m) : Prop := ∀ i : Fin m, (v i).Within B

def IsCanonical (v : PolyVec m) : Prop := ∀ i : Fin m, (v i).IsCanonical

theorem Within.mono (h : v.Within B) (hBC : B ≤ C) : v.Within C := fun i => (h i).mono hBC

theorem IsCanonical.within (h : v.IsCanonical) : v.Within 8380416 := fun i => (h i).within

theorem spec_of_polys {e : Fin m → Rq} {P : Poly → Prop}
    (h : ∀ i : Fin m, (v i).element = e i ∧ P (v i)) : v.elements = e ∧ ∀ i : Fin m, P (v i) :=
  ⟨funext fun i => (h i).1, fun i => (h i).2⟩

theorem add_spec (hu : u.Within B) (hv : v.Within C) (h : B + C ≤ 2147483647) :
    (u + v).elements = u.elements + v.elements ∧ (u + v).Within (B + C) := by
  apply spec_of_polys
  intro i
  rw [add_apply]
  exact Poly.add_spec (hu i) (hv i) h

theorem sub_spec (hu : u.Within B) (hv : v.Within C) (h : B + C ≤ 2147483647) :
    (u - v).elements = u.elements - v.elements ∧ (u - v).Within (B + C) := by
  apply spec_of_polys
  intro i
  rw [sub_apply]
  exact Poly.sub_spec (hu i) (hv i) h

theorem neg_spec (hv : v.Within B) (h : B ≤ 2147483647) :
    (-v).elements = -v.elements ∧ (-v).Within B := by
  apply spec_of_polys
  intro i
  rw [neg_apply]
  exact Poly.neg_spec (hv i) h

theorem reduce_spec (hv : v.Within B) (hB : B ≤ 2143289343) :
    v.reduce.elements = v.elements ∧ v.reduce.Within 6283009 := by
  apply spec_of_polys
  intro i
  rw [reduce, map_apply]
  exact Poly.reduce_spec (hv i) hB

theorem canonical_spec (hv : v.Within B) (hB : B ≤ 2143289343) :
    v.canonical.elements = v.elements ∧ v.canonical.IsCanonical := by
  apply spec_of_polys
  intro i
  rw [canonical, map_apply]
  exact Poly.canonical_spec (hv i) hB

theorem addModulus_spec (hv : v.Within 8380416) :
    v.addModulus.elements = v.elements ∧ v.addModulus.IsCanonical := by
  apply spec_of_polys
  intro i
  rw [addModulus, map_apply]
  exact Poly.addModulus_spec (hv i)

theorem timesChallenge_spec {c : Poly} (hc : c.Within 8380416) (hv : v.Within 8380416) :
    (v.toNtt.timesChallenge c.toNtt).elements = (fun i => c.element * v.elements i) ∧
      (v.toNtt.timesChallenge c.toNtt).Within 8380416 := by
  apply spec_of_polys
  intro i
  rw [NttVec.timesChallenge, NttVec.toPoly_apply, NttVec.reduce, NttVec.map_apply, NttVec.scale,
    NttVec.map_apply, toNtt_apply]
  exact Poly.product_spec hc (hv i)

theorem add_timesChallenge_spec {c : Poly} (hc : c.Within 8380416) (hu : u.Within 524288)
    (hv : v.Within 8380416) :
    (u + v.toNtt.timesChallenge c.toNtt).reduce.elements =
        (fun i => u.elements i + c.element * v.elements i) ∧
      (u + v.toNtt.timesChallenge c.toNtt).reduce.Within 6283009 := by
  obtain ⟨hproduct, hin⟩ := timesChallenge_spec hc hv
  obtain ⟨hsum, hsumin⟩ := add_spec hu hin (by decide)
  obtain ⟨hreduce, hreducein⟩ := reduce_spec hsumin (by decide)
  refine ⟨?_, hreducein⟩
  rw [hreduce, hsum, hproduct]
  rfl

theorem sub_timesChallenge_spec {c : Poly} (hc : c.Within 8380416) (hu : u.IsCanonical)
    (hv : v.Within 8380416) :
    (u - v.toNtt.timesChallenge c.toNtt).canonical.elements =
        (fun i => u.elements i - c.element * v.elements i) ∧
      (u - v.toNtt.timesChallenge c.toNtt).canonical.IsCanonical := by
  obtain ⟨hproduct, hin⟩ := timesChallenge_spec hc hv
  obtain ⟨hdiff, hdiffin⟩ := sub_spec hu.within hin (by decide)
  obtain ⟨hcanonical, hcanon⟩ := canonical_spec hdiffin (by decide)
  refine ⟨?_, hcanon⟩
  rw [hcanonical, hdiff, hproduct]
  rfl

end PolyVec

/-! ## Vectors of values -/

namespace NttVec

variable {m B C : Nat} {u v : NttVec m}

def Within (B : Nat) (v : NttVec m) : Prop := ∀ i : Fin m, (v i).Within B

theorem Within.mono (h : v.Within B) (hBC : B ≤ C) : v.Within C := fun i => (h i).mono hBC

theorem sub_within (hu : u.Within B) (hv : v.Within C) (h : B + C ≤ 2147483647) :
    (u - v).Within (B + C) := by
  intro i
  rw [sub_apply]
  exact (NttPoly.sub_spec (hu i) (hv i) h).2

theorem reduce_within (hv : v.Within B) (hB : B ≤ 2143289343) : v.reduce.Within 6283009 := by
  intro i
  rw [reduce, map_apply]
  exact (NttPoly.reduce_spec (hv i) hB).2

theorem scale_within {c : NttPoly} (hc : c.Within B) (hv : v.Within C)
    (h : B * C < 8380417 * 2 ^ 31) : (v.scale c).Within 8380416 := by
  intro i
  rw [scale, map_apply]
  exact (NttPoly.mul_spec hc (hv i) h).2

theorem toPoly_within (hv : v.Within 8380416) : v.toPoly.Within 8380416 := by
  intro i
  rw [toPoly_apply]
  exact (NttPoly.toPoly_spec (hv i)).1

end NttVec

theorem PolyVec.toNtt_within {m B : Nat} {v : PolyVec m} (hv : v.Within B) (hB : B ≤ 2080440319) :
    v.toNtt.Within (B + 67043328) := by
  intro i
  rw [toNtt_apply]
  exact (Poly.toNtt_spec (hv i) hB).1

/-! ## Matrices -/

theorem foldl_add_spec {B : Nat} (l : List NttPoly) (hl : ∀ p ∈ l, p.Within B) {C : Nat}
    {p : NttPoly} (hp : p.Within C) (h : C + l.length * B ≤ 2147483647) :
    (∀ k, (l.foldl (· + ·) p).value k = p.value k + (l.map fun r => r.value k).sum) ∧
      (l.foldl (· + ·) p).Within (C + l.length * B) := by
  induction l generalizing C p with
  | nil => exact ⟨fun k => by simp, by simpa using hp⟩
  | cons r l ih =>
    rw [List.length_cons, Nat.succ_mul] at h
    obtain ⟨hval, hw⟩ := NttPoly.add_spec hp (hl r List.mem_cons_self) (by omega)
    obtain ⟨ihval, ihw⟩ := ih (fun p hp => hl p (List.mem_cons_of_mem _ hp)) hw (by omega)
    constructor
    · intro k
      rw [List.foldl_cons, ihval, hval, List.map_cons, List.sum_cons, add_assoc]
    · rw [List.foldl_cons, List.length_cons, Nat.succ_mul]
      exact ihw.mono (by omega)

theorem NttPoly.zero_spec : NttPoly.zero.Within 0 ∧ ∀ k, NttPoly.zero.value k = 0 := by
  refine ⟨fun k => ?_, fun k => ?_⟩
  · rw [NttPoly.zero_apply]
    decide
  · rw [NttPoly.value, NttPoly.zero_apply]
    decide

namespace Matrix

variable {k l B C : Nat} {a : Matrix k l}

/-- The polynomials whose values the entries are. -/
noncomputable def elements (a : Matrix k l) : Fin k → Fin l → Rq := fun i j =>
  (a i j).element

def Within (B : Nat) (a : Matrix k l) : Prop :=
  ∀ (i : Fin k) (j : Fin l), (a i j).Within B

theorem mulVec_apply (a : Matrix k l) (v : NttVec l) (i : Fin k) : a.mulVec v i =
    (List.ofFn fun j : Fin l => a i j * v j).foldl (· + ·) NttPoly.zero := by
  have hlist : (Vector.zipWith (· * ·) (a.entries.get i) v.polys).toList =
      List.ofFn fun j : Fin l => a i j * v j := by
    apply List.ext_getElem
    · simp
    · intro j h _
      rw [Vector.getElem_toList, Vector.getElem_zipWith, List.getElem_ofFn]
      rfl
  rw [← hlist, Vector.foldl_toList]
  exact Vector.getElem_map _ i.isLt

theorem mulVec_spec {v : NttVec l} (ha : a.Within B) (hv : v.Within C)
    (hBC : B * C < 8380417 * 2 ^ 31) (hl : l * 8380416 ≤ 2147483647) (i : Fin k) :
    (∀ x, 2 ^ 32 * (a.mulVec v i).value x =
      ∑ j : Fin l, (a i j).value x * (v j).value x) ∧
    (a.mulVec v i).Within (l * 8380416) := by
  have hmul : ∀ j : Fin l, _ := fun j => NttPoly.mul_spec (ha i j) (hv j) hBC
  obtain ⟨hval, hw⟩ := foldl_add_spec (B := 8380416) (List.ofFn fun j : Fin l => a i j * v j)
    (by simpa using fun j => (hmul j).2) NttPoly.zero_spec.1 (by simpa using hl)
  rw [mulVec_apply]
  constructor
  · intro x
    rw [hval, NttPoly.zero_spec.2, zero_add, List.map_ofFn, List.sum_ofFn, Finset.mul_sum]
    exact Finset.sum_congr rfl fun j _ => (hmul j).1 x
  · simpa using hw

end Matrix

theorem NttVec.residues_spec {m B : Nat} {v : NttVec m} (hv : v.Within B)
    (hB : B ≤ 2143289343) : v.residues.IsCanonical ∧ ∀ (i : Fin m) (k : Fin 256),
      (v.residues.elements i).eval (point k) = 2 ^ 32 * (v i).value k := by
  have hin := toPoly_within ((reduce_within hv hB).mono (by decide))
  obtain ⟨he, hc⟩ := PolyVec.addModulus_spec hin
  refine ⟨hc, fun i k => ?_⟩
  rw [residues, he, PolyVec.elements, toPoly_apply, reduce, map_apply]
  exact (NttPoly.reduce_toPoly_spec (hv i) hB).2 k

namespace Matrix

variable {k l B C : Nat} {a : Matrix k l} {v : PolyVec l}

theorem mulVec_toNtt_spec (ha : a.Within 8380416) (hv : v.Within 8380416) (hl : l ≤ 256)
    (i : Fin k) :
    (∀ x : Fin 256, 2 ^ 32 * (a.mulVec v.toNtt i).value x =
      (Negacyclic.mulVec a.elements v.elements i).eval (point x)) ∧
    (a.mulVec v.toNtt i).Within (l * 8380416) := by
  obtain ⟨hval, hw⟩ := mulVec_spec ha (PolyVec.toNtt_within hv (by decide)) (by decide) (by omega) i
  refine ⟨fun x => ?_, hw⟩
  rw [hval, Negacyclic.eval_mulVec (point_pow x)]
  refine Finset.sum_congr rfl fun j _ => ?_
  rw [PolyVec.toNtt_apply, (Poly.toNtt_spec (hv j) (by decide)).2, elements, NttPoly.eval_element]
  rfl

theorem product_spec (ha : a.Within 8380416) (hv : v.Within 8380416) (hl : l ≤ 255) :
    (a.product v).elements = Negacyclic.mulVec a.elements v.elements ∧
      (a.product v).IsCanonical := by
  have hrow := mulVec_toNtt_spec ha hv (by omega)
  obtain ⟨hc, heval⟩ := NttVec.residues_spec (fun i => (hrow i).2) (by omega)
  refine ⟨funext fun i => Negacyclic.ext_eval fun x => ?_, hc⟩
  rw [product, heval, (hrow i).1]

theorem product_sub_spec {c : Poly} {u : PolyVec k} (ha : a.Within 8380416)
    (hv : v.Within 8380416) (hc : c.Within 8380416) (hu : u.Within 8380416) (hl : l ≤ 254) :
    (a.mulVec v.toNtt - u.toNtt.scale c.toNtt).residues.elements =
      (fun i => Negacyclic.mulVec a.elements v.elements i - c.element * u.elements i) ∧
    (a.mulVec v.toNtt - u.toNtt.scale c.toNtt).residues.IsCanonical := by
  have hrow := mulVec_toNtt_spec ha hv (by omega)
  have hprod := fun i : Fin k => NttPoly.mul_spec (Poly.toNtt_spec hc (by decide)).1
    (Poly.toNtt_spec (hu i) (by decide)).1 (by decide)
  have hsub := fun i : Fin k => NttPoly.sub_spec (hrow i).2 (hprod i).2 (by omega)
  have hdiff : ∀ i : Fin k, (a.mulVec v.toNtt - u.toNtt.scale c.toNtt) i =
      a.mulVec v.toNtt i - c.toNtt * (u i).toNtt := by
    intro i
    rw [NttVec.sub_apply, NttVec.scale, NttVec.map_apply, PolyVec.toNtt_apply]
  obtain ⟨hcan, heval⟩ := NttVec.residues_spec (v := a.mulVec v.toNtt - u.toNtt.scale c.toNtt)
    (fun i => by rw [hdiff]; exact (hsub i).2) (by omega)
  refine ⟨funext fun i => Negacyclic.ext_eval fun x => ?_, hcan⟩
  rw [heval, hdiff, (hsub i).1, mul_sub, (hrow i).1, (hprod i).1, Negacyclic.eval_sub,
    Negacyclic.eval_mul (point_pow x), (Poly.toNtt_spec hc (by decide)).2,
    (Poly.toNtt_spec (hu i) (by decide)).2]
  rfl

end Matrix

end MLDSA
