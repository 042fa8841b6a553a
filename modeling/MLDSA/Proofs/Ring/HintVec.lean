import MLDSA.Proofs.Ring.Product
import MLDSA.Proofs.Ring.Rounding
import MLDSA.Ring.HintVec

/-! # Rounding of vectors

The tests, the buckets and the hints of a vector, each read off the element of the ring that the
vector stands for. The key fact is that none of them looks at anything but the residues. -/

namespace MLDSA

open Coeff

instance : CoeFun HintVec fun _ => Fin rows → Fin 256 → Bool := ⟨fun h i => (h.marks.get i).get⟩

/-- Each coefficient's residue is less than `bound` away from zero. -/
def IsBelow {m : Nat} (bound : Nat) (v : Fin m → Rq) : Prop :=
  ∀ i j, absResidue ((v i).coeff j) < bound

/-- Each coefficient's distance from the middle of its bucket is less than `bound`. -/
def LowBitsBelow {m : Nat} (bound : Nat) (v : Fin m → Rq) : Prop :=
  ∀ i j, (Schoolbook.lowBits ((v i).coeff j)).natAbs < bound

/-- How far from zero the residues of a vector reach. -/
def maxNorm {m : Nat} (v : Fin m → Rq) : Nat :=
  Finset.univ.sup fun p : Fin m × Fin 256 => absResidue ((v p.1).coeff p.2)

theorem maxNorm_le_iff {m B : Nat} {v : Fin m → Rq} :
    maxNorm v ≤ B ↔ ∀ i j, absResidue ((v i).coeff j) ≤ B := by
  simp only [maxNorm, Finset.sup_le_iff, Finset.mem_univ, true_implies, Prod.forall]

theorem isBelow_of_maxNorm {m B bound : Nat} {v : Fin m → Rq} (h : maxNorm v ≤ B)
    (hB : B < bound) : IsBelow bound v :=
  fun i j => (maxNorm_le_iff.mp h i j).trans_lt hB

theorem Poly.isBelow_eq_true {p : Poly} (bound : Coeff) :
    p.isBelow bound = true ↔ ∀ j : Fin 256, Coeff.isBelow bound (p j) = true := by
  simp only [isBelow, Vector.all_eq_true]
  exact ⟨fun h j => h j j.isLt, fun h j hj => h ⟨j, hj⟩⟩

namespace PolyVec

variable {m B : Nat} {v : PolyVec m}

theorem mapCoeffs_apply (f : Coeff → Coeff) (i : Fin m) (j : Fin 256) :
    v.mapCoeffs f i j = f (v i j) := by
  rw [mapCoeffs, map_apply, Poly.map_apply]

theorem isBelow_eq_true (bound : Coeff) : v.isBelow bound = true ↔
    ∀ (i : Fin m) (j : Fin 256), Coeff.isBelow bound (v i j) = true := by
  simp only [isBelow, Vector.all_eq_true, Poly.isBelow_eq_true]
  exact ⟨fun h i => h i i.isLt, fun h i hi => h ⟨i, hi⟩⟩

theorem isBelow_iff (hv : v.Within B) (hB : B ≤ 2143289343) {bound : Nat}
    (hbound : bound < 2147483648) :
    v.isBelow (Int32.ofNat bound) = true ↔ IsBelow bound v.elements := by
  rw [isBelow_eq_true]
  refine forall_congr' fun i => forall_congr' fun j => ?_
  rw [Coeff.isBelow_iff ((hv i).toInt_le hB j), Int32.toInt_ofNat_of_lt hbound]
  exact Int.ofNat_lt

theorem isBelow_elements {bound : Nat} (hbound : bound ≤ 2089217)
    (h : v.isBelow (Int32.ofNat bound) = true) : IsBelow bound v.elements := by
  have hword : (Int32.ofNat bound).toInt = bound := Int32.toInt_ofNat_of_lt (by omega)
  intro i j
  have hij := isBelow_eq_true _ |>.mp h i j
  rw [Coeff.isBelow_iff (toInt_le_of_isBelow (by omega) hij), hword] at hij
  exact Int.ofNat_lt.mp hij

theorem isBelow_lowBits_iff (hv : v.IsCanonical) {bound : Nat} (hbound : bound < 2147483648) :
    v.lowBits.isBelow (Int32.ofNat bound) = true ↔ LowBitsBelow bound v.elements := by
  rw [isBelow_eq_true]
  refine forall_congr' fun i => forall_congr' fun j => ?_
  rw [lowBits, mapCoeffs_apply, Coeff.isBelow_lowBits_iff (hv i j),
    Int32.toInt_ofNat_of_lt hbound]
  exact Int.ofNat_lt

theorem toInt_highBits (hv : v.IsCanonical) (i : Fin m) (j : Fin 256) :
    (v.highBits i j).toInt = Schoolbook.highBits ((v.elements i).coeff j) := by
  rw [highBits, mapCoeffs_apply, Coeff.toInt_highBits (hv i j)]
  rfl

theorem lowBits_within (hv : v.IsCanonical) : v.lowBits.Within 261888 := by
  intro i j
  have hbounds := Schoolbook.lowBits_bounds (residue (v i j))
  rw [size, lowBits, mapCoeffs_apply, Coeff.toInt_lowBits (hv i j)]
  omega

end PolyVec

namespace HintVec

variable {B C : Nat} {z r v : PolyVec rows}

/-- The marks where the bucket of `a` is not that of `b`. -/
def ofMoves (a b : Fin rows → Rq) : HintVec :=
  ⟨Vector.ofFn fun i => Vector.ofFn fun j =>
    Schoolbook.highBits ((a i).coeff j) != Schoolbook.highBits ((b i).coeff j)⟩

theorem ofMoves_apply (a b : Fin rows → Rq) (i : Fin rows) (j : Fin 256) : ofMoves a b i j =
    (Schoolbook.highBits ((a i).coeff j) != Schoolbook.highBits ((b i).coeff j)) := by
  show (ofMoves a b).marks[i.val][j.val] = _
  rw [ofMoves, Vector.getElem_ofFn, Vector.getElem_ofFn]

theorem make_apply (z r : PolyVec rows) (i : Fin rows) (j : Fin 256) :
    make z r i j = makeHint (z i j) (r i j) := by
  show (make z r).marks[i.val][j.val] = _
  simp only [make, Vector.getElem_zipWith]
  rfl

theorem use_apply (h : HintVec) (v : PolyVec rows) (i : Fin rows) (j : Fin 256) :
    h.use v i j = useHint (h i j) (v i j) := by
  show (h.use v).polys[i.val].coeffs[j.val] = _
  simp only [use, Vector.getElem_zipWith]
  rfl

theorem ext_apply {h h' : HintVec} (hh : ∀ (i : Fin rows) (j : Fin 256), h i j = h' i j) :
    h = h' := by
  cases h
  cases h'
  congr 1
  ext i hi j hj : 2
  exact hh ⟨i, hi⟩ ⟨j, hj⟩

theorem make_eq (hz : z.Within B) (hr : r.Within C) (h : B + C ≤ 2143289343) :
    make z r = ofMoves r.elements (r.elements + z.elements) := by
  refine ext_apply fun i j => ?_
  have hz' : size (z i j) ≤ B := hz i j
  have hr' : size (r i j) ≤ C := hr i j
  unfold size at hz' hr'
  rw [make_apply, ofMoves_apply, makeHint_eq]
  · rfl
  · omega
  · constructor <;> omega
  · omega

theorem toInt_use (h : HintVec) (hv : v.IsCanonical) (i : Fin rows) (j : Fin 256) :
    (h.use v i j).toInt = Schoolbook.useHint (h i j) ((v.elements i).coeff j) := by
  rw [use_apply]
  exact toInt_useHint (hv i j)

theorem use_inj {h h' : HintVec} (hv : v.IsCanonical) (heq : h.use v = h'.use v) : h = h' := by
  refine ext_apply fun i j => Schoolbook.useHint_inj (x := (v.elements i).coeff j) ?_
  rw [← toInt_use h hv, ← toInt_use h' hv, heq]

theorem length_places (row : Vector Bool 256) :
    ((List.finRange 256).filter row.get).length =
      (Finset.univ.filter fun j : Fin 256 => row.get j = true).card := by
  rw [Fin.univ_def]
  simp only [Finset.card, Finset.filter, Multiset.filter_coe, Multiset.coe_card,
    Bool.decide_eq_true]

theorem places_eq (h : HintVec) :
    h.places = List.ofFn fun i => (List.finRange 256).filter (h.marks.get i).get := by
  have hrows : h.marks.toList = List.ofFn h.marks.get := by
    rw [← Vector.toList_ofFn]
    exact congrArg _ (Vector.ofFn_getElem).symm
  rw [places, hrows, List.map_ofFn]
  rfl

theorem weight_eq_card (h : HintVec) : h.weight =
    (Finset.univ.filter fun p : Fin rows × Fin 256 => h p.1 p.2 = true).card := by
  rw [weight, places_eq, List.length_flatten, List.map_ofFn, List.sum_ofFn, Finset.card_filter,
    Fintype.sum_prod_type]
  refine Finset.sum_congr rfl fun i _ => ?_
  rw [← Finset.card_filter]
  exact length_places (h.marks.get i)

/-- The marks at the coefficients that are not zero. -/
def ofPolys (v : PolyVec rows) : HintVec := ⟨v.polys.map fun p => p.coeffs.map (· != 0)⟩

theorem ofPolys_apply (v : PolyVec rows) (i : Fin rows) (j : Fin 256) :
    ofPolys v i j = (v i j != 0) := by
  show (ofPolys v).marks[i.val][j.val] = _
  rw [ofPolys, Vector.getElem_map, Vector.getElem_map]
  rfl

theorem weight_ofPolys (v : PolyVec rows) : (ofPolys v).weight =
    (Finset.univ.filter fun p : Fin rows × Fin 256 => v p.1 p.2 ≠ 0).card := by
  rw [weight_eq_card]
  refine congrArg Finset.card (Finset.filter_congr fun p _ => ?_)
  rw [ofPolys_apply]
  exact bne_iff_ne

theorem card_column (c : Coeff) (k : Fin 256) : (Finset.univ.filter fun p : Fin rows × Fin 256 =>
    (PolyVec.ofFn fun (_ : Fin rows) j => if j = k then c else 0) p.1 p.2 ≠ 0).card ≤ rows := by
  refine (Finset.card_le_card (t := Finset.univ ×ˢ {k}) fun p hp => ?_).trans_eq ?_
  · rw [Finset.mem_filter, PolyVec.ofFn_apply] at hp
    rw [Finset.mem_product, Finset.mem_singleton]
    exact ⟨Finset.mem_univ _, not_not.mp fun hne => hp.2 (if_neg hne)⟩
  · rw [Finset.card_product, Finset.card_univ, Finset.card_singleton, Fintype.card_fin, mul_one]

theorem weight_column (c : Coeff) (k : Fin 256) :
    (ofPolys (PolyVec.ofFn fun _ j => if j = k then c else 0)).weight ≤ rows :=
  (weight_ofPolys _).trans_le (card_column c k)

end HintVec

end MLDSA
