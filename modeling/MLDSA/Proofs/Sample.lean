import MLDSA.Proofs.Bytes.Octets
import MLDSA.Proofs.Codec.Keys
import MLDSA.Sample

/-! # What is sampled

The ranges of all that is read off a stream, whatever the hash functions are. The key fact about a
challenge is that each sign adds at most one to the sum of its coefficients' sizes, so a product
with it is at most 49 times as large as the other factor. -/

namespace MLDSA

open Coeff

/-! ## Streams -/

/-- The endless stream of one byte. -/
def Xof.constant (rate : Nat) (byte : UInt8) : Xof rate where
  State := Unit
  absorb _ := ()
  block _ := ⟨List.replicate rate byte, List.length_replicate⟩
  next s := s

/-- A search that ends has found as much as it needs, and nothing but candidates. -/
theorem Xof.search_spec {rate need : Nat} {α : Type} {x : Xof rate} {found : Nat → Bytes → List α}
    {P : α → Prop} (hfound : ∀ k b, ∀ a ∈ found k b, P a) {budget skip : Nat} {got l : List α}
    {s : x.State} (hgot : ∀ a ∈ got, P a) (h : x.search found need budget got skip s = some l) :
    l.length = need ∧ ∀ a ∈ l, P a := by
  induction budget generalizing got skip s with
  | zero => cases h
  | succ budget ih =>
    have hmore : ∀ a ∈ got ++ found got.length ((x.block s).bytes.drop skip), P a := fun a ha =>
      (List.mem_append.mp ha).elim (hgot a) (hfound _ _ a)
    simp only [search] at h
    split at h
    · rename_i hneed
      cases h
      exact ⟨List.length_take_of_le hneed, fun a ha => hmore a (List.mem_of_mem_take ha)⟩
    · exact ih hmore h

theorem Xof.length_of_search {rate need : Nat} {α : Type} {x : Xof rate}
    {found : Nat → Bytes → List α} {budget skip : Nat} {got l : List α} {s : x.State}
    (h : x.search found need budget got skip s = some l) : l.length = need :=
  (search_spec (P := fun _ => True) (fun _ _ _ _ => trivial) (fun _ _ => trivial) h).1

/-! ## Candidates -/

theorem uniformCandidates_bounds (b : Bytes) :
    ∀ c ∈ uniformCandidates b, 0 ≤ c.toInt ∧ c.toInt < 8380417 := by
  fun_induction uniformCandidates b with
  | case1 x y z rest v hv ih =>
    intro c hc
    rcases List.mem_cons.mp hc with rfl | hc
    · have hlt : v < 8380417 := hv
      rw [Int32.toInt_ofNat_of_lt (by omega)]
      omega
    · exact ih c hc
  | case2 x y z rest v hv ih => exact ih
  | case3 => simp

theorem toInt_four_sub {t : Nat} (ht : t ≤ 8) : (4 - Int32.ofNat t).toInt = 4 - t := by
  have hword : (Int32.ofNat t).toInt = t := Int32.toInt_ofNat_of_lt (by omega)
  have hfits : Fits ((4 : Coeff).toInt - (Int32.ofNat t).toInt) := by
    rw [hword]
    show Fits (4 - (t : Int))
    constructor <;> omega
  rw [toInt_sub_of_fits hfits, hword]
  rfl

theorem secretCandidates_bounds (b : Bytes) :
    ∀ c ∈ secretCandidates b, -4 ≤ c.toInt ∧ c.toInt ≤ 4 := by
  intro c hc
  simp only [secretCandidates, List.mem_filterMap, Option.ite_none_right_eq_some,
    Option.some.injEq] at hc
  obtain ⟨t, -, ht, rfl⟩ := hc
  have ht8 : t ≤ 8 := ht
  rw [toInt_four_sub ht8]
  omega

/-! ## Challenges -/

/-- The sizes of all coefficients together. -/
def totalSize (v : Vector Coeff 256) : Nat := ∑ i : Fin 256, size (v.get i)

theorem size_le_totalSize (v : Vector Coeff 256) (i : Fin 256) : size (v.get i) ≤ totalSize v :=
  Finset.single_le_sum_of_canonicallyOrdered (f := fun j : Fin 256 => size (v.get j))
    (Finset.mem_univ i)

theorem get_set (v : Vector Coeff 256) (i j : Fin 256) (c : Coeff) :
    (v.set i c i.isLt).get j = if j = i then c else v.get j := by
  show (v.set i c i.isLt)[j.val] = if j = i then c else v[j.val]
  simp only [Vector.getElem_set, Fin.ext_iff, eq_comm]

theorem totalSize_set (v : Vector Coeff 256) (i : Fin 256) (c : Coeff) :
    totalSize (v.set i c i.isLt) + size (v.get i) = totalSize v + size c := by
  have hrest : ∑ j ∈ Finset.univ.erase i, size ((v.set i c).get j) =
      ∑ j ∈ Finset.univ.erase i, size (v.get j) := by
    apply Finset.sum_congr rfl
    intro j hj
    rw [get_set, if_neg (Finset.ne_of_mem_erase hj)]
  have hset := Finset.add_sum_erase Finset.univ (fun j : Fin 256 => size ((v.set i c).get j))
    (Finset.mem_univ i)
  have hold := Finset.add_sum_erase Finset.univ (fun j : Fin 256 => size (v.get j))
    (Finset.mem_univ i)
  simp only [get_set, if_true] at hset
  simp only [get_set] at hrest
  unfold totalSize
  simp only [get_set]
  omega

theorem totalSize_putSign (v : Vector Coeff 256) (i j : Fin 256) (negative : Bool) :
    totalSize (putSign v i j negative) + size (v.get i) = totalSize v + 1 := by
  -- The coefficient at `j` moves to `i` and still counts there; only the one at `i` is lost.
  have hmove := totalSize_set v i (v.get j)
  have hsign := totalSize_set (v.set i (v.get j)) j (if negative then -1 else 1)
  have hsize : size (if negative then -1 else 1) = 1 := by cases negative <;> rfl
  have hplace : (v.set i (v.get j)).get j = v.get j := by
    rw [get_set, ite_self]
  rw [hplace, hsize] at hsign
  show totalSize ((v.set i (v.get j)).set j (if negative then -1 else 1)) + _ = _
  omega

theorem totalSize_putSigns (i : Nat) (draws : List (Fin 256 × Bool)) (v : Vector Coeff 256) :
    totalSize (putSigns i draws v) ≤ totalSize v + draws.length := by
  induction draws generalizing i v with
  | nil => simp [putSigns]
  | cons draw draws ih =>
    obtain ⟨j, negative⟩ := draw
    have hrest := ih (i + 1) (putSign v (Fin.ofNat 256 i) j negative)
    have hsign := totalSize_putSign v (Fin.ofNat 256 i) j negative
    rw [putSigns, List.length_cons]
    omega

theorem totalSize_challengePoly (draws : List (Fin 256 × Bool)) :
    totalSize (challengePoly draws).coeffs ≤ draws.length := by
  have hzero : totalSize Poly.zero.coeffs = 0 :=
    Finset.sum_eq_zero fun i _ => by rw [Poly.zero_apply]; rfl
  have h := totalSize_putSigns (256 - tau) draws Poly.zero.coeffs
  rw [hzero, Nat.zero_add] at h
  exact h

namespace HashSuite

variable {S : HashSuite}

theorem challengeOf_totalSize {hash : Bytes} {c : Poly} (h : S.challengeOf hash = some c) :
    totalSize c.coeffs ≤ 49 := by
  simp only [challengeOf, Option.map_eq_some_iff] at h
  obtain ⟨places, hplaces, rfl⟩ := h
  refine (totalSize_challengePoly _).trans ?_
  rw [List.length_zip, Xof.length_of_search hplaces]
  exact Nat.min_le_left ..

end HashSuite

/-! ## Polynomials and vectors -/

theorem Poly.ofList_forall {P : Coeff → Prop} {l : List Coeff} (hl : l.length = 256 ∧ ∀ c ∈ l, P c)
    (i : Fin 256) : P (Poly.ofList l i) := by
  have hi : i.val < l.length := by rw [hl.1]; exact i.isLt
  rw [Poly.ofList_apply, List.getD_eq_getElem _ _ hi]
  exact hl.2 _ (List.getElem_mem hi)

namespace HashSuite

variable {S : HashSuite}

theorem uniformPoly_bounds {rho : Octets seedBytes} {i j : UInt8} {p : NttPoly}
    (h : S.uniformPoly rho i j = some p) (k : Fin 256) :
    0 ≤ (p k).toInt ∧ (p k).toInt < 8380417 := by
  simp only [uniformPoly, Option.map_eq_some_iff] at h
  obtain ⟨l, hl, rfl⟩ := h
  exact Poly.ofList_forall (Xof.search_spec (fun _ => uniformCandidates_bounds) (by simp) hl) k

theorem secretPoly_inRange {seed : Octets longHashBytes} {nonce : Nat} {p : Poly}
    (h : S.secretPoly seed nonce = some p) : p.InRange (-4) 4 := by
  simp only [secretPoly, Option.map_eq_some_iff] at h
  obtain ⟨l, hl, rfl⟩ := h
  exact Poly.ofList_forall (P := fun c => -4 ≤ c.toInt ∧ c.toInt ≤ 4)
    (Xof.search_spec (fun _ => secretCandidates_bounds) (by simp) hl)

theorem secretVec_inRange {m : Nat} {seed : Octets longHashBytes} {first : Nat} {v : PolyVec m}
    (h : S.secretVec m seed first = some v) : v.InRange (-4) 4 := by
  intro i
  simp only [secretVec, Option.map_eq_some_iff] at h
  obtain ⟨polys, hpolys, rfl⟩ := h
  exact secretPoly_inRange (allSome_ofFn_eq_some.mp hpolys i)

theorem masks_apply (seed : Octets longHashBytes) (kappa : Nat) (i : Fin columns) :
    S.masks seed kappa i = S.maskPoly seed (columns * kappa + i.val) :=
  Vector.getElem_ofFn i.isLt

theorem maskNumber_lt {kappa : Nat} (hk : kappa < maxAttempts) (i : Fin columns) :
    columns * kappa + i.val < 65536 := by
  have hi : i.val < 5 := i.isLt
  have hk : kappa < 1000 := hk
  show 5 * kappa + i.val < 65536
  omega

theorem masks_within (seed : Octets longHashBytes) (kappa : Nat) :
    (S.masks seed kappa).Within 524288 := by
  intro i
  rw [masks_apply]
  exact (Poly.decodeZ_bounds _).within (by decide) (by decide)

theorem matrix_eq_some {rho : Octets seedBytes} {a : Matrix rows columns} :
    S.matrix rho = some a ↔ ∀ (i : Fin rows) (j : Fin columns),
      S.uniformPoly rho (UInt8.ofNat i.val) (UInt8.ofNat j.val) = some (a i j) := by
  simp only [matrix, Option.map_eq_some_iff]
  constructor
  · rintro ⟨entries, hentries, rfl⟩ i j
    exact allSome_ofFn_eq_some.mp (allSome_ofFn_eq_some.mp hentries i) j
  · intro h
    exact ⟨a.entries, allSome_ofFn_eq_some.mpr fun i => allSome_ofFn_eq_some.mpr (h i), rfl⟩

theorem matrix_within {rho : Octets seedBytes} {a : Matrix rows columns}
    (h : S.matrix rho = some a) : a.Within 8380416 := by
  intro i j k
  obtain ⟨h0, hq⟩ := uniformPoly_bounds (matrix_eq_some.mp h i j) k
  unfold size
  omega

/-- The public matrix of a seed: the samples are the values of its entries at the 256 points. -/
def ExpandsTo (S : HashSuite) (rho : Octets seedBytes) (A : Fin rows → Fin columns → Rq) : Prop :=
  ∀ i j, ∃ p, S.uniformPoly rho (UInt8.ofNat i.val) (UInt8.ofNat j.val) = some p ∧
    ∀ k : Fin 256, (A i j).eval (point k) = p.value k

theorem expandsTo_iff {rho : Octets seedBytes} {a : Matrix rows columns}
    (h : S.matrix rho = some a) {A : Fin rows → Fin columns → Rq} :
    S.ExpandsTo rho A ↔ A = a.elements := by
  have hentry := matrix_eq_some.mp h
  constructor
  · intro hA
    funext i j
    obtain ⟨p, hp, hval⟩ := hA i j
    rw [hentry i j] at hp
    cases hp
    exact NttPoly.eq_element hval
  · rintro rfl i j
    exact ⟨_, hentry i j, NttPoly.eval_element _⟩

theorem exists_matrix_iff {rho : Octets seedBytes} :
    (∃ a, S.matrix rho = some a) ↔ ∃ A, S.ExpandsTo rho A := by
  constructor
  · rintro ⟨a, ha⟩
    exact ⟨a.elements, (expandsTo_iff ha).mpr rfl⟩
  · rintro ⟨A, hA⟩
    choose p hp _ using hA
    refine ⟨⟨Vector.ofFn fun i => Vector.ofFn (p i)⟩, matrix_eq_some.mpr fun i j => ?_⟩
    rw [hp i j, Matrix.ofFn_apply]

theorem ExpandsTo.unique {rho : Octets seedBytes} {A B : Fin rows → Fin columns → Rq}
    (hA : S.ExpandsTo rho A) (hB : S.ExpandsTo rho B) : A = B := by
  obtain ⟨a, ha⟩ := exists_matrix_iff.mpr ⟨A, hA⟩
  rw [(expandsTo_iff ha).mp hA, (expandsTo_iff ha).mp hB]

/-! ## Streams of one byte -/

/-- A suite whose matrix and whose secrets are zero. -/
def zeros : HashSuite where
  g := Xof.constant matrixBlockBytes 0
  h := Xof.constant hashBlockBytes 0x44
  budget := 5

theorem search_zeros :
    zeros.g.search (fun _ => uniformCandidates) 256 zeros.budget [] 0 () =
        some (List.replicate 256 0) ∧
      zeros.h.search (fun _ => secretCandidates) 256 zeros.budget [] 0 () =
        some (List.replicate 256 0) := by
  decide +kernel

theorem ofList_zeros : Poly.ofList (List.replicate 256 0) = Poly.zero :=
  Poly.ext_toInt fun i => by
    rw [Poly.ofList_apply, List.getD_replicate (h := i.isLt), Poly.zero_apply]

theorem matrix_zeros (rho : Octets seedBytes) : zeros.matrix rho =
    some ⟨Vector.ofFn fun _ => Vector.ofFn fun _ => NttPoly.zero⟩ := by
  apply matrix_eq_some.mpr
  intro i j
  have h : zeros.uniformPoly rho (UInt8.ofNat i.val) (UInt8.ofNat j.val) =
      (zeros.g.search (fun _ => uniformCandidates) 256 zeros.budget [] 0 ()).map
        fun l => ⟨(Poly.ofList l).coeffs⟩ := rfl
  rw [h, search_zeros.1, Option.map_some, ofList_zeros, Matrix.ofFn_apply]
  rfl

theorem secretVec_zeros {m : Nat} (seed : Octets longHashBytes) (first : Nat) :
    zeros.secretVec m seed first = some PolyVec.zero := by
  have h : ∀ nonce, zeros.secretPoly seed nonce =
      (zeros.h.search (fun _ => secretCandidates) 256 zeros.budget [] 0 ()).map Poly.ofList :=
    fun _ => rfl
  have hall : allSome (Vector.ofFn fun i : Fin m => zeros.secretPoly seed (first + i.val)) =
      some (Vector.replicate m Poly.zero) :=
    allSome_ofFn_eq_some.mpr fun i => by
      rw [h, search_zeros.2, Option.map_some, ofList_zeros]
      exact congrArg some (PolyVec.zero_apply i).symm
  rw [secretVec, hall]
  rfl

theorem expandsTo_zeros (rho : Octets seedBytes) : zeros.ExpandsTo rho fun _ _ => 0 := by
  intro i j
  refine ⟨NttPoly.zero, ?_, fun k => ?_⟩
  · rw [matrix_eq_some.mp (matrix_zeros rho) i j, Matrix.ofFn_apply]
  · rw [Negacyclic.eval_zero, NttPoly.zero_spec.2]

theorem challengeOf_zeros : ∃ c, ∀ hash, zeros.challengeOf hash = some c := by
  have h : (zeros.h.search (fun k => placeCandidates (256 - tau + k)) tau zeros.budget [] 8
      ()).isSome = true := by
    decide +kernel
  obtain ⟨places, hplaces⟩ := Option.isSome_iff_exists.mp h
  refine ⟨challengePoly (places.zip (bitsOfBytes ((zeros.h.block ()).bytes.take 8))),
    fun hash => ?_⟩
  have hhash : zeros.challengeOf hash = (zeros.h.search
      (fun k => placeCandidates (256 - tau + k)) tau zeros.budget [] 8 ()).map fun places =>
        challengePoly (places.zip (bitsOfBytes ((zeros.h.block ()).bytes.take 8))) := rfl
  rw [hhash, hplaces, Option.map_some]

end HashSuite

/-! ## Products with a challenge -/

namespace Poly

/-- The coefficients as integers. -/
def integers (p : Poly) : Negacyclic ℤ := ⟨fun i => (p i).toInt⟩

theorem mapCoeff_integers (p : Poly) : p.integers.mapCoeff (Int.castRingHom Zq) = p.element := rfl

theorem within_of_totalSize {c : Poly} {w B : Nat} (h : totalSize c.coeffs ≤ w) (hw : w ≤ B) :
    c.Within B :=
  fun i => ((size_le_totalSize c.coeffs i).trans h).trans hw

theorem absResidue_mul_le {c s : Poly} {w B : Nat} (hc : totalSize c.coeffs ≤ w) (hs : s.Within B)
    (hwB : w * B ≤ 4190208) (k : Fin 256) :
    absResidue ((c.element * s.element).coeff k) ≤ w * B := by
  have hsum : ∑ i, (c.integers.coeff i).natAbs ≤ w := hc
  have hsize : ∀ j, (s.integers.coeff j).natAbs ≤ B := hs
  have hle : ((c.integers * s.integers).coeff k).natAbs ≤ w * B :=
    le_trans (Negacyclic.natAbs_coeff_mul_le c.integers hsize k) (Nat.mul_le_mul_right B hsum)
  -- The product over the integers is at most half of `q`, so it does not wrap around.
  rw [← mapCoeff_integers, ← mapCoeff_integers, ← Negacyclic.mapCoeff_mul,
    Negacyclic.coeff_mapCoeff]
  show absResidue (((c.integers * s.integers).coeff k : ℤ) : Zq) ≤ w * B
  rw [absResidue_intCast (by omega)]
  exact hle

end Poly

theorem HashSuite.challengeOf_within {S : HashSuite} {hash : Bytes} {c : Poly}
    (h : S.challengeOf hash = some c) : c.Within 8380416 :=
  Poly.within_of_totalSize (challengeOf_totalSize h) (by decide)

end MLDSA
