import MLDSA.Proofs.Signing

/-! # What a response tells of the secret

The response of an attempt is the masks plus `c * s1`. For each response that passes the test, and
each secret, there is one string of mask bytes that gives it, so that a response that is released
says nothing about the secret. The key fact is that `c * s1` has coefficients of at most 196, which
is by how much the test is below the range of the masks. -/

namespace MLDSA

open Coeff

/-! ## Challenges -/

/-- 49 signs, and zero elsewhere. -/
def Poly.IsChallenge (c : Poly) : Prop :=
  (∀ j : Fin 256, c j = 0 ∨ c j = 1 ∨ c j = -1) ∧
    (Finset.univ.filter fun j : Fin 256 => c j ≠ 0).card = tau

theorem Poly.totalSize_eq_card {c : Poly} (hc : ∀ j : Fin 256, c j = 0 ∨ c j = 1 ∨ c j = -1) :
    totalSize c.coeffs = (Finset.univ.filter fun j : Fin 256 => c j ≠ 0).card := by
  have hsize : ∀ j : Fin 256, size (c j) = if c j ≠ 0 then 1 else 0 := by
    intro j
    rcases hc j with h | h | h
    · rw [h]; rfl
    · rw [h]; rfl
    · rw [h]; rfl
  rw [Finset.card_filter]
  exact Finset.sum_congr rfl fun j _ => hsize j

theorem Poly.IsChallenge.totalSize_eq {c : Poly} (hc : c.IsChallenge) :
    totalSize c.coeffs = 49 :=
  (totalSize_eq_card hc.1).trans hc.2

theorem Poly.isChallenge_ofFn {f : Fin 256 → Coeff} (hf : ∀ j, f j = 0 ∨ f j = 1 ∨ f j = -1)
    (hcard : (Finset.univ.filter fun j => f j ≠ 0).card = tau) : (ofFn f).IsChallenge := by
  unfold IsChallenge
  simp only [ofFn_apply]
  exact ⟨hf, hcard⟩

/-! ## Masks as bytes -/

theorem PolyVec.elements_decodeZ_iff {m : Nat} {b : Octets (m * zBytes)} {y : Fin m → Rq}
    (hy : IsBelow 524288 y) :
    (decodeZ b).elements = y ↔ b = (ofElements y).encodeZ := by
  constructor
  · rintro rfl
    rw [ofElements_elements ((decodeZ_within b).mono (by decide)), encodeZ_decodeZ]
  · rintro rfl
    rw [decodeZ_encodeZ fun i => (within_ofElements y i).toInt_le (by decide)]
    · rw [elements_ofElements, elements_ofElements]
    · rw [elements_ofElements]
      exact inRange_ofElements hy (by decide)

/-- The response that a string of mask bytes gives, as an attempt computes it. -/
def maskedResponse (c : Poly) (s1 : PolyVec columns) (masks : Octets (columns * zBytes)) :
    PolyVec columns :=
  (PolyVec.decodeZ masks + s1.toNtt.timesChallenge c.toNtt).reduce

def HashSuite.maskBytes (S : HashSuite) (seed : Octets longHashBytes) (kappa : Nat) :
    Octets (columns * zBytes) :=
  Octets.join (Vector.ofFn fun i : Fin columns =>
    S.digest zBytes (numbered seed (columns * kappa + i.val)))

theorem HashSuite.masks_eq_decodeZ (S : HashSuite) (seed : Octets longHashBytes) (kappa : Nat) :
    S.masks seed kappa = PolyVec.decodeZ (S.maskBytes seed kappa) := by
  refine congrArg PolyVec.mk (Vector.ext fun i hi => ?_)
  rw [maskBytes, Octets.pieces_join, Vector.getElem_map, Vector.getElem_ofFn, Vector.getElem_ofFn]
  rfl

theorem ExpandedSecret.attempt_response {S : HashSuite} {k : ExpandedSecret} {s1 : PolyVec columns}
    {mu seed : Octets longHashBytes} {kappa : Nat} {s : Signature} (hk : k.s1 = s1.toNtt)
    (h : k.attempt S mu seed kappa = some (.ok s)) :
    ∃ c, S.challengeOf s.challenge.bytes = some c ∧
      s.z = maskedResponse c s1 (S.maskBytes seed kappa) ∧
      s.z.isBelow (Int32.ofNat (gamma1 - beta)) = true := by
  obtain ⟨c, hc, hrespond⟩ := attempt_eq_some.mp h
  obtain ⟨hchallenge, hz, hbelow⟩ := respond_eq_ok hrespond
  refine ⟨c, by rw [hchallenge, hc], ?_, hbelow⟩
  rw [hz, hk, HashSuite.masks_eq_decodeZ]
  rfl

/-! ## One string for each response -/

section

variable {c : Poly} {s1 s1' : PolyVec columns} {b : Octets (columns * zBytes)}

theorem elements_maskedResponse (hc : c.Within 8380416) (hs1 : s1.Within 8380416) :
    (maskedResponse c s1 b).elements =
      fun i => (PolyVec.decodeZ b).elements i + c.element * s1.elements i :=
  (PolyVec.add_timesChallenge_spec hc (PolyVec.decodeZ_within b) hs1).1

theorem isBelow_sub_product (hc : c.IsChallenge) (hs1 : s1.Within 4) {z : Fin columns → Rq}
    (hz : IsBelow (gamma1 - beta) z) :
    IsBelow 524288 fun i => z i - c.element * s1.elements i := by
  intro i j
  have hresponse : absResidue ((z i).coeff j) < 524092 := hz i j
  have hproduct := Poly.absResidue_mul_le hc.totalSize_eq.le (hs1 i) (by decide) j
  have hdiff := absResidue_sub_le ((z i).coeff j) ((c.element * s1.elements i).coeff j)
  -- Together they are less than `524092 + 196`, and the masks begin at `-524287`.
  rw [Negacyclic.coeff_sub]
  unfold PolyVec.elements at hdiff ⊢
  omega

theorem maskedResponse_eq_iff (hc : c.IsChallenge) (hs1 : s1.InRange (-4) 4)
    {z : Fin columns → Rq} (hz : IsBelow (gamma1 - beta) z) :
    (maskedResponse c s1 b).elements = z ↔
      b = (PolyVec.ofElements fun i => z i - c.element * s1.elements i).encodeZ := by
  have hcin : c.Within 8380416 := Poly.within_of_totalSize hc.totalSize_eq.le (by decide)
  have hs1in : s1.Within 4 := hs1.within (by decide) (by decide)
  rw [elements_maskedResponse hcin (hs1in.mono (by decide)),
    ← PolyVec.elements_decodeZ_iff (isBelow_sub_product hc hs1in hz), funext_iff, funext_iff]
  exact forall_congr' fun i => eq_sub_iff_add_eq.symm

/-- A response that passes comes from one string of mask bytes, whatever the secret is. It is the
masks plus `c * s1`, and each attempt that passes has released such a one. -/
theorem response_independent (hc : c.IsChallenge) (hs1 : s1.InRange (-4) 4)
    (hs1' : s1'.InRange (-4) 4) {z : PolyVec columns}
    (hz : z.isBelow (Int32.ofNat (gamma1 - beta)) = true) :
    (∃! b, (maskedResponse c s1 b).elements = z.elements) ∧
    {b | (maskedResponse c s1 b).elements = z.elements}.ncard = 1 ∧
    {b | (maskedResponse c s1' b).elements = z.elements}.ncard = 1 ∧
    (∀ b, (maskedResponse c s1 b).elements =
      fun i => (PolyVec.decodeZ b).elements i + c.element * s1.elements i) ∧
    ∀ (S : HashSuite) (k : ExpandedSecret) (mu seed : Octets longHashBytes) (kappa : Nat)
      (s : Signature), k.s1 = s1.toNtt → k.attempt S mu seed kappa = some (.ok s) →
      ∃ c', S.challengeOf s.challenge.bytes = some c' ∧
        s.z = maskedResponse c' s1 (S.maskBytes seed kappa) ∧
        s.z.isBelow (Int32.ofNat (gamma1 - beta)) = true := by
  have hcin : c.Within 8380416 := Poly.within_of_totalSize hc.totalSize_eq.le (by decide)
  have hs1in : s1.Within 8380416 := hs1.within (by decide) (by decide)
  have hbelow := PolyVec.isBelow_elements (by decide) hz
  have hcount : ∀ s : PolyVec columns, s.InRange (-4) 4 →
      {b | (maskedResponse c s b).elements = z.elements}.ncard = 1 := by
    intro s hs
    simp only [maskedResponse_eq_iff hc hs hbelow, Set.ofPred_eq_eq_singleton, Set.ncard_singleton]
  refine ⟨⟨_, (maskedResponse_eq_iff hc hs1 hbelow).mpr rfl, fun b hb => ?_⟩, hcount s1 hs1,
    hcount s1' hs1', fun b => elements_maskedResponse hcin hs1in,
    fun S k mu seed kappa s hk h => ExpandedSecret.attempt_response hk h⟩
  exact (maskedResponse_eq_iff hc hs1 hbelow).mp hb

theorem response_independent_largest : ∃ c : Poly, c.IsChallenge ∧
    (∃! b, (maskedResponse c (PolyVec.ofFn fun _ _ => 4) b).elements =
      (PolyVec.ofFn fun _ _ => 524091).elements) ∧
    {b | (maskedResponse c (PolyVec.ofFn fun _ _ => 4) b).elements =
      (PolyVec.ofFn fun _ _ => 524091).elements}.ncard = 1 ∧
    {b | (maskedResponse c (PolyVec.ofFn fun _ _ => -4) b).elements =
      (PolyVec.ofFn fun _ _ => 524091).elements}.ncard = 1 ∧
    ∀ b, (maskedResponse c (PolyVec.ofFn fun _ _ => 4) b).elements = fun i =>
      (PolyVec.decodeZ b).elements i +
        c.element * (PolyVec.ofFn fun (_ : Fin columns) _ => 4).elements i := by
  have hc : (Poly.ofFn fun j => if j.val < 49 then 1 else 0).IsChallenge := by
    refine ⟨fun j => ?_, ?_⟩
    · rw [Poly.ofFn_apply]
      split
      · exact .inr (.inl rfl)
      · exact .inl rfl
    · simp only [Poly.ofFn_apply]
      decide +kernel
  have hlow := PolyVec.inRange_ofFn (m := columns) (-4) (show (-4 : Int) ≤ _ by decide)
    (show _ ≤ (4 : Int) by decide)
  have hhigh := PolyVec.inRange_ofFn (m := columns) 4 (show (-4 : Int) ≤ _ by decide)
    (show _ ≤ (4 : Int) by decide)
  have hz : (PolyVec.ofFn fun (_ : Fin columns) _ => 524091).isBelow
      (Int32.ofNat (gamma1 - beta)) = true := by
    rw [PolyVec.isBelow_eq_true]
    intro i j
    rw [PolyVec.ofFn_apply]
    decide
  obtain ⟨hone, hcount, hcount', hring, -⟩ := response_independent hc hhigh hlow hz
  exact ⟨_, hc, hone, hcount, hcount', hring⟩

end

end MLDSA
