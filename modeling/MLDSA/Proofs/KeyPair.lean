import MLDSA.KeyPair
import MLDSA.Proofs.Sample
import MLDSA.Proofs.Ring.HintVec

/-! # Key pairs that match

The two keys of a seed carry one matrix and one vector `t = A * s1 + s2`, split without loss, and
both come back from their bytes. The key fact is that a canonical coefficient of `t` has a high part
of ten bits, the largest one too. -/

namespace MLDSA

open Coeff

/-- A secret key and the bytes of a public key that belong together: one seed of the matrix, the
hash of the bytes, and `A * s1 + s2 = t1 * 2^13 + t0`. -/
structure Matching (S : HashSuite) (sk : SecretKey) (publicKey : Octets publicKeyBytes) : Prop where
  rho : sk.rho = (PublicKey.decode publicKey).rho
  tr : sk.tr.bytes = S.h.read 64 publicKey.bytes
  identity : ∃ A, S.ExpandsTo sk.rho A ∧ ∀ i,
    Negacyclic.mulVec A sk.s1.elements i + sk.s2.elements i =
      (2 ^ 13 : Zq) • (PublicKey.decode publicKey).t1.elements i + sk.t0.elements i

theorem PolyVec.powerSplit_parts {m : Nat} {t : PolyVec m} (ht : t.IsCanonical) :
    (t.mapCoeffs fun r => (powerSplit r).high).InRange 0 1023 ∧
      (t.mapCoeffs fun r => (powerSplit r).low).InRange (-4095) 4096 ∧
      ∀ (i : Fin m) (j : Fin 256),
        (t.mapCoeffs (fun r => (powerSplit r).high) i j).toInt * 2 ^ 13 +
          (t.mapCoeffs (fun r => (powerSplit r).low) i j).toInt =
        ((t.elements i).coeff j).val := by
  have hparts := fun i j => powerSplit_bounds ((ht i).bounds j).1 ((ht i).bounds j).2
  refine ⟨fun i j => ?_, fun i j => ?_, fun i j => ?_⟩
  · rw [mapCoeffs_apply]
    exact (hparts i j).2.1
  · rw [mapCoeffs_apply]
    exact (hparts i j).2.2
  · rw [mapCoeffs_apply, mapCoeffs_apply]
    exact (hparts i j).1.trans (ht i j)

namespace KeyPair

variable {S : HashSuite} {xi : Octets seedBytes}

/-- The three seeds that a seed gives. -/
def seeds (S : HashSuite) (xi : Octets seedBytes) : Octets 128 :=
  S.digest 128 (xi.bytes ++ [UInt8.ofNat rows, UInt8.ofNat columns])

theorem matrixSeed_le : 0 + seedBytes ≤ 128 := by
  decide

theorem secretSeed_le : 32 + longHashBytes ≤ 128 := by
  decide

def matrixSeed (S : HashSuite) (xi : Octets seedBytes) : Octets seedBytes :=
  (seeds S xi).slice 0 seedBytes matrixSeed_le

def secretSeed (S : HashSuite) (xi : Octets seedBytes) : Octets longHashBytes :=
  (seeds S xi).slice 32 longHashBytes secretSeed_le

theorem ofSeed_eq_some {pair : KeyPair} : ofSeed S xi = some pair ↔
    ∃ a, S.matrix (matrixSeed S xi) = some a ∧
    ∃ s1, S.secretVec columns (secretSeed S xi) 0 = some s1 ∧
    ∃ s2, S.secretVec rows (secretSeed S xi) columns = some s2 ∧
    ∃ t, t = (a.product s1 + s2).canonical ∧
    ∃ pk : PublicKey, pk = ⟨matrixSeed S xi, t.mapCoeffs fun r => (powerSplit r).high⟩ ∧
      pair = ⟨⟨matrixSeed S xi, (seeds S xi).slice 96 seedBytes (by decide),
        S.keyHash pk.encode.bytes, s1, s2, t.mapCoeffs fun r => (powerSplit r).low⟩, pk⟩ := by
  simp only [ofSeed, Option.bind_eq_bind, Option.bind_eq_some_iff, Option.pure_def,
    Option.some.injEq]
  constructor
  · rintro ⟨a, ha, s1, hs1, s2, hs2, rfl⟩
    exact ⟨a, ha, s1, hs1, s2, hs2, _, rfl, _, rfl, rfl⟩
  · rintro ⟨a, ha, s1, hs1, s2, hs2, _, rfl, _, rfl, rfl⟩
    exact ⟨a, ha, s1, hs1, s2, hs2, rfl⟩

theorem ofSeed_parts {pair : KeyPair} (h : ofSeed S xi = some pair) :
    (pair.secretKey.s1.InRange (-4) 4 ∧ pair.secretKey.s2.InRange (-4) 4) ∧
      pair.secretKey.t0.InRange (-4095) 4096 ∧ pair.publicKey.t1.InRange 0 1023 ∧
      ∃ A, S.ExpandsTo pair.secretKey.rho A ∧ ∀ (i : Fin rows) (j : Fin 256),
        (pair.publicKey.t1 i j).toInt * 2 ^ 13 + (pair.secretKey.t0 i j).toInt =
          ((Negacyclic.mulVec A pair.secretKey.s1.elements i +
            pair.secretKey.s2.elements i).coeff j).val := by
  obtain ⟨a, ha, s1, hs1, s2, hs2, t, ht, pk, rfl, rfl⟩ := ofSeed_eq_some.mp h
  have hr1 := HashSuite.secretVec_inRange hs1
  have hr2 := HashSuite.secretVec_inRange hs2
  obtain ⟨hprod, hcanon⟩ := Matrix.product_spec (HashSuite.matrix_within ha)
    (hr1.within (B := 8380416) (by decide) (by decide)) (by decide)
  obtain ⟨hsum, hwithin⟩ := PolyVec.add_spec hcanon.within
    (hr2.within (B := 4) (by decide) (by decide)) (by decide)
  obtain ⟨helements, htcanon⟩ := PolyVec.canonical_spec hwithin (by decide)
  rw [← ht] at helements htcanon
  obtain ⟨hhigh, hlow, hval⟩ := PolyVec.powerSplit_parts htcanon
  refine ⟨⟨hr1, hr2⟩, hlow, hhigh, a.elements, (HashSuite.expandsTo_iff ha).mpr rfl, fun i j => ?_⟩
  rw [hval, helements, hsum, hprod]
  rfl

theorem ofSeed_decode {pair : KeyPair} (h : ofSeed S xi = some pair) :
    PublicKey.decode pair.publicKey.encode = pair.publicKey ∧
      SecretKey.decode? pair.secretKey.encode = some pair.secretKey := by
  obtain ⟨⟨h1, h2⟩, h0, ht1, -⟩ := ofSeed_parts h
  exact ⟨PublicKey.decode_encode ht1, SecretKey.decode?_encode h1 h2 h0⟩

theorem coeff_of_parts {t : Rq} {t1 t0 : Poly} (h : ∀ j : Fin 256,
    (t1 j).toInt * 2 ^ 13 + (t0 j).toInt = (t.coeff j).val) :
    t = (2 ^ 13 : Zq) • t1.element + t0.element := by
  ext j
  have hcast := congrArg (Int.cast : Int → Zq) (h j)
  push_cast at hcast
  rw [ZMod.natCast_zmod_val] at hcast
  rw [Negacyclic.coeff_add, Negacyclic.coeff_smul, ← hcast, mul_comm]
  rfl

theorem ofSeed_matching {pair : KeyPair} (h : ofSeed S xi = some pair) :
    Matching S pair.secretKey pair.publicKey.encode := by
  obtain ⟨-, -, -, A, hA, hval⟩ := ofSeed_parts h
  obtain ⟨hdecode, -⟩ := ofSeed_decode h
  obtain ⟨a, -, s1, -, s2, -, t, -, pk, rfl, rfl⟩ := ofSeed_eq_some.mp h
  refine ⟨?_, rfl, A, hA, fun i => ?_⟩
  · rw [hdecode]
  · rw [hdecode]
    exact coeff_of_parts (hval i)

/-- If the samples of a seed are found, there is a pair. Both keys come back from their bytes, all
coefficients are in range, and `t1 * 2^13 + t0` is the canonical residue of `A * s1 + s2`. -/
theorem ofSeed_well_formed {A : Fin rows → Fin columns → Rq} {s1 : PolyVec columns}
    {s2 : PolyVec rows} (hA : S.ExpandsTo (matrixSeed S xi) A)
    (h1 : S.secretVec columns (secretSeed S xi) 0 = some s1)
    (h2 : S.secretVec rows (secretSeed S xi) columns = some s2) :
    ∃ sk pk, ofSeed S xi = some ⟨sk, pk⟩ ∧
      PublicKey.ofBytes? pk.encode.bytes = some pk ∧
      SecretKey.ofBytes sk.encode.bytes = .ok sk ∧
      sk.rho = matrixSeed S xi ∧ pk.rho = sk.rho ∧
      sk.tr.bytes = S.h.read 64 pk.encode.bytes ∧
      (sk.s1 = s1 ∧ s1.InRange (-4) 4) ∧ (sk.s2 = s2 ∧ s2.InRange (-4) 4) ∧
      sk.t0.InRange (-4095) 4096 ∧ pk.t1.InRange 0 1023 ∧
      (∀ i, Negacyclic.mulVec A s1.elements i + s2.elements i =
        (2 ^ 13 : Zq) • pk.t1.elements i + sk.t0.elements i) ∧
      ∀ (i : Fin rows) (j : Fin 256),
        (pk.t1 i j).toInt * 2 ^ 13 + (sk.t0 i j).toInt =
          ((Negacyclic.mulVec A s1.elements i + s2.elements i).coeff j).val := by
  obtain ⟨a, ha⟩ := HashSuite.exists_matrix_iff.mpr ⟨A, hA⟩
  obtain ⟨pair, hpair⟩ : ∃ pair, ofSeed S xi = some pair :=
    ⟨_, ofSeed_eq_some.mpr ⟨a, ha, s1, h1, s2, h2, _, rfl, _, rfl, rfl⟩⟩
  have hfields : pair.secretKey.rho = matrixSeed S xi ∧ pair.publicKey.rho = matrixSeed S xi ∧
      pair.secretKey.s1 = s1 ∧ pair.secretKey.s2 = s2 := by
    obtain ⟨_, -, _, h1', _, h2', _, -, _, rfl, rfl⟩ := ofSeed_eq_some.mp hpair
    exact ⟨rfl, rfl, Option.some.inj (h1'.symm.trans h1), Option.some.inj (h2'.symm.trans h2)⟩
  obtain ⟨hdecodePk, hdecodeSk⟩ := ofSeed_decode hpair
  obtain ⟨⟨hr1, hr2⟩, hr0, hrt, A', hA', hval⟩ := ofSeed_parts hpair
  have htr := (ofSeed_matching hpair).tr
  obtain ⟨sk, pk⟩ := pair
  obtain ⟨hrho, hrho', rfl, rfl⟩ := hfields
  have hAA : A' = A := by
    rw [hrho] at hA'
    exact hA'.unique hA
  subst hAA
  refine ⟨sk, pk, hpair, ?_, ?_, hrho, hrho'.trans hrho.symm, htr, ⟨rfl, hr1⟩, ⟨rfl, hr2⟩, hr0, hrt,
    fun i => coeff_of_parts (hval i), hval⟩
  · rw [PublicKey.ofBytes?_bytes, hdecodePk]
  · exact SecretKey.ofBytes_eq_ok.mpr ⟨_, rfl, hdecodeSk⟩

theorem ofSeed_zeros : ∃ sk pk, ofSeed HashSuite.zeros (Octets.zero seedBytes) = some ⟨sk, pk⟩ ∧
    SecretKey.ofBytes sk.encode.bytes = .ok sk ∧ PublicKey.ofBytes? pk.encode.bytes = some pk := by
  obtain ⟨A, hA⟩ := HashSuite.exists_matrix_iff.mp
    ⟨_, HashSuite.matrix_zeros (matrixSeed HashSuite.zeros (Octets.zero seedBytes))⟩
  obtain ⟨sk, pk, hpair, hpk, hsk, -⟩ := ofSeed_well_formed hA
    (HashSuite.secretVec_zeros _ _) (HashSuite.secretVec_zeros _ _)
  exact ⟨sk, pk, hpair, hsk, hpk⟩

end KeyPair

end MLDSA
