import MLDSA.Proofs.Completeness
import MLDSA.Proofs.Response

/-! # What the tests of an attempt rest on

A challenge times a secret is small whatever the attempt is, so one of the four tests never fails,
and another one keeps the commitment in its buckets. The key fact is that a coefficient of such a
product is a sum of 49 coefficients of the secret up to their signs, which is too small to wrap
around modulo `q`. -/

namespace MLDSA

open Coeff

variable {S : HashSuite} {hash : Bytes} {c : Poly}

/-! ## Products with a challenge -/

theorem PolyVec.maxNorm_timesChallenge {m B : Nat} {v : PolyVec m} (hc : totalSize c.coeffs ≤ 49)
    (hv : v.Within B) (hB : 49 * B ≤ 4190208) :
    maxNorm (v.toNtt.timesChallenge c.toNtt).elements ≤ 49 * B := by
  have hcin : c.Within 8380416 := Poly.within_of_totalSize hc (by decide)
  obtain ⟨hproduct, -⟩ := timesChallenge_spec hcin (hv.mono (show B ≤ 8380416 by omega))
  rw [hproduct, maxNorm_le_iff]
  exact fun i j => Poly.absResidue_mul_le hc (hv i) hB j

theorem SecretKey.maxNorm_products {sk : SecretKey} (h1 : sk.s1.InRange (-4) 4)
    (h2 : sk.s2.InRange (-4) 4) (h0 : sk.t0.InRange (-4095) 4096)
    (hc : S.challengeOf hash = some c) :
    maxNorm (sk.s1.toNtt.timesChallenge c.toNtt).elements ≤ 196 ∧
      maxNorm (sk.s2.toNtt.timesChallenge c.toNtt).elements ≤ 196 ∧
      maxNorm (sk.t0.toNtt.timesChallenge c.toNtt).elements ≤ 200704 := by
  have hsize := HashSuite.challengeOf_totalSize hc
  exact ⟨PolyVec.maxNorm_timesChallenge hsize (h1.within (B := 4) (by decide) (by decide))
      (by decide),
    PolyVec.maxNorm_timesChallenge hsize (h2.within (B := 4) (by decide) (by decide)) (by decide),
    PolyVec.maxNorm_timesChallenge hsize (h0.within (B := 4096) (by decide) (by decide))
      (by decide)⟩

theorem SecretKey.isBelow_ct0 {sk : SecretKey} (h0 : sk.t0.InRange (-4095) 4096)
    (hc : S.challengeOf hash = some c) :
    (sk.t0.toNtt.timesChallenge c.toNtt).isBelow (Int32.ofNat gamma2) = true := by
  have hin : sk.t0.Within 4096 := h0.within (by decide) (by decide)
  have hsize := HashSuite.challengeOf_totalSize hc
  have hwithin := (PolyVec.timesChallenge_spec (HashSuite.challengeOf_within hc)
    (hin.mono (show 4096 ≤ 8380416 by decide))).2
  rw [PolyVec.isBelow_iff hwithin (by decide) (by decide)]
  exact isBelow_of_maxNorm (PolyVec.maxNorm_timesChallenge hsize hin (by decide)) (by decide)

namespace ExpandedSecret

variable {sk : SecretKey} {k : ExpandedSecret} {mu seed : Octets longHashBytes} {kappa : Nat}

theorem attempt_ne_ct0Norm (h0 : sk.t0.InRange (-4095) 4096) (hk : ofKey S sk = some k) :
    k.attempt S mu seed kappa ≠ some (.error .ct0Norm) := by
  intro hattempt
  obtain ⟨c, hc, hrespond⟩ := attempt_eq_some.mp hattempt
  obtain ⟨a, -, rfl⟩ := Option.map_eq_some_iff.mp hk
  refine absurd hrespond (respond_ne_ct0Norm ?_)
  exact SecretKey.isBelow_ct0 h0 hc

end ExpandedSecret

theorem exists_attempt_zeros : ∃ secretKey sk k mu seed kappa s run,
    SecretKey.ofBytes secretKey = .ok sk ∧ ExpandedSecret.ofKey HashSuite.zeros sk = some k ∧
      k.attempt HashSuite.zeros mu seed kappa = some (.ok s) ∧
      (sign HashSuite.zeros secretKey [] [] (Octets.zero seedBytes)).run = some (.ok run) := by
  have hends := SecretKey.ofBytes_eq_ok.mpr ⟨_, rfl, SecretKey.decode?_ends⟩
  obtain ⟨run, sig, hsign, hsig⟩ := sign_of_decodes_zeros hends
    (show ([] : Bytes).length ≤ 255 by decide) [] (Octets.zero seedBytes)
  obtain ⟨sk, k, mu, run', hsk, hk, -, hrun, rfl⟩ := sign_eq_ok hsign
  obtain ⟨s, houtput, -⟩ := SigningRun.result_map_eq_ok.mp hsig
  exact ⟨_, sk, k, mu, _, _, s, _, hsk, hk, SigningRun.attempt_of_output hrun houtput, hsign⟩

/-- The bounds hold for each challenge of 49 signs, and then for each key that decodes. So no
attempt, and no run, ends because `c * t0` is too large. -/
theorem challenge_products_small :
    (∀ (m : Nat) (c : Poly) (v : PolyVec m) (B : Nat), c.IsChallenge → v.Within B →
      tau * B ≤ (modulus - 1) / 2 →
      maxNorm (v.toNtt.timesChallenge c.toNtt).elements ≤ tau * B) ∧
    ∀ S secretKey sk, SecretKey.ofBytes secretKey = .ok sk →
      (∀ hash c, S.challengeOf hash = some c →
        maxNorm (sk.s1.toNtt.timesChallenge c.toNtt).elements ≤ beta ∧
        maxNorm (sk.s2.toNtt.timesChallenge c.toNtt).elements ≤ beta ∧
        maxNorm (sk.t0.toNtt.timesChallenge c.toNtt).elements ≤ tau * 4096 ∧
        (sk.t0.toNtt.timesChallenge c.toNtt).isBelow (Int32.ofNat gamma2) = true) ∧
      (∀ k, ExpandedSecret.ofKey S sk = some k → ∀ mu seed kappa,
        k.attempt S mu seed kappa ≠ some (.error .ct0Norm)) ∧
      ∀ message context rnd run, (sign S secretKey message context rnd).run = some (.ok run) →
        .ct0Norm ∉ run.rejections := by
  refine ⟨fun m c v B hc hv hB => PolyVec.maxNorm_timesChallenge hc.totalSize_eq.le hv hB,
    fun S secretKey sk hsk => ?_⟩
  obtain ⟨o, -, hdecode⟩ := SecretKey.ofBytes_eq_ok.mp hsk
  obtain ⟨h1, h2, h0⟩ := SecretKey.decode?_bounds hdecode
  refine ⟨fun hash c hc => ?_, fun k hk mu seed kappa => ExpandedSecret.attempt_ne_ct0Norm h0 hk,
    fun message context rnd run hsign hrejected => ?_⟩
  · obtain ⟨hcs1, hcs2, hct0⟩ := SecretKey.maxNorm_products h1 h2 h0 hc
    exact ⟨hcs1, hcs2, hct0, SecretKey.isBelow_ct0 h0 hc⟩
  · obtain ⟨sk', k, mu, run', hsk', hk, -, hrun, rfl⟩ := sign_eq_ok hsign
    rw [hsk] at hsk'
    cases hsk'
    obtain ⟨i, hi⟩ := (SigningRun.exists_attempt hrun).1 _ hrejected
    exact ExpandedSecret.attempt_ne_ct0Norm h0 hk hi

theorem challenge_products_small_ends :
    (∃ c : Poly, c.IsChallenge ∧ maxNorm ((PolyVec.ofFn fun (_ : Fin rows) _ =>
      85514).toNtt.timesChallenge c.toNtt).elements ≤ 4190186) ∧
    (∃ k c, SecretKey.ofBytes SecretKey.ends.encode.bytes = .ok SecretKey.ends ∧
      HashSuite.zeros.challengeOf [] = some c ∧
      maxNorm (SecretKey.ends.s1.toNtt.timesChallenge c.toNtt).elements ≤ 196 ∧
      maxNorm (SecretKey.ends.s2.toNtt.timesChallenge c.toNtt).elements ≤ 196 ∧
      maxNorm (SecretKey.ends.t0.toNtt.timesChallenge c.toNtt).elements ≤ 200704 ∧
      ExpandedSecret.ofKey HashSuite.zeros SecretKey.ends = some k ∧
      k.attempt HashSuite.zeros (Octets.zero 64) (Octets.zero 64) 999 ≠
        some (.error .ct0Norm)) ∧
    ∃ secretKey sk run, SecretKey.ofBytes secretKey = .ok sk ∧
      (sign HashSuite.zeros secretKey [] [] (Octets.zero seedBytes)).run = some (.ok run) ∧
      .ct0Norm ∉ run.rejections := by
  obtain ⟨hvec, hkey⟩ := challenge_products_small
  have hc : (Poly.ofFn fun j => if j.val < 49 then -1 else 0).IsChallenge :=
    Poly.isChallenge_ofFn (by decide +kernel) (by decide +kernel)
  have hends : SecretKey.ofBytes SecretKey.ends.encode.bytes = .ok SecretKey.ends :=
    SecretKey.ofBytes_eq_ok.mpr ⟨_, rfl, SecretKey.decode?_ends⟩
  have hk := congrArg (Option.map fun a => ExpandedSecret.mk a SecretKey.ends.s1.toNtt
    SecretKey.ends.s2.toNtt SecretKey.ends.t0.toNtt) (HashSuite.matrix_zeros SecretKey.ends.rho)
  obtain ⟨c, hzeros⟩ := HashSuite.challengeOf_zeros
  obtain ⟨hproducts, hattempt, -⟩ := hkey HashSuite.zeros _ _ hends
  obtain ⟨h1, h2, h0, -⟩ := hproducts [] c (hzeros [])
  obtain ⟨secretKey, sk, _, _, _, _, _, run, hsk, -, -, hsign⟩ := exists_attempt_zeros
  refine ⟨⟨_, hc, hvec rows _ _ 85514 hc (fun i j => ?_) (by decide)⟩,
    ⟨_, c, hends, hzeros [], h1, h2, h0, hk, hattempt _ hk _ _ _⟩,
    secretKey, sk, run, hsk, hsign, (hkey _ _ _ hsk).2.2 _ _ _ _ hsign⟩
  rw [PolyVec.ofFn_apply]
  decide

/-! ## The commitment after the second test -/

namespace ExpandedSecret

variable {sk : SecretKey} {k : ExpandedSecret} {mu seed : Octets longHashBytes} {kappa : Nat}

theorem highBits_rest (h2 : sk.s2.InRange (-4) 4) (hk : ofKey S sk = some k)
    (hc : S.challengeOf hash = some c)
    (hlow : (k.rest (k.commitment S seed kappa) c.toNtt).lowBits.isBelow
      (Int32.ofNat (gamma2 - beta)) = true) :
    (k.rest (k.commitment S seed kappa) c.toNtt).highBits =
      (k.commitment S seed kappa).highBits := by
  obtain ⟨a, ha, rfl⟩ := Option.map_eq_some_iff.mp hk
  have hs2 : sk.s2.Within 4 := h2.within (by decide) (by decide)
  have hy := HashSuite.masks_within (S := S) seed kappa
  obtain ⟨-, hw⟩ := Matrix.product_spec (HashSuite.matrix_within ha) (hy.mono (by decide))
    (show columns ≤ 255 by decide)
  obtain ⟨hr, hrcanon⟩ := PolyVec.sub_timesChallenge_spec (HashSuite.challengeOf_within hc) hw
    (hs2.mono (by decide))
  have hbelow := (PolyVec.isBelow_lowBits_iff hrcanon (by decide)).mp hlow
  refine PolyVec.ext_apply fun i j => Int32.toInt.inj ?_
  have hij := hbelow i j
  rw [hr] at hij
  rw [rest, commitment, PolyVec.toInt_highBits hrcanon, PolyVec.toInt_highBits hw, hr]
  exact (highBits_sub hc (hs2 i) hij).symm

end ExpandedSecret

/-- The second test leaves the buckets of the commitment as they were hashed. -/
theorem low_bits_protect_commitment :
    (∀ w e : Coeff, 0 ≤ w.toInt → w.toInt < modulus → e.toInt.natAbs ≤ beta →
      (lowBits (canonical (w - e))).toInt.natAbs < gamma2 - beta →
      highBits (canonical (w - e)) = highBits w) ∧
    ∀ S secretKey sk k, SecretKey.ofBytes secretKey = .ok sk →
      ExpandedSecret.ofKey S sk = some k → ∀ mu seed kappa,
      (∀ c, S.challengeOf (k.commitHash S mu seed kappa).bytes = some c →
        (k.rest (k.commitment S seed kappa) c.toNtt).lowBits.isBelow
          (Int32.ofNat (gamma2 - beta)) = true →
        (k.rest (k.commitment S seed kappa) c.toNtt).highBits =
          (k.commitment S seed kappa).highBits) ∧
      ∀ outcome, k.attempt S mu seed kappa = some outcome → outcome ≠ .error .zNorm →
        outcome ≠ .error .lowBitsNorm →
        ∃ c, S.challengeOf (k.commitHash S mu seed kappa).bytes = some c ∧
          (k.rest (k.commitment S seed kappa) c.toNtt).highBits =
            (k.commitment S seed kappa).highBits ∧
          ∀ s, outcome = .ok s → s.challenge =
            S.challenge mu (k.rest (k.commitment S seed kappa) c.toNtt).highBits.encodeW1.bytes := by
  refine ⟨fun w e h0 hq he hlow => ?_, fun S secretKey sk k hsk hk mu seed kappa => ?_⟩
  · have hq' : w.toInt < 8380417 := hq
    have he' : e.toInt.natAbs ≤ 196 := he
    exact highBits_canonical_sub (toInt_eq_val h0 hq) (by constructor <;> omega) (by omega)
      ((absResidue_le_natAbs _).trans he) hlow
  obtain ⟨o, -, hdecode⟩ := SecretKey.ofBytes_eq_ok.mp hsk
  obtain ⟨-, h2, -⟩ := SecretKey.decode?_bounds hdecode
  refine ⟨fun c hc => ExpandedSecret.highBits_rest h2 hk hc, ?_⟩
  rintro outcome hattempt hz hr
  obtain ⟨c, hc, rfl⟩ := ExpandedSecret.attempt_eq_some.mp hattempt
  have hkeep := ExpandedSecret.highBits_rest h2 hk hc (ExpandedSecret.isBelow_lowBits_rest hz hr)
  refine ⟨c, hc, hkeep, fun s hs => ?_⟩
  rw [hkeep]
  exact (ExpandedSecret.respond_eq_ok hs).1

theorem low_bits_protect_commitment_ends :
    highBits (canonical (261887 - 196)) = highBits 261887 ∧
    highBits (canonical (261889 - -196)) = highBits 261889 ∧
    ∃ secretKey sk k mu seed kappa c s, SecretKey.ofBytes secretKey = .ok sk ∧
      ExpandedSecret.ofKey HashSuite.zeros sk = some k ∧
      k.attempt HashSuite.zeros mu seed kappa = some (.ok s) ∧
      HashSuite.zeros.challengeOf (k.commitHash HashSuite.zeros mu seed kappa).bytes = some c ∧
      (k.rest (k.commitment HashSuite.zeros seed kappa) c.toNtt).lowBits.isBelow
        (Int32.ofNat (gamma2 - beta)) = true ∧
      (k.rest (k.commitment HashSuite.zeros seed kappa) c.toNtt).highBits =
        (k.commitment HashSuite.zeros seed kappa).highBits ∧
      s.challenge = HashSuite.zeros.challenge mu
        (k.rest (k.commitment HashSuite.zeros seed kappa) c.toNtt).highBits.encodeW1.bytes := by
  obtain ⟨hword, hkey⟩ := low_bits_protect_commitment
  obtain ⟨secretKey, sk, k, mu, seed, kappa, s, -, hsk, hk, hattempt, -⟩ := exists_attempt_zeros
  obtain ⟨htest, houtcome⟩ := hkey _ _ _ _ hsk hk mu seed kappa
  obtain ⟨c, hc, hrespond⟩ := ExpandedSecret.attempt_eq_some.mp hattempt
  have hlow := ExpandedSecret.isBelow_lowBits_rest (by rw [hrespond]; nofun)
    (by rw [hrespond]; nofun)
  obtain ⟨c', hc', -, hhash⟩ := houtcome _ hattempt nofun nofun
  rw [hc] at hc'
  cases hc'
  exact ⟨hword 261887 196 (by decide) (by decide) (by decide) (by decide),
    hword 261889 (-196) (by decide) (by decide) (by decide) (by decide),
    secretKey, sk, k, mu, seed, kappa, c, s, hsk, hk, hattempt, hc, hlow, htest c hc hlow,
    hhash s rfl⟩

end MLDSA
