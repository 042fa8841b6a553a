import MLDSA.Proofs.Completeness
import MLDSA.Proofs.EntryPoints

/-! # What a signer releases

Whatever key has signed, a verifier finds nothing wrong with a signature before it compares hashes.
The key fact is that an attempt tests what it encodes: the norm is one of residues, so the centred
words that come back have it too, and the hints are counted before they are put in their slots. -/

namespace MLDSA

open Coeff

variable {S : HashSuite} {publicKey message context signature : Bytes}

/-! ## Signatures come back -/

theorem Signature.ofBytes_encode {s : Signature}
    (hz : s.z.isBelow (Int32.ofNat (gamma1 - beta)) = true) (hw : s.hints.weight ≤ omega) :
    (Signature.ofBytes s.encode.bytes).run =
      some (.ok { s with z := PolyVec.ofElements s.z.elements }) := by
  have hbelow : IsBelow (gamma1 - beta) s.z.elements := PolyVec.isBelow_elements (by decide) hz
  have hwords : ∀ (i : Fin columns) (j : Fin 256), (s.z i j).toInt ≤ 2143289343 := fun i j =>
    toInt_le_of_isBelow (by decide) ((PolyVec.isBelow_eq_true _).mp hz i j)
  have hdecode := decode?_encode hwords (PolyVec.inRange_ofElements hbelow (by decide)) hw
  have htest : (PolyVec.ofElements s.z.elements).isBelow (Int32.ofNat (gamma1 - beta)) = true := by
    rw [PolyVec.isBelow_iff (PolyVec.within_ofElements _) (by decide) (by decide),
      PolyVec.elements_ofElements]
    exact hbelow
  rcases ofBytes_of_decoder rfl s.encode.bytes with
    ⟨hlen, -⟩ | ⟨o, ho, ⟨hnone, -⟩ | ⟨d, hd, hrun⟩⟩
  · exact absurd s.encode.length_eq hlen
  · obtain rfl : s.encode = o := Octets.ext ho
    rw [hdecode] at hnone
    cases hnone
  · obtain rfl : s.encode = o := Octets.ext ho
    rw [hdecode] at hd
    cases hd
    rw [hrun, if_pos htest]

theorem ExpandedSecret.attempt_eq_ok {k : ExpandedSecret} {mu seed : Octets longHashBytes}
    {kappa : Nat} {s : Signature} (h : k.attempt S mu seed kappa = some (.ok s)) :
    s.z.isBelow (Int32.ofNat (gamma1 - beta)) = true ∧ s.hints.weight ≤ omega ∧
      ∃ c, S.challengeOf s.challenge.bytes = some c := by
  obtain ⟨c, hc, hrespond⟩ := attempt_eq_some.mp h
  obtain ⟨hchallenge, -, hz⟩ := respond_eq_ok hrespond
  exact ⟨hz, weight_of_respond hrespond, c, hchallenge ▸ hc⟩

/-! ## The last check -/

theorem verify_of_readable {s : Signature} (hs : (Signature.ofBytes signature).run = some (.ok s))
    (hc : ∃ c, S.challengeOf s.challenge.bytes = some c) (hctx : context.length ≤ 255)
    (hlen : publicKey.length = 1952) :
    (∀ r, (verify S publicKey message context signature).run = some (.error r) →
      r = .challengeMismatch) ∧
    ((verify S publicKey message context signature).run = none ↔
      ∀ rho A, rho.bytes = publicKey.take 32 → ¬ S.ExpandsTo rho A) := by
  have hnone : (∀ rho A, rho.bytes = publicKey.take 32 → ¬ S.ExpandsTo rho A) ↔
      ¬ ∃ k, (ExpandedKey.ofBytes S publicKey).run = some (.ok k) := by
    rw [ExpandedKey.exists_ofBytes_iff hlen]
    simp only [not_exists, not_and]
  rw [verify_of_le hctx, verifyFramed, run_bind_of_ok hs, hnone]
  cases hk : (ExpandedKey.ofBytes S publicKey).run with
  | none =>
    rw [run_bind_of_none hk]
    refine ⟨fun r h => ?_, iff_of_true rfl ?_⟩
    · cases h
    · rintro ⟨k, h⟩
      cases h
  | some answer =>
    cases answer with
    | error r => exact absurd hk (ExpandedKey.ofBytes_ne_error hlen r)
    | ok k =>
      rw [run_bind_of_ok hk]
      rcases k.check_cases S (S.representative k.tr (frame context message)) s with
        ⟨hmissing, -⟩ | ⟨c, -, hrun⟩
      · obtain ⟨c, hc⟩ := hc
        rw [hc] at hmissing
        cases hmissing
      · rw [hrun]
        split
        · simp
        · simp

/-! ## Signatures that are released -/

/-- A signature under a key that decodes, whether or not there is a public key for it, comes back as
that of the accepted attempt, with the response centred. So the only refusal is that of the hash. -/
theorem released_signature_valid {secretKey : Bytes} {rnd : Octets seedBytes}
    {run : SigningRun (Octets signatureBytes)} {sig : Octets signatureBytes}
    (hsign : (sign S secretKey message context rnd).run = some (.ok run))
    (hsig : run.result = .ok sig) :
    (∃ sk k mu s d, SecretKey.ofBytes secretKey = .ok sk ∧ ExpandedSecret.ofKey S sk = some k ∧
      mu = S.representative sk.tr (frame context message) ∧
      k.attempt S mu (S.maskSeed sk.key rnd mu) run.rejections.length = some (.ok s) ∧
      sig = s.encode ∧ (Signature.ofBytes sig.bytes).run = some (.ok d) ∧
      d.challenge = s.challenge ∧
      (∀ (i : Fin columns) (j : Fin 256), (d.z i j).toInt = centered modulus (s.z i j).toInt ∧
        (d.z i j).toInt.natAbs < gamma1 - beta) ∧
      d.hints = s.hints ∧ d.hints.weight ≤ omega) ∧
    ∀ publicKey message' context', publicKey.length = 1952 → context'.length ≤ 255 →
      (∀ r, (verify S publicKey message' context' sig.bytes).run = some (.error r) →
        r = .challengeMismatch) ∧
      ((verify S publicKey message' context' sig.bytes).run = none ↔
        ∀ rho A, rho.bytes = publicKey.take 32 → ¬ S.ExpandsTo rho A) := by
  obtain ⟨sk, k, mu, run', hsk, hk, hmu, hrun, rfl⟩ := sign_eq_ok hsign
  obtain ⟨s, houtput, rfl⟩ := SigningRun.result_map_eq_ok.mp hsig
  have hattempt := SigningRun.attempt_of_output hrun houtput
  obtain ⟨hz, hw, hc⟩ := ExpandedSecret.attempt_eq_ok hattempt
  have hread := Signature.ofBytes_encode hz hw
  refine ⟨⟨sk, k, mu, s, _, hsk, hk, hmu, hattempt, rfl, hread, rfl, fun i j => ?_, rfl, hw⟩,
    fun publicKey message' context' hlen hctx => verify_of_readable hread hc hctx hlen⟩
  have hword := PolyVec.toInt_ofElements_elements s.z i j
  refine ⟨hword, ?_⟩
  rw [hword]
  exact (absResidue_residue (s.z i j)).symm.trans_lt (PolyVec.isBelow_elements (by decide) hz i j)

theorem released_signature_valid_ends : ∃ run sig d,
    (∀ pk, ¬ Matching HashSuite.zeros SecretKey.ends pk) ∧
    (sign HashSuite.zeros SecretKey.ends.encode.bytes [7] [] (Octets.zero seedBytes)).run =
      some (.ok run) ∧ run.result = .ok sig ∧
    (Signature.ofBytes sig.bytes).run = some (.ok d) ∧ d.hints.weight ≤ omega ∧
    ∀ r, (verify HashSuite.zeros (Octets.zero publicKeyBytes).bytes [7] [] sig.bytes).run =
      some (.error r) → r = .challengeMismatch := by
  have hends : SecretKey.ofBytes SecretKey.ends.encode.bytes = .ok SecretKey.ends :=
    SecretKey.ofBytes_eq_ok.mpr ⟨_, rfl, SecretKey.decode?_ends⟩
  obtain ⟨run, sig, hsign, hsig⟩ := sign_of_decodes_zeros hends
    (show ([] : Bytes).length ≤ 255 by decide) [7] (Octets.zero seedBytes)
  obtain ⟨⟨-, -, -, s, d, -, -, -, -, -, hread, -, -, -, hw⟩, hverify⟩ :=
    released_signature_valid hsign hsig
  have hhash : (Octets.zero 64).bytes ≠ HashSuite.zeros.h.read 64 [] := by decide +kernel
  exact ⟨run, sig, d, fun pk hmatch => hhash hmatch.tr, hsign, hsig, hread, hw,
    (hverify _ [7] [] (Octets.length_eq _) (by decide)).1⟩

end MLDSA
