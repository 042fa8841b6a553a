import MLDSA.Proofs.KeyPair
import MLDSA.Proofs.Signing
import MLDSA.Proofs.Verification

/-! # What is signed verifies

A signature under a secret key passes all checks under a public key that matches. The key fact is
that `A * z - c * t1 * 2^13` is `w - c * s2 + c * t0`: the first error stays in the bucket because
the low part was tested, and the hints take the second one back. -/

namespace MLDSA

open Coeff Schoolbook

/-! ## The commitment comes back -/

theorem recommit_eq {A : Fin rows → Fin columns → Rq} {s1 y : Fin columns → Rq}
    {s2 t1 t0 : Fin rows → Rq} (c : Rq)
    (h : ∀ i, Negacyclic.mulVec A s1 i + s2 i = (2 ^ 13 : Zq) • t1 i + t0 i) (i : Fin rows) :
    Negacyclic.mulVec A (fun j => y j + c * s1 j) i - c * ((2 ^ 13 : Zq) • t1 i) =
      Negacyclic.mulVec A y i - c * s2 i + c * t0 i := by
  apply Negacyclic.ext_eval
  intro k
  have hk := congrArg (Negacyclic.eval (point k)) (h i)
  simp only [Negacyclic.eval_add, Negacyclic.eval_sub, Negacyclic.eval_smul,
    Negacyclic.eval_mul (point_pow k), Negacyclic.eval_mulVec (point_pow k)] at hk ⊢
  have hsum : ∑ j, (A i j).eval (point k) * ((y j).eval (point k) +
      c.eval (point k) * (s1 j).eval (point k)) =
      ∑ j, (A i j).eval (point k) * (y j).eval (point k) +
        c.eval (point k) * ∑ j, (A i j).eval (point k) * (s1 j).eval (point k) := by
    rw [Finset.mul_sum, ← Finset.sum_add_distrib]
    exact Finset.sum_congr rfl fun j _ => by ring
  rw [hsum]
  linear_combination c.eval (point k) * hk

theorem highBits_sub {S : HashSuite} {hash : Bytes} {c s2 : Poly} {w : Rq}
    (hc : S.challengeOf hash = some c) (hs2 : s2.Within 4) {j : Fin 256}
    (hlow : (lowBits ((w - c.element * s2.element).coeff j)).natAbs < gamma2 - beta) :
    highBits (w.coeff j) = highBits ((w - c.element * s2.element).coeff j) := by
  have hsmall := Poly.absResidue_mul_le (HashSuite.challengeOf_totalSize hc) hs2 (by decide) j
  rw [Negacyclic.coeff_sub] at hlow ⊢
  exact (highBits_sub_of_lowBits _ _ hsmall hlow).symm

theorem recommit_ofMoves {S : HashSuite} {hash : Bytes} {A : Fin rows → Fin columns → Rq}
    {s1 y : Fin columns → Rq} {s2 : PolyVec rows} {t1 t0 r u : Fin rows → Rq} {c : Poly}
    (hc : S.challengeOf hash = some c) (hs2 : s2.Within 4)
    (h : ∀ i, Negacyclic.mulVec A s1 i + s2.elements i = (2 ^ 13 : Zq) • t1 i + t0 i)
    (hr : r = fun i => Negacyclic.mulVec A y i - c.element * s2.elements i)
    (hu : u = fun i => c.element * t0 i) (hlow : LowBitsBelow (gamma2 - beta) r)
    (hbelow : IsBelow gamma2 u) :
    recommit A (fun j => y j + c.element * s1 j) c.element t1 (HintVec.ofMoves (r + u) r) =
      fun i j => highBits ((Negacyclic.mulVec A y i).coeff j) := by
  funext i j
  have hsum : Negacyclic.mulVec A (fun j => y j + c.element * s1 j) i -
      c.element * ((2 ^ 13 : Zq) • t1 i) = r i + u i := by
    rw [recommit_eq c.element h, hr, hu]
  have hu' : absResidue ((u i).coeff j) ≤ 261888 := Nat.le_of_lt (hbelow i j)
  have hr' := hlow i j
  -- The hint takes back `c * t0`, and the test of the low part leaves room for `c * s2`.
  rw [recommit, hsum, HintVec.ofMoves_apply, Pi.add_apply, Negacyclic.coeff_add,
    useHint_add _ _ hu']
  rw [hr] at hr' ⊢
  exact (highBits_sub hc (hs2 i) hr').symm

/-! ## The signature comes back -/

theorem verify_of_attempt {S : HashSuite} {o : Octets secretKeyBytes} {sk : SecretKey}
    {pk : Octets publicKeyBytes} {message context : Bytes} {rnd : Octets seedBytes}
    {A : Fin rows → Fin columns → Rq} {kappa : Nat} {s : Signature}
    (hsk : SecretKey.decode? o = some sk) (hmatch : Matching S sk pk)
    (hA : S.ExpandsTo sk.rho A) (hctx : context.length ≤ 255)
    (hs : attempts S A o.bytes message context rnd kappa = some (.ok s)) :
    (verify S pk.bytes message context s.encode.bytes).run = some (.ok ()) := by
  obtain ⟨-, -, -, -, -, htr⟩ := SecretKey.decode?_eq_some hsk
  obtain ⟨h1, h2, h0⟩ := SecretKey.decode?_bounds hsk
  obtain ⟨hs1, hs2, ht0⟩ := SecretKey.elements_of_decode? hsk
  obtain ⟨A', hA', hidentity⟩ := hmatch.identity
  obtain rfl := hA'.unique hA
  unfold attempts at hs
  rw [← hs1, ← hs2, ← ht0, ← htr, hmatch.tr] at hs
  obtain ⟨y, w, c, -, hw, hc, hanswer⟩ := attempt_eq_ok.mp hs
  obtain ⟨hz, hlow, hbelow, hmoves, rfl⟩ := answer_eq_ok.mp hanswer
  obtain ⟨hwf, hread⟩ := Signature.read_encode (challengeHash S _ w) hz
    ((HintVec.weight_ofMoves _ _).le.trans hmoves)
  generalize hsig : Signature.encode _ = sig at hwf hread ⊢
  have hbelowz := Signature.responseBelow_of_read hz (congrArg Signature.z hread)
  have hresponse := PolyVec.elements_eq (Signature.toInt_read (b := sig))
  rw [hread, PolyVec.elements_ofElements] at hresponse
  have hhints : HintVec.ofListed (sig.bytes.drop 3248) = _ := congrArg Signature.hints hread
  have hchallenge : sig.bytes.take 48 = _ := congrArg (fun s => s.challenge.bytes) hread
  refine verify_of_checks hctx sig.length_eq hwf hbelowz pk.length_eq
    ⟨sk.rho, _, c, congrArg Octets.bytes hmatch.rho, hA, hchallenge ▸ hc, ?_⟩
  rw [← hresponse, hhints, hchallenge, ← PolyVec.elements_eq PublicKey.toInt_decode,
    recommit_ofMoves hc (h2.within (by decide) (by decide)) hidentity (hw ▸ rfl) rfl hlow hbelow]
  rw [hw]
  rfl

/-! ## Messages -/

theorem verify_of_sign {S : HashSuite} {secretKey message context : Bytes} {sk : SecretKey}
    {pk : Octets publicKeyBytes} {rnd : Octets seedBytes}
    {run : SigningRun (Octets signatureBytes)} {sig : Octets signatureBytes}
    (hsk : SecretKey.ofBytes secretKey = .ok sk) (hmatch : Matching S sk pk)
    (hsign : (sign S secretKey message context rnd).run = some (.ok run))
    (hsig : run.result = .ok sig) :
    (verify S pk.bytes message context sig.bytes).run = some (.ok ()) := by
  obtain ⟨o, rfl, hdecode⟩ := SecretKey.ofBytes_eq_ok.mp hsk
  rcases sign_cases S o.bytes message context rnd with
    ⟨e, he, hrun⟩ | ⟨hfit, rho, hrho, ⟨ha, hrun⟩ | ⟨a, ha, hrun⟩⟩
  · rw [hsign] at hrun
    cases hrun
  · rw [hsign] at hrun
    cases hrun
  obtain ⟨-, -, -, hrho', -⟩ := SecretKey.decode?_eq_some hdecode
  obtain rfl : sk.rho = rho := Octets.ext (hrho'.trans hrho.symm)
  rw [hsign, eq_comm, Option.map_eq_some_iff] at hrun
  obtain ⟨run', hloop, heq⟩ := hrun
  cases heq
  rcases SigningRun.loop_iff.mpr hloop with
    ⟨kappa, -, reason, s, -, hs, -, hresult, -⟩ | ⟨reason, -, -, hresult, -⟩
  · rw [hsig] at hresult
    cases hresult
    exact verify_of_attempt hdecode hmatch ((HashSuite.expandsTo_iff ha).mpr rfl) hfit.1 hs
  · rw [hsig] at hresult
    cases hresult

/-! ## A suite of constant streams -/

theorem masks_zeros (seed : Bytes) (kappa : Nat) (i : Fin columns) (j : Fin 256) :
    masks HashSuite.zeros seed kappa i j = 244668 := by
  have hstream : unpackBits 20 (HashSuite.zeros.h.read 640 (seed ++ bytes16 (5 * kappa + i))) =
      List.replicate 256 279620 := by
    show unpackBits 20 (HashSuite.zeros.h.read 640 []) = List.replicate 256 279620
    decide +kernel
  rw [masks, hstream, List.getD_replicate (h := j.isLt)]
  rfl

theorem answer_of_small {z : Fin columns → Rq} {r u : Fin rows → Rq}
    (challenge : Octets challengeBytes) (hz : IsBelow (gamma1 - beta) z)
    (hr : ∀ i j, absResidue ((r i).coeff j) ≤ 196)
    (hu : ∀ i j, absResidue ((u i).coeff j) ≤ 200704) : ∃ s, answer challenge z r u = .ok s := by
  have hlow : ∀ i j, (lowBits ((r i).coeff j)).natAbs ≤ 196 := by
    intro i j
    rw [natAbs_lowBits ((hr i j).trans (by decide))]
    exact hr i j
  have hstay : ∀ i j, highBits (((r + u) i).coeff j) = highBits ((r i).coeff j) := by
    intro i j
    have hi := hlow i j
    have hj := hu i j
    exact highBits_add _ _ (by omega)
  refine ⟨_, answer_eq_ok.mpr ⟨hz, fun i j => (hlow i j).trans_lt (by decide),
    fun i j => (hu i j).trans_lt (by decide), ?_, rfl⟩⟩
  simp only [moves, hstay, ne_eq, not_true_eq_false, Finset.filter_false, Finset.card_empty]
  exact Nat.zero_le _

theorem attempt_zeros {s1 : PolyVec columns} {s2 t0 : PolyVec rows} (h1 : s1.Within 4)
    (h2 : s2.Within 4) (h0 : t0.Within 4096) (mu seed : Bytes) :
    ∃ s, attempt HashSuite.zeros ⟨fun _ _ => 0, s1.elements, s2.elements, t0.elements⟩ mu seed 0 =
      some (.ok s) := by
  obtain ⟨c, hc⟩ := HashSuite.challengeOf_zeros
  have hsize := HashSuite.challengeOf_totalSize (hc [])
  have hz : IsBelow (gamma1 - beta)
      fun j => elements (masks HashSuite.zeros seed 0) j + c.element * s1.elements j := by
    intro i j
    have hmask : (elements (masks HashSuite.zeros seed 0) i).coeff j = ((244668 : Int) : Zq) :=
      congrArg (Int.cast : Int → Zq) (masks_zeros seed 0 i j)
    have hsmall : absResidue ((c.element * s1.elements i).coeff j) ≤ 196 :=
      Poly.absResidue_mul_le hsize (h1 i) (by decide) j
    have hneg := absResidue_neg_le ((c.element * s1.elements i).coeff j)
    have hsum := absResidue_sub_le ((244668 : Int) : Zq) (-(c.element * s1.elements i).coeff j)
    rw [absResidue_intCast (by decide), sub_neg_eq_add, ← hmask] at hsum
    exact hsum.trans_lt (show _ < 2 ^ 19 - 196 by omega)
  have hr : ∀ i j, absResidue ((Negacyclic.mulVec (fun _ _ => 0)
      (elements (masks HashSuite.zeros seed 0)) i - c.element * s2.elements i).coeff j) ≤ 196 := by
    intro i j
    have hsmall := Poly.absResidue_mul_le hsize (h2 i) (by decide) j
    simp only [Negacyclic.mulVec, zero_mul, Finset.sum_const_zero, zero_sub]
    exact (absResidue_neg_le _).trans hsmall
  obtain ⟨s, hs⟩ := answer_of_small (challengeHash HashSuite.zeros mu _) hz hr
    fun i j => Poly.absResidue_mul_le hsize (h0 i) (by decide) j
  exact ⟨s, attempt_eq_ok.mpr ⟨_, _, c, rfl, rfl, hc _, hs⟩⟩

theorem sign_of_decodes_zeros {secretKey context : Bytes} {sk : SecretKey}
    (hsk : SecretKey.ofBytes secretKey = .ok sk) (hctx : context.length ≤ 255) (message : Bytes)
    (rnd : Octets seedBytes) :
    ∃ run sig, (sign HashSuite.zeros secretKey message context rnd).run = some (.ok run) ∧
      run.result = .ok sig := by
  obtain ⟨o, rfl, hdecode⟩ := SecretKey.ofBytes_eq_ok.mp hsk
  obtain ⟨hs1, hs2, ht0⟩ := SecretKey.elements_of_decode? hdecode
  obtain ⟨h1, h2, h0⟩ := SecretKey.decode?_bounds hdecode
  rcases sign_cases HashSuite.zeros o.bytes message context rnd with
    ⟨e, he, -⟩ | ⟨-, rho, -, ⟨ha, -⟩ | ⟨a, ha, hrun⟩⟩
  · refine absurd ⟨hctx, o.length_eq, fun hlarge => ?_⟩ he.not_fit
    rw [SecretKey.decode?_eq_none.mpr hlarge] at hdecode
    cases hdecode
  · rw [HashSuite.matrix_zeros] at ha
    cases ha
  have hA : a.elements = fun _ _ => 0 :=
    ((HashSuite.expandsTo_iff ha).mp (HashSuite.expandsTo_zeros rho)).symm
  rw [hA] at hrun
  unfold attempts at hrun
  rw [← hs1, ← hs2, ← ht0] at hrun
  obtain ⟨s, hs⟩ := attempt_zeros (h1.within (by decide) (by decide))
    (h2.within (by decide) (by decide)) (h0.within (by decide) (by decide)) _ _
  have hrun' := SigningRun.ofAttempts_of_accepted (rejected_zero _ fun _ => .zNorm) hs
    (show 0 < maxAttempts by decide)
  rw [hrun'] at hrun
  exact ⟨_, s.encode, hrun, rfl⟩

/-! ## Keys that match -/

/-- A signature verifies under each public key that matches. The keys of a seed match, so what is
signed with the one verifies under the other. -/
theorem signature_verifies (S : HashSuite) :
    (∀ secretKey sk pk message context rnd run sig, SecretKey.ofBytes secretKey = .ok sk →
      Matching S sk pk → (sign S secretKey message context rnd).run = some (.ok run) →
      run.result = .ok sig →
      (verify S pk.bytes message context sig.bytes).run = some (.ok ())) ∧
    ∀ xi pair, KeyPair.ofSeed S xi = some pair →
      SecretKey.ofBytes pair.secretKey.encode.bytes = .ok pair.secretKey ∧
      Matching S pair.secretKey pair.publicKey.encode ∧
      ∀ message context rnd run sig,
        (sign S pair.secretKey.encode.bytes message context rnd).run = some (.ok run) →
        run.result = .ok sig →
        (verify S pair.publicKey.encode.bytes message context sig.bytes).run = some (.ok ()) := by
  refine ⟨fun _ _ _ _ _ _ _ _ => verify_of_sign, fun xi pair hpair => ?_⟩
  have hsk := SecretKey.ofBytes_eq_ok.mpr ⟨_, rfl, (KeyPair.ofSeed_decode hpair).2⟩
  have hmatch := KeyPair.ofSeed_matching hpair
  exact ⟨hsk, hmatch, fun _ _ _ _ _ => verify_of_sign hsk hmatch⟩

/-- Keys that match where there is no matrix: `s2` is `t0`, and nothing is left for `t1`. -/
def SecretKey.unmixed (pk : PublicKey) : SecretKey where
  rho := pk.rho
  key := Octets.zero seedBytes
  tr := HashSuite.zeros.keyHash pk.encode.bytes
  s1 := PolyVec.ofFn fun _ _ => 4
  s2 := PolyVec.ofFn fun _ _ => -3
  t0 := PolyVec.ofFn fun _ _ => -3

theorem SecretKey.decode?_unmixed (pk : PublicKey) :
    decode? (unmixed pk).encode = some (unmixed pk) :=
  decode?_encode (PolyVec.inRange_ofFn 4 (by decide) (by decide))
    (PolyVec.inRange_ofFn (-3) (by decide) (by decide))
    (PolyVec.inRange_ofFn (-3) (by decide) (by decide))

theorem matching_unmixed (pk : PublicKey) (hpk : pk.t1 = PolyVec.zero) :
    Matching HashSuite.zeros (SecretKey.unmixed pk) pk.encode := by
  have hdecode : PublicKey.decode pk.encode = pk := by
    refine PublicKey.decode_encode fun i j => ?_
    rw [hpk, PolyVec.zero_apply, Poly.zero_apply]
    decide
  refine ⟨by rw [hdecode]; rfl, rfl, _, HashSuite.expandsTo_zeros _, fun i => ?_⟩
  ext j
  have hzero : residue (pk.t1 i j) = 0 := by
    rw [hpk, PolyVec.zero_apply, Poly.zero_apply]
    rfl
  rw [hdecode, Negacyclic.coeff_add, Negacyclic.coeff_add, Negacyclic.coeff_smul]
  simp only [Negacyclic.mulVec, zero_mul, Finset.sum_const_zero, PolyVec.elements,
    Poly.coeff_element, hzero, mul_zero, Negacyclic.coeff_zero]
  rfl

theorem signature_verifies_zeros :
    (∃ (sk : SecretKey) (pk : PublicKey) (run : SigningRun (Octets signatureBytes)) (sig : _),
      (∀ i j, sk.s1 i j = 4) ∧ (∀ i j, sk.s2 i j = -3) ∧ (∀ i j, sk.t0 i j = -3) ∧
      Matching HashSuite.zeros sk pk.encode ∧
      (sign HashSuite.zeros sk.encode.bytes [7] [1] (Octets.zero seedBytes)).run =
        some (.ok run) ∧ run.result = .ok sig ∧
      (verify HashSuite.zeros pk.encode.bytes [7] [1] sig.bytes).run = some (.ok ())) ∧
    ∃ pair run sig, KeyPair.ofSeed HashSuite.zeros (Octets.zero seedBytes) = some pair ∧
      (sign HashSuite.zeros pair.secretKey.encode.bytes [7] [1] (Octets.zero seedBytes)).run =
        some (.ok run) ∧ run.result = .ok sig ∧
      (verify HashSuite.zeros pair.publicKey.encode.bytes [7] [1] sig.bytes).run =
        some (.ok ()) := by
  have hctx : ([1] : Bytes).length ≤ 255 := by decide
  obtain ⟨hkeys, hseeds⟩ := signature_verifies HashSuite.zeros
  constructor
  · have hsk := SecretKey.ofBytes_eq_ok.mpr
      ⟨_, rfl, SecretKey.decode?_unmixed ⟨Octets.zero seedBytes, PolyVec.zero⟩⟩
    obtain ⟨run, sig, hsign, hsig⟩ := sign_of_decodes_zeros hsk hctx [7] (Octets.zero seedBytes)
    have hmatch := matching_unmixed ⟨Octets.zero seedBytes, PolyVec.zero⟩ rfl
    exact ⟨_, _, run, sig, PolyVec.ofFn_apply _, PolyVec.ofFn_apply _, PolyVec.ofFn_apply _, hmatch,
      hsign, hsig, hkeys _ _ _ _ _ _ _ _ hsk hmatch hsign hsig⟩
  · obtain ⟨pair, hpair⟩ : ∃ pair, KeyPair.ofSeed HashSuite.zeros (Octets.zero seedBytes) =
        some pair :=
      ⟨_, KeyPair.ofSeed_eq_some.mpr ⟨_, HashSuite.matrix_zeros _, _, HashSuite.secretVec_zeros _ _,
        _, HashSuite.secretVec_zeros _ _, _, rfl, _, rfl, rfl⟩⟩
    obtain ⟨hsk, -, hverify⟩ := hseeds _ pair hpair
    obtain ⟨run, sig, hsign, hsig⟩ := sign_of_decodes_zeros hsk hctx [7] (Octets.zero seedBytes)
    exact ⟨pair, run, sig, hpair, hsign, hsig, hverify _ _ _ _ _ hsign hsig⟩

end MLDSA
