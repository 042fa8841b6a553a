import MLDSA.Proofs.Verification

/-! # What a signature is bound to

A byte string that verifies twice, for two keys, contexts or messages, shows two inputs with one
hash, and so do two signatures that differ in their hints alone. The key facts are that no way to
acceptance leaves out one of the three hashes, and that a hint moves every bucket.

Nothing is assumed of the hash functions: a collision is what the theorems end in. -/

namespace MLDSA

open Coeff Schoolbook

/-! ## The recomputed commitment -/

/-- The commitment that verification recomputes, if the bytes decode and the samples are found. -/
def recomputed (S : HashSuite) (publicKey signature : Bytes) : Checked (PolyVec rows) := do
  let s ← Signature.ofBytes signature
  let k ← ExpandedKey.ofBytes S publicKey
  let c ← S.challengeOf s.challenge.bytes
  return k.commitment s c.toNtt

variable {S : HashSuite} {publicKey publicKey' message message' context context' : Bytes}
  {signature signature' : Bytes} {w w' : PolyVec rows}

theorem recomputed_eq_ok : (recomputed S publicKey signature).run = some (.ok w) ↔
    ∃ s k c, (Signature.ofBytes signature).run = some (.ok s) ∧
      (ExpandedKey.ofBytes S publicKey).run = some (.ok k) ∧
      S.challengeOf s.challenge.bytes = some c ∧ w = k.commitment s c.toNtt := by
  unfold recomputed
  simp only [run_bind_eq_ok, run_lift_eq_ok]
  constructor
  · rintro ⟨s, hs, k, hk, c, hc, hw⟩
    cases hw
    exact ⟨s, k, c, hs, hk, hc, rfl⟩
  · rintro ⟨s, k, c, hs, hk, hc, rfl⟩
    exact ⟨s, hs, k, hk, c, hc, rfl⟩

theorem recomputed_parts (h : (recomputed S publicKey signature).run = some (.ok w)) :
    ∃ (o : Octets signatureBytes) (k : ExpandedKey) (c : Poly),
      signature = o.bytes ∧ Signature.decode? o = some (Signature.read o) ∧
      (ExpandedKey.ofBytes S publicKey).run = some (.ok k) ∧
      S.challengeOf (Signature.read o).challenge.bytes = some c ∧
      (k.approximation (Signature.read o).z c.toNtt).IsCanonical ∧
      w = (Signature.read o).hints.use (k.approximation (Signature.read o).z c.toNtt) := by
  obtain ⟨s, k, c, hs, hk, hc, rfl⟩ := recomputed_eq_ok.mp h
  have hcanon := ExpandedKey.isCanonical_approximation hk hs hc
  obtain ⟨o, rfl, hdecode, rfl⟩ := Signature.ofBytes_eq_ok hs
  exact ⟨o, k, c, rfl, hdecode, hk, hc, hcanon, rfl⟩

theorem recomputed_inRange (h : (recomputed S publicKey signature).run = some (.ok w)) :
    w.InRange 0 15 := by
  obtain ⟨o, k, c, -, -, -, -, hcanon, rfl⟩ := recomputed_parts h
  exact HintVec.use_inRange _ hcanon

theorem recomputed_ne (hne : signature ≠ signature')
    (hhead : signature.take 3248 = signature'.take 3248)
    (h : (recomputed S publicKey signature).run = some (.ok w))
    (h' : (recomputed S publicKey signature').run = some (.ok w')) : w ≠ w' := by
  obtain ⟨o, k, c, rfl, hdecode, hk, hc, hcanon, rfl⟩ := recomputed_parts h
  obtain ⟨o', k', c', rfl, hdecode', hk', hc', -, rfl⟩ := recomputed_parts h'
  obtain ⟨hchallenge, hz⟩ := Signature.read_of_take hhead
  rw [hk] at hk'
  cases hk'
  rw [← hchallenge, hc] at hc'
  cases hc'
  rw [← hz]
  intro hw
  have hhints := HintVec.use_inj hcanon hw
  -- The bytes are the encoding of their parts, and all three parts are equal.
  have hread : Signature.read o = Signature.read o' :=
    calc Signature.read o
        = ⟨(Signature.read o).challenge, (Signature.read o).z, (Signature.read o).hints⟩ := rfl
      _ = ⟨(Signature.read o').challenge, (Signature.read o').z, (Signature.read o').hints⟩ := by
        rw [hchallenge, hz, hhints]
  rw [← hread] at hdecode'
  refine hne (congrArg Octets.bytes ?_)
  rw [← Signature.encode_of_decode? hdecode, Signature.encode_of_decode? hdecode']

/-! ## What is accepted -/

/-- What is hashed to the challenge, for the commitment `w`. -/
def Schoolbook.challengeInput (S : HashSuite) (publicKey message context : Bytes)
    (w : PolyVec rows) : Bytes :=
  representative S (S.h.read 64 publicKey) message context ++ w.encodeW1.bytes

theorem length_read_eq (n : Nat) (a b : Bytes) : (S.h.read n a).length = (S.h.read n b).length := by
  rw [S.h.length_read n a (by decide), S.h.length_read n b (by decide)]

theorem challengeInput_inj (h : challengeInput S publicKey message context w =
      challengeInput S publicKey' message' context' w') :
    representative S (S.h.read 64 publicKey) message context =
        representative S (S.h.read 64 publicKey') message' context' ∧
      w.encodeW1.bytes = w'.encodeW1.bytes :=
  List.append_inj h (length_read_eq 64 _ _)

theorem accepted_iff : (verify S publicKey message context signature).run = some (.ok ()) ↔
    context.length ≤ 255 ∧ ∃ w, (recomputed S publicKey signature).run = some (.ok w) ∧
      S.h.read 48 (challengeInput S publicKey message context w) = signature.take 48 := by
  unfold verify
  simp only [HashSuite.messageRepresentative_eq, run_bind_eq_ok]
  constructor
  · rintro ⟨⟨⟩, hctx, s, hs, k, hk, hcheck⟩
    have hfit : context.length ≤ 255 := by
      refine Nat.le_of_not_lt fun hlong => ?_
      rw [checkContext_of_gt hlong] at hctx
      cases hctx
    obtain ⟨o, rfl, -, rfl⟩ := Signature.ofBytes_eq_ok hs
    obtain ⟨pk, a, rfl, -, rfl⟩ := ExpandedKey.ofBytes_eq_ok hk
    obtain ⟨c, hc, hhash⟩ := ExpandedKey.check_eq_ok.mp hcheck
    exact ⟨hfit, _, recomputed_eq_ok.mpr ⟨_, _, c, hs, hk, hc, rfl⟩, congrArg Octets.bytes hhash⟩
  · rintro ⟨hfit, w, hw, hhash⟩
    obtain ⟨s, k, c, hs, hk, hc, rfl⟩ := recomputed_eq_ok.mp hw
    refine ⟨(), checkContext_of_le hfit, s, hs, k, hk, ExpandedKey.check_eq_ok.mpr ⟨c, hc, ?_⟩⟩
    obtain ⟨o, rfl, -, rfl⟩ := Signature.ofBytes_eq_ok hs
    obtain ⟨pk, a, rfl, -, rfl⟩ := ExpandedKey.ofBytes_eq_ok hk
    exact Octets.ext hhash

/-! ## A suite of constant streams

Every key and message has the same hash there, so one signature is accepted for all of them. -/

theorem isBelow_zero : IsBelow (gamma1 - beta) (0 : Fin columns → Rq) := by
  intro i j
  rw [Pi.zero_apply, Negacyclic.coeff_zero]
  decide

theorem verify_zeros {h : HintVec} (hw : h.weight ≤ omega) (pk : Octets publicKeyBytes)
    (message : Bytes) {context : Bytes} (hctx : context.length ≤ 255) :
    (verify HashSuite.zeros pk.bytes message context (Signature.encode
      ⟨HashSuite.zeros.digest challengeBytes [], PolyVec.ofElements 0, h⟩).bytes).run =
        some (.ok ()) := by
  obtain ⟨c, hc⟩ := HashSuite.challengeOf_zeros
  obtain ⟨hwf, hread⟩ := Signature.read_encode (HashSuite.zeros.digest challengeBytes [])
    isBelow_zero hw
  generalize Signature.encode _ = sig at hwf hread ⊢
  have hchallenge : sig.bytes.take 48 = HashSuite.zeros.h.read 48 [] :=
    congrArg (fun s => s.challenge.bytes) hread
  exact verify_of_checks hctx sig.length_eq hwf
    (Signature.responseBelow_of_read isBelow_zero (congrArg Signature.z hread)) pk.length_eq
    ⟨(PublicKey.decode pk).rho, _, c, rfl, HashSuite.expandsTo_zeros _, hc _, hchallenge.symm⟩

theorem exists_hints_zeros (pk : Octets publicKeyBytes) (message : Bytes) {context : Bytes}
    (hctx : context.length ≤ 255) :
    ∃ signature signature' : Bytes, signature ≠ signature' ∧
      signature.take 3248 = signature'.take 3248 ∧
      (verify HashSuite.zeros pk.bytes message context signature).run = some (.ok ()) ∧
      (verify HashSuite.zeros pk.bytes message context signature').run = some (.ok ()) := by
  -- One has no hints, and the other has one in each row.
  have hw : ∀ c : Coeff,
      (HintVec.ofPolys (PolyVec.ofFn fun _ j => if j = 3 then c else 0)).weight ≤ omega :=
    fun c => (HintVec.weight_column c 3).trans (by decide)
  have hread := fun c => (Signature.read_encode (HashSuite.zeros.digest challengeBytes [])
    isBelow_zero (hw c)).2
  refine ⟨_, _, fun heq => ?_, ?_, verify_zeros (hw 0) pk message hctx,
    verify_zeros (hw 1) pk message hctx⟩
  · have hmark := congrArg (fun s : Signature => s.hints 0 3)
      ((hread 0).symm.trans ((congrArg Signature.read (Octets.ext heq)).trans (hread 1)))
    simp only [HintVec.ofPolys_apply, PolyVec.ofFn_apply, if_true] at hmark
    cases hmark
  · rw [Signature.take_encode, Signature.take_encode]

/-! ## Collisions -/

/-- A signature belongs to one key, one context and one message, or else two keys, two messages or
two commitments have one hash. -/
theorem signature_binds
    (hne : (publicKey, context, message) ≠ (publicKey', context', message'))
    (h : (verify S publicKey message context signature).run = some (.ok ()))
    (h' : (verify S publicKey' message' context' signature).run = some (.ok ())) :
    S.h.Collide 64 publicKey publicKey' ∨
    S.h.Collide 64 (messageInput (S.h.read 64 publicKey) message context)
      (messageInput (S.h.read 64 publicKey') message' context') ∨
    ∃ w w', (recomputed S publicKey signature).run = some (.ok w) ∧
      (recomputed S publicKey' signature).run = some (.ok w') ∧
      S.h.Collide 48 (challengeInput S publicKey message context w)
        (challengeInput S publicKey' message' context' w') := by
  obtain ⟨hctx, w, hw, hhash⟩ := accepted_iff.mp h
  obtain ⟨hctx', w', hw', hhash'⟩ := accepted_iff.mp h'
  -- From the last hash to the first: where two inputs are equal, so are the hashes in them.
  by_cases hmu : representative S (S.h.read 64 publicKey) message context =
      representative S (S.h.read 64 publicKey') message' context'
  · by_cases hinput : messageInput (S.h.read 64 publicKey) message context =
        messageInput (S.h.read 64 publicKey') message' context'
    · obtain ⟨hkey, rfl, rfl⟩ := messageInput_inj (length_read_eq 64 _ _) hctx hctx' hinput
      exact .inl ⟨fun hpk => hne (by rw [hpk]), hkey⟩
    · exact .inr (.inl ⟨hinput, by rw [read_messageInput, hmu, read_messageInput]⟩)
  · exact .inr (.inr ⟨w, w', hw, hw', fun hsame => hmu (challengeInput_inj hsame).1,
      hhash.trans hhash'.symm⟩)

/-- A byte moves from the message to the context. -/
theorem signature_binds_zeros : ∃ signature,
    (verify HashSuite.zeros (Octets.zero publicKeyBytes).bytes [1] [] signature).run =
      some (.ok ()) ∧
    (verify HashSuite.zeros (Octets.zero publicKeyBytes).bytes [] [1] signature).run =
      some (.ok ()) ∧
    (HashSuite.zeros.h.Collide 64 (messageInput
        (HashSuite.zeros.h.read 64 (Octets.zero publicKeyBytes).bytes) [1] [])
      (messageInput (HashSuite.zeros.h.read 64 (Octets.zero publicKeyBytes).bytes) [] [1]) ∨
    ∃ w w', (recomputed HashSuite.zeros (Octets.zero publicKeyBytes).bytes signature).run =
        some (.ok w) ∧
      (recomputed HashSuite.zeros (Octets.zero publicKeyBytes).bytes signature).run =
        some (.ok w') ∧
      HashSuite.zeros.h.Collide 48
        (challengeInput HashSuite.zeros (Octets.zero publicKeyBytes).bytes [1] [] w)
        (challengeInput HashSuite.zeros (Octets.zero publicKeyBytes).bytes [] [1] w')) := by
  have hw := HintVec.weight_column 1 0
  have h := verify_zeros (hw.trans (by decide)) (Octets.zero publicKeyBytes) [1]
    (show ([] : Bytes).length ≤ 255 by decide)
  have h' := verify_zeros (hw.trans (by decide)) (Octets.zero publicKeyBytes) []
    (show ([1] : Bytes).length ≤ 255 by decide)
  rcases signature_binds (by simp) h h' with ⟨hne, -⟩ | hcollide
  · exact absurd rfl hne
  · exact ⟨_, h, h', hcollide⟩

/-- Other hints make another commitment, so both are accepted only if the two have one hash. -/
theorem hints_not_malleable (hne : signature ≠ signature')
    (hhead : signature.take 3248 = signature'.take 3248)
    (h : (verify S publicKey message context signature).run = some (.ok ()))
    (h' : (verify S publicKey message context signature').run = some (.ok ())) :
    ∃ w w', (recomputed S publicKey signature).run = some (.ok w) ∧
      (recomputed S publicKey signature').run = some (.ok w') ∧ w ≠ w' ∧
      S.h.Collide 48 (challengeInput S publicKey message context w)
        (challengeInput S publicKey message context w') := by
  obtain ⟨-, w, hw, hhash⟩ := accepted_iff.mp h
  obtain ⟨-, w', hw', hhash'⟩ := accepted_iff.mp h'
  have hmoved := recomputed_ne hne hhead hw hw'
  have hchallenge : signature.take 48 = signature'.take 48 := by
    have hshort : ∀ b : Bytes, b.take 48 = (b.take 3248).take 48 := fun b => by
      rw [List.take_take]
      rfl
    rw [hshort, hhead, ← hshort]
  refine ⟨w, w', hw, hw', hmoved, fun hsame => hmoved ?_, ?_⟩
  · exact PolyVec.encodeW1_inj (recomputed_inRange hw) (recomputed_inRange hw')
      (challengeInput_inj hsame).2
  · rw [hhash, hhash', hchallenge]

theorem hints_not_malleable_zeros : ∃ signature signature' : Bytes,
    (verify HashSuite.zeros (Octets.zero publicKeyBytes).bytes [] [] signature).run =
      some (.ok ()) ∧
    (verify HashSuite.zeros (Octets.zero publicKeyBytes).bytes [] [] signature').run =
      some (.ok ()) ∧
    ∃ w w', (recomputed HashSuite.zeros (Octets.zero publicKeyBytes).bytes signature).run =
        some (.ok w) ∧
      (recomputed HashSuite.zeros (Octets.zero publicKeyBytes).bytes signature').run =
        some (.ok w') ∧ w ≠ w' ∧
      HashSuite.zeros.h.Collide 48
        (challengeInput HashSuite.zeros (Octets.zero publicKeyBytes).bytes [] [] w)
        (challengeInput HashSuite.zeros (Octets.zero publicKeyBytes).bytes [] [] w') := by
  obtain ⟨signature, signature', hne, hhead, h, h'⟩ :=
    exists_hints_zeros (Octets.zero publicKeyBytes) [] (show ([] : Bytes).length ≤ 255 by decide)
  exact ⟨_, _, h, h', hints_not_malleable hne hhead h h'⟩

end MLDSA
