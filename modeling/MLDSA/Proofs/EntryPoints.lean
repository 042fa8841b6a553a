import MLDSA.Proofs.Binding
import MLDSA.Proofs.Signing

/-! # All ways to ask give one answer

A verifier may have made a key ready, may frame a message or may be handed message and signature in
one piece, and a signer has the same choices. Each way checks for itself and in its own order. The
key fact is that what is looked at before the key always gives an answer, so a key that is bad, or
one that is ready, decides only what it would have decided later. -/

namespace MLDSA

theorem Checked.answer_eq_ok {α : Type} {x : Checked α} {a : α} :
    x.answer = some (.ok a) ↔ x.run = some (.ok a) := by
  unfold answer
  rcases x.run with _ | (r | b)
  · exact iff_of_false nofun nofun
  · exact iff_of_false nofun nofun
  · constructor
    · intro h
      cases h
      rfl
    · intro h
      cases h
      rfl

theorem Checked.answer_eq_error {α : Type} {x : Checked α} {e : Error} :
    x.answer = some (.error e) ↔ e = .verificationFailed ∧ ∃ r, x.run = some (.error r) := by
  unfold answer
  rcases x.run with _ | (r | b)
  · exact iff_of_false nofun fun ⟨_, _, h⟩ => nomatch h
  · constructor
    · intro h
      cases h
      exact ⟨rfl, r, rfl⟩
    · rintro ⟨rfl, -⟩
      rfl
  · exact iff_of_false nofun fun ⟨_, _, h⟩ => nomatch h

variable {S : HashSuite} {publicKey message context signature signed : Bytes} {k : ExpandedKey}

/-! ## Keys made ready -/

theorem ExpandedKey.exists_ofBytes_iff (hlen : publicKey.length = 1952) :
    (∃ k, (ofBytes S publicKey).run = some (.ok k)) ↔
      ∃ rho A, rho.bytes = publicKey.take 32 ∧ S.ExpandsTo rho A := by
  constructor
  · rintro ⟨k, hk⟩
    obtain ⟨o, a, rfl, ha, -⟩ := ofBytes_eq_ok hk
    obtain ⟨A, hA⟩ := HashSuite.exists_matrix_iff.mp ⟨a, ha⟩
    exact ⟨_, A, rfl, hA⟩
  · rintro ⟨rho, A, hrho, hA⟩
    obtain ⟨a, ha⟩ := HashSuite.exists_matrix_iff.mpr ⟨A, hA⟩
    rcases ofBytes_cases S publicKey with ⟨hne, -⟩ | ⟨o, rfl, ⟨hnone, -⟩ | ⟨a', -, hrun⟩⟩
    · exact absurd hlen hne
    · obtain rfl : rho = (PublicKey.decode o).rho := Octets.ext hrho
      rw [ha] at hnone
      cases hnone
    · exact ⟨_, hrun⟩

theorem ExpandedKey.ofBytes_ne_error (hlen : publicKey.length = 1952) (r : Refusal) :
    (ofBytes S publicKey).run ≠ some (.error r) := by
  rcases ofBytes_cases S publicKey with ⟨hne, -⟩ | ⟨o, -, ⟨-, hrun⟩ | ⟨a, -, hrun⟩⟩
  · exact absurd hlen hne
  · rw [hrun]
    nofun
  · rw [hrun]
    nofun

theorem ExpandedKey.ofBytes_of_length_ne (hlen : publicKey.length ≠ 1952) :
    (ofBytes S publicKey).run = some (.error (.publicKeyLength publicKey.length)) := by
  rcases ofBytes_cases S publicKey with ⟨-, hrun⟩ | ⟨o, rfl, -⟩
  · exact hrun
  · exact absurd o.length_eq hlen

theorem verifyExpanded_eq (hk : (ExpandedKey.ofBytes S publicKey).run = some (.ok k)) :
    verifyExpanded S k message context signature =
      verify S publicKey message context signature := by
  unfold verifyExpanded verify
  -- The checks before the key are the same, so only the step that makes it ready is left.
  refine bind_congr fun _ => bind_congr fun s => ?_
  have hcheck := run_bind_of_ok hk
    (f := fun k => k.check S (S.messageRepresentative k.tr context message) s)
  exact ExceptT.ext hcheck.symm

theorem checkContext_ne_none : (checkContext context).run ≠ none := by
  by_cases h : context.length ≤ 255
  · rw [checkContext_of_le h]
    nofun
  · rw [checkContext_of_gt (Nat.not_le.mp h)]
    nofun

theorem Signature.ofBytes_ne_none : (Signature.ofBytes signature).run ≠ none := by
  rcases ofBytes_cases signature with
    ⟨-, hrun⟩ | ⟨o, -, ⟨-, hrun⟩ | ⟨-, ⟨-, hrun⟩ | ⟨-, hrun⟩⟩⟩
  all_goals
    rw [hrun]
    nofun

theorem verify_of_length_ne (hlen : publicKey.length ≠ 1952) :
    ∃ r, (verify S publicKey message context signature).run = some (.error r) :=
  exists_error_bind checkContext_ne_none fun _ =>
    exists_error_bind Signature.ofBytes_ne_none fun _ =>
      ⟨_, run_bind_of_error (ExpandedKey.ofBytes_of_length_ne hlen)⟩

/-! ## One piece -/

theorem signAttached_run (secretKey : Bytes) (rnd : Octets seedBytes) :
    (signAttached S secretKey message context rnd).run =
      (sign S secretKey message context rnd).run.map
        (Except.map (SigningRun.map fun s => s.bytes ++ message)) :=
  run_bind_pure _ _

theorem openAttached_of_short (h : signed.length < 3309) :
    (openAttached S publicKey signed context).run = some (.error (.tooShort signed.length)) := by
  rw [openAttached, if_pos h]
  exact run_bind_of_error rfl

theorem openAttached_of_le (h : 3309 ≤ signed.length) :
    (openAttached S publicKey signed context).run =
      (verify S publicKey (signed.drop 3309) context (signed.take 3309)).run.map
        (Except.map fun _ => signed.drop 3309) := by
  rw [openAttached, if_neg (Nat.not_lt.mpr h)]
  exact run_bind_pure (verify S publicKey (signed.drop 3309) context (signed.take 3309)) _

theorem openAttached_eq_ok : (openAttached S publicKey signed context).run = some (.ok message) ↔
    3309 ≤ signed.length ∧ message = signed.drop 3309 ∧
      (verify S publicKey message context (signed.take 3309)).run = some (.ok ()) := by
  rcases Nat.lt_or_ge signed.length 3309 with hshort | hlen
  · rw [openAttached_of_short hshort]
    exact iff_of_false nofun fun h => Nat.not_le.mpr hshort h.1
  · rw [openAttached_of_le hlen, map_eq_ok]
    constructor
    · rintro ⟨_, hrun, rfl⟩
      exact ⟨hlen, rfl, hrun⟩
    · rintro ⟨-, rfl, hrun⟩
      exact ⟨_, hrun, rfl⟩

theorem exists_openAttached_error :
    (∃ r, (openAttached S publicKey signed context).run = some (.error r)) ↔
      signed.length < 3309 ∨
        ∃ r, (verify S publicKey (signed.drop 3309) context (signed.take 3309)).run =
          some (.error r) := by
  rcases Nat.lt_or_ge signed.length 3309 with hshort | hlen
  · exact iff_of_true ⟨_, openAttached_of_short hshort⟩ (.inl hshort)
  · rw [openAttached_of_le hlen, or_iff_right (Nat.not_lt.mpr hlen)]
    exact exists_congr fun _ => map_eq_error

/-! ## All together -/

/-- What the entry points owe each other, whatever they are given. -/
structure EntryPointsAgree (S : HashSuite) : Prop where
  /-- A key of the right length is not refused, and it is ready if its matrix can be sampled. -/
  ready : ∀ publicKey : Bytes, publicKey.length = 1952 →
    (∀ r, (ExpandedKey.ofBytes S publicKey).run ≠ some (.error r)) ∧
    ((∃ k, (ExpandedKey.ofBytes S publicKey).run = some (.ok k)) ↔
      ∃ rho A, rho.bytes = publicKey.take 32 ∧ S.ExpandsTo rho A)
  expanded : ∀ publicKey k, (ExpandedKey.ofBytes S publicKey).run = some (.ok k) →
    ∀ message context signature, (verifyExpanded S k message context signature).run =
      (verify S publicKey message context signature).run
  unready : ∀ publicKey : Bytes, publicKey.length ≠ 1952 →
    (ExpandedKey.ofBytes S publicKey).run = some (.error (.publicKeyLength publicKey.length)) ∧
    ∀ message context signature,
      ∃ r, (verify S publicKey message context signature).run = some (.error r)
  framed : ∀ context : Bytes, context.length ≤ 255 → ∀ message,
    (∀ publicKey signature, (verify S publicKey message context signature).run =
      (verifyFramed S publicKey (0 :: UInt8.ofNat context.length :: (context ++ message))
        signature).run) ∧
    ∀ secretKey rnd, (sign S secretKey message context rnd).run =
      (signFramed S secretKey (0 :: UInt8.ofNat context.length :: (context ++ message)) rnd).run
  unframed : ∀ context : Bytes, 255 < context.length → ∀ message,
    (∀ publicKey signature, (verify S publicKey message context signature).run =
      some (.error (.contextLength context.length))) ∧
    ∀ secretKey rnd, (sign S secretKey message context rnd).run =
      some (.error (.contextTooLong context.length))
  opened : ∀ publicKey signed context message,
    (openAttached S publicKey signed context).answer = some (.ok message) ↔
      3309 ≤ signed.length ∧ message = signed.drop 3309 ∧
        (verify S publicKey message context (signed.take 3309)).run = some (.ok ())
  /-- There is one error, and it says nothing. -/
  unopened : ∀ publicKey signed context e,
    (openAttached S publicKey signed context).answer = some (.error e) ↔
      e = .verificationFailed ∧ (signed.length < 3309 ∨
        ∃ r, (verify S publicKey (signed.drop 3309) context (signed.take 3309)).run =
          some (.error r))
  attached : ∀ secretKey message context rnd,
    (signAttached S secretKey message context rnd).run =
      (sign S secretKey message context rnd).run.map
        (Except.map (SigningRun.map fun s => s.bytes ++ message))

theorem entry_points_agree (S : HashSuite) : EntryPointsAgree S where
  ready _ hlen := ⟨ExpandedKey.ofBytes_ne_error hlen, ExpandedKey.exists_ofBytes_iff hlen⟩
  expanded _ _ hk _ _ _ := congrArg ExceptT.run (verifyExpanded_eq hk)
  unready _ hlen := ⟨ExpandedKey.ofBytes_of_length_ne hlen, fun _ _ _ => verify_of_length_ne hlen⟩
  framed _ hctx _ := ⟨fun _ _ => verify_of_le hctx .., fun _ _ => sign_of_le hctx ..⟩
  unframed _ hctx _ := ⟨fun _ _ => verify_of_gt hctx .., fun _ _ => sign_of_gt hctx ..⟩
  opened _ _ _ _ := Checked.answer_eq_ok.trans openAttached_eq_ok
  unopened _ _ _ _ :=
    Checked.answer_eq_error.trans (and_congr_right fun _ => exists_openAttached_error)
  attached sk _ _ rnd := signAttached_run sk rnd

theorem entry_points_agree_zeros : ∃ (k : ExpandedKey) (signature : Octets signatureBytes),
    (verifyExpanded HashSuite.zeros k [7] [1] signature.bytes).run = some (.ok ()) ∧
    (verifyFramed HashSuite.zeros (Octets.zero publicKeyBytes).bytes [0, 1, 1, 7]
      signature.bytes).run = some (.ok ()) ∧
    (openAttached HashSuite.zeros (Octets.zero publicKeyBytes).bytes (signature.bytes ++ [7])
      [1]).answer = some (.ok [7]) ∧
    (openAttached HashSuite.zeros (Octets.zero publicKeyBytes).bytes [7] [1]).answer =
      some (.error .verificationFailed) := by
  have hagree := entry_points_agree HashSuite.zeros
  have hlen := (Octets.zero publicKeyBytes).length_eq
  have hctx : ([1] : Bytes).length ≤ 255 := by decide
  obtain ⟨k, hk⟩ := (hagree.ready _ hlen).2.mpr
    ⟨(PublicKey.decode (Octets.zero publicKeyBytes)).rho, _, rfl, HashSuite.expandsTo_zeros _⟩
  have hverify := verify_zeros ((HintVec.weight_column 1 0).trans (by decide))
    (Octets.zero publicKeyBytes) [7] hctx
  generalize Signature.encode _ = signature at hverify
  refine ⟨k, signature, (hagree.expanded _ _ hk _ _ _).trans hverify,
    ((hagree.framed _ hctx _).1 _ _).symm.trans hverify, ?_, ?_⟩
  · have hsig : signature.bytes.length = 3309 := signature.length_eq
    refine (hagree.opened _ _ _ _).mpr ⟨?_, ?_, ?_⟩
    · rw [List.length_append, hsig]
      exact Nat.le_add_right _ _
    · exact (List.drop_left' hsig).symm
    · rwa [List.take_left' hsig]
  · exact (hagree.unopened _ _ _ _).mpr ⟨rfl, .inl (show ([7] : Bytes).length < 3309 by decide)⟩

end MLDSA
