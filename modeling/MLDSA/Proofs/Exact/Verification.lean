import MLDSA.Proofs.Exact.Sample
import MLDSA.Proofs.Exact.Signature
import MLDSA.Proofs.EntryPoints

/-! # Verification over the integers

Verification once more, with exact integers and checked places. Whatever the bytes, nothing stops
it: the checks on the bytes leave coefficients that are small enough for all that follows, and the
sums that are not reduced stay below `2^31`. So the words never wrap around, and every place that is
read is there. -/

namespace MLDSA

namespace Exact

/-! ## The run -/

/-- An answer as `MLDSA.Checked` has it, or a fault. -/
abbrev Checked := ExceptT Refusal (OptionT Exact)

structure ExpandedKeyParts where
  a : Fin rows → Fin columns → Fin 256 → Int
  t1 : Fin rows → Fin 256 → Int
  tr : Octets longHashBytes

def expandKey (S : HashSuite) (publicKey : Bytes) : Checked ExpandedKeyParts := do
  let some b := Octets.ofBytes? publicKeyBytes publicKey | throw (.publicKeyLength publicKey.length)
  let pk ← decodePublicKey b
  let t1 ← map (map (shiftLeft · 13)) pk.t1
  let t1 ← map toNtt t1
  let a ← matrix S pk.rho
  return { a, t1, tr := S.keyHash publicKey }

def readSignature (signature : Bytes) : Checked SignatureParts := do
  let some b := Octets.ofBytes? signatureBytes signature |
    throw (.signatureLength signature.length)
  let some s ← (decodeSignature b).run | throw .malformedHints
  let below ← allBelow (gamma1 - beta : Nat) s.z
  unless below do throw .zNorm
  return s

def commitment (k : ExpandedKeyParts) (s : SignatureParts) (c : Fin 256 → Int) :
    Exact (Fin rows → Fin 256 → Int) := do
  let w ← mulVec k.a (← map toNtt s.z)
  useHints s.hints (← residues (← zipWith (zipWith sub) w (← scale c k.t1)))

def check (S : HashSuite) (k : ExpandedKeyParts) (mu : Octets longHashBytes) (s : SignatureParts) :
    Checked Unit := do
  let c ← challengeOf S s.challenge.bytes
  let c ← toNtt c
  let w1 ← commitment k s c
  let bytes ← encodeW1 w1
  unless S.challenge mu bytes = s.challenge do throw .challengeMismatch

def checkContext (context : Bytes) : Checked Unit := do
  if context.length > maxContextBytes then throw (.contextLength context.length)

/-- The length of the context must fit a byte. -/
def messageRepresentative (S : HashSuite) (tr : Octets longHashBytes) (context message : Bytes) :
    Exact (Octets longHashBytes) := do
  require (context.length < 256)
  return S.messageRepresentative tr context message

def verifyExpanded (S : HashSuite) (k : ExpandedKeyParts) (message context signature : Bytes) :
    Checked Unit := do
  checkContext context
  let s ← readSignature signature
  let mu ← messageRepresentative S k.tr context message
  check S k mu s

def verifyFramed (S : HashSuite) (publicKey framed signature : Bytes) : Checked Unit := do
  let s ← readSignature signature
  let k ← expandKey S publicKey
  check S k (S.representative k.tr framed) s

def verify (S : HashSuite) (publicKey message context signature : Bytes) : Checked Unit := do
  checkContext context
  let s ← readSignature signature
  let k ← expandKey S publicKey
  let mu ← messageRepresentative S k.tr context message
  check S k mu s

def openAttached (S : HashSuite) (publicKey signed context : Bytes) : Checked Bytes := do
  if signed.length < signatureBytes then throw (.tooShort signed.length)
  let signature ← slice signed 0 signatureBytes
  let message ← slice signed signatureBytes signed.length
  verify S publicKey message context signature
  return message

end Exact

open Exact

def ExpandedKey.ints (k : ExpandedKey) : ExpandedKeyParts where
  a := k.a.ints
  t1 := k.t1.ints
  tr := k.tr

namespace Exact

/-! ## Each check -/

variable {S : HashSuite}

theorem checkContext_follows (context : Bytes) :
    Follows (checkContext context) (MLDSA.checkContext context) id :=
  .ite (.throw _) (.pure rfl)

theorem messageRepresentative_of {context : Bytes} (h : context.length ≤ maxContextBytes)
    (tr : Octets longHashBytes) (message : Bytes) :
    messageRepresentative S tr context message =
      .ok (S.messageRepresentative tr context message) := by
  rw [messageRepresentative, require_of (Nat.lt_succ_of_le h)]
  rfl

theorem readSignature_follows (signature : Bytes) :
    Follows (readSignature signature) (Signature.ofBytes signature) Signature.ints := by
  unfold readSignature Signature.ofBytes
  cases Octets.ofBytes? signatureBytes signature with
  | none => exact .throw _
  | some b =>
    have hdecode := decodeSignature_ints b
    have hread := fun s (h : Signature.decode? b = some s) => (Signature.decode?_eq_some.mp h).2
    dsimp only
    refine .ok_bind hdecode ?_
    -- With a variable in its place, the decoder is not evaluated.
    generalize Signature.decode? b = o at hread ⊢
    cases o with
    | none => exact .throw _
    | some s =>
      obtain rfl := hread s rfl
      have hbelow := allBelow_polys (show 0 < gamma1 - beta by decide) (by decide)
        (Signature.within_read b) (by decide)
      exact .ok_bind hbelow (.ite (.pure rfl) (.throw _))

theorem shiftLeft_polys {m : Nat} {v : PolyVec m} (hv : v.InRange 0 1023) :
    map (map (shiftLeft · 13)) v.ints = .ok (v.shiftLeft 13).ints :=
  all_ok fun i => all_ok fun j =>
    fit_of (PolyVec.toInt_shiftLeft hv i j).symm (Coeff.toInt_fits _)

theorem expandKey_follows (publicKey : Bytes) :
    Follows (expandKey S publicKey) (ExpandedKey.ofBytes S publicKey) ExpandedKey.ints := by
  unfold expandKey ExpandedKey.ofBytes PublicKey.ofBytes?
  cases Octets.ofBytes? publicKeyBytes publicKey with
  | none => exact .throw _
  | some b =>
    have hbounds := PublicKey.decode_bounds b
    have hshift := shiftLeft_polys hbounds
    have hntt := toNtt_polys (PolyVec.shiftLeft_spec hbounds).2
    refine .ok_bind (decodePublicKey_ints b) (.ok_bind hshift (.ok_bind hntt ?_))
    refine .bind (.lift (matrix_ints _)) fun a _ => ?_
    exact .pure rfl

section

variable {a : Matrix rows columns} {t1 : PolyVec rows} {tr : Octets longHashBytes} {s : Signature}
  {c : Poly}

/-- Six products with values below `q` are added up before they are reduced. -/
theorem commitment_ints (ha : a.Within 8380416) (ht1 : t1.InRange 0 1023) (hc : c.Within 8380416)
    (hz : s.z.Within 8380416) :
    commitment (ExpandedKey.ints ⟨a, (t1.shiftLeft 13).toNtt, tr⟩) s.ints c.toNtt.ints =
      .ok (ExpandedKey.commitment ⟨a, (t1.shiftLeft 13).toNtt, tr⟩ s c.toNtt).ints := by
  have hu := (PolyVec.shiftLeft_spec ht1).2
  have hcn := (Poly.toNtt_spec hc (by decide)).1
  have hun := PolyVec.toNtt_within hu (by decide)
  have hproducts : (a.mulVec s.z.toNtt).Within (columns * 8380416) := fun i =>
    (Matrix.mulVec_toNtt_spec ha hz (by decide) i).2
  have hscaled := NttVec.scale_within hcn hun (by decide)
  have hdiff := NttVec.sub_within hproducts hscaled (by decide)
  have hcanon := (ExpandedKey.approximation_spec tr ha ht1 hc hz).2
  have hhints := useHints_polys s.hints hcanon
  rw [commitment, ExpandedKey.ints, Signature.ints, toNtt_polys hz, ok_bind,
    mulVec_polys ha hz (by decide), ok_bind, scale_values hcn hun (by decide), ok_bind,
    sub_values hproducts hscaled (by decide), ok_bind, residues_values hdiff (by decide), ok_bind]
  exact hhints

theorem check_follows (ha : a.Within 8380416) (ht1 : t1.InRange 0 1023)
    (hz : s.z.Within 8380416) (mu : Octets longHashBytes) :
    Follows (check S (ExpandedKey.ints ⟨a, (t1.shiftLeft 13).toNtt, tr⟩) mu s.ints)
      (ExpandedKey.check S ⟨a, (t1.shiftLeft 13).toNtt, tr⟩ mu s) id := by
  refine .bind (.lift (challengeOf_ints _)) fun c hc => ?_
  have hcw : c.Within 8380416 := HashSuite.challengeOf_within (run_lift_eq_ok.mp hc)
  have hcanon := (ExpandedKey.approximation_spec tr ha ht1 hcw hz).2
  refine .ok_bind (toNtt_ints hcw) (.ok_bind (commitment_ints ha ht1 hcw hz) ?_)
  refine .ok_bind (encodeW1_ints (HintVec.use_inRange s.hints hcanon)) ?_
  exact .ite (.pure rfl) (.throw _)

end

/-! ## All checks -/

theorem follows_signature {signature : Bytes} {x : SignatureParts → Checked Unit}
    {y : Signature → MLDSA.Checked Unit}
    (h : ∀ s : Signature, s.z.Within 524288 → Follows (x s.ints) (y s) id) :
    Follows (readSignature signature >>= x) (Signature.ofBytes signature >>= y) id := by
  refine (readSignature_follows signature).bind fun s hs => ?_
  obtain ⟨b, -, -, rfl⟩ := Signature.ofBytes_eq_ok hs
  exact h _ (Signature.within_read b)

theorem check_follows_ofBytes {publicKey : Bytes} {k : ExpandedKey}
    (hk : (ExpandedKey.ofBytes S publicKey).run = some (.ok k)) {s : Signature}
    (hz : s.z.Within 524288) (mu : Octets longHashBytes) :
    Follows (check S k.ints mu s.ints) (k.check S mu s) id := by
  obtain ⟨b, a, -, ha, rfl⟩ := ExpandedKey.ofBytes_eq_ok hk
  exact check_follows (HashSuite.matrix_within ha) (PublicKey.decode_bounds b)
    (hz.mono (by decide)) mu

theorem verifyFramed_follows (publicKey framed signature : Bytes) :
    Follows (verifyFramed S publicKey framed signature)
      (MLDSA.verifyFramed S publicKey framed signature) id :=
  follows_signature fun _ hz => (expandKey_follows publicKey).bind fun _ hk =>
    check_follows_ofBytes hk hz _

theorem follows_context {context : Bytes} {x : Checked Unit} {y : MLDSA.Checked Unit}
    (h : context.length ≤ maxContextBytes → Follows x y id) :
    Follows (do checkContext context; x) (do MLDSA.checkContext context; y) id := by
  refine (checkContext_follows context).bind fun _ hrun => h ?_
  by_contra hlong
  rw [checkContext_of_gt (Nat.not_le.mp hlong)] at hrun
  cases hrun

theorem verify_follows (publicKey message context signature : Bytes) :
    Follows (verify S publicKey message context signature)
      (MLDSA.verify S publicKey message context signature) id :=
  follows_context fun h => follows_signature fun _ hz =>
    (expandKey_follows publicKey).bind fun _ hk =>
      .ok_bind (messageRepresentative_of h _ message) (check_follows_ofBytes hk hz _)

theorem verifyExpanded_follows {publicKey : Bytes} {k : ExpandedKey}
    (hk : (ExpandedKey.ofBytes S publicKey).run = some (.ok k))
    (message context signature : Bytes) :
    Follows (verifyExpanded S k.ints message context signature)
      (MLDSA.verifyExpanded S k message context signature) id :=
  follows_context fun h => follows_signature fun _ hz =>
    .ok_bind (messageRepresentative_of h _ message) (check_follows_ofBytes hk hz _)

theorem openAttached_follows (publicKey signed context : Bytes) :
    Follows (openAttached S publicKey signed context)
      (MLDSA.openAttached S publicKey signed context) id := by
  unfold openAttached MLDSA.openAttached
  split
  · exact .throw _
  case isFalse hlen =>
    have hsignature : slice signed 0 signatureBytes = .ok (signed.take signatureBytes) :=
      if_pos ⟨Nat.zero_le _, Nat.not_lt.mp hlen⟩
    have hmessage := slice_to_end (Nat.not_lt.mp hlen) rfl
    refine .ok_bind hsignature (.ok_bind hmessage ?_)
    exact (verify_follows ..).bind fun _ _ => .pure rfl

end Exact

/-- Whatever the bytes, verification over the integers is not stopped and has the answer of the
program: no word wraps around, no product is too large to be reduced, each transform is of
coefficients below `q`, hints are used on coefficients in `[0, q)`, and each place is in its
array. -/
theorem verification_exact (S : HashSuite) :
    (∀ publicKey, (Exact.expandKey S publicKey).run.run =
      .ok ((ExpandedKey.ofBytes S publicKey).run.map (Except.map ExpandedKey.ints))) ∧
    (∀ publicKey message context signature,
      (Exact.verify S publicKey message context signature).run.run =
        .ok (verify S publicKey message context signature).run) ∧
    (∀ publicKey framed signature, (Exact.verifyFramed S publicKey framed signature).run.run =
      .ok (verifyFramed S publicKey framed signature).run) ∧
    (∀ publicKey signed context, (Exact.openAttached S publicKey signed context).run.run =
      .ok (openAttached S publicKey signed context).run) ∧
    ∀ publicKey k, (ExpandedKey.ofBytes S publicKey).run = some (.ok k) →
      ∀ message context signature,
        (Exact.verifyExpanded S k.ints message context signature).run.run =
          .ok (verifyExpanded S k message context signature).run :=
  ⟨expandKey_follows, fun _ _ _ _ => (verify_follows ..).eq,
    fun _ _ _ => (verifyFramed_follows ..).eq, fun _ _ _ => (openAttached_follows ..).eq,
    fun _ _ hk _ _ _ => (verifyExpanded_follows hk ..).eq⟩

theorem verification_exact_zeros : ∃ (k : ExpandedKey) (signature : Octets signatureBytes),
    (ExpandedKey.ofBytes HashSuite.zeros (Octets.zero publicKeyBytes).bytes).run =
      some (.ok k) ∧
    (Exact.verifyExpanded HashSuite.zeros k.ints [7] [1] signature.bytes).run.run =
      .ok (some (.ok ())) := by
  have hverify := verify_zeros ((HintVec.weight_column 1 0).trans (by decide))
    (Octets.zero publicKeyBytes) [7] (show ([1] : Bytes).length ≤ 255 by decide)
  generalize Signature.encode _ = signature at hverify
  obtain ⟨k, hk⟩ := (ExpandedKey.exists_ofBytes_iff (Octets.zero publicKeyBytes).length_eq).mpr
    ⟨_, _, rfl, HashSuite.expandsTo_zeros (PublicKey.decode (Octets.zero publicKeyBytes)).rho⟩
  have hrun := (verification_exact HashSuite.zeros).2.2.2.2 _ _ hk [7] [1] signature.bytes
  exact ⟨k, signature, hk, by rw [hrun, verifyExpanded_eq hk, hverify]⟩

end MLDSA
