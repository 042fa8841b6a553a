import MLDSA.Journal
import MLDSA.Proofs.Codec.Signature
import MLDSA.Proofs.Message
import MLDSA.Proofs.Sample

/-! # Verification by its definition

Whatever the bytes, verification accepts exactly when all conditions of the definition hold, and
else names the first that fails. The definition works with schoolbook products of the coefficients
that stand in the bytes. -/

namespace MLDSA

open Coeff

/-! ## The definition -/

namespace Schoolbook

/-- The response of a signature: `2^19` less a number of 20 bits for each coefficient. -/
def response (signature : Bytes) : Fin columns → Fin 256 → Int := fun i j =>
  524288 - ((unpackBits 20 ((signature.drop (48 + 640 * i)).take 640)).getD j 0 : Nat)

/-- The high part in a public key: a number of 10 bits for each coefficient. -/
def keyHigh (publicKey : Bytes) : Fin rows → Fin 256 → Int := fun i j =>
  ((unpackBits 10 ((publicKey.drop (32 + 320 * i)).take 320)).getD j 0 : Nat)

/-- The buckets of `A * z - c * t1 * 2^13`, moved by the hints. -/
def recommit (A : Fin rows → Fin columns → Rq) (z : Fin columns → Rq) (c : Rq)
    (t1 : Fin rows → Rq) (h : HintVec) : Fin rows → Fin 256 → Int := fun i j =>
  useHint (h i j) ((Negacyclic.mulVec A z i - c * ((2 ^ 13 : Zq) • t1 i)).coeff j)

/-- The recomputed commitment has the hash that the signature carries. -/
def ChallengeMatches (S : HashSuite) (publicKey message context signature : Bytes) : Prop :=
  ∃ rho A c, rho.bytes = publicKey.take 32 ∧ S.ExpandsTo rho A ∧
    S.challengeOf (signature.take 48) = some c ∧
    S.h.read 48 (representative S (S.h.read 64 publicKey) message context ++
      encodeW1 (recommit A (elements (response signature)) c.element (elements (keyHigh publicKey))
        (HintVec.ofListed (signature.drop 3248)))) = signature.take 48

/-- The matrix and the challenge can be sampled. -/
def Samples (S : HashSuite) (publicKey signature : Bytes) : Prop :=
  ∃ rho A c, rho.bytes = publicKey.take 32 ∧ S.ExpandsTo rho A ∧
    S.challengeOf (signature.take 48) = some c

end Schoolbook

open Schoolbook

/-! ## Parts of the bytes -/

theorem Signature.toInt_read {b : Octets signatureBytes} (i : Fin columns) (j : Fin 256) :
    ((read b).z i j).toInt = response b.bytes i j := by
  have hpiece := Octets.bytes_piece (b := b)
    (show 48 + columns * zBytes ≤ signatureBytes by decide) i
  have hcoeff := Poly.toInt_unpackRange (a := 524287) (b := 524288)
    ((b.bytes.drop (48 + 640 * i)).take 640) (show _ = 20 by decide) (by decide)
    (by decide) (by decide) j
  rw [response, ← hcoeff, ← hpiece, read, PolyVec.ofPieces_apply]
  rfl

theorem PublicKey.toInt_decode {b : Octets publicKeyBytes} (i : Fin rows) (j : Fin 256) :
    ((decode b).t1 i j).toInt = keyHigh b.bytes i j := by
  have hpiece := Octets.bytes_piece (b := b) (show 32 + rows * t1Bytes ≤ publicKeyBytes by decide) i
  have hcoeff := Poly.toInt_unpack (b := (b.bytes.drop (32 + 320 * i)).take 320)
    (show 10 ≤ 31 by decide) j
  rw [keyHigh, ← hcoeff, ← hpiece, decode, PolyVec.ofPieces_apply]
  rfl

/-! ## The recomputed commitment -/

theorem PolyVec.toInt_shiftLeft {m : Nat} {v : PolyVec m} (hv : v.InRange 0 1023) (i : Fin m)
    (j : Fin 256) : (v.shiftLeft 13 i j).toInt = (v i j).toInt * 8192 := by
  have hij := hv i j
  rw [shiftLeft, map_apply, Poly.shiftLeft, Poly.map_apply, toInt_shiftLeft_thirteen]
  constructor <;> omega

theorem PolyVec.shiftLeft_spec {m : Nat} {v : PolyVec m} (hv : v.InRange 0 1023) :
    (v.shiftLeft 13).elements = (fun i => (2 ^ 13 : Zq) • v.elements i) ∧
      (v.shiftLeft 13).Within 8380416 := by
  refine spec_of_polys fun i => Poly.spec_of_residues fun j => ?_
  have hij := hv i j
  rw [residue, size, toInt_shiftLeft hv]
  refine ⟨?_, by omega⟩
  show (((v i j).toInt * 8192 : Int) : Zq) = 2 ^ 13 * ((v i j).toInt : Zq)
  push_cast
  ring

namespace ExpandedKey

/-- The words of `A * z - c * t1 * 2^13`, before the hints. -/
def approximation (k : ExpandedKey) (z : PolyVec columns) (c : NttPoly) : PolyVec rows :=
  (k.a.mulVec z.toNtt - k.t1.scale c).residues

theorem commitment_eq (k : ExpandedKey) (s : Signature) (c : NttPoly) :
    k.commitment s c = s.hints.use (k.approximation s.z c) := rfl

variable {a : Matrix rows columns} {t1 : PolyVec rows} {c : Poly} {tr : Octets longHashBytes}

variable (tr) in
theorem approximation_spec {z : PolyVec columns} (ha : a.Within 8380416) (ht1 : t1.InRange 0 1023)
    (hc : c.Within 8380416) (hz : z.Within 8380416) :
    (approximation ⟨a, (t1.shiftLeft 13).toNtt, tr⟩ z c.toNtt).elements = (fun i =>
        Negacyclic.mulVec a.elements z.elements i - c.element * ((2 ^ 13 : Zq) • t1.elements i)) ∧
      (approximation ⟨a, (t1.shiftLeft 13).toNtt, tr⟩ z c.toNtt).IsCanonical := by
  obtain ⟨hshift, hwithin⟩ := PolyVec.shiftLeft_spec ht1
  obtain ⟨helements, hcanon⟩ := Matrix.product_sub_spec ha hz hc hwithin (by decide)
  rw [hshift] at helements
  exact ⟨helements, hcanon⟩

theorem bytes_commitment {s : Signature} (ha : a.Within 8380416) (ht1 : t1.InRange 0 1023)
    (hc : c.Within 8380416) (hz : s.z.Within 8380416) :
    (commitment ⟨a, (t1.shiftLeft 13).toNtt, tr⟩ s c.toNtt).encodeW1.bytes =
      encodeW1 (recommit a.elements s.z.elements c.element t1.elements s.hints) := by
  obtain ⟨helements, hcanon⟩ := approximation_spec tr ha ht1 hc hz
  refine PolyVec.bytes_encodeW1 (fun i j => ?_) fun i j => useHint_bounds _ _
  rw [commitment_eq, HintVec.toInt_use _ hcanon, helements]
  rfl

end ExpandedKey

/-! ## Each check -/

theorem checkContext_of_le {context : Bytes} (h : context.length ≤ 255) :
    (checkContext context).run = some (.ok ()) := by
  rw [checkContext, if_neg (Nat.not_lt.mpr h)]
  rfl

theorem checkContext_of_gt {context : Bytes} (h : 255 < context.length) :
    (checkContext context).run = some (.error (.contextLength context.length)) := by
  rw [checkContext, if_pos h]
  rfl

theorem verify_of_le {context : Bytes} (h : context.length ≤ 255) (S : HashSuite)
    (publicKey message signature : Bytes) : (verify S publicKey message context signature).run =
      (verifyFramed S publicKey (frame context message) signature).run := by
  unfold verify verifyFramed
  simp only [HashSuite.messageRepresentative_eq]
  exact run_bind_of_ok (checkContext_of_le h)

theorem verify_of_gt {context : Bytes} (h : 255 < context.length) (S : HashSuite)
    (publicKey message signature : Bytes) : (verify S publicKey message context signature).run =
      some (.error (.contextLength context.length)) :=
  run_bind_of_error (checkContext_of_gt h)

/-- The response is not too large. -/
def Schoolbook.ResponseBelow (signature : Bytes) : Prop :=
  ∀ i j, (response signature i j).natAbs < 2 ^ 19 - 196

theorem Signature.isBelow_read_iff {b : Octets signatureBytes} :
    (read b).z.isBelow (Int32.ofNat (gamma1 - beta)) = true ↔ ResponseBelow b.bytes := by
  rw [PolyVec.isBelow_iff (within_read b) (by decide) (by decide)]
  refine forall_congr' fun i => forall_congr' fun j => ?_
  have hsize := within_read b i j
  have hword := toInt_read (b := b) i j
  rw [size, hword] at hsize
  have habs : absResidue (((read b).z.elements i).coeff j) = (response b.bytes i j).natAbs := by
    show absResidue (((read b).z i j).toInt : Zq) = _
    rw [hword, absResidue_intCast (by omega)]
  rw [habs]
  exact Iff.rfl

theorem Signature.responseBelow_of_read {b : Octets signatureBytes} {z : Fin columns → Rq}
    (hz : IsBelow (gamma1 - beta) z) (hread : (read b).z = PolyVec.ofElements z) :
    ResponseBelow b.bytes := by
  rw [← isBelow_read_iff, hread, PolyVec.isBelow_iff (PolyVec.within_ofElements z) (by decide)
    (by decide), PolyVec.elements_ofElements]
  exact hz

theorem Signature.ofBytes_of_decoder {d : Octets signatureBytes → Option Signature}
    (hd : decode? = d) (b : Bytes) :
    (b.length ≠ signatureBytes ∧
        (Signature.ofBytes b).run = some (.error (.signatureLength b.length))) ∨
      ∃ o : Octets signatureBytes, b = o.bytes ∧
        ((d o = none ∧ (Signature.ofBytes b).run = some (.error .malformedHints)) ∨
          ∃ s, d o = some s ∧ (Signature.ofBytes b).run =
            if s.z.isBelow (Int32.ofNat (gamma1 - beta)) then some (.ok s)
            else some (.error .zNorm)) := by
  unfold Signature.ofBytes
  -- With a variable in its place, the decoder is not evaluated.
  rw [hd]
  cases hb : Octets.ofBytes? signatureBytes b with
  | none => exact .inl ⟨Octets.ofBytes?_eq_none.mp hb, rfl⟩
  | some o =>
    refine .inr ⟨o, Octets.ofBytes?_eq_some.mp hb, ?_⟩
    cases ho : d o with
    | none => exact .inl ⟨rfl, by simp only [ho]; rfl⟩
    | some s =>
      refine .inr ⟨s, rfl, ?_⟩
      simp only [ho]
      split
      · rfl
      · rfl

theorem Signature.ofBytes_cases (b : Bytes) :
    (b.length ≠ 3309 ∧ (Signature.ofBytes b).run = some (.error (.signatureLength b.length))) ∨
      ∃ o : Octets signatureBytes, b = o.bytes ∧
        ((¬ HintVec.WellFormed (b.drop 3248) ∧
            (Signature.ofBytes b).run = some (.error .malformedHints)) ∨
          HintVec.WellFormed (b.drop 3248) ∧
            ((¬ ResponseBelow b ∧ (Signature.ofBytes b).run = some (.error .zNorm)) ∨
              ResponseBelow b ∧ (Signature.ofBytes b).run = some (.ok (read o)))) := by
  rcases ofBytes_of_decoder rfl b with h | ⟨o, rfl, ⟨hnone, h⟩ | ⟨s, hsome, h⟩⟩
  · exact .inl h
  · exact .inr ⟨o, rfl, .inl ⟨decode?_eq_none.mp hnone, h⟩⟩
  · obtain ⟨hwf, rfl⟩ := decode?_eq_some.mp hsome
    refine .inr ⟨o, rfl, .inr ⟨hwf, ?_⟩⟩
    by_cases hbelow : ResponseBelow o.bytes
    · rw [if_pos (isBelow_read_iff.mpr hbelow)] at h
      exact .inr ⟨hbelow, h⟩
    · rw [if_neg fun hz => hbelow (isBelow_read_iff.mp hz)] at h
      exact .inl ⟨hbelow, h⟩

theorem ExpandedKey.ofBytes_cases (S : HashSuite) (b : Bytes) :
    (b.length ≠ 1952 ∧ (ofBytes S b).run = some (.error (.publicKeyLength b.length))) ∨
      ∃ o : Octets publicKeyBytes, b = o.bytes ∧
        ((S.matrix (PublicKey.decode o).rho = none ∧ (ofBytes S b).run = none) ∨
          ∃ a, S.matrix (PublicKey.decode o).rho = some a ∧ (ofBytes S b).run =
            some (.ok ⟨a, ((PublicKey.decode o).t1.shiftLeft 13).toNtt, S.keyHash b⟩)) := by
  unfold ofBytes PublicKey.ofBytes?
  cases hb : Octets.ofBytes? publicKeyBytes b with
  | none => exact .inl ⟨Octets.ofBytes?_eq_none.mp hb, rfl⟩
  | some o =>
    refine .inr ⟨o, Octets.ofBytes?_eq_some.mp hb, ?_⟩
    simp only [Option.map_some]
    cases ha : S.matrix (PublicKey.decode o).rho with
    | none => exact .inl ⟨rfl, run_bind_of_none rfl⟩
    | some a => exact .inr ⟨a, rfl, run_bind_of_ok rfl⟩

theorem Signature.ofBytes_eq_ok {b : Bytes} {s : Signature}
    (h : (Signature.ofBytes b).run = some (.ok s)) :
    ∃ o : Octets signatureBytes, b = o.bytes ∧ decode? o = some s ∧ s = read o := by
  rcases ofBytes_cases b with ⟨-, hrun⟩ | ⟨o, rfl, ⟨-, hrun⟩ | ⟨hwf, ⟨-, hrun⟩ | ⟨-, hrun⟩⟩⟩
  · rw [h] at hrun
    cases hrun
  · rw [h] at hrun
    cases hrun
  · rw [h] at hrun
    cases hrun
  · rw [h] at hrun
    cases hrun
    exact ⟨o, rfl, decode?_eq_some.mpr ⟨hwf, rfl⟩, rfl⟩

theorem ExpandedKey.ofBytes_eq_ok {S : HashSuite} {b : Bytes} {k : ExpandedKey}
    (h : (ofBytes S b).run = some (.ok k)) :
    ∃ (o : Octets publicKeyBytes) (a : Matrix rows columns), b = o.bytes ∧
      S.matrix (PublicKey.decode o).rho = some a ∧
      k = ⟨a, ((PublicKey.decode o).t1.shiftLeft 13).toNtt, S.keyHash b⟩ := by
  rcases ofBytes_cases S b with ⟨-, hrun⟩ | ⟨o, ho, ⟨-, hrun⟩ | ⟨a, ha, hrun⟩⟩
  · rw [h] at hrun
    cases hrun
  · rw [h] at hrun
    cases hrun
  · rw [h] at hrun
    cases hrun
    exact ⟨o, a, ho, ha, rfl⟩

theorem ExpandedKey.isCanonical_approximation {S : HashSuite} {publicKey signature : Bytes}
    {k : ExpandedKey} {s : Signature} {c : Poly} (hk : (ofBytes S publicKey).run = some (.ok k))
    (hs : (Signature.ofBytes signature).run = some (.ok s))
    (hc : S.challengeOf s.challenge.bytes = some c) :
    (k.approximation s.z c.toNtt).IsCanonical := by
  obtain ⟨o, -, -, rfl⟩ := Signature.ofBytes_eq_ok hs
  obtain ⟨pk, a, -, ha, rfl⟩ := ofBytes_eq_ok hk
  exact (approximation_spec _ (HashSuite.matrix_within ha) (PublicKey.decode_bounds pk)
    (HashSuite.challengeOf_within hc) ((Signature.within_read o).mono (by decide))).2

theorem ExpandedKey.check_cases (S : HashSuite) (k : ExpandedKey) (mu : Octets longHashBytes)
    (s : Signature) :
    (S.challengeOf s.challenge.bytes = none ∧ (k.check S mu s).run = none) ∨
      ∃ c, S.challengeOf s.challenge.bytes = some c ∧ (k.check S mu s).run =
        if S.challenge mu (k.commitment s c.toNtt).encodeW1.bytes = s.challenge then some (.ok ())
        else some (.error .challengeMismatch) := by
  unfold check
  cases hc : S.challengeOf s.challenge.bytes with
  | none => exact .inl ⟨rfl, run_bind_of_none rfl⟩
  | some c =>
    refine .inr ⟨c, rfl, (run_bind_of_ok (a := c) rfl).trans ?_⟩
    split
    · rfl
    · rfl

theorem ExpandedKey.check_eq_ok {S : HashSuite} {k : ExpandedKey} {mu : Octets longHashBytes}
    {s : Signature} : (k.check S mu s).run = some (.ok ()) ↔
      ∃ c, S.challengeOf s.challenge.bytes = some c ∧
        S.challenge mu (k.commitment s c.toNtt).encodeW1.bytes = s.challenge := by
  rcases k.check_cases S mu s with ⟨hnone, hrun⟩ | ⟨c, hc, hrun⟩
  · rw [hrun, hnone]
    refine iff_of_false nofun ?_
    rintro ⟨c, hc, -⟩
    cases hc
  · rw [hrun, hc]
    constructor
    · intro h
      split at h
      · exact ⟨c, rfl, ‹_›⟩
      · cases h
    · rintro ⟨c', hc', hhash⟩
      cases hc'
      exact if_pos hhash

/-! ## All checks -/

theorem samples_iff {S : HashSuite} {pk : Octets publicKeyBytes} {sig : Octets signatureBytes} :
    Samples S pk.bytes sig.bytes ↔ (∃ a, S.matrix (PublicKey.decode pk).rho = some a) ∧
      ∃ c, S.challengeOf (Signature.read sig).challenge.bytes = some c := by
  rw [HashSuite.exists_matrix_iff]
  constructor
  · rintro ⟨rho, A, c, hrho, hA, hc⟩
    have hrho' : rho = (PublicKey.decode pk).rho := Octets.ext hrho
    exact ⟨⟨A, hrho' ▸ hA⟩, c, hc⟩
  · rintro ⟨⟨A, hA⟩, c, hc⟩
    exact ⟨_, A, c, rfl, hA, hc⟩

theorem challengeMatches_iff {S : HashSuite} {pk : Octets publicKeyBytes}
    {sig : Octets signatureBytes} {message context : Bytes} {a : Matrix rows columns} {c : Poly}
    (ha : S.matrix (PublicKey.decode pk).rho = some a)
    (hc : S.challengeOf (Signature.read sig).challenge.bytes = some c) :
    ChallengeMatches S pk.bytes message context sig.bytes ↔
      S.challenge (S.representative (S.keyHash pk.bytes) (frame context message))
        (ExpandedKey.commitment ⟨a, ((PublicKey.decode pk).t1.shiftLeft 13).toNtt,
          S.keyHash pk.bytes⟩ (Signature.read sig) c.toNtt).encodeW1.bytes =
        (Signature.read sig).challenge := by
  rw [ExpandedKey.bytes_commitment (HashSuite.matrix_within ha) (PublicKey.decode_bounds pk)
    (HashSuite.challengeOf_within hc) ((Signature.within_read sig).mono (by decide)),
    PolyVec.elements_eq Signature.toInt_read, PolyVec.elements_eq PublicKey.toInt_decode]
  constructor
  · rintro ⟨rho, A, c', hrho, hA, hc', hhash⟩
    have hrho' : rho = (PublicKey.decode pk).rho := Octets.ext hrho
    subst hrho'
    obtain rfl := (HashSuite.expandsTo_iff ha).mp hA
    obtain rfl : c' = c := Option.some.inj (hc'.symm.trans hc)
    exact Octets.ext hhash
  · intro hhash
    exact ⟨_, a.elements, c, rfl, (HashSuite.expandsTo_iff ha).mpr rfl, hc,
      congrArg Octets.bytes hhash⟩

theorem samples_of_matches {S : HashSuite} {publicKey message context signature : Bytes}
    (h : ChallengeMatches S publicKey message context signature) :
    Samples S publicKey signature := by
  obtain ⟨rho, A, c, hrho, hA, hc, -⟩ := h
  exact ⟨rho, A, c, hrho, hA, hc⟩

/-! ## The first check that fails -/

/-- A condition of the definition, with the reason and the line that its failure gives. -/
structure Check where
  holds : Prop
  refusal : Refusal
  line : Entry

namespace Schoolbook

/-- The conditions in their order. -/
def checks (S : HashSuite) (publicKey message context signature : Bytes) : List Check := [
  ⟨context.length ≤ 255, .contextLength context.length,
    ⟨.debug, s!"verify: context of {context.length} bytes"⟩⟩,
  ⟨signature.length = 3309, .signatureLength signature.length,
    ⟨.debug, s!"verify: signature length {signature.length} (expected {signatureBytes})"⟩⟩,
  ⟨HintVec.WellFormed (signature.drop 3248), .malformedHints,
    ⟨.debug, "verify: malformed hint encoding"⟩⟩,
  ⟨ResponseBelow signature, .zNorm, ⟨.debug, "verify: z outside the norm bound"⟩⟩,
  ⟨publicKey.length = 1952, .publicKeyLength publicKey.length,
    ⟨.debug, s!"verify: public key length {publicKey.length} (expected {publicKeyBytes})"⟩⟩,
  ⟨ChallengeMatches S publicKey message context signature, .challengeMismatch,
    ⟨.debug, "verify: challenge mismatch"⟩⟩]

/-- The first check that does not hold. -/
def FirstFailure : List Check → Check → Prop
  | [], _ => False
  | check :: rest, failed => ¬ check.holds ∧ failed = check ∨ check.holds ∧ FirstFailure rest failed

open Classical in
/-- The first check that fails is the answer, or else `last` is. -/
noncomputable def answerOf (last : Option (Except Refusal Unit)) :
    List Check → Option (Except Refusal Unit)
  | [] => last
  | check :: rest => if check.holds then answerOf last rest else some (.error check.refusal)

variable {l l' : List Check} {check failed : Check} {last answer : Option (Except Refusal Unit)}

theorem answerOf_of_holds (h : check.holds) :
    answerOf last (check :: l) = answerOf last l := if_pos h

theorem answerOf_of_not (h : ¬ check.holds) :
    answerOf last (check :: l) = some (.error check.refusal) := if_neg h

theorem answerOf_eq_iff (hanswer : ∀ r, answer ≠ some (.error r)) :
    answerOf last l = answer ↔ (∀ check ∈ l, check.holds) ∧ last = answer := by
  induction l with
  | nil => simp [answerOf]
  | cons check l ih =>
    rw [List.forall_mem_cons]
    by_cases h : check.holds
    · rw [answerOf_of_holds h, ih]
      tauto
    · rw [answerOf_of_not h]
      exact iff_of_false (hanswer _).symm fun h' => h h'.1.1

theorem answerOf_eq_error (hlast : ∀ r, last ≠ some (.error r)) {r : Refusal} :
    answerOf last l = some (.error r) ↔ ∃ failed, FirstFailure l failed ∧ failed.refusal = r := by
  induction l with
  | nil => simp [answerOf, FirstFailure, hlast]
  | cons check l ih =>
    by_cases h : check.holds
    · rw [answerOf_of_holds h, ih]
      simp [FirstFailure, h]
    · rw [answerOf_of_not h]
      simp [FirstFailure, h]

theorem answerOf_append : answerOf last (l ++ l') = answerOf (answerOf last l') l := by
  induction l with
  | nil => rfl
  | cons check l ih => rw [List.cons_append, answerOf, answerOf, ih]

theorem FirstFailure.mem (h : FirstFailure l failed) : failed ∈ l := by
  induction l with
  | nil => exact h.elim
  | cons check l ih =>
    rcases h with ⟨-, rfl⟩ | ⟨-, h⟩
    · exact List.mem_cons_self
    · exact List.mem_cons_of_mem check (ih h)

theorem firstFailure_append : FirstFailure (l ++ l') failed ↔
    FirstFailure l failed ∨ (∀ check ∈ l, check.holds) ∧ FirstFailure l' failed := by
  induction l with
  | nil => simp [FirstFailure]
  | cons check l ih =>
    rw [List.cons_append, FirstFailure, FirstFailure, ih, List.forall_mem_cons]
    tauto

end Schoolbook

open Classical in
theorem verify_run (S : HashSuite) (publicKey message context signature : Bytes) :
    (verify S publicKey message context signature).run = answerOf
      (if Samples S publicKey signature then
        answerOf (some (.ok ())) ((checks S publicKey message context signature).drop 5)
      else none) ((checks S publicKey message context signature).take 5) := by
  simp only [checks, List.take_succ_cons, List.take_zero, List.drop_succ_cons, List.drop_zero,
    answerOf]
  by_cases hctx : context.length ≤ 255
  case neg => rw [if_neg hctx, verify_of_gt (Nat.not_le.mp hctx)]
  rw [if_pos hctx, verify_of_le hctx, verifyFramed]
  rcases Signature.ofBytes_cases signature with
    ⟨hlen, hrun⟩ | ⟨sig, rfl, ⟨hwf, hrun⟩ | ⟨hwf, ⟨hz, hrun⟩ | ⟨hz, hrun⟩⟩⟩
  · rw [run_bind_of_error hrun, if_neg hlen]
  · rw [run_bind_of_error hrun, if_pos sig.length_eq, if_neg hwf]
  · rw [run_bind_of_error hrun, if_pos sig.length_eq, if_pos hwf, if_neg hz]
  rw [run_bind_of_ok hrun, if_pos sig.length_eq, if_pos hwf, if_pos hz]
  rcases ExpandedKey.ofBytes_cases S publicKey with
    ⟨hlen, hrun⟩ | ⟨pk, rfl, ⟨ha, hrun⟩ | ⟨a, ha, hrun⟩⟩
  · rw [run_bind_of_error hrun, if_neg hlen]
  · rw [run_bind_of_none hrun, if_pos pk.length_eq, if_neg fun h => ?_]
    obtain ⟨⟨a, ha'⟩, -⟩ := samples_iff.mp h
    rw [ha] at ha'
    cases ha'
  rw [run_bind_of_ok hrun, if_pos pk.length_eq]
  rcases ExpandedKey.check_cases S ⟨a, ((PublicKey.decode pk).t1.shiftLeft 13).toNtt,
    S.keyHash pk.bytes⟩ (S.representative (S.keyHash pk.bytes) (frame context message))
    (Signature.read sig) with ⟨hc, hrun⟩ | ⟨c, hc, hrun⟩
  · rw [hrun, if_neg fun h => ?_]
    obtain ⟨-, c, hc'⟩ := samples_iff.mp h
    rw [hc] at hc'
    cases hc'
  · rw [hrun, if_pos (samples_iff.mpr ⟨⟨a, ha⟩, c, hc⟩)]
    simp only [challengeMatches_iff ha hc]

theorem verify_of_checks {S : HashSuite} {publicKey message context signature : Bytes}
    (hctx : context.length ≤ 255) (hlen : signature.length = 3309)
    (hwf : HintVec.WellFormed (signature.drop 3248)) (hz : ResponseBelow signature)
    (hpk : publicKey.length = 1952)
    (hmatch : ChallengeMatches S publicKey message context signature) :
    (verify S publicKey message context signature).run = some (.ok ()) := by
  rw [verify_run, if_pos (samples_of_matches hmatch)]
  refine (answerOf_eq_iff (by simp)).mpr ⟨?_, (answerOf_eq_iff (by simp)).mpr ⟨?_, rfl⟩⟩
  · simpa [checks] using ⟨hctx, hlen, hwf, hz, hpk⟩
  · simpa [checks] using hmatch

/-- Verification accepts if all checks of the definition hold. It refuses for the first one that
fails, with one line that names it. There is no answer if all checks that need no sample hold and a
sample is not found. -/
theorem verify_spec (S : HashSuite) (publicKey message context signature : Bytes) :
    ((verify S publicKey message context signature).run = some (.ok ()) ↔
      ∀ check ∈ checks S publicKey message context signature, check.holds) ∧
    (∀ r, (verify S publicKey message context signature).run = some (.error r) ↔
      ∃ failed, FirstFailure (checks S publicKey message context signature) failed ∧
        failed.refusal = r ∧ r.entry = failed.line ∧
        (r = .challengeMismatch → Samples S publicKey signature)) ∧
    ((verify S publicKey message context signature).run = none ↔
      (∀ check ∈ (checks S publicKey message context signature).take 5, check.holds) ∧
        ¬ Samples S publicKey signature) := by
  have hrun := verify_run S publicKey message context signature
  have hlines : ∀ check ∈ checks S publicKey message context signature,
      check.refusal.entry = check.line := by
    simp [checks, Refusal.entry]
  have hearly : ∀ check ∈ (checks S publicKey message context signature).take 5,
      check.refusal ≠ .challengeMismatch := by
    simp [checks]
  have hlater : ∀ check ∈ (checks S publicKey message context signature).drop 5,
      check.refusal = .challengeMismatch := by
    simp [checks]
  have hsampled : (∀ check ∈ checks S publicKey message context signature, check.holds) →
      Samples S publicKey signature := by
    intro h
    have hmatch : ChallengeMatches S publicKey message context signature :=
      h _ (List.mem_of_mem_drop (i := 5) List.mem_cons_self)
    exact samples_of_matches hmatch
  rw [hrun]
  by_cases hsamples : Samples S publicKey signature
  · rw [if_pos hsamples, ← answerOf_append, List.take_append_drop]
    refine ⟨(answerOf_eq_iff (by simp)).trans (and_iff_left rfl), fun r => ?_,
      iff_of_false (fun h => ?_) fun h => h.2 hsamples⟩
    · refine (answerOf_eq_error (by simp)).trans (exists_congr fun failed => ?_)
      refine and_congr_right fun hfail => ⟨?_, fun h => h.1⟩
      rintro rfl
      exact ⟨rfl, hlines failed hfail.mem, fun _ => hsamples⟩
    · cases ((answerOf_eq_iff (by simp)).mp h).2
  · rw [if_neg hsamples]
    refine ⟨iff_of_false (fun h => ?_) fun h => hsamples (hsampled h), fun r => ?_,
      (answerOf_eq_iff (by simp)).trans ((and_iff_left rfl).trans (and_iff_left hsamples).symm)⟩
    · cases ((answerOf_eq_iff (by simp)).mp h).2
    · rw [answerOf_eq_error (by simp)]
      constructor
      · rintro ⟨failed, hfail, rfl⟩
        have hmem := hfail.mem
        refine ⟨failed, ?_, rfl, hlines failed (List.mem_of_mem_take hmem), fun h => ?_⟩
        · rw [← List.take_append_drop 5 (checks S publicKey message context signature)]
          exact firstFailure_append.mpr (.inl hfail)
        · exact absurd h (hearly failed hmem)
      · rintro ⟨failed, hfail, rfl, -, h⟩
        rw [← List.take_append_drop 5 (checks S publicKey message context signature)] at hfail
        rcases firstFailure_append.mp hfail with hfail | ⟨-, hfail⟩
        · exact ⟨failed, hfail, rfl⟩
        · exact absurd (h (hlater failed hfail.mem)) hsamples

end MLDSA
