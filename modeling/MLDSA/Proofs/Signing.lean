import MLDSA.Journal
import MLDSA.Proofs.Codec.Signature
import MLDSA.Proofs.Message
import MLDSA.Proofs.Sample

/-! # Signing by its definition

Signing is the loop of the definition, with schoolbook products of the coefficients that stand in
the bytes. The key fact is that each test of an attempt decides on residues alone, so it does not
matter which representatives an attempt computes with. -/

namespace MLDSA

open Coeff

/-! ## The definition -/

namespace Schoolbook

/-- A secret of a secret key that has its place from `start` on: `4` less a number of four bits for
each coefficient. -/
def secret (m start : Nat) (secretKey : Bytes) : Fin m → Fin 256 → Int := fun i j =>
  4 - ((unpackBits 4 ((secretKey.drop (start + 128 * i)).take 128)).getD j 0 : Nat)

/-- The low part in a secret key: `2^12` less a number of 13 bits for each coefficient. -/
def keyLow (secretKey : Bytes) : Fin rows → Fin 256 → Int := fun i j =>
  4096 - ((unpackBits 13 ((secretKey.drop (1536 + 416 * i)).take 416)).getD j 0 : Nat)

/-- The masks of an attempt: `2^19` less a number of 20 bits of the stream for each coefficient. -/
def masks (S : HashSuite) (seed : Bytes) (kappa : Nat) : Fin columns → Fin 256 → Int := fun i j =>
  524288 - ((unpackBits 20 (S.h.read 640 (seed ++ bytes16 (5 * kappa + i)))).getD j 0 : Nat)

/-- The number of coefficients whose buckets differ. -/
def moves (a b : Fin rows → Rq) : Nat := (Finset.univ.filter fun p : Fin rows × Fin 256 =>
  highBits ((a p.1).coeff p.2) ≠ highBits ((b p.1).coeff p.2)).card

instance {m : Nat} (bound : Nat) (v : Fin m → Rq) : Decidable (IsBelow bound v) :=
  inferInstanceAs (Decidable (∀ i j, absResidue ((v i).coeff j) < bound))

instance {m : Nat} (bound : Nat) (v : Fin m → Rq) : Decidable (LowBitsBelow bound v) :=
  inferInstanceAs (Decidable (∀ i j, (lowBits ((v i).coeff j)).natAbs < bound))

/-- The answer for the response `z`, the rest `r = w - c * s2` and the error `u = c * t0`: the first
test that fails, or the signature. -/
def answer (challenge : Octets challengeBytes) (z : Fin columns → Rq) (r u : Fin rows → Rq) :
    Except Rejection Signature :=
  if ¬ IsBelow (gamma1 - beta) z then .error .zNorm
  else if ¬ LowBitsBelow (gamma2 - beta) r then .error .lowBitsNorm
  else if ¬ IsBelow gamma2 u then .error .ct0Norm
  else if ¬ moves (r + u) r ≤ omega then .error .tooManyHints
  else .ok ⟨challenge, PolyVec.ofElements z, HintVec.ofMoves (r + u) r⟩

/-- The hash that ties the challenge to the buckets of the commitment. -/
def challengeHash (S : HashSuite) (mu : Bytes) (w : Fin rows → Rq) : Octets challengeBytes :=
  S.digest 48 (mu ++ encodeW1 fun i j => highBits ((w i).coeff j))

/-- What a key knows when it signs. -/
structure Secrets where
  A : Fin rows → Fin columns → Rq
  s1 : Fin columns → Rq
  s2 : Fin rows → Rq
  t0 : Fin rows → Rq

/-- The attempt with number `kappa`, if its challenge can be sampled. -/
def attempt (S : HashSuite) (k : Secrets) (mu seed : Bytes) (kappa : Nat) :
    Option (Except Rejection Signature) :=
  let y := elements (masks S seed kappa)
  let w := Negacyclic.mulVec k.A y
  let challenge := challengeHash S mu w
  (S.challengeOf challenge.bytes).map fun c => answer challenge
    (fun j => y j + c.element * k.s1 j) (fun i => w i - c.element * k.s2 i)
    (fun i => c.element * k.t0 i)

/-- The attempts at a message with its context. -/
def attempts (S : HashSuite) (A : Fin rows → Fin columns → Rq) (secretKey message context : Bytes)
    (rnd : Octets seedBytes) : Nat → Option (Except Rejection Signature) :=
  let mu := representative S ((secretKey.drop 64).take 64) message context
  let k : Secrets := ⟨A, elements (secret columns 128 secretKey),
    elements (secret rows 768 secretKey), elements (keyLow secretKey)⟩
  attempt S k mu (S.h.read 64 ((secretKey.drop 32).take 32 ++ rnd.bytes ++ mu))

/-- Four bits above 8 where the secrets have their place. -/
def LargeSecret (secretKey : Bytes) : Prop :=
  ∃ x ∈ (secretKey.drop 128).take 1408, 8 < x.toNat % 16 ∨ 8 < x.toNat / 16

/-- What is wrong with the context, or else with the key. -/
def Unfit (secretKey context : Bytes) (e : Error) : Prop :=
  255 < context.length ∧ e = .contextTooLong context.length ∨
  context.length ≤ 255 ∧ secretKey.length ≠ 4032 ∧ e = .invalidKeyLength 4032 secretKey.length ∨
  context.length ≤ 255 ∧ secretKey.length = 4032 ∧ LargeSecret secretKey ∧ e = .encodingError

/-- A context and a key that can sign. -/
def Fit (secretKey context : Bytes) : Prop :=
  context.length ≤ 255 ∧ secretKey.length = 4032 ∧ ¬ LargeSecret secretKey

/-- The first `n` attempts are rejected, for these reasons. -/
def Rejected {α : Type} (attempt : Nat → Option (Except Rejection α)) (n : Nat)
    (reason : Nat → Rejection) : Prop := ∀ i < n, attempt i = some (.error (reason i))

/-- A line for each of the first `n` attempts. -/
def rejectionLines (n : Nat) (reason : Nat → Rejection) : List Entry :=
  (List.range n).map fun i => ⟨.trace, s!"signing attempt {i} rejected: {(reason i).name}"⟩

/-- The run that ends with the first attempt that passes, or gives up after 1000. -/
def Loop (attempt : Nat → Option (Except Rejection Signature))
    (run : SigningRun (Octets signatureBytes)) : Prop :=
  (∃ kappa < 1000, ∃ reason s, Rejected attempt kappa reason ∧ attempt kappa = some (.ok s) ∧
    run.rejections = (List.range kappa).map reason ∧ run.result = .ok s.encode ∧
    run.journal = rejectionLines kappa reason ++
      [⟨.debug, s!"signature produced after {kappa + 1} attempt(s)"⟩]) ∨
  ∃ reason, Rejected attempt 1000 reason ∧
    run.rejections = (List.range 1000).map reason ∧
    run.result = .error (.signingAttemptsExhausted 1000) ∧
    run.journal = rejectionLines 1000 reason ++
      [⟨.error, s!"signing gave up after {maxAttempts} attempts"⟩]

end Schoolbook

open Schoolbook

/-! ## Parts of the bytes -/

namespace HashSuite

theorem toInt_masks (S : HashSuite) (seed : Octets longHashBytes) (kappa : Nat) (i : Fin columns)
    (j : Fin 256) :
    (S.masks seed kappa i j).toInt = Schoolbook.masks S seed.bytes kappa i j := by
  have hcoeff := Poly.toInt_unpackRange (a := 524287) (b := 524288)
    (S.h.read 640 (seed.bytes ++ bytes16 (5 * kappa + i.val))) (show _ = 20 by decide)
    (by decide) (by decide) (by decide) j
  rw [Schoolbook.masks, ← hcoeff, masks_apply]
  rfl

end HashSuite

namespace SecretKey

variable {b : Octets secretKeyBytes} {sk : SecretKey}

theorem toInt_of_decodeSecret? {o : Octets secretBytes} {p : Poly}
    (h : Poly.decodeSecret? o = some p) (j : Fin 256) :
    (p j).toInt = 4 - ((unpackBits 4 o.bytes).getD j 0 : Nat) := by
  simp only [Poly.decodeSecret?, Option.ite_none_right_eq_some, Option.some.injEq] at h
  obtain ⟨-, rfl⟩ := h
  exact Poly.toInt_unpackRange (a := 4) (b := 4) o.bytes (show _ = 4 by decide) (by decide)
    (by decide) (by decide) j

theorem toInt_secret {m start : Nat} {v : PolyVec m} (hle : start + m * secretBytes ≤ 4032)
    (h : allSome ((b.slice start (m * secretBytes) hle).pieces.map Poly.decodeSecret?) =
      some v.polys) (i : Fin m) (j : Fin 256) :
    (v i j).toInt = secret m start b.bytes i j := by
  rw [secret, ← Octets.bytes_piece hle i]
  exact toInt_of_decodeSecret? (eq_some_of_allSome_map h i) j

theorem elements_of_decode? (h : decode? b = some sk) :
    sk.s1.elements = elements (secret columns 128 b.bytes) ∧
      sk.s2.elements = elements (secret rows 768 b.bytes) ∧
      sk.t0.elements = elements (keyLow b.bytes) := by
  obtain ⟨h1, h2, h0, -⟩ := decode?_eq_some h
  refine ⟨PolyVec.elements_eq (toInt_secret _ h1), PolyVec.elements_eq (toInt_secret _ h2),
    PolyVec.elements_eq fun i j => ?_⟩
  have hpiece := Octets.bytes_piece (b := b)
    (show 1536 + rows * t0Bytes ≤ secretKeyBytes by decide) i
  have hcoeff := Poly.toInt_unpackRange (a := 4095) (b := 4096)
    ((b.bytes.drop (1536 + 416 * i)).take 416) (show _ = 13 by decide) (by decide)
    (by decide) (by decide) j
  rw [keyLow, ← hcoeff, ← hpiece, h0, PolyVec.ofPieces_apply]
  rfl

end SecretKey

/-! ## One attempt -/

namespace HintVec

theorem weight_ofMoves (a b : Fin rows → Rq) : (ofMoves a b).weight = moves a b := by
  rw [weight_eq_card]
  refine congrArg Finset.card (Finset.filter_congr fun p _ => ?_)
  rw [ofMoves_apply]
  exact bne_iff_ne

end HintVec

theorem unless_throw_eq {ε α : Type} {p : Prop} [Decidable p] {e : ε} {f : PUnit → Except ε α} :
    (if p then f ⟨⟩ else throw e >>= f) = if ¬ p then .error e else f ⟨⟩ := by
  by_cases hp : p
  · rw [if_pos hp, if_neg (not_not.mpr hp)]
  · rw [if_neg hp, if_pos hp]
    rfl

theorem map_ite {ε α β : Type} {p : Prop} [Decidable p] {e : ε} {x : Except ε α} {y : Except ε β}
    (f : α → β) (h : x.map f = y) :
    (if p then .error e else x).map f = if p then .error e else y := by
  rw [← h]
  exact apply_ite (Except.map f) p _ _

namespace Schoolbook

theorem answer_eq_ok {challenge : Octets challengeBytes} {z : Fin columns → Rq}
    {r u : Fin rows → Rq} {s : Signature} : answer challenge z r u = .ok s ↔
    IsBelow (gamma1 - beta) z ∧ LowBitsBelow (gamma2 - beta) r ∧ IsBelow gamma2 u ∧
      moves (r + u) r ≤ omega ∧
      s = ⟨challenge, PolyVec.ofElements z, HintVec.ofMoves (r + u) r⟩ := by
  unfold answer
  constructor
  · intro h
    split_ifs at h with hz hr hu hw
    cases h
    exact ⟨hz, hr, hu, hw, rfl⟩
  · rintro ⟨hz, hr, hu, hw, rfl⟩
    rw [if_neg (not_not.mpr hz), if_neg (not_not.mpr hr), if_neg (not_not.mpr hu),
      if_neg (not_not.mpr hw)]

theorem attempt_eq_ok {S : HashSuite} {k : Secrets} {mu seed : Bytes} {kappa : Nat}
    {s : Signature} : attempt S k mu seed kappa = some (.ok s) ↔
    ∃ y w c, y = elements (masks S seed kappa) ∧ w = Negacyclic.mulVec k.A y ∧
      S.challengeOf (challengeHash S mu w).bytes = some c ∧
      answer (challengeHash S mu w) (fun j => y j + c.element * k.s1 j)
        (fun i => w i - c.element * k.s2 i) (fun i => c.element * k.t0 i) = .ok s := by
  unfold attempt
  rw [Option.map_eq_some_iff]
  constructor
  · rintro ⟨c, hc, h⟩
    exact ⟨_, _, c, rfl, rfl, hc, h⟩
  · rintro ⟨_, _, c, rfl, rfl, hc, h⟩
    exact ⟨c, hc, h⟩

end Schoolbook

namespace ExpandedSecret

theorem respond_eq_ite (k : ExpandedSecret) (y : PolyVec columns) (w : PolyVec rows)
    (challenge : Octets challengeBytes) (c : NttPoly) {z : PolyVec columns} {r u : PolyVec rows}
    {h : HintVec} (hz : z = (y + k.s1.timesChallenge c).reduce)
    (hr : r = (w - k.s2.timesChallenge c).canonical) (hu : u = k.t0.timesChallenge c)
    (hh : h = HintVec.make (-u) (r + u)) :
    k.respond y w challenge c =
      if ¬ z.isBelow (Int32.ofNat (gamma1 - beta)) then .error .zNorm
      else if ¬ r.lowBits.isBelow (Int32.ofNat (gamma2 - beta)) then .error .lowBitsNorm
      else if ¬ u.isBelow (Int32.ofNat gamma2) then .error .ct0Norm
      else if ¬ h.weight ≤ omega then .error .tooManyHints
      else .ok ⟨challenge, z, h⟩ := by
  subst hh hu hr hz
  unfold respond
  refine unless_throw_eq.trans (if_congr Iff.rfl rfl ?_)
  refine unless_throw_eq.trans (if_congr Iff.rfl rfl ?_)
  refine unless_throw_eq.trans (if_congr Iff.rfl rfl ?_)
  exact unless_throw_eq

/-- What is left of the commitment when `c * s2` is taken away. -/
def rest (k : ExpandedSecret) (w : PolyVec rows) (c : NttPoly) : PolyVec rows :=
  (w - k.s2.timesChallenge c).canonical

section

variable {k : ExpandedSecret} {y : PolyVec columns} {w : PolyVec rows}
  {challenge : Octets challengeBytes} {c : NttPoly}

theorem respond_eq_ok {s : Signature} (h : k.respond y w challenge c = .ok s) :
    s.challenge = challenge ∧ s.z = (y + k.s1.timesChallenge c).reduce ∧
      s.z.isBelow (Int32.ofNat (gamma1 - beta)) = true := by
  rw [respond_eq_ite k y w challenge c rfl rfl rfl rfl] at h
  split_ifs at h with hz hr hu hw
  cases h
  exact ⟨rfl, rfl, hz⟩

theorem weight_of_respond {s : Signature} (h : k.respond y w challenge c = .ok s) :
    s.hints.weight ≤ omega := by
  rw [respond_eq_ite k y w challenge c rfl rfl rfl rfl] at h
  split_ifs at h with hz hr hu hw
  cases h
  exact hw

theorem respond_ne_ct0Norm (h : (k.t0.timesChallenge c).isBelow (Int32.ofNat gamma2) = true) :
    k.respond y w challenge c ≠ .error .ct0Norm := by
  intro heq
  rw [respond_eq_ite k y w challenge c rfl rfl rfl rfl] at heq
  -- The test of `c * t0` is decided by `h`, so it gives no case.
  split_ifs at heq with hz hr hw
  · cases heq
  · cases heq
  · cases heq

theorem isBelow_lowBits_rest (hz : k.respond y w challenge c ≠ .error .zNorm)
    (hr : k.respond y w challenge c ≠ .error .lowBitsNorm) :
    (k.rest w c).lowBits.isBelow (Int32.ofNat (gamma2 - beta)) = true := by
  rw [respond_eq_ite k y w challenge c rfl rfl rfl rfl] at hz hr
  by_contra hlarge
  by_cases hbelow : (y + k.s1.timesChallenge c).reduce.isBelow (Int32.ofNat (gamma1 - beta)) = true
  · exact hr ((if_neg (not_not.mpr hbelow)).trans (if_pos hlarge))
  · exact hz (if_pos hbelow)

end

section

variable {S : HashSuite} {k : ExpandedSecret} {mu seed : Octets longHashBytes} {kappa : Nat}

def commitment (S : HashSuite) (k : ExpandedSecret) (seed : Octets longHashBytes) (kappa : Nat) :
    PolyVec rows := k.a.product (S.masks seed kappa)

/-- The hash of the buckets of the commitment, which the challenge is sampled from. -/
def commitHash (S : HashSuite) (k : ExpandedSecret) (mu seed : Octets longHashBytes)
    (kappa : Nat) : Octets challengeBytes :=
  S.challenge mu (k.commitment S seed kappa).highBits.encodeW1.bytes

theorem attempt_eq_some {outcome : Except Rejection Signature} :
    k.attempt S mu seed kappa = some outcome ↔
      ∃ c, S.challengeOf (k.commitHash S mu seed kappa).bytes = some c ∧
        k.respond (S.masks seed kappa) (k.commitment S seed kappa) (k.commitHash S mu seed kappa)
          c.toNtt = outcome :=
  Option.map_eq_some_iff

end

theorem respond_eq {a : Matrix rows columns} {s1 y : PolyVec columns} {s2 t0 w : PolyVec rows}
    {c : Poly} (challenge : Octets challengeBytes) (h1 : s1.Within 8380416)
    (h2 : s2.Within 8380416) (h0 : t0.Within 8380416) (hy : y.Within 524288) (hw : w.IsCanonical)
    (hc : c.Within 8380416) :
    ∃ z : PolyVec columns, z.Within 6283009 ∧
      z.elements = (fun j => y.elements j + c.element * s1.elements j) ∧
      respond ⟨a, s1.toNtt, s2.toNtt, t0.toNtt⟩ y w challenge c.toNtt =
        (answer challenge (fun j => y.elements j + c.element * s1.elements j)
          (fun i => w.elements i - c.element * s2.elements i)
          (fun i => c.element * t0.elements i)).map fun s => { s with z := z } := by
  obtain ⟨hz, hzin⟩ := PolyVec.add_timesChallenge_spec hc hy h1
  obtain ⟨hr, hrcanon⟩ := PolyVec.sub_timesChallenge_spec hc hw h2
  obtain ⟨hu, huin⟩ := PolyVec.timesChallenge_spec hc h0
  obtain ⟨hrest, hrestin⟩ := PolyVec.add_spec hrcanon.within huin (by decide)
  obtain ⟨hneg, hnegin⟩ := PolyVec.neg_spec huin (by decide)
  set z := (y + s1.toNtt.timesChallenge c.toNtt).reduce with hzdef
  set r := (w - s2.toNtt.timesChallenge c.toNtt).canonical with hrdef
  set u := t0.toNtt.timesChallenge c.toNtt with hudef
  have hhints : HintVec.make (-u) (r + u) =
      HintVec.ofMoves (r.elements + u.elements) r.elements := by
    rw [HintVec.make_eq hnegin hrestin (by decide), hrest, hneg, add_neg_cancel_right]
  refine ⟨z, hzin, hz, ?_⟩
  rw [respond_eq_ite ⟨a, s1.toNtt, s2.toNtt, t0.toNtt⟩ y w challenge c.toNtt hzdef hrdef hudef rfl,
    hhints, HintVec.weight_ofMoves, ← hz, ← hr, ← hu]
  refine Eq.trans ?_ (map_ite _ (map_ite _ (map_ite _ (map_ite _ rfl)))).symm
  refine if_congr (not_congr (PolyVec.isBelow_iff hzin (by decide) (by decide))) rfl ?_
  refine if_congr (not_congr (PolyVec.isBelow_lowBits_iff hrcanon (by decide))) rfl ?_
  exact if_congr (not_congr (PolyVec.isBelow_iff huin (by decide) (by decide))) rfl rfl

theorem encode_respond {a : Matrix rows columns} {s1 y : PolyVec columns} {s2 t0 w : PolyVec rows}
    {c : Poly} (challenge : Octets challengeBytes) (h1 : s1.Within 8380416)
    (h2 : s2.Within 8380416) (h0 : t0.Within 8380416) (hy : y.Within 524288) (hw : w.IsCanonical)
    (hc : c.Within 8380416) :
    (respond ⟨a, s1.toNtt, s2.toNtt, t0.toNtt⟩ y w challenge c.toNtt).map Signature.encode =
      (answer challenge (fun j => y.elements j + c.element * s1.elements j)
        (fun i => w.elements i - c.element * s2.elements i)
        (fun i => c.element * t0.elements i)).map Signature.encode := by
  obtain ⟨z, hzin, hz, hrespond⟩ := respond_eq (a := a) challenge h1 h2 h0 hy hw hc
  have hencode : ∀ h, Signature.encode ⟨challenge, z, h⟩ =
      Signature.encode ⟨challenge, PolyVec.ofElements z.elements, h⟩ := fun h =>
    (Signature.encode_ofElements (s := ⟨challenge, z, h⟩)
      fun i => (hzin i).toInt_le (by decide)).symm
  rw [hrespond]
  cases hs : answer challenge (fun j => y.elements j + c.element * s1.elements j)
    (fun i => w.elements i - c.element * s2.elements i) (fun i => c.element * t0.elements i) with
  | error e => rfl
  | ok s =>
    obtain ⟨-, -, -, -, rfl⟩ := answer_eq_ok.mp hs
    simp only [Except.map]
    rw [hencode, hz]

theorem challenge_eq (S : HashSuite) (mu : Octets longHashBytes) {w : PolyVec rows}
    (hw : w.IsCanonical) :
    S.challenge mu w.highBits.encodeW1.bytes = challengeHash S mu.bytes w.elements := by
  rw [PolyVec.bytes_encodeW1 (PolyVec.toInt_highBits hw) fun i j => highBits_bounds _]
  rfl

theorem attempt_eq {S : HashSuite} {a : Matrix rows columns} {s1 : PolyVec columns}
    {s2 t0 : PolyVec rows} (mu seed : Octets longHashBytes) (kappa : Nat)
    (ha : a.Within 8380416) (h1 : s1.Within 8380416) (h2 : s2.Within 8380416)
    (h0 : t0.Within 8380416) :
    (attempt S ⟨a, s1.toNtt, s2.toNtt, t0.toNtt⟩ mu seed kappa).map (Except.map Signature.encode) =
      (Schoolbook.attempt S ⟨a.elements, s1.elements, s2.elements, t0.elements⟩ mu.bytes seed.bytes
        kappa).map (Except.map Signature.encode) := by
  have hy := HashSuite.masks_within (S := S) seed kappa
  obtain ⟨hw, hwcanon⟩ := Matrix.product_spec ha (hy.mono (by decide)) (by decide)
  simp only [attempt, Schoolbook.attempt, Option.map_map,
    ← PolyVec.elements_eq (HashSuite.toInt_masks S seed kappa), ← hw, challenge_eq S mu hwcanon]
  apply Option.map_congr
  intro c hc
  rw [Function.comp_apply, Function.comp_apply]
  exact encode_respond _ h1 h2 h0 hy hwcanon (HashSuite.challengeOf_within hc)

end ExpandedSecret

/-! ## Attempts until one passes -/

namespace Schoolbook

variable {α : Type} {f : Nat → Option (Except Rejection α)} {n : Nat} {reason : Nat → Rejection}

theorem rejected_zero (f : Nat → Option (Except Rejection α)) (reason : Nat → Rejection) :
    Rejected f 0 reason := fun i hi => absurd hi (Nat.not_lt_zero i)

theorem Rejected.head (h : Rejected f (n + 1) reason) : f 0 = some (.error (reason 0)) :=
  h 0 n.succ_pos

theorem Rejected.tail (h : Rejected f (n + 1) reason) :
    Rejected (fun i => f (i + 1)) n fun i => reason (i + 1) :=
  fun i hi => h (i + 1) (Nat.succ_lt_succ hi)

theorem map_range_succ (reason : Nat → Rejection) (n : Nat) : (List.range (n + 1)).map reason =
    reason 0 :: (List.range n).map fun i => reason (i + 1) := by
  rw [List.range_succ_eq_map, List.map_cons, List.map_map]
  rfl

theorem attempts_cases (f : Nat → Option (Except Rejection α)) (left : Nat) :
    (∃ n < left, ∃ reason v, Rejected f n reason ∧ f n = some (.ok v)) ∨
      (∃ n < left, ∃ reason, Rejected f n reason ∧ f n = none) ∨
      ∃ reason, Rejected f left reason := by
  induction left with
  | zero => exact .inr (.inr ⟨fun _ => .zNorm, rejected_zero f _⟩)
  | succ left ih =>
    rcases ih with ⟨n, hn, h⟩ | ⟨n, hn, h⟩ | ⟨reason, h⟩
    · exact .inl ⟨n, hn.trans left.lt_succ_self, h⟩
    · exact .inr (.inl ⟨n, hn.trans left.lt_succ_self, h⟩)
    rcases hf : f left with _ | (e | v)
    · exact .inr (.inl ⟨left, left.lt_succ_self, reason, h, hf⟩)
    · refine .inr (.inr ⟨fun i => if i = left then e else reason i, fun i hi => ?_⟩)
      dsimp only
      rcases Nat.lt_succ_iff_lt_or_eq.mp hi with hi | rfl
      · rw [if_neg hi.ne, h i hi]
      · rw [if_pos rfl, hf]
    · exact .inl ⟨left, left.lt_succ_self, reason, v, h, hf⟩

end Schoolbook

namespace SigningRun

variable {α β : Type} {f : Nat → Option (Except Rejection α)} {left kappa n : Nat}
  {reason : Nat → Rejection}

theorem map_ofAttempts (g : α → β) : (ofAttempts f left kappa).map (map g) =
    ofAttempts (fun i => (f i).map (Except.map g)) left kappa := by
  induction left generalizing kappa with
  | zero => rfl
  | succ left ih =>
    simp only [ofAttempts]
    rcases f kappa with _ | (e | v)
    · rfl
    · simp only [Option.map_some, Except.map, ← ih, Option.map_map]
      rfl
    · rfl

theorem ofAttempts_shift : ofAttempts f left (kappa + 1) =
    ofAttempts (fun i => f (i + 1)) left kappa := by
  induction left generalizing kappa with
  | zero => rfl
  | succ left ih => rw [ofAttempts, ofAttempts, ih]

theorem ofAttempts_succ {e : Rejection} (h : f 0 = some (.error e)) :
    ofAttempts f (left + 1) 0 = (ofAttempts (fun i => f (i + 1)) left 0).map fun r =>
      { r with rejections := e :: r.rejections } := by
  rw [ofAttempts, h, ← ofAttempts_shift]

theorem ofAttempts_of_accepted {v : α} (h : Rejected f n reason) (hv : f n = some (.ok v))
    (hn : n < left) : ofAttempts f left 0 = some ⟨(List.range n).map reason, some v⟩ := by
  induction left generalizing f n reason with
  | zero => exact absurd hn (Nat.not_lt_zero n)
  | succ left ih =>
    cases n with
    | zero =>
      rw [ofAttempts, hv]
      rfl
    | succ n =>
      rw [ofAttempts_succ h.head, ih h.tail hv (Nat.lt_of_succ_lt_succ hn), map_range_succ]
      rfl

theorem ofAttempts_of_missing (h : Rejected f n reason) (hv : f n = none) (hn : n < left) :
    ofAttempts f left 0 = none := by
  induction left generalizing f n reason with
  | zero => exact absurd hn (Nat.not_lt_zero n)
  | succ left ih =>
    cases n with
    | zero => rw [ofAttempts, hv]
    | succ n =>
      rw [ofAttempts_succ h.head, ih h.tail hv (Nat.lt_of_succ_lt_succ hn)]
      rfl

theorem ofAttempts_of_rejected (h : Rejected f left reason) :
    ofAttempts f left 0 = some ⟨(List.range left).map reason, none⟩ := by
  induction left generalizing f reason with
  | zero => rfl
  | succ left ih =>
    rw [ofAttempts_succ h.head, ih h.tail, map_range_succ]
    rfl

theorem exists_attempt {run : SigningRun α} (h : ofAttempts f left kappa = some run) :
    (∀ e ∈ run.rejections, ∃ i, f i = some (.error e)) ∧
      ∀ v, run.output = some v → ∃ i, f i = some (.ok v) := by
  induction left generalizing kappa run with
  | zero =>
    cases h
    exact ⟨nofun, nofun⟩
  | succ left ih =>
    rw [ofAttempts] at h
    rcases hf : f kappa with _ | (e | v)
    · rw [hf] at h
      cases h
    · rw [hf] at h
      obtain ⟨run', hrest, rfl⟩ := Option.map_eq_some_iff.mp h
      obtain ⟨hrejections, houtput⟩ := ih hrest
      exact ⟨List.forall_mem_cons.mpr ⟨⟨kappa, hf⟩, hrejections⟩, houtput⟩
    · rw [hf] at h
      cases h
      refine ⟨nofun, fun v' hv => ⟨kappa, ?_⟩⟩
      rw [hf, Option.some.inj hv]

theorem result_map_eq_ok {run : SigningRun α} {g : α → β} {v : β} :
    (run.map g).result = .ok v ↔ ∃ s, run.output = some s ∧ v = g s := by
  unfold result map
  cases run.output with
  | none => exact iff_of_false nofun nofun
  | some s =>
    constructor
    · intro h
      cases h
      exact ⟨s, rfl, rfl⟩
    · rintro ⟨s', hs, rfl⟩
      cases hs
      rfl

theorem attempt_of_output {run : SigningRun α} {v : α} (h : ofAttempts f left 0 = some run)
    (hv : run.output = some v) : f run.rejections.length = some (.ok v) := by
  rcases attempts_cases f left with ⟨n, hn, reason, v', hrej, hv'⟩ | ⟨n, hn, reason, hrej, hnone⟩ |
    ⟨reason, hrej⟩
  · rw [ofAttempts_of_accepted hrej hv' hn] at h
    cases h
    cases hv
    rw [List.length_map, List.length_range]
    exact hv'
  · rw [ofAttempts_of_missing hrej hnone hn] at h
    cases h
  · rw [ofAttempts_of_rejected hrej] at h
    cases h
    cases hv

theorem journal_eq {run : SigningRun α} (h : run.rejections = (List.range n).map reason) :
    run.journal = rejectionLines n reason ++ [match run.output with
      | some _ => ⟨.debug, s!"signature produced after {n + 1} attempt(s)"⟩
      | none => ⟨.error, s!"signing gave up after {n} attempts"⟩] := by
  have hlines : (run.rejections.mapIdx fun kappa e =>
      (⟨.trace, s!"signing attempt {kappa} rejected: {e.name}"⟩ : Entry)) =
      rejectionLines n reason := by
    rw [h]
    apply List.ext_getElem
    · simp [rejectionLines]
    · intro i h1 h2
      simp [rejectionLines]
  have hcount : run.rejections.length = n := by rw [h, List.length_map, List.length_range]
  unfold journal
  rw [hlines, hcount]
  cases run.output with
  | some v => rfl
  | none => rfl

theorem loop_iff {f : Nat → Option (Except Rejection Signature)}
    {run : SigningRun (Octets signatureBytes)} :
    Loop f run ↔ (ofAttempts f maxAttempts 0).map (map Signature.encode) = some run := by
  constructor
  · obtain ⟨rejections, output⟩ := run
    rintro (⟨kappa, hkappa, reason, s, hrej, hs, hreasons, hresult, -⟩ |
      ⟨reason, hrej, hreasons, hresult, -⟩)
    · rw [ofAttempts_of_accepted hrej hs hkappa, ← hreasons]
      cases output with
      | none => cases hresult
      | some v =>
        cases hresult
        rfl
    · rw [ofAttempts_of_rejected hrej, ← hreasons]
      cases output with
      | none => rfl
      | some v => cases hresult
  · intro h
    rcases attempts_cases f maxAttempts with ⟨kappa, hkappa, reason, s, hrej, hs⟩ |
      ⟨kappa, hkappa, reason, hrej, hnone⟩ | ⟨reason, hrej⟩
    · rw [ofAttempts_of_accepted hrej hs hkappa] at h
      cases h
      exact .inl ⟨kappa, hkappa, reason, s, hrej, hs, rfl, rfl, journal_eq rfl⟩
    · rw [ofAttempts_of_missing hrej hnone hkappa] at h
      cases h
    · rw [ofAttempts_of_rejected hrej] at h
      generalize hreasons : (List.range maxAttempts).map reason = rejections at h
      cases h
      exact .inr ⟨reason, hrej, hreasons.symm, rfl, journal_eq hreasons.symm⟩

theorem ofAttempts_eq_none : ofAttempts f maxAttempts 0 = none ↔
    ∃ kappa < 1000, ∃ reason, Rejected f kappa reason ∧ f kappa = none := by
  constructor
  · intro h
    rcases attempts_cases f maxAttempts with ⟨kappa, hkappa, reason, s, hrej, hs⟩ |
      hmissing | ⟨reason, hrej⟩
    · rw [ofAttempts_of_accepted hrej hs hkappa] at h
      cases h
    · exact hmissing
    · rw [ofAttempts_of_rejected hrej] at h
      cases h
  · rintro ⟨kappa, hkappa, reason, hrej, hnone⟩
    exact ofAttempts_of_missing hrej hnone hkappa

end SigningRun

/-! ## Messages -/

theorem SecretKey.sign_eq {S : HashSuite} {sk : SecretKey} {a : Matrix rows columns}
    (ha : S.matrix sk.rho = some a) (h1 : sk.s1.Within 8380416) (h2 : sk.s2.Within 8380416)
    (h0 : sk.t0.Within 8380416) (mu : Octets longHashBytes) (rnd : Octets seedBytes) :
    (sk.sign S mu rnd).map (SigningRun.map Signature.encode) =
      (SigningRun.ofAttempts (attempt S ⟨a.elements, sk.s1.elements, sk.s2.elements,
        sk.t0.elements⟩ mu.bytes (S.maskSeed sk.key rnd mu).bytes) maxAttempts 0).map
        (SigningRun.map Signature.encode) := by
  have hsign : sk.sign S mu rnd = SigningRun.ofAttempts (ExpandedSecret.attempt S
      ⟨a, sk.s1.toNtt, sk.s2.toNtt, sk.t0.toNtt⟩ mu (S.maskSeed sk.key rnd mu)) maxAttempts 0 := by
    simp only [SecretKey.sign, ExpandedSecret.ofKey, ha]
    rfl
  rw [hsign, SigningRun.map_ofAttempts, SigningRun.map_ofAttempts]
  refine congrArg (fun f => SigningRun.ofAttempts f maxAttempts 0) (funext fun kappa => ?_)
  exact ExpandedSecret.attempt_eq mu _ kappa (HashSuite.matrix_within ha) h1 h2 h0

theorem signFramed_of_error {secretKey : Bytes} {e : Error}
    (h : SecretKey.ofBytes secretKey = .error e) (S : HashSuite) (framed : Bytes)
    (rnd : Octets seedBytes) :
    (signFramed S secretKey framed rnd).run = some (.error e) := by
  unfold signFramed
  rw [h]
  exact run_bind_of_error rfl

theorem signFramed_of_ok {secretKey : Bytes} {sk : SecretKey}
    (h : SecretKey.ofBytes secretKey = .ok sk) (S : HashSuite) (framed : Bytes)
    (rnd : Octets seedBytes) :
    (signFramed S secretKey framed rnd).run =
      ((sk.sign S (S.representative sk.tr framed) rnd).map (SigningRun.map Signature.encode)).map
        .ok := by
  unfold signFramed
  rw [h]
  refine (run_bind_of_ok (a := sk) rfl).trans ?_
  cases sk.sign S (S.representative sk.tr framed) rnd with
  | none => exact run_bind_of_none rfl
  | some run => exact run_bind_of_ok rfl

theorem sign_of_le {context : Bytes} (h : context.length ≤ 255) (S : HashSuite)
    (secretKey message : Bytes) (rnd : Octets seedBytes) :
    (sign S secretKey message context rnd).run =
      (signFramed S secretKey (frame context message) rnd).run := by
  rw [sign, if_neg (Nat.not_lt.mpr h), signFramed]
  simp only [HashSuite.messageRepresentative_eq]

theorem sign_of_gt {context : Bytes} (h : 255 < context.length) (S : HashSuite)
    (secretKey message : Bytes) (rnd : Octets seedBytes) :
    (sign S secretKey message context rnd).run =
      some (.error (.contextTooLong context.length)) := by
  rw [sign, if_pos h]
  exact run_bind_of_error rfl

theorem sign_eq_ok {S : HashSuite} {secretKey message context : Bytes} {rnd : Octets seedBytes}
    {run : SigningRun (Octets signatureBytes)}
    (h : (sign S secretKey message context rnd).run = some (.ok run)) :
    ∃ sk k mu run', SecretKey.ofBytes secretKey = .ok sk ∧
      ExpandedSecret.ofKey S sk = some k ∧ mu = S.representative sk.tr (frame context message) ∧
      SigningRun.ofAttempts (k.attempt S mu (S.maskSeed sk.key rnd mu)) maxAttempts 0 =
        some run' ∧ run = run'.map Signature.encode := by
  by_cases hctx : 255 < context.length
  · rw [sign_of_gt hctx] at h
    cases h
  rw [sign_of_le (Nat.not_lt.mp hctx)] at h
  cases hsk : SecretKey.ofBytes secretKey with
  | error e =>
    rw [signFramed_of_error hsk] at h
    cases h
  | ok sk =>
    rw [signFramed_of_ok hsk, Option.map_eq_some_iff] at h
    obtain ⟨_, hmap, heq⟩ := h
    cases heq
    obtain ⟨run', hrun, rfl⟩ := Option.map_eq_some_iff.mp hmap
    obtain ⟨k, hk, hattempts⟩ := Option.bind_eq_some_iff.mp hrun
    exact ⟨sk, k, _, run', rfl, hk, rfl, hattempts, rfl⟩

/-- An unfit context or key gives its error. Else the matrix is missing, or the run is that of the
attempts by the definition. -/
theorem sign_cases (S : HashSuite) (secretKey message context : Bytes) (rnd : Octets seedBytes) :
    (∃ e, Unfit secretKey context e ∧
        (sign S secretKey message context rnd).run = some (.error e)) ∨
      Fit secretKey context ∧ ∃ rho : Octets seedBytes, rho.bytes = secretKey.take 32 ∧
        ((S.matrix rho = none ∧ (sign S secretKey message context rnd).run = none) ∨
          ∃ a, S.matrix rho = some a ∧ (sign S secretKey message context rnd).run =
            ((SigningRun.ofAttempts (attempts S a.elements secretKey message context rnd)
              maxAttempts 0).map (SigningRun.map Signature.encode)).map .ok) := by
  by_cases hctx : 255 < context.length
  · exact .inl ⟨_, .inl ⟨hctx, rfl⟩, sign_of_gt hctx S secretKey message rnd⟩
  have hle := Nat.not_lt.mp hctx
  rw [sign_of_le hle]
  rcases SecretKey.ofBytes_cases secretKey with
    ⟨hlen, herror⟩ | ⟨o, rfl, ⟨hnone, herror⟩ | ⟨sk, hsk, hok⟩⟩
  · exact .inl ⟨_, .inr (.inl ⟨hle, hlen, rfl⟩), signFramed_of_error herror S _ rnd⟩
  · exact .inl ⟨_, .inr (.inr ⟨hle, o.length_eq, SecretKey.decode?_eq_none.mp hnone, rfl⟩),
      signFramed_of_error herror S _ rnd⟩
  have hlarge : ¬ LargeSecret o.bytes := by
    intro h
    rw [SecretKey.decode?_eq_none.mpr h] at hsk
    cases hsk
  obtain ⟨-, -, -, hrho, hkey, htr⟩ := SecretKey.decode?_eq_some hsk
  obtain ⟨h1, h2, h0⟩ := SecretKey.decode?_bounds hsk
  obtain ⟨hs1, hs2, ht0⟩ := SecretKey.elements_of_decode? hsk
  refine .inr ⟨⟨hle, o.length_eq, hlarge⟩, sk.rho, hrho, ?_⟩
  rw [signFramed_of_ok hok]
  cases ha : S.matrix sk.rho with
  | none =>
    refine .inl ⟨rfl, ?_⟩
    simp only [SecretKey.sign, ExpandedSecret.ofKey, ha]
    rfl
  | some a =>
    refine .inr ⟨a, rfl, ?_⟩
    rw [SecretKey.sign_eq ha (h1.within (by decide) (by decide)) (h2.within (by decide) (by decide))
      (h0.within (by decide) (by decide)), hs1, hs2, ht0]
    unfold attempts
    rw [← hkey, ← htr]
    rfl

theorem Schoolbook.Unfit.not_fit {secretKey context : Bytes} {e : Error}
    (h : Unfit secretKey context e) : ¬ Fit secretKey context := by
  rintro ⟨hctx, hlen, hlarge⟩
  rcases h with ⟨hlong, -⟩ | ⟨-, hne, -⟩ | ⟨-, -, hlarge', -⟩
  · exact absurd hctx (Nat.not_le.mpr hlong)
  · exact hne hlen
  · exact hlarge hlarge'

theorem Schoolbook.Unfit.unique {secretKey context : Bytes} {e e' : Error}
    (h : Unfit secretKey context e) (h' : Unfit secretKey context e') : e = e' := by
  rcases h with ⟨hlong, rfl⟩ | ⟨hctx, hne, rfl⟩ | ⟨hctx, hlen, -, rfl⟩ <;>
    rcases h' with ⟨hlong', rfl⟩ | ⟨hctx', hne', rfl⟩ | ⟨hctx', hlen', -, rfl⟩
  · rfl
  · exact absurd hctx' (Nat.not_le.mpr hlong)
  · exact absurd hctx' (Nat.not_le.mpr hlong)
  · exact absurd hctx (Nat.not_le.mpr hlong')
  · rfl
  · exact absurd hlen' hne
  · exact absurd hctx (Nat.not_le.mpr hlong')
  · exact absurd hlen hne'
  · rfl

/-- Signing fails exactly for an unfit context or key. Else it is the loop of the definition, and
there is no answer if the matrix or the next challenge is not found. -/
theorem sign_spec (S : HashSuite) (secretKey message context : Bytes) (rnd : Octets seedBytes) :
    (∀ e, (sign S secretKey message context rnd).run = some (.error e) ↔
      Unfit secretKey context e) ∧
    (∀ run, (sign S secretKey message context rnd).run = some (.ok run) ↔
      Fit secretKey context ∧ ∃ rho A, rho.bytes = secretKey.take 32 ∧ S.ExpandsTo rho A ∧
        Loop (attempts S A secretKey message context rnd) run) ∧
    ((sign S secretKey message context rnd).run = none ↔
      Fit secretKey context ∧ ∀ rho A, rho.bytes = secretKey.take 32 → S.ExpandsTo rho A →
        ∃ kappa < 1000, ∃ reason,
          Rejected (attempts S A secretKey message context rnd) kappa reason ∧
          attempts S A secretKey message context rnd kappa = none) := by
  rcases sign_cases S secretKey message context rnd with
    ⟨e, he, hrun⟩ | ⟨hfit, rho, hrho, ⟨ha, hrun⟩ | ⟨a, ha, hrun⟩⟩
  · rw [hrun]
    refine ⟨fun e' => ⟨fun h => ?_, fun h => ?_⟩, fun run => iff_of_false (by simp) ?_,
      iff_of_false (by simp) ?_⟩
    · cases h
      exact he
    · rw [he.unique h]
    · exact fun h => he.not_fit h.1
    · exact fun h => he.not_fit h.1
  · have hnone : ∀ rho' A, rho'.bytes = secretKey.take 32 → ¬ S.ExpandsTo rho' A := by
      intro rho' A hrho' hA
      obtain rfl : rho' = rho := Octets.ext (hrho'.trans hrho.symm)
      obtain ⟨a, ha'⟩ := HashSuite.exists_matrix_iff.mpr ⟨A, hA⟩
      rw [ha] at ha'
      cases ha'
    rw [hrun]
    refine ⟨fun e => iff_of_false (by simp) fun h => h.not_fit hfit,
      fun run => iff_of_false (by simp) ?_,
      iff_of_true rfl ⟨hfit, fun rho' A h h' => absurd h' (hnone rho' A h)⟩⟩
    rintro ⟨-, rho', A, hrho', hA, -⟩
    exact hnone rho' A hrho' hA
  · have hexpands : S.ExpandsTo rho a.elements := (HashSuite.expandsTo_iff ha).mpr rfl
    have hunique : ∀ rho' A, rho'.bytes = secretKey.take 32 → S.ExpandsTo rho' A →
        A = a.elements := by
      intro rho' A hrho' hA
      obtain rfl : rho' = rho := Octets.ext (hrho'.trans hrho.symm)
      exact hA.unique hexpands
    rw [hrun]
    refine ⟨fun e => iff_of_false (by simp) fun h => h.not_fit hfit, fun run => ?_, ?_⟩
    · rw [Option.map_eq_some_iff]
      constructor
      · rintro ⟨run', hloop, h⟩
        cases h
        exact ⟨hfit, rho, _, hrho, hexpands, SigningRun.loop_iff.mpr hloop⟩
      · rintro ⟨-, rho', A, hrho', hA, hloop⟩
        rw [hunique rho' A hrho' hA] at hloop
        exact ⟨run, SigningRun.loop_iff.mp hloop, rfl⟩
    · rw [Option.map_eq_none_iff, Option.map_eq_none_iff, SigningRun.ofAttempts_eq_none]
      constructor
      · intro hmissing
        refine ⟨hfit, fun rho' A hrho' hA => ?_⟩
        rw [hunique rho' A hrho' hA]
        exact hmissing
      · rintro ⟨-, h⟩
        exact h rho _ hrho hexpands

end MLDSA
