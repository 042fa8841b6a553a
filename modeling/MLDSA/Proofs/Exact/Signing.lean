import MLDSA.Proofs.Exact.Sample
import MLDSA.Proofs.Exact.Signature
import MLDSA.Proofs.KeyPair
import MLDSA.Proofs.Signing

/-! # Key generation and signing over the integers

Key generation and one attempt of signing once more, with exact integers and checked places. For
every key that decodes nothing stops an attempt, also for keys that no seed gives: the products with
a challenge come back from a transform, so they are below `q` whatever the secrets are, and the sums
with masks and commitments are far from `2^31`. -/

namespace MLDSA

namespace Exact

/-! ## Key generation -/

/-- The bytes of the secret key and of the public key of a seed. -/
def ofSeed (S : HashSuite) (xi : Octets seedBytes) : OptionT Exact (Bytes × Bytes) := do
  let rho ← part (KeyPair.seeds S xi) 0 seedBytes
  let secretSeed ← part (KeyPair.seeds S xi) 32 longHashBytes
  let key ← part (KeyPair.seeds S xi) 96 seedBytes
  let a ← matrix S rho
  let s1 ← secretVec S columns secretSeed 0
  let s2 ← secretVec S rows secretSeed columns
  let w ← product a s1
  let t ← map (map canonical) (← zipWith (zipWith add) w s2)
  let parts ← map (map powerSplit) t
  let publicKey ← encodePublicKey { rho, t1 := fun i j => (parts i j).high }
  let tr := S.keyHash publicKey
  let secretKey ← encodeSecretKey { rho, key, tr, s1, s2, t0 := fun i j => (parts i j).low }
  return (secretKey, publicKey)

/-! ## One attempt -/

structure ExpandedSecretParts where
  a : Fin rows → Fin columns → Fin 256 → Int
  s1 : Fin columns → Fin 256 → Int
  s2 : Fin rows → Fin 256 → Int
  t0 : Fin rows → Fin 256 → Int

def expandSecret (S : HashSuite) (sk : SecretKeyParts) : OptionT Exact ExpandedSecretParts := do
  let s1 ← map toNtt sk.s1
  let s2 ← map toNtt sk.s2
  let t0 ← map toNtt sk.t0
  let a ← matrix S sk.rho
  return { a, s1, s2, t0 }

def weight (h : Fin rows → Fin 256 → Bool) : Nat :=
  (Finset.univ.filter fun p : Fin rows × Fin 256 => h p.1 p.2 = true).card

/-- The response `y + c * s1` to a challenge `c`. -/
def response (s1 y : Fin columns → Fin 256 → Int) (c : Fin 256 → Int) :
    Exact (Fin columns → Fin 256 → Int) := do
  map (map reduce) (← zipWith (zipWith add) y (← timesChallenge c s1))

/-- The rest `w - c * s2` of the commitment. -/
def rest (s2 w : Fin rows → Fin 256 → Int) (c : Fin 256 → Int) :
    Exact (Fin rows → Fin 256 → Int) := do
  map (map canonical) (← zipWith (zipWith sub) w (← timesChallenge c s2))

/-- The hints that take the error `u = c * t0` back. -/
def hintsFor (u r : Fin rows → Fin 256 → Int) : Exact (Fin rows → Fin 256 → Bool) := do
  makeHints (← map (map neg) u) (← zipWith (zipWith add) r u)

/-- The bytes of the signature that answers a challenge, or the test that fails first. -/
def respond (k : ExpandedSecretParts) (y : Fin columns → Fin 256 → Int)
    (w : Fin rows → Fin 256 → Int) (challenge : Octets challengeBytes) (c : Fin 256 → Int) :
    ExceptT Rejection (OptionT Exact) Bytes := do
  let z ← response k.s1 y c
  let below ← allBelow (gamma1 - beta : Nat) z
  unless below do throw .zNorm
  let r ← rest k.s2 w c
  let below ← allBelow (gamma2 - beta : Nat) (← map (map lowBits) r)
  unless below do throw .lowBitsNorm
  let u ← timesChallenge c k.t0
  let below ← allBelow gamma2 u
  unless below do throw .ct0Norm
  let hints ← hintsFor u r
  unless weight hints ≤ omega do throw .tooManyHints
  encodeSignature { challenge, z, hints }

def attempt (S : HashSuite) (k : ExpandedSecretParts) (mu seed : Octets longHashBytes)
    (kappa : Nat) : ExceptT Rejection (OptionT Exact) Bytes := do
  let y ← masks S seed kappa
  let w ← product k.a y
  let high ← map (map highBits) w
  let w1 ← encodeW1 high
  let challenge := S.challenge mu w1
  let c ← challengeOf S challenge.bytes
  let c ← toNtt c
  respond k y w challenge c

end Exact

open Exact

def ExpandedSecret.ints (k : ExpandedSecret) : ExpandedSecretParts where
  a := k.a.ints
  s1 := k.s1.ints
  s2 := k.s2.ints
  t0 := k.t0.ints

namespace Exact

variable {S : HashSuite}

section

variable {a : Matrix rows columns} {s1 y : PolyVec columns} {s2 t0 w : PolyVec rows} {c : Poly}

theorem response_ints (hs : s1.Within 8380416) (hy : y.Within 524288) (hc : c.Within 8380416) :
    response s1.toNtt.ints y.ints c.toNtt.ints =
      .ok (y + s1.toNtt.timesChallenge c.toNtt).reduce.ints := by
  have hcs := (PolyVec.timesChallenge_spec hc hs).2
  have hsum := (PolyVec.add_spec hy hcs (by decide)).2
  rw [response, timesChallenge_polys hc hs, ok_bind, add_polys hy hcs (by decide), ok_bind,
    reduce_polys hsum (by decide)]

theorem rest_ints (hs : s2.Within 8380416) (hw : w.IsCanonical) (hc : c.Within 8380416) :
    rest s2.toNtt.ints w.ints c.toNtt.ints =
      .ok (w - s2.toNtt.timesChallenge c.toNtt).canonical.ints := by
  have hcs := (PolyVec.timesChallenge_spec hc hs).2
  have hdiff := (PolyVec.sub_spec hw.within hcs (by decide)).2
  rw [rest, timesChallenge_polys hc hs, ok_bind, sub_polys hw.within hcs (by decide), ok_bind,
    canonical_polys hdiff (by decide)]

theorem hintsFor_ints {u r : PolyVec rows} (hu : u.Within 8380416) (hr : r.IsCanonical) :
    hintsFor u.ints r.ints = .ok (HintVec.make (-u) (r + u)).bits := by
  have hback := (PolyVec.neg_spec hu (by decide)).2
  have hmoved := (PolyVec.add_spec hr.within hu (by decide)).2
  rw [hintsFor, neg_polys hu (by decide), ok_bind, add_polys hr.within hu (by decide), ok_bind,
    makeHints_polys hback hmoved (by decide)]

theorem encodeSignature_of_below {s : Signature} (hz : s.z.Within 6283009)
    (hbelow : s.z.isBelow (Int32.ofNat (gamma1 - beta)) = true) (hw : s.hints.weight ≤ omega) :
    encodeSignature s.ints = .ok s.encode.bytes :=
  encodeSignature_ints (fun i => (hz i).toInt_le (by decide))
    (PolyVec.inRange_ofElements (PolyVec.isBelow_elements (by decide) hbelow) (by decide)) hw

theorem respond_follows (challenge : Octets challengeBytes) (h1 : s1.Within 8380416)
    (h2 : s2.Within 8380416) (h0 : t0.Within 8380416) (hy : y.Within 524288) (hw : w.IsCanonical)
    (hc : c.Within 8380416) :
    Follows (respond (ExpandedSecret.ints ⟨a, s1.toNtt, s2.toNtt, t0.toNtt⟩) y.ints w.ints challenge
        c.toNtt.ints)
      (ExceptT.mk (some (ExpandedSecret.respond ⟨a, s1.toNtt, s2.toNtt, t0.toNtt⟩ y w challenge
        c.toNtt))) fun s => s.encode.bytes := by
  have hz := (PolyVec.add_timesChallenge_spec hc hy h1).2
  have hr := (PolyVec.sub_timesChallenge_spec hc hw h2).2
  have hu := (PolyVec.timesChallenge_spec hc h0).2
  rw [ExpandedSecret.respond_eq_ite ⟨a, s1.toNtt, s2.toNtt, t0.toNtt⟩ y w challenge c.toNtt rfl rfl
    rfl rfl]
  refine .ok_bind (response_ints h1 hy hc) ?_
  generalize (y + s1.toNtt.timesChallenge c.toNtt).reduce = z at hz ⊢
  refine .ok_bind (allBelow_polys (by decide) (by decide) hz (by decide)) (.guard fun hbelow => ?_)
  refine .ok_bind (rest_ints h2 hw hc) ?_
  generalize (w - s2.toNtt.timesChallenge c.toNtt).canonical = r at hr ⊢
  refine .ok_bind (lowBits_polys hr) ?_
  refine .ok_bind (allBelow_polys (by decide) (by decide) (PolyVec.lowBits_within hr) (by decide))
    (.guard fun _ => ?_)
  refine .ok_bind (timesChallenge_polys hc h0) ?_
  generalize t0.toNtt.timesChallenge c.toNtt = u at hu ⊢
  refine .ok_bind (allBelow_polys (by decide) (by decide) hu (by decide)) (.guard fun _ => ?_)
  refine .ok_bind (hintsFor_ints hu hr) ?_
  generalize HintVec.make (-u) (r + u) = h
  rw [HintVec.weight_eq_card]
  refine .guard fun hweight => .ok (encodeSignature_of_below (s := ⟨challenge, z, h⟩) hz hbelow ?_)
  rwa [HintVec.weight_eq_card]

theorem attempt_follows {kappa : Nat} (hkappa : kappa < maxAttempts) (ha : a.Within 8380416)
    (h1 : s1.Within 8380416) (h2 : s2.Within 8380416) (h0 : t0.Within 8380416)
    (mu seed : Octets longHashBytes) :
    Follows (attempt S (ExpandedSecret.ints ⟨a, s1.toNtt, s2.toNtt, t0.toNtt⟩) mu seed kappa)
      (ExceptT.mk (ExpandedSecret.attempt S ⟨a, s1.toNtt, s2.toNtt, t0.toNtt⟩ mu seed kappa))
      fun s => s.encode.bytes := by
  have hy := HashSuite.masks_within (S := S) seed kappa
  have hy' : (S.masks seed kappa).Within 8380416 := hy.mono (by decide)
  have hw := (Matrix.product_spec ha hy' (by decide)).2
  refine .ok_bind (masks_ints hkappa seed) (.ok_bind (product_polys ha hy' (by decide)) ?_)
  refine .ok_bind (highBits_polys hw) (.ok_bind (encodeW1_ints (PolyVec.highBits_inRange hw)) ?_)
  refine .map (challengeOf_ints _) fun c hc => ?_
  have hcw := HashSuite.challengeOf_within hc
  exact .ok_bind (toNtt_ints hcw) (respond_follows _ h1 h2 h0 hy hw hcw)

end

theorem expandSecret_ints {sk : SecretKey} (h1 : sk.s1.Within 8380416) (h2 : sk.s2.Within 8380416)
    (h0 : sk.t0.Within 8380416) : (expandSecret S sk.ints).run =
      .ok ((ExpandedSecret.ofKey S sk).map ExpandedSecret.ints) := by
  rw [expandSecret, SecretKey.ints, ok_bind_run (toNtt_polys h1), ok_bind_run (toNtt_polys h2),
    ok_bind_run (toNtt_polys h0)]
  exact map_run (matrix_ints sk.rho) fun a _ => rfl

theorem powerSplit_polys {m : Nat} {t : PolyVec m} (ht : t.IsCanonical) :
    map (map powerSplit) t.ints = .ok fun i j =>
      ⟨(t.mapCoeffs (fun r => (Coeff.powerSplit r).high) i j).toInt,
        (t.mapCoeffs (fun r => (Coeff.powerSplit r).low) i j).toInt⟩ := by
  refine all_ok fun i => all_ok fun j => ?_
  rw [PolyVec.mapCoeffs_apply, PolyVec.mapCoeffs_apply]
  exact powerSplit_toInt ((ht i).bounds j).1 ((ht i).bounds j).2

theorem ofSeed_ints (xi : Octets seedBytes) : (ofSeed S xi).run =
    .ok ((KeyPair.ofSeed S xi).map fun pair =>
      (pair.secretKey.encode.bytes, pair.publicKey.encode.bytes)) := by
  rw [ofSeed, ok_bind_run (part_of (by decide) _), ok_bind_run (part_of (by decide) _),
    ok_bind_run (part_of (by decide) _)]
  refine bind_run (matrix_ints _) fun a ha => bind_run (secretVec_ints (by decide) _) fun s1 h1 =>
    bind_run (secretVec_ints (by decide) _) fun s2 h2 => ?_
  have hr1 := HashSuite.secretVec_inRange h1
  have hr2 := HashSuite.secretVec_inRange h2
  have hs1 : s1.Within 8380416 := hr1.within (by decide) (by decide)
  have hs2 : s2.Within 4 := hr2.within (by decide) (by decide)
  have hw := (Matrix.product_spec (HashSuite.matrix_within ha) hs1 (by decide)).2
  have hsum := (PolyVec.add_spec hw.within hs2 (by decide)).2
  have ht := (PolyVec.canonical_spec hsum (by decide)).2
  obtain ⟨hhigh, hlow, -⟩ := PolyVec.powerSplit_parts ht
  rw [ok_bind_run (product_polys (HashSuite.matrix_within ha) hs1 (by decide)),
    ok_bind_run (add_polys hw.within hs2 (by decide)),
    ok_bind_run (canonical_polys hsum (by decide)), ok_bind_run (powerSplit_polys ht)]
  have hpk := encodePublicKey_ints ⟨KeyPair.matrixSeed S xi, _⟩ hhigh
  have hsk := fun key tr =>
    encodeSecretKey_ints ⟨KeyPair.matrixSeed S xi, key, tr, s1, s2, _⟩ hr1 hr2 hlow
  refine (congrArg OptionT.run (ok_bind_run hpk _)).trans ?_
  exact congrArg OptionT.run (ok_bind_run (hsk _ _) _)

end Exact

/-- Whatever the seed, key generation over the integers is not stopped and has the result of the
program. The same holds of decoding a secret key, and then of each of the thousand attempts with a
key that decodes: no word wraps around, no product is too large to be reduced, each coefficient is
small enough to be reduced, canonical where it is split and in range where it is packed, no hint is
written behind the last slot, and the number of each mask fits two bytes. -/
theorem signing_exact (S : HashSuite) :
    (∀ xi, (Exact.ofSeed S xi).run = .ok ((KeyPair.ofSeed S xi).map fun pair =>
      (pair.secretKey.encode.bytes, pair.publicKey.encode.bytes))) ∧
    ∀ b : Octets secretKeyBytes,
      (Exact.decodeSecretKey b).run = .ok ((SecretKey.decode? b).map SecretKey.ints) ∧
      ∀ sk, SecretKey.decode? b = some sk →
        (Exact.expandSecret S sk.ints).run =
          .ok ((ExpandedSecret.ofKey S sk).map ExpandedSecret.ints) ∧
        ∀ k, ExpandedSecret.ofKey S sk = some k → ∀ mu seed kappa, kappa < 1000 →
          (Exact.attempt S k.ints mu seed kappa).run.run =
            .ok ((k.attempt S mu seed kappa).map (Except.map fun s => s.encode.bytes)) := by
  refine ⟨ofSeed_ints, fun b => ⟨decodeSecretKey_ints b, fun sk hsk => ?_⟩⟩
  obtain ⟨hr1, hr2, hr0⟩ := SecretKey.decode?_bounds hsk
  have h1 : sk.s1.Within 8380416 := hr1.within (by decide) (by decide)
  have h2 : sk.s2.Within 8380416 := hr2.within (by decide) (by decide)
  have h0 : sk.t0.Within 8380416 := hr0.within (by decide) (by decide)
  refine ⟨expandSecret_ints h1 h2 h0, fun k hk mu seed kappa hkappa => ?_⟩
  obtain ⟨a, ha, rfl⟩ := Option.map_eq_some_iff.mp hk
  exact attempt_follows hkappa (HashSuite.matrix_within ha) h1 h2 h0 mu seed

theorem signing_exact_zeros : ∃ k : ExpandedSecret,
    SecretKey.decode? SecretKey.ends.encode = some SecretKey.ends ∧
    ExpandedSecret.ofKey HashSuite.zeros SecretKey.ends = some k ∧
    (Exact.attempt HashSuite.zeros k.ints (Octets.zero 64) (Octets.zero 64) 999).run.run =
      .ok ((k.attempt HashSuite.zeros (Octets.zero 64) (Octets.zero 64) 999).map
        (Except.map fun s => s.encode.bytes)) := by
  have hk := congrArg (Option.map fun a => ExpandedSecret.mk a SecretKey.ends.s1.toNtt
    SecretKey.ends.s2.toNtt SecretKey.ends.t0.toNtt) (HashSuite.matrix_zeros SecretKey.ends.rho)
  exact ⟨_, SecretKey.decode?_ends, hk, (((signing_exact HashSuite.zeros).2 SecretKey.ends.encode).2
    _ SecretKey.decode?_ends).2 _ hk _ _ 999 (by decide)⟩

end MLDSA
