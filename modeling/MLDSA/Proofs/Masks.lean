import MLDSA.Proofs.Signing

/-! # No mask twice

A mask hides the secret in one coefficient of one response. The polynomials of masks are read from
the hash of a seed and a number, so two of them are independent unless they have one input. Over all
calls and all attempts that happens only at one place of one attempt, and then the two calls are the
same call, or they show two inputs with one hash. The key fact is that no number reaches `2^16`, so
that its two bytes are the number.

Nothing is assumed of the hash functions: a collision is what the theorem ends in. -/

namespace MLDSA

open Schoolbook

/-! ## Numbers of masks -/

theorem bytes16_inj {v w : Nat} (hv : v < 65536) (hw : w < 65536) (h : bytes16 v = bytes16 w) :
    v = w := by
  obtain ⟨hlow, hhigh⟩ := List.cons.inj h
  have hlow := congrArg UInt8.toNat hlow
  have hhigh := congrArg UInt8.toNat (List.cons.inj hhigh).1
  simp only [UInt8.toNat_ofNat'] at hlow hhigh
  omega

theorem numbered_inj {seed seed' : Octets longHashBytes} {v w : Nat} (hv : v < 65536)
    (hw : w < 65536) (h : numbered seed v = numbered seed' w) : seed = seed' ∧ v = w := by
  obtain ⟨hseed, hnumber⟩ := List.append_inj h (by rw [seed.length_eq, seed'.length_eq])
  exact ⟨Octets.ext hseed, bytes16_inj hv hw hnumber⟩

theorem maskNumber_inj {kappa kappa' : Nat} {i i' : Fin columns}
    (h : columns * kappa + i.val = columns * kappa' + i'.val) : kappa = kappa' ∧ i = i' := by
  have hi : i.val < 5 := i.isLt
  have hi' : i'.val < 5 := i'.isLt
  have h : 5 * kappa + i.val = 5 * kappa' + i'.val := h
  exact ⟨by omega, Fin.ext (by omega)⟩

/-! ## Calls -/

/-- A call of signing that is not refused. -/
structure SigningCall where
  secretKey : Bytes
  parts : SecretKey
  decodes : SecretKey.ofBytes secretKey = .ok parts
  message : Bytes
  context : Bytes
  context_le : context.length ≤ 255
  rnd : Octets seedBytes

namespace SigningCall

variable (S : HashSuite) (c c' : SigningCall)

def mu : Octets longHashBytes := S.representative c.parts.tr (frame c.context c.message)

/-- What is hashed to the seed of the masks. -/
def seedInput : Bytes := c.parts.key.bytes ++ c.rnd.bytes ++ (c.mu S).bytes

def maskSeed : Octets longHashBytes := S.maskSeed c.parts.key c.rnd (c.mu S)

/-- What is hashed to polynomial `i` of the masks of attempt `kappa`. -/
def maskInput (kappa : Nat) (i : Fin columns) : Bytes :=
  numbered (c.maskSeed S) (columns * kappa + i.val)

/-- All of a call that its masks depend on. -/
def maskSource : Octets seedBytes × Octets seedBytes × Octets longHashBytes × Bytes × Bytes :=
  (c.parts.key, c.rnd, c.parts.tr, c.context, c.message)

theorem sign_run : (sign S c.secretKey c.message c.context c.rnd).run =
    (((ExpandedSecret.ofKey S c.parts).bind fun k =>
      SigningRun.ofAttempts (k.attempt S (c.mu S) (c.maskSeed S)) maxAttempts 0).map
        (SigningRun.map Signature.encode)).map .ok := by
  rw [sign_of_le c.context_le]
  exact signFramed_of_ok c.decodes S _ c.rnd

theorem masks_eq (kappa : Nat) (i : Fin columns) :
    S.masks (c.maskSeed S) kappa i = Poly.decodeZ (S.digest zBytes (c.maskInput S kappa i)) :=
  HashSuite.masks_apply (c.maskSeed S) kappa i

variable {S c c'}

theorem seedInput_inj (h : c.seedInput S = c'.seedInput S) :
    c.parts.key = c'.parts.key ∧ c.rnd = c'.rnd ∧ c.mu S = c'.mu S := by
  have hlen : (c.parts.key ++ c.rnd).bytes.length = (c'.parts.key ++ c'.rnd).bytes.length := by
    rw [Octets.length_eq, Octets.length_eq]
  obtain ⟨hhead, hmu⟩ := List.append_inj h hlen
  obtain ⟨hkey, hrnd⟩ := List.append_inj hhead (by rw [Octets.length_eq, Octets.length_eq])
  exact ⟨Octets.ext hkey, Octets.ext hrnd, Octets.ext hmu⟩

theorem eq_or_collide (h : c.maskSeed S = c'.maskSeed S) :
    c.maskSource = c'.maskSource ∨ S.h.Collide 64 (c.seedInput S) (c'.seedInput S) ∨
      S.h.Collide 64 (messageInput c.parts.tr.bytes c.message c.context)
        (messageInput c'.parts.tr.bytes c'.message c'.context) := by
  by_cases hseed : c.seedInput S = c'.seedInput S
  · obtain ⟨hkey, hrnd, hmu⟩ := seedInput_inj hseed
    by_cases hinput : messageInput c.parts.tr.bytes c.message c.context =
        messageInput c'.parts.tr.bytes c'.message c'.context
    · obtain ⟨htr, hcontext, hmessage⟩ := messageInput_inj
        (by rw [Octets.length_eq, Octets.length_eq]) c.context_le c'.context_le hinput
      exact .inl (by rw [maskSource, hkey, hrnd, Octets.ext htr, hcontext, hmessage, maskSource])
    · exact .inr (.inr ⟨hinput, congrArg Octets.bytes hmu⟩)
  · exact .inr (.inl ⟨hseed, congrArg Octets.bytes h⟩)

theorem maskInput_inj {kappa kappa' : Nat} (hk : kappa < maxAttempts) (hk' : kappa' < maxAttempts)
    {i i' : Fin columns} (h : c.maskInput S kappa i = c'.maskInput S kappa' i') :
    c.maskSeed S = c'.maskSeed S ∧ kappa = kappa' ∧ i = i' := by
  obtain ⟨hseed, hnumber⟩ := numbered_inj (HashSuite.maskNumber_lt hk i)
    (HashSuite.maskNumber_lt hk' i') h
  exact ⟨hseed, maskNumber_inj hnumber⟩

end SigningCall

/-! ## All calls -/

/-- The attempts of a call have the masks that are read at its inputs. Two inputs are the same only
at one place of one attempt, and for one call up to a collision. The 5000 inputs of one call are all
different. -/
theorem masks_not_reused (S : HashSuite) :
    (∀ c : SigningCall, (sign S c.secretKey c.message c.context c.rnd).run =
        (((ExpandedSecret.ofKey S c.parts).bind fun k =>
          SigningRun.ofAttempts (k.attempt S (c.mu S) (c.maskSeed S)) maxAttempts 0).map
            (SigningRun.map Signature.encode)).map .ok ∧
      ∀ (kappa : Nat) (i : Fin columns),
        S.masks (c.maskSeed S) kappa i = Poly.decodeZ (S.digest zBytes (c.maskInput S kappa i))) ∧
    (∀ (c c' : SigningCall) (kappa kappa' : Nat) (i i' : Fin columns), kappa < 1000 →
      kappa' < 1000 → c.maskInput S kappa i = c'.maskInput S kappa' i' →
      kappa = kappa' ∧ i = i' ∧
        (c.maskSource = c'.maskSource ∨ S.h.Collide 64 (c.seedInput S) (c'.seedInput S) ∨
          S.h.Collide 64 (messageInput c.parts.tr.bytes c.message c.context)
            (messageInput c'.parts.tr.bytes c'.message c'.context))) ∧
    ∀ c : SigningCall, Function.Injective fun place : Fin 1000 × Fin columns =>
      c.maskInput S place.1 place.2 := by
  refine ⟨fun c => ⟨c.sign_run S, c.masks_eq S⟩, fun c c' kappa kappa' i i' hk hk' h => ?_, ?_⟩
  · obtain ⟨hseed, hkappa, hi⟩ := SigningCall.maskInput_inj hk hk' h
    exact ⟨hkappa, hi, SigningCall.eq_or_collide hseed⟩
  · rintro c ⟨kappa, i⟩ ⟨kappa', i'⟩ h
    obtain ⟨-, hkappa, hi⟩ := SigningCall.maskInput_inj kappa.isLt kappa'.isLt h
    exact Prod.ext (Fin.ext hkappa) hi

/-- A call with one key. -/
def SigningCall.ofMessage (message : Bytes) : SigningCall where
  secretKey := SecretKey.ends.encode.bytes
  parts := SecretKey.ends
  decodes := SecretKey.ofBytes_eq_ok.mpr ⟨_, rfl, SecretKey.decode?_ends⟩
  message
  context := []
  context_le := by decide
  rnd := Octets.zero seedBytes

/-- Where every hash is the same, the last mask of two calls has one input, and their messages
collide. -/
theorem masks_not_reused_zeros :
    (SigningCall.ofMessage []).maskInput HashSuite.zeros 999 4 =
        (SigningCall.ofMessage [1]).maskInput HashSuite.zeros 999 4 ∧
      ((SigningCall.ofMessage []).maskSource = (SigningCall.ofMessage [1]).maskSource ∨
        HashSuite.zeros.h.Collide 64 ((SigningCall.ofMessage []).seedInput HashSuite.zeros)
          ((SigningCall.ofMessage [1]).seedInput HashSuite.zeros) ∨
        HashSuite.zeros.h.Collide 64 (messageInput (Octets.zero 64).bytes [] [])
          (messageInput (Octets.zero 64).bytes [1] [])) := by
  have h : (SigningCall.ofMessage []).maskInput HashSuite.zeros 999 4 =
      (SigningCall.ofMessage [1]).maskInput HashSuite.zeros 999 4 := rfl
  exact ⟨h, ((masks_not_reused HashSuite.zeros).2.1 _ _ 999 999 4 4 (by decide) (by decide) h).2.2⟩

end MLDSA
