import MLDSA.Proofs.Codec.Keys
import MLDSA.Proofs.Exact.Ring

/-! # Keys over the integers

Encoding and decoding as runs that stop at a place behind the end of an array, or at a number that
does not fit the bits that it is packed in. A decoded polynomial has words of its range for every
byte string, so nothing stops the decoders, and the encoders go back over the same ranges. -/

namespace MLDSA

namespace Exact

/-! ## Numbers as bits -/

def unpack (width : Nat) (b : Bytes) : Exact (Fin 256 → Int) := do
  require (0 < width ∧ width ≤ 24 ∧ 8 * b.length = 256 * width)
  all fun i => do fit ((← get (unpackBits width b) i : Nat))

def unpackRange (a b : Int) (x : Bytes) : Exact (Fin 256 → Int) := do
  let top ← add a b
  map (sub b) (← unpack (bitLength top.toNat) x)

/-- Packs into an array of `len` bytes. -/
def pack (width len : Nat) (p : Fin 256 → Int) : Exact Bytes := do
  require (0 < width ∧ width ≤ 24 ∧ ∀ i, 0 ≤ p i ∧ p i < 2 ^ width)
  let out := packBits width (List.ofFn fun i => (p i).toNat)
  if out.length = len then return out else throw (.index len)

def packRange (a b : Int) (len : Nat) (p : Fin 256 → Int) : Exact Bytes := do
  let top ← add a b
  pack (bitLength top.toNat) len (← map (sub b) p)

section

variable {width len : Nat} {a b : Int} {p : Poly}

theorem unpack_ints {x : Bytes} (h0 : 0 < width) (h24 : width ≤ 24)
    (hx : 8 * x.length = 256 * width) : unpack width x = .ok (Poly.unpack width x).ints := by
  have hlen : (unpackBits width x).length = 256 := by
    rw [length_unpackBits, hx, Nat.mul_div_cancel _ h0]
  rw [unpack, require_of ⟨h0, h24, hx⟩, ok_bind]
  refine all_ok fun i => ?_
  have hi : i.val < (unpackBits width x).length := by rw [hlen]; exact i.isLt
  have hword := Poly.toInt_unpack (b := x) (h24.trans (by decide)) i
  rw [List.getD_eq_getElem _ _ hi] at hword
  rw [get_of hi, ok_bind]
  exact fit_of hword.symm (Coeff.toInt_fits (Poly.unpack width x i))

theorem unpackRange_ints {x : Bytes} (hw : bitLength (a + b).toNat = width) (h0 : 0 < width)
    (h24 : width ≤ 24) (hsum : Fits (a + b)) (hb : 0 ≤ b) (hb' : b < 2147483648)
    (hx : 8 * x.length = 256 * width) : unpackRange a b x = .ok (Poly.unpackRange a b x).ints := by
  have hpow : (2 : Int) ^ width ≤ 16777216 := by
    exact_mod_cast Nat.pow_le_pow_right (n := 2) (by decide) h24
  have hsub : ∀ i : Fin 256, sub b (Poly.unpack width x i).toInt =
      .ok (Int32.ofInt b - Poly.unpack width x i).toInt := by
    intro i
    have hbounds := Poly.unpack_bounds x (h24.trans (by decide)) i
    have hfits : Fits (b - (Poly.unpack width x i).toInt) := ⟨by omega, by omega⟩
    exact fit_of (Poly.toInt_reflect ⟨by omega, hb'⟩ hfits).symm (Coeff.toInt_fits _)
  rw [unpackRange, add, fit_of rfl hsum, ok_bind, hw, unpack_ints h0 h24 hx, ok_bind,
    Poly.unpackRange, hw]
  exact map_ints hsub

theorem pack_ints (h0 : 0 < width) (h24 : width ≤ 24) (hp : p.InRange 0 (2 ^ width - 1))
    (hlen : (256 * width + 7) / 8 = len) : pack width len p.ints = .ok (p.pack width) := by
  have hdomain : 0 < width ∧ width ≤ 24 ∧ ∀ i, 0 ≤ p.ints i ∧ p.ints i < 2 ^ width :=
    ⟨h0, h24, fun i => ⟨(hp i).1, Int.lt_of_le_sub_one (hp i).2⟩⟩
  have hwords : (List.ofFn fun i => (p.ints i).toNat) =
      p.coeffs.toList.map fun c => c.toUInt32.toNat :=
    (Poly.packed_eq fun i => (hp i).1).symm
  simp only [pack, require_of hdomain, ok_bind, hwords]
  exact if_pos ((p.length_pack width).trans hlen)

theorem packRange_ints (hw : bitLength (a + b).toNat = width) (h0 : 0 < width)
    (h24 : width ≤ 24) (hsum : Fits (a + b)) (hb : 0 ≤ b) (hb' : b < 2147483648)
    (hp : p.InRange (b - (2 ^ width - 1)) b) (hlen : (256 * width + 7) / 8 = len) :
    packRange a b len p.ints = .ok (p.packRange a b) := by
  have hpow : (2 : Int) ^ width ≤ 16777216 := by
    exact_mod_cast Nat.pow_le_pow_right (n := 2) (by decide) h24
  have hword : ∀ i : Fin 256, (Int32.ofInt b - p i).toInt = b - (p i).toInt := by
    intro i
    have hbounds := hp i
    exact Poly.toInt_reflect ⟨by omega, hb'⟩ ⟨by omega, by omega⟩
  have hsub : map (sub b) p.ints = .ok (p.map (Int32.ofInt b - ·)).ints :=
    map_ints fun i => fit_of (hword i).symm (Coeff.toInt_fits _)
  have hin : (p.map (Int32.ofInt b - ·)).InRange 0 (2 ^ width - 1) := by
    intro i
    have hbounds := hp i
    rw [Poly.map_apply, hword]
    omega
  rw [packRange, add, fit_of rfl hsum, ok_bind, hw, hsub, ok_bind, pack_ints h0 h24 hin hlen,
    Poly.packRange, hw]

end

/-! ## Keys -/

structure PublicKeyParts where
  rho : Octets seedBytes
  t1 : Fin rows → Fin 256 → Int

structure SecretKeyParts where
  rho : Octets seedBytes
  key : Octets seedBytes
  tr : Octets longHashBytes
  s1 : Fin columns → Fin 256 → Int
  s2 : Fin rows → Fin 256 → Int
  t0 : Fin rows → Fin 256 → Int

def encodePublicKey (pk : PublicKeyParts) : Exact Bytes := do
  let t1 ← map (pack 10 t1Bytes) pk.t1
  return pk.rho.bytes ++ (List.ofFn t1).flatten

/-- A polynomial from each piece of `n` bytes. -/
def unpackPieces {m n : Nat} (f : Bytes → Exact (Fin 256 → Int)) (b : Octets (m * n)) :
    Exact (Fin m → Fin 256 → Int) :=
  map (fun x : Octets n => f x.bytes) b.pieces.get

def decodePublicKey (b : Octets publicKeyBytes) : Exact PublicKeyParts := do
  let rho ← part b 0 seedBytes
  let t1 ← unpackPieces (unpack 10) (← part b 32 (rows * t1Bytes))
  return { rho, t1 }

def encodeSecretKey (sk : SecretKeyParts) : Exact Bytes := do
  let s1 ← map (packRange 4 4 secretBytes) sk.s1
  let s2 ← map (packRange 4 4 secretBytes) sk.s2
  let t0 ← map (packRange 4095 4096 t0Bytes) sk.t0
  return sk.rho.bytes ++ sk.key.bytes ++ sk.tr.bytes ++ (List.ofFn s1).flatten ++
    (List.ofFn s2).flatten ++ (List.ofFn t0).flatten

/-- The test for four bits above `2 * eta` adds `eta` to each coefficient. -/
def decodeSecret (b : Octets secretBytes) : OptionT Exact (Fin 256 → Int) := do
  let p ← unpackRange 4 4 b.bytes
  let shifted ← map (fun c => add c 4) p
  if ∀ i, 0 ≤ shifted i then return p else failure

def decodeSecrets {m : Nat} (b : Octets (m * secretBytes)) :
    OptionT Exact (Fin m → Fin 256 → Int) :=
  all fun i => decodeSecret (b.pieces.get i)

def decodeSecretKey (b : Octets secretKeyBytes) : OptionT Exact SecretKeyParts := do
  let rho ← part b 0 seedBytes
  let key ← part b 32 seedBytes
  let tr ← part b 64 longHashBytes
  let s1 ← decodeSecrets (← part b 128 (columns * secretBytes))
  let s2 ← decodeSecrets (← part b 768 (rows * secretBytes))
  let t0 ← unpackPieces (unpackRange 4095 4096) (← part b 1536 (rows * t0Bytes))
  return { rho, key, tr, s1, s2, t0 }

end Exact

open Exact

def PublicKey.ints (pk : PublicKey) : PublicKeyParts := { rho := pk.rho, t1 := pk.t1.ints }

def SecretKey.ints (sk : SecretKey) : SecretKeyParts where
  rho := sk.rho
  key := sk.key
  tr := sk.tr
  s1 := sk.s1.ints
  s2 := sk.s2.ints
  t0 := sk.t0.ints

namespace Exact

theorem flatten_ofFn {m n : Nat} (f : Poly → Octets n) (v : PolyVec m) :
    (List.ofFn fun i => (f (v i)).bytes).flatten = (Octets.join (v.polys.map f)).bytes := by
  show _ = (v.polys.map f).toList.flatMap Octets.bytes
  rw [PolyVec.toList_map, List.flatMap_def, List.map_ofFn]
  rfl

theorem unpackPieces_ints {m n : Nat} {f : Bytes → Exact (Fin 256 → Int)} {g : Octets n → Poly}
    (h : ∀ x : Octets n, f x.bytes = .ok (g x).ints) (b : Octets (m * n)) :
    unpackPieces f b = .ok (PolyVec.ints ⟨b.pieces.map g⟩) :=
  all_ok fun i => (h _).trans
    (congrArg (fun p => Except.ok (Poly.ints p)) (PolyVec.ofPieces_apply g b.pieces i).symm)

theorem encodePublicKey_ints (pk : PublicKey) (h : pk.t1.InRange 0 1023) :
    encodePublicKey pk.ints = .ok pk.encode.bytes := by
  have ht1 : map (pack 10 t1Bytes) pk.t1.ints = .ok fun i => (pk.t1 i).encodeT1.bytes :=
    all_ok fun i => pack_ints (by decide) (by decide) (h i) (by decide)
  rw [encodePublicKey, PublicKey.ints, ht1, ok_bind, flatten_ofFn]
  rfl

theorem decodePublicKey_ints (b : Octets publicKeyBytes) :
    decodePublicKey b = .ok (PublicKey.decode b).ints := by
  have ht1 : ∀ x : Octets t1Bytes, unpack 10 x.bytes = .ok (Poly.decodeT1 x).ints := fun x =>
    unpack_ints (by decide) (by decide) (congrArg (8 * ·) x.length_eq)
  rw [decodePublicKey, part_of (by decide), ok_bind, part_of (by decide), ok_bind,
    unpackPieces_ints ht1]
  rfl

theorem encodeSecret_ints {m : Nat} {v : PolyVec m} (h : v.InRange (-4) 4) :
    map (packRange 4 4 secretBytes) v.ints = .ok fun i => (v i).encodeSecret.bytes :=
  all_ok fun i => packRange_ints (show _ = 4 by decide) (by decide) (by decide) (by decide)
    (by decide) (by decide) (fun j => ⟨le_trans (by decide) (h i j).1, (h i j).2⟩) (by decide)

theorem encodeSecretKey_ints (sk : SecretKey) (h1 : sk.s1.InRange (-4) 4)
    (h2 : sk.s2.InRange (-4) 4) (h0 : sk.t0.InRange (-4095) 4096) :
    encodeSecretKey sk.ints = .ok sk.encode.bytes := by
  have ht0 : map (packRange 4095 4096 t0Bytes) sk.t0.ints = .ok fun i => (sk.t0 i).encodeT0.bytes :=
    all_ok fun i => packRange_ints (show _ = 13 by decide) (by decide) (by decide) (by decide)
      (by decide) (by decide) (h0 i) (by decide)
  rw [encodeSecretKey, SecretKey.ints, encodeSecret_ints h1, ok_bind, encodeSecret_ints h2, ok_bind,
    ht0, ok_bind, flatten_ofFn, flatten_ofFn, flatten_ofFn]
  rfl

theorem decodeSecret_ints (b : Octets secretBytes) :
    (decodeSecret b).run = .ok ((Poly.decodeSecret? b).map Poly.ints) := by
  set p := Poly.unpackRange 4 4 b.bytes with hp
  have hbounds : p.InRange (-11) 4 :=
    Poly.unpackRange_bounds b.bytes (show _ = 4 by decide) (by decide) (by decide) (by decide)
  have hunpack : unpackRange 4 4 b.bytes = .ok p.ints :=
    unpackRange_ints (show _ = 4 by decide) (by decide) (by decide) (by decide) (by decide)
      (by decide) (congrArg (8 * ·) b.length_eq)
  have hshift : map (fun c => add c 4) p.ints = .ok fun i => p.ints i + 4 :=
    all_ok fun i => by
      obtain ⟨hlo, hhi⟩ : -11 ≤ p.ints i ∧ p.ints i ≤ 4 := hbounds i
      exact fit_of rfl ⟨by omega, by omega⟩
  have hsmall : (∀ i, 0 ≤ p.ints i + 4) ↔ p.coeffs.all (-4 ≤ ·) = true := by
    rw [Poly.all_ge_four_iff]
    exact forall_congr' fun i => (by omega : 0 ≤ (p i).toInt + 4 ↔ -4 ≤ (p i).toInt)
  rw [decodeSecret, ok_bind_run hunpack, ok_bind_run hshift, Poly.decodeSecret?, ← hp]
  by_cases h : ∀ i, 0 ≤ p.ints i + 4
  · rw [if_pos h]
    simp only [hsmall.mp h, if_true]
    rfl
  · rw [if_neg h]
    simp only [mt hsmall.mpr h]
    rfl

theorem decodeSecrets_ints {m : Nat} (b : Octets (m * secretBytes)) :
    (decodeSecrets b).run =
      .ok ((allSome (b.pieces.map Poly.decodeSecret?)).map fun v => PolyVec.ints ⟨v⟩) := by
  have hplaces : b.pieces.map Poly.decodeSecret? =
      Vector.ofFn fun i => Poly.decodeSecret? (b.pieces.get i) := by
    ext i hi : 1
    rw [Vector.getElem_map, Vector.getElem_ofFn]
    rfl
  rw [hplaces]
  exact all_run fun i => decodeSecret_ints _

theorem decodeSecretKey_ints (b : Octets secretKeyBytes) :
    (decodeSecretKey b).run = .ok ((SecretKey.decode? b).map SecretKey.ints) := by
  have ht0 : ∀ x : Octets t0Bytes, unpackRange 4095 4096 x.bytes = .ok (Poly.decodeT0 x).ints :=
    fun x => unpackRange_ints (show _ = 13 by decide) (by decide) (by decide) (by decide)
      (by decide) (by decide) (congrArg (8 * ·) x.length_eq)
  rw [decodeSecretKey, ok_bind_run (part_of (by decide) b), ok_bind_run (part_of (by decide) b),
    ok_bind_run (part_of (by decide) b), ok_bind_run (part_of (by decide) b)]
  refine bind_run (decodeSecrets_ints _) fun s1 _ => ?_
  rw [ok_bind_run (part_of (by decide) b)]
  refine bind_run (decodeSecrets_ints _) fun s2 _ => ?_
  rw [ok_bind_run (part_of (by decide) b), ok_bind_run (unpackPieces_ints ht0 _)]
  rfl

end Exact

end MLDSA
