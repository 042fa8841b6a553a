import MLDSA.Codec.Signature
import MLDSA.Proofs.Codec.Hints
import MLDSA.Proofs.Codec.Keys
import MLDSA.Proofs.Ring.HintVec

/-! # Signatures come back from their bytes

The response of a signature is encoded by its residues alone, and comes back as the centred words of
them. A byte string that decodes is the encoding of its parts, because each part is. -/

namespace MLDSA

open Coeff

namespace PolyVec

variable {m B : Nat}

/-- The words of a vector of elements that are closest to zero. -/
def ofElements (v : Fin m → Rq) : PolyVec m := ⟨Vector.ofFn fun i => Poly.ofElement (v i)⟩

theorem ofElements_apply (v : Fin m → Rq) (i : Fin m) :
    ofElements v i = Poly.ofElement (v i) :=
  Vector.getElem_ofFn i.isLt

theorem elements_ofElements (v : Fin m → Rq) : (ofElements v).elements = v := by
  funext i
  rw [elements, ofElements_apply, Poly.element_ofElement]

theorem within_ofElements (v : Fin m → Rq) : (ofElements v).Within 4190208 := by
  intro i
  rw [ofElements_apply]
  exact Poly.within_ofElement (v i)

theorem inRange_ofElements {v : Fin m → Rq} {bound : Nat} (hv : IsBelow bound v)
    (hbound : bound ≤ 524288) : (ofElements v).InRange (-524287) 524288 := by
  intro i j
  have hij := hv i j
  rw [absResidue_eq] at hij
  rw [ofElements_apply, Poly.toInt_ofElement]
  omega

theorem ofElements_elements {v : PolyVec m} (hv : v.Within 4190208) :
    ofElements v.elements = v := by
  cases v
  refine congrArg PolyVec.mk (Vector.ext fun i hi => ?_)
  rw [Vector.getElem_ofFn]
  exact Poly.ofElement_element (hv ⟨i, hi⟩)

theorem toInt_ofElements_elements (v : PolyVec m) (i : Fin m) (j : Fin 256) :
    (ofElements v.elements i j).toInt = centered modulus (v i j).toInt := by
  rw [ofElements_apply, Poly.toInt_ofElement, elements, Poly.coeff_element, val_residue,
    centered_emod]

/-- The polynomials one by one, as a response stands in a signature. -/
def encodeZ (v : PolyVec m) : Octets (m * zBytes) := Octets.join (v.polys.map Poly.encodeZ)

def decodeZ (b : Octets (m * zBytes)) : PolyVec m := ⟨b.pieces.map Poly.decodeZ⟩

theorem decodeZ_within (b : Octets (m * zBytes)) : (decodeZ b).Within 524288 := by
  intro i
  rw [decodeZ, ofPieces_apply]
  exact (Poly.decodeZ_bounds _).within (by decide) (by decide)

theorem encodeZ_ofElements {v : PolyVec m}
    (hv : ∀ (i : Fin m) (j : Fin 256), (v i j).toInt ≤ 2143289343) :
    (ofElements v.elements).encodeZ = v.encodeZ := by
  refine congrArg Octets.join (Vector.ext fun i hi => ?_)
  rw [Vector.getElem_map, Vector.getElem_map]
  exact (congrArg Poly.encodeZ (ofElements_apply v.elements ⟨i, hi⟩)).trans
    (Poly.encodeZ_ofElement (hv ⟨i, hi⟩))

theorem decodeZ_encodeZ {v : PolyVec m}
    (hv : ∀ (i : Fin m) (j : Fin 256), (v i j).toInt ≤ 2143289343)
    (hz : (ofElements v.elements).InRange (-524287) 524288) :
    decodeZ v.encodeZ = ofElements v.elements := by
  have hback : ∀ i : Fin m,
      Poly.decodeZ (Poly.encodeZ (v i)) = Poly.ofElement (v i).element := by
    intro i
    have hi := hz i
    rw [ofElements_apply] at hi
    exact Poly.decodeZ_encodeZ (hv i) hi
  rw [decodeZ, encodeZ, Octets.map_pieces_join (f := Poly.encodeZ) (g := Poly.decodeZ)
    (h := fun p => Poly.ofElement p.element) hback]
  refine congrArg PolyVec.mk (Vector.ext fun i hi => ?_)
  rw [Vector.getElem_map, Vector.getElem_ofFn]
  rfl

theorem encodeZ_decodeZ (b : Octets (m * zBytes)) : (decodeZ b).encodeZ = b :=
  Octets.join_map_pieces Poly.encodeZ_decodeZ b

end PolyVec

/-! ## Commitments -/

/-- Two buckets in a byte, row by row. -/
def Schoolbook.encodeW1 (w1 : Fin rows → Fin 256 → Int) : Bytes :=
  (List.finRange rows).flatMap fun i => (List.finRange 128).map fun k =>
    UInt8.ofNat (w1 i ⟨2 * k.val, by omega⟩ + 16 * w1 i ⟨2 * k.val + 1, by omega⟩).toNat

theorem ofFn_pairs {α : Type} (f : Fin 256 → α) :
    List.ofFn f = (List.finRange 128).flatMap fun k =>
      [f ⟨2 * k.val, by omega⟩, f ⟨2 * k.val + 1, by omega⟩] := by
  rw [List.flatMap_def, ← List.ofFn_eq_map]
  exact List.ofFn_mul' (m := 2) (n := 128) f

theorem Poly.bytes_encodeW1 {p : Poly} {w1 : Fin 256 → Int}
    (h : ∀ j : Fin 256, (p j).toInt = w1 j) (hw : ∀ j, 0 ≤ w1 j ∧ w1 j < 16) :
    p.encodeW1.bytes = (List.finRange 128).map fun k =>
      UInt8.ofNat (w1 ⟨2 * k.val, by omega⟩ + 16 * w1 ⟨2 * k.val + 1, by omega⟩).toNat := by
  have hlist : p.coeffs.toList.map (fun c => c.toUInt32.toNat) =
      List.ofFn fun j : Fin 256 => (w1 j).toNat := by
    rw [packed_eq fun j => (hw j).1.trans_eq (h j).symm]
    simp only [h]
  show packBits 4 _ = _
  rw [hlist, ofFn_pairs, packBits_four_pairs _ (fun k => by have := hw ⟨2 * k.val, by omega⟩; omega)
    (fun k => by have := hw ⟨2 * k.val + 1, by omega⟩; omega)]
  refine List.map_congr_left fun k _ => ?_
  have h1 := hw ⟨2 * k.val, by omega⟩
  have h2 := hw ⟨2 * k.val + 1, by omega⟩
  congr 1
  omega

theorem PolyVec.bytes_encodeW1 {v : PolyVec rows} {w1 : Fin rows → Fin 256 → Int}
    (h : ∀ (i : Fin rows) (j : Fin 256), (v i j).toInt = w1 i j)
    (hw : ∀ i j, 0 ≤ w1 i j ∧ w1 i j < 16) : v.encodeW1.bytes = Schoolbook.encodeW1 w1 := by
  show (v.polys.map Poly.encodeW1).toList.flatMap Octets.bytes = _
  rw [PolyVec.toList_map, List.ofFn_eq_map, List.flatMap_map, Schoolbook.encodeW1,
    List.flatMap_def, List.flatMap_def]
  exact congrArg List.flatten
    (List.map_congr_left fun i _ => Poly.bytes_encodeW1 (h i) (hw i))

theorem PolyVec.highBits_inRange {m : Nat} {v : PolyVec m} (hv : v.IsCanonical) :
    v.highBits.InRange 0 15 := by
  intro i j
  have hbucket := Schoolbook.highBits_bounds ((v.elements i).coeff j)
  rw [toInt_highBits hv]
  omega

theorem HintVec.use_inRange (h : HintVec) {v : PolyVec rows} (hv : v.IsCanonical) :
    (h.use v).InRange 0 15 := by
  intro i j
  have hbucket := Schoolbook.useHint_bounds (h i j) ((v.elements i).coeff j)
  rw [toInt_use h hv]
  omega

theorem PolyVec.encodeW1_inj {v w : PolyVec rows} (hv : v.InRange 0 15) (hw : w.InRange 0 15)
    (h : v.encodeW1.bytes = w.encodeW1.bytes) : v = w := by
  -- Four bits hold a bucket, so it comes back.
  have hback : ∀ u : PolyVec rows, u.InRange 0 15 →
      (⟨(Octets.join (u.polys.map Poly.encodeW1)).pieces.map fun o => Poly.unpack 4 o.bytes⟩ :
        PolyVec rows) = u := by
    intro u hu
    exact PolyVec.ofPieces_join (f := Poly.encodeW1) (g := fun o => Poly.unpack 4 o.bytes)
      fun i => Poly.unpack_pack (by decide) (by decide) (hu i)
  have hjoin : Octets.join (v.polys.map Poly.encodeW1) = Octets.join (w.polys.map Poly.encodeW1) :=
    Octets.ext h
  rw [← hback v hv, hjoin, hback w hw]

/-! ## Signatures -/

namespace Signature

theorem challenge_le : 0 + challengeBytes ≤ signatureBytes := by
  decide

theorem response_le : 48 + columns * zBytes ≤ signatureBytes := by
  decide

/-- The parts of a byte string at their places, whether or not its hints are well formed. -/
def read (b : Octets signatureBytes) : Signature where
  challenge := b.slice 0 challengeBytes challenge_le
  z := ⟨(b.slice 48 (columns * zBytes) response_le).pieces.map Poly.decodeZ⟩
  hints := HintVec.ofListed (b.bytes.drop 3248)

theorem read_of_take {b c : Octets signatureBytes} (h : b.bytes.take 3248 = c.bytes.take 3248) :
    (read b).challenge = (read c).challenge ∧ (read b).z = (read c).z := by
  have hresponse : b.slice 48 (columns * zBytes) response_le =
      c.slice 48 (columns * zBytes) response_le :=
    Octets.slice_eq_of_take (by decide) response_le h
  refine ⟨Octets.slice_eq_of_take (by decide) challenge_le h, ?_⟩
  simp only [read]
  rw [hresponse]

theorem decode?_eq_some {b : Octets signatureBytes} {s : Signature} :
    decode? b = some s ↔ HintVec.WellFormed (b.bytes.drop 3248) ∧ s = read b := by
  have hhints : (b.slice 3248 hintBytes (by decide)).bytes = b.bytes.drop 3248 :=
    List.take_of_length_le (by rw [List.length_drop, b.length_eq]; decide)
  have hdecode := fun h =>
    HintVec.decode?_eq_some (b := b.slice 3248 hintBytes (by decide)) (h := h)
  rw [hhints] at hdecode
  simp only [decode?, Option.bind_eq_bind, Option.bind_eq_some_iff, Option.pure_def,
    Option.some.injEq]
  constructor
  · rintro ⟨h, hh, rfl⟩
    obtain ⟨hwf, rfl⟩ := (hdecode h).mp hh
    exact ⟨hwf, rfl⟩
  · rintro ⟨hwf, rfl⟩
    exact ⟨_, (hdecode _).mpr ⟨hwf, rfl⟩, rfl⟩

theorem decode?_eq_none {b : Octets signatureBytes} :
    decode? b = none ↔ ¬ HintVec.WellFormed (b.bytes.drop 3248) := by
  constructor
  · intro h hwf
    rw [decode?_eq_some.mpr ⟨hwf, rfl⟩] at h
    cases h
  · intro h
    cases hs : decode? b with
    | none => rfl
    | some s => exact absurd (decode?_eq_some.mp hs).1 h

theorem within_read (b : Octets signatureBytes) : (read b).z.Within 524288 :=
  PolyVec.decodeZ_within _

theorem decode?_encode {s : Signature}
    (hv : ∀ (i : Fin columns) (j : Fin 256), (s.z i j).toInt ≤ 2143289343)
    (hz : (PolyVec.ofElements s.z.elements).InRange (-524287) 524288)
    (hw : s.hints.weight ≤ omega) :
    decode? s.encode = some { s with z := PolyVec.ofElements s.z.elements } := by
  obtain ⟨challenge, z, hints⟩ := s
  set e := z.encodeZ with he
  set b := Signature.encode ⟨challenge, z, hints⟩ with hb
  have hbytes : b.bytes = challenge.bytes ++ (e.bytes ++ hints.encode.bytes) := by
    simp [hb, encode, he, PolyVec.encodeZ]
  have hchallenge : b.slice 0 challengeBytes (by decide) = challenge :=
    Octets.slice_eq [] _ hbytes rfl
  have hresponse : b.slice 48 (columns * zBytes) (by decide) = e :=
    Octets.slice_eq challenge.bytes _ hbytes challenge.length_eq
  have hhints : b.slice 3248 hintBytes (by decide) = hints.encode :=
    Octets.slice_eq (challenge ++ e).bytes [] (by simp [hbytes]) (challenge ++ e).length_eq
  rw [decode?, hchallenge, hresponse, hhints, HintVec.decode?_encode hw]
  exact congrArg (fun z => some (Signature.mk challenge z hints)) (PolyVec.decodeZ_encodeZ hv hz)

theorem encode_ofElements {s : Signature}
    (hv : ∀ (i : Fin columns) (j : Fin 256), (s.z i j).toInt ≤ 2143289343) :
    ({ s with z := PolyVec.ofElements s.z.elements } : Signature).encode = s.encode :=
  congrArg (fun z : Octets (columns * zBytes) => s.challenge ++ z ++ s.hints.encode)
    (PolyVec.encodeZ_ofElements hv)

theorem read_encode (challenge : Octets challengeBytes) {z : Fin columns → Rq}
    {h : HintVec} (hz : IsBelow (gamma1 - beta) z) (hw : h.weight ≤ omega) :
    HintVec.WellFormed ((encode ⟨challenge, PolyVec.ofElements z, h⟩).bytes.drop 3248) ∧
      read (encode ⟨challenge, PolyVec.ofElements z, h⟩) =
        ⟨challenge, PolyVec.ofElements z, h⟩ := by
  have hdecode := decode?_encode (s := ⟨challenge, PolyVec.ofElements z, h⟩)
    (fun i => (PolyVec.within_ofElements z i).toInt_le (by decide))
    (by rw [PolyVec.elements_ofElements]; exact PolyVec.inRange_ofElements hz (by decide)) hw
  obtain ⟨hwf, hread⟩ := decode?_eq_some.mp hdecode
  refine ⟨hwf, hread.symm.trans ?_⟩
  rw [PolyVec.elements_ofElements]

theorem take_encode (s : Signature) : s.encode.bytes.take 3248 =
    (s.challenge ++ s.z.encodeZ).bytes :=
  List.take_left' (Octets.length_eq _)

theorem encode_of_decode? {b : Octets signatureBytes} {s : Signature} (h : decode? b = some s) :
    s.encode = b := by
  simp only [decode?, Option.bind_eq_bind, Option.bind_eq_some_iff, Option.pure_def,
    Option.some.injEq] at h
  obtain ⟨hints, hhints, rfl⟩ := h
  have hresponse : Octets.join (((b.slice 48 (columns * zBytes) response_le).pieces.map
      Poly.decodeZ).map Poly.encodeZ) = b.slice 48 (columns * zBytes) response_le :=
    PolyVec.encodeZ_decodeZ _
  have hhead : b.slice 0 challengeBytes challenge_le ++ b.slice 48 (columns * zBytes) response_le =
      b.slice 0 3248 (by decide) := b.slice_append 0 (by decide)
  have hall : b.slice 0 3248 (by decide) ++ b.slice 3248 hintBytes (by decide) = b :=
    (b.slice_append 0 (by decide)).trans b.slice_all
  rw [encode, HintVec.encode_of_decode? hhints, hresponse]
  exact (congrArg (· ++ b.slice 3248 hintBytes (by decide)) hhead).trans hall

theorem ofBytes?_eq_some {b : Bytes} {s : Signature} :
    ofBytes? b = some s ↔ ∃ o : Octets signatureBytes, b = o.bytes ∧ decode? o = some s := by
  rw [ofBytes?, Option.bind_eq_some_iff]
  simp only [Octets.ofBytes?_eq_some]

/-- A signature has one encoding. What is encoded comes back, a response of any words as the centred
ones. A byte string that decodes is the encoding of what it decodes to, and of nothing else. -/
theorem canonical_encoding :
    (∀ (challenge : Octets challengeBytes) (z : PolyVec columns) (h : PolyVec rows),
      (∀ (i : Fin columns) (j : Fin 256), (z i j).toInt ≤ 2 ^ 31 - 2 ^ 22 - 1 ∧
        -2 ^ 19 < centered modulus (z i j).toInt ∧ centered modulus (z i j).toInt ≤ 2 ^ 19) →
      (Finset.univ.filter fun p : Fin rows × Fin 256 => h p.1 p.2 ≠ 0).card ≤ 55 →
      ∃ s, ofBytes? (encode ⟨challenge, z, HintVec.ofPolys h⟩).bytes = some s ∧
        s.challenge = challenge ∧
        (∀ (i : Fin columns) (j : Fin 256), (s.z i j).toInt = centered modulus (z i j).toInt) ∧
        ∀ (i : Fin rows) (j : Fin 256), s.hints i j = (h i j != 0)) ∧
    (∀ b s, ofBytes? b = some s → s.encode.bytes = b) ∧
    ∀ b b' s, ofBytes? b = some s → ofBytes? b' = some s → b = b' := by
  have hunique : ∀ b s, ofBytes? b = some s → s.encode.bytes = b := by
    intro b s hs
    obtain ⟨o, rfl, ho⟩ := ofBytes?_eq_some.mp hs
    rw [encode_of_decode? ho]
  refine ⟨fun challenge z h hz hh => ?_, hunique, fun b b' s hb hb' => ?_⟩
  · have hword := PolyVec.toInt_ofElements_elements z
    have hrange : (PolyVec.ofElements z.elements).InRange (-524287) 524288 := by
      intro i j
      have hij := (hz i j).2
      rw [hword]
      omega
    have hdecode := decode?_encode (s := ⟨challenge, z, HintVec.ofPolys h⟩)
      (fun i j => (hz i j).1) hrange ((HintVec.weight_ofPolys h).trans_le hh)
    exact ⟨_, ofBytes?_eq_some.mpr ⟨_, rfl, hdecode⟩, rfl, hword, HintVec.ofPolys_apply h⟩
  · rw [← hunique b s hb, hunique b' s hb']

theorem canonical_encoding_largest : ∃ s,
    ofBytes? (encode ⟨Octets.zero challengeBytes, PolyVec.ofFn fun _ _ => 8904705,
      HintVec.ofPolys (PolyVec.ofFn fun _ j => if j = 3 then -7 else 0)⟩).bytes = some s ∧
    s.encode = encode ⟨Octets.zero challengeBytes, PolyVec.ofFn fun _ _ => 8904705,
      HintVec.ofPolys (PolyVec.ofFn fun _ j => if j = 3 then -7 else 0)⟩ ∧
    (∀ (i : Fin columns) (j : Fin 256), (s.z i j).toInt = 524288) ∧
    ∀ i : Fin rows, s.hints i 3 = true ∧ s.hints i 4 = false := by
  have hword : (8904705 : Coeff).toInt = 8904705 := rfl
  obtain ⟨s, hs, -, hz, hh⟩ := canonical_encoding.1 (Octets.zero challengeBytes)
    (PolyVec.ofFn fun _ _ => 8904705) (PolyVec.ofFn fun _ j => if j = 3 then -7 else 0)
    (fun i j => by rw [PolyVec.ofFn_apply, hword]; decide)
    ((HintVec.card_column (-7) 3).trans (by decide))
  refine ⟨s, hs, Octets.ext (canonical_encoding.2.1 _ s hs), fun i j => ?_, fun i => ⟨?_, ?_⟩⟩
  · rw [hz, PolyVec.ofFn_apply, hword]
    rfl
  · rw [hh, PolyVec.ofFn_apply, if_pos rfl]
    rfl
  · rw [hh, PolyVec.ofFn_apply, if_neg (by decide)]
    rfl

end Signature

end MLDSA
