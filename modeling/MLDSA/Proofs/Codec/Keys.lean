import MLDSA.Codec.Keys
import MLDSA.Proofs.Codec.Poly

/-! # Keys come back from their bytes

A key with coefficients in range is decoded as it was encoded, and a secret key is rejected exactly
for a secret coefficient out of range. The bytes come back as well, because the parts of a key lie
side by side and each of them is encoded as it was read. -/

namespace MLDSA

/-- Each coefficient is at least `lo` and at most `hi`. -/
def PolyVec.InRange {m : Nat} (lo hi : Int) (v : PolyVec m) : Prop :=
  ∀ i : Fin m, (v i).InRange lo hi

theorem PolyVec.InRange.within {m : Nat} {lo hi : Int} {v : PolyVec m} {B : Nat}
    (h : v.InRange lo hi) (hlo : -B ≤ lo) (hhi : hi ≤ B) : v.Within B :=
  fun i => (h i).within hlo hhi

theorem PolyVec.ofPieces_apply {m n : Nat} (g : Octets n → Poly) (v : Vector (Octets n) m)
    (i : Fin m) : (⟨v.map g⟩ : PolyVec m) i = g (v.get i) :=
  Vector.getElem_map g i.isLt

theorem PolyVec.ofPieces_join {m n : Nat} {f : Poly → Octets n} {g : Octets n → Poly}
    {v : PolyVec m} (h : ∀ i : Fin m, g (f (v i)) = v i) :
    (⟨(Octets.join (v.polys.map f)).pieces.map g⟩ : PolyVec m) = v := by
  rw [Octets.map_pieces_join (h := id) h, Vector.map_id]

namespace PublicKey

theorem decode_encode {pk : PublicKey} (h : pk.t1.InRange 0 1023) : decode pk.encode = pk := by
  have hrho : pk.encode.slice 0 seedBytes (by decide) = pk.rho :=
    Octets.slice_eq [] (Octets.join (pk.t1.polys.map Poly.encodeT1)).bytes rfl rfl
  have ht1 : pk.encode.slice 32 (rows * t1Bytes) (by decide) =
      Octets.join (pk.t1.polys.map Poly.encodeT1) :=
    Octets.slice_eq pk.rho.bytes [] (by simp [encode]) (by simp)
  rw [decode, hrho, ht1, PolyVec.ofPieces_join fun i => Poly.decodeT1_encodeT1 (h i)]

theorem ofBytes?_bytes (b : Octets publicKeyBytes) : ofBytes? b.bytes = some (decode b) := by
  rw [ofBytes?, Octets.ofBytes?_eq_some.mpr rfl, Option.map_some]

theorem decode_bounds (b : Octets publicKeyBytes) : (decode b).t1.InRange 0 1023 := by
  intro i
  rw [decode, PolyVec.ofPieces_apply]
  exact Poly.decodeT1_bounds _

theorem encode_decode (b : Octets publicKeyBytes) : (decode b).encode = b := by
  have hparts : b.slice 0 seedBytes (by decide) ++ b.slice 32 (rows * t1Bytes) (by decide) = b :=
    (b.slice_append 0 (by decide)).trans b.slice_all
  rw [encode, decode, Octets.join_map_pieces Poly.encodeT1_decodeT1]
  exact hparts

theorem ofBytes?_eq_some {b : Bytes} {pk : PublicKey} :
    ofBytes? b = some pk ↔ ∃ o : Octets publicKeyBytes, b = o.bytes ∧ pk = decode o := by
  simp only [ofBytes?, Option.map_eq_some_iff, Octets.ofBytes?_eq_some, eq_comm (a := pk)]

theorem ofBytes?_eq_none {b : Bytes} : ofBytes? b = none ↔ b.length ≠ publicKeyBytes := by
  rw [ofBytes?, Option.map_eq_none_iff, Octets.ofBytes?_eq_none]

end PublicKey

namespace SecretKey

theorem decode?_encode {sk : SecretKey} (h1 : sk.s1.InRange (-4) 4) (h2 : sk.s2.InRange (-4) 4)
    (h0 : sk.t0.InRange (-4095) 4096) : decode? sk.encode = some sk := by
  obtain ⟨rho, key, tr, s1, s2, t0⟩ := sk
  set e1 := Octets.join (s1.polys.map Poly.encodeSecret) with he1
  set e2 := Octets.join (s2.polys.map Poly.encodeSecret) with he2
  set e0 := Octets.join (t0.polys.map Poly.encodeT0) with he0
  set b := SecretKey.encode ⟨rho, key, tr, s1, s2, t0⟩ with hb
  have hbytes : b.bytes = rho.bytes ++ (key.bytes ++ (tr.bytes ++ (e1.bytes ++ (e2.bytes ++
      e0.bytes)))) := by
    simp [hb, encode, he1, he2, he0]
  have hrho : b.slice 0 seedBytes (by decide) = rho := Octets.slice_eq [] _ hbytes rfl
  have hkey : b.slice 32 seedBytes (by decide) = key :=
    Octets.slice_eq rho.bytes _ hbytes rho.length_eq
  have htr : b.slice 64 longHashBytes (by decide) = tr :=
    Octets.slice_eq (rho ++ key).bytes (e1.bytes ++ (e2.bytes ++ e0.bytes)) (by simp [hbytes])
      (rho ++ key).length_eq
  have hs1 : b.slice 128 (columns * secretBytes) (by decide) = e1 :=
    Octets.slice_eq (rho ++ key ++ tr).bytes (e2.bytes ++ e0.bytes) (by simp [hbytes])
      (rho ++ key ++ tr).length_eq
  have hs2 : b.slice 768 (rows * secretBytes) (by decide) = e2 :=
    Octets.slice_eq (rho ++ key ++ tr ++ e1).bytes e0.bytes (by simp [hbytes])
      (rho ++ key ++ tr ++ e1).length_eq
  have ht0 : b.slice 1536 (rows * t0Bytes) (by decide) = e0 :=
    Octets.slice_eq (rho ++ key ++ tr ++ e1 ++ e2).bytes [] (by simp [hbytes])
      (rho ++ key ++ tr ++ e1 ++ e2).length_eq
  have hsecret : ∀ {m : Nat} {v : PolyVec m}, v.InRange (-4) 4 →
      allSome ((Octets.join (v.polys.map Poly.encodeSecret)).pieces.map Poly.decodeSecret?) =
        some v.polys := fun {m v} hv => by
    rw [Octets.map_pieces_join (h := some) fun i => Poly.decodeSecret?_encodeSecret (hv i),
      allSome_map_some]
  rw [decode?, hrho, hkey, htr, hs1, hs2, ht0, he1, he2, he0, hsecret h1, hsecret h2,
    PolyVec.ofPieces_join fun i => Poly.decodeT0_encodeT0 (h0 i)]
  rfl

theorem decode?_eq_some {b : Octets secretKeyBytes} {sk : SecretKey} (h : decode? b = some sk) :
    allSome ((b.slice 128 (columns * secretBytes) (by decide)).pieces.map Poly.decodeSecret?) =
        some sk.s1.polys ∧
      allSome ((b.slice 768 (rows * secretBytes) (by decide)).pieces.map Poly.decodeSecret?) =
        some sk.s2.polys ∧
      sk.t0 = ⟨(b.slice 1536 (rows * t0Bytes) (by decide)).pieces.map Poly.decodeT0⟩ ∧
      sk.rho.bytes = b.bytes.take 32 ∧ sk.key.bytes = (b.bytes.drop 32).take 32 ∧
      sk.tr.bytes = (b.bytes.drop 64).take 64 := by
  simp only [decode?, Option.bind_eq_bind, Option.bind_eq_some_iff, Option.pure_def,
    Option.some.injEq] at h
  obtain ⟨s1, hs1, s2, hs2, rfl⟩ := h
  exact ⟨hs1, hs2, rfl, rfl, rfl, rfl⟩

theorem decode?_bounds {b : Octets secretKeyBytes} {sk : SecretKey} (h : decode? b = some sk) :
    sk.s1.InRange (-4) 4 ∧ sk.s2.InRange (-4) 4 ∧ sk.t0.InRange (-4095) 4096 := by
  obtain ⟨h1, h2, h0, -⟩ := decode?_eq_some h
  refine ⟨fun i => ?_, fun i => ?_, fun i => ?_⟩
  · exact Poly.decodeSecret?_bounds (eq_some_of_allSome_map h1 i)
  · exact Poly.decodeSecret?_bounds (eq_some_of_allSome_map h2 i)
  · rw [h0, PolyVec.ofPieces_apply]
    exact Poly.decodeT0_bounds _

theorem allSome_decodeSecret?_eq_none {m : Nat} {b : Octets (m * secretBytes)} :
    allSome (b.pieces.map Poly.decodeSecret?) = none ↔
      ∃ x ∈ b.bytes, 8 < x.toNat % 16 ∨ 8 < x.toNat / 16 := by
  simp only [allSome_map_eq_none, Poly.decodeSecret?_eq_none, Octets.mem_bytes_iff]
  exact ⟨fun ⟨i, x, hx, h⟩ => ⟨x, ⟨i, hx⟩, h⟩, fun ⟨x, ⟨i, hx⟩, h⟩ => ⟨i, x, hx, h⟩⟩

theorem decode?_eq_none {b : Octets secretKeyBytes} : decode? b = none ↔
    ∃ x ∈ (b.bytes.drop 128).take 1408, 8 < x.toNat % 16 ∨ 8 < x.toNat / 16 := by
  have harea : (b.bytes.drop 128).take 1408 =
      (b.slice 128 (columns * secretBytes) (by decide)).bytes ++
        (b.slice 768 (rows * secretBytes) (by decide)).bytes := by
    show (b.bytes.drop 128).take (640 + 768) =
      (b.bytes.drop 128).take 640 ++ (b.bytes.drop 768).take 768
    rw [List.take_add, List.drop_drop]
  have hnone : decode? b = none ↔
      allSome ((b.slice 128 (columns * secretBytes) (by decide)).pieces.map Poly.decodeSecret?) =
          none ∨
        allSome ((b.slice 768 (rows * secretBytes) (by decide)).pieces.map Poly.decodeSecret?) =
          none := by
    simp only [decode?, Option.bind_eq_bind]
    cases allSome ((b.slice 128 (columns * secretBytes) (by decide)).pieces.map Poly.decodeSecret?)
    · simp
    · cases allSome ((b.slice 768 (rows * secretBytes) (by decide)).pieces.map Poly.decodeSecret?)
      · simp
      · simp
  rw [hnone, allSome_decodeSecret?_eq_none, allSome_decodeSecret?_eq_none, harea]
  simp only [List.mem_append, or_and_right, exists_or]

theorem ofBytes_cases_of_decoder {d : Octets secretKeyBytes → Option SecretKey} (hd : decode? = d)
    (b : Bytes) :
    (b.length ≠ secretKeyBytes ∧ ofBytes b = .error (.invalidKeyLength secretKeyBytes b.length)) ∨
      ∃ o : Octets secretKeyBytes, b = o.bytes ∧
        ((d o = none ∧ ofBytes b = .error .encodingError) ∨
          ∃ sk, d o = some sk ∧ ofBytes b = .ok sk) := by
  unfold ofBytes
  -- With a variable in its place, the decoder is not evaluated.
  rw [hd]
  cases hb : Octets.ofBytes? secretKeyBytes b with
  | none => exact .inl ⟨Octets.ofBytes?_eq_none.mp hb, rfl⟩
  | some o =>
    refine .inr ⟨o, Octets.ofBytes?_eq_some.mp hb, ?_⟩
    cases ho : d o with
    | none => exact .inl ⟨rfl, by simp only [ho]⟩
    | some sk => exact .inr ⟨sk, rfl, by simp only [ho]⟩

theorem ofBytes_cases (b : Bytes) :
    (b.length ≠ secretKeyBytes ∧ ofBytes b = .error (.invalidKeyLength secretKeyBytes b.length)) ∨
      ∃ o : Octets secretKeyBytes, b = o.bytes ∧
        ((decode? o = none ∧ ofBytes b = .error .encodingError) ∨
          ∃ sk, decode? o = some sk ∧ ofBytes b = .ok sk) :=
  ofBytes_cases_of_decoder rfl b

theorem ofBytes_eq_ok {b : Bytes} {sk : SecretKey} :
    ofBytes b = .ok sk ↔ ∃ o : Octets secretKeyBytes, b = o.bytes ∧ decode? o = some sk := by
  constructor
  · intro h
    rcases ofBytes_cases b with ⟨-, herror⟩ | ⟨o, ho, ⟨-, herror⟩ | ⟨sk', hsome, hok⟩⟩
    · rw [h] at herror
      cases herror
    · rw [h] at herror
      cases herror
    · rw [h] at hok
      cases hok
      exact ⟨o, ho, hsome⟩
  · rintro ⟨o, rfl, h⟩
    rcases ofBytes_cases o.bytes with ⟨hlen, -⟩ | ⟨o', ho, ⟨hnone, -⟩ | ⟨sk', hsome, hok⟩⟩
    · exact absurd o.length_eq hlen
    · rw [← Octets.ext ho, h] at hnone
      cases hnone
    · rw [← Octets.ext ho, h] at hsome
      cases hsome
      exact hok

theorem encode_of_decode? {b : Octets secretKeyBytes} {sk : SecretKey} (h : decode? b = some sk) :
    sk.encode = b := by
  obtain ⟨hs1, hs2, ht0, hrho, hkey, htr⟩ := decode?_eq_some h
  have hseeds : sk.rho ++ sk.key ++ sk.tr = b.slice 0 128 (by decide) := by
    apply Octets.ext
    rw [Octets.bytes_append, Octets.bytes_append, hrho, hkey, htr]
    show b.bytes.take 32 ++ (b.bytes.drop 32).take 32 ++ (b.bytes.drop 64).take 64 =
      b.bytes.take (32 + 32 + 64)
    rw [← List.take_add, ← List.take_add]
  have hs1' := Octets.join_of_allSome_pieces (fun _ _ => Poly.encodeSecret_of_decodeSecret?) hs1
  have hs2' := Octets.join_of_allSome_pieces (fun _ _ => Poly.encodeSecret_of_decodeSecret?) hs2
  have ht0' : Octets.join (sk.t0.polys.map Poly.encodeT0) =
      b.slice 1536 (rows * t0Bytes) (by decide) := by
    rw [ht0, Octets.join_map_pieces Poly.encodeT0_decodeT0]
  have hto768 : b.slice 0 128 (by decide) ++ b.slice 128 (columns * secretBytes) (by decide) =
      b.slice 0 768 (by decide) := b.slice_append 0 (by decide)
  have hto1536 : b.slice 0 768 (by decide) ++ b.slice 768 (rows * secretBytes) (by decide) =
      b.slice 0 1536 (by decide) := b.slice_append 0 (by decide)
  have hall : b.slice 0 1536 (by decide) ++ b.slice 1536 (rows * t0Bytes) (by decide) = b :=
    (b.slice_append 0 (by decide)).trans b.slice_all
  rw [encode, hs1', hs2', ht0', hseeds]
  calc b.slice 0 128 (by decide) ++ b.slice 128 (columns * secretBytes) (by decide) ++
        b.slice 768 (rows * secretBytes) (by decide) ++ b.slice 1536 (rows * t0Bytes) (by decide)
      = b.slice 0 768 (by decide) ++ b.slice 768 (rows * secretBytes) (by decide) ++
        b.slice 1536 (rows * t0Bytes) (by decide) := congrArg (· ++ _ ++ _) hto768
    _ = b.slice 0 1536 (by decide) ++ b.slice 1536 (rows * t0Bytes) (by decide) :=
        congrArg (· ++ _) hto1536
    _ = b := hall

theorem toOption_ofBytes_eq_none {b : Bytes} : (ofBytes b).toOption = none ↔
    b.length ≠ secretKeyBytes ∨
      ∃ x ∈ (b.drop 128).take 1408, 8 < x.toNat % 16 ∨ 8 < x.toNat / 16 := by
  rcases ofBytes_cases b with ⟨hlen, hb⟩ | ⟨o, rfl, ⟨ho, hb⟩ | ⟨sk, ho, hb⟩⟩
  · rw [hb]
    exact iff_of_true rfl (.inl hlen)
  · rw [hb]
    exact iff_of_true rfl (.inr (decode?_eq_none.mp ho))
  · rw [hb]
    refine iff_of_false (by simp [Except.toOption]) ?_
    rintro (hlen | hbad)
    · exact hlen o.length_eq
    · rw [decode?_eq_none.mpr hbad] at ho
      cases ho

end SecretKey

/-! ## Both formats -/

theorem PolyVec.inRange_ofFn {m : Nat} {lo hi : Int} (c : Coeff) (hlo : lo ≤ c.toInt)
    (hhi : c.toInt ≤ hi) : (PolyVec.ofFn fun (_ : Fin m) _ => c).InRange lo hi := by
  intro i j
  rw [PolyVec.ofFn_apply]
  exact ⟨hlo, hhi⟩

/-- A secret key with each coefficient at an end of its range. -/
def SecretKey.ends : SecretKey where
  rho := Octets.zero seedBytes
  key := Octets.zero seedBytes
  tr := Octets.zero longHashBytes
  s1 := PolyVec.ofFn fun _ _ => -4
  s2 := PolyVec.ofFn fun _ _ => 4
  t0 := PolyVec.ofFn fun _ _ => 4096

theorem SecretKey.inRange_ends : ends.s1.InRange (-4) 4 ∧ ends.s2.InRange (-4) 4 ∧
    ends.t0.InRange (-4095) 4096 :=
  ⟨PolyVec.inRange_ofFn (-4) (by decide) (by decide),
    PolyVec.inRange_ofFn 4 (by decide) (by decide),
    PolyVec.inRange_ofFn 4096 (by decide) (by decide)⟩

theorem SecretKey.decode?_ends : decode? ends.encode = some ends :=
  decode?_encode inRange_ends.1 inRange_ends.2.1 inRange_ends.2.2

/-- Each format is a bijection between the keys with coefficients in range and the byte strings that
are not rejected. -/
theorem canonical_keys :
    (∀ b, PublicKey.ofBytes? b = none ↔ b.length ≠ 1952) ∧
    (∀ b pk, PublicKey.ofBytes? b = some pk → pk.encode.bytes = b) ∧
    (∀ pk : PublicKey, pk.t1.InRange 0 1023 → PublicKey.ofBytes? pk.encode.bytes = some pk) ∧
    (∀ b, (SecretKey.ofBytes b).toOption = none ↔ b.length ≠ 4032 ∨
      ∃ x ∈ (b.drop 128).take 1408, 8 < x.toNat % 16 ∨ 8 < x.toNat / 16) ∧
    (∀ b sk, SecretKey.ofBytes b = .ok sk → sk.s1.InRange (-4) 4 ∧ sk.s2.InRange (-4) 4 ∧
      sk.t0.InRange (-4095) 4096 ∧ sk.encode.bytes = b) ∧
    ∀ sk : SecretKey, sk.s1.InRange (-4) 4 → sk.s2.InRange (-4) 4 → sk.t0.InRange (-4095) 4096 →
      SecretKey.ofBytes sk.encode.bytes = .ok sk := by
  refine ⟨fun b => PublicKey.ofBytes?_eq_none, fun b pk h => ?_, fun pk h => ?_,
    fun b => SecretKey.toOption_ofBytes_eq_none, fun b sk h => ?_, fun sk h1 h2 h0 => ?_⟩
  · obtain ⟨o, rfl, rfl⟩ := PublicKey.ofBytes?_eq_some.mp h
    rw [PublicKey.encode_decode]
  · rw [PublicKey.ofBytes?_bytes, PublicKey.decode_encode h]
  · obtain ⟨o, rfl, ho⟩ := SecretKey.ofBytes_eq_ok.mp h
    obtain ⟨h1, h2, h0⟩ := SecretKey.decode?_bounds ho
    exact ⟨h1, h2, h0, congrArg Octets.bytes (SecretKey.encode_of_decode? ho)⟩
  · exact SecretKey.ofBytes_eq_ok.mpr ⟨_, rfl, SecretKey.decode?_encode h1 h2 h0⟩

theorem canonical_keys_ends :
    PublicKey.ofBytes? (PublicKey.encode ⟨Octets.zero 32, PolyVec.ofFn fun _ _ => 1023⟩).bytes =
        some ⟨Octets.zero 32, PolyVec.ofFn fun _ _ => 1023⟩ ∧
      SecretKey.ofBytes SecretKey.ends.encode.bytes = .ok SecretKey.ends ∧
      (∃ pk, PublicKey.ofBytes? (Octets.zero publicKeyBytes).bytes = some pk ∧
        pk.encode.bytes = (Octets.zero publicKeyBytes).bytes) ∧
      ∃ sk, SecretKey.ofBytes (Octets.zero secretKeyBytes).bytes = .ok sk ∧
        sk.encode.bytes = (Octets.zero secretKeyBytes).bytes := by
  obtain ⟨-, hread, hpublic, hnone, hok, hsecret⟩ := canonical_keys
  obtain ⟨h1, h2, h0⟩ := SecretKey.inRange_ends
  have hpk := PublicKey.ofBytes?_bytes (Octets.zero publicKeyBytes)
  have hsmall : (SecretKey.ofBytes (Octets.zero secretKeyBytes).bytes).toOption ≠ none := by
    rw [Ne, hnone, not_or]
    refine ⟨not_not.mpr (Octets.length_eq _), ?_⟩
    rintro ⟨x, hx, hlarge⟩
    have hzero : x = 0 := List.eq_of_mem_replicate (List.mem_of_mem_drop (List.mem_of_mem_take hx))
    rw [hzero] at hlarge
    exact absurd hlarge (by decide)
  obtain ⟨sk, hsk⟩ : ∃ sk, SecretKey.ofBytes (Octets.zero secretKeyBytes).bytes = .ok sk := by
    cases h : SecretKey.ofBytes (Octets.zero secretKeyBytes).bytes with
    | ok sk => exact ⟨sk, rfl⟩
    | error e => exact absurd (congrArg Except.toOption h) hsmall
  exact ⟨hpublic ⟨Octets.zero 32, _⟩ (PolyVec.inRange_ofFn 1023 (by decide) (by decide)),
    hsecret SecretKey.ends h1 h2 h0, ⟨_, hpk, hread _ _ hpk⟩, ⟨sk, hsk, (hok _ _ hsk).2.2.2⟩⟩

end MLDSA
