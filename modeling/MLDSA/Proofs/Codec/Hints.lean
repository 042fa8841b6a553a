import Mathlib.Data.List.GetD
import Mathlib.Data.List.Sort
import MLDSA.Codec.Hints
import MLDSA.Proofs.Ring.HintVec

/-! # The grammar of hint vectors

A byte string decodes exactly if it follows the grammar that is stated here by places, and each
vector with at most 55 marks comes back from its encoding. The key fact is that a decoder that has
read some rows stands at the end of the last one. No two byte strings decode to one vector: the
grammar leaves no choice of order, of padding or of counts. -/

namespace MLDSA.HintVec

/-! ## The grammar -/

/-- Where row `i` ends in the slots. -/
def rowEnd (x : Bytes) (i : Nat) : Nat := (x.getD (omega + i) 0).toNat

/-- Where row `i` begins: where the row before ends. -/
def rowStart (x : Bytes) : Nat → Nat
  | 0 => 0
  | i + 1 => rowEnd x i

/-- The slots of row `i`. -/
def listed (x : Bytes) (i : Nat) : Bytes := (x.drop (rowStart x i)).take (rowEnd x i - rowStart x i)

/-- Counts that do not fall and are at most 55, rows whose places rise, and zeros where no row is.
-/
structure WellFormed (x : Bytes) : Prop where
  counts : ∀ i < rows, rowStart x i ≤ rowEnd x i ∧ rowEnd x i ≤ omega
  rising : ∀ i < rows, (listed x i).Pairwise (· < ·)
  padded : ∀ p ∈ (x.take omega).drop (rowEnd x 5), p = 0

/-- The marks at the listed places. -/
def ofListed (x : Bytes) : HintVec :=
  ⟨Vector.ofFn fun i => Vector.ofFn fun j => (listed x i).contains (UInt8.ofNat j.val)⟩

/-! ## Segments -/

/-- Row `k` of rows with these ends, of which the first begins at `start`. -/
def segment (slots : Bytes) (start : Nat) (ends : List Nat) (k : Nat) : Bytes :=
  (slots.drop ((start :: ends).getD k 0)).take (ends.getD k 0 - (start :: ends).getD k 0)

theorem segments_eq_some {slots : Bytes} {ends : List Nat} {start : Nat} {segs : List Bytes} :
    segments ends start (slots.drop start) = some segs ↔
      (∀ k < ends.length, (start :: ends).getD k 0 ≤ ends.getD k 0 ∧ ends.getD k 0 ≤ omega ∧
        (segment slots start ends k).Pairwise (· < ·)) ∧
      (∀ p ∈ slots.drop ((start :: ends).getD ends.length 0), p = 0) ∧
      segs = (List.range ends.length).map (segment slots start ends) := by
  -- The rows after the first are those that begin at its end.
  induction ends generalizing start segs with
  | nil => simp [segments]
  | cons e ends ih =>
    have hnext : segment slots start (e :: ends) ∘ Nat.succ = segment slots e ends := rfl
    rw [List.length_cons, Nat.forall_lt_succ_left, List.range_succ_eq_map, List.map_cons,
      List.map_map, hnext]
    simp only [segments]
    by_cases hc : start ≤ e ∧ e ≤ omega ∧ ((slots.drop start).take (e - start)).Pairwise (· < ·)
    · have hdrop : (slots.drop start).drop (e - start) = slots.drop e := by
        rw [List.drop_drop, Nat.add_sub_of_le hc.1]
      rw [if_pos hc, hdrop, Option.map_eq_some_iff]
      constructor
      · rintro ⟨rest, hrest, rfl⟩
        obtain ⟨hrows, hpad, rfl⟩ := ih.mp hrest
        exact ⟨⟨hc, hrows⟩, hpad, rfl⟩
      · rintro ⟨⟨-, hrows⟩, hpad, rfl⟩
        exact ⟨_, ih.mpr ⟨hrows, hpad, rfl⟩, rfl⟩
    · rw [if_neg hc]
      constructor
      · intro h
        exact absurd h (by simp)
      · rintro ⟨⟨h, -⟩, -⟩
        exact absurd h hc

theorem length_segments {slots : Bytes} {ends : List Nat} {start : Nat} {segs : List Bytes}
    (h : segments ends start slots = some segs) : segs.length = ends.length := by
  induction ends generalizing start slots segs with
  | nil =>
    simp only [segments, Option.ite_none_right_eq_some, Option.some.injEq] at h
    obtain ⟨-, rfl⟩ := h
    rfl
  | cons e ends ih =>
    simp only [segments, Option.ite_none_right_eq_some, Option.map_eq_some_iff] at h
    obtain ⟨-, rest, hrest, rfl⟩ := h
    rw [List.length_cons, List.length_cons, ih hrest]

/-! ## Decoding -/

theorem length_ends (b : Octets hintBytes) :
    ((b.bytes.drop omega).map UInt8.toNat).length = rows := by
  rw [List.length_map, List.length_drop, b.length_eq]
  rfl

theorem getD_ends (x : Bytes) (k : Nat) :
    ((x.drop omega).map UInt8.toNat).getD k 0 = rowEnd x k := by
  rw [rowEnd, show (0 : Nat) = (0 : UInt8).toNat from rfl, List.getD_map]
  simp [List.getD_eq_getElem?_getD]

theorem getD_starts (x : Bytes) (k : Nat) :
    (0 :: (x.drop omega).map UInt8.toNat).getD k 0 = rowStart x k := by
  cases k with
  | zero => rfl
  | succ k => exact getD_ends x k

theorem segment_eq_listed {x : Bytes} {k : Nat} (hk : rowEnd x k ≤ omega) :
    segment (x.take omega) 0 ((x.drop omega).map UInt8.toNat) k = listed x k := by
  rw [segment, getD_starts, getD_ends, listed, List.drop_take, List.take_take]
  congr 1
  omega

theorem ofPlaces_eq_ofListed {x : Bytes} (hx : ∀ k < rows, rowEnd x k ≤ omega) :
    ofPlaces ((List.range rows).map (segment (x.take omega) 0 ((x.drop omega).map UInt8.toNat))) =
      ofListed x := by
  refine congrArg HintVec.mk (Vector.ext fun i hi => Vector.ext fun j hj => ?_)
  rw [Vector.getElem_ofFn, Vector.getElem_ofFn, Vector.getElem_ofFn, Vector.getElem_ofFn,
    List.getD_eq_getElem _ _ (by simpa using hi), List.getElem_map, List.getElem_range,
    segment_eq_listed (hx i hi)]

theorem decode?_eq_some {b : Octets hintBytes} {h : HintVec} :
    decode? b = some h ↔ WellFormed b.bytes ∧ h = ofListed b.bytes := by
  have hlen := length_ends b
  have hseg : ∀ segs, segments ((b.bytes.drop omega).map UInt8.toNat) 0
      ((b.bytes.take omega).drop 0) = some segs ↔ _ := fun segs => segments_eq_some
  simp only [hlen, getD_ends, getD_starts, List.drop_zero] at hseg
  rw [decode?, Option.map_eq_some_iff]
  constructor
  · rintro ⟨segs, hsegs, rfl⟩
    obtain ⟨hrows, hpad, rfl⟩ := (hseg segs).mp hsegs
    refine ⟨⟨fun i hi => ?_, fun i hi => ?_, hpad⟩,
      ofPlaces_eq_ofListed fun k hk => (hrows k hk).2.1⟩
    · exact ⟨(hrows i hi).1, (hrows i hi).2.1⟩
    · rw [← segment_eq_listed (hrows i hi).2.1]
      exact (hrows i hi).2.2
  · rintro ⟨hwf, rfl⟩
    refine ⟨_, (hseg _).mpr ⟨fun k hk => ?_, hwf.padded, rfl⟩, ?_⟩
    · refine ⟨(hwf.counts k hk).1, (hwf.counts k hk).2, ?_⟩
      rw [segment_eq_listed (hwf.counts k hk).2]
      exact hwf.rising k hk
    · exact ofPlaces_eq_ofListed fun k hk => (hwf.counts k hk).2

/-! ## Encoding -/

theorem segments_flatten {start : Nat} {segs : List Bytes} {free : Nat}
    (hlen : start + segs.flatten.length ≤ omega) (hsegs : ∀ s ∈ segs, s.Pairwise (· < ·)) :
    segments ((List.range segs.length).map fun i => start + (segs.take (i + 1)).flatten.length)
      start (segs.flatten ++ List.replicate free 0) = some segs := by
  induction segs generalizing start with
  | nil => simp [segments]
  | cons s segs ih =>
    rw [List.flatten_cons, List.length_append] at hlen
    have hends : (List.range (s :: segs).length).map
          (fun i => start + ((s :: segs).take (i + 1)).flatten.length) =
        (start + s.length) :: (List.range segs.length).map
          fun i => start + s.length + (segs.take (i + 1)).flatten.length := by
      simp [List.range_succ_eq_map, Function.comp_def, Nat.add_assoc]
    have hrest := ih (show start + s.length + segs.flatten.length ≤ omega by omega)
      fun t ht => hsegs t (List.mem_cons_of_mem s ht)
    rw [hends, segments, Nat.add_sub_cancel_left, List.flatten_cons, List.append_assoc,
      List.take_left' rfl, List.drop_left' rfl,
      if_pos ⟨by omega, by omega, hsegs s List.mem_cons_self⟩, hrest]
    rfl

/-- The places of each row as bytes. -/
def rowBytes (h : HintVec) : List Bytes :=
  h.places.map (·.map fun j : Fin 256 => UInt8.ofNat j.val)

theorem length_rowBytes (h : HintVec) : h.rowBytes.length = rows := by
  simp [rowBytes, places]

theorem length_flatten_take (h : HintVec) (i : Nat) :
    (h.rowBytes.take i).flatten.length = (h.places.take i).flatten.length := by
  rw [rowBytes, ← List.map_take, ← List.map_flatten, List.length_map]

theorem length_flatten_take_le (h : HintVec) (i : Nat) :
    (h.places.take i).flatten.length ≤ h.weight := by
  rw [weight, ← List.take_append_drop i h.places, List.flatten_append, List.length_append,
    List.take_append_drop]
  exact Nat.le_add_right _ _

theorem flatten_rowBytes (h : HintVec) :
    h.rowBytes.flatten = h.places.flatten.map fun j : Fin 256 => UInt8.ofNat j.val := by
  rw [rowBytes, List.map_flatten]

theorem length_flatten_rowBytes (h : HintVec) : h.rowBytes.flatten.length = h.weight := by
  rw [flatten_rowBytes, List.length_map, weight]

theorem slots_eq {h : HintVec} (hw : h.weight ≤ omega) :
    h.slots.bytes = h.rowBytes.flatten ++ List.replicate (omega - h.weight) 0 := by
  have hlen := length_flatten_rowBytes h
  have hslots : h.slots.bytes = (h.rowBytes.flatten ++ List.replicate omega 0).take omega := by
    rw [flatten_rowBytes]
    rfl
  rw [hslots, List.take_append, hlen, List.take_of_length_le (by omega), List.take_replicate,
    Nat.min_eq_left (by omega)]

theorem toNat_ends {h : HintVec} (hw : h.weight ≤ omega) : h.ends.bytes.map UInt8.toNat =
    (List.range h.rowBytes.length).map fun i => 0 + (h.rowBytes.take (i + 1)).flatten.length := by
  rw [ends, List.map_map, length_rowBytes]
  refine List.map_congr_left fun i _ => ?_
  have hsize : (h.places.take (i + 1)).flatten.length < UInt8.size :=
    Nat.lt_of_le_of_lt (Nat.le_trans (length_flatten_take_le h (i + 1)) hw) (by decide)
  rw [length_flatten_take, Nat.zero_add, Function.comp_apply, UInt8.toNat_ofNat_of_lt' hsize]

theorem rising_bytes (mark : Fin 256 → Bool) :
    (((List.finRange 256).filter mark).map fun j : Fin 256 => UInt8.ofNat j.val).Pairwise
      (· < ·) := by
  refine List.Pairwise.map _ (fun a b hab => ?_) ((List.pairwise_lt_finRange 256).filter _)
  rw [UInt8.lt_iff_toNat_lt, UInt8.toNat_ofNat_of_lt' a.isLt, UInt8.toNat_ofNat_of_lt' b.isLt]
  exact hab

theorem rising_rowBytes {h : HintVec} : ∀ s ∈ h.rowBytes, s.Pairwise (· < ·) := by
  intro s hs
  simp only [rowBytes, places, List.map_map, List.mem_map] at hs
  obtain ⟨row, -, rfl⟩ := hs
  exact rising_bytes row.get

theorem ofPlaces_rowBytes (h : HintVec) : ofPlaces h.rowBytes = h := by
  refine congrArg HintVec.mk (Vector.ext fun i hi => Vector.ext fun j hj => ?_)
  have hrow : h.rowBytes.getD i [] =
      ((List.finRange 256).filter h.marks[i].get).map fun j : Fin 256 => UInt8.ofNat j.val := by
    rw [List.getD_eq_getElem _ _ (by rwa [length_rowBytes])]
    simp [rowBytes, places]
  rw [Vector.getElem_ofFn, Vector.getElem_ofFn, hrow, Bool.eq_iff_iff, List.contains_iff_mem]
  simp only [List.mem_map, List.mem_filter, List.mem_finRange, true_and]
  constructor
  · rintro ⟨k, hk, heq⟩
    have hval := congrArg UInt8.toNat heq
    rw [UInt8.toNat_ofNat_of_lt' k.isLt, UInt8.toNat_ofNat_of_lt' hj] at hval
    subst hval
    exact hk
  · intro hmark
    exact ⟨⟨j, hj⟩, hmark, rfl⟩

theorem decode?_encode {h : HintVec} (hw : h.weight ≤ omega) : decode? h.encode = some h := by
  have hslots : h.encode.bytes.take omega = h.slots.bytes := List.take_left' h.slots.length_eq
  have hends : h.encode.bytes.drop omega = h.ends.bytes := List.drop_left' h.slots.length_eq
  have hlen : 0 + h.rowBytes.flatten.length ≤ omega := by
    rwa [Nat.zero_add, length_flatten_rowBytes]
  rw [decode?, hslots, hends, toNat_ends hw, slots_eq hw, segments_flatten hlen rising_rowBytes,
    Option.map_some, ofPlaces_rowBytes]

/-! ## One encoding -/

theorem map_filter_contains {l : Bytes} (hl : l.Pairwise (· < ·)) :
    ((List.finRange 256).filter fun j => l.contains (UInt8.ofNat j.val)).map
      (fun j : Fin 256 => UInt8.ofNat j.val) = l := by
  apply (rising_bytes _).eq_of_mem_iff hl
  intro x
  simp only [List.mem_map, List.mem_filter, List.mem_finRange, true_and, List.contains_iff_mem]
  constructor
  · rintro ⟨j, hj, rfl⟩
    exact hj
  · intro hx
    exact ⟨⟨x.toNat, x.toNat_lt⟩, by rwa [UInt8.ofNat_toNat], UInt8.ofNat_toNat⟩

variable {x : Bytes}

theorem rowBytes_ofListed (hx : WellFormed x) :
    (ofListed x).rowBytes = (List.range rows).map (listed x) := by
  apply List.ext_getElem
  · rw [length_rowBytes, List.length_map, List.length_range]
  · intro i h1 h2
    have hi : i < rows := by rwa [length_rowBytes] at h1
    have hrow : (ofListed x).marks[i].get =
        fun j : Fin 256 => (listed x i).contains (UInt8.ofNat j.val) := by
      funext j
      show (ofListed x).marks[i][j.val] = _
      rw [ofListed, Vector.getElem_ofFn, Vector.getElem_ofFn]
    simp only [rowBytes, places, List.getElem_map, Vector.getElem_toList, List.getElem_range]
    rw [hrow, map_filter_contains (hx.rising i hi)]

theorem flatten_listed (hx : WellFormed x) {k : Nat} (hk : k ≤ rows) :
    ((List.range k).map (listed x)).flatten = x.take (rowStart x k) := by
  -- Each row begins where the rows before it end.
  induction k with
  | zero => simp [rowStart]
  | succ k ih =>
    have hle := (hx.counts k hk).1
    rw [List.range_succ, List.map_append, List.flatten_append, ih (Nat.le_of_succ_le hk),
      List.map_singleton, List.flatten_singleton, listed, ← List.take_add,
      Nat.add_sub_of_le hle, rowStart]

theorem length_flatten_listed (hx : WellFormed x) (hlen : x.length = hintBytes) {i : Nat}
    (hi : i < rows) : ((ofListed x).rowBytes.take (i + 1)).flatten.length = rowEnd x i := by
  have hend : rowEnd x i ≤ 55 := (hx.counts i hi).2
  rw [rowBytes_ofListed hx, ← List.map_take, List.take_range, Nat.min_eq_left hi,
    flatten_listed hx hi, List.length_take, hlen, rowStart]
  exact Nat.min_eq_left (hend.trans (by decide))

theorem weight_ofListed (hx : WellFormed x) (hlen : x.length = hintBytes) :
    (ofListed x).weight = rowEnd x 5 := by
  have hlast := length_flatten_listed hx hlen (show 5 < rows by decide)
  rwa [List.take_of_length_le (Nat.le_of_eq (length_rowBytes _)), length_flatten_rowBytes] at hlast

theorem slots_ofListed (hx : WellFormed x) (hlen : x.length = hintBytes) :
    (ofListed x).slots.bytes = x.take omega := by
  have hend : rowEnd x 5 ≤ 55 := (hx.counts 5 (by decide)).2
  have hweight := weight_ofListed hx hlen
  have hpad : (x.take omega).drop (rowEnd x 5) = List.replicate (omega - rowEnd x 5) 0 := by
    refine List.eq_replicate_iff.mpr ⟨?_, hx.padded⟩
    rw [List.length_drop, List.length_take, hlen]
    rfl
  have htake : (x.take omega).take (rowEnd x 5) = x.take (rowEnd x 5) := by
    rw [List.take_take, Nat.min_eq_left hend]
  rw [slots_eq (hweight.trans_le hend), hweight, rowBytes_ofListed hx, flatten_listed hx le_rfl,
    ← hpad]
  exact (congrArg (· ++ _) htake.symm).trans (List.take_append_drop _ _)

theorem ends_ofListed (hx : WellFormed x) (hlen : x.length = hintBytes) :
    (ofListed x).ends.bytes = x.drop omega := by
  have hend : rowEnd x 5 ≤ 55 := (hx.counts 5 (by decide)).2
  have hnat : (ofListed x).ends.bytes.map UInt8.toNat = (x.drop omega).map UInt8.toNat := by
    rw [toNat_ends ((weight_ofListed hx hlen).trans_le hend)]
    apply List.ext_getElem
    · rw [List.length_map, List.length_range, length_rowBytes, List.length_map, List.length_drop,
        hlen]
      rfl
    · intro i h1 h2
      have hi : i < rows := by simpa [length_rowBytes] using h1
      rw [List.getElem_map, List.getElem_range, Nat.zero_add, length_flatten_listed hx hlen hi,
        ← getD_ends, List.getD_eq_getElem _ _ h2]
  exact List.map_injective_iff.mpr (fun _ _ => UInt8.toNat_inj.mp) hnat

theorem encode_of_decode? {b : Octets hintBytes} {h : HintVec} (hb : decode? b = some h) :
    h.encode = b := by
  obtain ⟨hwf, rfl⟩ := decode?_eq_some.mp hb
  apply Octets.ext
  rw [encode, Octets.bytes_append, slots_ofListed hwf b.length_eq, ends_ofListed hwf b.length_eq,
    List.take_append_drop]

/-! ## Byte strings of any length -/

/-- The vector with a one at each mark. -/
def toPolys (h : HintVec) : PolyVec rows :=
  ⟨h.marks.map fun row => ⟨row.map fun mark => if mark then 1 else 0⟩⟩

theorem toPolys_apply (h : HintVec) (i : Fin rows) (j : Fin 256) :
    h.toPolys i j = if h i j then 1 else 0 := by
  show h.toPolys.polys[i.val].coeffs[j.val] = _
  simp only [toPolys, Vector.getElem_map]
  rfl

theorem ofPolys_toPolys (h : HintVec) : ofPolys h.toPolys = h := by
  refine ext_apply fun i j => ?_
  rw [ofPolys_apply, toPolys_apply]
  cases h i j
  · rfl
  · rfl

theorem ofListed_apply (x : Bytes) (i : Fin rows) (j : Fin 256) :
    ofListed x i j = (listed x i).contains (UInt8.ofNat j.val) := by
  show (ofListed x).marks[i.val][j.val] = _
  rw [ofListed, Vector.getElem_ofFn, Vector.getElem_ofFn]

theorem ofBytes?_eq_some {x : Bytes} {h : HintVec} :
    ofBytes? x = some h ↔ x.length = hintBytes ∧ WellFormed x ∧ h = ofListed x := by
  rw [ofBytes?, Option.bind_eq_some_iff]
  simp only [Octets.ofBytes?_eq_some]
  constructor
  · rintro ⟨b, rfl, hb⟩
    exact ⟨b.length_eq, decode?_eq_some.mp hb⟩
  · rintro ⟨hlen, hx⟩
    exact ⟨⟨x, hlen⟩, rfl, decode?_eq_some.mpr hx⟩

theorem ofBytes?_eq_encode {x : Bytes} {h : HintVec} :
    ofBytes? x = some h ↔ h.weight ≤ omega ∧ x = h.encode.bytes := by
  constructor
  · intro hx
    obtain ⟨hlen, hwf, rfl⟩ := ofBytes?_eq_some.mp hx
    have hb : decode? ⟨x, hlen⟩ = some (ofListed x) := decode?_eq_some.mpr ⟨hwf, rfl⟩
    refine ⟨?_, congrArg Octets.bytes (encode_of_decode? hb).symm⟩
    rw [weight_ofListed hwf hlen]
    exact (hwf.counts 5 (by decide)).2
  · rintro ⟨hw, rfl⟩
    obtain ⟨hwf, heq⟩ := decode?_eq_some.mp (decode?_encode hw)
    exact ofBytes?_eq_some.mpr ⟨h.encode.length_eq, hwf, heq⟩

/-- A byte string decodes exactly if it follows the grammar, and has a one at each place that its
rows list. The byte strings that decode are the encodings of all vectors with at most 55
coefficients that are not zero. -/
theorem decodes_by_grammar (x : Bytes) :
    ((∃ h, ofBytes? x = some h) ↔ x.length = 61 ∧ WellFormed x) ∧
    (∀ h, ofBytes? x = some h →
      (∀ (i : Fin rows) (j : Fin 256),
        h.toPolys i j = if UInt8.ofNat j.val ∈ listed x i then 1 else 0) ∧
      h.weight = rowEnd x 5 ∧ rowEnd x 5 ≤ 55) ∧
    ((∃ h, ofBytes? x = some h) ↔ ∃ v : PolyVec rows,
      (Finset.univ.filter fun p : Fin rows × Fin 256 => v p.1 p.2 ≠ 0).card ≤ 55 ∧
        x = (ofPolys v).encode.bytes) := by
  refine ⟨?_, fun h hx => ?_, ?_⟩
  · simp only [ofBytes?_eq_some, exists_and_left, exists_eq, and_true]
  · obtain ⟨hlen, hwf, rfl⟩ := ofBytes?_eq_some.mp hx
    refine ⟨fun i j => ?_, weight_ofListed hwf hlen, (hwf.counts 5 (by decide)).2⟩
    rw [toPolys_apply, ofListed_apply]
    exact if_congr List.contains_iff_mem rfl rfl
  · simp only [ofBytes?_eq_encode]
    constructor
    · rintro ⟨h, hw, rfl⟩
      refine ⟨h.toPolys, ?_, by rw [ofPolys_toPolys]⟩
      rwa [← weight_ofPolys, ofPolys_toPolys]
    · rintro ⟨v, hv, rfl⟩
      exact ⟨ofPolys v, (weight_ofPolys v).trans_le hv, rfl⟩

theorem decodes_by_grammar_full : ∃ x h, ofBytes? x = some h ∧
    x = (List.range 55).map UInt8.ofNat ++ [0, 55, 55, 55, 55, 55] ∧
    h.weight = 55 ∧ h.toPolys 1 54 = 1 ∧ h.toPolys 1 55 = 0 ∧ h.toPolys 0 0 = 0 := by
  obtain ⟨h, hh⟩ : ∃ h, ofBytes? ((List.range 55).map UInt8.ofNat ++ [0, 55, 55, 55, 55, 55]) =
      some h := Option.isSome_iff_exists.mp (by decide +kernel)
  obtain ⟨hplaces, hweight, -⟩ := (decodes_by_grammar _).2.1 h hh
  exact ⟨_, h, hh, rfl, hweight.trans (by decide), (hplaces 1 54).trans (by decide),
    (hplaces 1 55).trans (by decide), (hplaces 0 0).trans (by decide)⟩

end MLDSA.HintVec
