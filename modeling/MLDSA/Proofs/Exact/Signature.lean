import MLDSA.Proofs.Codec.Signature
import MLDSA.Proofs.Exact.Codec

/-! # Signatures over the integers

Where a row of hints begins and ends is read from the bytes of a signature, and how many places a
row has is found out only while it is written. The key facts are that a row that begins where the
one before it ends reaches no further than the last slot, and that 55 marks leave no place over. -/

namespace MLDSA

namespace Exact

/-! ## Reading hints -/

/-- The marks of the places that these bytes list. -/
def marks (row : Bytes) : Fin 256 → Bool := fun j => row.contains (UInt8.ofNat j.val)

/-- The place in a slot is larger than the one before it, if the row does not begin there. -/
def rises (input : Bytes) (first slot : Nat) (place : UInt8) : Exact Bool :=
  if first < slot then do return decide ((← get input (slot - 1)) < place) else return true

/-- Reads `count` places from a slot on, for a row that begins at slot `first`. -/
def readRow (input : Bytes) (first : Nat) :
    (count slot : Nat) → (row : Fin 256 → Bool) → OptionT Exact (Fin 256 → Bool)
  | 0, _, row => return row
  | count + 1, slot, row => do
    let place ← (get input slot : Exact UInt8)
    if ← rises input first slot place then
      let j ← index 256 place.toNat
      readRow input first count (slot + 1) (Function.update row j true)
    else failure

/-- Reads `count` rows, of which the first is row `i` and begins at slot `start`. -/
def readRows (input : Bytes) :
    (count i start : Nat) → OptionT Exact (List (Fin 256 → Bool))
  | 0, _, start => do
    let free ← (slice input start omega : Exact Bytes)
    if free.all (· == 0) then return [] else failure
  | count + 1, i, start => do
    let stop := (← (get input (omega + i) : Exact UInt8)).toNat
    if start ≤ stop ∧ stop ≤ omega then
      let row ← readRow input start (stop - start) start fun _ => false
      return row :: (← readRows input count (i + 1) stop)
    else failure

def decodeHints (b : Octets hintBytes) : OptionT Exact (Fin rows → Fin 256 → Bool) := do
  let l ← readRows b.bytes rows 0 0
  (all fun i => get l i : Exact (Fin rows → Fin 256 → Bool))

section

variable {x : Bytes}

/-- The place before a slot, if the row does not begin there. -/
def before (x : Bytes) (first slot : Nat) : Bytes :=
  if first < slot then (x.drop (slot - 1)).take 1 else []

theorem take_drop_succ {slot : Nat} (h : slot < x.length) (count : Nat) :
    (x.drop slot).take (count + 1) = x[slot] :: (x.drop (slot + 1)).take count := by
  rw [List.drop_eq_getElem_cons h, List.take_succ_cons]

theorem rises_eq {first slot : Nat} (h : slot < x.length) (place : UInt8) :
    rises x first slot place = .ok (decide ((before x first slot ++ [place]).IsChain (· < ·))) := by
  unfold rises before
  by_cases hf : first < slot
  · have hlt : slot - 1 < x.length := by omega
    rw [if_pos hf, if_pos hf, get_of hlt, ok_bind, take_drop_succ hlt, pure_eq_ok]
    simp
  · rw [if_neg hf, if_neg hf]
    simp

theorem before_cases (x : Bytes) (first slot : Nat) :
    before x first slot = [] ∨ ∃ p, before x first slot = [p] := by
  unfold before
  split
  · cases x.drop (slot - 1) with
    | nil => exact .inl rfl
    | cons p l => exact .inr ⟨p, rfl⟩
  · exact .inl rfl

theorem isChain_before (x : Bytes) (first slot : Nat) (place : UInt8) (rest : Bytes) :
    (before x first slot ++ place :: rest).IsChain (· < ·) ↔
      (before x first slot ++ [place]).IsChain (· < ·) ∧ (place :: rest).IsChain (· < ·) := by
  rcases before_cases x first slot with h | ⟨p, h⟩
  · simp [h]
  · simp [h]

theorem ofNat_eq_iff {j : Fin 256} {place : UInt8} :
    UInt8.ofNat j.val = place ↔ j = ⟨place.toNat, place.toNat_lt⟩ := by
  rw [← UInt8.toNat_inj, UInt8.toNat_ofNat_of_lt' j.isLt, Fin.ext_iff]

theorem marks_cons (place : UInt8) (rest : Bytes) (j : Fin 256) :
    marks (place :: rest) j = (decide (j = ⟨place.toNat, place.toNat_lt⟩) || marks rest j) := by
  rw [marks, List.contains_cons, marks]
  congr 1
  exact Bool.eq_iff_iff.mpr (by rw [beq_iff_eq, ofNat_eq_iff, decide_eq_true_iff])

theorem update_marks (row : Fin 256 → Bool) (place : UInt8) (rest : Bytes) (j : Fin 256) :
    (Function.update row ⟨place.toNat, place.toNat_lt⟩ true j || marks rest j) =
      (row j || marks (place :: rest) j) := by
  rw [marks_cons, Function.update_apply]
  by_cases hj : j = ⟨place.toNat, place.toNat_lt⟩
  · rw [if_pos hj, decide_eq_true hj, Bool.true_or, Bool.or_true]
  · rw [if_neg hj, decide_eq_false hj, Bool.false_or]

theorem readRow_eq {first slot count : Nat} (hcount : slot + count ≤ x.length) (hf : first ≤ slot)
    (row : Fin 256 → Bool) : (readRow x first count slot row).run =
      .ok (if (before x first slot ++ (x.drop slot).take count).IsChain (· < ·) then
        some fun j => row j || marks ((x.drop slot).take count) j else none) := by
  induction count generalizing slot row with
  | zero =>
    have hchain : (before x first slot ++ (x.drop slot).take 0).IsChain (· < ·) := by
      rcases before_cases x first slot with h | ⟨p, h⟩
      · simp [h]
      · simp [h]
    rw [if_pos hchain]
    exact congrArg (fun row => Except.ok (some row)) (funext fun j => (Bool.or_false _).symm)
  | succ count ih =>
    have hslot : slot < x.length := by omega
    have hnext : before x first (slot + 1) = [x[slot]] := by
      rw [before, if_pos (by omega), Nat.add_sub_cancel, take_drop_succ hslot, List.take_zero]
    have hsplit := isChain_before x first slot x[slot]
      ((x.drop (slot + 1)).take count)
    rw [readRow, ok_bind_run (get_of hslot), ok_bind_run (rises_eq hslot _), take_drop_succ hslot]
    by_cases hrise : (before x first slot ++ [x[slot]]).IsChain (· < ·)
    · rw [if_pos (decide_eq_true hrise), ok_bind_run (index_of x[slot].toNat_lt),
        ih (by omega) (by omega), hnext]
      simp only [hsplit, hrise, true_and, update_marks]
      rfl
    · rw [if_neg (by simpa using hrise), if_neg fun h => hrise (hsplit.mp h).1]
      rfl

theorem readRow_of_rising {start stop : Nat} (hle : start ≤ stop) (hstop : stop ≤ x.length)
    (h : ((x.drop start).take (stop - start)).Pairwise (· < ·)) :
    (readRow x start (stop - start) start fun _ => false).run =
      .ok (some (marks ((x.drop start).take (stop - start)))) := by
  rw [readRow_eq (by omega) le_rfl, before, if_neg (Nat.lt_irrefl _), List.nil_append,
    if_pos (List.isChain_iff_pairwise.mpr h)]
  rfl

theorem readRow_of_not_rising {start stop : Nat} (hle : start ≤ stop) (hstop : stop ≤ x.length)
    (h : ¬ ((x.drop start).take (stop - start)).Pairwise (· < ·)) :
    (readRow x start (stop - start) start fun _ => false).run = .ok none := by
  rw [readRow_eq (by omega) le_rfl, before, if_neg (Nat.lt_irrefl _), List.nil_append,
    if_neg (mt List.isChain_iff_pairwise.mp h)]

theorem readRows_eq (hx : x.length = 61) {count i start : Nat} (hi : i + count = 6)
    (hstart : start ≤ 55) : (readRows x count i start).run =
      .ok ((HintVec.segments ((x.drop (55 + i)).map UInt8.toNat) start
        ((x.take 55).drop start)).map (List.map marks)) := by
  induction count generalizing i start with
  | zero =>
    have hslots : slice x start omega = .ok ((x.take 55).drop start) := by
      rw [List.drop_take]
      exact if_pos ⟨hstart, by rw [hx]; decide⟩
    have hends : x.drop (55 + i) = [] := List.drop_eq_nil_of_le (by omega)
    rw [readRows, ok_bind_run hslots, hends, List.map_nil, HintVec.segments]
    split
    · rfl
    · rfl
  | succ count ih =>
    have hend : 55 + i < x.length := by omega
    have hread : get x (omega + i) = .ok x[55 + i] := get_of hend
    rw [readRows, ok_bind_run hread, List.drop_eq_getElem_cons hend, List.map_cons,
      HintVec.segments]
    generalize x[55 + i].toNat = stop
    by_cases hcount : start ≤ stop ∧ stop ≤ 55
    · obtain ⟨hle, hstop⟩ := hcount
      have hrow : ((x.take 55).drop start).take (stop - start) =
          (x.drop start).take (stop - start) := by
        rw [List.drop_take, List.take_take, Nat.min_eq_left (by omega)]
      have hrest : ((x.take 55).drop start).drop (stop - start) = (x.take 55).drop stop := by
        rw [List.drop_drop, Nat.add_sub_of_le hle]
      rw [hrow, hrest]
      by_cases hrise : ((x.drop start).take (stop - start)).Pairwise (· < ·)
      · have hnext := ih (i := i + 1) (by omega) hstop
        rw [if_pos ⟨hle, hstop⟩, if_pos ⟨hle, hstop, hrise⟩,
          some_bind_run (readRow_of_rising hle (by omega) hrise)]
        exact map_run hnext fun l _ => rfl
      · rw [if_pos ⟨hle, hstop⟩, if_neg fun h => hrise h.2.2]
        exact none_bind_run (readRow_of_not_rising hle (by omega) hrise) _
    · rw [if_neg hcount, if_neg fun h => hcount ⟨h.1, h.2.1⟩]
      rfl

theorem decodeHints_eq (b : Octets hintBytes) :
    (decodeHints b).run = .ok ((HintVec.decode? b).map HintVec.bits) := by
  have hrows : (readRows b.bytes rows 0 0).run = .ok ((HintVec.segments
      ((b.bytes.drop omega).map UInt8.toNat) 0 (b.bytes.take omega)).map (List.map marks)) :=
    readRows_eq b.length_eq rfl (by decide)
  refine map_run hrows fun l hl => ?_
  have hlen : l.length = rows := (HintVec.length_segments hl).trans (HintVec.length_ends b)
  have hplaces : (all fun i : Fin rows => get (l.map marks) i) = .ok (HintVec.ofPlaces l).bits := by
    refine all_ok fun i => ?_
    have hi : i.val < l.length := hlen.symm ▸ i.isLt
    rw [get_map marks hi]
    refine congrArg Except.ok (funext fun j => ?_)
    show _ = (HintVec.ofPlaces l).marks[i.val][j.val]
    rw [HintVec.ofPlaces, Vector.getElem_ofFn, Vector.getElem_ofFn, List.getD_eq_getElem _ _ hi]
    rfl
  rw [hplaces]
  rfl

end

/-! ## Writing hints -/

/-- Writes the places of a row from a slot on, and gives the slot after them. -/
def writeRow : List (Fin 256) → (slot : Nat) → (slots : Bytes) → Exact (Nat × Bytes)
  | [], slot, slots => return (slot, slots)
  | j :: row, slot, slots => do
    writeRow row (slot + 1) (← put slots slot (UInt8.ofNat j.val))

/-- Writes rows from a slot on, and gives the slots and where each row ends. -/
def writeRows : List (List (Fin 256)) → (slot : Nat) → (slots : Bytes) → Exact (Bytes × Bytes)
  | [], _, slots => return (slots, [])
  | row :: rest, slot, slots => do
    let head ← writeRow row slot slots
    let tail ← writeRows rest head.1 head.2
    return (tail.1, UInt8.ofNat head.1 :: tail.2)

def encodeHints (h : Fin rows → Fin 256 → Bool) : Exact Bytes := do
  let written ← writeRows (List.ofFn fun i => (List.finRange 256).filter (h i)) 0
    (List.replicate omega 0)
  return written.1 ++ written.2

def placeBytes (row : List (Fin 256)) : Bytes := row.map fun j => UInt8.ofNat j.val

theorem writeRow_eq (row : List (Fin 256)) (used rest : Bytes) :
    writeRow row used.length (used ++ (List.replicate row.length 0 ++ rest)) =
      .ok (used.length + row.length, used ++ (placeBytes row ++ rest)) := by
  induction row generalizing used with
  | nil => rfl
  | cons j row ih =>
    have hnext := ih (used ++ [UInt8.ofNat j.val])
    rw [writeRow, List.length_cons, List.replicate_succ, List.cons_append, put_append, ok_bind]
    simpa [placeBytes, Nat.add_assoc, Nat.add_comm 1] using hnext

theorem writeRows_eq (places : List (List (Fin 256))) (used rest : Bytes) :
    writeRows places used.length (used ++ (List.replicate places.flatten.length 0 ++ rest)) =
      .ok (used ++ (placeBytes places.flatten ++ rest), (List.range places.length).map fun k =>
        UInt8.ofNat (used.length + (places.take (k + 1)).flatten.length)) := by
  induction places generalizing used with
  | nil => rfl
  | cons row places ih =>
    have hfree : List.replicate (row :: places).flatten.length 0 ++ rest =
        List.replicate row.length 0 ++ (List.replicate places.flatten.length 0 ++ rest) := by
      rw [List.flatten_cons, List.length_append, ← List.replicate_append_replicate,
        List.append_assoc]
    have hnext := ih (used ++ placeBytes row)
    rw [List.length_append, placeBytes, List.length_map, List.append_assoc, ← placeBytes] at hnext
    rw [writeRows, hfree, writeRow_eq, ok_bind, hnext, ok_bind, pure_eq_ok]
    simp [placeBytes, List.range_succ_eq_map, Function.comp_def, Nat.add_assoc]

theorem encodeHints_eq {h : HintVec} (hw : h.weight ≤ omega) :
    encodeHints h.bits = .ok h.encode.bytes := by
  have hplaces : (List.ofFn fun i => (List.finRange 256).filter (h.bits i)) = h.places :=
    h.places_eq.symm
  have hfree : List.replicate omega (0 : UInt8) = [] ++ (List.replicate h.places.flatten.length 0 ++
      List.replicate (omega - h.weight) 0) := by
    rw [List.nil_append, List.replicate_append_replicate]
    exact congrArg (List.replicate · 0) (Nat.add_sub_of_le hw).symm
  have hslots : h.slots.bytes =
      placeBytes h.places.flatten ++ List.replicate (omega - h.weight) 0 := by
    rw [HintVec.slots_eq hw, HintVec.flatten_rowBytes]
    rfl
  have hwritten := writeRows_eq h.places [] (List.replicate (omega - h.weight) 0)
  rw [encodeHints, hplaces, hfree, ← List.length_nil, hwritten, ok_bind, HintVec.encode,
    Octets.bytes_append, hslots]
  simp [HintVec.ends, HintVec.places]

/-! ## Signatures -/

structure SignatureParts where
  challenge : Octets challengeBytes
  z : Fin columns → Fin 256 → Int
  hints : Fin rows → Fin 256 → Bool

def encodeZ (p : Fin 256 → Int) : Exact Bytes := do
  let centered ← map (fun c => do center (← canonical c)) p
  packRange 524287 524288 zBytes centered

def encodeW1 (w1 : Fin rows → Fin 256 → Int) : Exact Bytes := do
  return (List.ofFn (← map (pack 4 bucketBytes) w1)).flatten

def encodeSignature (s : SignatureParts) : Exact Bytes := do
  let z ← map encodeZ s.z
  let hints ← encodeHints s.hints
  return s.challenge.bytes ++ (List.ofFn z).flatten ++ hints

def decodeSignature (b : Octets signatureBytes) : OptionT Exact SignatureParts := do
  let challenge ← part b 0 challengeBytes
  let z ← unpackPieces (unpackRange 524287 524288) (← part b 48 (columns * zBytes))
  let hints ← decodeHints (← part b 3248 hintBytes)
  return { challenge, z, hints }

end Exact

open Exact

def Signature.ints (s : Signature) : SignatureParts where
  challenge := s.challenge
  z := s.z.ints
  hints := s.hints.bits

namespace Exact

theorem encodeW1_ints {w1 : PolyVec rows} (h : w1.InRange 0 15) :
    encodeW1 w1.ints = .ok w1.encodeW1.bytes := by
  have hpack : map (pack 4 bucketBytes) w1.ints = .ok fun i => (w1 i).encodeW1.bytes :=
    all_ok fun i => pack_ints (by decide) (by decide) (h i) (by decide)
  rw [encodeW1, hpack, ok_bind, flatten_ofFn]
  rfl

theorem encodeZ_ints {p : Poly} (hp : ∀ i : Fin 256, (p i).toInt ≤ 2143289343)
    (hz : (Poly.ofElement p.element).InRange (-524287) 524288) :
    encodeZ p.ints = .ok p.encodeZ.bytes := by
  have hcenter : map (fun c => do center (← canonical c)) p.ints =
      .ok (p.map fun c => Coeff.center (Coeff.canonical c)).ints := by
    refine map_ints fun i => ?_
    have hword := Coeff.toInt_canonical (hp i)
    rw [canonical_toInt (hp i), ok_bind, center_toInt (by omega) (by omega)]
  have hpack : packRange 524287 524288 zBytes (Poly.ofElement p.element).ints =
      .ok ((Poly.ofElement p.element).packRange 524287 524288) :=
    packRange_ints (show _ = 20 by decide) (by decide) (by decide) (by decide) (by decide)
      (by decide) hz (by decide)
  rw [encodeZ, hcenter, ok_bind, Poly.map_center_canonical hp, hpack, Poly.encodeZ,
    ← Poly.map_center_canonical hp]

theorem encodeSignature_ints {s : Signature}
    (hz : ∀ (i : Fin columns) (j : Fin 256), (s.z i j).toInt ≤ 2143289343)
    (hrange : (PolyVec.ofElements s.z.elements).InRange (-524287) 524288)
    (hw : s.hints.weight ≤ omega) : encodeSignature s.ints = .ok s.encode.bytes := by
  have hencode : map encodeZ s.z.ints = .ok fun i => (s.z i).encodeZ.bytes := by
    refine all_ok fun i => encodeZ_ints (hz i) ?_
    have hi := hrange i
    rwa [PolyVec.ofElements_apply] at hi
  rw [encodeSignature, Signature.ints, hencode, ok_bind, encodeHints_eq hw, ok_bind, flatten_ofFn]
  rfl

theorem decodeSignature_ints (b : Octets signatureBytes) :
    (decodeSignature b).run = .ok ((Signature.decode? b).map Signature.ints) := by
  have hz : ∀ x : Octets zBytes, unpackRange 524287 524288 x.bytes = .ok (Poly.decodeZ x).ints :=
    fun x => unpackRange_ints (show _ = 20 by decide) (by decide) (by decide) (by decide)
      (by decide) (by decide) (congrArg (8 * ·) x.length_eq)
  rw [decodeSignature, ok_bind_run (part_of (by decide) b), ok_bind_run (part_of (by decide) b),
    ok_bind_run (unpackPieces_ints hz _), ok_bind_run (part_of (by decide) b)]
  exact bind_run (decodeHints_eq _) fun h _ => rfl

end Exact

end MLDSA
