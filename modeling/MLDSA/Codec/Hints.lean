import MLDSA.Bytes.Octets
import MLDSA.Ring.HintVec

/-! # Hint vectors as bytes

There are 55 slots, which list the marked places of the first row, then those of the second and so
on, and six counts, which say where in the slots each row ends. A hint vector has one encoding: the
places of a row go upwards, and free slots are zero. -/

namespace MLDSA.HintVec

/-! ## Encoding -/

/-- The slots, cut off after the 55th. -/
def slots (h : HintVec) : Octets omega :=
  ⟨(h.places.flatten.map (fun j : Fin 256 => UInt8.ofNat j.val) ++
    List.replicate omega 0).take omega, by simp⟩

/-- For each row, the number of marks up to its end. -/
def ends (h : HintVec) : Octets rows :=
  ⟨(List.range rows).map fun i => UInt8.ofNat (h.places.take (i + 1)).flatten.length, by simp⟩

def encode (h : HintVec) : Octets hintBytes := h.slots ++ h.ends

/-! ## Decoding -/

/-- The vector that marks these places. -/
def ofPlaces (places : List Bytes) : HintVec :=
  ⟨Vector.ofFn fun i => Vector.ofFn fun j => (places.getD i []).contains (UInt8.ofNat j.val)⟩

/-- The slots of each row, if the next row begins at slot `start`, the first of `slots`: no count is
smaller than the one before or larger than 55, the places of a row go upwards, and the slots that no
row takes are zero. -/
def segments : (ends : List Nat) → (start : Nat) → (slots : Bytes) → Option (List Bytes)
  | [], _, slots => if slots.all (· == 0) then some [] else none
  | e :: ends, start, slots =>
    let row := slots.take (e - start)
    if start ≤ e ∧ e ≤ omega ∧ row.Pairwise (· < ·) then
      (segments ends e (slots.drop (e - start))).map (row :: ·)
    else none

def decode? (b : Octets hintBytes) : Option HintVec :=
  (segments ((b.bytes.drop omega).map UInt8.toNat) 0 (b.bytes.take omega)).map ofPlaces

/-- The hint vector in a byte string of any length. -/
def ofBytes? (b : Bytes) : Option HintVec := (Octets.ofBytes? hintBytes b).bind decode?

end MLDSA.HintVec
