/-! # Byte strings

`Bytes` has any length. `Octets n` has exactly `n` bytes, as keys, seeds and hashes do, so a part of
an encoding is found by its place alone. -/

namespace MLDSA

abbrev Bytes := List UInt8

@[ext] structure Octets (n : Nat) where
  bytes : Bytes
  length_eq : bytes.length = n
deriving DecidableEq

attribute [simp] Octets.length_eq

namespace Octets

variable {m n : Nat}

/-- The byte string, if it has the length. -/
def ofBytes? (n : Nat) (b : Bytes) : Option (Octets n) :=
  if h : b.length = n then some ⟨b, h⟩ else none

theorem ofBytes?_eq_some {b : Bytes} {o : Octets n} : ofBytes? n b = some o ↔ b = o.bytes := by
  simp only [ofBytes?, Option.dite_none_right_eq_some, Option.some.injEq]
  exact ⟨fun ⟨_, h⟩ => h ▸ rfl, fun h => ⟨h ▸ o.length_eq, Octets.ext h⟩⟩

theorem ofBytes?_eq_none {b : Bytes} : ofBytes? n b = none ↔ b.length ≠ n := by
  simp [ofBytes?]

def zero (n : Nat) : Octets n := ⟨List.replicate n 0, List.length_replicate⟩

instance : HAppend (Octets m) (Octets n) (Octets (m + n)) :=
  ⟨fun a b => ⟨a.bytes ++ b.bytes, by simp⟩⟩

@[simp] theorem bytes_append (a : Octets m) (b : Octets n) : (a ++ b).bytes = a.bytes ++ b.bytes :=
  rfl

/-- The `len` bytes from place `start` on. -/
def slice (b : Octets n) (start len : Nat) (h : start + len ≤ n) : Octets len :=
  ⟨(b.bytes.drop start).take len, by simp; omega⟩

theorem length_flatMap_bytes (l : List (Octets n)) :
    (l.flatMap Octets.bytes).length = l.length * n := by
  induction l with
  | nil => simp
  | cons a l ih => simp [ih, Nat.succ_mul, Nat.add_comm]

/-- Pieces of one length, one after the other. -/
def join (v : Vector (Octets n) m) : Octets (m * n) :=
  ⟨v.toList.flatMap Octets.bytes, by rw [length_flatMap_bytes, Vector.length_toList]⟩

/-- The pieces that `join` puts together: piece `i` starts at byte `i * n`. -/
def pieces (b : Octets (m * n)) : Vector (Octets n) m :=
  Vector.ofFn fun i => b.slice (i * n) n (by
    rw [← Nat.succ_mul]; exact Nat.mul_le_mul_right n i.isLt)

end Octets

/-! ## Lists and vectors -/

/-- The values of a vector in which each place has one. -/
def allSome {α : Type} {n : Nat} (v : Vector (Option α) n) : Option (Vector α n) :=
  if h : v.all Option.isSome then
    some (Vector.ofFn fun i => v[i].get (by simpa using Vector.all_eq_true.1 h i i.isLt))
  else none

theorem allSome_eq_some {α : Type} {n : Nat} {v : Vector (Option α) n} {w : Vector α n} :
    allSome v = some w ↔ v = w.map some := by
  simp only [allSome, Option.dite_none_right_eq_some, Option.some.injEq]
  constructor
  · rintro ⟨h, rfl⟩
    ext i hi : 1
    simp
  · rintro rfl
    refine ⟨by simp [Vector.all_eq_true], ?_⟩
    ext i hi : 1
    simp

/-- The first `count` pieces of `n` elements. -/
def chunks {α : Type} (n : Nat) : (count : Nat) → List α → List (List α)
  | 0, _ => []
  | count + 1, l => l.take n :: chunks n count (l.drop n)

@[simp] theorem length_chunks {α : Type} (n count : Nat) (l : List α) :
    (chunks n count l).length = count := by
  induction count generalizing l with
  | zero => rfl
  | succ count ih => simp [chunks, ih]

/-! ## Numbers as bytes, and bytes as text -/

/-- The two bytes of a number modulo `2^16`, the low one first. -/
def bytes16 (v : Nat) : Bytes := [UInt8.ofNat v, UInt8.ofNat (v / 256)]

/-- The eight bytes of a word, the low one first. -/
def bytes64 (v : UInt64) : Bytes :=
  [v.toUInt8, (v >>> 8).toUInt8, (v >>> 16).toUInt8, (v >>> 24).toUInt8, (v >>> 32).toUInt8,
    (v >>> 40).toUInt8, (v >>> 48).toUInt8, (v >>> 56).toUInt8]

/-- The word with these bytes, the low one first. -/
def word64 (b : Bytes) : UInt64 := b.foldr (fun x v => (v <<< 8) ||| x.toUInt64) 0

def hexDigit (v : Nat) : Char := "0123456789abcdef".toList.getD v '0'

/-- Two lower-case hexadecimal digits for each byte. -/
def hex (b : Bytes) : String :=
  String.ofList (b.flatMap fun x => [hexDigit (x.toNat / 16), hexDigit (x.toNat % 16)])

end MLDSA
