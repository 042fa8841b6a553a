import MLDSA.Bytes.Octets

/-! # Extendable-output functions

An extendable-output function turns the bytes that it absorbs into an endless stream, which is read
in blocks. Nothing else of it is known here, so whatever is said of a reader of the stream holds for
every such function. -/

namespace MLDSA

/-- An extendable-output function with a stream in blocks of `rate` bytes: `absorb` gives the state
that shows the first block, and `next` goes on to the block after. -/
structure Xof (rate : Nat) where
  State : Type
  absorb : Bytes → State
  block : State → Octets rate
  next : State → State

namespace Xof

variable {rate : Nat}

/-! ## Reading a number of bytes -/

/-- The block that `s` shows and the `more` blocks after it. -/
def blocks (x : Xof rate) : (more : Nat) → (s : x.State) → List (Octets rate)
  | 0, s => [x.block s]
  | more + 1, s => x.block s :: x.blocks more (x.next s)

@[simp] theorem length_blocks (x : Xof rate) (more : Nat) (s : x.State) :
    (x.blocks more s).length = more + 1 := by
  induction more generalizing s with
  | zero => rfl
  | succ more ih => simp [blocks, ih]

/-- The first `n` bytes of the stream for `m`. -/
def read (x : Xof rate) (n : Nat) (m : Bytes) : Bytes :=
  ((x.blocks ((n - 1) / rate) (x.absorb m)).flatMap Octets.bytes).take n

theorem length_read (x : Xof rate) (n : Nat) (m : Bytes) (h : 0 < rate) :
    (x.read n m).length = n := by
  rw [read, List.length_take, Octets.length_flatMap_bytes, length_blocks, Nat.succ_mul]
  have := Nat.div_add_mod (n - 1) rate
  have := Nat.mod_lt (n - 1) h
  rw [Nat.mul_comm ((n - 1) / rate)]
  omega

/-! ## Reading until enough is found -/

/-- Looks for `need` candidates in the blocks from `s` on, the first `skip` bytes left out. The
candidates in the bytes `b` are `found k b` when there are `k` already, and `got` are those that
there are. The answer is `none` when `budget` blocks are not enough. -/
def search {α : Type} (x : Xof rate) (found : Nat → Bytes → List α) (need : Nat) :
    (budget : Nat) → (got : List α) → (skip : Nat) → (s : x.State) → Option (List α)
  | 0, _, _, _ => none
  | budget + 1, got, skip, s =>
    let got := got ++ found got.length ((x.block s).bytes.drop skip)
    if need ≤ got.length then some (got.take need)
    else x.search found need budget got 0 (x.next s)

end Xof

end MLDSA
