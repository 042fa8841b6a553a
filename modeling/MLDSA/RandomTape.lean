import MLDSA.Bytes.Octets

/-! # A source of random bytes -/

namespace MLDSA

/-- Random bytes written down in advance, with zeros after them, and the number of bytes taken. -/
structure RandomTape where
  pending : Bytes
  taken : Nat

namespace RandomTape

def ofBytes (b : Bytes) : RandomTape := ⟨b, 0⟩

/-- The next `n` bytes, and the tape after them. -/
def draw (n : Nat) (t : RandomTape) : Octets n × RandomTape :=
  (⟨(t.pending ++ List.replicate n 0).take n, by simp⟩, ⟨t.pending.drop n, t.taken + n⟩)

end RandomTape

end MLDSA
