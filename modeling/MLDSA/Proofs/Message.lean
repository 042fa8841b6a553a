import MLDSA.Error
import MLDSA.Hash.Suite

/-! # Messages and answers

What is hashed for a message with its context, and how an answer goes on that may be an error, or
may be missing. The length byte makes the framing of a message unambiguous. -/

namespace MLDSA

/-! ## Representatives -/

/-- The representative of a message with its context, for the hash of a public key. -/
def Schoolbook.representative (S : HashSuite) (tr message context : Bytes) : Bytes :=
  S.h.read 64 (tr ++ 0 :: UInt8.ofNat context.length :: (context ++ message))

/-- To absorb the parts of a message one by one is to absorb them framed. -/
theorem HashSuite.messageRepresentative_eq (S : HashSuite) (tr : Octets longHashBytes)
    (context message : Bytes) :
    S.messageRepresentative tr context message = S.representative tr (frame context message) := by
  have hparts : tr.bytes ++ [0, UInt8.ofNat context.length] ++ context ++ message =
      tr.bytes ++ frame context message := by
    rw [List.append_assoc, List.append_assoc]
    rfl
  rw [messageRepresentative, hparts, representative]

/-! ## Inputs -/

/-- Two inputs with one hash of `n` bytes. -/
def Xof.Collide {rate : Nat} (x : Xof rate) (n : Nat) (a b : Bytes) : Prop :=
  a ≠ b ∧ x.read n a = x.read n b

namespace Schoolbook

/-- What is hashed to the representative. -/
def messageInput (tr message context : Bytes) : Bytes :=
  tr ++ 0 :: UInt8.ofNat context.length :: (context ++ message)

theorem read_messageInput (S : HashSuite) (tr message context : Bytes) :
    S.h.read 64 (messageInput tr message context) = representative S tr message context := rfl

variable {tr tr' message message' context context' : Bytes}

theorem messageInput_inj (htr : tr.length = tr'.length) (hctx : context.length ≤ 255)
    (hctx' : context'.length ≤ 255)
    (h : messageInput tr message context = messageInput tr' message' context') :
    tr = tr' ∧ context = context' ∧ message = message' := by
  obtain ⟨rfl, hframe⟩ := List.append_inj h htr
  obtain ⟨hcount, hrest⟩ := List.cons.inj (List.cons.inj hframe).2
  have hlen : context.length = context'.length := by
    have hcount := congrArg UInt8.toNat hcount
    rwa [UInt8.toNat_ofNat_of_lt' (Nat.lt_succ_of_le hctx),
      UInt8.toNat_ofNat_of_lt' (Nat.lt_succ_of_le hctx')] at hcount
  obtain ⟨rfl, rfl⟩ := List.append_inj hrest hlen
  exact ⟨rfl, rfl, rfl⟩

end Schoolbook

/-! ## Answers that may be missing -/

section Runs

variable {ε α β : Type} {x : ExceptT ε Option α} {f : α → ExceptT ε Option β}

theorem run_bind_of_ok {a : α} (h : x.run = some (.ok a)) : (x >>= f).run = (f a).run := by
  rw [ExceptT.run_bind, h]
  rfl

theorem run_bind_of_error {e : ε} (h : x.run = some (.error e)) :
    (x >>= f).run = some (.error e) := by
  rw [ExceptT.run_bind, h]
  rfl

theorem run_bind_of_none (h : x.run = none) : (x >>= f).run = none := by
  rw [ExceptT.run_bind, h]
  rfl

theorem run_bind_eq_ok {b : β} : (x >>= f).run = some (.ok b) ↔
    ∃ a, x.run = some (.ok a) ∧ (f a).run = some (.ok b) := by
  constructor
  · intro h
    rcases hx : x.run with _ | (e | a)
    · rw [run_bind_of_none hx] at h
      cases h
    · rw [run_bind_of_error hx] at h
      cases h
    · rw [run_bind_of_ok hx] at h
      exact ⟨a, rfl, h⟩
  · rintro ⟨a, hx, hf⟩
    rw [run_bind_of_ok hx, hf]

theorem run_lift_eq_ok {o : Option α} {a : α} :
    (liftM o : ExceptT ε Option α).run = some (.ok a) ↔ o = some a := by
  cases o with
  | none => exact iff_of_false nofun nofun
  | some b =>
    show some (.ok b : Except ε α) = some (.ok a) ↔ some b = some a
    rw [Option.some.injEq, Except.ok.injEq, Option.some.injEq]

theorem run_bind_pure (x : ExceptT ε Option α) (g : α → β) :
    (do let a ← x; return g a : ExceptT ε Option β).run = x.run.map (Except.map g) := by
  rcases hx : x.run with _ | (e | a)
  · exact run_bind_of_none hx
  · exact run_bind_of_error hx
  · exact run_bind_of_ok hx

theorem map_eq_ok {o : Option (Except ε α)} {g : α → β} {b : β} :
    o.map (Except.map g) = some (.ok b) ↔ ∃ a, o = some (.ok a) ∧ g a = b := by
  constructor
  · intro h
    obtain ⟨e | a, rfl, hmap⟩ := Option.map_eq_some_iff.mp h
    · cases hmap
    · exact ⟨a, rfl, Except.ok.inj hmap⟩
  · rintro ⟨a, rfl, rfl⟩
    rfl

theorem map_eq_error {o : Option (Except ε α)} {g : α → β} {e : ε} :
    o.map (Except.map g) = some (.error e) ↔ o = some (.error e) := by
  constructor
  · intro h
    obtain ⟨e' | a, rfl, hmap⟩ := Option.map_eq_some_iff.mp h
    · rw [Except.error.inj hmap]
    · cases hmap
  · rintro rfl
    rfl

theorem exists_error_bind (hx : x.run ≠ none) (hf : ∀ a, ∃ e, (f a).run = some (.error e)) :
    ∃ e, (x >>= f).run = some (.error e) := by
  rcases h : x.run with _ | (e | a)
  · exact absurd h hx
  · exact ⟨e, run_bind_of_error h⟩
  · obtain ⟨e, he⟩ := hf a
    exact ⟨e, (run_bind_of_ok h).trans he⟩

end Runs

end MLDSA
