import MLDSA.Proofs.Response
import MLDSA.Proofs.Stream

/-! # Challenges by their definition

A challenge is sampled from the bytes of a stream, one after the other: eight for the signs, then
for each place the first byte that is not above it. The key fact is that the places are found in
order and each byte is looked at once, so the blocks of the stream leave no trace. -/

namespace MLDSA

open Coeff

/-! ## The definition -/

namespace Schoolbook

/-- Drawing from byte `pos` on, with `c` so far, where place `i` is the next: a byte that is above
`i` is discarded, and one that is `j` moves the coefficient from `j` to `i` and puts a sign at `j`.
The last byte is before `stop`, and `r` is the result. -/
inductive Draws (stream : Nat → UInt8) (sign : Nat → Bool) :
    (i pos : Nat) → (c : Fin 256 → Coeff) → (stop : Nat) → (r : Fin 256 → Coeff) → Prop
  | done {pos c} : Draws stream sign 256 pos c pos c
  | discard {i pos c stop r} (habove : i < (stream pos).toNat)
      (hrest : Draws stream sign i (pos + 1) c stop r) : Draws stream sign i pos c stop r
  | put {i pos c stop r} (hi : i < 256) (j : Fin 256) (hj : j.val = (stream pos).toNat)
      (hle : j.val ≤ i)
      (hrest : Draws stream sign (i + 1) (pos + 1) (Function.update
        (Function.update c ⟨i, hi⟩ (c j)) j (if sign i then -1 else 1)) stop r) :
      Draws stream sign i pos c stop r

/-- The challenge in a stream: its first eight bytes are the signs of the places from 207 on. -/
def SampleInBall (stream : Nat → UInt8) (stop : Nat) (c : Poly) : Prop :=
  Draws stream (fun i => bitAt stream (i - 207)) 207 8 (fun _ => 0) stop c

variable {stream : Nat → UInt8} {sign : Nat → Bool} {i pos stop : Nat} {c r : Fin 256 → Coeff}

theorem draws_done : Draws stream sign 256 pos c stop r ↔ stop = pos ∧ r = c := by
  constructor
  · intro h
    cases h with
    | done => exact ⟨rfl, rfl⟩
    | discard habove => exact absurd habove (stream pos).toNat_lt.not_gt
    | put hi => exact absurd hi (lt_irrefl 256)
  · rintro ⟨rfl, rfl⟩
    exact .done

theorem exists_draws_done (n : Nat) :
    (∃ stop ≤ pos + n, Draws stream sign 256 pos c stop r) ↔ r = c := by
  simp only [draws_done]
  constructor
  · rintro ⟨_, -, -, hr⟩
    exact hr
  · intro hr
    exact ⟨pos, Nat.le_add_right pos n, rfl, hr⟩

theorem draws_discard (habove : i < (stream pos).toNat) :
    Draws stream sign i pos c stop r ↔ Draws stream sign i (pos + 1) c stop r := by
  refine ⟨fun h => ?_, .discard habove⟩
  cases h with
  | done => exact absurd habove (stream pos).toNat_lt.not_gt
  | discard _ hrest => exact hrest
  | put _ j hj hle => omega

theorem draws_put (hi : i < 256) (j : Fin 256) (hj : j.val = (stream pos).toNat)
    (hle : j.val ≤ i) :
    Draws stream sign i pos c stop r ↔ Draws stream sign (i + 1) (pos + 1) (Function.update
      (Function.update c ⟨i, hi⟩ (c j)) j (if sign i then -1 else 1)) stop r := by
  refine ⟨fun h => ?_, .put hi j hj hle⟩
  cases h with
  | done => exact absurd hi (lt_irrefl 256)
  | discard habove => omega
  | put _ j' hj' _ hrest =>
    obtain rfl : j' = j := Fin.ext (hj'.trans hj.symm)
    exact hrest

theorem Draws.le_stop (h : Draws stream sign i pos c stop r) : pos + (256 - i) ≤ stop := by
  induction h with
  | done => omega
  | discard => omega
  | put => omega

end Schoolbook

open Schoolbook

/-! ## Places and signs -/

theorem placeCandidates_append (i : Nat) (a b : Bytes) : placeCandidates i (a ++ b) =
    placeCandidates i a ++ placeCandidates (i + (placeCandidates i a).length) b := by
  induction a generalizing i with
  | nil => rfl
  | cons x a ih =>
    rw [List.cons_append, placeCandidates, placeCandidates]
    split
    · rw [ih, List.length_cons, List.cons_append, Nat.add_right_comm, Nat.add_assoc]
    · exact ih i

theorem resumable_placeCandidates (i : Nat) :
    Xof.Resumable 1 fun k => placeCandidates (i + k) where
  nil _ := rfl
  append k a b _ := by rw [placeCandidates_append, Nat.add_assoc]

theorem get_putSign (v : Vector Coeff 256) (i j : Fin 256) (negative : Bool) :
    (putSign v i j negative).get = Function.update (Function.update v.get i (v.get j)) j
      (if negative then -1 else 1) := by
  funext k
  show ((v.set i (v.get j)).set j (if negative then -1 else 1)).get k = _
  rw [get_set, get_set, Function.update_apply, Function.update_apply]

theorem exists_draws_iff {stream : Nat → UInt8} {sign : Nat → Bool} {n m i pos : Nat}
    {v : Vector Coeff 256} {r : Fin 256 → Coeff} {places : List (Fin 256)} (hi : i ≤ 256)
    (hm : 256 ≤ i + m)
    (hplaces : places = placeCandidates i ((List.range' pos n).map stream)) :
    (∃ stop ≤ pos + n, Draws stream sign i pos v.get stop r) ↔ 256 - i ≤ places.length ∧
      r = (putSigns i ((places.take (256 - i)).zip ((List.range' i m).map sign)) v).get := by
  -- Each byte is one step of the drawing, and the list goes on with the bytes after it.
  induction n generalizing m i pos v places with
  | zero =>
    subst hplaces
    rw [List.range'_zero, List.map_nil, placeCandidates, List.take_nil, List.zip_nil_left, putSigns]
    rcases hi.eq_or_lt with rfl | hlt
    · rw [exists_draws_done]
      exact (and_iff_right (Nat.zero_le _)).symm
    · refine iff_of_false ?_ fun h => Nat.not_le.mpr (Nat.sub_pos_of_lt hlt) h.1
      rintro ⟨stop, hstop, hdraws⟩
      have := hdraws.le_stop
      omega
  | succ n ih =>
    rcases hi.eq_or_lt with rfl | hlt
    · rw [exists_draws_done, Nat.sub_self, List.take_zero, List.zip_nil_left, putSigns]
      exact (and_iff_right (Nat.zero_le _)).symm
    rw [List.range'_succ, List.map_cons, placeCandidates] at hplaces
    rw [← Nat.add_assoc, Nat.add_right_comm]
    split at hplaces
    · rename_i hle
      have hj : (Fin.ofNat 256 (stream pos).toNat).val = (stream pos).toNat :=
        Nat.mod_eq_of_lt (stream pos).toNat_lt
      have hplace : Fin.ofNat 256 i = ⟨i, hlt⟩ := Fin.ext (Nat.mod_eq_of_lt hlt)
      have hcount : 256 - i = 256 - (i + 1) + 1 := by omega
      obtain ⟨m, rfl⟩ : ∃ m', m = m' + 1 := ⟨m - 1, by omega⟩
      rw [hplaces, hcount, List.take_succ_cons, List.range'_succ, List.map_cons,
        List.zip_cons_cons, putSigns, List.length_cons, Nat.add_le_add_iff_right, hplace]
      simp only [draws_put hlt _ hj (hj.trans_le hle), ← get_putSign]
      exact ih hlt (by omega) rfl
    · rename_i habove
      simp only [draws_discard (Nat.not_le.mp habove)]
      exact ih hi hm hplaces

/-! ## The weight -/

/-- Places from `i` on are free, and there is a sign for each place from 207 to there. -/
structure SignsBelow (i : Nat) (c : Fin 256 → Coeff) : Prop where
  signs : ∀ j, c j = 0 ∨ c j = 1 ∨ c j = -1
  free : ∀ j : Fin 256, i ≤ j.val → c j = 0
  count : ∑ j, size (c j) + 207 = i

theorem signsBelow_zero : SignsBelow 207 fun _ => 0 where
  signs _ := .inl rfl
  free _ _ := rfl
  count := congrArg (· + 207) (Finset.sum_eq_zero fun _ _ => (rfl : size 0 = 0))

/-- A coefficient that is in the way moves to the free place, so no sign is lost. -/
theorem SignsBelow.putSign {v : Vector Coeff 256} {i j : Fin 256} (h : SignsBelow i v.get)
    (hle : j ≤ i) (negative : Bool) : SignsBelow (i + 1) (putSign v i j negative).get where
  signs k := by
    rw [get_putSign, Function.update_apply, Function.update_apply]
    split
    · cases negative
      · exact .inr (.inl rfl)
      · exact .inr (.inr rfl)
    · split
      · exact h.signs j
      · exact h.signs k
  free k hk := by
    have hki : k ≠ i := fun heq => by omega
    have hkj : k ≠ j := fun heq => by omega
    rw [get_putSign, Function.update_of_ne hkj, Function.update_of_ne hki]
    exact h.free k (by omega)
  count := by
    have hfree : size (v.get i) = 0 := by
      rw [h.free i le_rfl]
      rfl
    have hsum := totalSize_putSign v i j negative
    have hcount := h.count
    unfold totalSize at hsum
    omega

theorem Schoolbook.Draws.signsBelow {stream : Nat → UInt8} {sign : Nat → Bool} {i pos stop : Nat}
    {c r : Fin 256 → Coeff} (h : Draws stream sign i pos c stop r) (hc : SignsBelow i c) :
    SignsBelow 256 r := by
  induction h with
  | done => exact hc
  | discard _ _ ih => exact ih hc
  | @put i pos c stop r hi j hj hle hrest ih =>
    obtain ⟨v, rfl⟩ : ∃ v : Vector Coeff 256, c = v.get :=
      ⟨Vector.ofFn c, funext fun k => (Vector.getElem_ofFn k.isLt).symm⟩
    have hput := SignsBelow.putSign (i := ⟨i, hi⟩) hc hle (sign i)
    rw [get_putSign] at hput
    exact ih hput

theorem SignsBelow.isChallenge {c : Poly} (h : SignsBelow 256 c) : c.IsChallenge := by
  have hcount : totalSize c.coeffs + 207 = 256 := h.count
  refine ⟨h.signs, ?_⟩
  rw [← Poly.totalSize_eq_card h.signs]
  exact Nat.add_right_cancel hcount

namespace Poly.IsChallenge

variable {c : Poly}

theorem card_signs (h : c.IsChallenge) :
    (Finset.univ.filter fun j : Fin 256 => c j = 1 ∨ c j = -1).card = 49 := by
  refine Eq.trans (congrArg Finset.card (Finset.filter_congr fun j _ => ?_)) h.2
  constructor
  · rintro (hj | hj)
    · rw [hj]
      decide
    · rw [hj]
      decide
  · exact (h.1 j).resolve_left

theorem card_zeros (h : c.IsChallenge) :
    (Finset.univ.filter fun j : Fin 256 => c j = 0).card = 207 := by
  have hall := Finset.card_filter_add_card_filter_not (s := Finset.univ) fun j : Fin 256 => c j = 0
  have hsigns : (Finset.univ.filter fun j : Fin 256 => ¬ c j = 0).card = 49 := h.2
  rw [hsigns, Finset.card_univ, Fintype.card_fin] at hall
  omega

end Poly.IsChallenge

/-! ## The sampler -/

namespace HashSuite

variable {S : HashSuite} {hash : Bytes} {c : Poly}

theorem search_places (S : HashSuite) (hash : Bytes) {stream : Nat → UInt8}
    {places : List (Fin 256)} (hstream : stream = S.h.byteAt (S.h.absorb hash))
    (hplaces : places = placeCandidates 207 ((List.range' 8 (136 * S.budget - 8)).map stream)) :
    S.h.search (fun k => placeCandidates (207 + k)) 49 S.budget [] 8 (S.h.absorb hash) =
      if 49 ≤ places.length then some (places.take 49) else none := by
  have hbytes : (S.h.firstBytes (S.h.absorb hash) (136 * S.budget)).drop 8 =
      (List.range' 8 (136 * S.budget - 8)).map stream := by
    rw [Xof.firstBytes, ← List.map_drop, List.range_eq_range', List.drop_range', ← hstream]
  refine Xof.search_eq_firstBytes (resumable_placeCandidates 207) (Nat.one_dvd _) (by decide)
    (by decide) (Nat.one_dvd _) (by decide) ?_
  rw [hplaces, ← hbytes]
  rfl

theorem challengeOf_eq (S : HashSuite) (hash : Bytes) {stream : Nat → UInt8}
    {places : List (Fin 256)} (hstream : stream = S.h.byteAt (S.h.absorb hash))
    (hplaces : places = placeCandidates 207 ((List.range' 8 (136 * S.budget - 8)).map stream)) :
    S.challengeOf hash = if 49 ≤ places.length then
      some (challengePoly ((places.take 49).zip
        ((List.range' 207 64).map fun i => bitAt stream (i - 207)))) else none := by
  have hsigns : bitsOfBytes ((S.h.block (S.h.absorb hash)).bytes.take 8) =
      (List.range' 207 64).map fun i => bitAt stream (i - 207) := by
    rw [Xof.bytes_block, Xof.take_firstBytes _ (show 8 ≤ hashBlockBytes by decide), Xof.firstBytes,
      ← hstream, bitsOfBytes_stream, List.range'_eq_map_range, List.map_map]
    refine List.map_congr_left fun k _ => ?_
    rw [Function.comp_apply, Nat.add_sub_cancel_left]
  have hrun : S.challengeOf hash = (S.h.search (fun k => placeCandidates (207 + k)) 49 S.budget [] 8
      (S.h.absorb hash)).map fun places => challengePoly (places.zip
        (bitsOfBytes ((S.h.block (S.h.absorb hash)).bytes.take 8))) := rfl
  rw [hrun, search_places S hash hstream hplaces, hsigns]
  split
  · rfl
  · rfl

theorem challengeOf_eq_some {stream : Nat → UInt8}
    (hstream : stream = S.h.byteAt (S.h.absorb hash)) :
    S.challengeOf hash = some c ↔ ∃ stop ≤ 136 * S.budget, SampleInBall stream stop c := by
  generalize hplaces :
    placeCandidates 207 ((List.range' 8 (136 * S.budget - 8)).map stream) = places
  have hzero : Poly.zero.coeffs.get = fun _ => 0 := funext Poly.zero_apply
  have hdraws : (∃ stop ≤ 8 + (136 * S.budget - 8), SampleInBall stream stop c) ↔
      49 ≤ places.length ∧ c.coeffs.get = (challengePoly ((places.take 49).zip
        ((List.range' 207 64).map fun i => bitAt stream (i - 207)))).coeffs.get := by
    unfold SampleInBall
    rw [← hzero]
    exact exists_draws_iff (by decide) (by decide) hplaces.symm
  have hstop : ∀ stop, SampleInBall stream stop c →
      (stop ≤ 136 * S.budget ↔ stop ≤ 8 + (136 * S.budget - 8)) := by
    intro stop h
    have := h.le_stop
    omega
  rw [challengeOf_eq S hash hstream hplaces.symm, Option.ite_none_right_eq_some, Option.some.injEq,
    exists_congr fun stop => and_congr_left (hstop stop), hdraws]
  refine and_congr_right fun _ => ⟨?_, fun h => ?_⟩
  · rintro rfl
    rfl
  · exact Poly.ext_toInt fun j => congrArg Int32.toInt (congrFun h j).symm

/-- A challenge that is sampled has 49 signs, and is what the bytes of the stream give one after the
other. -/
theorem challenge_of_stream (S : HashSuite) (hash : Bytes) :
    (∀ n, S.h.read n hash = (List.range n).map (S.h.byteAt (S.h.absorb hash))) ∧
    (∀ c, S.challengeOf hash = some c ↔
      ∃ stop ≤ 136 * S.budget, SampleInBall (S.h.byteAt (S.h.absorb hash)) stop c) ∧
    ∀ c, S.challengeOf hash = some c →
      (Finset.univ.filter fun j : Fin 256 => c j = 1 ∨ c j = -1).card = 49 ∧
      (Finset.univ.filter fun j : Fin 256 => c j = 0).card = 207 := by
  refine ⟨fun n => Xof.read_eq hash n (by decide), fun c => challengeOf_eq_some rfl, fun c hc => ?_⟩
  obtain ⟨stop, -, hdraws⟩ := (challengeOf_eq_some rfl).mp hc
  have hchallenge := (hdraws.signsBelow signsBelow_zero).isChallenge
  exact ⟨hchallenge.card_signs, hchallenge.card_zeros⟩

/-- A suite whose first block has no place in it, with `budget` blocks for a search. -/
def late (budget : Nat) : HashSuite where
  g := Xof.constant matrixBlockBytes 0
  h :=
    { State := Nat
      absorb _ := 0
      block n := ⟨List.replicate hashBlockBytes (if n = 0 then 255 else 68), List.length_replicate⟩
      next n := n + 1 }
  budget := budget

/-- The places are in the second block, and all of them are the same, so each sign moves on. -/
theorem challenge_of_stream_late : ∃ c stop, (late 1).challengeOf [] = none ∧
    (late 2).challengeOf [] = some c ∧ 136 < stop ∧
    SampleInBall ((late 2).h.byteAt ((late 2).h.absorb [])) stop c ∧
    (Finset.univ.filter fun j : Fin 256 => c j = 1 ∨ c j = -1).card = 49 := by
  have hnone : (late 1).challengeOf [] = none := Option.isNone_iff_eq_none.mp (by decide +kernel)
  obtain ⟨c, hc⟩ : ∃ c, (late 2).challengeOf [] = some c :=
    Option.isSome_iff_exists.mp (by decide +kernel)
  obtain ⟨-, hdraws, hcard⟩ := challenge_of_stream (late 2) []
  obtain ⟨stop, -, hstop⟩ := (hdraws c).mp hc
  refine ⟨c, stop, hnone, hc, Nat.lt_of_not_le fun hle => ?_, hstop, (hcard c hc).1⟩
  have hfirst := ((challenge_of_stream (late 1) []).2.1 c).mpr ⟨stop, hle, hstop⟩
  rw [hnone] at hfirst
  cases hfirst

end HashSuite

end MLDSA
