import MLDSA.Proofs.Exact.Sample
import MLDSA.Proofs.Rejection

/-! # Filling a polynomial

The loops of the rejection samplers write each good candidate into an array of 256 as it is found,
and stop in the middle of a block when the array is full. The key fact is that the array holds the
first 256 of all good candidates so far, so a write is at a place below 256. -/

namespace MLDSA

open Schoolbook

namespace Exact

/-! ## The loops -/

/-- The array, and the place of the next write. -/
structure Filling where
  coeffs : Fin 256 → Int
  next : Nat

def Filling.write (f : Filling) (c : Int) : Exact Filling := do
  let place ← index 256 f.next
  return ⟨Function.update f.coeffs place c, f.next + 1⟩

/-- The groups of three bytes of a block, until the array is full. -/
def fillGroups : Bytes → Filling → Exact Filling
  | x :: y :: z :: rest, f => do
    let t ← group x y z
    if t < modulus then
      let f ← f.write t
      if f.next = 256 then return f else fillGroups rest f
    else fillGroups rest f
  | _, f => return f

def fillNibble (t : Nat) (f : Filling) : Exact Filling := do
  if f.next < 256 ∧ t < 2 * eta + 1 then f.write (← sub 4 t) else return f

/-- The bytes of a block, until the array is full. -/
def fillBytes : Bytes → Filling → Exact Filling
  | [], f => return f
  | x :: rest, f => do
    let f ← fillNibble (x.toNat % 16) f
    let f ← fillNibble (x.toNat / 16) f
    if f.next = 256 then return f else fillBytes rest f

/-- Goes through block after block while the array is not full, `budget` blocks at most. -/
def fill {rate : Nat} (x : Xof rate) (block : Bytes → Filling → Exact Filling) :
    (budget : Nat) → Filling → x.State → OptionT Exact Filling
  | 0, f, _ => if f.next < 256 then failure else return f
  | budget + 1, f, s => do
    if f.next < 256 then
      let f ← (block (x.block s).bytes f : Exact Filling)
      fill x block budget f (x.next s)
    else return f

def fillUniform (S : HashSuite) (rho : Octets seedBytes) (i j : UInt8) :
    OptionT Exact (Fin 256 → Int) := do
  let f ← fill S.g fillGroups S.budget ⟨fun _ => 0, 0⟩ (S.g.absorb (rho.bytes ++ [j, i]))
  return f.coeffs

def fillSecret (S : HashSuite) (seed : Octets longHashBytes) (nonce : Nat) :
    OptionT Exact (Fin 256 → Int) := do
  let f ← fill S.h fillBytes S.budget ⟨fun _ => 0, 0⟩ (S.h.absorb (MLDSA.numbered seed nonce))
  return f.coeffs

/-! ## What the array holds -/

/-- The array with these coefficients at its first places. -/
def holding (l : List Coeff) : Filling := ⟨fun i => (l.getD i 0).toInt, l.length⟩

theorem getD_concat (l : List Coeff) (c : Coeff) (i : Nat) :
    (l ++ [c]).getD i 0 = if i = l.length then c else l.getD i 0 := by
  rcases Nat.lt_trichotomy i l.length with hlt | rfl | hgt
  · rw [if_neg hlt.ne, List.getD_append _ _ _ _ hlt]
  · rw [if_pos rfl, List.getD_append_right _ _ _ _ le_rfl, Nat.sub_self, List.getD_cons_zero]
  · have hlen : (l ++ [c]).length ≤ i := by simpa using hgt
    rw [if_neg hgt.ne', List.getD_eq_default _ _ hlen, List.getD_eq_default _ _ hgt.le]

theorem write_of {l : List Coeff} (h : l.length < 256) (c : Coeff) :
    (holding l).write c.toInt = .ok (holding (l ++ [c])) := by
  have hput : Function.update (holding l).coeffs ⟨l.length, h⟩ c.toInt =
      (holding (l ++ [c])).coeffs := by
    funext i
    simp only [holding, Function.update_apply, getD_concat, Fin.ext_iff]
    split
    · rfl
    · rfl
  have hnext : (holding l).next + 1 = (holding (l ++ [c])).next := by simp [holding]
  unfold Filling.write
  rw [show index 256 (holding l).next = _ from index_of h, ok_bind, hput, hnext]
  rfl

/-- A block adds the candidates that it has, as long as there is room. -/
def Adds (block : Bytes → Filling → Exact Filling) (found : Bytes → List Coeff) : Prop :=
  ∀ (b : Bytes) (l : List Coeff), l.length < 256 →
    block b (holding l) = .ok (holding ((l ++ found b).take 256))

theorem fillGroups_adds : Adds fillGroups MLDSA.uniformCandidates := by
  intro b l hl
  fun_induction MLDSA.uniformCandidates b generalizing l with
  | case1 x y z rest v hv ih =>
    have hlt : v < 8380417 := hv
    have hword : (v : Int) = (Int32.ofNat v).toInt := (Int32.toInt_ofNat_of_lt (by omega)).symm
    rw [fillGroups, group_of rfl, ok_bind, if_pos (Nat.cast_lt.mpr hv), hword, write_of hl, ok_bind,
      List.append_cons l _ (MLDSA.uniformCandidates rest)]
    split
    · rename_i hfull
      rw [List.take_left' hfull]
      rfl
    · rename_i hroom
      refine ih _ (Nat.lt_of_le_of_ne ?_ hroom)
      rw [List.length_append]
      exact hl
  | case2 x y z rest v hv ih =>
    rw [fillGroups, group_of rfl, ok_bind, if_neg (mt Nat.cast_lt.mp hv)]
    exact ih l hl
  | case3 b hb =>
    rw [fillGroups, List.append_nil, List.take_of_length_le hl.le]
    · rfl
    · exact hb

/-- The candidates among four-bit numbers. -/
def nibbleCandidates (l : List Nat) : List Coeff :=
  l.filterMap fun t => if t ≤ 2 * eta then some (4 - Int32.ofNat t) else none

theorem fillNibble_eq (t : Nat) (l : List Coeff) : fillNibble t (holding (l.take 256)) =
    .ok (holding ((l ++ nibbleCandidates [t]).take 256)) := by
  unfold fillNibble nibbleCandidates
  rw [List.filterMap_cons, List.filterMap_nil]
  rcases Nat.lt_or_ge l.length 256 with hroom | hfull
  · rw [List.take_of_length_le hroom.le]
    by_cases ht : t ≤ 2 * eta
    · have hlen : (l ++ [4 - Int32.ofNat t]).length ≤ 256 := by simpa using hroom
      rw [if_pos ⟨hroom, Nat.lt_succ_of_le ht⟩, if_pos ht, sub_nibble ht, ok_bind, write_of hroom,
        List.take_of_length_le hlen]
    · rw [if_neg fun h => ht (Nat.le_of_lt_succ h.2), if_neg ht, List.append_nil,
        List.take_of_length_le hroom.le]
      rfl
  · have hnext : (holding (l.take 256)).next = 256 := List.length_take_of_le hfull
    rw [if_neg fun h => hnext.not_lt h.1, List.take_append_of_le_length hfull]
    rfl

theorem secretCandidates_cons (x : UInt8) (rest : Bytes) : MLDSA.secretCandidates (x :: rest) =
    nibbleCandidates [x.toNat % 16] ++ (nibbleCandidates [x.toNat / 16] ++
      MLDSA.secretCandidates rest) := by
  show nibbleCandidates ([x.toNat % 16] ++ ([x.toNat / 16] ++ rest.flatMap _)) = _
  unfold nibbleCandidates
  rw [List.filterMap_append, List.filterMap_append]
  rfl

theorem fillBytes_eq (b : Bytes) (l : List Coeff) : fillBytes b (holding (l.take 256)) =
    .ok (holding ((l ++ MLDSA.secretCandidates b).take 256)) := by
  -- The list is of all candidates, and may go on after the array is full in the middle of a byte.
  induction b generalizing l with
  | nil =>
    rw [fillBytes, show MLDSA.secretCandidates [] = [] from rfl, List.append_nil]
    rfl
  | cons x rest ih =>
    rw [fillBytes, fillNibble_eq, ok_bind, fillNibble_eq, ok_bind, secretCandidates_cons,
      ← List.append_assoc, ← List.append_assoc]
    split
    · rename_i hfull
      rw [List.take_append_of_le_length (min_eq_left_iff.mp (List.length_take.symm.trans hfull))]
      rfl
    · exact ih _

theorem fillBytes_adds : Adds fillBytes MLDSA.secretCandidates := by
  intro b l hl
  rw [← fillBytes_eq, List.take_of_length_le hl.le]

theorem fill_full {rate : Nat} {x : Xof rate} {block : Bytes → Filling → Exact Filling}
    {budget : Nat} {f : Filling} {s : x.State} (hf : f.next = 256) :
    (fill x block budget f s).run = .ok (some f) := by
  cases budget with
  | zero => rw [fill, if_neg hf.not_lt]; rfl
  | succ budget => rw [fill, if_neg hf.not_lt]; rfl

theorem fill_eq {rate : Nat} {x : Xof rate} {block : Bytes → Filling → Exact Filling}
    {found : Bytes → List Coeff} (hblock : Adds block found) {budget : Nat} {got : List Coeff}
    {s : x.State} (hgot : got.length < 256) : (fill x block budget (holding got) s).run =
      .ok ((x.search (fun _ => found) 256 budget got 0 s).map holding) := by
  induction budget generalizing got s with
  | zero =>
    rw [fill, if_pos (show (holding got).next < 256 from hgot)]
    rfl
  | succ budget ih =>
    rw [fill, if_pos (show (holding got).next < 256 from hgot), ok_bind_run (hblock _ _ hgot)]
    simp only [Xof.search, List.drop_zero]
    split
    · rename_i hfull
      rw [fill_full (List.length_take_of_le hfull)]
      rfl
    · rename_i hroom
      rw [List.take_of_length_le (Nat.not_le.mp hroom).le]
      exact ih (Nat.not_le.mp hroom)

theorem coeffs_holding (l : List Coeff) : (holding l).coeffs = ints (Poly.ofList l).coeffs :=
  funext fun i => congrArg Int32.toInt (Poly.ofList_apply l i).symm

theorem fillUniform_ints (S : HashSuite) (rho : Octets seedBytes) (i j : UInt8) :
    (fillUniform S rho i j).run = .ok ((S.uniformPoly rho i j).map NttPoly.ints) := by
  have hrun : (fill S.g fillGroups S.budget (holding []) (S.g.absorb (rho.bytes ++ [j, i]))).run =
      _ := fill_eq fillGroups_adds (by decide)
  refine map_run hrun fun l _ => ?_
  rw [coeffs_holding]
  rfl

theorem fillSecret_ints (S : HashSuite) (seed : Octets longHashBytes) (nonce : Nat) :
    (fillSecret S seed nonce).run = .ok ((S.secretPoly seed nonce).map Poly.ints) := by
  have hrun : (fill S.h fillBytes S.budget (holding [])
      (S.h.absorb (MLDSA.numbered seed nonce))).run = _ := fill_eq fillBytes_adds (by decide)
  refine map_run hrun fun l _ => ?_
  rw [coeffs_holding]
  rfl

end Exact

/-! ## The samplers -/

/-- The values of the first 256 good candidates, in order. After `budget` blocks, which have
`perBlock` candidates each, a sampler has the result `run budget`, and `loop` is the run that writes
it into an array. -/
structure FiltersStream (perBlock : Nat) (good : Nat → Prop) [DecidablePred good]
    (value : Nat → Int) (run : Nat → Option (Fin 256 → Int))
    (loop : Nat → OptionT Exact (Fin 256 → Int)) : Prop where
  first : ∀ budget r, run budget = some r ↔
    256 ≤ Nat.count good (perBlock * budget) ∧ ∀ k : Fin 256, r k = value (Nat.nth good k)
  ends : (∃ budget r, run budget = some r) ↔ ∃ n, 256 ≤ Nat.count good n
  writes : ∀ budget, (loop budget).run = .ok (run budget)

theorem ints_ofList_range (f : Nat → Coeff) :
    Exact.ints (Poly.ofList ((List.range 256).map f)).coeffs = fun k : Fin 256 => (f k).toInt := by
  funext k
  show (Poly.ofList ((List.range 256).map f) k).toInt = (f k).toInt
  rw [Poly.ofList_apply, List.getD_eq_getElem _ _ (by simp), List.getElem_map, List.getElem_range]

/-- A search filters the stream if the candidates of all blocks together are its good ones. -/
theorem FiltersStream.of_search {rate unit perBlock : Nat} (x : Xof rate) (s : x.State)
    {found : Bytes → List Coeff} {good : Nat → Prop} [DecidablePred good] {value : Nat → Int}
    {word : Nat → Coeff} {run : Nat → Option (Fin 256 → Int)}
    {loop : Nat → OptionT Exact (Fin 256 → Int)} (hfound : Xof.Resumable unit fun _ => found)
    (hunit : unit ∣ rate) (hrate : 0 < rate) (hpos : 0 < perBlock)
    (hword : ∀ n, good n → (word n).toInt = value n)
    (hgood : ∀ budget, found (x.firstBytes s (rate * budget)) =
      (List.range (perBlock * budget)).filterMap fun n => if good n then some (word n) else none)
    (hrun : ∀ budget, run budget = (x.search (fun _ => found) 256 budget [] 0 s).map
      fun l => Exact.ints (Poly.ofList l).coeffs)
    (hloop : ∀ budget, (loop budget).run = .ok (run budget)) :
    FiltersStream perBlock good value run loop := by
  have hresult : ∀ budget, run budget = if 256 ≤ Nat.count good (perBlock * budget) then
      some fun k : Fin 256 => value (Nat.nth good k) else none := by
    intro budget
    rw [hrun, Xof.search_eq_nth hfound hunit hrate budget (hgood budget)]
    split
    · rename_i hcount
      have hnth : ∀ k : Fin 256, good (Nat.nth good k) := fun k => Nat.nth_mem k fun hfin =>
        lt_of_lt_of_le k.isLt (hcount.trans (Nat.count_le_card hfin _))
      rw [Option.map_some, ints_ofList_range]
      exact congrArg some (funext fun k => hword _ (hnth k))
    · rfl
  constructor
  case first =>
    intro budget r
    rw [hresult, Option.ite_none_right_eq_some, Option.some.injEq, funext_iff]
    exact and_congr_right fun _ => forall_congr' fun k => eq_comm
  case ends =>
    simp only [hresult, Option.ite_none_right_eq_some]
    constructor
    · rintro ⟨budget, r, hcount, -⟩
      exact ⟨_, hcount⟩
    · rintro ⟨n, hcount⟩
      have hle : n ≤ perBlock * n := Nat.le_mul_of_pos_left n hpos
      exact ⟨n, _, hcount.trans (Nat.count_monotone good hle), rfl⟩
  case writes => exact hloop

namespace HashSuite

theorem uniformPoly_filters (S : HashSuite) (rho : Octets seedBytes) (i j : UInt8)
    {stream : Nat → UInt8} (hstream : stream = S.g.byteAt (S.g.absorb (rho.bytes ++ [j, i]))) :
    FiltersStream 56 (fun n => group stream n < 8380417) (fun n => group stream n)
      (fun budget => ({ S with budget }.uniformPoly rho i j).map NttPoly.ints)
      fun budget => Exact.fillUniform { S with budget } rho i j := by
  have hword : ∀ n, group stream n < 8380417 →
      (Int32.ofNat (group stream n)).toInt = group stream n := fun n hn =>
    Int32.toInt_ofNat_of_lt (hn.trans (by decide))
  have hrun : ∀ budget, ({ S with budget }.uniformPoly rho i j).map NttPoly.ints =
      (S.g.search (fun _ => uniformCandidates) 256 budget [] 0
        (S.g.absorb (rho.bytes ++ [j, i]))).map fun l => Exact.ints (Poly.ofList l).coeffs := by
    intro budget
    simp only [uniformPoly, Option.map_map, Function.comp_def, NttPoly.ints]
  refine .of_search S.g _ resumable_uniformCandidates (by decide) (by decide) (by decide) hword
    (fun budget => ?_) hrun fun budget => Exact.fillUniform_ints _ rho i j
  have hbytes : matrixBlockBytes * budget = 3 * (56 * budget) := Nat.mul_assoc 3 56 budget
  rw [hbytes, Xof.firstBytes, ← hstream]
  exact uniformCandidates_stream stream (56 * budget)

theorem secretPoly_filters (S : HashSuite) (seed : Octets longHashBytes) (nonce : Nat)
    {stream : Nat → UInt8} (hstream : stream = S.h.byteAt (S.h.absorb (numbered seed nonce))) :
    FiltersStream 272 (fun n => nibble stream n ≤ 8) (fun n => 4 - nibble stream n)
      (fun budget => ({ S with budget }.secretPoly seed nonce).map Poly.ints)
      fun budget => Exact.fillSecret { S with budget } seed nonce := by
  have hrun : ∀ budget, ({ S with budget }.secretPoly seed nonce).map Poly.ints =
      (S.h.search (fun _ => secretCandidates) 256 budget [] 0
        (S.h.absorb (numbered seed nonce))).map fun l => Exact.ints (Poly.ofList l).coeffs := by
    intro budget
    simp only [secretPoly, Option.map_map, Function.comp_def, Poly.ints]
  refine .of_search S.h _ resumable_secretCandidates (by decide) (by decide) (by decide)
    (fun n hn => toInt_four_sub hn) (fun budget => ?_) hrun
    fun budget => Exact.fillSecret_ints _ seed nonce
  have hnibbles : 272 * budget = 2 * (136 * budget) := Nat.mul_assoc 2 136 budget
  rw [hnibbles, Xof.firstBytes, ← hstream]
  exact secretCandidates_stream stream (136 * budget)

/-- The stream that an entry of the public matrix is sampled from. -/
def uniformStream (S : HashSuite) (rho : Octets seedBytes) (i j : UInt8) : Nat → UInt8 :=
  S.g.byteAt (S.g.absorb (rho.bytes ++ [j, i]))

/-- The stream that a secret polynomial is sampled from. -/
def secretStream (S : HashSuite) (seed : Octets longHashBytes) (nonce : Nat) : Nat → UInt8 :=
  S.h.byteAt (S.h.absorb (numbered seed nonce))

/-- Whatever the streams are, the rejection samplers filter them, and their results are in range. -/
theorem rejection_filters_stream (S : HashSuite) :
    (∀ (rho : Octets seedBytes) (i j : UInt8),
      (∀ n, S.g.read n (rho.bytes ++ [j, i]) = (List.range n).map (S.uniformStream rho i j)) ∧
      FiltersStream 56 (fun n => group (S.uniformStream rho i j) n < 8380417)
        (fun n => group (S.uniformStream rho i j) n)
        (fun budget => ({ S with budget }.uniformPoly rho i j).map NttPoly.ints)
        (fun budget => Exact.fillUniform { S with budget } rho i j) ∧
      ∀ p, S.uniformPoly rho i j = some p → ∀ k, 0 ≤ (p k).toInt ∧ (p k).toInt < 8380417) ∧
    ∀ (seed : Octets longHashBytes) (nonce : Nat),
      (∀ n, S.h.read n (numbered seed nonce) = (List.range n).map (S.secretStream seed nonce)) ∧
      FiltersStream 272 (fun n => nibble (S.secretStream seed nonce) n ≤ 8)
        (fun n => 4 - nibble (S.secretStream seed nonce) n)
        (fun budget => ({ S with budget }.secretPoly seed nonce).map Poly.ints)
        (fun budget => Exact.fillSecret { S with budget } seed nonce) ∧
      ∀ p, S.secretPoly seed nonce = some p → ∀ k, -4 ≤ (p k).toInt ∧ (p k).toInt ≤ 4 :=
  ⟨fun rho i j => ⟨fun n => Xof.read_eq _ n (by decide), uniformPoly_filters S rho i j rfl,
      fun _ => uniformPoly_bounds⟩,
    fun seed nonce => ⟨fun n => Xof.read_eq _ n (by decide), secretPoly_filters S seed nonce rfl,
      fun _ => secretPoly_inRange⟩⟩

/-- A suite in whose streams every other half byte is good. -/
def half (budget : Nat) : HashSuite where
  g := Xof.constant matrixBlockBytes 0
  h := Xof.constant hashBlockBytes 0xf3
  budget := budget

theorem nibble_half {budget nonce n : Nat} {seed : Octets longHashBytes}
    (h : nibble ((half budget).secretStream seed nonce) n ≤ 8) :
    nibble ((half budget).secretStream seed nonce) n = 3 := by
  have hbyte : (half budget).secretStream seed nonce (n / 2) = 0xf3 :=
    List.getD_replicate (n := 136) (i := n / 2 % 136) _ (Nat.mod_lt _ (by decide))
  unfold nibble at h ⊢
  rw [hbyte] at h ⊢
  rcases Nat.mod_two_eq_zero_or_one n with hn | hn
  · rw [hn]
    rfl
  · rw [hn] at h
    exact absurd h (by decide)

/-- One block has too few good half bytes, and two blocks have enough. -/
theorem rejection_filters_stream_half : (half 1).secretPoly (Octets.zero 64) 0 = none ∧
    ∃ p, (half 2).secretPoly (Octets.zero 64) 0 = some p ∧ ∀ k : Fin 256, (p k).toInt = 1 := by
  obtain ⟨hfirst, -, -⟩ := ((rejection_filters_stream (half 1)).2 (Octets.zero 64) 0).2.1
  constructor
  · refine Option.eq_none_iff_forall_ne_some.mpr fun p hp => ?_
    have hcount := ((hfirst 1 p.ints).mp (congrArg (Option.map Poly.ints) hp)).1
    revert hcount
    decide +kernel
  · have hcount : 256 ≤ Nat.count (fun n => nibble ((half 1).secretStream (Octets.zero 64) 0) n ≤ 8)
        (272 * 2) := by
      decide +kernel
    have hones := (hfirst 2 fun _ => 1).mpr ⟨hcount, fun k => by
      have hgood := Nat.nth_mem k.val fun hfin =>
        lt_of_lt_of_le k.isLt (hcount.trans (Nat.count_le_card hfin _))
      rw [nibble_half hgood]
      rfl⟩
    obtain ⟨p, hp, hints⟩ := Option.map_eq_some_iff.mp hones
    exact ⟨p, hp, congrFun hints⟩

end HashSuite

end MLDSA
