import MLDSA.Proofs.Exact.Codec
import MLDSA.Proofs.Sample

/-! # Sampling over the integers

Every sampler once more, with exact candidates, checked places and a number for each input that must
fit two bytes. The signs of a challenge are put at places from `256 - tau` on, one for each draw, so
the last is at place 255. -/

namespace MLDSA

namespace Exact

/-! ## Searches -/

/-- Looks for `need` candidates in the blocks from `s` on, as `Xof.search` does. -/
def search {rate : Nat} {α : Type} (x : Xof rate) (found : Nat → Bytes → Exact (List α))
    (need : Nat) :
    (budget : Nat) → (got : List α) → (skip : Nat) → (s : x.State) → OptionT Exact (List α)
  | 0, _, _, _ => failure
  | budget + 1, got, skip, s => do
    let bytes ← (slice (x.block s).bytes skip rate : Exact Bytes)
    let more ← found got.length bytes
    if need ≤ (got ++ more).length then return (got ++ more).take need
    else search x found need budget (got ++ more) 0 (x.next s)

theorem slice_to_end {α : Type} {l : List α} {start stop : Nat} (h : start ≤ stop)
    (hlen : l.length = stop) : slice l start stop = .ok (l.drop start) := by
  rw [slice, if_pos ⟨h, hlen.ge⟩, List.take_of_length_le (by rw [List.length_drop, hlen])]

theorem search_map {rate need : Nat} {α β : Type} {x : Xof rate}
    {found : Nat → Bytes → List α} {found' : Nat → Bytes → Exact (List β)} {g : α → β}
    (h : ∀ k b, found' k b = .ok ((found k b).map g)) {budget skip : Nat} (hskip : skip ≤ rate)
    (got : List α) (s : x.State) : (search x found' need budget (got.map g) skip s).run =
      .ok ((x.search found need budget got skip s).map (List.map g)) := by
  induction budget generalizing skip got s with
  | zero => rfl
  | succ budget ih =>
    rw [search, ok_bind_run (slice_to_end hskip (x.block s).length_eq), List.length_map,
      ok_bind_run (h _ _), ← List.map_append, List.length_map, Xof.search]
    split
    · rw [← List.map_take]
      rfl
    · exact ih (Nat.zero_le rate) _ _

theorem search_eq {rate need : Nat} {α : Type} {x : Xof rate} {found : Nat → Bytes → List α}
    {found' : Nat → Bytes → Exact (List α)} (h : ∀ k b, found' k b = .ok (found k b))
    {budget skip : Nat} (hskip : skip ≤ rate) (got : List α) (s : x.State) :
    (search x found' need budget got skip s).run = .ok (x.search found need budget got skip s) := by
  have hid : ∀ k b, found' k b = .ok ((found k b).map id) := fun k b => by rw [h, List.map_id]
  simpa using search_map hid hskip got s

/-! ## Candidates -/

def uniformCandidates : Bytes → Exact (List Int)
  | x :: y :: z :: rest => do
    let middle ← shiftLeft y.toNat 8
    let high ← shiftLeft (z.toNat % 128 : Nat) 16
    let v ← add (← add x.toNat middle) high
    let later ← uniformCandidates rest
    return if v < modulus then v :: later else later
  | _ => return []

/-- The candidates among four-bit numbers. -/
def secretNibbles : List Nat → Exact (List Int)
  | [] => return []
  | t :: rest => do
    let later ← secretNibbles rest
    if t ≤ 2 * eta then return (← sub 4 t) :: later else return later

def secretCandidates (b : Bytes) : Exact (List Int) :=
  secretNibbles (b.flatMap fun x => [x.toNat % 16, x.toNat / 16])

def placeCandidates : (i : Nat) → Bytes → Exact (List (Fin 256))
  | _, [] => return []
  | i, b :: rest => do
    if b.toNat ≤ i then return (← index 256 b.toNat) :: (← placeCandidates (i + 1) rest)
    else placeCandidates i rest

/-- Three bytes as one number, the top bit left out. -/
def group (x y z : UInt8) : Exact Int := do
  let middle ← shiftLeft y.toNat 8
  let high ← shiftLeft (z.toNat % 128 : Nat) 16
  add (← add x.toNat middle) high

theorem group_of {x y z : UInt8} {v : Nat}
    (hv : x.toNat + 256 * y.toNat + 65536 * (z.toNat % 128) = v) : group x y z = .ok (v : Int) := by
  have hx := x.toNat_lt
  have hy := y.toNat_lt
  have hmiddle : shiftLeft y.toNat 8 = .ok (256 * y.toNat) :=
    fit_of (by ring) ⟨by omega, by omega⟩
  have hhigh : shiftLeft (z.toNat % 128 : Nat) 16 = .ok (65536 * (z.toNat % 128 : Nat)) :=
    fit_of (by ring) ⟨by omega, by omega⟩
  have hlow : add x.toNat (256 * y.toNat) = .ok (x.toNat + 256 * y.toNat) :=
    fit_of rfl ⟨by omega, by omega⟩
  have hsum : add (x.toNat + 256 * y.toNat) (65536 * (z.toNat % 128 : Nat)) =
      .ok (v : Int) :=
    fit_of (by omega) ⟨by omega, by omega⟩
  rw [group, hmiddle, ok_bind, hhigh, ok_bind, hlow, ok_bind, hsum]

theorem uniformCandidates_cons {x y z : UInt8} {v : Nat}
    (hv : x.toNat + 256 * y.toNat + 65536 * (z.toNat % 128) = v) (rest : Bytes) :
    uniformCandidates (x :: y :: z :: rest) = do
      let later ← uniformCandidates rest
      return if v < modulus then (v : Int) :: later else later := by
  have hgroup : uniformCandidates (x :: y :: z :: rest) = do
      let v ← group x y z
      let later ← uniformCandidates rest
      return if v < modulus then v :: later else later := by
    simp only [uniformCandidates, group, bind_assoc]
  rw [hgroup, group_of hv, ok_bind]
  simp only [Nat.cast_lt]

theorem uniformCandidates_ints (b : Bytes) :
    uniformCandidates b = .ok ((MLDSA.uniformCandidates b).map Int32.toInt) := by
  fun_induction MLDSA.uniformCandidates b with
  | case1 x y z rest v hv ih =>
    have hlt : v < 8380417 := hv
    rw [uniformCandidates_cons rfl, ih, ok_bind, if_pos hv, List.map_cons,
      Int32.toInt_ofNat_of_lt (by omega)]
    rfl
  | case2 x y z rest v hv ih =>
    rw [uniformCandidates_cons rfl, ih, ok_bind, if_neg hv]
    rfl
  | case3 b hb =>
    rw [uniformCandidates]
    · rfl
    · exact hb

theorem sub_nibble {t : Nat} (ht : t ≤ 8) : sub 4 t = .ok (4 - Int32.ofNat t).toInt :=
  fit_of (toInt_four_sub ht).symm (Coeff.toInt_fits _)

theorem secretNibbles_ints (l : List Nat) : secretNibbles l =
    .ok ((l.filterMap fun t => if t ≤ 2 * eta then some (4 - Int32.ofNat t) else none).map
      Int32.toInt) := by
  induction l with
  | nil => rfl
  | cons t rest ih =>
    rw [secretNibbles, ih, ok_bind, List.filterMap_cons]
    by_cases ht : t ≤ 2 * eta
    · have ht8 : t ≤ 8 := ht
      rw [if_pos ht, if_pos ht, sub_nibble ht8]
      rfl
    · rw [if_neg ht, if_neg ht]
      rfl

theorem secretCandidates_ints (b : Bytes) :
    secretCandidates b = .ok ((MLDSA.secretCandidates b).map Int32.toInt) := secretNibbles_ints _

theorem placeCandidates_eq (i : Nat) (b : Bytes) :
    placeCandidates i b = .ok (MLDSA.placeCandidates i b) := by
  induction b generalizing i with
  | nil => rfl
  | cons x rest ih =>
    rw [placeCandidates, MLDSA.placeCandidates, ih, ih, index_of x.toNat_lt]
    split
    · rw [ok_bind, ok_bind, pure_eq_ok]
      exact congrArg (fun j => Except.ok (j :: _)) (Fin.ext (Nat.mod_eq_of_lt x.toNat_lt).symm)
    · rfl

/-! ## Challenges -/

/-- Puts signs one by one, where place `i` is the first that is not in use. -/
def putSigns : (i : Nat) → List (Fin 256 × Bool) → (Fin 256 → Int) → Exact (Fin 256 → Int)
  | _, [], v => return v
  | i, (j, negative) :: rest, v => do
    let sign ← sub 1 (← times 2 (if negative then 1 else 0))
    let place ← index 256 i
    putSigns (i + 1) rest (Function.update (Function.update v place (v j)) j sign)

theorem ints_set (v : Vector Coeff 256) (i : Fin 256) (c : Coeff) :
    ints (v.set i c i.isLt) = Function.update (ints v) i c.toInt := by
  funext j
  rw [Function.update_apply, ints, get_set]
  split
  · rfl
  · rfl

theorem putSigns_ints {i : Nat} {draws : List (Fin 256 × Bool)} (h : i + draws.length ≤ 256)
    (v : Vector Coeff 256) : putSigns i draws (ints v) = .ok (ints (MLDSA.putSigns i draws v)) := by
  induction draws generalizing i v with
  | nil => rfl
  | cons draw draws ih =>
    obtain ⟨j, negative⟩ := draw
    rw [List.length_cons] at h
    have hi : i < 256 := by omega
    have hsign : (do sub 1 (← times 2 (if negative then 1 else 0))) =
        .ok (if negative then (-1 : Coeff) else 1).toInt := by
      cases negative
      · rfl
      · rfl
    have hplace : Fin.ofNat 256 i = ⟨i, hi⟩ := Fin.ext (Nat.mod_eq_of_lt hi)
    have hput : Function.update (Function.update (ints v) ⟨i, hi⟩ (ints v j)) j
        (if negative then (-1 : Coeff) else 1).toInt = ints (putSign v ⟨i, hi⟩ j negative) := by
      rw [putSign, ints_set, ints_set]
      rfl
    rw [putSigns, MLDSA.putSigns, hplace, ← bind_assoc, hsign, ok_bind, index_of hi, ok_bind, hput]
    exact ih (by omega) _

/-- The bits of eight bytes are at least as many as the places. -/
def challengeOf (S : HashSuite) (hash : Bytes) : OptionT Exact (Fin 256 → Int) := do
  let start := S.h.absorb hash
  let signs ← (slice (S.h.block start).bytes 0 8 : Exact Bytes)
  let places ← search S.h (fun k => placeCandidates (256 - tau + k)) tau S.budget [] 8 start
  require (places.length ≤ (bitsOfBytes signs).length)
  (putSigns (256 - tau) (places.zip (bitsOfBytes signs)) fun _ => 0 : Exact _)

/-! ## Polynomials and vectors -/

def ofList (l : List Int) : Exact (Fin 256 → Int) := all fun i => get l i

/-- The number of an input must fit two bytes. -/
def numbered (seed : Octets longHashBytes) (nonce : Nat) : Exact Bytes := do
  require (nonce < 65536)
  return MLDSA.numbered seed nonce

section

variable (S : HashSuite)

def uniformPoly (rho : Octets seedBytes) (i j : UInt8) : OptionT Exact (Fin 256 → Int) := do
  ofList (← search S.g (fun _ => uniformCandidates) 256 S.budget [] 0
    (S.g.absorb (rho.bytes ++ [j, i])))

def secretPoly (seed : Octets longHashBytes) (nonce : Nat) : OptionT Exact (Fin 256 → Int) := do
  let input ← numbered seed nonce
  ofList (← search S.h (fun _ => secretCandidates) 256 S.budget [] 0 (S.h.absorb input))

def maskPoly (seed : Octets longHashBytes) (nonce : Nat) : Exact (Fin 256 → Int) := do
  let input ← numbered seed nonce
  unpackRange 524287 524288 (S.digest zBytes input).bytes

def matrix (rho : Octets seedBytes) : OptionT Exact (Fin rows → Fin columns → Fin 256 → Int) :=
  all fun i : Fin rows => all fun j : Fin columns =>
    uniformPoly S rho (UInt8.ofNat i.val) (UInt8.ofNat j.val)

def secretVec (m : Nat) (seed : Octets longHashBytes) (first : Nat) :
    OptionT Exact (Fin m → Fin 256 → Int) :=
  all fun i : Fin m => secretPoly S seed (first + i.val)

def masks (seed : Octets longHashBytes) (kappa : Nat) : Exact (Fin columns → Fin 256 → Int) :=
  all fun i : Fin columns => maskPoly S seed (columns * kappa + i.val)

end

section

variable {S : HashSuite}

theorem ofList_ints {l : List Coeff} (h : l.length = 256) :
    ofList (l.map Int32.toInt) = .ok (ints (Poly.ofList l).coeffs) := by
  refine all_ok fun i => ?_
  have hi : i.val < l.length := h.symm ▸ i.isLt
  have hword : Poly.ofList l i = l[i.val] :=
    (Poly.ofList_apply l i).trans (List.getD_eq_getElem _ _ hi)
  show _ = Except.ok (Poly.ofList l i).toInt
  rw [get_map Int32.toInt hi, hword]

theorem numbered_of {nonce : Nat} (h : nonce < 65536) (seed : Octets longHashBytes) :
    numbered seed nonce = .ok (MLDSA.numbered seed nonce) := by
  rw [numbered, require_of h]
  rfl

theorem search_ints {rate : Nat} {x : Xof rate} {found : Bytes → List Coeff}
    {found' : Bytes → Exact (List Int)} (h : ∀ b, found' b = .ok ((found b).map Int32.toInt))
    (budget : Nat) (s : x.State) : (search x (fun _ => found') 256 budget [] 0 s).run =
      .ok ((x.search (fun _ => found) 256 budget [] 0 s).map (List.map Int32.toInt)) :=
  search_map (fun _ => h) (Nat.zero_le rate) [] s

theorem uniformPoly_ints (rho : Octets seedBytes) (i j : UInt8) :
    (uniformPoly S rho i j).run = .ok ((S.uniformPoly rho i j).map NttPoly.ints) := by
  refine map_run (search_ints uniformCandidates_ints _ _) fun l hl => ?_
  rw [ofList_ints (Xof.length_of_search hl)]
  rfl

theorem secretPoly_ints {nonce : Nat} (h : nonce < 65536) (seed : Octets longHashBytes) :
    (secretPoly S seed nonce).run = .ok ((S.secretPoly seed nonce).map Poly.ints) := by
  rw [secretPoly, ok_bind_run (numbered_of h seed)]
  refine map_run (search_ints secretCandidates_ints _ _) fun l hl => ?_
  rw [ofList_ints (Xof.length_of_search hl)]
  rfl

theorem maskPoly_ints {nonce : Nat} (h : nonce < 65536) (seed : Octets longHashBytes) :
    maskPoly S seed nonce = .ok (S.maskPoly seed nonce).ints := by
  rw [maskPoly, numbered_of h, ok_bind]
  exact unpackRange_ints (show _ = 20 by decide) (by decide) (by decide) (by decide) (by decide)
    (by decide) (congrArg (8 * ·) (Octets.length_eq _))

theorem matrix_ints (rho : Octets seedBytes) :
    (matrix S rho).run = .ok ((S.matrix rho).map Matrix.ints) := by
  have hrow := fun i : Fin rows => all_run fun j : Fin columns =>
    uniformPoly_ints (S := S) rho (UInt8.ofNat i.val) (UInt8.ofNat j.val)
  rw [HashSuite.matrix, Option.map_map]
  exact all_run hrow

theorem secretVec_ints {m first : Nat} (h : first + m ≤ 65536) (seed : Octets longHashBytes) :
    (secretVec S m seed first).run = .ok ((S.secretVec m seed first).map PolyVec.ints) := by
  rw [HashSuite.secretVec, Option.map_map]
  exact all_run fun i => secretPoly_ints (by omega) seed

theorem masks_ints {kappa : Nat} (h : kappa < maxAttempts) (seed : Octets longHashBytes) :
    masks S seed kappa = .ok (S.masks seed kappa).ints := by
  refine all_ok fun i => ?_
  rw [maskPoly_ints (HashSuite.maskNumber_lt h i)]
  exact congrArg (fun p => Except.ok (Poly.ints p)) (HashSuite.masks_apply seed kappa i).symm

theorem challengeOf_ints (hash : Bytes) :
    (challengeOf S hash).run = .ok ((S.challengeOf hash).map Poly.ints) := by
  have hsigns : slice (S.h.block (S.h.absorb hash)).bytes 0 8 =
      .ok ((S.h.block (S.h.absorb hash)).bytes.take 8) := by
    rw [slice, if_pos ⟨by decide, by rw [Octets.length_eq]; decide⟩]
    rfl
  have hbits : (bitsOfBytes ((S.h.block (S.h.absorb hash)).bytes.take 8)).length = 64 := by
    rw [length_bitsOfBytes, List.length_take, Octets.length_eq]
    rfl
  have hsearch : (search S.h (fun k => placeCandidates (256 - tau + k)) tau S.budget [] 8
      (S.h.absorb hash)).run = .ok ((S.h.search (fun k => MLDSA.placeCandidates (256 - tau + k)) tau
        S.budget [] 8 (S.h.absorb hash)).map id) := by
    rw [Option.map_id]
    exact search_eq (fun k => placeCandidates_eq (256 - tau + k)) (by decide) [] _
  rw [challengeOf, ok_bind_run hsigns]
  refine map_run hsearch fun places hplaces => ?_
  have hlen : places.length = 49 := Xof.length_of_search hplaces
  have hmany : places.length ≤
      (bitsOfBytes ((S.h.block (S.h.absorb hash)).bytes.take 8)).length := by
    rw [hlen, hbits]
    decide
  have hdraws : 256 - tau + (places.zip
      (bitsOfBytes ((S.h.block (S.h.absorb hash)).bytes.take 8))).length ≤ 256 := by
    rw [List.length_zip, hlen, hbits]
    decide
  have hzero : (fun _ => 0) = ints Poly.zero.coeffs :=
    funext fun i => (congrArg Int32.toInt (Poly.zero_apply i)).symm
  rw [id_eq, ok_bind_run (require_of hmany), hzero, putSigns_ints hdraws]
  rfl

end

end Exact

end MLDSA
