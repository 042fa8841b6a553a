import Mathlib.SetTheory.Cardinal.Finite
import MLDSA.Proofs.Challenge

/-! # Challenges are equally likely

A challenge is made from 49 draws of a place and a sign, where draw `k` may take any place up to
`207 + k`. Each challenge comes from as many sequences of draws as there are orders of its signs.
The key fact is that the last draw can be any sign of the result, and fixes what was there before
it. -/

namespace MLDSA

open Coeff

/-! ## Draws -/

/-- A place up to `i`, and whether the sign there is negative. -/
abbrev Draw (i : Nat) := {j : Fin 256 // j.val ≤ i} × Bool

/-- Draws for the places from 207 on. -/
abbrev SignDraws (n : Nat) := (k : Fin n) → Draw (207 + k.val)

def SignDraws.toList {n : Nat} (d : SignDraws n) : List (Fin 256 × Bool) :=
  List.ofFn fun k => ((d k).1.val, (d k).2)

/-- The coefficients after the draws. -/
def SignDraws.run {n : Nat} (d : SignDraws n) : Vector Coeff 256 :=
  putSigns 207 d.toList Poly.zero.coeffs

def signOf (negative : Bool) : Coeff := if negative then -1 else 1

theorem putSigns_append (i : Nat) (l l' : List (Fin 256 × Bool)) (v : Vector Coeff 256) :
    putSigns i (l ++ l') v = putSigns (i + l.length) l' (putSigns i l v) := by
  induction l generalizing i v with
  | nil => rfl
  | cons draw l ih =>
    obtain ⟨j, negative⟩ := draw
    rw [List.cons_append, putSigns, putSigns, ih, List.length_cons, Nat.add_right_comm,
      Nat.add_assoc]

/-- The place that is first used by draw `n`. -/
def freePlace (n : Nat) (hn : n < 49) : Fin 256 := ⟨207 + n, by omega⟩

/-- The last draw and those before it. -/
def snocDraws (n : Nat) : Draw (207 + n) × SignDraws n ≃ SignDraws (n + 1) :=
  Fin.snocEquiv fun k : Fin (n + 1) => Draw (207 + k.val)

theorem run_snoc {n : Nat} (hn : n < 49) (last : Draw (207 + n)) (d : SignDraws n) :
    (snocDraws n (last, d)).run = putSign d.run (freePlace n hn) last.1 last.2 := by
  have hlist : (snocDraws n (last, d)).toList = d.toList ++ [(last.1.val, last.2)] := by
    unfold SignDraws.toList snocDraws
    rw [List.ofFn_succ', List.concat_eq_append]
    simp [Fin.snocEquiv]
  have hplace : Fin.ofNat 256 (207 + n) = freePlace n hn :=
    Fin.ext (Nat.mod_eq_of_lt (freePlace n hn).isLt)
  unfold SignDraws.run
  rw [hlist, putSigns_append, SignDraws.toList, List.length_ofFn, putSigns, putSigns, hplace]

/-! ## One step back -/

/-- What was there before a sign was put at place `j`, where place `i` was free. -/
def unput (v : Vector Coeff 256) (i j : Fin 256) : Vector Coeff 256 :=
  Vector.ofFn fun k => if k = i then 0 else if k = j then v.get i else v.get k

theorem get_unput (v : Vector Coeff 256) (i j k : Fin 256) :
    (unput v i j).get k = if k = i then 0 else if k = j then v.get i else v.get k :=
  Vector.getElem_ofFn k.isLt

theorem ext_get {u v : Vector Coeff 256} (h : ∀ k, u.get k = v.get k) : u = v :=
  Vector.ext fun k hk => h ⟨k, hk⟩

theorem putSign_eq_iff {u v : Vector Coeff 256} {i j : Fin 256} {negative : Bool}
    (hfree : u.get i = 0) :
    putSign u i j negative = v ↔ v.get j = signOf negative ∧ u = unput v i j := by
  constructor
  · rintro rfl
    refine ⟨by rw [get_putSign, Function.update_self]; rfl, ext_get fun k => ?_⟩
    rw [get_unput, get_putSign]
    by_cases hki : k = i
    · rw [if_pos hki, hki, hfree]
    · rw [if_neg hki]
      by_cases hkj : k = j
      · subst hkj
        rw [if_pos rfl, Function.update_of_ne (Ne.symm hki), Function.update_self]
      · rw [if_neg hkj, Function.update_of_ne hkj, Function.update_of_ne hki]
  · rintro ⟨hsign, rfl⟩
    refine ext_get fun k => ?_
    rw [get_putSign]
    by_cases hkj : k = j
    · rw [hkj, Function.update_self, hsign]
      rfl
    · rw [Function.update_of_ne hkj]
      by_cases hki : k = i
      · subst hki
        rw [Function.update_self, get_unput, if_neg (Ne.symm hkj), if_pos rfl]
      · rw [Function.update_of_ne hki, get_unput, if_neg hki, if_neg hkj]

theorem signOf_ne_zero (negative : Bool) : signOf negative ≠ 0 := by
  cases negative <;> decide

theorem signOf_injective : Function.Injective signOf := by decide

theorem signsBelow_unput {v : Vector Coeff 256} {i j : Fin 256} (h : SignsBelow (i + 1) v.get)
    (hle : j ≤ i) {negative : Bool} (hj : v.get j = signOf negative) :
    SignsBelow i (unput v i j).get where
  signs k := by
    rw [get_unput]
    split
    · exact .inl rfl
    · split
      · exact h.signs i
      · exact h.signs k
  free k hk := by
    rw [get_unput]
    by_cases hki : k = i
    · rw [if_pos hki]
    · have hlt : i < k := lt_of_le_of_ne hk (Ne.symm hki)
      rw [if_neg hki, if_neg (hle.trans_lt hlt).ne']
      exact h.free k hlt
  count := by
    have hfree : (unput v i j).get i = 0 := by rw [get_unput, if_pos rfl]
    have hput : putSign (unput v i j) i j negative = v :=
      (putSign_eq_iff hfree).mpr ⟨hj, rfl⟩
    have hsum := totalSize_putSign (unput v i j) i j negative
    have hcount : totalSize v + 207 = i + 1 := h.count
    rw [hput, hfree] at hsum
    show totalSize (unput v i j) + 207 = i
    have hzero : size 0 = 0 := rfl
    omega

/-! ## Counting -/

theorem SignDraws.signsBelow {n : Nat} (hn : n ≤ 49) (d : SignDraws n) :
    SignsBelow (207 + n) d.run.get := by
  induction n with
  | zero =>
    have hzero : d.run.get = fun _ => 0 := funext Poly.zero_apply
    rw [hzero]
    exact signsBelow_zero
  | succ n ih =>
    obtain ⟨⟨last, d⟩, rfl⟩ := (snocDraws n).surjective d
    rw [run_snoc hn]
    exact SignsBelow.putSign (i := freePlace n hn) (ih (Nat.le_of_lt hn) d) last.1.property _

theorem card_last {n : Nat} {v : Vector Coeff 256} (hv : SignsBelow (207 + (n + 1)) v.get) :
    (Finset.univ.filter fun last : Draw (207 + n) => v.get last.1 = signOf last.2).card =
      n + 1 := by
  have hsigns :
      (Finset.univ.filter fun last : Draw (207 + n) => v.get last.1 = signOf last.2).card =
        (Finset.univ.filter fun j : Fin 256 => v.get j ≠ 0).card := by
    refine Finset.card_bij (fun last _ => last.1.val) ?_ ?_ ?_
    · intro last hlast
      rw [Finset.mem_filter] at hlast ⊢
      exact ⟨Finset.mem_univ _, hlast.2.symm ▸ signOf_ne_zero last.2⟩
    · rintro ⟨j, s⟩ hs ⟨j', s'⟩ hs' hj
      rw [Finset.mem_filter] at hs hs'
      obtain rfl : j = j' := Subtype.ext hj
      obtain rfl : s = s' := signOf_injective (hs.2.symm.trans hs'.2)
      rfl
    · intro j hj
      have hne : v.get j ≠ 0 := (Finset.mem_filter.mp hj).2
      have hle : j.val ≤ 207 + n := Nat.not_lt.mp fun hlt => hne (hv.free j hlt)
      obtain ⟨negative, hsign⟩ : ∃ negative, v.get j = signOf negative :=
        ((hv.signs j).resolve_left hne).elim (fun h => ⟨false, h⟩) fun h => ⟨true, h⟩
      exact ⟨(⟨j, hle⟩, negative), Finset.mem_filter.mpr ⟨Finset.mem_univ _, hsign⟩, rfl⟩
  have hsize : totalSize v = (Finset.univ.filter fun j : Fin 256 => v.get j ≠ 0).card :=
    Poly.totalSize_eq_card (c := ⟨v⟩) hv.signs
  have hcount : totalSize v + 207 = 207 + (n + 1) := hv.count
  omega

theorem card_run_eq {n : Nat} (hn : n ≤ 49) {v : Vector Coeff 256}
    (hv : SignsBelow (207 + n) v.get) : Nat.card {d : SignDraws n // d.run = v} = n.factorial := by
  -- Each of the `n + 1` last draws leaves one result for the draws before it.
  induction n generalizing v with
  | zero =>
    have hsize : totalSize v = 0 := Nat.add_right_cancel (hv.count.trans (Nat.add_comm 207 0))
    have hzero : v = Poly.zero.coeffs := ext_get fun j => by
      have hle := size_le_totalSize v j
      rw [hsize] at hle
      rcases hv.signs j with h | h | h
      · exact h.trans (Poly.zero_apply j).symm
      · rw [h] at hle
        exact absurd hle (by decide)
      · rw [h] at hle
        exact absurd hle (by decide)
    refine Nat.card_eq_one_iff_unique.mpr ⟨⟨fun d d' => ?_⟩, ⟨⟨fun k => k.elim0, hzero.symm⟩⟩⟩
    exact Subtype.ext (funext fun k => k.elim0)
  | succ n ih =>
    let before (last : Draw (207 + n)) := unput v (freePlace n hn) last.1
    have hstep : ∀ p : Draw (207 + n) × SignDraws n, (snocDraws n p).run = v ↔
        v.get p.1.1 = signOf p.1.2 ∧ p.2.run = before p.1 := by
      rintro ⟨last, d⟩
      rw [run_snoc hn]
      exact putSign_eq_iff ((d.signsBelow (Nat.le_of_lt hn)).free _ le_rfl)
    have hbefore : ∀ last : Draw (207 + n),
        Nat.card {d : SignDraws n // v.get last.1 = signOf last.2 ∧ d.run = before last} =
          if v.get last.1 = signOf last.2 then n.factorial else 0 := by
      intro last
      split
      · rename_i hlast
        simp only [hlast, true_and]
        exact ih (Nat.le_of_lt hn) (signsBelow_unput (i := freePlace n hn) hv last.1.2 hlast)
      · rename_i hlast
        simp only [hlast, false_and]
        exact Nat.card_of_isEmpty
    calc Nat.card {d : SignDraws (n + 1) // d.run = v}
        = Nat.card (Σ last : Draw (207 + n),
            {d : SignDraws n // v.get last.1 = signOf last.2 ∧ d.run = before last}) :=
          Nat.card_congr (((snocDraws n).subtypeEquiv fun p => (hstep p).symm).symm.trans
            (Equiv.subtypeProdEquivSigmaSubtype fun last (d : SignDraws n) =>
              v.get last.1 = signOf last.2 ∧ d.run = before last))
      _ = ∑ last : Draw (207 + n), if v.get last.1 = signOf last.2 then n.factorial else 0 := by
          rw [Nat.card_sigma]
          exact Finset.sum_congr rfl fun last _ => hbefore last
      _ = (n + 1).factorial := by
          rw [← Finset.sum_filter, Finset.sum_const, card_last hv, smul_eq_mul, Nat.factorial_succ]

/-! ## Challenges -/

theorem Poly.IsChallenge.signsBelow {c : Poly} (h : c.IsChallenge) :
    SignsBelow 256 c.coeffs.get where
  signs := h.1
  free j hj := absurd j.isLt hj.not_gt
  count := congrArg (· + 207) h.totalSize_eq

theorem challengePoly_eq_iff {d : SignDraws 49} {c : Poly} :
    challengePoly d.toList = c ↔ d.run = c.coeffs := by
  constructor
  · rintro rfl
    rfl
  · intro h
    exact congrArg Poly.mk h

theorem le_of_getElem?_placeCandidates {i k : Nat} {b : Bytes} {j : Fin 256}
    (h : (placeCandidates i b)[k]? = some j) : j.val ≤ i + k := by
  induction b generalizing i k with
  | nil => cases h
  | cons x rest ih =>
    rw [placeCandidates] at h
    split at h
    · rename_i hle
      cases k with
      | zero =>
        cases h
        exact (Nat.mod_le x.toNat 256).trans hle
      | succ k =>
        have hrest := ih h
        omega
    · exact ih h

theorem exists_toList_eq {n : Nat} {l : List (Fin 256 × Bool)} (hlen : l.length = n)
    (hle : ∀ k draw, l[k]? = some draw → draw.1.val ≤ 207 + k) :
    ∃ d : SignDraws n, d.toList = l := by
  subst hlen
  refine ⟨fun k => (⟨l[k].1, hle k l[k] (List.getElem?_eq_getElem k.isLt)⟩, l[k].2), ?_⟩
  exact List.ofFn_getElem

theorem HashSuite.exists_draws_of_search {S : HashSuite} {hash : Bytes} {places : List (Fin 256)}
    {signs : List Bool} (h : S.h.search (fun k => placeCandidates (256 - tau + k)) tau S.budget [] 8
      (S.h.absorb hash) = some places) (hsigns : 49 ≤ signs.length) :
    ∃ d : SignDraws 49, d.toList = places.zip signs := by
  have hlen : places.length = 49 := Xof.length_of_search h
  have hfirst := h.symm.trans (search_places S hash rfl rfl)
  rw [eq_comm, Option.ite_none_right_eq_some, Option.some.injEq] at hfirst
  refine exists_toList_eq (by rw [List.length_zip, hlen, Nat.min_eq_left hsigns]) ?_
  intro k draw hdraw
  have hplace := (List.getElem?_zip_eq_some.mp hdraw).1
  rw [← hfirst.2, List.getElem?_take] at hplace
  split at hplace
  · exact le_of_getElem?_placeCandidates hplace
  · cases hplace

/-- Every challenge comes from equally many sequences of draws, nothing else comes from any, and the
sampler draws such a sequence. -/
theorem challenge_draws_uniform :
    (∀ c : Poly, c.IsChallenge →
      Nat.card {d : SignDraws 49 // challengePoly d.toList = c} = Nat.factorial 49) ∧
    (∀ c : Poly, (∃ d : SignDraws 49, challengePoly d.toList = c) ↔ c.IsChallenge) ∧
    ∀ (S : HashSuite) (hash : Bytes) (c : Poly), S.challengeOf hash = some c →
      ∃ (places : List (Fin 256)) (d : SignDraws 49),
        S.h.search (fun k => placeCandidates (256 - tau + k)) tau S.budget [] 8
          (S.h.absorb hash) = some places ∧
        d.toList = places.zip (bitsOfBytes ((S.h.block (S.h.absorb hash)).bytes.take 8)) ∧
        c = challengePoly d.toList := by
  have hcard : ∀ c : Poly, c.IsChallenge →
      Nat.card {d : SignDraws 49 // challengePoly d.toList = c} = Nat.factorial 49 := by
    intro c hc
    simp only [challengePoly_eq_iff]
    exact card_run_eq le_rfl hc.signsBelow
  refine ⟨hcard, fun c => ⟨?_, fun hc => ?_⟩, fun S hash c h => ?_⟩
  · rintro ⟨d, rfl⟩
    exact (d.signsBelow le_rfl).isChallenge
  · have hpos : 0 < Nat.card {d : SignDraws 49 // challengePoly d.toList = c} :=
      hcard c hc ▸ Nat.factorial_pos 49
    obtain ⟨d, hd⟩ := (Nat.card_pos_iff.mp hpos).1
    exact ⟨d, hd⟩
  · simp only [HashSuite.challengeOf, Option.map_eq_some_iff] at h
    obtain ⟨places, hplaces, rfl⟩ := h
    have hsigns : 49 ≤ (bitsOfBytes ((S.h.block (S.h.absorb hash)).bytes.take 8)).length := by
      rw [length_bitsOfBytes, List.length_take, Octets.length_eq]
      decide
    obtain ⟨d, hd⟩ := HashSuite.exists_draws_of_search hplaces hsigns
    exact ⟨places, d, hplaces, hd, by rw [hd]⟩

theorem challenge_draws_uniform_low : ∃ c : Poly, c 0 = 1 ∧ c 48 = -1 ∧
    Nat.card {d : SignDraws 49 // challengePoly d.toList = c} = Nat.factorial 49 ∧
    ∃ d : SignDraws 49, challengePoly d.toList = c := by
  have hc : (Poly.ofFn fun j =>
      if j.val < 24 then 1 else if j.val < 49 then -1 else 0).IsChallenge := by
    refine Poly.isChallenge_ofFn (fun j => ?_) (by decide +kernel)
    split
    · exact .inr (.inl rfl)
    · split
      · exact .inr (.inr rfl)
      · exact .inl rfl
  obtain ⟨hcard, hreached, -⟩ := challenge_draws_uniform
  exact ⟨_, Poly.ofFn_apply .., Poly.ofFn_apply .., hcard _ hc, (hreached _).mpr hc⟩

end MLDSA
