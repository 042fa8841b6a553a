import MLDSA.Proofs.Exact.Ring

/-! # The transforms in place

The two transforms as loops over an array of 256 integers. A layer goes through the array in blocks,
with the number of the node as a counter that no layer resets, and a butterfly puts two results
where it found its two arguments. The key fact is that the array between two layers is a row of what
the recursion has at that height, so the bound of the layer and the bound of the recursion are
one. -/

namespace MLDSA

open Coeff

namespace Exact

/-! ## The loops -/

/-- A direction of the transform: the node after node `k`, its factor, and the butterfly. -/
structure Pass where
  next (k : Nat) : Exact Nat
  factor (k : Nat) : Exact Int
  butterfly (zeta x y : Int) : Exact (Int × Int)

def splitting : Pass where
  next k := .ok (k + 1)
  factor := root
  butterfly zeta x y := do
    let t ← mul zeta y
    let difference ← sub x t
    return (← add x t, difference)

/-- A counter of places does not go below zero. -/
def joining : Pass where
  next k := do
    require (0 < k)
    return k - 1
  factor k := do neg (← root k)
  butterfly zeta x y := do
    let sum ← add x y
    return (sum, ← mul zeta (← sub x y))

/-- Puts the results of `f` at places `j` and `j + len` where its arguments were. -/
def exchange (f : Int → Int → Exact (Int × Int)) (len : Nat) (a : List Int) (j : Nat) :
    Exact (List Int) := do
  let pair ← f (← get a j) (← get a (j + len))
  put (← put a j pair.1) (j + len) pair.2

namespace Pass

/-- The block from place `start` on, which belongs to one node. -/
def block (p : Pass) (len : Nat) (s : Nat × List Int) (start : Nat) : Exact (Nat × List Int) := do
  let k ← p.next s.1
  let zeta ← p.factor k
  return (k, ← (List.range' start len).foldlM (exchange (p.butterfly zeta) len) s.2)

def layer (p : Pass) (len : Nat) (s : Nat × List Int) : Exact (Nat × List Int) :=
  (List.range' 0 (256 / (2 * len)) (2 * len)).foldlM (p.block len) s

end Pass

/-- The layers from the given height down. -/
def splitLayers : (height : Nat) → Nat × List Int → Exact (Nat × List Int)
  | 0, s => .ok s
  | height + 1, s => do splitLayers height (← splitting.layer (span height) s)

/-- The layers up to the given height. -/
def joinLayers : (height : Nat) → Nat × List Int → Exact (Nat × List Int)
  | 0, s => .ok s
  | height + 1, s => do joining.layer (span height) (← joinLayers height s)

def forward (a : List Int) : Exact (List Int) := do
  let s ← splitLayers 8 (0, a)
  return s.2

def backward (a : List Int) : Exact (List Int) := do
  let s ← joinLayers 8 (256, a)
  s.2.mapM (mul 41978)

/-! ## One block -/

section

variable {f : Int → Int → Exact (Int × Int)}

theorem get_append (used : List Int) (x : Int) (rest : List Int) :
    get (used ++ x :: rest) used.length = .ok x := by
  have hlen : used.length < (used ++ x :: rest).length := by simp
  rw [get_of hlen, List.getElem_append_right le_rfl]
  simp

theorem exchange_of {x y u v : Int} (h : f x y = .ok (u, v)) (used between rest : List Int) :
    exchange f (between.length + 1) (used ++ x :: (between ++ y :: rest)) used.length =
      .ok (used ++ u :: (between ++ v :: rest)) := by
  have hplace : ∀ x : Int, used.length + (between.length + 1) = (used ++ x :: between).length := by
    simp
  have hsplit : ∀ x y : Int, used ++ x :: (between ++ y :: rest) =
      (used ++ x :: between) ++ y :: rest := by
    simp
  have hfirst := get_append used x (between ++ y :: rest)
  have hsecond : get (used ++ x :: (between ++ y :: rest)) (used.length + (between.length + 1)) =
      .ok y := by
    rw [hsplit, hplace x]
    exact get_append _ y rest
  have hput : put (used ++ u :: (between ++ y :: rest)) (used.length + (between.length + 1)) v =
      .ok (used ++ u :: (between ++ v :: rest)) := by
    rw [hsplit, hplace u, put_append, ← hsplit]
  rw [exchange, hfirst, ok_bind, hsecond, ok_bind, h, ok_bind, put_append, ok_bind, hput]

theorem foldlM_exchange {n : Nat} {x y u v : Fin n → Int} (h : ∀ i, f (x i) (y i) = .ok (u i, v i))
    (used between rest : List Int) :
    (List.range' used.length n).foldlM (exchange f (n + between.length))
      (used ++ (List.ofFn x ++ (between ++ (List.ofFn y ++ rest)))) =
        .ok (used ++ (List.ofFn u ++ (between ++ (List.ofFn v ++ rest)))) := by
  induction n generalizing used between with
  | zero => rfl
  | succ n ih =>
    have hstep := exchange_of (h 0) used (List.ofFn (fun i : Fin n => x i.succ) ++ between)
      (List.ofFn (fun i : Fin n => y i.succ) ++ rest)
    have hlen : (List.ofFn (fun i : Fin n => x i.succ) ++ between).length + 1 =
        n + 1 + between.length := by
      rw [List.length_append, List.length_ofFn]
      omega
    -- The pair that is done goes to `used` and `between`, so the two places stay as far apart.
    have hrest := ih (fun i => h i.succ) (used ++ [u 0]) (between ++ [v 0])
    have hwidth : n + (between ++ [v 0]).length = n + 1 + between.length := by
      rw [List.length_append, List.length_singleton]
      omega
    rw [hlen] at hstep
    rw [hwidth, List.length_append, List.length_singleton] at hrest
    simp only [List.append_assoc, List.cons_append, List.nil_append] at hstep hrest
    simp only [List.ofFn_succ, List.range'_succ, List.foldlM_cons, List.cons_append]
    rw [hstep, ok_bind, hrest]

end

/-! ## Rows -/

section

variable {n : Nat}

/-- The words of a row one after the other. -/
def flat (row : List (Vector Coeff n)) : List Int := row.flatMap fun b => List.ofFn (ints b)

theorem flat_cons (b : Vector Coeff n) (row : List (Vector Coeff n)) :
    flat (b :: row) = List.ofFn (ints b) ++ flat row := rfl

def halves (row : List (Vector Coeff (n + n))) : List (Vector Coeff n) :=
  row.flatMap fun b => [lowerHalf b, upperHalf b]

theorem halves_cons (b : Vector Coeff (n + n)) (row : List (Vector Coeff (n + n))) :
    halves (b :: row) = lowerHalf b :: upperHalf b :: halves row := rfl

theorem ofFn_ints_append (u v : Vector Coeff n) :
    List.ofFn (ints (u ++ v)) = List.ofFn (ints u) ++ List.ofFn (ints v) := by
  rw [← append_ints, List.ofFn_fin_append]

theorem ofFn_ints_halves (b : Vector Coeff (n + n)) :
    List.ofFn (ints b) = List.ofFn (ints (lowerHalf b)) ++ List.ofFn (ints (upperHalf b)) := by
  rw [← lower_ints, ← upper_ints, ← List.ofFn_fin_append]
  exact congrArg List.ofFn Fin.append_castAdd_natAdd.symm

theorem flat_halves (row : List (Vector Coeff (n + n))) : flat (halves row) = flat row := by
  induction row with
  | nil => rfl
  | cons b row ih => rw [halves_cons, flat_cons, flat_cons, flat_cons, ih, ofFn_ints_halves b,
      List.append_assoc]

theorem length_halves (row : List (Vector Coeff (n + n))) :
    (halves row).length = 2 * row.length := by
  induction row with
  | nil => rfl
  | cons b row ih =>
    rw [halves_cons, List.length_cons, List.length_cons, List.length_cons, ih]
    omega

/-- The block `b` becomes `c` at the node after `k`, and this is node `l`. -/
structure Pass.Turns (p : Pass) (k : Nat) (b : Vector Coeff (n + n)) (l : Nat)
    (c : Vector Coeff (n + n)) : Prop where
  next : p.next k = .ok l
  butterfly : ∃ zeta, p.factor l = .ok zeta ∧
    ∀ i, p.butterfly zeta (ints (lowerHalf b) i) (ints (upperHalf b) i) =
      .ok (ints (lowerHalf c) i, ints (upperHalf c) i)

/-- A row becomes another, block by block, while the counter goes from the one node to the other. -/
inductive Pass.TurnsRow (p : Pass) : Nat → List (Vector Coeff (n + n)) → Nat →
    List (Vector Coeff (n + n)) → Prop where
  | nil (k : Nat) : TurnsRow p k [] k []
  | cons {k l m : Nat} {b c : Vector Coeff (n + n)} {row out : List (Vector Coeff (n + n))}
      (head : p.Turns k b l c) (tail : TurnsRow p l row m out) :
      TurnsRow p k (b :: row) m (c :: out)

variable {p : Pass}

theorem Pass.Turns.block_eq {k l : Nat} {b c : Vector Coeff (n + n)} (h : p.Turns k b l c)
    (used rest : List Int) :
    p.block n (k, used ++ (List.ofFn (ints b) ++ rest)) used.length =
      .ok (l, used ++ (List.ofFn (ints c) ++ rest)) := by
  obtain ⟨hnext, zeta, hfactor, hpair⟩ := h
  have hloop := foldlM_exchange hpair used [] rest
  simp only [List.length_nil, List.nil_append, Nat.add_zero] at hloop
  rw [Pass.block, hnext, ok_bind, hfactor, ok_bind, ofFn_ints_halves b, ofFn_ints_halves c,
    List.append_assoc, List.append_assoc, hloop]
  rfl

theorem Pass.TurnsRow.foldlM_block {k m : Nat} {row out : List (Vector Coeff (n + n))}
    (h : p.TurnsRow k row m out) (used : List Int) :
    (List.range' used.length row.length (2 * n)).foldlM (p.block n) (k, used ++ flat row) =
      .ok (m, used ++ flat out) := by
  induction h generalizing used with
  | nil k => rfl
  | @cons k l m b c row out head _ ih =>
    have hrest := ih (used ++ List.ofFn (ints c))
    have hlen : (used ++ List.ofFn (ints c)).length = used.length + 2 * n := by
      rw [List.length_append, List.length_ofFn]
      omega
    rw [hlen, List.append_assoc] at hrest
    rw [List.length_cons, List.range'_succ, List.foldlM_cons, flat_cons, head.block_eq, ok_bind,
      hrest, flat_cons, List.append_assoc]

theorem Pass.TurnsRow.layer_eq {k m : Nat} {row out : List (Vector Coeff (n + n))}
    (h : p.TurnsRow k row m out) (hn : 0 < n) (hlen : (n + n) * row.length = 256) :
    p.layer n (k, flat row) = .ok (m, flat out) := by
  have hblocks : 256 / (2 * n) = row.length :=
    Nat.div_eq_of_eq_mul_right (by omega) (by rw [← hlen, Nat.two_mul])
  rw [Pass.layer, hblocks]
  exact h.foldlM_block []

end

/-! ## The numbers of a row -/

section

variable {α β : Type}

/-- `f` at the nodes of a row whose numbers go up from `k`. -/
def up (f : Nat → α → β) : Nat → List α → List β
  | _, [] => []
  | k, b :: row => f k b :: up f (k + 1) row

/-- `f` at the nodes of a row whose numbers go down to `k`. -/
def down (f : Nat → α → β) (k : Nat) : List α → List β
  | [] => []
  | b :: row => f (k + row.length) b :: down f k row

@[simp] theorem length_up (f : Nat → α → β) (k : Nat) (row : List α) :
    (up f k row).length = row.length := by
  induction row generalizing k with
  | nil => rfl
  | cons b row ih => rw [up, List.length_cons, ih, List.length_cons]

@[simp] theorem length_down (f : Nat → α → β) (k : Nat) (row : List α) :
    (down f k row).length = row.length := by
  induction row with
  | nil => rfl
  | cons b row ih => rw [down, List.length_cons, ih, List.length_cons]

theorem up_id (k : Nat) (row : List α) : up (fun _ b => b) k row = row := by
  induction row generalizing k with
  | nil => rfl
  | cons b row ih => rw [up, ih]

theorem down_id (k : Nat) (row : List α) : down (fun _ b => b) k row = row := by
  induction row with
  | nil => rfl
  | cons b row ih => rw [down, ih]

end

/-- No word of the row is more than `B` away from zero. -/
def RowWithin {n : Nat} (B : Nat) (row : List (Vector Coeff n)) : Prop :=
  ∀ b ∈ row, ∀ i (h : i < n), size b[i] ≤ B

section

variable {n B : Nat}

theorem lowerHalf_append (u v : Vector Coeff n) : lowerHalf (u ++ v) = u := by
  refine Vector.ext fun i hi => ?_
  rw [getElem_lowerHalf _ _ hi, Vector.getElem_append_left hi]

theorem upperHalf_append (u v : Vector Coeff n) : upperHalf (u ++ v) = v := by
  refine Vector.ext fun i hi => ?_
  rw [getElem_upperHalf _ _ hi]
  simp

theorem RowWithin.singleton {b : Vector Coeff n} (h : ∀ i (hi : i < n), size b[i] ≤ B) :
    RowWithin B [b] := by
  intro c hc
  rw [List.mem_singleton.mp hc]
  exact h

theorem RowWithin.halves {row : List (Vector Coeff (n + n))} (h : RowWithin B row) :
    RowWithin B (halves row) := by
  intro c hc i hi
  obtain ⟨b, hb, hc⟩ := List.mem_flatMap.mp hc
  simp only [List.mem_cons, List.not_mem_nil, or_false] at hc
  rcases hc with rfl | rfl
  · rw [getElem_lowerHalf _ _ hi]
    exact h b hb i (by omega)
  · rw [getElem_upperHalf _ _ hi]
    exact h b hb (n + i) (by omega)

end

/-! ## Butterflies -/

section

variable {zeta x y : Coeff}

theorem splitting_butterfly (hz : size zeta ≤ 4190208)
    (hsum : Fits (x.toInt + (Coeff.mul zeta y).toInt))
    (hdiff : Fits (x.toInt - (Coeff.mul zeta y).toInt)) :
    splitting.butterfly zeta.toInt x.toInt y.toInt =
      .ok ((x + Coeff.mul zeta y).toInt, (x - Coeff.mul zeta y).toInt) := by
  show (do
    let t ← mul zeta.toInt y.toInt
    let difference ← sub x.toInt t
    return (← add x.toInt t, difference)) = _
  rw [mul_constant_toInt hz, ok_bind, sub_toInt hdiff, ok_bind, add_toInt hsum]
  rfl

theorem joining_butterfly (hz : size zeta ≤ 4190208) (hsum : Fits (x.toInt + y.toInt))
    (hdiff : Fits (x.toInt - y.toInt)) :
    joining.butterfly zeta.toInt x.toInt y.toInt =
      .ok ((x + y).toInt, (Coeff.mul zeta (x - y)).toInt) := by
  show (do
    let sum ← add x.toInt y.toInt
    return (sum, ← mul zeta.toInt (← sub x.toInt y.toInt))) = _
  rw [add_toInt hsum, ok_bind, sub_toInt hdiff, ok_bind, mul_constant_toInt hz]
  rfl

variable {n : Nat} (i : Fin n)

theorem ints_map (f : Coeff → Coeff) (v : Vector Coeff n) :
    ints (v.map f) i = (f (v.get i)).toInt :=
  congrArg Int32.toInt (Vector.getElem_map f i.isLt)

theorem ints_zipWith (f : Coeff → Coeff → Coeff) (u v : Vector Coeff n) :
    ints (Vector.zipWith f u v) i = (f (u.get i) (v.get i)).toInt :=
  congrArg Int32.toInt (Vector.getElem_zipWith i.isLt)

end

/-! ## Splitting -/

section

variable {n k B : Nat}

/-- The block with the two remainders at node `k`. -/
def remainders (k : Nat) (b : Vector Coeff (n + n)) : Vector Coeff (n + n) :=
  firstRemainder k b ++ secondRemainder k b

theorem splitting_turns {b : Vector Coeff (n + n)} (hk : k + 1 < 256)
    (hb : ∀ i (h : i < n + n), size b[i] ≤ B) (hB : B + 8380416 ≤ 2147483647) :
    splitting.Turns k b (k + 1) (remainders (k + 1) b) where
  next := rfl
  butterfly := by
    refine ⟨_, root_toInt hk, fun i => ?_⟩
    obtain ⟨hsum, hdiff⟩ := fits_halves (Nat.succ_pos k) hk hb hB i
    rw [Fin.getElem_fin, Fin.getElem_fin, Vector.getElem_map] at hsum hdiff
    rw [remainders, lowerHalf_append, upperHalf_append, firstRemainder, secondRemainder,
      ints_zipWith, ints_zipWith]
    refine (splitting_butterfly (size_root (Nat.succ_pos k) hk) hsum hdiff).trans ?_
    have hproduct : ((upperHalf b).map (Coeff.mul (MLDSA.root (k + 1)))).get i =
        Coeff.mul (MLDSA.root (k + 1)) ((upperHalf b).get i) := Vector.getElem_map _ i.isLt
    rw [hproduct]
    rfl

theorem splitting_turnsRow {row : List (Vector Coeff (n + n))} (hk : k + row.length < 256)
    (hrow : RowWithin B row) (hB : B + 8380416 ≤ 2147483647) :
    splitting.TurnsRow k row (k + row.length) (up remainders (k + 1) row) := by
  induction row generalizing k with
  | nil => exact .nil k
  | cons b row ih =>
    rw [List.length_cons] at hk ⊢
    have hlen : k + (row.length + 1) = k + 1 + row.length := by omega
    rw [hlen]
    exact .cons (splitting_turns (by omega) (hrow b List.mem_cons_self) hB)
      (ih (by omega) fun c hc => hrow c (List.mem_cons_of_mem b hc))

theorem remainders_within {row : List (Vector Coeff (n + n))} (h0 : 0 < k)
    (hk : k + row.length ≤ 256) (hrow : RowWithin B row) (hB : B + 8380416 ≤ 2147483647) :
    RowWithin (B + 8380416) (up remainders k row) := by
  induction row generalizing k with
  | nil =>
    intro b hb
    cases hb
  | cons b row ih =>
    rw [List.length_cons] at hk
    have hb := hrow b List.mem_cons_self
    intro c hc
    rcases List.mem_cons.mp hc with rfl | hc
    · intro i hi
      by_cases hlow : i < n
      · rw [remainders, Vector.getElem_append_left hlow]
        exact (getElem_firstRemainder h0 (by omega) hb hB i hlow).1
      · rw [remainders, Vector.getElem_append_right hi (Nat.le_of_not_lt hlow)]
        exact (getElem_secondRemainder h0 (by omega) hb hB (i - n) (by omega)).1
    · exact ih (Nat.succ_pos k) (by omega) (fun d hd => hrow d (List.mem_cons_of_mem b hd)) c hc

end

theorem flat_splitAll_succ (height k : Nat)
    (row : List (Vector Coeff (span height + span height))) :
    flat (up (MLDSA.splitAll height) (2 * k) (halves (up remainders k row))) =
      flat (up (MLDSA.splitAll (height + 1)) k row) := by
  induction row generalizing k with
  | nil => rfl
  | cons b row ih =>
    have hrest := ih (k + 1)
    rw [show 2 * (k + 1) = 2 * k + 1 + 1 by omega] at hrest
    rw [up, halves_cons, remainders, lowerHalf_append, upperHalf_append, up, up, flat_cons,
      flat_cons, hrest, ← List.append_assoc, ← ofFn_ints_append]
    rfl

theorem splitLayers_succ {height m B : Nat}
    {row : List (Vector Coeff (span height + span height))} (hlen : row.length = m)
    (hm : (span height + span height) * m = 256) (hrow : RowWithin B row)
    (hB : B + 8380416 ≤ 2147483647) :
    splitLayers (height + 1) (m - 1, flat row) =
      splitLayers height (2 * m - 1, flat (halves (up remainders m row))) := by
  have hm0 : 0 < m := Nat.pos_of_mul_pos_left (hm ▸ (by decide : 0 < 256))
  have hpos := span_pos height
  have h256 : m ≤ 128 := by nlinarith
  have hturns := splitting_turnsRow (k := m - 1) (by omega) hrow hB
  rw [Nat.sub_add_cancel hm0, hlen, show m - 1 + m = 2 * m - 1 by omega] at hturns
  rw [splitLayers, hturns.layer_eq hpos (hlen ▸ hm), ok_bind, flat_halves]

/-- The layers of a row of height `height` are the recursion at each of its nodes. -/
theorem splitLayers_flat (height : Nat) {m B : Nat} {row : List (Vector Coeff (span height))}
    (hlen : row.length = m) (hm : span height * m = 256) (hrow : RowWithin B row)
    (hB : B + height * 8380416 ≤ 2147483647) :
    splitLayers height (m - 1, flat row) =
      .ok (255, flat (up (MLDSA.splitAll height) m row)) := by
  induction height generalizing m B with
  | zero =>
    have h256 : m = 256 := (Nat.one_mul m).symm.trans hm
    have hid : up (MLDSA.splitAll 0) m row = row := up_id m row
    rw [hid, h256]
    rfl
  | succ height ih =>
    have hm0 : 0 < m := Nat.pos_of_mul_pos_left (hm ▸ (by decide : 0 < 256))
    have hm' : span height * (2 * m) = 256 := by
      rw [← hm, span_succ]
      ring
    have h256 : 2 * m ≤ 256 := (Nat.le_mul_of_pos_left (2 * m) (span_pos height)).trans_eq hm'
    have hhalves : (halves (up remainders m row)).length = 2 * m :=
      (length_halves _).trans (congrArg (2 * ·) ((length_up _ _ _).trans hlen))
    have hcount : m + row.length ≤ 256 := (Nat.add_le_add_left hlen.le m).trans (by omega)
    have hwithin := (remainders_within hm0 hcount hrow (by omega)).halves
    exact (splitLayers_succ hlen hm hrow (by omega)).trans
      ((ih hhalves hm' hwithin (by omega)).trans
        (congrArg (fun l => Except.ok (255, l)) (flat_splitAll_succ height m row)))

theorem flat_singleton {n : Nat} (v : Vector Coeff n) : flat [v] = List.ofFn (ints v) :=
  List.append_nil _

theorem forward_ints {B : Nat} {p : Poly} (hp : p.Within B) (hB : B ≤ 2080440319) :
    forward (List.ofFn p.ints) = .ok (List.ofFn p.toNtt.ints) := by
  have hrow : RowWithin (n := span 8) B [p.coeffs] := .singleton fun i hi => hp ⟨i, hi⟩
  have hlen : [p.coeffs].length = 1 := rfl
  have hlayers := splitLayers_flat 8 hlen (by decide) hrow (by omega)
  have hstart : splitLayers 8 (0, List.ofFn p.ints) = .ok (255, flat [p.toNtt.values]) := by
    rw [Poly.ints, ← flat_singleton]
    exact hlayers
  rw [forward, hstart, ok_bind, flat_singleton, pure_eq_ok, NttPoly.ints]

/-! ## Joining -/

section

variable {n k B : Nat}

theorem joining_turns {f s : Vector Coeff n} (h0 : 0 < k) (hk : k < 256)
    (hf : ∀ i (h : i < n), size f[i] ≤ B) (hs : ∀ i (h : i < n), size s[i] ≤ B)
    (hB : 2 * B ≤ 2147483647) : joining.Turns (k + 1) (f ++ s) k (joined k f s) where
  next := rfl
  butterfly := by
    have hfactor : joining.factor k = .ok (-MLDSA.root k).toInt := by
      show (do neg (← root k)) = _
      rw [root_toInt hk, ok_bind, neg_toInt (fits_neg_root h0 hk)]
    refine ⟨_, hfactor, fun i => ?_⟩
    obtain ⟨hsum, hdiff⟩ := fits_entries hf hs hB i i.isLt
    rw [joined, lowerHalf_append, upperHalf_append, lowerHalf_append, upperHalf_append,
      ints_zipWith, ints_map]
    refine (joining_butterfly (size_neg_root h0 hk) hsum hdiff).trans ?_
    have hdifference : (Vector.zipWith (· - ·) f s).get i = f.get i - s.get i :=
      Vector.getElem_zipWith i.isLt
    rw [hdifference]
    rfl

end

/-- What the recursion has at the two children of node `k`. -/
def children (height k : Nat) (b : Vector Coeff (span height + span height)) :
    Vector Coeff (span height + span height) :=
  MLDSA.joinAll height (2 * k + 1) (lowerHalf b) ++ MLDSA.joinAll height (2 * k) (upperHalf b)

theorem joining_turnsRow {height k B : Nat} {row : List (Vector Coeff (span height + span height))}
    (h0 : 0 < k) (hk : (span height + span height) * (k + row.length) ≤ 512)
    (hrow : RowWithin B row) (hB : 2 * (2 ^ height * B) ≤ 2147483647) (hq : 8380416 ≤ B) :
    joining.TurnsRow (k + row.length) (down (children height) k row) k
      (down (MLDSA.joinAll (height + 1)) k row) := by
  induction row with
  | nil => exact .nil k
  | cons b row ih =>
    rw [List.length_cons] at hk
    have hnode : span (height + 1) * (k + row.length + 1) ≤ 512 := hk
    obtain ⟨hlt, hk0, hk1⟩ := node_lt hnode
    have hbound : RowWithin B (halves [b]) :=
      RowWithin.halves (.singleton (hrow b List.mem_cons_self))
    have hfirst := (joinAll_ints height (k := 2 * (k + row.length) + 1) (by omega) hk1
      (hbound (lowerHalf b) (by simp [halves])) (by omega) hq).2
    have hsecond := (joinAll_ints height (k := 2 * (k + row.length)) (by omega) hk0
      (hbound (upperHalf b) (by simp [halves])) (by omega) hq).2
    have hroom : (span height + span height) * (k + row.length) ≤ 512 :=
      (Nat.mul_le_mul_left _ (show k + row.length ≤ k + (row.length + 1) by omega)).trans hk
    have htail := ih hroom fun c hc => hrow c (List.mem_cons_of_mem b hc)
    exact .cons (joining_turns (Nat.add_pos_left h0 _) hlt hfirst hsecond hB) htail

theorem flat_joinAll_halves (height k : Nat)
    (row : List (Vector Coeff (span height + span height))) :
    flat (down (MLDSA.joinAll height) (2 * k) (halves row)) =
      flat (down (children height) k row) := by
  induction row with
  | nil => rfl
  | cons b row ih =>
    have hlen := length_halves row
    rw [halves_cons, down, down, flat_cons, flat_cons, ih, down, flat_cons, children,
      ofFn_ints_append, List.append_assoc, List.length_cons, hlen,
      show 2 * k + (2 * row.length + 1) = 2 * (k + row.length) + 1 by omega,
      show 2 * k + 2 * row.length = 2 * (k + row.length) by omega]

theorem joinLayers_succ {height m B : Nat}
    {row : List (Vector Coeff (span height + span height))} (hlen : row.length = m)
    (hm : (span height + span height) * m = 256) (hrow : RowWithin B row)
    (hB : 2 * (2 ^ height * B) ≤ 2147483647) (hq : 8380416 ≤ B)
    (hbelow : joinLayers height (256, flat (halves row)) =
      .ok (2 * m, flat (down (MLDSA.joinAll height) (2 * m) (halves row)))) :
    joinLayers (height + 1) (256, flat row) =
      .ok (m, flat (down (MLDSA.joinAll (height + 1)) m row)) := by
  have hm0 : 0 < m := Nat.pos_of_mul_pos_left (hm ▸ (by decide : 0 < 256))
  have hturns := joining_turnsRow (k := m) hm0
    (by rw [hlen, Nat.mul_add, hm]) hrow hB hq
  rw [hlen, ← Nat.two_mul] at hturns
  rw [joinLayers, ← flat_halves row, hbelow, ok_bind, flat_joinAll_halves,
    hturns.layer_eq (span_pos height) (by rw [length_down, hlen, hm])]
  rfl

/-- The layers up to height `height` are the recursion at each node of the row. -/
theorem joinLayers_flat (height : Nat) {m B : Nat} {row : List (Vector Coeff (span height))}
    (hlen : row.length = m) (hm : span height * m = 256) (hrow : RowWithin B row)
    (hB : 2 ^ height * B ≤ 2147483647) (hq : 8380416 ≤ B) :
    joinLayers height (256, flat row) = .ok (m, flat (down (MLDSA.joinAll height) m row)) := by
  induction height generalizing m with
  | zero =>
    have h256 : m = 256 := (Nat.one_mul m).symm.trans hm
    have hid : down (MLDSA.joinAll 0) m row = row := down_id m row
    rw [hid, h256]
    rfl
  | succ height ih =>
    have hm' : span height * (2 * m) = 256 := by
      rw [← hm, span_succ]
      ring
    have hB' : 2 * (2 ^ height * B) ≤ 2147483647 := by rwa [pow_succ', mul_assoc] at hB
    have hhalves : (halves row).length = 2 * m :=
      (length_halves _).trans (congrArg (2 * ·) hlen)
    exact joinLayers_succ hlen hm hrow hB' hq
      (ih hhalves hm' (RowWithin.halves hrow) (by omega))

theorem mapM_ofFn {n : Nat} {f : Int → Exact Int} {u v : Fin n → Int}
    (h : ∀ i, f (u i) = .ok (v i)) : (List.ofFn u).mapM f = .ok (List.ofFn v) := by
  induction n with
  | zero => rfl
  | succ n ih =>
    rw [List.ofFn_succ, List.mapM_cons, h 0, ok_bind, ih fun i => h i.succ, ok_bind,
      List.ofFn_succ]
    rfl

theorem joinLayers_ints {p : NttPoly} (hp : p.Within 8380416) :
    joinLayers 8 (256, List.ofFn p.ints) =
      .ok (1, List.ofFn (ints (MLDSA.joinAll 8 1 p.values))) := by
  have hrow : RowWithin (n := span 8) 8380416 [p.values] := .singleton fun i hi => hp ⟨i, hi⟩
  have hlen : [p.values].length = 1 := rfl
  have hlayers := joinLayers_flat 8 hlen (by decide) hrow (by decide) le_rfl
  rw [NttPoly.ints, ← flat_singleton, ← flat_singleton]
  exact hlayers

theorem backward_ints {p : NttPoly} (hp : p.Within 8380416) :
    backward (List.ofFn p.ints) = .ok (List.ofFn p.toPoly.ints) := by
  have hscale : (List.ofFn (ints (MLDSA.joinAll 8 1 p.values))).mapM (mul 41978) =
      .ok (List.ofFn p.toPoly.ints) := by
    refine mapM_ofFn fun i => ?_
    exact (mul_constant_toInt (w := inverseScale) (by decide) _).trans
      (congrArg Except.ok (ints_map i (Coeff.mul inverseScale) _).symm)
  rw [backward, joinLayers_ints hp, ok_bind, hscale]

end Exact

/-! ## How far the sums go -/

theorem lowerHalf_replicate {n : Nat} (c : Coeff) :
    lowerHalf (Vector.replicate (n + n) c) = Vector.replicate n c := by
  refine Vector.ext fun i hi => ?_
  rw [getElem_lowerHalf _ _ hi, Vector.getElem_replicate, Vector.getElem_replicate]

theorem upperHalf_replicate {n : Nat} (c : Coeff) :
    upperHalf (Vector.replicate (n + n) c) = Vector.replicate n c := by
  refine Vector.ext fun i hi => ?_
  rw [getElem_upperHalf _ _ hi, Vector.getElem_replicate, Vector.getElem_replicate]

theorem head_joinAll_succ (height k : Nat) (a : Vector Coeff (span height + span height)) :
    (joinAll (height + 1) k a).get ⟨0, span_pos (height + 1)⟩ =
      (joinAll height (2 * k + 1) (lowerHalf a)).get ⟨0, span_pos height⟩ +
        (joinAll height (2 * k) (upperHalf a)).get ⟨0, span_pos height⟩ :=
  (Vector.getElem_append_left (span_pos height)).trans (Vector.getElem_zipWith _)

theorem head_joinAll_replicate (height k : Nat) {c : Coeff}
    (hc : 2 ^ height * size c ≤ 2147483647) :
    ((joinAll height k (Vector.replicate (span height) c)).get ⟨0, span_pos height⟩).toInt =
      2 ^ height * c.toInt := by
  induction height generalizing k with
  | zero => exact (Int.one_mul c.toInt).symm
  | succ height ih =>
    have hhalf : 2 * (2 ^ height * size c) ≤ 2147483647 := by rwa [pow_succ', mul_assoc] at hc
    have hfirst := ih (2 * k + 1) (by omega)
    have hsecond := ih (2 * k) (by omega)
    have hsize : (2 ^ height * c.toInt).natAbs = 2 ^ height * size c := by
      rw [Int.natAbs_mul, Int.natAbs_pow]
      rfl
    have hfits : Fits (2 ^ height * c.toInt + 2 ^ height * c.toInt) := ⟨by omega, by omega⟩
    have hsum := head_joinAll_succ height k (Vector.replicate (span height + span height) c)
    rw [lowerHalf_replicate, upperHalf_replicate] at hsum
    refine (congrArg Int32.toInt hsum).trans ?_
    rw [toInt_add_of_fits (by rwa [hfirst, hsecond]), hfirst, hsecond, pow_succ']
    ring

theorem abs_toInt (a : Coeff) : |a.toInt| = size a := Int.abs_eq_natAbs _

/-- Neither transform stops: no butterfly overflows and no argument of a Montgomery reduction leaves
the domain, as `Exact.montgomery` demands. The eight layers of the forward direction add less than
`8 * q` to any bound that leaves room for it, and what comes out of the backward direction is below
`q` again, although its last sums can be `256 * (q - 1)`. -/
theorem transforms_exact :
    (∀ (B : Nat) (p : Poly), B + 8 * modulus < 2 ^ 31 → (∀ i : Fin 256, |(p i).toInt| ≤ B) →
      Exact.forward (List.ofFn p.ints) = .ok (List.ofFn p.toNtt.ints) ∧
      ∀ i : Fin 256, |(p.toNtt i).toInt| < B + 8 * modulus) ∧
    (∀ p : Poly, (∀ i : Fin 256, |(p i).toInt| < modulus) →
      ∀ i : Fin 256, |(p.toNtt i).toInt| < 9 * modulus) ∧
    (∀ p : NttPoly, (∀ i : Fin 256, |(p i).toInt| < modulus) →
      Exact.backward (List.ofFn p.ints) = .ok (List.ofFn p.toPoly.ints) ∧
      ∀ i : Fin 256, |(p.toPoly i).toInt| < modulus) ∧
    ∃ (p : NttPoly) (s : Fin 256 → Int), (∀ i : Fin 256, |(p i).toInt| < modulus) ∧
      Exact.joinLayers 8 (256, List.ofFn p.ints) = .ok (1, List.ofFn s) ∧
      s 0 = 256 * (modulus - 1) := by
  simp only [abs_toInt, modulus, Nat.cast_ofNat]
  refine ⟨fun B p hB hp => ?_, fun p hp i => ?_, fun p hp => ?_, ?_⟩
  · have hwithin : p.Within B := fun i => by exact_mod_cast hp i
    refine ⟨Exact.forward_ints hwithin (by omega), fun i => ?_⟩
    have hsize := (p.toNtt_spec hwithin (by omega)).1 i
    omega
  · have hwithin : p.Within 8380416 := fun i => Nat.le_of_lt_succ (by exact_mod_cast hp i)
    have hsize := (p.toNtt_spec hwithin (by decide)).1 i
    omega
  · have hwithin : p.Within 8380416 := fun i => Nat.le_of_lt_succ (by exact_mod_cast hp i)
    refine ⟨Exact.backward_ints hwithin, fun i => ?_⟩
    have hsize := (NttPoly.toPoly_spec hwithin).1 i
    omega
  · have hwithin : (⟨Vector.replicate 256 8380416⟩ : NttPoly).Within 8380416 := fun i =>
      (congrArg size (Vector.getElem_replicate i.isLt)).le
    refine ⟨_, _, fun i => ?_, Exact.joinLayers_ints hwithin, ?_⟩
    · have hsize := hwithin i
      omega
    · exact head_joinAll_replicate 8 1 (c := 8380416) (by decide)

theorem transforms_exact_ends :
    2080440311 + 8 * modulus < 2 ^ 31 ∧ 2080440312 + 8 * modulus = 2 ^ 31 ∧
    (∃ p : Poly, (∀ i : Fin 256, (p i).toInt = -2080440311) ∧
      Exact.forward (List.ofFn p.ints) = .ok (List.ofFn p.toNtt.ints)) ∧
    (∃ p : Poly, (∀ i : Fin 256, (p i).toInt = 1 - modulus) ∧
      ∀ i : Fin 256, |(p.toNtt i).toInt| < 9 * modulus) ∧
    ∃ p : NttPoly, (∀ i : Fin 256, (p i).toInt = 1 - modulus) ∧
      Exact.backward (List.ofFn p.ints) = .ok (List.ofFn p.toPoly.ints) := by
  obtain ⟨hforward, hsmall, hbackward, -⟩ := transforms_exact
  have hplace : ∀ (c : Coeff) (i : Fin 256), (Vector.replicate 256 c).get i = c := fun c i =>
    Vector.getElem_replicate i.isLt
  have hsize : |1 - (modulus : Int)| < modulus := by decide
  refine ⟨by decide, by decide, ⟨⟨Vector.replicate 256 (-2080440311)⟩, fun i => ?_, ?_⟩,
    ⟨⟨Vector.replicate 256 (-8380416)⟩, fun i => ?_, ?_⟩,
    ⟨⟨Vector.replicate 256 (-8380416)⟩, fun i => ?_, ?_⟩⟩
  · exact congrArg Int32.toInt (hplace _ i)
  · exact (hforward 2080440311 _ (by decide) fun i => by rw [hplace]; decide).1
  · exact congrArg Int32.toInt (hplace _ i)
  · exact hsmall _ fun i => by rw [hplace]; exact hsize
  · exact congrArg Int32.toInt (hplace _ i)
  · exact (hbackward _ fun i => by rw [hplace]; exact hsize).1

end MLDSA
