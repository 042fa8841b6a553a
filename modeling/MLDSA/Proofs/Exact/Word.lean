import MLDSA.Proofs.Ring.Rounding

/-! # Coefficients as exact integers

The functions of a coefficient once more, over the integers. Here a 32-bit operation has its exact
result and stops the run if no word holds it, and a function stops the run if it is applied outside
of its domain. Each function has one lemma: within its bounds nothing stops, and the word of the
program stands for the integer of this run. -/

namespace MLDSA

instance (v : Int) : Decidable (Fits v) := inferInstanceAs (Decidable (_ ∧ _))

/-- What stops a run over the integers. -/
inductive Fault where
  /-- No word holds the result of an operation. -/
  | overflow (value : Int)
  /-- A function is applied outside of its domain. -/
  | domain
  /-- A place is behind the end of its array. -/
  | index (place : Nat)
deriving DecidableEq

/-- A run over the integers. -/
abbrev Exact := Except Fault

namespace Exact

section

variable {α β : Type} {a : α} {f : α → Exact β}

@[simp] theorem ok_bind : (Except.ok a : Exact α) >>= f = f a := rfl

@[simp] theorem pure_eq_ok : (pure a : Exact α) = .ok a := rfl

end

/-! ## Operations -/

def fit (v : Int) : Exact Int := if Fits v then .ok v else .error (.overflow v)

def add (a b : Int) : Exact Int := fit (a + b)

def sub (a b : Int) : Exact Int := fit (a - b)

/-- The product of two words. The product of two residues is `mul`. -/
def times (a b : Int) : Exact Int := fit (a * b)

def neg (a : Int) : Exact Int := fit (-a)

def shiftLeft (a : Int) (bits : Nat) : Exact Int := fit (a * 2 ^ bits)

/-- No shift to the right leaves the words. -/
def shiftRight (a : Int) (bits : Nat) : Int := a >>> bits

/-- A result of 64 bits. -/
def fitLong (v : Int) : Exact Int :=
  if -2 ^ 63 ≤ v ∧ v < 2 ^ 63 then .ok v else .error (.overflow v)

theorem fit_of {v w : Int} (h : w = v) (hv : Fits v) : fit w = .ok v := by
  rw [h]
  exact if_pos hv

/-- The bits that both words have. No bit operation leaves the words. -/
def and (a b : Int) : Int := (Int32.ofInt a &&& Int32.ofInt b).toInt

/-- The bits that one of the words has. -/
def xor (a b : Int) : Int := (Int32.ofInt a ^^^ Int32.ofInt b).toInt

def require (p : Prop) [Decidable p] : Exact Unit := if p then .ok () else .error .domain

theorem require_of {p : Prop} [Decidable p] (h : p) : require p = .ok () := if_pos h

section

variable {a b : Coeff}

theorem add_toInt (h : Fits (a.toInt + b.toInt)) : add a.toInt b.toInt = .ok (a + b).toInt :=
  fit_of (Coeff.toInt_add_of_fits h).symm (Coeff.toInt_fits _)

theorem sub_toInt (h : Fits (a.toInt - b.toInt)) : sub a.toInt b.toInt = .ok (a - b).toInt :=
  fit_of (Coeff.toInt_sub_of_fits h).symm (Coeff.toInt_fits _)

theorem neg_toInt (h : Fits (-a.toInt)) : neg a.toInt = .ok (-a).toInt :=
  fit_of (Coeff.toInt_neg_of_fits h).symm (Coeff.toInt_fits _)

theorem and_toInt (a b : Coeff) : and a.toInt b.toInt = (a &&& b).toInt := by
  rw [and, Int32.ofInt_toInt, Int32.ofInt_toInt]

end

theorem and_comm (a b : Int) : and a b = and b a := congrArg Int32.toInt (Int32.and_comm ..)

theorem and_fifteen {a : Int} (h : Fits a) : and a 15 = a % 16 := by
  have hword := Coeff.toInt_and_fifteen (Int32.ofInt a)
  rwa [Coeff.toInt_ofInt_of_fits h] at hword

theorem shiftRight_eq (a : Int) (bits : Nat) : shiftRight a bits = a / (2 ^ bits : Nat) :=
  Int.shiftRight_eq_div_pow a bits

theorem signMask {a : Int} (h : Fits a) : shiftRight a 31 = if a < 0 then -1 else 0 := by
  obtain ⟨h1, h2⟩ := h
  rw [shiftRight_eq]
  split <;> omega

theorem and_signMask {a : Int} (m : Int) (hm : Fits m) (h : Fits a) :
    and m (shiftRight a 31) = if a < 0 then m else 0 := by
  rw [signMask h]
  split
  · exact (congrArg Int32.toInt Int32.and_neg_one).trans (Coeff.toInt_ofInt_of_fits hm)
  · exact congrArg Int32.toInt Int32.and_zero

theorem xor_signMask {a : Int} (h : Fits a) :
    xor a (shiftRight a 31) - shiftRight a 31 = a.natAbs := by
  rw [signMask h]
  split
  · have hnot : (~~~ Int32.ofInt a).toInt = -a - 1 := by
      rw [Int32.toInt_not, Coeff.toInt_ofInt_of_fits h, Int.bmod_eq_of_le] <;>
        (obtain ⟨h1, h2⟩ := h; omega)
    have hxor : xor a (-1) = -a - 1 := (congrArg Int32.toInt Int32.xor_neg_one).trans hnot
    rw [hxor]
    omega
  · have hxor : xor a 0 = a :=
      (congrArg Int32.toInt Int32.xor_zero).trans (Coeff.toInt_ofInt_of_fits h)
    rw [hxor]
    omega

/-! ## Smaller words of one residue -/

def reduce (a : Int) : Exact Int := do
  require (a ≤ 2 ^ 31 - 2 ^ 22 - 1)
  let sum ← add a 4194304
  let multiple ← times (shiftRight sum 23) 8380417
  sub a multiple

def addModulus (a : Int) : Exact Int := add a (and 8380417 (shiftRight a 31))

def canonical (a : Int) : Exact Int := do addModulus (← reduce a)

def center (a : Int) : Exact Int := do
  let gap ← sub 4190208 a
  sub a (and 8380417 (shiftRight gap 31))

def isBelow (bound a : Int) : Exact Bool := do
  let limit ← sub bound 1
  let t ← center (← canonical a)
  let size ← sub (xor t (shiftRight t 31)) (shiftRight t 31)
  return decide (size ≤ limit)

section

variable {a : Coeff}

theorem reduce_toInt (h : a.toInt ≤ 2143289343) :
    reduce a.toInt = .ok (Coeff.reduce a).toInt := by
  obtain ⟨h1, h2⟩ := Coeff.toInt_fits a
  have hsum : add a.toInt 4194304 = .ok (a.toInt + 4194304) := if_pos ⟨by omega, by omega⟩
  have hshift : shiftRight (a.toInt + 4194304) 23 = (a.toInt + 4194304) / 8388608 :=
    shiftRight_eq ..
  have hmultiple : times ((a.toInt + 4194304) / 8388608) 8380417 =
      .ok ((a.toInt + 4194304) / 8388608 * 8380417) := if_pos ⟨by omega, by omega⟩
  have hdiff : sub a.toInt ((a.toInt + 4194304) / 8388608 * 8380417) =
      .ok (a.toInt - (a.toInt + 4194304) / 8388608 * 8380417) := if_pos ⟨by omega, by omega⟩
  rw [reduce, require_of (by omega), ok_bind, hsum, ok_bind, hshift, hmultiple, ok_bind, hdiff,
    Coeff.toInt_reduce h]

theorem addModulus_toInt (h : a.toInt < 2147483648 - 8380417) :
    addModulus a.toInt = .ok (Coeff.addModulus a).toInt := by
  obtain ⟨h1, h2⟩ := Coeff.toInt_fits a
  rw [addModulus, and_signMask _ (by decide) (Coeff.toInt_fits a), Coeff.toInt_addModulus h, add]
  split
  · exact if_pos ⟨by omega, by omega⟩
  · rw [add_zero]
    exact if_pos (Coeff.toInt_fits a)

theorem canonical_toInt (h : a.toInt ≤ 2143289343) :
    canonical a.toInt = .ok (Coeff.canonical a).toInt := by
  have hb := Coeff.reduce_bounds h
  rw [canonical, reduce_toInt h, ok_bind, addModulus_toInt (by omega)]
  rfl

theorem center_toInt (h0 : -8380417 ≤ a.toInt) (hq : a.toInt < 8380417) :
    center a.toInt = .ok (Coeff.center a).toInt := by
  have hgap : sub 4190208 a.toInt = .ok (4190208 - a.toInt) := if_pos ⟨by omega, by omega⟩
  rw [center, hgap, ok_bind, and_signMask _ (by decide) ⟨by omega, by omega⟩,
    Coeff.toInt_center_eq h0 hq, sub]
  split
  · rw [if_pos (by omega)]
    exact if_pos ⟨by omega, by omega⟩
  · rw [if_neg (by omega), sub_zero]
    exact if_pos (Coeff.toInt_fits a)

theorem natAbs_toInt (h : Fits a.toInt.natAbs) :
    sub (xor a.toInt (shiftRight a.toInt 31)) (shiftRight a.toInt 31) =
      .ok (a.toInt.natAbs : Int) :=
  fit_of (xor_signMask (Coeff.toInt_fits a)) h

theorem isBelow_toInt {bound : Coeff} (hbound : 0 < bound.toInt) (h : a.toInt ≤ 2143289343) :
    isBelow bound.toInt a.toInt = .ok (Coeff.isBelow bound a) := by
  obtain ⟨b1, b2⟩ := Coeff.toInt_fits bound
  have hc := Coeff.toInt_canonical h
  have hlimit : sub bound.toInt 1 = .ok (bound.toInt - 1) := if_pos ⟨by omega, by omega⟩
  have hcenter := Coeff.toInt_center_canonical h
  have hcb := Coeff.centered_bounds a.toInt
  have ht : center (Coeff.canonical a).toInt = .ok (Coeff.center (Coeff.canonical a)).toInt :=
    center_toInt (by omega) (by omega)
  set t := Coeff.center (Coeff.canonical a) with htdef
  have hsize : sub (xor t.toInt (shiftRight t.toInt 31)) (shiftRight t.toInt 31) =
      .ok (t.toInt.natAbs : Int) := natAbs_toInt ⟨by omega, by omega⟩
  rw [isBelow, hlimit, ok_bind, canonical_toInt h, ok_bind, ht, ok_bind, hsize, ok_bind, pure_eq_ok,
    Coeff.isBelow, ← htdef]
  congr 1
  rw [decide_eq_decide, Int32.lt_iff_toInt_lt, Coeff.toInt_abs_of_fits ⟨by omega, by omega⟩,
    Coeff.size]
  omega

end

/-! ## Products -/

/-- The product with the inverse of `q` is meant to wrap around. -/
def montgomery (a : Int) : Exact Int := do
  require (a.natAbs < 8380417 * 2 ^ 31)
  let diff ← fitLong (a - (a * 58728449).bmod (2 ^ 32) * 8380417)
  fit (shiftRight diff 32)

def mul (a b : Int) : Exact Int := do montgomery (← fitLong (a * b))

theorem montgomery_toInt {a : Int64} (h : a.toInt.natAbs < 8380417 * 2 ^ 31) :
    montgomery a.toInt = .ok (Coeff.montgomery a).toInt := by
  obtain ⟨t1, t2⟩ := Coeff.toInt_fits (Coeff.multiplier a)
  have hvalue := Coeff.toInt_montgomery_eq h
  rw [montgomery, require_of h, ok_bind, ← Coeff.toInt_multiplier]
  set diff := a.toInt - (Coeff.multiplier a).toInt * 8380417 with hdiff
  have hlong : fitLong diff = .ok diff := if_pos ⟨by omega, by omega⟩
  rw [hlong, ok_bind, shiftRight_eq, hvalue]
  exact if_pos (hvalue ▸ Coeff.toInt_fits _)

theorem mul_toInt {a b : Coeff} (h : Coeff.size a * Coeff.size b < 8380417 * 2 ^ 31) :
    mul a.toInt b.toInt = .ok (Coeff.mul a b).toInt := by
  have hprod := Coeff.toInt_product a b
  have hlong : fitLong (a.toInt * b.toInt) = .ok (a.toInt64 * b.toInt64).toInt := by
    rw [hprod]
    refine if_pos ?_
    rw [← hprod]
    exact ⟨Int64.le_toInt _, Int64.toInt_lt _⟩
  rw [mul, hlong, ok_bind, montgomery_toInt, Coeff.mul]
  rwa [hprod, Int.natAbs_mul]

theorem mul_constant_toInt {w : Coeff} (hw : Coeff.size w ≤ 4190208) (a : Coeff) :
    mul w.toInt a.toInt = .ok (Coeff.mul w a).toInt := by
  obtain ⟨a1, a2⟩ := Coeff.toInt_fits a
  have ha : Coeff.size a ≤ 2147483648 := by
    unfold Coeff.size
    omega
  exact mul_toInt ((Nat.mul_le_mul hw ha).trans_lt (by decide))

/-! ## Splits and hints -/

def powerSplit (r : Int) : Exact Parts := do
  require (0 ≤ r ∧ r < 8380417)
  let sum ← add r (← shiftLeft 1 12)
  let high := shiftRight (← sub sum 1) 13
  let low ← sub r (← shiftLeft high 13)
  return { high, low }

def bucketSplit (r : Int) : Exact Parts := do
  require (0 ≤ r ∧ r < 8380417)
  let steps := shiftRight (← add r 127) 7
  let sum ← add (← times steps 1025) (← shiftLeft 1 21)
  let high := and (shiftRight sum 22) 15
  let low ← sub r (← times (← times high 2) 261888)
  let gap ← sub 4190208 low
  return { high, low := ← sub low (and (shiftRight gap 31) 8380417) }

def highBits (r : Int) : Exact Int := do return (← bucketSplit r).high

def lowBits (r : Int) : Exact Int := do return (← bucketSplit r).low

def makeHint (z r : Int) : Exact Bool := do
  let h0 ← highBits (← canonical r)
  let h1 ← highBits (← canonical (← add r z))
  return h0 != h1

def useHint (hint : Bool) (r : Int) : Exact Int := do
  let s ← bucketSplit r
  if !hint then return s.high
  else if 0 < s.low then return and (← add s.high 1) 15
  else return and (← sub s.high 1) 15

section

variable {a : Coeff}

theorem powerSplit_toInt (h0 : 0 ≤ a.toInt) (hq : a.toInt < 8380417) : powerSplit a.toInt =
    .ok ⟨(Coeff.powerSplit a).high.toInt, (Coeff.powerSplit a).low.toInt⟩ := by
  obtain ⟨hhigh, hlow⟩ := Coeff.powerSplit_spec h0 hq
  have hsum : add a.toInt 4096 = .ok (a.toInt + 4096) := if_pos ⟨by omega, by omega⟩
  have hup : sub (a.toInt + 4096) 1 = .ok (a.toInt + 4096 - 1) := if_pos ⟨by omega, by omega⟩
  have hshift : shiftRight (a.toInt + 4096 - 1) 13 = (a.toInt + 4095) / 8192 := by
    rw [shiftRight_eq, add_sub_assoc]
    rfl
  have hback : shiftLeft ((a.toInt + 4095) / 8192) 13 = .ok ((a.toInt + 4095) / 8192 * 8192) :=
    if_pos ⟨by omega, by omega⟩
  have hdiff : sub a.toInt ((a.toInt + 4095) / 8192 * 8192) =
      .ok (a.toInt - (a.toInt + 4095) / 8192 * 8192) := if_pos ⟨by omega, by omega⟩
  rw [powerParts_eq] at hhigh hlow
  simp only [powerSplit, require_of (And.intro h0 hq), show shiftLeft 1 12 = .ok 4096 from rfl,
    ok_bind, hsum, hup, hshift, hback, hdiff, hhigh, hlow, pure_eq_ok]

theorem bucketSplit_toInt (h0 : 0 ≤ a.toInt) (hq : a.toInt < 8380417) : bucketSplit a.toInt =
    .ok ⟨(Coeff.bucketSplit a).high.toInt, (Coeff.bucketSplit a).low.toInt⟩ := by
  obtain ⟨hlow, hhigh⟩ := bucketIndex_bounds h0 hq
  obtain ⟨hword, hdist⟩ := Coeff.bucketSplit_spec h0 hq
  rw [bucketParts_eq h0 hq] at hword hdist
  have hindex := Coeff.shifted_quotient h0 hq
  have hsum : add a.toInt 127 = .ok (a.toInt + 127) := if_pos ⟨by omega, by omega⟩
  have hsteps : shiftRight (a.toInt + 127) 7 = (a.toInt + 127) / 128 := shiftRight_eq ..
  have hscaled : times ((a.toInt + 127) / 128) 1025 = .ok ((a.toInt + 127) / 128 * 1025) :=
    if_pos ⟨by omega, by omega⟩
  have hround : add ((a.toInt + 127) / 128 * 1025) 2097152 =
      .ok ((a.toInt + 127) / 128 * 1025 + 2097152) := if_pos ⟨by omega, by omega⟩
  have hshift : shiftRight ((a.toInt + 127) / 128 * 1025 + 2097152) 22 = bucketIndex a.toInt :=
    (shiftRight_eq ..).trans hindex
  have hmod : and (bucketIndex a.toInt) 15 = bucketIndex a.toInt % 16 :=
    and_fifteen ⟨by omega, by omega⟩
  have hnear : -261887 ≤ a.toInt - 523776 * bucketIndex a.toInt ∧
      a.toInt - 523776 * bucketIndex a.toInt ≤ 261888 := by
    unfold bucketIndex
    omega
  set v := bucketIndex a.toInt with hv
  have htwice : times (v % 16) 2 = .ok (v % 16 * 2) := if_pos ⟨by omega, by omega⟩
  have hstart : times (v % 16 * 2) 261888 = .ok (v % 16 * 2 * 261888) :=
    if_pos ⟨by omega, by omega⟩
  have hdiff : sub a.toInt (v % 16 * 2 * 261888) = .ok (a.toInt - v % 16 * 2 * 261888) :=
    if_pos ⟨by omega, by omega⟩
  have hgap : sub 4190208 (a.toInt - v % 16 * 2 * 261888) =
      .ok (4190208 - (a.toInt - v % 16 * 2 * 261888)) := if_pos ⟨by omega, by omega⟩
  have hcenter : sub (a.toInt - v % 16 * 2 * 261888)
      (and (shiftRight (4190208 - (a.toInt - v % 16 * 2 * 261888)) 31) 8380417) =
        .ok (if v = 16 then a.toInt - 8380417 else a.toInt - 523776 * v) := by
    rw [and_comm, and_signMask _ (by decide) ⟨by omega, by omega⟩]
    by_cases h16 : v = 16
    · rw [if_pos h16, if_pos (by omega)]
      exact fit_of (by omega) ⟨by omega, by omega⟩
    · rw [if_neg h16, if_neg (by omega)]
      exact fit_of (by omega) ⟨by omega, by omega⟩
  simp only [bucketSplit, require_of (And.intro h0 hq), ok_bind, hsum, hsteps, hscaled,
    show shiftLeft 1 21 = .ok 2097152 from rfl, hround, hshift, hmod, htwice, hstart, hdiff, hgap,
    hcenter, pure_eq_ok, hword, hdist]
  by_cases h16 : v = 16
  · simp only [h16, if_true]
    rfl
  · simp only [h16, if_false]
    rw [Int.emod_eq_of_lt hlow (by omega)]

theorem highBits_toInt (h0 : 0 ≤ a.toInt) (hq : a.toInt < 8380417) :
    highBits a.toInt = .ok (Coeff.highBits a).toInt := by
  rw [highBits, bucketSplit_toInt h0 hq]
  rfl

theorem lowBits_toInt (h0 : 0 ≤ a.toInt) (hq : a.toInt < 8380417) :
    lowBits a.toInt = .ok (Coeff.lowBits a).toInt := by
  rw [lowBits, bucketSplit_toInt h0 hq]
  rfl

theorem makeHint_toInt {z r : Coeff} (hr : r.toInt ≤ 2143289343) (hz : Fits (r.toInt + z.toInt))
    (hrz : r.toInt + z.toInt ≤ 2143289343) :
    makeHint z.toInt r.toInt = .ok (Coeff.makeHint z r) := by
  have hsum := add_toInt hz
  have hbits : ∀ w : Coeff, w.toInt ≤ 2143289343 →
      highBits (Coeff.canonical w).toInt = .ok (Coeff.highBits (Coeff.canonical w)).toInt := by
    intro w hw
    have hc := Coeff.toInt_canonical hw
    exact highBits_toInt (by omega) (by omega)
  have hrz' : (r + z).toInt ≤ 2143289343 := (Coeff.toInt_add_of_fits hz).trans_le hrz
  rw [makeHint, canonical_toInt hr, ok_bind, hbits r hr, ok_bind, hsum, ok_bind,
    canonical_toInt hrz', ok_bind, hbits _ hrz', ok_bind, pure_eq_ok, Coeff.makeHint]
  congr 1
  exact Bool.eq_iff_iff.mpr (by simp only [bne_iff_ne, ne_eq, Int32.toInt_inj])

theorem useHint_toInt (hint : Bool) (h0 : 0 ≤ a.toInt) (hq : a.toInt < 8380417) :
    useHint hint a.toInt = .ok (Coeff.useHint hint a).toInt := by
  have hhigh := Coeff.toInt_bucketHigh h0 hq
  set s := Coeff.bucketSplit a with hs
  have hone : (1 : Coeff).toInt = 1 := rfl
  have hup : add s.high.toInt 1 = .ok (s.high + 1).toInt :=
    add_toInt (b := 1) ⟨by rw [hone]; omega, by rw [hone]; omega⟩
  have hdown : sub s.high.toInt 1 = .ok (s.high - 1).toInt :=
    sub_toInt (b := 1) ⟨by rw [hone]; omega, by rw [hone]; omega⟩
  have hlow : 0 < s.low.toInt ↔ 0 < s.low := (Int32.lt_iff_toInt_lt (x := 0)).symm
  rw [useHint, bucketSplit_toInt h0 hq, ok_bind, ← hs, Coeff.useHint, ← hs, hup, hdown]
  cases hint
  · rfl
  · by_cases hside : 0 < s.low
    · rw [if_pos (hlow.mpr hside), if_pos hside]
      exact congrArg Except.ok (and_toInt (s.high + 1) 15)
    · rw [if_neg (mt hlow.mp hside), if_neg hside]
      exact congrArg Except.ok (and_toInt (s.high - 1) 15)

end

end Exact

end MLDSA
