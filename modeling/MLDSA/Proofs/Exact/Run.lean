import MLDSA.Proofs.Bytes.Octets
import MLDSA.Proofs.Exact.Word

/-! # Runs over the integers

Places of an array one after the other, results that may be missing, and answers that may be errors.
A run over the integers follows a run of the program if nothing stops it and both end alike; a step
of the one that has a result is passed over, and all other steps are taken together. -/

namespace MLDSA

namespace Exact

/-! ## Places -/

/-- The results at all places, one place after the other. -/
def all {m : Type → Type} [Monad m] {α : Type} : {n : Nat} → (Fin n → m α) → m (Fin n → α)
  | 0, _ => pure Fin.elim0
  | _ + 1, f => do
    let first ← f 0
    let rest ← all fun i => f i.succ
    return Fin.cons first rest

def map {α β : Type} {n : Nat} (f : α → Exact β) (v : Fin n → α) : Exact (Fin n → β) :=
  all fun i => f (v i)

def zipWith {α β γ : Type} {n : Nat} (f : α → β → Exact γ) (u : Fin n → α) (v : Fin n → β) :
    Exact (Fin n → γ) :=
  all fun i => f (u i) (v i)

/-- A place of an array of length `n`. -/
def index (n i : Nat) : Exact (Fin n) := if h : i < n then .ok ⟨i, h⟩ else .error (.index i)

theorem all_ok {α : Type} {n : Nat} {f : Fin n → Exact α} {g : Fin n → α}
    (h : ∀ i, f i = .ok (g i)) : all f = .ok g := by
  induction n with
  | zero => exact congrArg Except.ok (Subsingleton.elim _ _)
  | succ n ih =>
    rw [all, h 0, ok_bind, ih fun i => h i.succ, ok_bind]
    exact congrArg Except.ok (Fin.cons_self_tail g)

theorem index_of {n i : Nat} (h : i < n) : index n i = .ok ⟨i, h⟩ := dif_pos h

/-! ## Arrays -/

section

variable {α : Type}

def get (l : List α) (i : Nat) : Exact α :=
  if h : i < l.length then .ok l[i] else .error (.index i)

def put (l : List α) (i : Nat) (x : α) : Exact (List α) :=
  if i < l.length then .ok (l.set i x) else .error (.index i)

/-- The elements from place `start` up to place `stop`. -/
def slice (l : List α) (start stop : Nat) : Exact (List α) :=
  if start ≤ stop ∧ stop ≤ l.length then .ok ((l.drop start).take (stop - start))
  else .error (.index stop)

/-- The `m` bytes from place `start` on. -/
def part {n : Nat} (b : Octets n) (start m : Nat) : Exact (Octets m) :=
  if h : start + m ≤ n then .ok (b.slice start m h) else .error (.index (start + m))

theorem get_of {l : List α} {i : Nat} (h : i < l.length) : get l i = .ok l[i] := dif_pos h

theorem get_map {β : Type} {l : List α} (f : α → β) {i : Nat} (h : i < l.length) :
    get (l.map f) i = .ok (f l[i]) := by
  rw [get_of (by rwa [List.length_map]), List.getElem_map]

theorem part_of {n start m : Nat} (h : start + m ≤ n) (b : Octets n) :
    part b start m = .ok (b.slice start m h) := dif_pos h

theorem put_append (used : List α) (x y : α) (rest : List α) :
    put (used ++ x :: rest) used.length y = .ok (used ++ y :: rest) := by
  have hlen : used.length < (used ++ x :: rest).length := by simp
  rw [put, if_pos hlen, List.set_append_right _ _ le_rfl, Nat.sub_self, List.set_cons_zero]

end

/-! ## Results that may be missing -/

section

variable {α β : Type} {n : Nat}

theorem ok_bind_run {a : α} {e : Exact α} (h : e = .ok a) (f : α → OptionT Exact β) :
    ((liftM e : OptionT Exact α) >>= f) = f a := by
  rw [h]
  rfl

theorem some_bind_run {a : α} {x : OptionT Exact α} (h : x.run = .ok (some a))
    (f : α → OptionT Exact β) : (x >>= f).run = (f a).run := by
  rw [OptionT.run_bind, h]
  rfl

theorem none_bind_run {x : OptionT Exact α} (h : x.run = .ok none) (f : α → OptionT Exact β) :
    (x >>= f).run = .ok none := by
  rw [OptionT.run_bind, h]
  rfl

theorem bind_run {γ δ : Type} {x : OptionT Exact β} {o : Option α} {g : α → β}
    (hx : x.run = .ok (o.map g)) {k : β → OptionT Exact δ} {l : α → Option γ} {h : γ → δ}
    (hk : ∀ a, o = some a → (k (g a)).run = .ok ((l a).map h)) :
    (x >>= k).run = .ok ((o >>= l).map h) := by
  cases o with
  | none => exact none_bind_run hx k
  | some a => exact (some_bind_run hx k).trans (hk a rfl)

theorem map_run {γ δ : Type} {x : OptionT Exact β} {o : Option α} {g : α → β}
    (hx : x.run = .ok (o.map g)) {k : β → OptionT Exact δ} {f : α → γ} {h : γ → δ}
    (hk : ∀ a, o = some a → (k (g a)).run = .ok (some (h (f a)))) :
    (x >>= k).run = .ok ((o.map f).map h) := by
  have hmap : o.map f = o >>= fun a => some (f a) := Option.map_eq_bind
  rw [hmap]
  exact bind_run hx hk

theorem all_some {f : Fin n → OptionT Exact α} {v : Fin n → α}
    (h : ∀ i, (f i).run = .ok (some (v i))) : (all f).run = .ok (some v) := by
  induction n with
  | zero => exact congrArg (fun v => Except.ok (some v)) (Subsingleton.elim _ _)
  | succ n ih =>
    rw [all, some_bind_run (h 0), some_bind_run (ih fun i => h i.succ)]
    exact congrArg (fun v => Except.ok (some v)) (Fin.cons_self_tail v)

theorem all_none {f : Fin n → OptionT Exact α} {w : Fin n → Option α}
    (h : ∀ i, (f i).run = .ok (w i)) (hw : ∃ i, w i = none) : (all f).run = .ok none := by
  induction n with
  | zero =>
    obtain ⟨i, -⟩ := hw
    exact i.elim0
  | succ n ih =>
    rw [all]
    cases h0 : w 0 with
    | none => exact none_bind_run ((h 0).trans (congrArg _ h0)) _
    | some a =>
      have htail : ∃ i : Fin n, w i.succ = none := by
        obtain ⟨i, hi⟩ := hw
        cases i using Fin.cases with
        | zero => rw [h0] at hi; cases hi
        | succ i => exact ⟨i, hi⟩
      rw [some_bind_run ((h 0).trans (congrArg _ h0))]
      exact none_bind_run (ih (fun i => h i.succ) htail) _

theorem all_run {f : Fin n → OptionT Exact β} {w : Fin n → Option α} {g : α → β}
    (h : ∀ i, (f i).run = .ok ((w i).map g)) :
    (all f).run = .ok ((allSome (Vector.ofFn w)).map fun v i => g (v.get i)) := by
  cases hw : allSome (Vector.ofFn w) with
  | none =>
    refine all_none h (Classical.byContradiction fun hne => ?_)
    have hsome : ∀ i, ∃ a, w i = some a := fun i =>
      Option.ne_none_iff_exists'.mp fun hi => hne ⟨i, congrArg (Option.map g) hi⟩
    choose v hv using hsome
    have hall : allSome (Vector.ofFn w) = some (Vector.ofFn v) :=
      allSome_ofFn_eq_some.mpr fun i => (hv i).trans
        (congrArg some (Vector.getElem_ofFn i.isLt).symm)
    rw [hall] at hw
    cases hw
  | some v =>
    refine all_some fun i => ?_
    rw [h, allSome_ofFn_eq_some.mp hw i]
    rfl

end

/-! ## Answers that may be errors -/

/-- The run over the integers is not stopped, and has the answer of the run of the program. -/
def Follows {ε α β : Type} (x : ExceptT ε (OptionT Exact) β) (y : ExceptT ε Option α) (g : α → β) :
    Prop :=
  x.run.run = .ok (y.run.map (Except.map g))

namespace Follows

variable {ε α β γ δ : Type} {x : ExceptT ε (OptionT Exact) β} {y : ExceptT ε Option α} {g : α → β}
  {h : γ → δ}

theorem pure {a : α} {b : β} (hab : g a = b) :
    Follows (Pure.pure b : ExceptT ε (OptionT Exact) β) (Pure.pure a) g :=
  congrArg (fun b => Except.ok (some (Except.ok b))) hab.symm

theorem throw (e : ε) : Follows (throw e : ExceptT ε (OptionT Exact) β) (throw e) g := rfl

theorem ite {p : Prop} [Decidable p] {x' : ExceptT ε (OptionT Exact) β} {y' : ExceptT ε Option α}
    (hxy : Follows x y g) (hxy' : Follows x' y' g) :
    Follows (if p then x else x') (if p then y else y') g := by
  split
  · exact hxy
  · exact hxy'

theorem guard {p : Prop} [Decidable p] {e : ε} {z : Except ε α}
    (hxz : p → Follows x (ExceptT.mk (some z)) g) :
    Follows (if p then x else MonadExcept.throw e)
      (ExceptT.mk (some (if ¬ p then .error e else z))) g := by
  by_cases hp : p
  · rw [if_pos hp, if_neg (not_not.mpr hp)]
    exact hxz hp
  · rw [if_neg hp, if_pos hp]
    exact .throw e

theorem lift {s : OptionT Exact β} {o : Option α} (hs : s.run = .ok (o.map g)) :
    Follows (liftM s : ExceptT ε (OptionT Exact) β) (liftM o) g := by
  have hrun : (liftM s : ExceptT ε (OptionT Exact) β).run.run = Option.map .ok <$> s.run :=
    OptionT.run_map ..
  rw [Follows, hrun, hs]
  cases o with
  | none => rfl
  | some a => rfl

theorem bind (hxy : Follows x y g) {k : β → ExceptT ε (OptionT Exact) δ}
    {l : α → ExceptT ε Option γ}
    (hkl : ∀ a, y.run = some (.ok a) → Follows (k (g a)) (l a) h) :
    Follows (x >>= k) (y >>= l) h := by
  rw [Follows, ExceptT.run_bind, OptionT.run_bind, hxy, ExceptT.run_bind]
  rcases hy : y.run with _ | (e | a)
  · rfl
  · rfl
  · exact hkl a hy

theorem map {s : OptionT Exact β} {o : Option α} (hs : s.run = .ok (o.map g))
    {k : β → ExceptT ε (OptionT Exact) δ} {f : α → Except ε γ}
    (hk : ∀ a, o = some a → Follows (k (g a)) (ExceptT.mk (some (f a))) h) :
    Follows ((liftM s : ExceptT ε (OptionT Exact) β) >>= k) (ExceptT.mk (o.map f)) h := by
  have hmap : ExceptT.mk (o.map f) = (liftM o >>= fun a => ExceptT.mk (some (f a))) := by
    cases o with
    | none => rfl
    | some a => rfl
  rw [hmap]
  refine (lift hs).bind fun a ha => hk a ?_
  cases o with
  | none => cases ha
  | some b => cases ha; rfl

theorem eq {x : ExceptT ε (OptionT Exact) α} (hxy : Follows x y id) : x.run.run = .ok y.run := by
  have hid : (Except.map id : Except ε α → Except ε α) = id := Except.map_id
  rw [hxy, hid, Option.map_id, id]

theorem ok_bind {a : α} {e : Exact α} (he : e = .ok a) {k : α → ExceptT ε (OptionT Exact) δ}
    {z : ExceptT ε Option γ} (hk : Follows (k a) z h) :
    Follows ((liftM e : ExceptT ε (OptionT Exact) α) >>= k) z h := by
  rw [he]
  exact hk

theorem ok {a : α} {e : Exact β} (he : e = .ok (g a)) :
    Follows (liftM e : ExceptT ε (OptionT Exact) β) (Pure.pure a) g := by
  rw [he]
  rfl

end Follows

end Exact

end MLDSA
