import MLDSA.Bytes.Octets

/-! # Parts of a byte string

Cutting a list into pieces of one length undoes joining such pieces, and a part of an encoding is
found behind the bytes before it. -/

namespace MLDSA

/-! ## Pieces -/

variable {α β : Type}

theorem chunks_flatMap {n : Nat} {f : β → List α} (values : List β) (rest : List α)
    (hf : ∀ v ∈ values, (f v).length = n) :
    chunks n values.length (values.flatMap f ++ rest) = values.map f := by
  induction values with
  | nil => rfl
  | cons v values ih =>
    have hv := hf v List.mem_cons_self
    rw [List.flatMap_cons, List.append_assoc, List.length_cons, chunks, List.take_left' hv,
      List.drop_left' hv, ih fun w hw => hf w (List.mem_cons_of_mem v hw), List.map_cons]

theorem flatten_chunks (n count : Nat) (l : List α) :
    (chunks n count l).flatten = l.take (count * n) := by
  induction count generalizing l with
  | zero => simp [chunks]
  | succ count ih =>
    rw [chunks, List.flatten_cons, ih, Nat.succ_mul, Nat.add_comm, List.take_add]

theorem length_of_mem_chunks {n count : Nat} {l c : List α} (hl : count * n ≤ l.length)
    (hc : c ∈ chunks n count l) : c.length = n := by
  induction count generalizing l with
  | zero => simp [chunks] at hc
  | succ count ih =>
    rw [Nat.succ_mul] at hl
    rcases List.mem_cons.mp hc with rfl | hc
    · rw [List.length_take]
      omega
    · exact ih (by rw [List.length_drop]; omega) hc

theorem length_le_of_mem_chunks {n count : Nat} {l c : List α} (hc : c ∈ chunks n count l) :
    c.length ≤ n := by
  induction count generalizing l with
  | zero => simp [chunks] at hc
  | succ count ih =>
    rcases List.mem_cons.mp hc with rfl | hc
    · exact List.length_take_le n l
    · exact ih hc

theorem getElem_chunks {n count : Nat} {l : List α} {i : Nat} (hi : i < (chunks n count l).length) :
    (chunks n count l)[i] = (l.drop (i * n)).take n := by
  induction count generalizing l i with
  | zero => simp [chunks] at hi
  | succ count ih =>
    cases i with
    | zero => simp [chunks]
    | succ i =>
      rw [length_chunks] at hi
      simp only [chunks, List.getElem_cons_succ]
      rw [ih (by rw [length_chunks]; omega), List.drop_drop, Nat.succ_mul, Nat.add_comm n]

/-! ## Parts -/

namespace Octets

variable {m n : Nat}

theorem slice_eq {b : Octets n} {start len : Nat} {h : start + len ≤ n} {o : Octets len}
    (pre post : Bytes) (hb : b.bytes = pre ++ (o.bytes ++ post)) (hpre : pre.length = start) :
    b.slice start len h = o := by
  apply Octets.ext
  simp only [slice, hb, List.drop_left' hpre]
  exact List.take_left' o.length_eq

theorem slice_eq_of_take {b c : Octets n} {start len k : Nat} (hk : start + len ≤ k)
    (h : start + len ≤ n) (hbc : b.bytes.take k = c.bytes.take k) :
    b.slice start len h = c.slice start len h := by
  have hpart : ∀ l : Bytes, (l.drop start).take len = ((l.take k).drop start).take len := by
    intro l
    rw [List.drop_take, List.take_take, Nat.min_eq_left (by omega)]
  apply Octets.ext
  simp only [slice]
  rw [hpart, hbc, ← hpart]

theorem slice_append (b : Octets n) (start : Nat) {len len' : Nat} (h : start + len + len' ≤ n) :
    b.slice start len (Nat.le_of_add_right_le h) ++ b.slice (start + len) len' h =
      b.slice start (len + len') (by omega) := by
  apply Octets.ext
  rw [bytes_append]
  simp only [slice]
  rw [List.take_add, List.drop_drop]

theorem slice_all (b : Octets n) : b.slice 0 n (by omega) = b :=
  Octets.ext (List.take_of_length_le (Nat.le_of_eq b.length_eq))

theorem bytes_piece {start total : Nat} {b : Octets total} (h : start + m * n ≤ total)
    (i : Fin m) : ((b.slice start (m * n) h).pieces.get i).bytes =
      (b.bytes.drop (start + n * i)).take n := by
  have hle : (i.val + 1) * n ≤ m * n := Nat.mul_le_mul_right n i.isLt
  rw [Nat.succ_mul] at hle
  show (b.slice start (m * n) h).pieces[i.val].bytes = _
  simp only [pieces, Vector.getElem_ofFn, slice]
  rw [List.drop_take, List.drop_drop, List.take_take, Nat.mul_comm n,
    Nat.min_eq_left (by omega)]

theorem pieces_join (v : Vector (Octets n) m) : (join v).pieces = v := by
  ext i hi : 1
  have hlen : (v.toList.take i).length = i := by simp; omega
  have hsplit : v.toList = v.toList.take i ++ v[i] :: v.toList.drop (i + 1) := by
    rw [← Vector.getElem_toList (by simpa using hi), List.getElem_cons_drop, List.take_append_drop]
  rw [pieces, Vector.getElem_ofFn]
  refine slice_eq ((v.toList.take i).flatMap bytes) ((v.toList.drop (i + 1)).flatMap bytes) ?_ ?_
  · refine (congrArg (List.flatMap bytes) hsplit).trans ?_
    simp
  · rw [length_flatMap_bytes, hlen]

theorem bytes_pieces (b : Octets (m * n)) : b.pieces.toList.map bytes = chunks n m b.bytes := by
  apply List.ext_getElem
  · simp
  · intro i h1 h2
    rw [getElem_chunks]
    simp [pieces, slice]

theorem join_pieces (b : Octets (m * n)) : join b.pieces = b := by
  apply Octets.ext
  show b.pieces.toList.flatMap bytes = b.bytes
  rw [List.flatMap_def, bytes_pieces, flatten_chunks, List.take_of_length_le (by simp)]

theorem mem_bytes_iff {b : Octets (m * n)} {x : UInt8} :
    x ∈ b.bytes ↔ ∃ i : Fin m, x ∈ (b.pieces.get i).bytes := by
  have hjoin : b.bytes = b.pieces.toList.flatMap bytes := congrArg bytes (join_pieces b).symm
  rw [hjoin, List.mem_flatMap]
  constructor
  · rintro ⟨o, ho, hx⟩
    obtain ⟨i, hi, rfl⟩ := Vector.mem_iff_getElem.mp (Vector.mem_toList_iff.mp ho)
    exact ⟨⟨i, hi⟩, hx⟩
  · rintro ⟨i, hx⟩
    exact ⟨_, Vector.mem_toList_iff.mpr (Vector.getElem_mem i.isLt), hx⟩

theorem map_pieces_join {α β : Type} {f : α → Octets n} {g : Octets n → β} {h : α → β}
    {v : Vector α m} (hgf : ∀ i : Fin m, g (f (v.get i)) = h (v.get i)) :
    (join (v.map f)).pieces.map g = v.map h := by
  rw [pieces_join, Vector.map_map]
  ext i hi : 1
  rw [Vector.getElem_map, Vector.getElem_map]
  exact hgf ⟨i, hi⟩

theorem join_map_pieces {f : α → Octets n} {g : Octets n → α} (hfg : ∀ o, f (g o) = o)
    (b : Octets (m * n)) : join ((b.pieces.map g).map f) = b := by
  rw [Vector.map_map, show f ∘ g = id from funext hfg, Vector.map_id, join_pieces]

end Octets

/-! ## Places with a value -/

section

variable {n : Nat} {v : Vector α n} {f : α → Option β}

theorem allSome_map_some (v : Vector α n) : allSome (v.map some) = some v :=
  allSome_eq_some.mpr rfl

theorem eq_some_of_allSome_map {w : Vector β n} (h : allSome (v.map f) = some w) (i : Fin n) :
    f (v.get i) = some (w.get i) := by
  have hv : (v.map f).get i = (w.map some).get i := congrArg (·.get i) (allSome_eq_some.mp h)
  rwa [show (v.map f).get i = f (v.get i) from Vector.getElem_map f i.isLt,
    show (w.map some).get i = some (w.get i) from Vector.getElem_map some i.isLt] at hv

theorem Octets.join_of_allSome_pieces {m : Nat} {b : Octets (m * n)} {g : Octets n → Option α}
    {f : α → Octets n} {w : Vector α m} (hgf : ∀ o a, g o = some a → f a = o)
    (h : allSome (b.pieces.map g) = some w) : join (w.map f) = b := by
  have hpieces : w.map f = b.pieces := by
    ext i hi : 1
    rw [Vector.getElem_map]
    exact hgf _ _ (eq_some_of_allSome_map h ⟨i, hi⟩)
  rw [hpieces, join_pieces]

theorem allSome_map_eq_none : allSome (v.map f) = none ↔ ∃ i : Fin n, f (v.get i) = none := by
  have hall : allSome (v.map f) = none ↔ ¬ ∀ (i : Nat) (hi : i < n), (f v[i]).isSome = true := by
    simp [allSome]
  rw [hall]
  constructor
  · intro h
    refine Classical.byContradiction fun hne => h fun i hi => ?_
    exact Option.isSome_iff_ne_none.mpr fun hi' => hne ⟨⟨i, hi⟩, hi'⟩
  · rintro ⟨i, hi⟩ h
    exact Option.isSome_iff_ne_none.mp (h i i.isLt) hi

end

theorem allSome_ofFn_eq_some {α : Type} {n : Nat} {f : Fin n → Option α} {w : Vector α n} :
    allSome (Vector.ofFn f) = some w ↔ ∀ i, f i = some (w.get i) := by
  rw [allSome_eq_some]
  constructor
  · intro h i
    exact (Vector.getElem_ofFn i.isLt).symm.trans
      ((congrArg (·.get i) h).trans (Vector.getElem_map some i.isLt))
  · intro h
    ext i hi : 1
    rw [Vector.getElem_map, Vector.getElem_ofFn]
    exact h ⟨i, hi⟩

end MLDSA
