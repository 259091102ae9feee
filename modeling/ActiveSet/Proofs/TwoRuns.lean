import ActiveSet.Proofs.Bounds
import ActiveSet.Proofs.PivotRule
import Mathlib.Algebra.Order.Group.MinMax

/-! The two runs by which a linear program is solved. The first dictionary says how far each row is missed from the
start; the run that makes the excesses small ends in a dictionary in which no row has an excess and a slack at once.
The second run keeps the excesses that are left, and its point is the cheapest that does. -/

namespace ActiveSet

theorem Row.room_eq {n : ℕ} (row : Row n) (x : ℕ → ℚ) :
    row.room x = row.rhs - ∑ j ∈ Finset.range n, row.coefficients j * x j := Dictionary.ascend_sub n _ _

theorem Row.room_congr {n : ℕ} (row : Row n) {x y : ℕ → ℚ} (h : ∀ j < n, x j = y j) : row.room x = row.room y := by
  rw [Row.room_eq, Row.room_eq, Finset.sum_congr rfl fun j hj => by rw [h j (Finset.mem_range.1 hj)]]

namespace LinearProgram

open Dictionary

variable {n w : ℕ} {rows : Array (Row n)} {x v : ℕ → ℚ} {give : ℚ} {i : ℕ}

def rowOf (rows : Array (Row n)) (i : ℕ) : Row n := rows.getD i ⟨0, 0⟩

section Initial

theorem initial_basic (hi : i < rows.size) : (initial w rows x give).basic i = w + 2 * n + i :=
  Vec.get_ofFn_of_lt _ hi

theorem initial_others {j : ℕ} (hj : j < 2 * n + w) :
    (initial w rows x give).others j = if j < 2 * n then w + j else j - 2 * n := Vec.get_ofFn_of_lt _ hj

theorem initial_table {j : ℕ} (hi : i < rows.size) (hj : j < 2 * n + w) :
    (initial w rows x give).table i j =
      if j < n then (rowOf rows i).coefficients j
      else if j < 2 * n then -(rowOf rows i).coefficients (j - n)
      else if j - 2 * n = i then -1 else 0 := by
  simp [initial, rowOf, hi, hj]

theorem initial_rhs (hi : i < rows.size) :
    (initial w rows x give).rhs i =
      if (rowOf rows i).room x < -give then (rowOf rows i).room x else max ((rowOf rows i).room x) 0 := by
  simp only [initial, Vec.get_ofFn_of_lt _ hi]
  rfl

theorem initial_label {k : ℕ} (hk : k < rows.size + (2 * n + w)) :
    (initial w rows x give).label k =
      if k < rows.size then w + 2 * n + k
      else if k < rows.size + 2 * n then w + (k - rows.size) else k - rows.size - 2 * n := by
  rcases lt_or_ge k rows.size with h | h
  · rw [label_basic _ h, initial_basic h, if_pos h]
  · obtain ⟨j, rfl⟩ := Nat.exists_eq_add_of_le h
    rw [label_others, initial_others (by omega)]
    split_ifs <;> omega

theorem labelled_initial : (initial w rows x give).Labelled := by
  intro k hk l hl h
  rw [initial_label hk, initial_label hl] at h
  simp only [Set.mem_Iio] at hk hl
  split_ifs at h <;> omega

theorem exists_label {m : ℕ} (hm : m < w + 2 * n + rows.size) :
    ∃ k < rows.size + (2 * n + w), (initial w rows x give).label k = m := by
  rcases lt_or_ge m w with h | h
  · exact ⟨rows.size + 2 * n + m, by omega, by rw [initial_label (by omega)]; split_ifs <;> omega⟩
  · rcases lt_or_ge m (w + 2 * n) with h' | h'
    · exact ⟨rows.size + (m - w), by omega, by rw [initial_label (by omega)]; split_ifs <;> omega⟩
    · exact ⟨m - (w + 2 * n), by omega, by rw [initial_label (by omega)]; split_ifs <;> omega⟩

theorem sum_initial (f : ℕ → ℚ) :
    ∑ l ∈ Finset.range (2 * n + w), f l =
      ∑ j ∈ Finset.range n, (f j + f (n + j)) + ∑ k ∈ Finset.range w, f (2 * n + k) := by
  rw [Finset.sum_range_add, two_mul, Finset.sum_range_add, Finset.sum_add_distrib]

theorem weigh_initial (hi : i < rows.size) :
    (initial w rows x give).weigh ((initial w rows x give).table i) v =
      ∑ j ∈ Finset.range n, (rowOf rows i).coefficients j * (v (w + j) - v (w + n + j)) -
        if i < w then v i else 0 := by
  have halves : ∀ j ∈ Finset.range n,
      (initial w rows x give).table i j * v ((initial w rows x give).others j) +
        (initial w rows x give).table i (n + j) * v ((initial w rows x give).others (n + j)) =
      (rowOf rows i).coefficients j * (v (w + j) - v (w + n + j)) := by
    intro j hj
    have hj := Finset.mem_range.1 hj
    have hup : j < 2 * n := by omega
    have hdown : n + j < 2 * n := by omega
    rw [initial_table hi (by omega), initial_table hi (by omega), initial_others (by omega),
      initial_others (by omega), if_pos hj, if_pos hup, if_neg (by omega), if_pos hdown, if_pos hdown,
      Nat.add_sub_cancel_left, ← Nat.add_assoc]
    ring
  have excesses : ∀ k ∈ Finset.range w,
      (initial w rows x give).table i (2 * n + k) * v ((initial w rows x give).others (2 * n + k)) =
        if k = i then -v k else 0 := by
    intro k hk
    have hk := Finset.mem_range.1 hk
    have hnot : ¬2 * n + k < 2 * n := by omega
    rw [initial_table hi (by omega), initial_others (by omega), if_neg (by omega), if_neg hnot, if_neg hnot,
      Nat.add_sub_cancel_left]
    split_ifs <;> ring
  rw [weigh, sum_initial, Finset.sum_congr rfl halves, Finset.sum_congr rfl excesses,
    Finset.sum_ite_eq' (Finset.range w) i]
  simp only [Finset.mem_range]
  split_ifs <;> ring

def moved (w n : ℕ) (x v : ℕ → ℚ) (j : ℕ) : ℚ := x j + (v (w + j) - v (w + n + j))

theorem room_moved (hv : (initial w rows x give).Solves v) (hi : i < rows.size) :
    (rowOf rows i).room (moved w n x v) =
      (rowOf rows i).room x - (initial w rows x give).rhs i + v (w + 2 * n + i) - if i < w then v i else 0 := by
  have hrow := hv i hi
  rw [initial_basic hi, weigh_initial hi] at hrow
  simp only [Row.room_eq, moved, mul_add, Finset.sum_add_distrib]
  linear_combination -hrow

theorem overlooked_le (hgive : 0 ≤ give) (hi : i < rows.size) :
    -give ≤ (rowOf rows i).room x - (initial w rows x give).rhs i ∧
      (rowOf rows i).room x - (initial w rows x give).rhs i ≤ 0 := by
  rw [initial_rhs hi]
  split_ifs with h
  · simpa using hgive
  · rcases max_cases ((rowOf rows i).room x) 0 with ⟨heq, -⟩ | ⟨heq, hlt⟩ <;> rw [heq]
    · simpa using hgive
    · constructor <;> linarith

theorem initial_rhs_of_nonneg (hgive : 0 ≤ give) (hi : i < rows.size) (h : 0 ≤ (rowOf rows i).room x) :
    (initial w rows x give).rhs i = (rowOf rows i).room x := by
  rw [initial_rhs hi, if_neg (by linarith), max_eq_left h]

end Initial

section Phases

variable {fuel r : ℕ} {D E : Dictionary r (2 * n + w)}

/-- What the pivots on the first `t` excesses have done: the rows from `t` on are as they were. -/
structure Raised (t : ℕ) (D E : Dictionary r (2 * n + w)) : Prop where
  relabelled : D.Relabelled E
  solves : ∀ v, E.Solves v ↔ D.Solves v
  nonneg : ∀ i < t, i < r → 0 ≤ E.rhs i
  rhs_eq : ∀ i, t ≤ i → i < r → E.rhs i = D.rhs i
  column : ∀ i < r, ∀ k, t ≤ k → k < w → E.table i (2 * n + k) = if k = i then -1 else 0

theorem Raised.succ {t : ℕ} (h : Raised t D E) (ht : t < w) (hr : t < r) :
    Raised (t + 1) D (if E.rhs t < 0 then E.pivot t (2 * n + t) else E) := by
  have hcol : ∀ i < r, E.table i (2 * n + t) = if t = i then -1 else 0 := fun i hi => h.column i hi t le_rfl ht
  have hpivot : E.table t (2 * n + t) = -1 := by rw [hcol t hr, if_pos rfl]
  have hp : E.table t (2 * n + t) ≠ 0 := by rw [hpivot]; norm_num
  have hj : 2 * n + t < 2 * n + w := by omega
  split_ifs with hneg
  · refine ⟨h.relabelled.trans (relabelled_pivot hr hj), fun v => (solves_pivot_iff hr hj hp).trans (h.solves v),
      fun i hi hir => ?_, fun i hi hir => ?_, fun i hi k hk hkw => ?_⟩
    · rw [rhs_pivot E _ _ hir]
      split_ifs with hit
      · rw [hpivot, div_neg, div_one]
        linarith
      · rw [hcol i hir, if_neg (Ne.symm hit), zero_mul, sub_zero]
        exact h.nonneg i (by omega) hir
    · rw [rhs_pivot E _ _ hir, if_neg (by omega), hcol i hir, if_neg (by omega), zero_mul, sub_zero]
      exact h.rhs_eq i (by omega) hir
    · have hkt : 2 * n + k ≠ 2 * n + t := by omega
      rw [table_pivot E _ _ hi (by omega), line, if_neg hkt, if_neg hkt, hcol i hi, h.column i hi k (by omega) hkw,
        h.column t hr k (by omega) hkw, if_neg (by omega : k ≠ t), zero_div, mul_zero, sub_zero]
      refine ite_eq_right_iff.2 fun hit => ?_
      rw [if_neg (by omega)]
  · refine ⟨h.relabelled, h.solves, fun i hi hir => ?_, fun i hi hir => h.rhs_eq i (by omega) hir,
      fun i hi k hk hkw => h.column i hi k (by omega) hkw⟩
    rcases Nat.lt_succ_iff_lt_or_eq.1 hi with hi | rfl
    · exact h.nonneg i hi hir
    · exact not_lt.1 hneg

theorem raised (hwr : w ≤ r) (hcol : ∀ i < r, ∀ k < w, D.table i (2 * n + k) = if k = i then -1 else 0) :
    Raised w D (ascend w (fun D i => if D.rhs i < 0 then D.pivot i (2 * n + i) else D) D) := by
  refine ascend_keeps (p := fun t E => Raised t D E)
    ⟨.refl D, fun _ => Iff.rfl, by omega, fun _ _ _ => rfl, fun i hi k _ hk => hcol i hi k hk⟩ w fun t E ht hE => ?_
  exact hE.succ ht (by omega)

theorem initial_column {k : ℕ} (hi : i < rows.size) (hk : k < w) :
    (initial w rows x give).table i (2 * n + k) = if k = i then -1 else 0 := by
  rw [initial_table hi (by omega), if_neg (by omega), if_neg (by omega), Nat.add_sub_cancel_left]

theorem worth_initial (cost v : ℕ → ℚ) :
    (initial w rows x give).worth cost v =
      ∑ i ∈ Finset.range rows.size, cost (w + 2 * n + i) * v (w + 2 * n + i) +
        (∑ j ∈ Finset.range n, (cost (w + j) * v (w + j) + cost (w + n + j) * v (w + n + j)) +
          ∑ k ∈ Finset.range w, cost k * v k) := by
  have places : ∀ j ∈ Finset.range n,
      cost ((initial w rows x give).others j) * v ((initial w rows x give).others j) +
        cost ((initial w rows x give).others (n + j)) * v ((initial w rows x give).others (n + j)) =
      cost (w + j) * v (w + j) + cost (w + n + j) * v (w + n + j) := by
    intro j hj
    have hj := Finset.mem_range.1 hj
    rw [initial_others (by omega), initial_others (by omega), if_pos (by omega), if_pos (by omega), ← Nat.add_assoc]
  have excesses : ∀ k ∈ Finset.range w,
      cost ((initial w rows x give).others (2 * n + k)) * v ((initial w rows x give).others (2 * n + k)) =
      cost k * v k := by
    intro k hk
    have hk := Finset.mem_range.1 hk
    rw [initial_others (by omega), if_neg (by omega), Nat.add_sub_cancel_left]
  rw [worth, Finset.sum_range_add]
  congr 1
  · exact Finset.sum_congr rfl fun i hi => by
      rw [label_basic _ (Finset.mem_range.1 hi), initial_basic (Finset.mem_range.1 hi)]
  · simp only [label_others]
    rw [sum_initial, Finset.sum_congr rfl places, Finset.sum_congr rfl excesses]

/-- The dictionary in which the first run ends: a basic solution of the first one with the smallest sum of excesses. -/
structure Relaxed (D E : Dictionary r (2 * n + w)) : Prop where
  relabelled : D.Relabelled E
  feasible : E.Feasible
  solves : ∀ v, E.Solves v ↔ D.Solves v
  least : ∀ v, D.Solves v → (∀ m, 0 ≤ v m) → ∑ k ∈ Finset.range w, E.value k ≤ ∑ k ∈ Finset.range w, v k

theorem worth_excess (v : ℕ → ℚ) :
    (initial w rows x give).worth (fun number => if number < w then 1 else 0) v = ∑ k ∈ Finset.range w, v k := by
  have slacks : ∀ i ∈ Finset.range rows.size, (if w + 2 * n + i < w then 1 else 0) * v (w + 2 * n + i) = 0 := by
    intro i _
    rw [if_neg (by omega), zero_mul]
  have steps : ∀ j ∈ Finset.range n, (if w + j < w then 1 else 0) * v (w + j) +
      (if w + n + j < w then 1 else 0) * v (w + n + j) = 0 := fun j _ => by
    rw [if_neg (by omega), if_neg (by omega), zero_mul, zero_mul, add_zero]
  rw [worth_initial, Finset.sum_eq_zero slacks, Finset.sum_eq_zero steps, zero_add, zero_add]
  exact Finset.sum_congr rfl fun k hk => by rw [if_pos (Finset.mem_range.1 hk), one_mul]

section First

variable (hw : w ≤ rows.size) (hrest : ∀ i, w ≤ i → i < rows.size → 0 ≤ (initial w rows x give).rhs i)

include hw hrest

/-- After the pivots on the excesses the first run can begin. -/
theorem raised_initial :
    let F := ascend w (fun D i => if D.rhs i < 0 then D.pivot i (2 * n + i) else D) (initial w rows x give)
    Raised w (initial w rows x give) F ∧ F.Labelled ∧ F.Feasible := by
  have hraised := raised (D := initial w rows x give) hw fun i hi k hk => initial_column hi hk
  refine ⟨hraised, hraised.relabelled.labelled labelled_initial, fun i hi => ?_⟩
  rcases lt_or_ge i w with hiw | hiw
  · exact hraised.nonneg i hiw hi
  · exact hraised.rhs_eq i hiw hi ▸ hrest i hiw hi

theorem relaxed_spec {E : Dictionary rows.size (2 * n + w)} (h : relaxed w fuel (initial w rows x give) = some E) :
    Relaxed (initial w rows x give) E := by
  obtain ⟨hraised, hlabelled, hfeasible⟩ := raised_initial hw hrest
  obtain ⟨hE, hcheap⟩ := minimize_withCost hlabelled hfeasible (fun i _ hlt => absurd hlt (Nat.not_lt_zero _)) h
  refine ⟨hraised.relabelled.trans hE.relabelled, hE.feasible,
    fun v => (hE.equivalent.solves v).trans (hraised.solves v), fun v hv hv0 => ?_⟩
  have hle := hcheap v ((hraised.solves v).2 hv) (fun k _ _ => hv0 _) fun k _ hlt => absurd hlt (Nat.not_lt_zero _)
  rwa [hraised.relabelled.worth_eq, hraised.relabelled.worth_eq, worth_excess, worth_excess] at hle

/-- A sum of excesses has a minimum, so the first run gives something if it is not cut short. -/
theorem relaxed_isSome (hfuel : (rows.size + (2 * n + w)).choose rows.size ≤ fuel) :
    ∃ E, relaxed w fuel (initial w rows x give) = some E := by
  obtain ⟨hraised, hlabelled, hfeasible⟩ := raised_initial hw hrest
  rw [← Option.ne_none_iff_exists']
  intro hnone
  obtain ⟨v, -, hv0, -, hlt⟩ := minimize_withCost_none hlabelled hfeasible
    (fun i _ hlt => absurd hlt (Nat.not_lt_zero _)) hfuel hnone 0
  rw [hraised.relabelled.worth_eq, worth_excess] at hlt
  exact absurd hlt (not_lt.2 (Finset.sum_nonneg fun k _ => hv0 k))

end First

theorem exists_basic_of_value_ne {m : ℕ} (h : D.value m ≠ 0) : ∃ i < r, D.basic i = m := by
  by_contra hnot
  exact h (value_of_not_basic fun i hi him => hnot ⟨i, hi, him⟩)

/-- A row does not have an excess and a slack at once: the two could grow together for ever, and a basic solution
leaves no such freedom. -/
theorem Relaxed.excess_or_slack {E : Dictionary rows.size (2 * n + w)} (h : Relaxed (initial w rows x give) E)
    {k : ℕ} (hk : k < w) : E.value k = 0 ∨ E.value (w + 2 * n + k) = 0 := by
  have hE := h.relabelled.labelled labelled_initial
  by_contra hnot
  obtain ⟨hexcess, hslack⟩ := not_or.1 hnot
  obtain ⟨p, hp, hpk⟩ := exists_basic_of_value_ne hexcess
  obtain ⟨q, hq, hqk⟩ := exists_basic_of_value_ne hslack
  -- both grown by one and all else as it is: a solution too, and no other variable of `E` has moved
  let v : ℕ → ℚ := fun m => E.value m + if m = k ∨ m = w + 2 * n + k then 1 else 0
  have hfar : ∀ m, m ≠ k → m ≠ w + 2 * n + k → v m = E.value m := fun m h1 h2 => by simp [v, h1, h2]
  have hvk : v k = E.value k + 1 := by simp [v]
  have hvs : v (w + 2 * n + k) = E.value (w + 2 * n + k) + 1 := by simp [v]
  have hvalue := (h.solves _).1 (solves_value hE)
  have hv : (initial w rows x give).Solves v := by
    intro i hi
    have hrow := hvalue i hi
    rw [initial_basic hi, weigh_initial hi] at hrow ⊢
    have hsteps : ∑ j ∈ Finset.range n, (rowOf rows i).coefficients j * (v (w + j) - v (w + n + j)) =
        ∑ j ∈ Finset.range n, (rowOf rows i).coefficients j * (E.value (w + j) - E.value (w + n + j)) := by
      refine Finset.sum_congr rfl fun j hj => ?_
      have hj := Finset.mem_range.1 hj
      rw [hfar (w + j) (by omega) (by omega), hfar (w + n + j) (by omega) (by omega)]
    rw [hsteps]
    by_cases hik : i = k
    · subst hik
      rw [if_pos hk] at hrow ⊢
      rw [hvk, hvs]
      linear_combination hrow
    · rw [hfar (w + 2 * n + i) (by omega) (by omega)]
      split_ifs at hrow ⊢ with hiw
      · rw [hfar i hik (by omega)]
        exact hrow
      · exact hrow
  have hrow := (h.solves v).2 hv p hp
  have hrow' := solves_value hE p hp
  have hweigh : E.weigh (E.table p) v = E.weigh (E.table p) E.value :=
    Finset.sum_congr rfl fun l hl => by
      have hl := Finset.mem_range.1 hl
      rw [hfar _ (hpk ▸ (hE.basic_ne hp hl).symm) (hqk ▸ (hE.basic_ne hq hl).symm)]
  rw [hpk, hvk, hweigh] at hrow
  rw [hpk] at hrow'
  linarith

/-- Values of the variables with the excesses that the first run has left. -/
structure Kept (D E : Dictionary r (2 * n + w)) (v : ℕ → ℚ) : Prop where
  nonneg : ∀ m, 0 ≤ v m
  solves : D.Solves fun m => if m < w then E.value m else v m

section Second

variable {cost : ℕ → ℚ} {E F G : Dictionary rows.size (2 * n + w)}

/-- The excesses let go: from now on they are counted from the values that they have. -/
theorem released (hE : Relaxed (initial w rows x give) E) :
    let G := ascend rows.size (release w) E
    E.Shifted w G ∧ G.Held w ∧ (initial w rows x give).Relabelled G ∧ G.Labelled := by
  obtain ⟨hshift, hheld⟩ := @release_ascend _ _ E w (hE.relabelled.labelled labelled_initial) hE.feasible _ le_rfl
  have hfrom := hE.relabelled.trans hshift.relabelled
  exact ⟨hshift, hheld, hfrom, hfrom.labelled labelled_initial⟩

section Shift

variable (hE : Relaxed (initial w rows x give) E) (hshift : E.Shifted w G)
  (hfrom : (initial w rows x give).Relabelled G)

include hE hshift

/-- With the excesses counted from zero again, a solution of the released dictionary is one of the first. -/
theorem solves_shifted_iff : G.Solves v ↔ (initial w rows x give).Solves fun m => v m + (E.value m - G.value m) :=
  (hshift.solves v).trans (hE.solves _)

include hfrom

theorem kept_of_solves (hv : G.Solves v) (hv0 : ∀ m, 0 ≤ v m)
    (hkeep : ∀ k < rows.size + (2 * n + w), G.label k < w → v (G.label k) = G.value (G.label k)) :
    Kept (initial w rows x give) E v := by
  have hexcess : ∀ m < w, v m = G.value m := by
    intro m hm
    obtain ⟨k, hk, rfl⟩ : ∃ k < rows.size + (2 * n + w), (initial w rows x give).label k = m :=
      exists_label (by omega)
    obtain ⟨σ, hσ, hlab⟩ := hfrom
    have hlt : σ.symm k < rows.size + (2 * n + w) := (hσ _).1 (by simpa using hk)
    have hplace : G.label (σ.symm k) = (initial w rows x give).label k := by
      rw [hlab _ hlt, Equiv.apply_symm_apply]
    rw [← hplace] at hm ⊢
    exact hkeep _ hlt hm
  have hvalue : (fun m => v m + (E.value m - G.value m)) = fun m => if m < w then E.value m else v m := by
    funext m
    split_ifs with hm
    · rw [hexcess m hm, add_sub_cancel]
    · rw [hshift.value_eq m (by omega), sub_self, add_zero]
  exact ⟨hv0, hvalue ▸ (solves_shifted_iff hE hshift).1 hv⟩

omit hE hshift in
theorem worth_released (hcost : ∀ m < w, cost m = 0) {u : ℕ → ℚ} (h : ∀ m, w ≤ m → v m = u m) :
    G.worth cost v = (initial w rows x give).worth cost u := by
  rw [← hfrom.worth_eq]
  refine Finset.sum_congr rfl fun k _ => ?_
  rcases lt_or_ge (G.label k) w with hm | hm
  · rw [hcost _ hm, zero_mul, zero_mul]
  · rw [h _ hm]

end Shift

variable (hcost : ∀ m < w, cost m = 0) (hE : Relaxed (initial w rows x give) E)

include hcost hE

/-- What the second run ends in: the cheapest of the solutions with these excesses. -/
theorem settled_spec (h : ((ascend rows.size (release w) E).withCost cost).minimize w fuel = some F) :
    Kept (initial w rows x give) E F.value ∧
      ∀ v, (initial w rows x give).Solves v → (∀ m, 0 ≤ v m) → (∀ m < w, v m = E.value m) →
        (initial w rows x give).worth cost F.value ≤ (initial w rows x give).worth cost v := by
  obtain ⟨hshift, hheld, hfrom, hlabelled⟩ := released hE
  set G := ascend rows.size (release w) E
  obtain ⟨hF, hcheap⟩ := minimize_withCost hlabelled hshift.feasible hheld h
  refine ⟨kept_of_solves hE hshift hfrom (hF.solves_value hlabelled) (value_nonneg hF.feasible) fun k hk hlt =>
    hF.value_eq hlabelled hheld hk hlt, fun v hv hv0 hve => ?_⟩
  have hvG : G.Solves fun m => v m - (E.value m - G.value m) := (solves_shifted_iff hE hshift).2 (by simpa using hv)
  have hfar : ∀ m, w ≤ m → v m - (E.value m - G.value m) = v m := fun m hm => by
    rw [hshift.value_eq m hm, sub_self, sub_zero]
  have hle := hcheap _ hvG (fun k _ hge => by rw [hfar _ hge]; exact hv0 _) fun k _ hlt => by
    rw [hve _ hlt, sub_sub_cancel]
  rwa [worth_released hfrom hcost fun _ _ => rfl, worth_released hfrom hcost hfar] at hle

/-- If the second run gives nothing though it is not cut short, the cost has no minimum. -/
theorem settled_none (hfuel : (rows.size + (2 * n + w)).choose rows.size ≤ fuel)
    (h : ((ascend rows.size (release w) E).withCost cost).minimize w fuel = none) (bound : ℚ) :
    ∃ v, Kept (initial w rows x give) E v ∧ (initial w rows x give).worth cost v < bound := by
  obtain ⟨hshift, hheld, hfrom, hlabelled⟩ := released hE
  obtain ⟨v, hv, hv0, hkeep, hlt⟩ := minimize_withCost_none hlabelled hshift.feasible hheld hfuel h bound
  rw [worth_released hfrom hcost fun _ _ => rfl] at hlt
  exact ⟨v, kept_of_solves hE hshift hfrom hv hv0 hkeep, hlt⟩

end Second

end Phases

end LinearProgram

end ActiveSet
