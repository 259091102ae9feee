import ActiveSet.Proofs.TwoRuns
import Mathlib.Algebra.Order.Group.MinMax

/-! The point that a linear program is solved by. An excess that is left is at most what may be missed, since its row
has no slack, so the point of the second run meets the rows and is the cheapest point that does. A run that is not cut
short fails only if no point meets the rows or the cost has no minimum. -/

namespace ActiveSet

theorem Row.room_unit {n j : ℕ} (hj : j < n) (a rhs : ℚ) (y : ℕ → ℚ) :
    (⟨Vec.ofFn fun k => if k = j then a else 0, rhs⟩ : Row n).room y = rhs - a * y j := by
  rw [Row.room_eq]
  dsimp only
  rw [Finset.sum_congr rfl fun k hk => by rw [Vec.get_ofFn_of_lt _ (Finset.mem_range.1 hk), ite_mul, zero_mul],
    Finset.sum_ite_eq' (Finset.range n) j, if_pos (Finset.mem_range.2 hj)]

theorem Row.ofInterval_iff {n j : ℕ} (hj : j < n) (v : Interval) (y : ℕ → ℚ) :
    (∀ row ∈ (Row.ofInterval j v : List (Row n)), 0 ≤ row.room y) ↔ v.Allows (y j) := by
  obtain ⟨lower, upper⟩ := v
  cases lower <;> cases upper <;> simp [Row.ofInterval, Interval.Allows, Row.room_unit hj, and_comm]

namespace Reduction

variable {n : ℕ}

/-- The rows are missed by no more than `slack`, and the unknowns without a known value are where their intervals
allow. -/
structure Meets (s : Reduction n) (slack : ℚ) (x : ℕ → ℚ) : Prop where
  rows : ∀ row ∈ s.rows, -slack ≤ row.room x
  bounds : ∀ j ∈ s.unsettled, (s.bounds j).Allows (x j)

def drive (s : Reduction n) (j : ℕ) : ℚ := if (s.bounds j).value?.isSome then 0 else s.cost j

def price (s : Reduction n) (x : ℕ → ℚ) : ℚ := ∑ j ∈ Finset.range n, s.drive j * x j

def ends (s : Reduction n) : List (Row n) := s.unsettled.flatMap fun j => Row.ofInterval j (s.bounds j)

theorem ends_iff (s : Reduction n) (y : ℕ → ℚ) :
    (∀ row ∈ s.ends, 0 ≤ row.room y) ↔ ∀ j ∈ s.unsettled, (s.bounds j).Allows (y j) := by
  simp only [ends, List.mem_flatMap, forall_exists_index, and_imp]
  rw [forall_comm]
  refine forall_congr' fun j => ?_
  rw [forall_comm]
  refine forall_congr' fun hj => ?_
  exact Row.ofInterval_iff (List.mem_range.1 (List.mem_filter.1 hj).1) _ y

end Reduction

namespace LinearProgram

open Dictionary

variable {n w : ℕ} {rows : Array (Row n)} {x v : ℕ → ℚ} {give : ℚ} {i : ℕ}

section Point

variable {E : Dictionary rows.size (2 * n + w)} {cost : ℕ → ℚ}

theorem reached_eq (D : Dictionary rows.size (2 * n + w)) (x : ℕ → ℚ) {j : ℕ} (hj : j < n) :
    reached w D x j = moved w n x D.value j := Vec.get_ofFn_of_lt _ hj

theorem Relaxed.room (h : Relaxed (initial w rows x give) E) (hi : i < rows.size) :
    (rowOf rows i).room (moved w n x E.value) =
      (rowOf rows i).room x - (initial w rows x give).rhs i + E.value (w + 2 * n + i) -
        if i < w then E.value i else 0 :=
  room_moved ((h.solves _).1 (solves_value (h.relabelled.labelled labelled_initial))) hi

theorem Kept.room (h : Kept (initial w rows x give) E v) (hi : i < rows.size) :
    (rowOf rows i).room (moved w n x v) =
      (rowOf rows i).room x - (initial w rows x give).rhs i + v (w + 2 * n + i) - if i < w then E.value i else 0 := by
  have hroom := room_moved h.solves hi
  beta_reduce at hroom
  have hmoved : moved w n x (fun m => if m < w then E.value m else v m) = moved w n x v := funext fun j => by
    rw [moved, if_neg (by omega), if_neg (by omega), moved]
  rw [hmoved, if_neg (by omega : ¬w + 2 * n + i < w)] at hroom
  rw [hroom]
  split_ifs <;> rfl

/-- An excess is no more than what may be overlooked of its row. -/
theorem Relaxed.excess_le {allowed : ℚ} (h : Relaxed (initial w rows x give) E) (hw : w ≤ rows.size) (hgive : 0 ≤ give)
    (hallowed : give ≤ allowed) (hi : i < w) (hroom : -allowed ≤ (rowOf rows i).room (moved w n x E.value)) :
    -allowed ≤ (rowOf rows i).room x - (initial w rows x give).rhs i - E.value i := by
  have hir : i < rows.size := by omega
  rw [h.room hir, if_pos hi] at hroom
  rcases h.excess_or_slack hi with hzero | hzero
  · rw [hzero, sub_zero]
    linarith [(overlooked_le (x := x) hgive hir (w := w)).1]
  · rw [hzero, add_zero] at hroom
    exact hroom

theorem worth_splitCost (cost v : ℕ → ℚ) :
    (initial w rows x give).worth (splitCost w n cost) v =
      ∑ j ∈ Finset.range n, cost j * (v (w + j) - v (w + n + j)) := by
  have slacks : ∀ i ∈ Finset.range rows.size, splitCost w n cost (w + 2 * n + i) * v (w + 2 * n + i) = 0 := by
    intro i _
    rw [splitCost, if_neg (by omega), if_neg (by omega), if_neg (by omega), zero_mul]
  have steps : ∀ j ∈ Finset.range n, splitCost w n cost (w + j) * v (w + j) +
      splitCost w n cost (w + n + j) * v (w + n + j) = cost j * (v (w + j) - v (w + n + j)) := by
    intro j hj
    have hj := Finset.mem_range.1 hj
    rw [splitCost, if_neg (by omega), if_pos (by omega), Nat.add_sub_cancel_left, splitCost, if_neg (by omega),
      if_neg (by omega), if_pos (by omega), show w + n + j - w - n = j by omega]
    ring
  have excesses : ∀ k ∈ Finset.range w, splitCost w n cost k * v k = 0 := fun k hk => by
    rw [splitCost, if_pos (Finset.mem_range.1 hk), zero_mul]
  rw [worth_initial, Finset.sum_eq_zero slacks, Finset.sum_congr rfl steps, Finset.sum_eq_zero excesses, zero_add,
    add_zero]

theorem splitCost_excess (cost : ℕ → ℚ) : ∀ m < w, splitCost w n cost m = 0 := fun _ hm => if_pos hm

theorem sum_moved (cost v : ℕ → ℚ) :
    ∑ j ∈ Finset.range n, cost j * moved w n x v j =
      ∑ j ∈ Finset.range n, cost j * x j + (initial w rows x give).worth (splitCost w n cost) v := by
  rw [worth_splitCost, ← Finset.sum_add_distrib]
  exact Finset.sum_congr rfl fun j _ => mul_add _ _ _

/-- The values of the variables that stand for the point `y` and given excesses. -/
def lifted (w : ℕ) (rows : Array (Row n)) (x : ℕ → ℚ) (give : ℚ) (excess y : ℕ → ℚ) (m : ℕ) : ℚ :=
  if m < w then excess m
  else if m < w + n then max (y (m - w) - x (m - w)) 0
  else if m < w + 2 * n then max (x (m - w - n) - y (m - w - n)) 0
  else if m < w + 2 * n + rows.size then
    (initial w rows x give).rhs (m - w - 2 * n) - (rowOf rows (m - w - 2 * n)).room x +
      (rowOf rows (m - w - 2 * n)).room y + if m - w - 2 * n < w then excess (m - w - 2 * n) else 0
  else 0

theorem lifted_excess {excess y : ℕ → ℚ} {m : ℕ} (hm : m < w) : lifted w rows x give excess y m = excess m := if_pos hm

theorem lifted_step (excess y : ℕ → ℚ) {j : ℕ} (hj : j < n) :
    lifted w rows x give excess y (w + j) - lifted w rows x give excess y (w + n + j) = y j - x j := by
  have hup : lifted w rows x give excess y (w + j) = max (y j - x j) 0 := by
    rw [lifted, if_neg (by omega), if_pos (by omega), Nat.add_sub_cancel_left]
  have hdown : lifted w rows x give excess y (w + n + j) = max (-(y j - x j)) 0 := by
    rw [lifted, if_neg (by omega), if_neg (by omega), if_pos (by omega), neg_sub,
      show w + n + j - w - n = j by omega]
  rw [hup, hdown, max_zero_sub_max_neg_zero_eq_self]

theorem solves_lifted (excess y : ℕ → ℚ) : (initial w rows x give).Solves (lifted w rows x give excess y) := by
  intro i hi
  have hslack : lifted w rows x give excess y (w + 2 * n + i) =
      (initial w rows x give).rhs i - (rowOf rows i).room x + (rowOf rows i).room y +
        if i < w then excess i else 0 := by
    rw [lifted, if_neg (by omega), if_neg (by omega), if_neg (by omega), if_pos (by omega),
      show w + 2 * n + i - w - 2 * n = i by omega]
  have hsteps : ∑ j ∈ Finset.range n, (rowOf rows i).coefficients j *
      (lifted w rows x give excess y (w + j) - lifted w rows x give excess y (w + n + j)) =
        (rowOf rows i).room x - (rowOf rows i).room y := by
    rw [Finset.sum_congr rfl fun j hj => by rw [lifted_step excess y (Finset.mem_range.1 hj), mul_sub],
      Finset.sum_sub_distrib, Row.room_eq, Row.room_eq]
    ring
  have hexcess : (if i < w then lifted w rows x give excess y i else 0) = if i < w then excess i else 0 :=
    ite_congr rfl (fun h => lifted_excess h) fun _ => rfl
  rw [initial_basic hi, weigh_initial hi, hslack, hsteps, hexcess]
  ring

theorem lifted_nonneg {excess y : ℕ → ℚ} (hgive : 0 ≤ give) (hexcess : ∀ m, 0 ≤ excess m)
    (hy : ∀ i < rows.size, 0 ≤ (rowOf rows i).room y) (m : ℕ) : 0 ≤ lifted w rows x give excess y m := by
  unfold lifted
  split_ifs with h1 h2 h3 h4
  · exact hexcess m
  · exact le_max_right _ _
  · exact le_max_right _ _
  · have hi : m - w - 2 * n < rows.size := by omega
    linarith [hy _ hi, (overlooked_le (x := x) (w := w) hgive hi).2, hexcess (m - w - 2 * n)]
  · have hi : m - w - 2 * n < rows.size := by omega
    linarith [hy _ hi, (overlooked_le (x := x) (w := w) hgive hi).2]
  · exact le_rfl

theorem worth_lifted (cost excess y : ℕ → ℚ) :
    (initial w rows x give).worth (splitCost w n cost) (lifted w rows x give excess y) =
      ∑ j ∈ Finset.range n, cost j * y j - ∑ j ∈ Finset.range n, cost j * x j := by
  rw [worth_splitCost, ← Finset.sum_sub_distrib]
  exact Finset.sum_congr rfl fun j hj => by rw [lifted_step excess y (Finset.mem_range.1 hj), mul_sub]

/-- If a row is still missed after the first run, no point meets all rows. -/
theorem Relaxed.missed {allowed : ℚ} (h : Relaxed (initial w rows x give) E) (hw : w ≤ rows.size) (hgive : 0 ≤ give)
    (hallowed : give ≤ allowed) (hi : i < w) (hmissed : (rowOf rows i).room (moved w n x E.value) < -allowed)
    (y : ℕ → ℚ) : ∃ k < rows.size, (rowOf rows k).room y < 0 := by
  by_contra hnot
  push Not at hnot
  have hle := h.least (lifted w rows x give 0 y) (solves_lifted _ _) (lifted_nonneg hgive (fun _ => le_rfl) hnot)
  rw [Finset.sum_congr rfl fun k hk => lifted_excess (Finset.mem_range.1 hk), Pi.zero_def,
    Finset.sum_const_zero] at hle
  have hzero : E.value i = 0 := by
    refine le_antisymm ?_ (value_nonneg h.feasible i)
    exact (Finset.single_le_sum (fun k _ => value_nonneg h.feasible k) (Finset.mem_range.2 hi)).trans hle
  rw [h.room (by omega), if_pos hi, hzero, sub_zero] at hmissed
  have := (overlooked_le (x := x) (w := w) hgive (by omega : i < rows.size)).1
  linarith [value_nonneg h.feasible (w + 2 * n + i)]

end Point

section Runs

variable {s : Reduction n} {p : LinearProgram n} {fuel : ℕ}

def anchor (s : Reduction n) : Vec ℚ n := Vec.ofFn fun j => (s.bounds j).anchor

def missed (s : Reduction n) (x : Vec ℚ n) : Bool := s.rows.any fun row => decide (row.room x < -Interval.give)

def overlooked (s : Reduction n) : ℚ := if missed s (anchor s) then 0 else Interval.give

theorem overlooked_bounds (s : Reduction n) : 0 ≤ overlooked s ∧ overlooked s ≤ Interval.give := by
  have := Interval.give_nonneg
  unfold overlooked
  split_ifs <;> constructor <;> linarith

def allRows (s : Reduction n) : Array (Row n) := (s.rows ++ s.ends).toArray

def seen (s : Reduction n) : Dictionary (allRows s).size (2 * n + s.rows.length) :=
  initial s.rows.length (allRows s) (anchor s) (overlooked s)

def secondRun (fuel : ℕ) (s : Reduction n) (E : Dictionary (allRows s).size (2 * n + s.rows.length)) :
    Option (Dictionary (allRows s).size (2 * n + s.rows.length)) :=
  ((ascend (allRows s).size (release s.rows.length) E).withCost
    (splitCost s.rows.length n s.drive)).minimize s.rows.length fuel

theorem minimize_eq (hs : p.reduced = some s) :
    p.minimize fuel = (relaxed s.rows.length fuel (seen s)).bind fun E =>
      if missed s (reached s.rows.length E (anchor s)) then none
      else (secondRun fuel s E).map fun F => reached s.rows.length F (anchor s) := by
  unfold minimize
  rw [hs]
  show (relaxed s.rows.length fuel (seen s)).bind _ = _
  refine congrArg (relaxed s.rows.length fuel (seen s)).bind (funext fun E => ?_)
  show (if missed s (reached s.rows.length E (anchor s)) then none
    else (secondRun fuel s E).bind fun F => some (reached s.rows.length F (anchor s))) = _
  rw [Option.map_eq_bind]
  rfl

theorem size_allRows (s : Reduction n) : (allRows s).size = s.rows.length + s.ends.length := by
  simp [allRows]

theorem rows_le (s : Reduction n) : s.rows.length ≤ (allRows s).size := by
  rw [size_allRows]
  omega

theorem rowOf_rows {i : ℕ} (hi : i < s.rows.length) : rowOf (allRows s) i = s.rows[i] := by
  simp [rowOf, allRows, List.getElem?_append_left hi, hi]

theorem rowOf_ends {k : ℕ} (hk : k < s.ends.length) : rowOf (allRows s) (s.rows.length + k) = s.ends[k] := by
  simp [rowOf, allRows, hk]

theorem meets_zero_iff (s : Reduction n) (y : ℕ → ℚ) :
    s.Meets 0 y ↔ ∀ i < (allRows s).size, 0 ≤ (rowOf (allRows s) i).room y := by
  constructor
  · intro h i hi
    rcases lt_or_ge i s.rows.length with hlt | hge
    · rw [rowOf_rows hlt]
      simpa using h.rows _ (List.getElem_mem hlt)
    · obtain ⟨k, rfl⟩ := Nat.exists_eq_add_of_le hge
      rw [size_allRows] at hi
      rw [rowOf_ends (by omega)]
      exact (s.ends_iff y).2 h.bounds _ (List.getElem_mem _)
  · intro h
    refine ⟨fun row hrow => ?_, (s.ends_iff y).1 fun row hrow => ?_⟩
    · obtain ⟨i, hi, rfl⟩ := List.getElem_of_mem hrow
      simpa [rowOf_rows hi] using h i (hi.trans_le (rows_le s))
    · obtain ⟨k, hk, rfl⟩ := List.getElem_of_mem hrow
      simpa [rowOf_ends hk] using h (s.rows.length + k) (by rw [size_allRows]; omega)

theorem room_reached (E : Dictionary (allRows s).size (2 * n + s.rows.length)) (row : Row n) :
    row.room (reached s.rows.length E (anchor s)) = row.room (moved s.rows.length n (anchor s) E.value) :=
  row.room_congr fun _ hj => reached_eq E _ hj

section Ordered

variable (hs : s.Ordered)

include hs

theorem rhs_ends {i : ℕ} (hi : s.rows.length ≤ i) (hir : i < (allRows s).size) :
    (seen s).rhs i = (rowOf (allRows s) i).room (anchor s) ∧ 0 ≤ (seen s).rhs i := by
  obtain ⟨k, rfl⟩ := Nat.exists_eq_add_of_le hi
  have hk : k < s.ends.length := by
    rw [size_allRows] at hir
    omega
  have hroom : 0 ≤ (rowOf (allRows s) (s.rows.length + k)).room (anchor s) := by
    rw [rowOf_ends hk]
    refine (s.ends_iff (anchor s)).2 (fun j hj => ?_) _ (List.getElem_mem _)
    rw [anchor, Vec.get_ofFn_of_lt _ (List.mem_range.1 (List.mem_filter.1 hj).1)]
    exact (hs j).allows_anchor
  have hrhs := initial_rhs_of_nonneg (w := s.rows.length) (overlooked_bounds s).1 hir hroom
  exact ⟨hrhs, hroom.trans_eq hrhs.symm⟩

variable {E : Dictionary (allRows s).size (2 * n + s.rows.length)} {v : ℕ → ℚ}

theorem meets_moved (hE : Relaxed (seen s) E) (hmet : missed s (reached s.rows.length E (anchor s)) = false)
    (hv : Kept (seen s) E v) : s.Meets Interval.give (moved s.rows.length n (anchor s) v) := by
  obtain ⟨hover, hgive⟩ := overlooked_bounds s
  refine ⟨fun row hrow => ?_, (s.ends_iff _).1 fun row hrow => ?_⟩
  · obtain ⟨i, hi, rfl⟩ := List.getElem_of_mem hrow
    have hmet : -Interval.give ≤ s.rows[i].room (reached s.rows.length E (anchor s)) := by
      simpa [missed] using (List.any_eq_false.1 hmet) _ hrow
    rw [room_reached, ← rowOf_rows hi] at hmet
    have hexcess := hE.excess_le (rows_le s) hover hgive hi hmet
    rw [← rowOf_rows hi, hv.room (hi.trans_le (rows_le s)), if_pos hi]
    linarith [hv.nonneg (s.rows.length + 2 * n + i)]
  · obtain ⟨k, hk, rfl⟩ := List.getElem_of_mem hrow
    have hir : s.rows.length + k < (allRows s).size := by
      rw [size_allRows]
      omega
    have hrhs := (rhs_ends hs (by omega) hir).1
    rw [seen] at hrhs
    rw [← rowOf_ends hk, hv.room hir, if_neg (by omega), hrhs, sub_self, zero_add, sub_zero]
    exact hv.nonneg _

end Ordered

theorem price_moved (s : Reduction n) (v : ℕ → ℚ) :
    s.price (moved s.rows.length n (anchor s) v) =
      s.price (anchor s) + (seen s).worth (splitCost s.rows.length n s.drive) v := sum_moved s.drive v

def pivots (s : Reduction n) : ℕ := ((allRows s).size + (2 * n + s.rows.length)).choose (allRows s).size

section Outcome

variable (hs : s.Ordered) {E F : Dictionary (allRows s).size (2 * n + s.rows.length)}

include hs

theorem firstRun_spec (h : relaxed s.rows.length fuel (seen s) = some E) : Relaxed (seen s) E :=
  relaxed_spec (rows_le s) (fun _ hi hir => (rhs_ends hs hi hir).2) h

theorem secondRun_spec (hE : Relaxed (seen s) E) (hmet : missed s (reached s.rows.length E (anchor s)) = false)
    (h : secondRun fuel s E = some F) :
    s.Meets Interval.give (reached s.rows.length F (anchor s)) ∧
      ∀ y, s.Meets 0 y → s.price (reached s.rows.length F (anchor s)) ≤ s.price y := by
  obtain ⟨hF, hcheap⟩ := settled_spec (splitCost_excess s.drive) hE h
  have heq : ∀ j < n, reached s.rows.length F (anchor s) j = moved s.rows.length n (anchor s) F.value j :=
    fun j hj => reached_eq F _ hj
  have hmeets := meets_moved hs hE hmet hF
  refine ⟨⟨fun row hrow => ?_, fun j hj => ?_⟩, fun y hy => ?_⟩
  · rw [row.room_congr heq]
    exact hmeets.rows row hrow
  · rw [heq j (List.mem_range.1 (List.mem_filter.1 hj).1)]
    exact hmeets.bounds j hj
  · have hprice : s.price (reached s.rows.length F (anchor s)) = s.price (moved s.rows.length n (anchor s) F.value) :=
      Finset.sum_congr rfl fun j hj => by rw [heq j (Finset.mem_range.1 hj)]
    -- any point that meets all rows is lifted to a solution with the same excesses
    have hle : (seen s).worth (splitCost s.rows.length n s.drive) F.value ≤ s.price y - s.price (anchor s) :=
      (hcheap _ (solves_lifted E.value y)
        (lifted_nonneg (overlooked_bounds s).1 (value_nonneg hE.feasible) ((meets_zero_iff s y).1 hy))
        fun m hm => lifted_excess hm).trans_eq (worth_lifted s.drive E.value y)
    rw [hprice, price_moved]
    linarith

theorem secondRun_none (hE : Relaxed (seen s) E) (hmet : missed s (reached s.rows.length E (anchor s)) = false)
    (hfuel : pivots s ≤ fuel) (h : secondRun fuel s E = none) (bound : ℚ) :
    ∃ y, s.Meets Interval.give y ∧ s.price y < bound := by
  obtain ⟨v, hv, hlt⟩ := settled_none (splitCost_excess s.drive) hE hfuel h (bound - s.price (anchor s))
  refine ⟨_, meets_moved hs hE hmet hv, ?_⟩
  rw [price_moved]
  change (seen s).worth _ _ < _ at hlt
  linarith

omit hs in
theorem not_meets_of_missed (hE : Relaxed (seen s) E) (hmissed : missed s (reached s.rows.length E (anchor s)) = true)
    (y : ℕ → ℚ) : ¬s.Meets 0 y := by
  obtain ⟨row, hrow, hlt⟩ := List.any_eq_true.1 hmissed
  obtain ⟨i, hi, rfl⟩ := List.getElem_of_mem hrow
  rw [decide_eq_true_eq, room_reached, ← rowOf_rows hi] at hlt
  obtain ⟨hover, hgive⟩ := overlooked_bounds s
  obtain ⟨k, hk, hneg⟩ := hE.missed (rows_le s) hover hgive hi hlt y
  exact fun hy => absurd ((meets_zero_iff s y).1 hy k hk) (not_le.2 hneg)

end Outcome

theorem minimize_meets {x : Vec ℚ n} (h : p.minimize fuel = some x) :
    ∃ s, p.reduced = some s ∧ s.Meets Interval.give x ∧ ∀ y, s.Meets 0 y → s.price x ≤ s.price y := by
  obtain ⟨s, hs⟩ : ∃ s, p.reduced = some s := by
    cases hr : p.reduced with
    | none => simp [minimize, hr] at h
    | some s => exact ⟨s, rfl⟩
  rw [minimize_eq hs] at h
  obtain ⟨E, hE, h⟩ := Option.bind_eq_some_iff.1 h
  split at h
  · simp at h
  next hmet =>
    obtain ⟨F, hF, rfl⟩ := Option.map_eq_some_iff.1 h
    have hordered := ordered_reduced hs
    exact ⟨s, hs, secondRun_spec hordered (firstRun_spec hordered hE) (Bool.not_eq_true _ ▸ hmet) hF⟩

theorem minimize_none (hs : p.reduced = some s) (hfuel : pivots s ≤ fuel) (h : p.minimize fuel = none) :
    (∀ y, ¬s.Meets 0 y) ∨ ∀ bound, ∃ y, s.Meets Interval.give y ∧ s.price y < bound := by
  have hordered := ordered_reduced hs
  obtain ⟨E, hE⟩ := relaxed_isSome (rows_le s) (fun _ hi hir => (rhs_ends hordered hi hir).2) hfuel
  have hrelaxed := firstRun_spec hordered hE
  rw [minimize_eq hs] at h
  change (relaxed s.rows.length fuel (seen s)).bind _ = _ at h
  rw [show relaxed s.rows.length fuel (seen s) = some E from hE, Option.bind_some] at h
  split at h
  next hmissed => exact Or.inl (not_meets_of_missed hrelaxed hmissed)
  next hmet =>
    exact Or.inr fun bound => secondRun_none hordered hrelaxed (Bool.not_eq_true _ ▸ hmet) hfuel
      (Option.map_eq_none_iff.1 h) bound

/-- The point that is returned meets what the reduction has left of the program, each row up to what may be missed,
and is no dearer than any point that meets all of it exactly. -/
theorem solve_meets {x : Vec ℚ n} (h : p.solve fuel = some x) :
    ∃ s, p.cleared.reduced = some s ∧ s.Meets Interval.give x ∧ ∀ y, s.Meets 0 y → s.price x ≤ s.price y := by
  unfold solve at h
  split at h
  · exact minimize_meets h
  · simp at h

/-- With enough pivots a moderate program is decided: there is a best point, or no point meets the rows, or the cost
has no minimum. -/
theorem solve_decides (hp : p.moderate = true) (hs : p.cleared.reduced = some s) (hfuel : pivots s ≤ fuel) :
    (∃ x, p.solve fuel = some x ∧ s.Meets Interval.give x ∧ ∀ y, s.Meets 0 y → s.price x ≤ s.price y) ∨
      p.solve fuel = none ∧
        ((∀ y, ¬s.Meets 0 y) ∨ ∀ bound, ∃ y, s.Meets Interval.give y ∧ s.price y < bound) := by
  have hsolve : p.solve fuel = p.cleared.minimize fuel := if_pos hp
  rw [hsolve]
  cases h : p.cleared.minimize fuel with
  | none => exact Or.inr ⟨rfl, minimize_none hs hfuel h⟩
  | some x =>
    obtain ⟨s', hs', hmeets⟩ := minimize_meets h
    rw [hs, Option.some_inj] at hs'
    subst hs'
    exact Or.inl ⟨x, rfl, hmeets⟩

end Runs

end LinearProgram

end ActiveSet
