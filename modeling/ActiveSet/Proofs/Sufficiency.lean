import ActiveSet.Proofs.Minimizer

/-! For a convex objective small residuals are enough. The gain of a feasible point over `x` is at most what three
losses come to: the gradient of the Lagrangian along the way there, the multipliers below zero against the slacks there,
and the products of slacks and multipliers at `x`. None of them needs `P` to be symmetric. -/

namespace ActiveSet

noncomputable section
open Exact

variable {m n : ℕ} {p : Problem ℝ m n} {x : Vec ℝ n} {lam : Vec ℝ m}

theorem Mat.symmetrize_comm (P : Mat ℝ n n) : P.symmetrize.Symmetric := by
  intro i hi j hj
  rw [get_symmetrize P hi hj, get_symmetrize P hj hi, add_comm]

theorem Mat.form_symmetrize (P : Mat ℝ n n) (v : ℕ → ℝ) : P.symmetrize.form v v = P.form v v := by
  have hrow : ∀ i < n, dot n (P.symmetrize i) v = 1 / 2 * dot n (P i) v + 1 / 2 * dot n (fun j => P j i) v := by
    intro i hi
    rw [← dot_comb_left]
    refine dot_congr (fun j hj => ?_) fun _ _ => rfl
    rw [get_symmetrize P hi hj]
    norm_num
    ring
  have hcross : dot n v (fun i => dot n (fun j => P j i) v) = P.form v v := by
    rw [dot_transpose, dot_comm]
    rfl
  unfold form
  rw [dot_congr (fun _ _ => rfl) hrow, dot_comb_right, hcross]
  change 1 / 2 * P.form v v + 1 / 2 * P.form v v = P.form v v
  ring

/-- The same objective with a symmetric matrix. -/
def Problem.symmetrized (p : Problem ℝ m n) : Problem ℝ m n := { p with P := p.P.symmetrize }

theorem Problem.objective_symmetrized (p : Problem ℝ m n) (x : Vec ℝ n) :
    p.symmetrized.objective x = p.objective x := by
  rw [objective_eq, objective_eq]
  congr 2
  exact p.P.form_symmetrize x

theorem Vec.toList_zero : (0 : Vec ℝ m).toList = List.replicate m 0 := by
  rw [toList_eq_map]
  rw [List.map_congr_left fun i _ => get_zero i, List.map_const', List.length_range]

theorem Intake.residuals_of_option (p : Problem ℝ m n) (x : Vec ℝ n) (lam : Option (Vec ℝ m)) (hn : 0 < n) :
    Intake.residuals (.ofMat p.P) (.ofList p.q.toList) (.ofMat p.A) (.ofList p.b.toList) (.ofList x.toList)
      (lam.map fun l => .ofList l.toList) = .ok (Residuals.ofProblem p x (lam.getD 0)) := by
  cases lam with
  | some l => exact residuals_of_problem p x l hn
  | none =>
    have hm : (Tensor.ofMat p.A).size / (Tensor.ofList x.toList).size = m := by
      rw [Tensor.size_ofMat, show (Tensor.ofList x.toList).size = n by simp [Tensor.ofList, Tensor.size, Vec.toList],
        Nat.mul_div_cancel _ hn]
    have hzero := residuals_of_problem p x 0 hn
    unfold Intake.residuals at hzero ⊢
    dsimp only at hzero ⊢
    rw [hm] at hzero ⊢
    rw [Option.map_some, Option.getD_some, Tensor.flatten_ofList, Vec.toList_zero] at hzero
    exact hzero

namespace Residuals

theorem stationarity_le_iff (hn : 0 < n) {c : ℝ} :
    (ofProblem p x lam).stationarity ≤ c ↔ ∀ i < n, |p.symmetrized.stationarity x lam i| ≤ c := by
  set f : ℕ → ℝ := fun i => Scalar.abs (p.P.symmetrize.apply x i + p.q i + p.A.applyT lam i)
  have hf : ∀ i < n, |p.symmetrized.stationarity x lam i| = f i := by
    intro i hi
    simp only [f]
    rw [abs_eq, Mat.get_applyT _ _ hi]
    unfold Problem.stationarity Problem.gradient
    rw [Vec.get_ofFn_of_lt _ hi]
    rfl
  change maximum (n - 1) f ≤ c ↔ _
  constructor
  · intro h i hi
    rw [hf i hi]
    exact (le_maximum (n - 1) f i (by omega)).trans h
  · intro h
    refine maximum_le fun i hi => ?_
    rw [← hf i (by omega)]
    exact h i (by omega)

theorem excess_le {row : ℕ} (hrow : row < m) : dot n (p.A row) x - p.b row ≤ (ofProblem p x lam).primal := by
  have hle := le_maximum (m - 1) (fun i => -(p.b i - p.A.apply x i)) row (by omega)
  rw [Mat.get_apply _ _ hrow, neg_sub] at hle
  change _ ≤ if m = 0 then 0 else Scalar.larger (maximum (m - 1) fun i => -(p.b i - p.A.apply x i)) 0
  rw [if_neg (by omega), larger_eq]
  exact hle.trans (le_max_left _ _)

theorem neg_le_dual {row : ℕ} (hrow : row < m) : -lam row ≤ (ofProblem p x lam).dual := by
  change _ ≤ if m = 0 then 0 else Scalar.larger (maximum (m - 1) fun i => -lam i) 0
  rw [if_neg (by omega), larger_eq]
  exact (le_maximum (m - 1) (fun i => -lam i) row (by omega)).trans (le_max_left _ _)

theorem slack_mul_le {row : ℕ} (hrow : row < m) :
    (p.b row - dot n (p.A row) x) * lam row ≤ (ofProblem p x lam).complementary := by
  have hle := le_maximum (m - 1) (fun i => Scalar.abs ((p.b i - p.A.apply x i) * lam (stretched m i))) row (by omega)
  rw [stretched_of_lt hrow, Mat.get_apply _ _ hrow, abs_eq] at hle
  change _ ≤ if m = 0 then 0 else maximum (m - 1) fun i =>
    Scalar.abs ((p.b i - p.A.apply x i) * lam (stretched m i))
  rw [if_neg (by omega)]
  exact (le_abs_self _).trans hle

theorem neg_mul_sum_abs_le_dot {c : ℝ} {u d : ℕ → ℝ} (hu : ∀ i < n, |u i| ≤ c) :
    -(c * sum n fun i => |d i|) ≤ dot n d u := by
  rw [dot_eq, sum_eq, Finset.mul_sum, ← Finset.sum_neg_distrib]
  refine Finset.sum_le_sum fun i hi => ?_
  have hprod : |d i * u i| ≤ c * |d i| := by
    rw [abs_mul, mul_comm]
    exact mul_le_mul_of_nonneg_right (hu i (Finset.mem_range.1 hi)) (abs_nonneg _)
  exact (neg_le_neg hprod).trans (neg_abs_le _)

/-- What the rows make of the way from `x` to a feasible point. -/
theorem dot_rows_le {tol : ℝ} (hdual : (ofProblem p x lam).dual ≤ tol)
    (hcomplementary : (ofProblem p x lam).complementary ≤ tol) {y : Vec ℝ n}
    (hy : ∀ row < m, dot n (p.A row) y ≤ p.b row) :
    dot m (fun row => dot n (p.A row) fun i => y i - x i) lam ≤
      tol * ((sum m fun row => p.b row - dot n (p.A row) y) + m) := by
  have hcard : tol * (m : ℝ) = ∑ _row ∈ Finset.range m, tol := by
    rw [Finset.sum_const, Finset.card_range, nsmul_eq_mul, mul_comm]
  rw [dot_eq, sum_eq, mul_add, Finset.mul_sum, hcard, ← Finset.sum_add_distrib]
  refine Finset.sum_le_sum fun row hrow => ?_
  have hrow := Finset.mem_range.1 hrow
  have hslack := sub_nonneg.2 (hy row hrow)
  have hlow := mul_le_mul_of_nonneg_left ((neg_le_dual hrow).trans hdual) hslack
  have hproduct : (p.b row - dot n (p.A row) x) * lam row ≤ tol := (slack_mul_le hrow).trans hcomplementary
  rw [dot_sub_right]
  linarith

end Residuals

/-- No feasible point gains more on `x` than the residuals allow. -/
theorem Residuals.objective_ge (hn : 0 < n) (hconvex : ∀ v : ℕ → ℝ, 0 ≤ p.P.symmetrize.form v v) {tol : ℝ}
    (hopt : (ofProblem p x lam).optimal tol = true) {y : Vec ℝ n} (hy : ∀ row < m, dot n (p.A row) y ≤ p.b row) :
    p.objective x - tol * ((sum n fun i => |y i - x i|) + (sum m fun row => p.b row - dot n (p.A row) y) + m) ≤
      p.objective y := by
  obtain ⟨hstationarity, -, hdual, hcomplementary⟩ := optimal_iff.1 hopt
  have hgap := p.symmetrized.objective_sub p.P.symmetrize_comm x y
  rw [p.objective_symmetrized, p.objective_symmetrized] at hgap
  set d : ℕ → ℝ := fun i => y i - x i
  have hgradient := Solver.dot_stationarity (p := p.symmetrized) x lam d
  have hway := neg_mul_sum_abs_le_dot (d := d) ((stationarity_le_iff hn).1 hstationarity)
  have hrows := dot_rows_le hdual hcomplementary hy
  have hcurved := hconvex d
  change _ = _ + dot m (fun row => dot n (p.A row) d) lam at hgradient
  change _ = _ + _ + 1 / 2 * p.P.symmetrize.form d d at hgap
  linarith

/-- Data on which the checker passes are nearly optimal for a convex objective, and optimal without a tolerance. -/
theorem optimal_residuals_minimize (p : Problem ℝ m n) (x : Vec ℝ n) (lam : Option (Vec ℝ m)) (hn : 0 < n)
    (hconvex : ∀ v : ℕ → ℝ, 0 ≤ p.P.symmetrize.form v v) :
    ∃ r, Intake.residuals (.ofMat p.P) (.ofList p.q.toList) (.ofMat p.A) (.ofList p.b.toList) (.ofList x.toList)
        (lam.map fun l => .ofList l.toList) = .ok r ∧
      ∀ tol : ℝ, r.optimal tol = true →
        (∀ row < m, dot n (p.A row) x ≤ p.b row + tol) ∧
        (∀ y : Vec ℝ n, (∀ row < m, dot n (p.A row) y ≤ p.b row) →
          p.objective x - tol * ((sum n fun i => |y i - x i|) + (sum m fun row => p.b row - dot n (p.A row) y) + m) ≤
            p.objective y) ∧
        (tol = 0 → (∀ row < m, dot n (p.A row) x ≤ p.b row) ∧
          ∀ y : Vec ℝ n, (∀ row < m, dot n (p.A row) y ≤ p.b row) → p.objective x ≤ p.objective y) := by
  refine ⟨_, Intake.residuals_of_option p x lam hn, fun tol hopt => ?_⟩
  have hrows : ∀ row < m, dot n (p.A row) x ≤ p.b row + tol := by
    intro row hrow
    have hexcess := (Residuals.excess_le hrow).trans (Residuals.optimal_iff.1 hopt).2.1
    linarith
  have hbound := fun (y : Vec ℝ n) hy => Residuals.objective_ge (y := y) hn hconvex hopt hy
  refine ⟨hrows, hbound, fun hzero => ⟨fun row hrow => ?_, fun y hy => ?_⟩⟩
  · simpa [hzero] using hrows row hrow
  · simpa [hzero] using hbound y hy

/-- `1/2 (x² + y²)`, written with a matrix that is not symmetric, subject to `x ≤ -1`. -/
def swirl : Problem ℝ 1 2 where
  P := Mat.ofFn fun i j => if i = 1 ∧ j = 0 then -1 else 1
  q := 0
  A := Mat.ofFn fun _ j => if j = 0 then 1 else 0
  b := Vec.ofFn fun _ => -1

theorem form_swirl (v : ℕ → ℝ) : swirl.P.symmetrize.form v v = v 0 * v 0 + v 1 * v 1 := by
  rw [Mat.form_symmetrize]
  simp [Mat.form, dot, swirl]
  ring

theorem optimal_residuals_minimize_swirl : ∃ r,
    Intake.residuals (.ofMat swirl.P) (.ofList swirl.q.toList) (.ofMat swirl.A) (.ofList swirl.b.toList)
      (.ofList (Vec.ofFn fun i => if i = 0 then -1 else 0 : Vec ℝ 2).toList)
      (some (.ofList (Vec.ofFn fun _ => 1 : Vec ℝ 1).toList)) = .ok r ∧ r.optimal 0 = true ∧
    ∀ y : Vec ℝ 2, (∀ row < 1, dot 2 (swirl.A row) y ≤ swirl.b row) →
      swirl.objective (Vec.ofFn fun i => if i = 0 then -1 else 0) ≤ swirl.objective y := by
  set x : Vec ℝ 2 := Vec.ofFn fun i => if i = 0 then -1 else 0
  set lam : Vec ℝ 1 := Vec.ofFn fun _ => 1
  have hconvex : ∀ v : ℕ → ℝ, 0 ≤ swirl.P.symmetrize.form v v := fun v => by
    rw [form_swirl]
    exact add_nonneg (mul_self_nonneg _) (mul_self_nonneg _)
  obtain ⟨r, hr, hall⟩ := optimal_residuals_minimize swirl x (some lam) (by decide) hconvex
  have hopt : r.optimal 0 = true := by
    obtain rfl := Except.ok.inj (hr.symm.trans (Intake.residuals_of_option swirl x (some lam) (by decide)))
    have hslope : ∀ i < 2, swirl.symmetrized.gradient x i = if i = 0 then -1 else 0 := by
      intro i hi
      obtain rfl | rfl : i = 0 ∨ i = 1 := by omega
      all_goals
        norm_num [Problem.gradient, Problem.symmetrized, Mat.get_apply, Mat.get_symmetrize, dot, swirl, x]
    have hgradient : ∀ i < 2, |swirl.symmetrized.stationarity x lam i| ≤ 0 := by
      intro i hi
      unfold Problem.stationarity
      rw [hslope i hi]
      obtain rfl | rfl : i = 0 ∨ i = 1 := by omega
      all_goals norm_num [Problem.symmetrized, dot, swirl, lam]
    have hmet : dot 2 (swirl.A 0) x = swirl.b 0 := by norm_num [dot, swirl, x]
    refine Residuals.optimal_iff.2 ⟨(Residuals.stationarity_le_iff two_pos).2 hgradient, ?_, ?_, ?_⟩
    · refine le_of_eq (Residuals.primal_eq_zero fun row hrow => ?_)
      rw [Nat.lt_one_iff.1 hrow, hmet]
    · refine Residuals.dual_le le_rfl fun row hrow => ?_
      norm_num [lam, hrow]
    · refine le_of_eq (Residuals.complementary_eq_zero fun row hrow => Or.inr ?_)
      rw [Nat.lt_one_iff.1 hrow, hmet]
  exact ⟨r, hr, hopt, ((hall 0 hopt).2.2 rfl).2⟩

end
end ActiveSet
