import ActiveSet.Proofs.Certificate

/-! For a convex objective a certificate is a lower bound: no feasible point is better than an optimal report by
more than the tolerances let it. -/

namespace ActiveSet

noncomputable section
open Exact

variable {m n : ℕ} {p : Problem ℝ m n}

theorem Problem.objective_eq (p : Problem ℝ m n) (x : Vec ℝ n) :
    p.objective x = 1 / 2 * p.P.form x x + dot n p.q x := by
  unfold objective
  congr 1
  rw [dot_comm, dot_mul_right, dot_comm]
  have hform : dot n x (p.P.apply x) = p.P.form x x := dot_congr (fun _ _ => rfl) fun i hi => Mat.get_apply _ _ hi
  rw [hform]
  norm_num

theorem Problem.objective_sub (hP : p.P.Symmetric) (x y : Vec ℝ n) :
    p.objective y = p.objective x + dot n (fun i => y i - x i) (p.gradient x) +
      1 / 2 * p.P.form (fun i => y i - x i) (fun i => y i - x i) := by
  set d : ℕ → ℝ := fun i => y i - x i
  have hy : ∀ i < n, y i = 1 * x i + 1 * d i := fun i _ => by
    simp only [d]
    ring
  have hform : p.P.form y y = p.P.form x x + 2 * p.P.form d x + p.P.form d d := by
    rw [Mat.form_congr hy hy, Mat.form_comb_left, Mat.form_comb_right, Mat.form_comb_right, Mat.form_comm hP x d]
    ring
  have hlinear : dot n p.q y = dot n p.q x + dot n p.q d := by
    rw [← dot_add_right]
    exact dot_congr (fun _ _ => rfl) fun i hi => by rw [hy i hi]; ring
  have hgradient : dot n d (p.gradient x) = p.P.form d x + dot n p.q d := by
    unfold Mat.form
    rw [dot_comm n p.q d, ← dot_add_right]
    refine dot_congr (fun _ _ => rfl) fun i hi => ?_
    unfold Problem.gradient
    rw [Vec.get_ofFn_of_lt _ hi, Mat.get_apply _ _ hi]
  rw [Problem.objective_eq, Problem.objective_eq, hform, hlinear, hgradient]
  ring

theorem Problem.objective_along (hP : p.P.Symmetric) (x d : Vec ℝ n) (t : ℝ) :
    p.objective (x.along t d) =
      p.objective x + t * dot n d (p.gradient x) + 1 / 2 * (t * t * p.P.form d d) := by
  have hgap : ∀ i < n, (x.along t d) i - x i = t * d i + 0 * d i := fun i hi => by
    rw [Vec.get_along _ _ _ hi]
    ring
  have hlinear : dot n (fun i => (x.along t d) i - x i) (p.gradient x) = t * dot n d (p.gradient x) := by
    rw [dot_congr hgap fun _ _ => rfl, dot_comb_left]
    ring
  have hsquare : p.P.form (fun i => (x.along t d) i - x i) (fun i => (x.along t d) i - x i) =
      t * t * p.P.form d d := by
    rw [Mat.form_congr hgap hgap, Mat.form_comb_left, Mat.form_comb_right]
    ring
  rw [Problem.objective_sub hP x, hlinear, hsquare]

theorem neg_le_dot (u v : ℕ → ℝ) : -(norm n u * norm n v) ≤ dot n u v := by
  have h := Real.sum_mul_le_sqrt_mul_sqrt (Finset.range n) (fun i => -u i) v
  rw [norm_eq, norm_eq, dot_eq, dot_eq, dot_eq]
  simp only [neg_mul, Finset.sum_neg_distrib, neg_sq] at h
  simp only [← sq]
  linarith

namespace Solver

variable {tol : Tolerances ℝ} {s : Solver ℝ m n} {o : Options} {r : Report ℝ m n}

/-- The rows pull a feasible point back by no more than their slacks times the tolerance. -/
theorem neg_le_dot_slack {working : List ℕ} {lam : ℕ → ℝ} {c : ℝ} (slack : ℕ → ℝ) (hnodup : working.Nodup)
    (hlt : ∀ row ∈ working, row < m) (hslack : ∀ row < m, 0 ≤ slack row) (hlam : ∀ row < m, -c ≤ lam row)
    (hzero : ∀ row, row ∉ working → lam row = 0) : -(c * (working.map slack).sum) ≤ dot m slack lam := by
  have hsub : working.toFinset ⊆ Finset.range m := fun row hrow =>
    Finset.mem_range.2 (hlt row (List.mem_toFinset.1 hrow))
  rw [dot_eq, ← List.sum_toFinset _ hnodup, Finset.mul_sum, ← Finset.sum_neg_distrib,
    ← Finset.sum_subset hsub fun row _ hrow => by rw [hzero row fun h => hrow (List.mem_toFinset.2 h), mul_zero]]
  refine Finset.sum_le_sum fun row hrow => ?_
  have hrow := hlt row (List.mem_toFinset.1 hrow)
  nlinarith [hslack row hrow, hlam row hrow]

theorem Certified.objective_ge (hcert : Certified p tol s) (hs : Lockstep p tol s) (hf : Feasible p s)
    (hP : p.P.Symmetric) (hconvex : ∀ v : ℕ → ℝ, 0 ≤ p.P.form v v) {y : Vec ℝ n}
    (hy : ∀ row < m, dot n (p.A row) y ≤ p.b row) :
    p.objective s.x - tol.projectedGradient * norm n (fun i => y i - s.x i) -
      tol.multiplier * (s.rows.working.map fun row => p.b row - dot n (p.A row) y).sum ≤ p.objective y := by
  set d : ℕ → ℝ := fun i => y i - s.x i
  have hslack := neg_le_dot_slack (fun row => p.b row - dot n (p.A row) y)
    hs.sound.nodup.of_append_left (fun row hrow => (hs.mem_iff row).1 (Or.inl hrow))
    (fun row hrow => sub_nonneg.2 (hy row hrow)) hcert.multipliers hcert.outside
  -- on the rows with a multiplier the slack of `y` is what `d` loses
  have hrows : dot m (fun row => dot n (p.A row) d) s.multipliers =
      -dot m (fun row => p.b row - dot n (p.A row) y) s.multipliers := by
    rw [dot_comm, dot_comm m _ s.multipliers, ← dot_neg_right]
    refine dot_congr_mul fun row _ => ?_
    by_cases hin : row ∈ s.rows.working
    · rw [dot_sub_right, hf.working row hin]
      ring
    · rw [hcert.outside row hin, zero_mul, zero_mul]
  have hgradient := dot_stationarity (p := p) s.x s.multipliers d
  have hcauchy := neg_le_dot (n := n) d (p.stationarity s.x s.multipliers)
  have hnorm : 0 ≤ norm n d := by
    rw [norm_eq]
    exact Real.sqrt_nonneg _
  have hsmall := mul_le_mul_of_nonneg_left hcert.small hnorm
  rw [Problem.objective_sub hP s.x y]
  have hpsd := hconvex d
  nlinarith

/-- For a convex objective no feasible point beats an optimal report by more than the tolerances; with none, the
report is a minimizer. -/
theorem optimal_report_minimizes {x₀ : Vec ℝ n} {bounds : RadiusBounds ℝ} {events : List (Event ℝ)}
    (hP : p.P.Symmetric) (hconvex : ∀ v : ℕ → ℝ, 0 ≤ p.P.form v v)
    (hfeas : ∀ row < m, dot n (p.A row) x₀ ≤ p.b row) (hblocking : tol.blocking = 0)
    (hstart : start p x₀ bounds tol = .ok (s, events)) (hrun : (s.run o).result = .ok r)
    (hopt : r.status = .optimal) :
    (∀ y : Vec ℝ n, (∀ row < m, dot n (p.A row) y ≤ p.b row) →
      p.objective r.x - tol.projectedGradient * norm n (fun i => y i - r.x i) -
        tol.multiplier * (r.working.map fun row => p.b row - dot n (p.A row) y).sum ≤ p.objective y) ∧
    (tol.projectedGradient = 0 → tol.multiplier = 0 → (∀ row < m, dot n (p.A row) r.x ≤ p.b row) ∧
      ∀ y : Vec ℝ n, (∀ row < m, dot n (p.A row) y ≤ p.b row) → p.objective r.x ≤ p.objective y) := by
  obtain ⟨t, ht, hcert, hx, -, hworking, -⟩ := exists_tracked hstart hrun hopt
  have hf := ht.feasible hblocking hfeas
  rw [hx, hworking]
  refine ⟨fun y hy => hcert.objective_ge ht.lockstep hf hP hconvex hy, fun hpg hmult => ⟨hf.rows, fun y hy => ?_⟩⟩
  have hle := hcert.objective_ge ht.lockstep hf hP hconvex hy
  rwa [hpg, hmult, zero_mul, zero_mul, sub_zero, sub_zero] at hle

/-- The report on the wall is a minimizer, and it is on the wall. -/
theorem optimal_report_minimizes_wall : ∃ s events r, start wall 0 ⟨0, none⟩ strict = .ok (s, events) ∧
    (s.run ⟨5000, 0, 50⟩).result = .ok r ∧ r.status = .optimal ∧ r.working = [0] ∧ dot 1 (wall.A 0) r.x = wall.b 0 ∧
      ∀ y : Vec ℝ 1, (∀ row < 1, dot 1 (wall.A row) y ≤ wall.b row) → wall.objective r.x ≤ wall.objective y := by
  obtain ⟨hP, -, hA, hb⟩ := get_line 0 (-1) 1 1
  obtain ⟨r, hrun, hopt, hx, hworking, -⟩ := run_ledge (o := ⟨5000, 0, 50⟩) le_rfl rfl
  have hconvex : ∀ v : ℕ → ℝ, 0 ≤ wall.P.form v v := fun v => by
    rw [Mat.form, dot_one, dot_one, wall, hP, zero_mul, mul_zero]
  obtain ⟨-, hminimal⟩ :=
    optimal_report_minimizes (symmetric_line 0 (-1) 1 1) hconvex feasible_wall rfl start_wall hrun hopt
  refine ⟨_, _, r, start_wall, hrun, hopt, hworking, ?_, (hminimal rfl rfl).2⟩
  rw [dot_one, wall, hA, hb, hx, one_mul]

end Solver

end
end ActiveSet
