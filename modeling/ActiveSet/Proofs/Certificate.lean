import ActiveSet.Proofs.SingleRow

/-! A solve that ends as optimal carries its certificate: the check that ended it has found the multipliers of the
working rows and a gradient that they cancel, and nothing moves after it. -/

namespace ActiveSet

noncomputable section
open Exact

variable {m n : ℕ}

namespace Solver

variable {p : Problem ℝ m n} {tol : Tolerances ℝ} {s : Solver ℝ m n} {o : Options} {r : Report ℝ m n}

/-- The point and its multipliers are stationary up to the tolerances. -/
structure Certified (p : Problem ℝ m n) (tol : Tolerances ℝ) (s : Solver ℝ m n) : Prop where
  residual : s.residual = some (norm n (p.stationarity s.x s.multipliers))
  small : norm n (p.stationarity s.x s.multipliers) ≤ tol.projectedGradient
  multipliers : ∀ row < m, -tol.multiplier ≤ s.multipliers row
  outside : ∀ row, row ∉ s.rows.working → s.multipliers row = 0

/-- A check says done after it has looked at the gradient and at every multiplier, and then releases nothing. -/
theorem check_done {found : Option ℕ} (h : s.check.result = .ok found) (hdone : s.check.state.done = true) :
    found = none ∧ ∃ lam multipliers, s.columnMultipliers = .ok lam ∧
      spread s.rows.working s.factor.basis.size lam = .ok multipliers ∧
      norm s.factor.width (s.factor.project s.gradient) ≤ s.tolerances.projectedGradient ∧
      (∀ i < s.factor.basis.size, -s.tolerances.multiplier ≤ lam i) ∧
      s.check.state = { s with
        multipliers
        residual := some (norm s.factor.width (s.factor.project s.gradient))
        done := true } := by
  obtain ⟨lam, multipliers, done, hlam, hspread, hstate, hdecided⟩ := check_cases h
  rw [hstate] at hdone
  obtain rfl : done = true := hdone
  rcases hdecided with ⟨-, -, hno⟩ | ⟨hsmall, hall, hfound, -⟩ | ⟨-, -, -, hno⟩
  · cases hno
  · exact ⟨hfound, lam, multipliers, hlam, hspread, not_lt.1 hsmall, hall, hstate⟩
  · cases hno

theorem Lockstep.certified_check (hs : Lockstep p tol s) (ht : tol.Accepted) (hart : s.factor.artificial = 0)
    {found : Option ℕ} (h : s.check.result = .ok found) (hdone : s.check.state.done = true) :
    Certified p tol s.check.state := by
  obtain ⟨-, lam, multipliers, hlam, hspread, hsmall, hall, hstate⟩ := check_done h hdone
  rw [hs.tolerances] at hsmall hall
  have hnorm := hs.norm_stationarity hart hlam hspread
  rw [hstate]
  refine ⟨congrArg some hnorm.symm, hnorm.trans_le hsmall, fun row hrow => ?_, fun row hrow => ?_⟩
  · by_cases hin : row ∈ s.rows.working
    · obtain ⟨j, hj⟩ := List.getElem?_of_mem hin
      have hlt := (List.getElem?_eq_some_iff.1 hj).1
      have hlen := hs.length_working
      change -tol.multiplier ≤ multipliers row
      rw [spread_of_getElem hspread hlen hs.sound.nodup.of_append_left hj hrow]
      exact hall j (by omega)
    · change -tol.multiplier ≤ multipliers row
      rw [spread_of_not_mem hspread hin]
      linarith [ht.multiplier]
  · exact spread_of_not_mem hspread hrow

theorem Lockstep.certified_settle (hs : Lockstep p tol s) (ht : tol.Accepted) (hnot : s.done = false)
    (h : s.settle.result = .ok ()) (hdone : s.settle.state.done = true) : Certified p tol s.settle.state := by
  rcases settle_cases h with ⟨-, -, hstate⟩ | ⟨hart, ⟨hcheck, hstate⟩ | ⟨i, hcheck, hremove, hstate⟩⟩
  · rw [hstate] at hdone
    have hdone : s.done = true := hdone
    rw [hnot] at hdone
    cases hdone
  · rw [hstate] at hdone ⊢
    exact hs.certified_check ht hart hcheck hdone
  · obtain ⟨-, rows, -, -, -, -, hstate'⟩ := remove_eq_ok hs.check.sound hremove
    rw [hstate, hstate'] at hdone
    have hfound := (check_done hcheck hdone).1
    cases hfound

theorem Lockstep.certified_iterate (hs : Lockstep p tol s) (ht : tol.Accepted) (hnot : s.done = false)
    (h : s.iterate.result = .ok ()) (hdone : s.iterate.state.done = true) : Certified p tol s.iterate.state := by
  obtain ⟨step, -, ⟨-, hstate⟩ | ⟨t, -, htaken, r, hr, hstate⟩⟩ := iterate_cases h
  · rw [hstate] at hdone
    have hdone : s.done = true := hdone
    rw [hnot] at hdone
    cases hdone
  · have hdone' : (s.taken step t).state.done = false := by
      obtain ⟨rows, factor, hmoved, -⟩ := hs.taken_eq_ok htaken
      rw [hmoved]
      exact hnot
    rw [hstate] at hdone ⊢
    have hdone : r.done = true := hdone
    rcases hr with ⟨-, rfl⟩ | ⟨-, hsettle, rfl⟩
    · rw [hdone'] at hdone
      cases hdone
    · have hcert := (hs.taken ht htaken).certified_settle ht hdone' hsettle hdone
      exact ⟨hcert.residual, hcert.small, hcert.multipliers, hcert.outside⟩

structure Tracked (p : Problem ℝ m n) (x₀ : Vec ℝ n) (tol : Tolerances ℝ) (s : Solver ℝ m n) : Prop where
  accepted : tol.Accepted
  lockstep : Lockstep p tol s
  certified : s.done = true → Certified p tol s
  feasible : tol.blocking = 0 → (∀ row < m, dot n (p.A row) x₀ ≤ p.b row) → Feasible p s

theorem tracked_start {x₀ : Vec ℝ n} {bounds : RadiusBounds ℝ} {events : List (Event ℝ)}
    (h : start p x₀ bounds tol = .ok (s, events)) : Tracked p x₀ tol s := by
  obtain ⟨ht, hs, hx, hworking, hdone⟩ := start_eq_ok h
  refine ⟨ht, hs, fun h => ?_, fun _ hfeas => ⟨?_, ?_⟩⟩
  · rw [hdone] at h
    cases h
  · rwa [hx]
  · rw [hworking]
    exact fun row hrow => nomatch hrow

theorem Tracked.iterate {x₀ : Vec ℝ n} (hs : Tracked p x₀ tol s) (hnot : s.done = false)
    (h : s.iterate.result = .ok ()) : Tracked p x₀ tol s.iterate.state :=
  ⟨hs.accepted, hs.lockstep.iterate hs.accepted h, hs.lockstep.certified_iterate hs.accepted hnot h,
    fun hblocking hfeas => (hs.feasible hblocking hfeas).iterate hs.lockstep hs.accepted hblocking h⟩

theorem exists_tracked {x₀ : Vec ℝ n} {bounds : RadiusBounds ℝ} {events : List (Event ℝ)}
    (hstart : start p x₀ bounds tol = .ok (s, events)) (hrun : (s.run o).result = .ok r)
    (hopt : r.status = .optimal) : ∃ t, Tracked p x₀ tol t ∧ Certified p tol t ∧ r.x = t.x ∧
      r.multipliers = t.multipliers ∧ r.working = t.rows.working ∧ r.dualResidual = t.residual := by
  obtain ⟨ht, hdone⟩ :=
    run_optimal (q := Tracked p x₀ tol) (fun _ hs hnot _ h => hs.iterate hnot h) (tracked_start hstart) hrun hopt
  obtain ⟨-, -, -, hreport⟩ := run_eq_ok rfl hrun
  exact ⟨_, ht, ht.certified hdone, hreport⟩

/-- An optimal report is a certificate, and one that the independent check accepts if the start was feasible. -/
theorem optimal_report_certified {x₀ : Vec ℝ n} {bounds : RadiusBounds ℝ} {events : List (Event ℝ)}
    (hP : p.P.Symmetric) (hstart : start p x₀ bounds tol = .ok (s, events))
    (hrun : (s.run o).result = .ok r) (hopt : r.status = .optimal) :
    r.dualResidual = some (norm n (p.stationarity r.x r.multipliers)) ∧
      norm n (p.stationarity r.x r.multipliers) ≤ tol.projectedGradient ∧
      (∀ row < m, -tol.multiplier ≤ r.multipliers row) ∧ (∀ row, row ∉ r.working → r.multipliers row = 0) ∧
      (0 < n → (∀ row < m, dot n (p.A row) x₀ ≤ p.b row) → tol.blocking = 0 →
        ∃ residuals, Intake.residuals (.ofMat p.P) (.ofList p.q.toList) (.ofMat p.A) (.ofList p.b.toList)
            (.ofList r.x.toList) (some (.ofList r.multipliers.toList)) = .ok residuals ∧
          residuals.primal = 0 ∧ residuals.complementary = 0 ∧
          ∀ c, max tol.projectedGradient tol.multiplier ≤ c → residuals.optimal c = true) := by
  obtain ⟨t, ht, hcert, hx, hmult, hworking, hdual⟩ := exists_tracked hstart hrun hopt
  rw [hx, hmult, hworking, hdual]
  refine ⟨hcert.residual, hcert.small, hcert.multipliers, hcert.outside, fun hn hfeas hblocking => ?_⟩
  have hf := ht.feasible hblocking hfeas
  have hprimal : (Residuals.ofProblem p t.x t.multipliers).primal = 0 := Residuals.primal_eq_zero hf.rows
  have hcomp : (Residuals.ofProblem p t.x t.multipliers).complementary = 0 := by
    refine Residuals.complementary_eq_zero fun row _ => ?_
    by_cases hin : row ∈ t.rows.working
    · exact Or.inr (hf.working row hin)
    · exact Or.inl (hcert.outside row hin)
  refine ⟨_, Intake.residuals_of_problem p t.x t.multipliers hn, hprimal, hcomp, fun c hc => ?_⟩
  have hc0 : 0 ≤ c := ht.accepted.multiplier.trans ((le_max_right _ _).trans hc)
  rw [Residuals.optimal_iff, hprimal, hcomp]
  refine ⟨?_, hc0, ?_, hc0⟩
  · exact (Residuals.stationarity_le hP hn).trans (hcert.small.trans ((le_max_left _ _).trans hc))
  · exact Residuals.dual_le hc0 fun row hrow => by
      linarith [hcert.multipliers row hrow, le_max_right tol.projectedGradient tol.multiplier]

/-- Downhill to the wall, whose multiplier is one, and the check accepts that without any tolerance. -/
theorem optimal_report_certified_wall : ∃ s events r, start wall 0 ⟨0, none⟩ strict = .ok (s, events) ∧
    (s.run ⟨5000, 0, 50⟩).result = .ok r ∧ r.status = .optimal ∧ r.x 0 = 1 ∧ r.working = [0] ∧ r.multipliers 0 = 1 ∧
      r.dualResidual = some 0 ∧
      ∃ residuals, Intake.residuals (.ofMat wall.P) (.ofList wall.q.toList) (.ofMat wall.A) (.ofList wall.b.toList)
          (.ofList r.x.toList) (some (.ofList r.multipliers.toList)) = .ok residuals ∧ residuals.optimal 0 = true := by
  obtain ⟨hP, hq, hA, -⟩ := get_line 0 (-1) 1 1
  obtain ⟨r, hrun, hopt, hx, hworking, -⟩ := run_ledge (o := ⟨5000, 0, 50⟩) le_rfl rfl
  obtain ⟨hdual, hsmall, -, -, hcheck⟩ := optimal_report_certified (symmetric_line 0 (-1) 1 1) start_wall hrun hopt
  obtain ⟨residuals, hresiduals, -, -, hoptimal⟩ := hcheck one_pos feasible_wall rfl
  have hzero : norm 1 (wall.stationarity r.x r.multipliers) = 0 :=
    le_antisymm hsmall (by rw [norm_eq]; exact Real.sqrt_nonneg _)
  -- nothing is left of the slope
  have hbalance : r.multipliers 0 = 1 := by
    have hentry := abs_le_norm (v := wall.stationarity r.x r.multipliers) one_pos
    rw [hzero] at hentry
    have hentry := abs_nonpos_iff.1 hentry
    unfold Problem.stationarity Problem.gradient at hentry
    rw [Vec.get_ofFn_of_lt _ one_pos, Mat.get_apply _ _ one_pos, dot_one, dot_one, wall, hP, hq, hA] at hentry
    linarith
  refine ⟨_, _, r, start_wall, hrun, hopt, hx, hworking, hbalance, ?_, residuals, hresiduals,
    hoptimal 0 (max_le le_rfl le_rfl)⟩
  exact hdual.trans (congrArg some hzero)

end Solver

end
end ActiveSet
