import Mathlib.Order.Filter.AtTopBot.Field
import ActiveSet.Proofs.Iterations
import ActiveSet.Proofs.Minimizer

/-! What an unbounded report says. Its ray is not zero, does not rise and leaves the working rows alone; it may
approach a row as slowly as the threshold lets it, and its curvature may be as large as what counts as none. If it
approaches no row and the objective does fall along it, there are feasible points below every bound. -/

namespace ActiveSet

noncomputable section
open Exact Filter

variable {m n : ℕ}

theorem tendsto_quadratic {f a c : ℝ} (h : c < 0 ∨ c = 0 ∧ a < 0) :
    Tendsto (fun t => f + t * a + 1 / 2 * (t * t * c)) atTop atBot := by
  rcases h with hc | ⟨rfl, ha⟩
  · -- far enough out the curvature outweighs the slope
    have hslope : Tendsto (fun t => a + 1 / 2 * c * t) atTop atBot :=
      tendsto_atBot_add_const_left _ _ (tendsto_id.const_mul_atTop_of_neg (by linarith))
    refine (tendsto_atBot_add_const_left _ f (tendsto_id.atTop_mul_atBot₀ hslope)).congr fun t => ?_
    rw [id]
    ring
  · refine (tendsto_atBot_add_const_left _ f (tendsto_id.atTop_mul_const_of_neg ha)).congr fun t => ?_
    rw [id]
    ring

theorem Problem.tendsto_objective {p : Problem ℝ m n} (hP : p.P.Symmetric) {y d : Vec ℝ n}
    (hfalls : p.P.form d d < 0 ∨ p.P.form d d = 0 ∧ dot n d (p.gradient y) < 0) :
    Tendsto (fun t => p.objective (y.along t d)) atTop atBot :=
  (tendsto_quadratic hfalls).congr fun t => (Problem.objective_along hP y d t).symm

def Problem.BoundedBelow (p : Problem ℝ m n) : Prop :=
  ∃ M, ∀ y : Vec ℝ n, (∀ row < m, dot n (p.A row) y ≤ p.b row) → M ≤ p.objective y

theorem Problem.rows_along {p : Problem ℝ m n} {y d : Vec ℝ n} (hy : ∀ row < m, dot n (p.A row) y ≤ p.b row)
    (hrows : ∀ row < m, dot n (p.A row) d ≤ 0) {t : ℝ} (ht : 0 ≤ t) :
    ∀ row < m, dot n (p.A row) (y.along t d) ≤ p.b row := fun row hrow => by
  rw [Solver.dot_along]
  have := mul_nonpos_of_nonneg_of_nonpos ht (hrows row hrow)
  linarith [hy row hrow]

/-- Along a direction that approaches no row and on which the objective falls, feasible points go below every
bound. -/
theorem Problem.exists_objective_lt {p : Problem ℝ m n} (hP : p.P.Symmetric) {y d : Vec ℝ n}
    (hy : ∀ row < m, dot n (p.A row) y ≤ p.b row) (hrows : ∀ row < m, dot n (p.A row) d ≤ 0)
    (hfalls : p.P.form d d < 0 ∨ p.P.form d d = 0 ∧ dot n d (p.gradient y) < 0) (M : ℝ) :
    ∃ z : Vec ℝ n, (∀ row < m, dot n (p.A row) z ≤ p.b row) ∧ p.objective z < M := by
  obtain ⟨t, hlt, ht⟩ := (((Problem.tendsto_objective hP hfalls).eventually_lt_atBot M).and
    (eventually_ge_atTop 0)).exists
  exact ⟨y.along t d, Problem.rows_along hy hrows ht, hlt⟩

namespace Solver

variable {p : Problem ℝ m n} {tol : Tolerances ℝ} {s : Solver ℝ m n} {o : Options} {r : Report ℝ m n}

theorem kept_curved (hP : p.P.Symmetric) (ht : tol.Accepted)
    (hsq : tol.indefinite * tol.indefinite ≤ (tol.rule p.P).flat) :
    Kept p tol fun F => F.Curved p.P (tol.rule p.P).flat ∧ F.UnitCorner :=
  ⟨fun _ _ _ hF hq _ _ h => ⟨hq.1.add hF hP hsq h, hF.unitCorner_add (ht.flat _) h⟩,
    fun _ _ hF hq h => ⟨hq.1.remove hF hP ht.indefinite (ht.flat _) h, hF.unitCorner_remove ht.indefinite h⟩⟩

theorem curved_initialFactor {P : Mat ℝ n n} (hP : P.Symmetric) (ht : tol.Accepted) :
    (initialFactor tol P).state.Curved P (tol.rule P).flat ∧ (initialFactor tol P).state.UnitCorner := by
  rw [state_initialFactor tol P rfl]
  have hempty : (OrthogonalFactor.empty : OrthogonalFactor ℝ n).Factors [] := OrthogonalFactor.factors_empty
  have hF : (ReducedFactor.ofFactor (tol.rule P) P OrthogonalFactor.empty).Shaped :=
    ReducedFactor.shaped_ofFactor hempty
  have hC : (ReducedFactor.ofFactor (tol.rule P) P OrthogonalFactor.empty).Curved P (tol.rule P).flat :=
    ReducedFactor.curved_ofFactor hP (ht.flat P)
  split_ifs with h
  · have hremove := ReducedFactor.remove_of_size_eq_zero (tol.rule P) P h.1 h.2
    exact ⟨hC.remove hF hP ht.indefinite (ht.flat P) hremove, hF.unitCorner_remove ht.indefinite hremove⟩
  · exact ⟨hC, ReducedFactor.unitCorner_ofFactor hempty⟩

/-- What is known of a direction without an end. -/
structure Recedes (p : Problem ℝ m n) (tol : Tolerances ℝ) (s : Solver ℝ m n) (d : Vec ℝ n) : Prop where
  nonzero : ∃ i < n, d i ≠ 0
  working : ∀ row ∈ s.rows.working, dot n (p.A row) d = 0
  rows : ∀ row < m, dot n (p.A row) d ≤ tol.blocking
  slope : dot n d (p.gradient s.x) ≤ 0
  curvature : tol.indefinite * tol.indefinite ≤ (tol.rule p.P).flat →
    p.P.form d d ≤ max tol.indefinite (tol.rule p.P).flat

/-- What holds along a run: the curvatures are factored up to those that count as zero, and a ray is one that nothing
stops. -/
structure Searching (p : Problem ℝ m n) (tol : Tolerances ℝ) (s : Solver ℝ m n) : Prop where
  accepted : tol.Accepted
  lockstep : Lockstep p tol s
  curved : tol.indefinite * tol.indefinite ≤ (tol.rule p.P).flat →
    s.factor.Curved p.P (tol.rule p.P).flat ∧ s.factor.UnitCorner
  ray : ∀ d, s.ray = some d → Recedes p tol s d

theorem Searching.recedes (hs : Searching p tol s) {step : Step ℝ n} (hstep : s.step = .ok step)
    (hlen : step.length = none) : Recedes p tol s step.direction := by
  obtain ⟨hconvex, hray, hfree⟩ := step_endless hstep hlen
  obtain ⟨hsize, hlast⟩ := convex_eq_false hconvex
  have hspanned := rayDirection_spanned hray
  have hdescends := descends_rayDirection p.P (tol.rule p.P).flat hs.lockstep.shaped hsize hray
  rw [hs.lockstep.gradient_eq] at hdescends
  rw [hs.lockstep.rule_eq] at hlast
  refine ⟨hdescends.nonzero, fun row hrow => hs.lockstep.dot_spanned hspanned hrow,
    fun row hrow => hs.lockstep.rate_le hs.accepted hspanned hfree hrow, hdescends.slope, fun hsq => ?_⟩
  obtain ⟨hC, hunit⟩ := hs.curved hsq
  rcases eq_or_ne (s.factor.d (s.factor.size - 1)) 0 with h0 | hne
  · exact le_max_of_le_right ((le_abs_self _).trans (hdescends.isFlat h0 hC hunit))
  · rw [hdescends.curved hne hC hunit]
    exact le_max_of_le_left hlast.le

theorem searching_start {x₀ : Vec ℝ n} {bounds : RadiusBounds ℝ} {events : List (Event ℝ)}
    (hP : p.P.Symmetric) (h : start p x₀ bounds tol = .ok (s, events)) : Searching p tol s := by
  obtain ⟨ht, hs, -⟩ := start_eq_ok h
  obtain ⟨-, accepted, -, -, rfl⟩ := start_state h
  exact ⟨ht, hs, fun _ => curved_initialFactor hP ht, fun d hd => nomatch hd⟩

theorem Searching.iterate (hs : Searching p tol s) (hP : p.P.Symmetric)
    (hnot : s.unbounded = false) (h : s.iterate.result = .ok ()) : Searching p tol s.iterate.state := by
  have hnone : s.ray = none := by simpa [unbounded] using hnot
  refine ⟨hs.accepted, hs.lockstep.iterate hs.accepted h,
    fun hsq => (kept_curved hP hs.accepted hsq).iterate hs.lockstep hs.accepted h (hs.curved hsq), fun d hd => ?_⟩
  obtain ⟨step, hstep, ⟨hlen, hstate⟩ | ⟨_, _, _, _, _, _, _, -, hstate⟩⟩ := hs.lockstep.iterate_eq_ok hs.accepted h
  · rw [hstate] at hd ⊢
    obtain rfl := Option.some.inj hd
    have hrecedes := hs.recedes hstep hlen
    exact ⟨hrecedes.nonzero, hrecedes.working, hrecedes.rows, hrecedes.slope, hrecedes.curvature⟩
  · -- a step with an end finds no ray
    rw [hstate] at hd
    cases hnone.symm.trans hd

theorem exists_recedes {x₀ : Vec ℝ n} {bounds : RadiusBounds ℝ} {events : List (Event ℝ)}
    (hP : p.P.Symmetric) (hstart : start p x₀ bounds tol = .ok (s, events))
    (hrun : (s.run o).result = .ok r) (hstatus : r.status = .unbounded) :
    ∃ d, (s.run o).state.solver.ray = some d ∧ Recedes p tol (s.run o).state.solver d := by
  obtain ⟨hsearching, hverdict⟩ := run_keeps (q := Searching p tol) (fun _ hs _ hnot h => hs.iterate hP hnot h)
    (searching_start hP hstart) hrun (by rw [hstatus]; exact nofun)
  rw [hstatus] at hverdict
  unfold Watched.verdict at hverdict
  split_ifs at hverdict with hunbounded
  obtain ⟨d, hd⟩ := Option.isSome_iff_exists.1 hunbounded
  exact ⟨d, hd, hsearching.ray d hd⟩

theorem validate_standard : (Tolerances.standard : Tolerances ℝ).validate = .ok () := by
  refine Tolerances.validate_eq_ok ?_ (by norm_num [Tolerances.standard])
  simp [Tolerances.magnitudes, Tolerances.standard]
  norm_num

/-- An unbounded report comes with a ray that leaves the working rows alone, approaches the others by no more than the
threshold and does not rise at the point of the report; unless all of `P` is tiny its curvature is at most what counts
as none. If it approaches no row and the objective falls along it, the problem is unbounded. -/
theorem unbounded_report_recedes {x₀ : Vec ℝ n} {bounds : RadiusBounds ℝ} {events : List (Event ℝ)}
    (hP : p.P.Symmetric)
    (hstart : start p x₀ bounds Tolerances.standard = .ok (s, events)) (hrun : (s.run o).result = .ok r)
    (hstatus : r.status = .unbounded) :
    ∃ d : Vec ℝ n, (s.run o).state.solver.ray = some d ∧ (∃ i < n, d i ≠ 0) ∧
      (∀ row ∈ r.working, dot n (p.A row) d = 0) ∧ (∀ row < m, dot n (p.A row) d ≤ 1e-11) ∧
      dot n d (p.gradient r.x) ≤ 0 ∧
      (1e-12 ≤ p.P.scale → p.P.form d d ≤ max 1e-12 (1e-12 * p.P.scale)) ∧
      ((∀ row < m, dot n (p.A row) d ≤ 0) → ∀ y : Vec ℝ n, (∀ row < m, dot n (p.A row) y ≤ p.b row) →
        (p.P.form d d < 0 ∨ p.P.form d d = 0 ∧ dot n d (p.gradient y) < 0) →
        ∀ M : ℝ, ∃ z : Vec ℝ n, (∀ row < m, dot n (p.A row) z ≤ p.b row) ∧ p.objective z < M) := by
  obtain ⟨d, hd, hrecedes⟩ := exists_recedes hP hstart hrun hstatus
  obtain ⟨-, -, -, hx, -, hworking, -⟩ := run_eq_ok rfl hrun
  rw [hx, hworking]
  refine ⟨d, hd, hrecedes.nonzero, hrecedes.working, hrecedes.rows, hrecedes.slope, fun hscale => ?_,
    fun hrows y hy hfalls => Problem.exists_objective_lt hP hy hrows hfalls⟩
  refine hrecedes.curvature ?_
  change (1e-12 : ℝ) * 1e-12 ≤ 1e-12 * p.P.scale
  linarith

theorem run_line {c g a b : ℝ} (hc : c ≤ 1e-24) (hb : -b < 1e-9)
    (hrow : ∀ e : ℝ, e * e = 1 → e * g ≤ 0 → a * e ≤ 1e-11) : ∃ s events r d,
      start (line c g a b) 0 ⟨0, none⟩ Tolerances.standard = .ok (s, events) ∧
      (s.run ⟨5000, 0, 50⟩).result = .ok r ∧ r.status = .unbounded ∧
      (s.run ⟨5000, 0, 50⟩).state.solver.ray = some d ∧ d 0 * d 0 = 1 ∧ d 0 * g ≤ 0 := by
  obtain ⟨hP, hq, hA, hb'⟩ := get_line c g a b
  have hlower : (0 : ℝ) < (Tolerances.standard : Tolerances ℝ).feasibility := by norm_num [Tolerances.standard]
  have hstart := start_single (p := line c g a b) validate_standard hlower.le hlower (by rw [hb']; exact hb)
  obtain ⟨ht, hs, -⟩ := start_eq_ok hstart
  set s := fromZero Tolerances.standard (line c g a b)
  obtain ⟨d, hstep, hone, hslope⟩ := exists_unit_ray (p := line c g a b) ht (by norm_num [Tolerances.standard])
    (by rw [hP]; norm_num [Tolerances.standard]; linarith) (by rw [hP]; norm_num [Tolerances.standard]; linarith)
  rw [hq] at hslope
  have hratios : s.ratios d = [none] := by
    rw [hs.ratios_single rfl, hA, if_neg]
    exact not_lt.2 (hrow (d 0) hone hslope)
  have hstep : s.step = .ok ⟨d, none, none⟩ := by
    rw [hstep, bounded_of_unlimited rfl (by change ¬(0 : ℝ) < -1; norm_num), hratios]
    rfl
  obtain ⟨hresult, hstate⟩ := iterate_of_endless hstep rfl
  obtain ⟨r, hr, hstatus, hfinal⟩ := run_of_decided (s := s) (o := ⟨5000, 0, 50⟩) rfl rfl rfl
    (withinRadius_fromZero (by norm_num [Tolerances.standard])) rfl hresult (Or.inr (Or.inl (by rw [hstate]; rfl)))
  refine ⟨s, _, r, d, hstart, hr, ?_, ?_, hone, hslope⟩
  · rw [hstatus, hstate]
    rfl
  · rw [hfinal, hstate]

theorem unbounded_report_recedes_line : ∃ s events r,
    start (line (-1) (-1) (-1) 0) 0 ⟨0, none⟩ Tolerances.standard = .ok (s, events) ∧
      (s.run ⟨5000, 0, 50⟩).result = .ok r ∧ r.status = .unbounded ∧
      ∀ M : ℝ, ∃ z : Vec ℝ 1, (∀ row < 1, dot 1 ((line (-1) (-1) (-1) 0).A row) z ≤ (line (-1) (-1) (-1) 0).b row) ∧
        (line (-1) (-1) (-1) 0).objective z < M := by
  obtain ⟨hP, -, hA, hb⟩ := get_line (-1) (-1) (-1) 0
  obtain ⟨s, events, r, d, hstart, hr, hstatus, hray, hone, hslope⟩ := run_line (c := -1) (g := -1) (a := -1) (b := 0)
    (by norm_num) (by norm_num) fun e hone hslope => by linarith
  obtain ⟨d', hray', -, -, -, -, -, hunbounded⟩ := unbounded_report_recedes (fun i hi j hj => by
    rw [Nat.lt_one_iff.1 hi, Nat.lt_one_iff.1 hj]) hstart hr hstatus
  obtain rfl : d = d' := Option.some.inj (hray.symm.trans hray')
  refine ⟨s, events, r, hstart, hr, hstatus, hunbounded (fun row hrow => ?_) 0 (fun row hrow => ?_) (Or.inl ?_)⟩
  · rw [Nat.lt_one_iff.1 hrow, dot_one, hA]
    linarith
  · rw [Nat.lt_one_iff.1 hrow, dot_one, Vec.get_zero, mul_zero, hb]
  · rw [Mat.form, dot_one, dot_one, hP]
    linarith

theorem objective_line (c g a b : ℝ) (y : Vec ℝ 1) :
    (line c g a b).objective y = 1 / 2 * (y 0 * (c * y 0)) + g * y 0 := by
  obtain ⟨hP, hq, -, -⟩ := get_line c g a b
  rw [Problem.objective_eq, Mat.form, dot_one, dot_one, dot_one, hP, hq]

theorem le_of_line {c g a b : ℝ} {y : Vec ℝ 1}
    (hy : ∀ row < 1, dot 1 ((line c g a b).A row) y ≤ (line c g a b).b row) : a * y 0 ≤ b := by
  have h := hy 0 one_pos
  rwa [dot_one, (get_line ..).2.2.1, (get_line ..).2.2.2] at h

/-- A solve from zero with the standard thresholds and options ends as unbounded. -/
def ReportedUnbounded (p : Problem ℝ 1 1) : Prop := ∃ s events r,
  start p 0 ⟨0, none⟩ Tolerances.standard = .ok (s, events) ∧ (s.run ⟨5000, 0, 50⟩).result = .ok r ∧
    r.status = .unbounded

theorem reportedUnbounded_line {c g a b : ℝ} (hc : c ≤ 1e-24) (hb : -b < 1e-9)
    (hrow : ∀ e : ℝ, e * e = 1 → e * g ≤ 0 → a * e ≤ 1e-11) : ReportedUnbounded (line c g a b) := by
  obtain ⟨s, events, r, d, hstart, hr, hstatus, -⟩ := run_line hc hb hrow
  exact ⟨s, events, r, hstart, hr, hstatus⟩

/-- What the thresholds hide: a row that is approached too slowly to stop a step, a curvature too small for a pivot,
a start that misses a row by less than the tolerance; and a direction along which nothing changes. -/
theorem unbounded_reports_of_bounded :
    (ReportedUnbounded (line 0 (-1) 1e-12 1) ∧ (line 0 (-1) 1e-12 1).BoundedBelow) ∧
    (ReportedUnbounded (line 1e-25 (-1) 0 0) ∧ (line 1e-25 (-1) 0 0).BoundedBelow) ∧
    (ReportedUnbounded (line 0 (-1) 0 (-1e-10)) ∧ (line 0 (-1) 0 (-1e-10)).BoundedBelow) ∧
    (ReportedUnbounded (line 0 0 0 0) ∧ (line 0 0 0 0).BoundedBelow) := by
  have hflat : ∀ g e : ℝ, e * e = 1 → e * g ≤ 0 → 0 * e ≤ 1e-11 := fun g e _ _ => by norm_num
  refine ⟨⟨reportedUnbounded_line (by norm_num) (by norm_num) fun e hone hslope => ?_, -1e12, fun y hy => ?_⟩,
    ⟨reportedUnbounded_line (by norm_num) (by norm_num) (hflat _), -5e24, fun y _ => ?_⟩,
    ⟨reportedUnbounded_line (by norm_num) (by norm_num) (hflat _), 0, fun y hy => ?_⟩,
    ⟨reportedUnbounded_line (by norm_num) (by norm_num) (hflat _), 0, fun y _ => ?_⟩⟩
  · have hle : e ≤ 1 := by nlinarith
    norm_num
    linarith
  · have hrow := le_of_line hy
    rw [objective_line]
    linarith
  · have hsquare := mul_nonneg (by norm_num : (0 : ℝ) ≤ 1 / 2 * 1e-25) (sq_nonneg (y 0 - 1e25))
    rw [objective_line]
    linarith
  · have hrow := le_of_line hy
    norm_num at hrow
  · rw [objective_line]
    norm_num

end Solver

end
end ActiveSet
