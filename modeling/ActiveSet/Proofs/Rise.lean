import ActiveSet.Proofs.Directions

/-! How far one iteration can raise the objective. Towards the minimizer over the free directions it falls. Along a ray
the slope does not rise, so all that can is half the square of the length times the curvature, and that is the last
entry of `D`; only where this was put to zero may there be more, as much as counts as none. -/

namespace ActiveSet

noncomputable section
open Exact

variable {m n : ℕ}

namespace Solver

variable {p : Problem ℝ m n} {tol : Tolerances ℝ} {s t : Solver ℝ m n} {x₀ d : Vec ℝ n} {bounds : RadiusBounds ℝ}
  {events : List (Event ℝ)} {flat : ℝ}

/-- The curvature of a ray, at most: of one that curves downward none, and of one whose curvature was put to zero all
that may have been. A step to a minimum has none to overlook. -/
def overlooked (s : Solver ℝ m n) : ℝ :=
  let last := s.factor.d (s.factor.size - 1)
  if s.factor.size = 0 ∨ s.tolerances.indefinite ≤ last ∨ last < 0 then 0
  else if last = 0 then s.tolerances.relativeCurvature * s.problem.P.scale
  else last

theorem overlooked_of_convex (h : s.convex = true) : s.overlooked = 0 := by
  refine if_pos ?_
  by_cases hsize : s.factor.size = 0
  · exact Or.inl hsize
  · exact Or.inr (Or.inl (convex_eq_true h hsize))

theorem Lockstep.form_le_overlooked (hs : Lockstep p tol s) (hC : s.factor.Curved p.P (tol.rule p.P).flat)
    (hunit : s.factor.UnitCorner) (hconvex : s.convex = false) {g : Vec ℝ n} (hd : rayDirection s.factor g = .ok d) :
    p.P.form d d ≤ s.overlooked := by
  obtain ⟨hsize, hlast⟩ := convex_eq_false hconvex
  have hlast : s.factor.d (s.factor.size - 1) < s.tolerances.indefinite := hlast
  obtain ⟨-, -, hcurved, hflat⟩ := descends_rayDirection p.P (tol.rule p.P).flat hs.shaped hsize hd
  unfold overlooked
  dsimp only
  rcases lt_trichotomy (s.factor.d (s.factor.size - 1)) 0 with hneg | hzero | hpos
  · rw [if_pos (Or.inr (Or.inr hneg)), hcurved hneg.ne hC hunit]
    exact hneg.le
  · rw [if_neg (by rintro (h | h | h) <;> first | omega | linarith), if_pos hzero, hs.tolerances, hs.problem]
    exact (le_abs_self _).trans (hflat hzero hC hunit)
  · rw [if_neg (by rintro (h | h | h) <;> first | omega | linarith), if_neg hpos.ne', hcurved hpos.ne' hC hunit]

/-- No further than the minimum a step towards it is downhill. -/
theorem Newton.objective_le {F : ReducedFactor ℝ n} (hd : Newton p.P F (p.gradient s.x) d) (hF : F.Shaped)
    (hC : F.Curved p.P flat) (hpos : ∀ i < F.size, 0 < F.d i) (hP : p.P.Symmetric) {u : ℝ}
    (hu : 0 ≤ u) (hu1 : u ≤ 1) : p.objective (s.x.along u d) ≤ p.objective s.x := by
  have hform : dot n d (p.gradient s.x) = -p.P.form d d := by rw [hd.form_eq hF hd.spanned, neg_neg]
  have hslope : dot n d (p.gradient s.x) ≤ 0 := by
    by_cases hne : ∃ i < n, d i ≠ 0
    · rw [dot_comm]
      exact (hd.dot_neg hF hC hpos hne).le
    · push Not at hne
      exact (dot_eq_zero fun i hi => by rw [hne i hi, zero_mul]).le
  have hway : 0 ≤ u * (1 - 1 / 2 * u) := mul_nonneg hu (by linarith)
  calc p.objective (s.x.along u d) = p.objective s.x + u * (1 - 1 / 2 * u) * dot n d (p.gradient s.x) := by
        rw [Problem.objective_along hP, show p.P.form d d = -dot n d (p.gradient s.x) by linarith]
        ring
    _ ≤ p.objective s.x := by linarith [mul_nonpos_of_nonneg_of_nonpos hway hslope]

theorem Lockstep.objective_step_le (hs : Lockstep p tol s) (ht : tol.Accepted)
    (hP : p.P.Symmetric) (hind : 0 < tol.indefinite)
    (hC : s.factor.Curved p.P (tol.rule p.P).flat) (hunit : s.factor.UnitCorner) {step : Step ℝ n}
    (hstep : s.step = .ok step) {u : ℝ} (hlen : step.length = some u) :
    p.objective (s.x.along u step.direction) ≤ p.objective s.x + u * u * (s.overlooked / 2) := by
  have hu := hs.length_nonneg ht.blocking hstep hlen
  cases hconvex : s.convex with
  | true =>
    rw [overlooked_of_convex hconvex, zero_div, mul_zero, add_zero]
    rcases step_of_convex hconvex hstep with ⟨-, rfl⟩ | ⟨-, d, hd, hbounded⟩
    · obtain rfl := Option.some.inj hlen
      rw [along_zero]
    · obtain ⟨rfl, -⟩ := bounded_eq_ok hbounded
      obtain ⟨u', hlen', hu1⟩ := bounded_le hbounded
      obtain rfl : u = u' := Option.some.inj (hlen.symm.trans hlen')
      have hpos := hs.positive_of_convex hind hconvex
      have hnewton := newton_projected hs.shaped hC hpos hd
      rw [hs.gradient_eq] at hnewton
      exact hnewton.objective_le hs.shaped hC hpos hP hu hu1
  | false =>
    obtain ⟨d, hd, hbounded⟩ := step_of_not_convex hconvex hstep
    obtain ⟨rfl, -⟩ := bounded_eq_ok hbounded
    obtain ⟨hsize, -⟩ := convex_eq_false hconvex
    have hslope := (descends_rayDirection p.P (tol.rule p.P).flat hs.shaped hsize hd).slope
    rw [hs.gradient_eq] at hslope
    have hform := hs.form_le_overlooked hC hunit hconvex hd
    rw [Problem.objective_along hP]
    linarith [mul_nonpos_of_nonneg_of_nonpos hu hslope, mul_le_mul_of_nonneg_left hform (mul_self_nonneg u)]

/-- Twice what the next step may raise the objective by. -/
def rise (s : Solver ℝ m n) : ℝ :=
  match s.step with
  | .ok ⟨_, some u, _⟩ => u * u * s.overlooked
  | _ => 0

theorem overlooked_nonneg (ht : 0 ≤ s.tolerances.relativeCurvature) : 0 ≤ s.overlooked := by
  unfold overlooked
  dsimp only
  split_ifs with hnone hzero
  · exact le_rfl
  · exact mul_nonneg ht s.problem.P.scale_nonneg
  · push Not at hnone
    exact hnone.2.2

theorem Lockstep.objective_iterate_le (hs : Lockstep p tol s) (ht : tol.Accepted) (hP : p.P.Symmetric)
    (hind : 0 < tol.indefinite) (hC : s.factor.Curved p.P (tol.rule p.P).flat) (hunit : s.factor.UnitCorner) :
    s.iterate.state.objective ≤ s.objective + s.rise / 2 := by
  have hrise : 0 ≤ s.rise := by
    unfold rise
    split
    · have hcurvature : 0 ≤ s.tolerances.relativeCurvature := by
        rw [hs.tolerances]
        exact ht.relativeCurvature
      exact mul_nonneg (mul_self_nonneg _) (overlooked_nonneg hcurvature)
    · exact le_rfl
  obtain hstate | ⟨step, hstep, ⟨-, hstate⟩ | ⟨u, _, _, _, _, _, _, hlen, hstate⟩⟩ := s.iterate_frame
  · rw [hstate]
    linarith
  · rw [hstate]
    exact le_add_of_nonneg_right (by linarith)
  · have hle := hs.objective_step_le ht hP hind hC hunit hstep hlen
    have hrises : s.rise = u * u * s.overlooked := by
      obtain ⟨d, length, blocking⟩ := step
      obtain rfl : length = some u := hlen
      unfold rise
      rw [hstep]
    rw [hstate, hrises]
    unfold Solver.objective
    rwa [hs.problem, mul_div_assoc]

/-- After any number of iterations the objective is no higher than at the start by more than their steps may have raised
it; a solve that overlooks no curvature never goes up. -/
theorem objective_iterates_le (hP : p.P.Symmetric) (hind : 0 < tol.indefinite)
    (hsq : tol.indefinite * tol.indefinite ≤ (tol.rule p.P).flat)
    (hstart : start p x₀ bounds tol = .ok (s, events)) (k : ℕ) (h : (s.iterates k).result = .ok ()) :
    (s.iterates k).state.objective ≤ s.objective + (∑ j ∈ Finset.range k, (s.iterates j).state.rise) / 2 := by
  obtain ⟨ht, -⟩ := start_eq_ok hstart
  induction k with
  | zero =>
    rw [Finset.sum_range_zero, zero_div, add_zero]
    exact le_rfl
  | succ k ih =>
    rw [iterates_succ] at h ⊢
    obtain ⟨⟨⟩, hk, -, hstate⟩ := Outcome.andThen_eq_ok h
    obtain ⟨hs, hC, hunit⟩ := iterates_curved hP hsq hstart k hk
    have hle := hs.objective_iterate_le ht hP hind hC hunit
    rw [hstate, Finset.sum_range_succ]
    linarith [ih hk]

theorem objective_iterates_le_ledge : ∃ s events, start (ledge (-1)) 0 ⟨0, none⟩ strict = .ok (s, events) ∧
    (s.iterates 1).result = .ok () ∧ s.rise = 0 ∧ (s.iterates 1).state.objective = -(3 / 2) ∧
      (s.iterates 1).state.objective ≤ s.objective + s.rise / 2 := by
  have hone : |(-1 : ℝ)| = 1 := by rw [abs_neg, abs_one]
  obtain ⟨hiterate, rows, factor, multipliers, residual, -, -, hstate⟩ := iterate_ledge (c := -1) (by norm_num)
  obtain ⟨hok, hiterated⟩ := iterates_one hiterate
  obtain ⟨hsize, hlast⟩ := last_ledge hone
  have hnone : (fromZero strict (ledge (-1))).overlooked = 0 := by
    unfold overlooked
    rw [hsize, hlast]
    norm_num
  have hobjective : (fromZero strict (ledge (-1))).iterate.state.objective = -(3 / 2) := by
    rw [hstate]
    refine (objective_line (-1) (-1) 1 1 _).trans ?_
    rw [Vec.get_ofFn_of_lt _ one_pos]
    norm_num
  have hrise : (fromZero strict (ledge (-1))).rise = 0 := by
    unfold rise
    rw [hnone]
    split
    · rw [mul_zero]
    · rfl
  have hle := objective_iterates_le (symmetric_line (-1) (-1) 1 1) strict_indefinite_pos (square_le_flat_ledge hone)
    (start_ledge (-1)) 1 hok
  rw [Finset.sum_range_one] at hle
  exact ⟨_, _, start_ledge (-1), hok, hrise, by rw [hiterated, hobjective], hle⟩

/-- As `strict`, but a curvature of up to the largest entry of the Hessian counts as none. -/
def coarse : Tolerances ℝ := { strict with relativeCurvature := 1 }

def valley : Problem ℝ 1 1 := line 1 (-1) 1 3

theorem validate_coarse : coarse.validate = .ok () := by
  refine Tolerances.validate_eq_ok ?_ (by norm_num [coarse, strict, Tolerances.standard])
  simp [Tolerances.magnitudes, coarse, strict, Tolerances.standard]
  norm_num

theorem start_valley : start valley 0 ⟨0, none⟩ coarse =
    .ok (fromZero coarse valley, (initialFactor coarse valley.P).events) := by
  refine start_single validate_coarse ?_ ?_ ?_
  · norm_num [coarse, strict, Tolerances.standard]
  · norm_num [coarse, strict, Tolerances.standard]
  · rw [valley, (get_line ..).2.2.2]
    norm_num [coarse, strict, Tolerances.standard]

theorem factor_valley : (fromZero coarse valley).factor.size = 1 ∧ (fromZero coarse valley).factor.u 0 0 = 1 ∧
    (fromZero coarse valley).factor.d 0 = 0 := by
  have hP : valley.P 0 0 = 1 := (get_line ..).1
  have hflat : (coarse.rule valley.P).flat = 1 := by
    change coarse.relativeCurvature * valley.P.scale = 1
    rw [valley, scale_line, abs_one]
    norm_num [coarse]
  obtain ⟨-, hsize, hd⟩ := initialFactor_single (Tolerances.accepted_of_validate validate_coarse) valley.P
  rw [hP, hflat] at hd
  rcases hd with ⟨-, hcurved, -⟩ | ⟨hunit, hd⟩
  · exact absurd hcurved (lt_irrefl 1)
  · rw [if_pos abs_one.le] at hd
    exact ⟨hsize, hunit, hd⟩

theorem step_valley :
    ∃ d : Vec ℝ 1, d 0 = 1 ∧ (fromZero coarse valley).step = .ok ⟨d, some 3, some 0⟩ := by
  obtain ⟨-, hq, hA, hb⟩ := get_line 1 (-1) 1 3
  obtain ⟨ht, hs, -⟩ := start_eq_ok start_valley
  obtain ⟨-, hunit, hd⟩ := factor_valley
  obtain ⟨d, hstep, hone, hslope⟩ := exists_unit_ray_of_last (p := valley) ht hunit (by
    refine hd.trans_lt ?_
    norm_num [coarse, strict, Tolerances.standard]) ⟨-1, none⟩
  have hd : d 0 = 1 := by
    rw [valley, hq] at hslope
    nlinarith
  have hratios : (fromZero coarse valley).ratios d = [some 3] := by
    rw [hs.ratios_single rfl, valley, hA, hb, hd]
    change [if (0 : ℝ) < _ then some (|3 - 1 * (0 : Vec ℝ 1) 0| / _) else none] = _
    rw [Vec.get_zero]
    norm_num
  refine ⟨d, hd, hstep.trans ?_⟩
  change (fromZero coarse valley).bounded d none = _
  rw [bounded_of_unlimited rfl (by change ¬(0 : ℝ) < -1; norm_num), hratios, tightest_single]
  rfl

/-- A state that iterations reach has a next step, and where that has an end the objective rises there by at most half
the square of its length times the curvature that the step overlooks. An iteration without an end does not move, and one
with an end moves there, whether or not a fault stops it afterwards. -/
theorem iterates_rise_at_most (hP : p.P.Symmetric) (hind : 0 < tol.indefinite)
    (hsq : tol.indefinite * tol.indefinite ≤ tol.relativeCurvature * p.P.scale)
    (hstart : start p x₀ bounds tol = .ok (s, events)) (k : ℕ) (h : (s.iterates k).result = .ok ())
    (ht : (s.iterates k).state = t) : ∃ step, t.step = .ok step ∧
      (step.length = none → t.iterate.state.x = t.x ∧ t.iterate.state.objective = t.objective) ∧
      ∀ u, step.length = some u → t.iterate.state.x = t.x.along u step.direction ∧
        t.iterate.state.objective ≤ t.objective + u * u * (t.overlooked / 2) := by
  obtain ⟨hs, hC, hunit⟩ := iterates_curved hP hsq hstart k h
  rw [ht] at hs hC hunit
  obtain ⟨haccepted, -⟩ := start_eq_ok hstart
  obtain ⟨step, hstep⟩ := exists_step hs.shaped
  refine ⟨step, hstep, fun hlen => ?_, fun u hlen => ?_⟩
  · obtain ⟨-, hstate⟩ := iterate_of_endless hstep hlen
    rw [hstate]
    exact ⟨rfl, rfl⟩
  · obtain ⟨_, _, _, _, _, _, hstate⟩ := iterate_along hstep hlen
    rw [hstate]
    refine ⟨rfl, ?_⟩
    unfold Solver.objective
    rw [hs.problem]
    exact hs.objective_step_le haccepted hP hind hC hunit hstep hlen

/-- Past the minimum of the valley the objective does rise, by `3/2`. -/
theorem iterates_rise_at_most_valley : ∃ s events, start valley 0 ⟨0, none⟩ coarse = .ok (s, events) ∧
    s.overlooked = 1 ∧ s.iterate.state.objective = s.objective + 3 / 2 ∧
      s.iterate.state.objective ≤ s.objective + 3 * 3 * (1 / 2) := by
  obtain ⟨hsize, -, hlast⟩ := factor_valley
  obtain ⟨d, hd, hstep⟩ := step_valley
  have hscale : valley.P.scale = 1 := by rw [valley, scale_line, abs_one]
  obtain ⟨step, hstep', -, hrise⟩ := iterates_rise_at_most (p := valley) (t := fromZero coarse valley)
    (symmetric_line 1 (-1) 1 3) (by norm_num [coarse, strict, Tolerances.standard])
    (by rw [hscale]; norm_num [coarse, strict, Tolerances.standard]) start_valley 0 rfl rfl
  obtain rfl := Except.ok.inj (hstep.symm.trans hstep')
  obtain ⟨hx, hle⟩ := hrise 3 rfl
  have hoverlooked : (fromZero coarse valley).overlooked = 1 := by
    unfold overlooked
    rw [hsize, hlast, if_neg (by norm_num [fromZero, coarse, strict, Tolerances.standard]), if_pos rfl]
    change coarse.relativeCurvature * valley.P.scale = 1
    rw [hscale]
    norm_num [coarse]
  rw [hoverlooked] at hle
  refine ⟨_, _, start_valley, hoverlooked, ?_, hle⟩
  obtain ⟨_, _, _, _, _, _, hstate⟩ := iterate_along hstep (t := 3) rfl
  have hproblem : (fromZero coarse valley).iterate.state.problem = valley := by
    rw [hstate]
    rfl
  have hend : (fromZero coarse valley).iterate.state.x 0 = 3 := by
    rw [hx, Vec.get_along _ _ _ one_pos, hd]
    change (0 : Vec ℝ 1) 0 + 3 * 1 = 3
    rw [Vec.get_zero]
    norm_num
  have hobjective : ∀ y : Vec ℝ 1, valley.objective y = 1 / 2 * (y 0 * (1 * y 0)) + -1 * y 0 :=
    objective_line 1 (-1) 1 3
  change (fromZero coarse valley).iterate.state.problem.objective _ = valley.objective 0 + 3 / 2
  rw [hproblem, hobjective, hobjective, hend, Vec.get_zero]
  norm_num

end Solver

end
end ActiveSet
