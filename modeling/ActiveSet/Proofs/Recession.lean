import ActiveSet.Proofs.StepLength
import ActiveSet.Proofs.Turns
import ActiveSet.Proofs.Unbounded

/-! What a run has found when an iteration finds a ray. There is no outer radius bound, nothing but the ray is new, and
no working row and no slope speaks against it. If moreover the rows hold and its curvature is negative, the points along
it stay feasible and off the inner bound for good, and the objective goes below every bound. -/

namespace ActiveSet

noncomputable section
open Exact Filter

variable {m n : ℕ}

namespace Solver

/-- An iteration that finds a ray has made a step without an end, and all that is new is its direction. -/
theorem iterate_of_found {α : Type} [Scalar α] {s : Solver α m n} (hnot : s.unbounded = false)
    (hfound : s.iterate.state.unbounded = true) : ∃ step, s.step = .ok step ∧ step.length = none ∧
      s.iterate.state = { s with ray := some step.direction } := by
  have hchanged : ¬s.iterate.state.ray = s.ray := fun hray => by
    unfold unbounded at hnot hfound
    rw [hray, hnot] at hfound
    cases hfound
  obtain hstate | ⟨step, hstep, ⟨hlen, hstate⟩ | ⟨_, _, _, _, _, _, _, -, hstate⟩⟩ := s.iterate_frame
  · exact absurd (congrArg ray hstate) hchanged
  · exact ⟨step, hstep, hlen, hstate⟩
  · exact absurd (congrArg ray hstate) hchanged

variable {p : Problem ℝ m n} {tol : Tolerances ℝ} {s t : Solver ℝ m n} {x₀ d : Vec ℝ n} {bounds : RadiusBounds ℝ}
  {events : List (Event ℝ)} {o : Options} {calls : List (Solver ℝ m n)} {step : Step ℝ n}

/-- Between the radius bounds no ray is found unless the outer one is missing. -/
theorem InShell.upper_of_found (hx : InShell s.bounds s.x) (hs : Lockstep p tol s) (hnot : s.unbounded = false)
    (hfound : s.iterate.state.unbounded = true) : s.bounds.upper = none := by
  by_contra hsome
  obtain ⟨upper, hupper⟩ := Option.ne_none_iff_exists'.1 hsome
  have hnone := hs.ray_iterate hx hupper (by simpa [unbounded] using hnot)
  unfold unbounded at hfound
  rw [hnone] at hfound
  cases hfound

theorem norm_ne_of_endless (hstep : s.step = .ok step) (hlen : step.length = none)
    (hne : ∃ i < n, step.direction i ≠ 0) (hlower : 0 < s.bounds.lower) {u : ℝ} (hu : 0 ≤ u) :
    norm n (s.x.along u step.direction) ≠ s.bounds.lower := by
  intro hnorm
  obtain ⟨hconvex, -⟩ := step_endless hstep hlen
  obtain ⟨d, -, hbounded⟩ := step_of_not_convex hconvex hstep
  obtain ⟨rfl, -⟩ := bounded_eq_ok hbounded
  obtain ⟨i, hi, hdi⟩ := hne
  have hmoves : dot n step.direction step.direction ≠ 0 := fun h0 => hdi (eq_zero_of_dot_self h0 i hi)
  rw [norm_along, Real.sqrt_eq_iff_mul_self_eq_of_pos hlower] at hnorm
  obtain ⟨v, hv, -⟩ := bounded_within hbounded (crosses_of_sweep (Or.inr ⟨hlower, rfl⟩) hmoves hnorm.symm) hu
  rw [hlen] at hv
  cases hv

theorem Lockstep.form_of_endless (hs : Lockstep p tol s) (hC : s.factor.Curved p.P (tol.rule p.P).flat)
    (hunit : s.factor.UnitCorner) (hstep : s.step = .ok step) (hlen : step.length = none)
    (hlast : s.factor.d (s.factor.size - 1) < 0) : p.P.form step.direction step.direction < 0 := by
  obtain ⟨hconvex, hray, -⟩ := step_endless hstep hlen
  obtain ⟨hsize, -⟩ := convex_eq_false hconvex
  rwa [(descends_rayDirection p.P (tol.rule p.P).flat hs.shaped hsize hray).curved hlast.ne hC hunit]

theorem Recedes.along (hd : Recedes p tol s d) (hblocking : tol.blocking = 0)
    (hrows : ∀ row < m, dot n (p.A row) s.x ≤ p.b row) {u : ℝ} (hu : 0 ≤ u) :
    ∀ row < m, dot n (p.A row) (s.x.along u d) ≤ p.b row :=
  Problem.rows_along hrows (fun row hrow => (hd.rows row hrow).trans hblocking.le) hu

/-- Without a crossing ahead the radius bounds do not limit a step. -/
theorem radiusLimit_of_uncrossed (h : ∀ u, s.Crosses d u → u < 0) : s.radiusLimit d = .ok none := by
  obtain ⟨limit, hlimit⟩ := exists_radiusLimit s d
  obtain ⟨crossings, rfl, hcrosses⟩ := radiusLimit_eq_ok hlimit
  cases hnearest : nearest crossings with
  | none => rw [hlimit, hnearest]
  | some u =>
    obtain ⟨hu, hahead⟩ := nearest_eq_some hnearest
    exact absurd (h u ((hcrosses u).1 hu)) hahead.not_gt

/-- On the far side of a hill, with a radius bound from below. -/
def leaving : Solver ℝ 1 1 :=
  { fromZero strict (ledge (-1)) with bounds := ⟨1, none⟩, x := Vec.ofFn fun _ => -10 }

theorem get_leaving : leaving.x 0 = -10 := Vec.get_ofFn_of_lt _ one_pos

theorem norm_leaving : norm 1 leaving.x = 10 := by
  rw [norm_eq, dot_one, get_leaving, Real.sqrt_mul_self_eq_abs]
  norm_num

theorem start_leaving : start (ledge (-1)) leaving.x ⟨1, none⟩ strict =
    .ok (leaving, (initialFactor strict (ledge (-1)).P).events) := by
  have hfeasibility : strict.feasibility = 1e-9 := rfl
  have hbounds : acceptBounds strict ⟨1, none⟩ = .ok ⟨1, none⟩ := by
    have hlarge : ¬(1 : ℝ) < strict.feasibility := by
      rw [hfeasibility]
      norm_num
    simp [acceptBounds, hlarge]
  refine start_of_accepted validate_strict hbounds ?_
  have hrow : dot 1 ((ledge (-1)).A 0) leaving.x = -10 := by
    rw [dot_one, (get_ledge (-1)).2.2.1, get_leaving, one_mul]
  simp [violates, maximum, Problem.excess, hrow, (get_ledge (-1)).2.2.2, norm_leaving, hfeasibility]
  norm_num

theorem last_leaving : leaving.factor.d (leaving.factor.size - 1) = -1 := by
  obtain ⟨hsize, hlast⟩ := last_ledge (c := -1) (by rw [abs_neg, abs_one])
  change (fromZero strict (ledge (-1))).factor.d ((fromZero strict (ledge (-1))).factor.size - 1) = -1
  rw [hsize]
  exact hlast

theorem exists_step_leaving : ∃ step, leaving.step = .ok step ∧ leaving.bounded step.direction none = .ok step ∧
    step.direction 0 < 0 := by
  obtain ⟨-, hs, -⟩ := start_eq_ok start_leaving
  obtain ⟨hP, hq, -⟩ := get_ledge (-1)
  have hsize : 0 < leaving.factor.size := one_pos.trans_eq (last_ledge (c := -1) (by rw [abs_neg, abs_one])).1.symm
  have hlast : leaving.factor.d (leaving.factor.size - 1) < strict.indefinite := by
    rw [last_leaving]
    norm_num [strict, Tolerances.standard]
  obtain ⟨step, hstep⟩ := exists_step hs.shaped
  have hray := hs.ray_of_step hsize hlast hstep
  obtain ⟨⟨i, hi, hne⟩, hslope, -⟩ := descends_rayDirection (ledge (-1)).P 0 hs.shaped hsize hray
  have hgradient : (ledge (-1)).gradient leaving.x 0 = 9 := by
    change (Vec.ofFn fun i => ((ledge (-1)).P.apply leaving.x) i + (ledge (-1)).q i : Vec ℝ 1) 0 = 9
    rw [Vec.get_ofFn_of_lt _ one_pos, Mat.get_apply _ _ one_pos, dot_one, hP, hq, get_leaving]
    norm_num
  obtain ⟨d, -, hbounded⟩ := step_of_not_convex (convex_of_lt hsize (by rwa [hs.rule_eq])) hstep
  obtain ⟨rfl, -⟩ := bounded_eq_ok hbounded
  rw [dot_one, hgradient] at hslope
  rw [Nat.lt_one_iff.1 hi] at hne
  exact ⟨step, hstep, hbounded, lt_of_le_of_ne (by linarith) hne⟩

theorem iterate_leaving : leaving.iterate.state.unbounded = true := by
  obtain ⟨-, hs, -⟩ := start_eq_ok start_leaving
  obtain ⟨step, hstep, hbounded, hdown⟩ := exists_step_leaving
  have hratios : leaving.ratios step.direction = [none] := by
    rw [hs.ratios_single rfl, (get_ledge (-1)).2.2.1, one_mul, if_neg]
    exact hdown.not_gt
  have hlimit : leaving.radiusLimit step.direction = .ok none := by
    refine radiusLimit_of_uncrossed fun u hu => ?_
    obtain ⟨radius, roots, hradius | ⟨-, rfl⟩, hroots, hroot⟩ := hu
    · cases hradius
    have hon := Sphere.dot_of_crossing hroots hroot
    rw [dot_one, Vec.get_along _ _ _ one_pos, get_leaving] at hon
    change (-10 + u * step.direction 0) * (-10 + u * step.direction 0) = 1 * 1 at hon
    by_contra hahead
    have := mul_nonpos_of_nonneg_of_nonpos (not_lt.1 hahead) hdown.le
    nlinarith
  have hlen : step.length = none := by
    rw [bounded_of_uncrossed hlimit, hratios] at hbounded
    rw [← Except.ok.inj hbounded]
    rfl
  rw [(iterate_of_endless hstep hlen).2]
  rfl

theorem call_leaving {calls : List (Solver ℝ 1 1)} {out : Outcome ℝ (Watched ℝ 1 1) Unit}
    (h : Watched.Loops o (Watched.entered o leaving) calls out) : leaving ∈ calls := by
  have hinside : leaving.withinRadius = true := by
    refine Bool.and_eq_true_iff.2 ⟨decide_eq_true ?_, rfl⟩
    change 1 + strict.radiusMargin ≤ norm 1 leaving.x
    rw [norm_leaving]
    norm_num [strict, Tolerances.standard]
  have hmem := h.mem_of_undecided (Watched.undecided_iff.2 (by
    rw [Watched.solver_entered]
    exact ⟨rfl, rfl, Nat.zero_le _, hinside⟩))
  rwa [Watched.solver_entered] at hmem

/-- Where a call of a run finds a ray there is no outer radius bound, and the ray is all that the call changes. It is
not zero, leaves the working rows alone, approaches the ignored ones no faster than the threshold and does not rise.
If there is no threshold, the rows hold at the start and the last curvature is negative, then along the ray the rows
hold, the inner radius bound is not met unless it is disabled, and the objective falls without end. -/
theorem found_rays_recede (hP : p.P.Symmetric)
    (hsq : tol.indefinite * tol.indefinite ≤ tol.relativeCurvature * p.P.scale)
    (hstart : start p x₀ bounds tol = .ok (s, events))
    (hloops : Watched.Loops o (Watched.entered o s) calls (s.looped o)) (hcall : t ∈ calls)
    (hfound : t.iterate.state.unbounded = true) : bounds.upper = none ∧
      ∃ d : Vec ℝ n, t.iterate.state = { t with ray := some d } ∧ (∃ i < n, d i ≠ 0) ∧
        (∀ row ∈ t.rows.working, dot n (p.A row) d = 0) ∧
        (∀ row ∈ t.rows.ignored, dot n (p.A row) d ≤ tol.blocking) ∧
        dot n (p.gradient t.x) d ≤ 0 ∧
        (tol.blocking = 0 → (∀ row < m, dot n (p.A row) x₀ ≤ p.b row) → t.factor.d (t.factor.size - 1) < 0 →
          (∀ u, 0 ≤ u → ∀ row < m, dot n (p.A row) (t.x.along u d) ≤ p.b row) ∧
          (0 < bounds.lower → tol.feasibility ≤ bounds.lower →
            ∀ u, 0 ≤ u → norm n (t.x.along u d) ≠ bounds.lower) ∧
          Tendsto (fun u => p.objective (t.x.along u d)) atTop atBot) := by
  obtain ⟨ht, -⟩ := start_eq_ok hstart
  obtain ⟨hvalid, -⟩ := start_state hstart
  obtain ⟨-, hnot, -, hwithin⟩ := hloops.undecided_of_mem t hcall
  obtain ⟨k, hk, hreached⟩ := hloops.exists_iterates_of_mem t hcall
  rw [Watched.solver_entered] at hk hreached
  obtain ⟨hs, hC, hunit⟩ := iterates_curved hP hsq hstart k hk
  obtain ⟨-, halike⟩ := iterates_stay (q := Alike s) (fun _ h => h.iterate) k ⟨rfl, rfl⟩
  rw [hreached] at hs hC hunit halike
  have hbounds := halike.trans (stored_bounds hstart)
  obtain ⟨step, hstep, hlen, hstate⟩ := iterate_of_found hnot hfound
  have hray : t.ray = none := by simpa [unbounded] using hnot
  -- no ray was found before, so that of this step is the only one to account for
  have hsearching : Searching p tol t := ⟨ht, hs, fun _ => ⟨hC, hunit⟩, fun d hd => by
    rw [hray] at hd
    cases hd⟩
  have hrecedes := hsearching.recedes hstep hlen
  refine ⟨?_, step.direction, hstate, hrecedes.nonzero, hrecedes.working,
    fun row hrow => hrecedes.rows row ((hs.mem_iff row).1 (Or.inr hrow)), by rw [dot_comm]; exact hrecedes.slope,
    fun hblocking hfeas hlast => ⟨fun u hu => hrecedes.along hblocking ?_ hu, fun hpos hlower u hu => ?_,
      Problem.tendsto_objective hP (Or.inl (hs.form_of_endless hC hunit hstep hlen hlast))⟩⟩
  · have hmargin : 0 ≤ t.tolerances.radiusMargin := by
      rw [hs.tolerances]
      exact Tolerances.radiusMargin_nonneg hvalid
    have hupper := (inShell_of_withinRadius hmargin hwithin).upper_of_found hs hnot hfound
    rwa [hbounds] at hupper
  · obtain ⟨-, hf, -⟩ := iterates_feasible hfeas hblocking hstart k hk
    rw [hreached] at hf
    exact hf.rows
  · have hstored : t.bounds.lower = bounds.lower := by
      rw [hbounds]
      exact if_neg hlower.not_gt
    rw [← hstored] at hpos ⊢
    exact norm_ne_of_endless hstep hlen hrecedes.nonzero hpos hu

theorem found_rays_recede_leaving : ∃ s events calls d,
    start (ledge (-1)) leaving.x ⟨1, none⟩ strict = .ok (s, events) ∧
      Watched.Loops ⟨5000, 0, 50⟩ (Watched.entered ⟨5000, 0, 50⟩ s) calls (s.looped ⟨5000, 0, 50⟩) ∧ s ∈ calls ∧
      s.iterate.state.ray = some d ∧ (∀ u, 0 ≤ u → norm 1 (s.x.along u d) ≠ 1) ∧
      Tendsto (fun u => (ledge (-1)).objective (s.x.along u d)) atTop atBot := by
  obtain ⟨calls, hloops⟩ := exists_looped ⟨5000, 0, 50⟩ leaving
  have hcall := call_leaving hloops
  have hsq := square_le_flat_ledge (c := -1) (by rw [abs_neg, abs_one])
  have hrows : ∀ row < 1, dot 1 ((ledge (-1)).A row) leaving.x ≤ (ledge (-1)).b row := fun row hrow => by
    rw [Nat.lt_one_iff.1 hrow, dot_one, (get_ledge (-1)).2.2.1, (get_ledge (-1)).2.2.2, get_leaving]
    norm_num
  obtain ⟨-, d, hstate, -, -, -, -, hfalls⟩ := found_rays_recede (symmetric_line (-1) (-1) 1 1) hsq start_leaving hloops
    hcall iterate_leaving
  obtain ⟨-, hoff, htendsto⟩ := hfalls rfl hrows (by rw [last_leaving]; norm_num)
  exact ⟨leaving, _, calls, d, start_leaving, hloops, hcall, by rw [hstate],
    hoff one_pos (by norm_num [strict, Tolerances.standard]), htendsto⟩

end Solver

end
end ActiveSet
