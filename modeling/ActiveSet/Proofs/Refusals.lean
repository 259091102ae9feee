import ActiveSet.Proofs.Crossings
import ActiveSet.Proofs.SingleRow

/-! What can stop a solve. In exact arithmetic every step exists, there is room for the row that blocks it and the
check goes through; so the only fault left is the refusal to set a direction free while the last curvature is not
above its threshold. -/

namespace ActiveSet

noncomputable section
open Exact

variable {m n : ℕ}

namespace Solver

variable {p : Problem ℝ m n} {tol : Tolerances ℝ} {s : Solver ℝ m n} {o : Options}

theorem Ranked.taken (hs : Ranked p tol s) {step : Step ℝ n} (hstep : s.step = .ok step) (t : ℝ) :
    Ranked p tol (s.taken step t).state := by
  have htaken := hs.lockstep.result_taken hs.accepted hstep t
  exact ⟨hs.accepted, hs.lockstep.taken hs.accepted htaken,
    (kept_nonsingular hs.accepted).taken hs.lockstep hstep htaken hs.nonsingular⟩

theorem Fault.IsUnsolvable.isNumerical {cause : Fault} (h : cause.IsUnsolvable ℝ) : cause.isNumerical = true := by
  rcases h with ⟨-, a, ha⟩ | ⟨place, rfl⟩
  · rw [isFinite_eq] at ha
    cases ha
  · rfl

theorem Breaks.isNumerical {bounds : RadiusBounds ℝ} {cause : Fault} (h : Breaks bounds cause) :
    cause.isNumerical = true := by
  rcases h with h | rfl | ⟨-, radius, -, -, hsquare⟩
  · exact Fault.IsUnsolvable.isNumerical h
  · rfl
  · rw [isFinite_eq] at hsquare
    cases hsquare

theorem Ranked.iterate_or (hs : Ranked p tol s) : s.iterate.result = .ok () ∨ ∃ step t, s.step = .ok step ∧
    step.length = some t ∧ (s.taken step t).state.settles step = true ∧ Refused (s.taken step t).state s.iterate := by
  have hrest : 0 ≤ s.tolerances.projectedGradient := by
    rw [hs.lockstep.tolerances]
    exact hs.accepted.projectedGradient
  rcases hs.lockstep.fits.iterate_or hrest with ⟨hok, -⟩ | ⟨step, t, hstep, hlen, -, hsettles, hrefused⟩ |
    ⟨cause, hcause, hbreaks⟩
  · exact Or.inl hok
  · exact Or.inr ⟨step, t, hstep, hlen, hsettles, hrefused⟩
  · -- no linear system breaks down
    have hunbroken := hs.unbroken_iterate cause hcause
    rw [hbreaks.isNumerical] at hunbroken
    cases hunbroken

/-- A refusal comes after a step that was not blocked: a curvature equal to the threshold is enough for the step and
not for what follows it, and a ray is settled only on a radius bound without a margin. -/
theorem Ranked.refused_cases (hs : Ranked p tol s) {step : Step ℝ n} {t : ℝ} {o : Outcome ℝ (Solver ℝ m n) Unit}
    (hstep : s.step = .ok step) (hlen : step.length = some t) (hsettles : (s.taken step t).state.settles step = true)
    (hrefused : Refused (s.taken step t).state o) : 0 < o.state.factor.size ∧
      (o.state.factor.d (o.state.factor.size - 1) = tol.indefinite ∨
        (o.state.factor.d (o.state.factor.size - 1) < tol.indefinite ∧ tol.radiusMargin ≤ 0)) := by
  obtain ⟨-, hfactor, hsize, hlast⟩ := hrefused
  obtain ⟨hblock, hmoved, hwithin⟩ := settles_taken hsize hsettles
  rw [hmoved] at hfactor hsize hlast
  have hlast : s.factor.d (s.factor.size - 1) ≤ tol.indefinite := by
    have hle : s.factor.d (s.factor.size - 1) ≤ s.rule.indefinite := not_lt.1 hlast
    rwa [hs.lockstep.rule_eq] at hle
  rw [hfactor]
  refine ⟨hsize, ?_⟩
  cases hconvex : s.convex with
  | true =>
    have hle : s.rule.indefinite ≤ s.factor.d (s.factor.size - 1) := by
      simpa [Solver.convex, hsize.ne'] using hconvex
    rw [hs.lockstep.rule_eq] at hle
    exact Or.inl (le_antisymm hlast hle)
  | false =>
    obtain ⟨-, hlt⟩ := convex_eq_false hconvex
    rw [hs.lockstep.rule_eq] at hlt
    obtain ⟨d, -, hbounded⟩ := step_of_not_convex hconvex hstep
    obtain ⟨rfl, -⟩ := bounded_eq_ok hbounded
    rcases bounded_unblocked hbounded hlen hblock with hmost | hlimit
    · cases hmost
    · have hmargin := margin_nonpos hlimit hwithin
      rw [hs.lockstep.tolerances] at hmargin
      exact Or.inr ⟨hlt, hmargin⟩

/-- In exact arithmetic a run from a start that was accepted makes a report unless a direction is not set free. The
last curvature of the solver that is left behind is then the threshold itself, or below it on a radius bound without
margin. -/
theorem exact_faults_of_run {x₀ : Vec ℝ n} {bounds : RadiusBounds ℝ} {events : List (Event ℝ)}
    (hstart : start p x₀ bounds tol = .ok (s, events)) (o : Options) : (∃ r, (s.run o).result = .ok r) ∨
      ((s.run o).result = .error .notPositive ∧ 0 < (s.run o).state.solver.factor.size ∧
        ((s.run o).state.solver.factor.d ((s.run o).state.solver.factor.size - 1) = tol.indefinite ∨
          ((s.run o).state.solver.factor.d ((s.run o).state.solver.factor.size - 1) < tol.indefinite ∧
            tol.radiusMargin ≤ 0))) := by
  set bad : Fault → Solver ℝ m n → Prop := fun cause t => cause = .notPositive ∧ 0 < t.factor.size ∧
    (t.factor.d (t.factor.size - 1) = tol.indefinite ∨
      (t.factor.d (t.factor.size - 1) < tol.indefinite ∧ tol.radiusMargin ≤ 0))
  have hstep : ∀ t, Ranked p tol t → (t.iterate.result = .ok () ∧ Ranked p tol t.iterate.state) ∨
      ∃ cause, t.iterate.result = .error cause ∧ bad cause t.iterate.state := fun t ht => by
    rcases ht.iterate_or with hok | ⟨step, v, hstep, hlen, hsettles, hrefused⟩
    · exact Or.inl ⟨hok, ht.iterate hok⟩
    · exact Or.inr ⟨_, hrefused.result, rfl, ht.refused_cases hstep hlen hsettles hrefused⟩
  rcases run_or bad (o := o) (fun _ ht => ht.lockstep.fits) hstep (ranked_start hstart) with
    ⟨r, hr, -⟩ | ⟨_, ⟨rfl, hlast⟩, ⟨-, hresult⟩ | ⟨hnumerical, -⟩⟩
  · exact Or.inl ⟨r, hr⟩
  · exact Or.inr ⟨hresult, hlast⟩
  · cases hnumerical

theorem exact_faults_of_run_wall : ∃ s events r, start wall 0 ⟨0, none⟩ strict = .ok (s, events) ∧
    (s.run ⟨5000, 0, 50⟩).result = .ok r := by
  obtain ⟨-, rows, factor, multipliers, residual, -, hsize, hstate⟩ := iterate_ledge (c := 0) le_rfl
  obtain ⟨-, -, -, -, -, hfinal⟩ := run_ledge (c := 0) (o := ⟨5000, 0, 50⟩) le_rfl rfl
  rcases exact_faults_of_run start_wall ⟨5000, 0, 50⟩ with ⟨r, hr⟩ | ⟨-, hpos, -⟩
  · exact ⟨_, _, r, start_wall, hr⟩
  · rw [show ((fromZero strict wall).run ⟨5000, 0, 50⟩).state.solver = _ from hfinal, hstate] at hpos
    exact absurd hsize hpos.ne'

end Solver

end
end ActiveSet
