import ActiveSet.Proofs.SecondOrder

/-! The directions of a solve. Where the last curvature is positive the direction leads to the minimizer over the free
ones, the only one there is: the gradient vanishes along them at its end, and `P` is positive between them. Elsewhere it
is a ray, with the curvature that `D` ends in. Two triangular solves compute the first and one the second, on a factor
that takes the free directions in reverse, so both are read off the factorization that iterations keep. -/

namespace ActiveSet

noncomputable section
open Exact

variable {m n : ℕ}

namespace ReducedFactor

variable {p : Problem ℝ m n} {F : ReducedFactor ℝ n} {flat : ℝ} {x u v : Vec ℝ n}

def InRange (F : ReducedFactor ℝ n) (v : Vec ℝ n) : Prop := ∃ w : ℕ → ℝ, ∀ i < n, v i = dot F.width (F.z i) w

theorem inRange_iff : F.InRange v ↔ Solver.Spanned F v := by
  have hexpand : ∀ (w : ℕ → ℝ) {i : ℕ}, i < n → F.expand w i = dot F.width (F.z i) fun j => w (F.width - 1 - j) :=
    fun w i hi => Vec.get_ofFn_of_lt _ hi
  constructor
  · rintro ⟨w, hw⟩
    refine ⟨1, fun j => w (F.width - 1 - j), fun i hi => ?_⟩
    rw [hw i hi, one_mul, hexpand _ hi]
    refine dot_congr (fun _ _ => rfl) fun j hj => ?_
    rw [show F.width - 1 - (F.width - 1 - j) = j by omega]
  · rintro ⟨c, w, hw⟩
    refine ⟨fun j => c * w (F.width - 1 - j), fun i hi => ?_⟩
    rw [hw i hi, hexpand _ hi, dot_mul_right]

def Level (p : Problem ℝ m n) (F : ReducedFactor ℝ n) (y : Vec ℝ n) : Prop :=
  ∀ j < F.width, F.project (p.gradient y) j = 0

theorem Level.dot_reversed (hy : Level p F x) (hF : F.Shaped) {j : ℕ} (hj : j < F.size) :
    dot n (reversed F.basis.q j) (p.gradient x) = 0 := by
  have hwidth := hF.width_eq
  have hproject := hF.project_eq (p.gradient x) (j := F.size - 1 - j) (by omega)
  rw [show F.size - 1 - (F.size - 1 - j) = j by omega] at hproject
  rw [← hproject]
  exact hy _ (by omega)

/-- Among the ends of combinations of the free directions, one where the gradient vanishes along them is below every
other. -/
theorem Level.objective_lt (hP : p.P.Symmetric) (hF : F.Shaped) (hC : F.Curved p.P flat)
    (hpos : ∀ i < F.size, 0 < F.d i) (hu : F.InRange u) (hv : F.InRange v) (hlevel : Level p F (x.along 1 u))
    (hne : v ≠ u) : p.objective (x.along 1 u) < p.objective (x.along 1 v) := by
  obtain ⟨a, ha⟩ := (inRange_iff.1 hu).exists_coefficients hF
  obtain ⟨b, hb⟩ := (inRange_iff.1 hv).exists_coefficients hF
  have hgap : ∀ i < n, (x.along 1 v) i - (x.along 1 u) i =
      dot F.size (fun j => reversed F.basis.q j i) fun j => b j - a j := by
    intro i hi
    rw [Vec.get_along _ _ _ hi, Vec.get_along _ _ _ hi, dot_sub_right, ← ha i hi, ← hb i hi]
    ring
  have hslope : dot n (fun i => (x.along 1 v) i - (x.along 1 u) i) (p.gradient (x.along 1 u)) = 0 := by
    rw [dot_congr hgap fun _ _ => rfl, dot_comm, dot_transpose]
    exact dot_eq_zero fun j hj => by rw [hlevel.dot_reversed hF hj, zero_mul]
  have hcurved : 0 < p.P.form (fun i => (x.along 1 v) i - (x.along 1 u) i)
      fun i => (x.along 1 v) i - (x.along 1 u) i := by
    refine hC.form_pos hF hpos hgap ?_
    by_contra hnone
    push Not at hnone
    refine hne (Vec.ext fun i hi => ?_)
    have hzero := hnone i hi
    rw [Vec.get_along _ _ _ hi, Vec.get_along _ _ _ hi] at hzero
    linarith
  rw [Problem.objective_sub hP (x.along 1 u) (x.along 1 v), hslope]
  linarith

end ReducedFactor

namespace Solver

variable {p : Problem ℝ m n} {tol : Tolerances ℝ} {s t : Solver ℝ m n} {x₀ d : Vec ℝ n} {bounds : RadiusBounds ℝ}
  {events : List (Event ℝ)} {flat : ℝ}

theorem Newton.level {F : ReducedFactor ℝ n} (hd : Newton p.P F (p.gradient s.x) d) (hF : F.Shaped) :
    ReducedFactor.Level p F (s.x.along 1 d) := by
  intro j hj
  have hj : j < F.size := by rwa [hF.width_eq] at hj
  rw [hF.project_eq _ hj]
  exact hd.dot_gradient (by omega)

theorem Newton.nonzero (hd : Newton p.P s.factor (p.gradient s.x) d) (hs : Lockstep p tol s)
    (hnorm : 0 < norm s.factor.width (s.factor.project s.gradient)) : ∃ i < n, d i ≠ 0 := by
  by_contra hnone
  push Not at hnone
  refine hnorm.ne' (hs.norm_project fun j hj => ?_)
  have hform : p.P.form (ReducedFactor.reversed s.factor.basis.q j) d = 0 :=
    dot_eq_zero fun i _ => by rw [dot_eq_zero fun l hl => by rw [hnone l hl, mul_zero], mul_zero]
  have hstationary := hd.stationary j hj
  rw [hform] at hstationary
  linarith

theorem Newton.dot_neg {F : ReducedFactor ℝ n} (hd : Newton p.P F (p.gradient s.x) d) (hF : F.Shaped)
    (hC : F.Curved p.P flat) (hpos : ∀ i < F.size, 0 < F.d i) (hne : ∃ i < n, d i ≠ 0) :
    dot n (p.gradient s.x) d < 0 := by
  obtain ⟨w, hw⟩ := hd.spanned.exists_coefficients hF
  have hcurved := hC.form_pos hF hpos hw hne
  rw [hd.form_eq hF hd.spanned, dot_comm] at hcurved
  linarith

theorem convex_of_le (h : s.rule.indefinite ≤ s.factor.d (s.factor.size - 1)) : s.convex = true := by
  simp [Solver.convex, h]

theorem convex_of_lt (hsize : 0 < s.factor.size) (h : s.factor.d (s.factor.size - 1) < s.rule.indefinite) :
    s.convex = false := by
  simp [Solver.convex, h, hsize.ne']

theorem Lockstep.step_goes (hs : Lockstep p tol s)
    (hgo : s.convex = true → tol.projectedGradient < norm s.factor.width (s.factor.project (p.gradient s.x)))
    {step : Step ℝ n} (h : s.step = .ok step) :
    (s.convex = true ∧ newtonDirection s.factor s.projected = .ok step.direction ∧
      s.bounded step.direction (some 1) = .ok step) ∨
    (s.convex = false ∧ rayDirection s.factor (p.gradient s.x) = .ok step.direction ∧
      s.bounded step.direction none = .ok step) := by
  cases hconvex : s.convex with
  | true =>
    rcases step_of_convex hconvex h with ⟨hsmall, -⟩ | ⟨-, d, hd, hbounded⟩
    · rw [projected, norm_ofFn, hs.gradient_eq, hs.tolerances] at hsmall
      exact absurd (hgo hconvex) (not_lt.2 hsmall)
    · obtain ⟨rfl, -⟩ := bounded_eq_ok hbounded
      exact Or.inl ⟨rfl, hd, hbounded⟩
  | false =>
    obtain ⟨d, hd, hbounded⟩ := step_of_not_convex hconvex h
    obtain ⟨rfl, -⟩ := bounded_eq_ok hbounded
    rw [hs.gradient_eq] at hd
    exact Or.inr ⟨rfl, hd, hbounded⟩

theorem Lockstep.newton_of_step (hs : Lockstep p tol s) (hC : s.factor.Curved p.P flat) (hind : 0 < tol.indefinite)
    (hlast : tol.indefinite ≤ s.factor.d (s.factor.size - 1))
    (hgradient : tol.projectedGradient < norm s.factor.width (s.factor.project (p.gradient s.x))) {step : Step ℝ n}
    (h : s.step = .ok step) : Newton p.P s.factor (p.gradient s.x) step.direction := by
  rcases hs.step_goes (fun _ => hgradient) h with ⟨-, hd, -⟩ | ⟨hconvex, -⟩
  · have hpos := hs.shaped.positive_of_last fun _ => hind.trans_le hlast
    have hnewton := newton_projected hs.shaped hC hpos hd
    rwa [hs.gradient_eq] at hnewton
  · exact nomatch hconvex.symm.trans (convex_of_le (by rwa [hs.rule_eq]))

theorem Lockstep.ray_of_step (hs : Lockstep p tol s) (hsize : 0 < s.factor.size)
    (hlast : s.factor.d (s.factor.size - 1) < tol.indefinite) {step : Step ℝ n} (h : s.step = .ok step) :
    rayDirection s.factor (p.gradient s.x) = .ok step.direction := by
  have hconvex : s.convex = false := convex_of_lt hsize (by rwa [hs.rule_eq])
  rcases hs.step_goes (fun hc => nomatch hconvex.symm.trans hc) h with ⟨hc, -⟩ | ⟨-, hd, -⟩
  · exact nomatch hconvex.symm.trans hc
  · exact hd

theorem Lockstep.dot_step (hs : Lockstep p tol s) {step : Step ℝ n} (h : s.step = .ok step) {row : ℕ}
    (hrow : row ∈ s.rows.working) : dot n (p.A row) step.direction = 0 := by
  rcases step_cases h with rfl | ⟨d, most, hd, -, hbounded⟩
  · exact dot_eq_zero fun i _ => by rw [Vec.get_zero, mul_zero]
  · obtain ⟨rfl, -⟩ := bounded_eq_ok hbounded
    exact hs.dot_spanned hd hrow

theorem iterates_curved (hP : p.P.Symmetric)
    (hsq : tol.indefinite * tol.indefinite ≤ (tol.rule p.P).flat) (hstart : start p x₀ bounds tol = .ok (s, events))
    (k : ℕ) (h : (s.iterates k).result = .ok ()) : Lockstep p tol (s.iterates k).state ∧
      (s.iterates k).state.factor.Curved p.P (tol.rule p.P).flat ∧ (s.iterates k).state.factor.UnitCorner := by
  obtain ⟨ht, hs, -⟩ := start_eq_ok hstart
  have hcurved : s.factor.Curved p.P (tol.rule p.P).flat ∧ s.factor.UnitCorner := by
    obtain ⟨-, accepted, -, -, rfl⟩ := start_state hstart
    exact curved_initialFactor hP ht
  exact iterates_keep
    (q := fun s => Lockstep p tol s ∧ s.factor.Curved p.P (tol.rule p.P).flat ∧ s.factor.UnitCorner)
    (fun _ hs h => ⟨hs.1.iterate ht h, (kept_curved hP ht hsq).iterate hs.1 ht h hs.2⟩) k ⟨hs, hcurved⟩ h

theorem last_ledge {c : ℝ} (hc : |c| = 1) :
    (fromZero strict (ledge c)).factor.size = 1 ∧ (fromZero strict (ledge c)).factor.d 0 = c := by
  have hP := (get_ledge c).1
  have hflat : (strict.rule (ledge c).P).flat = 1e-12 := by
    change strict.relativeCurvature * (ledge c).P.scale = 1e-12
    rw [ledge, scale_line, hc]
    norm_num [strict, Tolerances.standard]
  obtain ⟨-, hsize, hd⟩ := initialFactor_single (Tolerances.accepted_of_validate validate_strict) (ledge c).P
  refine ⟨hsize, ?_⟩
  rcases hd with ⟨hlarge, -, hd⟩ | ⟨-, hd⟩
  · rw [hP] at hlarge
    exact hd.trans (hc.symm.trans (abs_of_pos ((mul_self_nonneg _).trans_lt hlarge)))
  · rw [if_neg (by rw [hflat, hP, hc]; norm_num), hP] at hd
    exact hd

/-- In every state that iterations reach, the direction leaves the working rows alone. If the last curvature reaches the
threshold and the gradient along the free directions exceeds its own, it is the one combination of them that leads to
the minimizer, the one at whose end the gradient vanishes along them, and it falls. If the last curvature stays below,
it is a combination of them that is not zero and does not rise, with that curvature; one of zero stands for any that
counts as none. -/
theorem directions_of_iterates (hP : p.P.Symmetric) (hind : 0 < tol.indefinite)
    (hsq : tol.indefinite * tol.indefinite ≤ tol.relativeCurvature * p.P.scale)
    (hstart : start p x₀ bounds tol = .ok (s, events)) (k : ℕ) (h : (s.iterates k).result = .ok ())
    (ht : (s.iterates k).state = t) : ∃ step, t.step = .ok step ∧
      (∀ row ∈ t.rows.working, dot n (p.A row) step.direction = 0) ∧
      (0 < t.factor.size → tol.indefinite ≤ t.factor.d (t.factor.size - 1) →
        tol.projectedGradient < norm t.factor.width (t.factor.project (p.gradient t.x)) →
        t.factor.InRange step.direction ∧ ReducedFactor.Level p t.factor (t.x.along 1 step.direction) ∧
          (∀ v, t.factor.InRange v → v ≠ step.direction →
            p.objective (t.x.along 1 step.direction) < p.objective (t.x.along 1 v) ∧
              ¬ReducedFactor.Level p t.factor (t.x.along 1 v)) ∧
          dot n (p.gradient t.x) step.direction < 0) ∧
      (0 < t.factor.size → t.factor.d (t.factor.size - 1) < tol.indefinite →
        (∃ i < n, step.direction i ≠ 0) ∧ t.factor.InRange step.direction ∧
          dot n (p.gradient t.x) step.direction ≤ 0 ∧
          (t.factor.d (t.factor.size - 1) ≠ 0 →
            p.P.form step.direction step.direction = t.factor.d (t.factor.size - 1)) ∧
          (t.factor.d (t.factor.size - 1) = 0 →
            |p.P.form step.direction step.direction| ≤ tol.relativeCurvature * p.P.scale)) := by
  obtain ⟨hs, hC, hunit⟩ := iterates_curved hP hsq hstart k h
  rw [ht] at hs hC hunit
  have hF := hs.shaped
  obtain ⟨haccepted, -⟩ := start_eq_ok hstart
  obtain ⟨step, hstep⟩ := exists_step hF
  refine ⟨step, hstep, fun row hrow => hs.dot_step hstep hrow, fun hsize hlast hgradient => ?_,
    fun hsize hlast => ?_⟩
  · have hpos := hF.positive_of_last fun _ => hind.trans_le hlast
    have hnewton := hs.newton_of_step hC hind hlast hgradient hstep
    have hrange := ReducedFactor.inRange_iff.2 hnewton.spanned
    have hlevel := hnewton.level hF
    refine ⟨hrange, hlevel, fun v hv hne => ?_, ?_⟩
    · have hlt := hlevel.objective_lt hP hF hC hpos hrange hv hne
      exact ⟨hlt, fun hlevel' => (hlevel'.objective_lt hP hF hC hpos hv hrange hne.symm).not_gt hlt⟩
    · refine hnewton.dot_neg hF hC hpos (hnewton.nonzero hs ?_)
      rw [hs.gradient_eq]
      exact haccepted.projectedGradient.trans_lt hgradient
  · have hray := hs.ray_of_step hsize hlast hstep
    have hdescends := descends_rayDirection p.P (tol.rule p.P).flat hF hsize hray
    refine ⟨hdescends.nonzero, ReducedFactor.inRange_iff.2 (rayDirection_spanned hray), ?_,
      fun hne => hdescends.curved hne hC hunit, fun h0 => hdescends.isFlat h0 hC hunit⟩
    rw [dot_comm]
    exact hdescends.slope

theorem directions_of_iterates_ledge :
    (∃ s events step, start (ledge 1) 0 ⟨0, none⟩ strict = .ok (s, events) ∧ s.step = .ok step ∧
      ReducedFactor.Level (ledge 1) s.factor (s.x.along 1 step.direction) ∧
        dot 1 ((ledge 1).gradient s.x) step.direction < 0) ∧
    ∃ s events step, start (ledge (-1)) 0 ⟨0, none⟩ strict = .ok (s, events) ∧ s.step = .ok step ∧
      (∃ i < 1, step.direction i ≠ 0) ∧ (ledge (-1)).P.form step.direction step.direction = -1 := by
  have hind := strict_indefinite_pos
  constructor
  · obtain ⟨hsize, hd⟩ := last_ledge (c := 1) abs_one
    obtain ⟨step, hstep, -, hnewton, -⟩ := directions_of_iterates (t := fromZero strict (ledge 1))
      (symmetric_line 1 (-1) 1 1) hind (square_le_flat_ledge abs_one) (start_ledge 1) 0 rfl rfl
    obtain ⟨-, hs, -⟩ := start_eq_ok (start_ledge 1)
    have hgradient : strict.projectedGradient < norm (fromZero strict (ledge 1)).factor.width
        ((fromZero strict (ledge 1)).factor.project (fromZero strict (ledge 1)).gradient) := by
      rw [hs.norm_project_single hsize, gradient_fromZero, (get_ledge 1).2.1]
      norm_num [strict]
    obtain ⟨-, hlevel, -, hslope⟩ := hnewton (by rw [hsize]; exact one_pos)
      (by rw [hsize, hd]; exact strict_indefinite_lt.le) hgradient
    exact ⟨_, _, step, start_ledge 1, hstep, hlevel, hslope⟩
  · have hone : |(-1 : ℝ)| = 1 := by rw [abs_neg, abs_one]
    obtain ⟨hsize, hd⟩ := last_ledge hone
    obtain ⟨step, hstep, -, -, hray⟩ := directions_of_iterates (t := fromZero strict (ledge (-1)))
      (symmetric_line (-1) (-1) 1 1) hind (square_le_flat_ledge hone) (start_ledge (-1)) 0 rfl rfl
    have hlast : (fromZero strict (ledge (-1))).factor.d ((fromZero strict (ledge (-1))).factor.size - 1) = -1 := by
      rw [hsize]
      exact hd
    obtain ⟨hne, -, -, hcurved, -⟩ := hray (by rw [hsize]; exact one_pos) (by rw [hlast]; linarith)
    exact ⟨_, _, step, start_ledge (-1), hstep, hne, (hcurved (by rw [hlast]; norm_num)).trans hlast⟩

end Solver

end
end ActiveSet
