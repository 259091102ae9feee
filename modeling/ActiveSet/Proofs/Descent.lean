import ActiveSet.Proofs.Definite
import ActiveSet.Proofs.Iterations
import ActiveSet.Proofs.Minimizer
import ActiveSet.Proofs.Refusals

/-! Solves of a strongly convex problem. Every direction leads to the minimum over the free ones, so the gradient along
it is minus its curvature, and a step of length at most one lowers the objective unless it leaves the point where it
is. With that nothing is refused, no ray is found and every run ends in a report. -/

namespace ActiveSet

noncomputable section
open Exact

variable {m n : ℕ}

namespace Solver

variable {p : Problem ℝ m n} {tol : Tolerances ℝ} {s : Solver ℝ m n} {F : ReducedFactor ℝ n} {g d : Vec ℝ n} {δ : ℝ}
  {x₀ : Vec ℝ n} {bounds : RadiusBounds ℝ} {events : List (Event ℝ)} {o : Options}

/-- `d` leads to the minimum over the free directions: the gradient there vanishes along all of them. -/
structure Newton (P : Mat ℝ n n) (F : ReducedFactor ℝ n) (g d : Vec ℝ n) : Prop where
  spanned : Spanned F d
  stationary : ∀ j < F.size, P.form (ReducedFactor.reversed F.basis.q j) d =
    -dot n (ReducedFactor.reversed F.basis.q j) g

theorem newton_newtonDirection {P : Mat ℝ n n} {flat : ℝ} (hF : F.Shaped) (hC : F.Curved P flat)
    (hd : ∀ i < F.size, 0 < F.d i) {along : ℕ → ℝ}
    (halong : ∀ j < F.size, along (F.width - 1 - j) = dot n (ReducedFactor.reversed F.basis.q j) g)
    (h : newtonDirection F along = .ok d) : Newton P F g d := by
  refine ⟨newtonDirection_spanned h, fun j hj => ?_⟩
  unfold newtonDirection at h
  obtain ⟨u, hu, h⟩ := bind_eq_ok.1 h
  obtain ⟨w, hw, h⟩ := bind_eq_ok.1 h
  obtain rfl := Except.ok.inj h
  obtain ⟨-, rfl⟩ := Triangular.solveT_eq_ok.1 hu
  obtain ⟨-, rfl⟩ := Triangular.solve_eq_ok.1 hw
  set u := Triangular.forward F.size F.u fun t => along (F.width - 1 - t)
  set w := Triangular.backward F.size F.u fun t => u t / F.d t
  have hexact : ReducedFactor.Exactly P F.size F.u F.d (ReducedFactor.reversed F.basis.q) :=
    hC.exactly fun i hi => (hd i (by omega)).ne'
  have hrow : P.form (ReducedFactor.reversed F.basis.q j) (F.expand w) = along (F.width - 1 - j) := by
    rw [Mat.form_congr (fun _ _ => rfl) fun i hi => hF.get_expand w hi, hexact.form_row w hj,
      ← Triangular.forward_solves (b := fun t => along (F.width - 1 - t)) hF.isUpper hF.pivot_ne_zero hj]
    refine dot_congr (fun _ _ => rfl) fun l hl => ?_
    rw [Triangular.backward_solves hF.isUpper hF.pivot_ne_zero hl]
    exact mul_div_cancel₀ _ (hd l hl).ne'
  have hneg : ∀ i < n, (Vec.ofFn fun i => -F.expand w i : Vec ℝ n) i = -1 * F.expand w i + 0 * F.expand w i :=
    fun i hi => by
      rw [Vec.get_ofFn_of_lt _ hi]
      ring
  rw [Mat.form_congr (fun _ _ => rfl) hneg, Mat.form_comb_right, hrow, halong j hj]
  ring

theorem newton_projected {flat : ℝ} (hF : s.factor.Shaped) (hC : s.factor.Curved p.P flat)
    (hd : ∀ i < s.factor.size, 0 < s.factor.d i) (h : newtonDirection s.factor s.projected = .ok d) :
    Newton p.P s.factor s.gradient d := by
  refine newton_newtonDirection hF hC hd (fun j hj => ?_) h
  have hwidth := hF.width_eq
  unfold projected
  rw [Vec.get_ofFn_of_lt _ (by omega), hwidth]
  exact dot_congr (fun i _ => ReducedFactor.z_eq_reversed hF.count hj i) fun _ _ => rfl

theorem Spanned.exists_coefficients (hd : Spanned F d) (hF : F.Shaped) :
    ∃ w : ℕ → ℝ, ∀ i < n, d i = dot F.size (fun j => ReducedFactor.reversed F.basis.q j i) w := by
  obtain ⟨c, w, hd⟩ := hd
  refine ⟨fun j => c * w j, fun i hi => ?_⟩
  rw [hd i hi, hF.get_expand w hi, dot_mul_right]

theorem Newton.form_eq {P : Mat ℝ n n} (hd : Newton P F g d) (hF : F.Shaped) {v : Vec ℝ n} (hv : Spanned F v) :
    P.form v d = -dot n v g := by
  obtain ⟨w, hw⟩ := hv.exists_coefficients hF
  rw [Mat.form_congr hw fun _ _ => rfl, Mat.form_dot_left, dot_congr hd.stationary fun _ _ => rfl,
    dot_congr hw fun _ _ => rfl, dot_comm n _ g, dot_transpose, dot_comm F.size _ w, dot_neg_right,
    dot_comm F.size _ w]

/-- From `x` to `y` the objective does not rise, and it falls if they differ. -/
structure Lowered (p : Problem ℝ m n) (x y : Vec ℝ n) : Prop where
  le : p.objective y ≤ p.objective x
  lt : y ≠ x → p.objective y < p.objective x

theorem Lowered.refl (p : Problem ℝ m n) (x : Vec ℝ n) : Lowered p x x := ⟨le_rfl, fun h => absurd rfl h⟩

theorem Lowered.trans {x y z : Vec ℝ n} (h : Lowered p x y) (h' : Lowered p y z) : Lowered p x z := by
  refine ⟨h'.le.trans h.le, fun hne => ?_⟩
  by_cases hyx : y = x
  · subst hyx
    exact h'.lt hne
  · exact h'.le.trans_lt (h.lt hyx)

theorem along_eq_self {x : Vec ℝ n} {t : ℝ} (h : ∀ i < n, t * d i = 0) : x.along t d = x :=
  Vec.ext fun i hi => by rw [Vec.get_along _ _ _ hi, h i hi, add_zero]

theorem Newton.lowered (hd : Newton p.P F (p.gradient s.x) d) (hF : F.Shaped) (hP : p.P.Symmetric)
    (habove : p.P.Above δ) (hδ : 0 < δ) {t : ℝ} (ht : 0 ≤ t) (ht1 : t ≤ 1) : Lowered p s.x (s.x.along t d) := by
  have hform : dot n d (p.gradient s.x) = -p.P.form d d := by rw [hd.form_eq hF hd.spanned, neg_neg]
  have hobjective : p.objective (s.x.along t d) = p.objective s.x - t * (1 - 1 / 2 * t) * p.P.form d d := by
    rw [Problem.objective_along hP, hform]
    ring
  have hcurved : 0 ≤ p.P.form d d := (mul_nonneg hδ.le (dot_self_nonneg n d)).trans (habove d)
  have hfactor : 0 ≤ t * (1 - 1 / 2 * t) := mul_nonneg ht (by linarith)
  refine ⟨?_, fun hne => ?_⟩
  · rw [hobjective]
    linarith [mul_nonneg hfactor hcurved]
  · -- a point that moves has a direction that is not zero
    have ht0 : 0 < t := lt_of_le_of_ne ht fun h0 => hne (along_eq_self fun i _ => by rw [← h0, zero_mul])
    have hd0 : 0 < dot n d d := lt_of_le_of_ne (dot_self_nonneg n d) fun h0 => hne (along_eq_self fun i hi => by
      rw [eq_zero_of_dot_self h0.symm i hi, mul_zero])
    have hpos : 0 < p.P.form d d := (mul_pos hδ hd0).trans_le (habove d)
    have hway : 0 < t * (1 - 1 / 2 * t) := mul_pos ht0 (by linarith)
    rw [hobjective]
    linarith [mul_pos hway hpos]

/-- A solve of a strongly convex problem under way. -/
structure Steady (p : Problem ℝ m n) (tol : Tolerances ℝ) (s : Solver ℝ m n) : Prop where
  ranked : Ranked p tol s
  definite : s.factor.Definite p.P (tol.rule p.P)
  ray : s.ray = none

theorem Steady.convex (hs : Steady p tol s) : s.convex = true := by
  cases hconvex : s.convex with
  | true => rfl
  | false =>
    obtain ⟨hsize, hlast⟩ := convex_eq_false hconvex
    rw [hs.ranked.lockstep.rule_eq] at hlast
    exact absurd (hs.definite.last hsize.ne') (not_lt.2 hlast.le)

/-- Each step stays where it is or goes towards the minimum over the free directions, at most as far as that. -/
theorem Steady.step_cases (hs : Steady p tol s) (h : Strong p.P (tol.rule p.P) δ) {step : Step ℝ n}
    (hstep : s.step = .ok step) :
    (norm s.factor.width s.projected ≤ tol.projectedGradient ∧ step = ⟨0, some 0, none⟩) ∨
      (Newton p.P s.factor (p.gradient s.x) step.direction ∧ s.bounded step.direction (some 1) = .ok step) := by
  have hlock := hs.ranked.lockstep
  rcases step_of_convex hs.convex hstep with ⟨hsmall, hrest⟩ | ⟨-, d, hd, hbounded⟩
  · rw [hlock.tolerances] at hsmall
    exact Or.inl ⟨hsmall, hrest⟩
  · obtain ⟨rfl, -⟩ := bounded_eq_ok hbounded
    have hnewton := newton_projected (p := p) hlock.shaped hs.definite.curved (hs.definite.positive hlock.shaped h) hd
    rw [hlock.gradient_eq] at hnewton
    exact Or.inr ⟨hnewton, hbounded⟩

/-- Every step has an end, and it is downhill. -/
theorem Steady.exists_length (hs : Steady p tol s) (h : Strong p.P (tol.rule p.P) δ) {step : Step ℝ n}
    (hstep : s.step = .ok step) : ∃ t, step.length = some t ∧ Lowered p s.x (s.x.along t step.direction) := by
  have hlock := hs.ranked.lockstep
  rcases hs.step_cases h hstep with ⟨-, rfl⟩ | ⟨hnewton, hbounded⟩
  · refine ⟨0, rfl, ?_⟩
    rw [along_zero]
    exact Lowered.refl p s.x
  · obtain ⟨t, hlen, ht1⟩ := bounded_le hbounded
    have ht := hlock.length_nonneg hs.ranked.accepted.blocking hstep hlen
    exact ⟨t, hlen, hnewton.lowered hlock.shaped h.symmetric h.above h.pos ht ht1⟩

theorem Steady.taken (hs : Steady p tol s) (h : Strong p.P (tol.rule p.P) δ) {step : Step ℝ n}
    (hstep : s.step = .ok step) (t : ℝ) : (s.taken step t).state.factor.Definite p.P (tol.rule p.P) :=
  (kept_definite h).taken hs.ranked.lockstep hstep (hs.ranked.lockstep.result_taken hs.ranked.accepted hstep t)
    hs.definite

theorem Steady.result_iterate (hs : Steady p tol s) (h : Strong p.P (tol.rule p.P) δ) :
    s.iterate.result = .ok () := by
  rcases hs.ranked.iterate_or with hok | ⟨step, t, hstep, -, -, hrefused⟩
  · exact hok
  · -- what a step leaves still has a curvature above the threshold
    have hlast := (hs.taken h hstep t).last hrefused.size.ne'
    have hrule := ((hs.ranked.taken hstep t).lockstep).rule_eq
    exact absurd hlast (hrule ▸ hrefused.last)

theorem Steady.iterate (hs : Steady p tol s) (h : Strong p.P (tol.rule p.P) δ) :
    Steady p tol s.iterate.state ∧ s.iterate.state.bounds = s.bounds ∧ Lowered p s.x s.iterate.state.x := by
  have hlock := hs.ranked.lockstep
  have hok := hs.result_iterate h
  have hranked := hs.ranked.iterate hok
  have hdefinite := (kept_definite h).iterate hlock hs.ranked.accepted hok hs.definite
  obtain ⟨step, hstep, ⟨hlen, -⟩ | ⟨t, _, _, _, _, _, _, hlen, hstate⟩⟩ := hlock.iterate_eq_ok hs.ranked.accepted hok
  · obtain ⟨t, ht, -⟩ := hs.exists_length h hstep
    rw [hlen] at ht
    cases ht
  · obtain ⟨t', ht', hlowered⟩ := hs.exists_length h hstep
    obtain rfl : t = t' := Option.some.inj (hlen.symm.trans ht')
    refine ⟨⟨hranked, hdefinite, ?_⟩, ?_, ?_⟩
    · rw [hstate]
      exact hs.ray
    · rw [hstate]
    · rw [hstate]
      exact hlowered

theorem iterates_go {q : Solver ℝ m n → Prop} (hstep : ∀ s, q s → s.iterate.result = .ok () ∧ q s.iterate.state)
    (k : ℕ) (hq : q s) : (s.iterates k).result = .ok () ∧ q (s.iterates k).state := by
  induction k with
  | zero => exact ⟨rfl, hq⟩
  | succ k ih =>
    obtain ⟨hk, hqk⟩ := ih
    obtain ⟨hresult, hstate⟩ := Outcome.andThen_of_ok (f := fun s _ => s.iterate) hk
    rw [iterates_succ, hresult, hstate]
    exact hstep _ hqk

theorem Steady.iterates (hs : Steady p tol s) (h : Strong p.P (tol.rule p.P) δ) (k : ℕ) :
    (s.iterates k).result = .ok () ∧ Steady p tol (s.iterates k).state :=
  iterates_go (q := Steady p tol) (fun _ hs => ⟨hs.result_iterate h, (hs.iterate h).1⟩) k hs

theorem strong_of_start (hP : p.P.Symmetric) (habove : p.P.Above δ)
    (hindefinite : tol.indefinite < δ) (hflat : tol.relativeCurvature * p.P.scale < δ) (hone : tol.indefinite < 1)
    (hstart : start p x₀ bounds tol = .ok (s, events)) : Strong p.P (tol.rule p.P) δ := by
  obtain ⟨ht, -⟩ := start_eq_ok hstart
  exact ⟨hP, habove, ht.indefinite, ht.flat p.P, hindefinite, hflat, hone⟩

theorem steady_start (h : Strong p.P (tol.rule p.P) δ) (hstart : start p x₀ bounds tol = .ok (s, events)) :
    Steady p tol s := by
  have hranked := ranked_start hstart
  obtain ⟨-, accepted, -, -, rfl⟩ := start_state hstart
  exact ⟨hranked, definite_initialFactor h, rfl⟩

theorem bounds_start (hlower : bounds.lower < tol.feasibility) (hupper : bounds.upper = none)
    (hstart : start p x₀ bounds tol = .ok (s, events)) : s.bounds = ⟨-1, none⟩ := by
  obtain ⟨-, accepted, haccepted, -, rfl⟩ := start_state hstart
  unfold acceptBounds at haccepted
  rw [hupper, if_neg (by simp), if_pos hlower] at haccepted
  exact (Except.ok.inj haccepted).symm

theorem verdict_cases (hray : s.ray = none) : Watched.verdict s = .optimal ∨ Watched.verdict s = .maxIter ∨
    (Watched.verdict s = .radiusBound ∧ s.withinRadius = false) := by
  unfold Watched.verdict
  have hbounded : s.unbounded = false := by rw [Solver.unbounded, hray]; rfl
  rw [if_neg (by rw [hbounded]; exact Bool.false_ne_true)]
  cases hwithin : s.withinRadius with
  | false => exact Or.inr (Or.inr ⟨rfl, rfl⟩)
  | true =>
    cases hdone : s.done with
    | true => exact Or.inl rfl
    | false => exact Or.inr (Or.inl rfl)

theorem Steady.exists_report (hs : Steady p tol s) (h : Strong p.P (tol.rule p.P) δ) : ∃ r, (s.run o).result = .ok r ∧
    r.status = Watched.verdict (s.run o).state.solver ∧ Steady p tol (s.run o).state.solver ∧
      (s.run o).state.solver.bounds = s.bounds := by
  rcases run_or (fun _ _ => False) (o := o) (q := fun t => Steady p tol t ∧ t.bounds = s.bounds)
    (fun _ ht => ht.1.ranked.lockstep.fits) (fun t ht => Or.inl ⟨ht.1.result_iterate h, (ht.1.iterate h).1,
      (ht.1.iterate h).2.1.trans ht.2⟩) ⟨hs, rfl⟩ with ⟨r, hr, hverdict, hend⟩ | ⟨_, hbad, -⟩
  · exact ⟨r, hr, hverdict, hend⟩
  · exact hbad.elim

/-- Where the curvature of `P` is above the thresholds everywhere, no direction is ever artificial, the last factored
curvature is above its threshold, no iteration is refused or finds a ray, and none raises the objective; one that moves
lowers it. Every run ends in a report: it is optimal, or out of iterations, or has met a radius bound. -/
theorem strongly_convex_solves_descend (hP : p.P.Symmetric)
    (habove : ∀ v : ℕ → ℝ, δ * dot n v v ≤ p.P.form v v) (hindefinite : tol.indefinite < δ)
    (hflat : tol.relativeCurvature * p.P.scale < δ) (hone : tol.indefinite < 1)
    (hstart : start p x₀ bounds tol = .ok (s, events)) :
    (∀ k, (s.iterates k).result = .ok () ∧ ∀ t, (s.iterates k).state = t →
      t.factor.artificial = 0 ∧ (0 < t.factor.size → tol.indefinite < t.factor.d (t.factor.size - 1)) ∧
      t.unbounded = false ∧ t.iterate.result = .ok () ∧ t.iterate.state.objective ≤ t.objective ∧
      (t.iterate.state.x ≠ t.x → t.iterate.state.objective < t.objective)) ∧
    ∀ o, ∃ r, (s.run o).result = .ok r ∧
      (r.status = .optimal ∨ r.status = .maxIter ∨ r.status = .radiusBound) ∧
      (bounds.lower < tol.feasibility → bounds.upper = none → tol.radiusMargin ≤ 1 → r.status ≠ .radiusBound) := by
  have h := strong_of_start hP habove hindefinite hflat hone hstart
  have hs := steady_start h hstart
  constructor
  · intro k
    obtain ⟨hok, ht⟩ := hs.iterates h k
    refine ⟨hok, fun t hstate => ?_⟩
    subst hstate
    obtain ⟨hnext, -, hlowered⟩ := ht.iterate h
    have hobjective : ∀ r : Solver ℝ m n, Steady p tol r → r.objective = p.objective r.x := fun r hr => by
      unfold Solver.objective
      rw [hr.ranked.lockstep.problem]
    rw [hobjective _ hnext, hobjective _ ht]
    -- each part is read off what a strongly convex solve keeps
    refine ⟨ht.definite.artificial, fun hsize => ht.definite.last hsize.ne', ?_, ht.result_iterate h, hlowered.le,
      hlowered.lt⟩
    rw [Solver.unbounded, ht.ray]
    rfl
  · intro o
    obtain ⟨r, hr, hverdict, hend, hkept⟩ := hs.exists_report (o := o) h
    refine ⟨r, hr, ?_, fun hlower hupper hmargin hradius => ?_⟩
    · rw [hverdict]
      exact (verdict_cases hend.ray).imp_right (Or.imp_right And.left)
    · have hwithin : (s.run o).state.solver.withinRadius = true := by
        refine withinRadius_of_unlimited (hkept.trans (bounds_start hlower hupper hstart)) ?_
        rwa [hend.ranked.lockstep.tolerances]
      rw [hverdict] at hradius
      rcases verdict_cases hend.ray with hopt | hmax | ⟨-, hout⟩
      · rw [hopt] at hradius
        cases hradius
      · rw [hmax] at hradius
        cases hradius
      · rw [hout] at hwithin
        cases hwithin

theorem above_line (c g a b : ℝ) : (line c g a b).P.Above c := fun v => by
  rw [Mat.form, dot_one, dot_one, dot_one, (get_line c g a b).1]
  exact (by ring : c * (v 0 * v 0) = v 0 * (c * v 0)).le

theorem strongly_convex_solves_descend_line : ∃ s events,
    start (line 1 (-2) 1 1) 0 ⟨0, none⟩ strict = .ok (s, events) ∧
      (∀ k, (s.iterates k).result = .ok ()) ∧ (s.iterates 1).state.objective ≤ s.objective ∧
      ∀ o, ∃ r, (s.run o).result = .ok r ∧ (r.status = .optimal ∨ r.status = .maxIter) := by
  have hstart : start (line 1 (-2) 1 1) 0 ⟨0, none⟩ strict = _ := start_line zero_le_one
  obtain ⟨hiterates, hruns⟩ := strongly_convex_solves_descend (δ := 1) (symmetric_line 1 (-2) 1 1)
    (above_line 1 (-2) 1 1) strict_indefinite_lt (flat_line_lt (-2) 1 1) strict_indefinite_lt hstart
  refine ⟨_, _, hstart, fun k => (hiterates k).1, ?_, fun o => ?_⟩
  · obtain ⟨-, -, -, hok, hle, -⟩ := (hiterates 0).2 (fromZero strict (line 1 (-2) 1 1)) rfl
    rwa [(iterates_one hok).2]
  · obtain ⟨r, hr, hstatus, hradius⟩ := hruns o
    have hinside := hradius strict_feasibility_pos rfl strict_radiusMargin_le
    refine ⟨r, hr, ?_⟩
    rcases hstatus with hopt | hmax | hbound
    · exact Or.inl hopt
    · exact Or.inr hmax
    · exact absurd hbound hinside

end Solver

end
end ActiveSet
