import ActiveSet.Proofs.Descent

/-! Solves of a strongly convex problem do not cycle while they move. Where optimality is checked the gradient vanishes
along the free directions, so the point is the only minimizer over the points that meet the working rows. Two checks
with the same working rows are made at the same point, and as every step that moves lowers the objective, nothing has
moved between them. -/

namespace ActiveSet

noncomputable section
open Exact

variable {m n : ℕ}

namespace Solver

variable {p : Problem ℝ m n} {tol : Tolerances ℝ} {s r r' : Solver ℝ m n} {δ : ℝ} {x₀ : Vec ℝ n}
  {bounds : RadiusBounds ℝ} {events : List (Event ℝ)}

/-- An iteration from `s` checks optimality in the state `r`: it settles there, and no direction is artificial. -/
def Checks (s r : Solver ℝ m n) : Prop := SettlesAt s r ∧ r.factor.artificial = 0

theorem Checks.iterate_eq (h : Checks s r) : s.iterate.result = r.settle.result ∧
    r.settle = r.check.andThen fun s found => found.elim (.done s ()) fun idx => s.remove idx := by
  obtain ⟨⟨step, t, hstep, hlen, htaken, rfl, hsettles⟩, hart⟩ := h
  constructor
  · rw [iterate_eq hstep hlen, (Outcome.andThen_of_ok htaken).1]
    unfold finish
    rw [if_pos hsettles]
    cases hsettle : (s.taken step t).state.settle.result with
    | error cause => exact (Outcome.andThen_of_error hsettle).1
    | ok u => exact (Outcome.andThen_of_ok hsettle).1
  · unfold Solver.settle
    rw [if_neg (by omega)]
    congr 1
    funext s found
    cases found <;> rfl

theorem Checks.x_iterate (h : Checks s r) (hs : Lockstep p tol s) (ht : tol.Accepted)
    (hok : s.iterate.result = .ok ()) : s.iterate.state.x = r.x := by
  obtain ⟨⟨step, t, hstep, hlen, htaken, rfl, -⟩, -⟩ := h
  obtain ⟨rows, factor, hmoved, -⟩ := hs.taken_eq_ok htaken
  obtain ⟨step', hstep', ⟨hlen', -⟩ | ⟨t', _, _, _, _, _, _, hlen', hstate⟩⟩ := hs.iterate_eq_ok ht hok
  · obtain rfl : step = step' := Except.ok.inj (hstep.symm.trans hstep')
    rw [hlen] at hlen'
    cases hlen'
  · obtain rfl : step = step' := Except.ok.inj (hstep.symm.trans hstep')
    obtain rfl : t = t' := Option.some.inj (hlen.symm.trans hlen')
    rw [hstate, hmoved]

theorem Lockstep.norm_project (hs : Lockstep p tol s)
    (h : ∀ j < s.factor.size, dot n (ReducedFactor.reversed s.factor.basis.q j) (p.gradient s.x) = 0) :
    norm s.factor.width (s.factor.project s.gradient) = 0 := by
  have hF := hs.shaped
  rw [norm_eq, dot_eq_zero fun j hj => ?_, Real.sqrt_zero]
  have hj : j < s.factor.size := by rwa [hF.width_eq] at hj
  have hzero : s.factor.project s.gradient j = 0 := by
    rw [hF.project_eq _ hj, hs.gradient_eq]
    exact h _ (by omega)
  rw [hzero, zero_mul]

theorem Newton.dot_gradient {F : ReducedFactor ℝ n} {d : Vec ℝ n} (hd : Newton p.P F (p.gradient s.x) d) {j : ℕ}
    (hj : j < F.size) : dot n (ReducedFactor.reversed F.basis.q j) (p.gradient (s.x.along 1 d)) = 0 := by
  have hgradient : ∀ i < n, p.gradient (s.x.along 1 d) i = p.gradient s.x i + dot n (p.P i) d := fun i hi => by
    unfold Problem.gradient
    rw [Vec.get_ofFn_of_lt _ hi, Vec.get_ofFn_of_lt _ hi, Mat.get_apply _ _ hi, Mat.get_apply _ _ hi, dot_along]
    ring
  have hstationary := hd.stationary j hj
  unfold Mat.form at hstationary
  rw [dot_congr (fun _ _ => rfl) hgradient, dot_add_right, hstationary, add_neg_cancel]

/-- Inside the radius bounds by a margin, a check with directions left is one at rest or at the end of the whole way to
a minimum. -/
theorem Lockstep.checks_cases (hs : Lockstep p tol s) (hmargin : 0 < tol.radiusMargin) (hr : Checks s r) :
    r.factor.size = 0 ∨ (s.convex = true ∧ r.factor = s.factor ∧
      ((norm s.factor.width s.projected ≤ tol.projectedGradient ∧ r.x = s.x) ∨
        ∃ d, newtonDirection s.factor s.projected = .ok d ∧ r.x = s.x.along 1 d)) := by
  obtain ⟨⟨step, t, hstep, hlen, -, rfl, hsettles⟩, -⟩ := hr
  rcases Nat.eq_zero_or_pos (s.taken step t).state.factor.size with hsize | hsize
  · exact Or.inl hsize
  obtain ⟨hblock, hmoved, hwithin⟩ := settles_taken hsize hsettles
  rw [hmoved]
  -- a step that ends on a radius bound is not inside it
  have hinside : s.radiusLimit step.direction ≠ .ok (some t) := fun hlimit => by
    have hle := margin_nonpos hlimit hwithin
    rw [hs.tolerances] at hle
    exact absurd hmargin (not_lt.2 hle)
  cases hconvex : s.convex with
  | true =>
    refine Or.inr ⟨rfl, rfl, ?_⟩
    rcases step_of_convex hconvex hstep with ⟨hsmall, rfl⟩ | ⟨-, d, hd, hbounded⟩
    · obtain rfl := Option.some.inj hlen
      rw [hs.tolerances] at hsmall
      exact Or.inl ⟨hsmall, along_zero s.x⟩
    · obtain ⟨rfl, -⟩ := bounded_eq_ok hbounded
      rcases bounded_unblocked hbounded hlen hblock with hfull | hlimit
      · obtain rfl := Option.some.inj hfull
        exact Or.inr ⟨_, hd, rfl⟩
      · exact absurd hlimit hinside
  | false =>
    obtain ⟨d, -, hbounded⟩ := step_of_not_convex hconvex hstep
    obtain ⟨rfl, -⟩ := bounded_eq_ok hbounded
    rcases bounded_unblocked hbounded hlen hblock with hmost | hlimit
    · cases hmost
    · exact absurd hlimit hinside

theorem Lockstep.norm_le_at_check (hs : Lockstep p tol s) (ht : tol.Accepted) {flat : ℝ}
    (hC : s.factor.Curved p.P flat) (hpos : s.convex = true → ∀ i < s.factor.size, 0 < s.factor.d i)
    (hmargin : 0 < tol.radiusMargin) (hr : Checks s r) :
    norm r.factor.width (r.factor.project r.gradient) ≤ tol.projectedGradient := by
  have hlock : Lockstep p tol r := by
    obtain ⟨⟨step, t, -, -, htaken, rfl, -⟩, -⟩ := hr
    exact hs.taken ht htaken
  rcases hs.checks_cases hmargin hr with hsize | ⟨hconvex, hfactor, ⟨hsmall, hx⟩ | ⟨d, hd, hx⟩⟩
  · rw [hlock.norm_project fun j hj => by omega]
    exact ht.projectedGradient
  · rw [projected, norm_ofFn, hs.gradient_eq] at hsmall
    rwa [hlock.gradient_eq, hfactor, hx]
  · have hnewton := newton_projected hs.shaped hC (hpos hconvex) hd
    rw [hs.gradient_eq] at hnewton
    rw [hlock.norm_project fun j hj => ?_]
    · exact ht.projectedGradient
    · rw [hfactor] at hj ⊢
      rw [hx]
      exact hnewton.dot_gradient hj

theorem Steady.norm_at_check (hs : Steady p tol s) (h : Strong p.P (tol.rule p.P) δ)
    (hgradient : tol.projectedGradient = 0) (hmargin : 0 < tol.radiusMargin) (hr : Checks s r) :
    norm r.factor.width (r.factor.project r.gradient) = 0 := by
  have hle := hs.ranked.lockstep.norm_le_at_check hs.ranked.accepted hs.definite.curved
    (fun _ => hs.definite.positive hs.ranked.lockstep.shaped h) hmargin hr
  rw [hgradient] at hle
  refine le_antisymm hle ?_
  rw [norm_eq]
  exact Real.sqrt_nonneg _

theorem Lockstep.dot_gradient_eq (hs : Lockstep p tol s) (hart : s.factor.artificial = 0)
    (hzero : norm s.factor.width (s.factor.project s.gradient) = 0) {lam : Vec ℝ s.factor.basis.size}
    {multipliers : Vec ℝ m} (hlam : s.columnMultipliers = .ok lam)
    (hspread : spread s.rows.working s.factor.basis.size lam = .ok multipliers) (v : ℕ → ℝ) :
    dot n v (p.gradient s.x) = -dot m (fun row => dot n (p.A row) v) multipliers := by
  have hnorm := hs.norm_stationarity hart hlam hspread
  rw [hzero, norm_eq, Real.sqrt_eq_zero (dot_self_nonneg ..)] at hnorm
  have hstationary : dot n v (p.stationarity s.x multipliers) = 0 := dot_eq_zero fun i hi => by
    rw [eq_zero_of_dot_self hnorm i hi, mul_zero]
  rw [dot_stationarity] at hstationary
  linarith

/-- A direction that leaves the working rows alone is level where the gradient vanishes along the free ones. -/
theorem Ranked.dot_gradient (hs : Ranked p tol s) (hart : s.factor.artificial = 0)
    (hzero : norm s.factor.width (s.factor.project s.gradient) = 0) {v : ℕ → ℝ}
    (hv : ∀ row ∈ s.rows.working, dot n (p.A row) v = 0) : dot n v (p.gradient s.x) = 0 := by
  obtain ⟨lam, hlam⟩ := exists_columnMultipliers hs.nonsingular
  obtain ⟨multipliers, hspread⟩ := hs.lockstep.fits.exists_spread lam
  rw [hs.lockstep.dot_gradient_eq hart hzero hlam hspread, dot_eq_zero fun row _ => ?_, neg_zero]
  by_cases hin : row ∈ s.rows.working
  · rw [hv row hin, zero_mul]
  · rw [spread_of_not_mem hspread hin, mul_zero]

theorem gradient_sub (p : Problem ℝ m n) (x y : Vec ℝ n) {i : ℕ} (hi : i < n) :
    p.gradient y i - p.gradient x i = dot n (p.P i) fun j => y j - x j := by
  unfold Problem.gradient
  rw [Vec.get_ofFn_of_lt _ hi, Vec.get_ofFn_of_lt _ hi, Mat.get_apply _ _ hi, Mat.get_apply _ _ hi, dot_sub_right]
  ring

/-- Two points that meet the same working rows and are stationary along the free directions are the same. -/
theorem Ranked.x_eq (h : Strong p.P (tol.rule p.P) δ) (hr : Ranked p tol r) (hr' : Ranked p tol r') (hf : Feasible p r)
    (hf' : Feasible p r') (hart : r.factor.artificial = 0) (hart' : r'.factor.artificial = 0)
    (hzero : norm r.factor.width (r.factor.project r.gradient) = 0)
    (hzero' : norm r'.factor.width (r'.factor.project r'.gradient) = 0)
    (hsame : ∀ row, row ∈ r.rows.working ↔ row ∈ r'.rows.working) : r.x = r'.x := by
  set v : ℕ → ℝ := fun i => r'.x i - r.x i
  have hv : ∀ row ∈ r.rows.working, dot n (p.A row) v = 0 := fun row hrow => by
    rw [dot_sub_right, hf.working row hrow, hf'.working row ((hsame row).1 hrow), sub_self]
  have hlevel := hr.dot_gradient hart hzero hv
  have hlevel' := hr'.dot_gradient hart' hzero' fun row hrow => hv row ((hsame row).2 hrow)
  have hform : p.P.form v v = 0 := by
    have hgap : p.P.form v v = dot n v fun i => p.gradient r'.x i - p.gradient r.x i :=
      dot_congr (fun _ _ => rfl) fun i hi => (gradient_sub p r.x r'.x hi).symm
    rw [hgap, dot_sub_right, hlevel, hlevel', sub_zero]
  have hle := h.above v
  rw [hform] at hle
  have hself : dot n v v = 0 := le_antisymm (nonpos_of_mul_nonpos_right hle h.pos) (dot_self_nonneg n v)
  exact Vec.ext fun i hi => (sub_eq_zero.1 (eq_zero_of_dot_self hself i hi)).symm

theorem Steady.iterates_succ (hs : Steady p tol s) (h : Strong p.P (tol.rule p.P) δ) (k : ℕ) :
    (s.iterates (k + 1)).state = (s.iterates k).state.iterate.state := by
  rw [Solver.iterates_succ]
  exact (Outcome.andThen_of_ok (hs.iterates h k).1).2

theorem Steady.lowered (hs : Steady p tol s) (h : Strong p.P (tol.rule p.P) δ) (k : ℕ) :
    Lowered p (s.iterates k).state.x (s.iterates (k + 1)).state.x := by
  rw [hs.iterates_succ h k]
  exact ((hs.iterates h k).2.iterate h).2.2

theorem Steady.antitone_objective (hs : Steady p tol s) (h : Strong p.P (tol.rule p.P) δ) :
    Antitone fun k => p.objective (s.iterates k).state.x :=
  antitone_nat_of_succ_le fun k => (hs.lowered h k).le

theorem Steady.unmoved (hs : Steady p tol s) (h : Strong p.P (tol.rule p.P) δ) {i j : ℕ}
    (heq : (s.iterates i).state.x = (s.iterates j).state.x) {k : ℕ} (hik : i ≤ k) (hkj : k < j) :
    (s.iterates (k + 1)).state.x = (s.iterates k).state.x := by
  by_contra hne
  have hlt := (hs.lowered h k).lt hne
  have hfirst : p.objective (s.iterates k).state.x ≤ p.objective (s.iterates i).state.x := hs.antitone_objective h hik
  have hlast : p.objective (s.iterates j).state.x ≤ p.objective (s.iterates (k + 1)).state.x :=
    hs.antitone_objective h hkj
  rw [heq] at hfirst
  exact absurd (hlt.trans_le hfirst) (not_lt.2 hlast)

theorem Steady.feasible_iterates (hs : Steady p tol s) (h : Strong p.P (tol.rule p.P) δ) (hblocking : tol.blocking = 0)
    (hf : Feasible p s) (k : ℕ) : Feasible p (s.iterates k).state := by
  have hstep : ∀ s, Steady p tol s ∧ Feasible p s →
      s.iterate.result = .ok () ∧ Steady p tol s.iterate.state ∧ Feasible p s.iterate.state := by
    rintro s ⟨hs, hf⟩
    have hok := hs.result_iterate h
    exact ⟨hok, (hs.iterate h).1, hf.iterate hs.ranked.lockstep hs.ranked.accepted hblocking hok⟩
  exact (iterates_go hstep k ⟨hs, hf⟩).2.2

/-- Two checks of a solve with the same working rows are made at the same point, and no iteration between them has
moved it. -/
theorem checks_with_same_rows_agree (hP : p.P.Symmetric)
    (habove : ∀ v : ℕ → ℝ, δ * dot n v v ≤ p.P.form v v) (hindefinite : tol.indefinite < δ)
    (hflat : tol.relativeCurvature * p.P.scale < δ) (hone : tol.indefinite < 1)
    (hfeas : ∀ row < m, dot n (p.A row) x₀ ≤ p.b row) (hblocking : tol.blocking = 0)
    (hgradient : tol.projectedGradient = 0) (hmargin : 0 < tol.radiusMargin)
    (hstart : start p x₀ bounds tol = .ok (s, events)) {i j : ℕ}
    (hi : Checks (s.iterates i).state r) (hj : Checks (s.iterates j).state r')
    (hsame : ∀ row, row ∈ r.rows.working ↔ row ∈ r'.rows.working) :
    r.x = r'.x ∧ ∀ k, i < k → k ≤ j → (s.iterates (k + 1)).state.x = (s.iterates k).state.x := by
  have h := strong_of_start hP habove hindefinite hflat hone hstart
  have hs := steady_start h hstart
  -- what is known in the state of a check
  have hcheck : ∀ k r, Checks (s.iterates k).state r → Ranked p tol r ∧ Feasible p r ∧ r.factor.artificial = 0 ∧
      norm r.factor.width (r.factor.project r.gradient) = 0 ∧ (s.iterates (k + 1)).state.x = r.x := by
    intro k r hr
    obtain ⟨-, ht⟩ := hs.iterates h k
    have hfk := hs.feasible_iterates h hblocking ((tracked_start hstart).feasible hblocking hfeas) k
    have hx := hr.x_iterate ht.ranked.lockstep ht.ranked.accepted (ht.result_iterate h)
    rw [← hs.iterates_succ h k] at hx
    have hnorm := ht.norm_at_check h hgradient hmargin hr
    obtain ⟨⟨step, t, hstep, hlen, htaken, rfl, -⟩, hart⟩ := hr
    exact ⟨ht.ranked.taken hstep t, hfk.taken ht.ranked.lockstep hblocking hstep hlen htaken, hart, hnorm, hx⟩
  obtain ⟨hr, hf, hart, hzero, hx⟩ := hcheck i r hi
  obtain ⟨hr', hf', hart', hzero', hx'⟩ := hcheck j r' hj
  have heq := Ranked.x_eq h hr hr' hf hf' hart hart' hzero hzero' hsame
  refine ⟨heq, fun k hik hkj => ?_⟩
  exact hs.unmoved h (hx.trans (heq.trans hx'.symm)) hik (Nat.lt_succ_of_le hkj)

theorem Lockstep.checks_at_rest (hs : Lockstep p tol s) (hart : s.factor.artificial = 0) (hconvex : s.convex = true)
    (hradius : s.withinRadius = true)
    (hsmall : norm s.factor.width (s.factor.project s.gradient) ≤ tol.projectedGradient) : Checks s s := by
  refine ⟨⟨⟨0, some 0, none⟩, 0, hs.step_at_rest hconvex hsmall, rfl, ?_, ?_, ?_⟩, hart⟩
  · rw [taken_at_rest]
    rfl
  · rw [taken_at_rest]
    rfl
  · simp [settles, hradius]

theorem Newton.single {P : Mat ℝ 1 1} {F : ReducedFactor ℝ 1} {g d : Vec ℝ 1} (h : Newton P F g d) (hF : F.Shaped)
    (hsize : F.size = 1) : P 0 0 * d 0 = -g 0 := by
  obtain ⟨W, hW⟩ := hF.factors
  have hq := hW.orthogonal 0 one_pos 0 one_pos
  have hstationary := h.stationary 0 (by omega)
  rw [Mat.form, dot_one, dot_one, dot_one] at hstationary
  rw [dot_one, if_pos rfl] at hq
  unfold ReducedFactor.reversed at hstationary
  linear_combination F.basis.q 0 0 * hstationary - (P 0 0 * d 0 + g 0) * hq

theorem step_halfway : ∃ d : Vec ℝ 1, d 0 = 2 ∧
    (fromZero strict (line 1 (-2) 1 1)).step = .ok ⟨d, some (1 / 2), some 0⟩ := by
  obtain ⟨hP, hq, hA, hb⟩ := get_line 1 (-2) 1 1
  have hstart : start (line 1 (-2) 1 1) 0 ⟨0, none⟩ strict = _ := start_line zero_le_one
  have h := strong_of_start (symmetric_line 1 (-2) 1 1) (above_line 1 (-2) 1 1)
    strict_indefinite_lt (flat_line_lt (-2) 1 1) strict_indefinite_lt hstart
  have hs := steady_start h hstart
  have hlock := hs.ranked.lockstep
  obtain ⟨-, hsize, -⟩ := initialFactor_single hs.ranked.accepted (line 1 (-2) 1 1).P
  obtain ⟨step, hstep⟩ := exists_step hlock.shaped
  refine ⟨step.direction, ?_⟩
  rcases hs.step_cases h hstep with ⟨hsmall, -⟩ | ⟨hnewton, hbounded⟩
  · -- the slope at the start is not small
    rw [projected, norm_ofFn, hlock.norm_project_single hsize, gradient_fromZero, hq] at hsmall
    norm_num [strict] at hsmall
  have hd : step.direction 0 = 2 := by
    have hsingle := hnewton.single hlock.shaped hsize
    rw [← hlock.gradient_eq, gradient_fromZero, hP, hq] at hsingle
    linarith
  refine ⟨hd, ?_⟩
  have hratios : (fromZero strict (line 1 (-2) 1 1)).ratios step.direction = [some (1 / 2)] := by
    rw [hlock.ratios_single rfl, hA, hb, hd]
    change [if (0 : ℝ) < _ then some (|1 - 1 * (0 : Vec ℝ 1) 0| / _) else none] = _
    rw [Vec.get_zero]
    norm_num
  have hlength : Scalar.smaller (1 : ℝ) (1 / 2) = 1 / 2 := by
    rw [smaller_eq]
    norm_num
  rw [hstep, ← hbounded]
  unfold bounded
  rw [radiusLimit_of_unlimited rfl (by change ¬(0 : ℝ) < -1; norm_num), hratios, tightest_single]
  simp only [Except.map, shorter, Option.map_some, Option.bind_some, hlength, Option.any_some, if_pos (same_iff.2 rfl)]

/-- The first iteration takes up the row and checks there; the next one rests on it and checks again. -/
theorem checks_with_same_rows_agree_line : ∃ s events r r',
    start (line 1 (-2) 1 1) 0 ⟨0, none⟩ strict = .ok (s, events) ∧
    s.rows.working = [] ∧ Checks (s.iterates 0).state r ∧ Checks (s.iterates 1).state r' ∧ r.rows.working = [0] ∧
      r'.rows.working = [0] ∧ r.x 0 = 1 ∧ r.x = r'.x ∧ (s.iterates 2).state.x = (s.iterates 1).state.x := by
  have hstart : start (line 1 (-2) 1 1) 0 ⟨0, none⟩ strict = _ := start_line zero_le_one
  have hs := ranked_start hstart
  have hmargin := strict_radiusMargin_le
  obtain ⟨d, hd, hstep⟩ := step_halfway
  obtain ⟨htaken, rows, factor, hstate, hworking, -, hart, hsettles⟩ := hs.taken_single hmargin hstep
  have hmultiplier : ∀ lam : ℝ, 1 * lam = -(1 * (1 / 2 * d 0) + -2) → -strict.multiplier ≤ lam := fun lam hlam => by
    rw [hd] at hlam
    change -0 ≤ lam
    linarith
  obtain ⟨hiterate, rows', factor', multipliers, residual, hworking', hsize', hart', hiterated⟩ :=
    hs.iterate_line hmargin hstep hmultiplier
  set s := fromZero strict (line 1 (-2) 1 1)
  have hfirst : Checks (s.iterates 0).state (s.taken ⟨d, some (1 / 2), some 0⟩ (1 / 2)).state :=
    ⟨⟨_, 1 / 2, hstep, rfl, htaken, rfl, hsettles⟩, by rwa [hstate]⟩
  obtain ⟨hok, hone⟩ := iterates_one hiterate
  -- nothing is free on the row
  have hsecond : Checks (s.iterates 1).state (s.iterates 1).state := by
    have hlock := hs.lockstep.iterates hs.accepted 1 hok
    rw [hone.trans hiterated] at hlock ⊢
    refine hlock.checks_at_rest hart' ?_ (withinRadius_of_unlimited rfl hmargin) ?_
    · simp [Solver.convex, hsize']
    · rw [hlock.norm_project fun j hj => absurd hj (by rw [hsize']; exact Nat.not_lt_zero j)]
      exact le_rfl
  have hx : (s.taken ⟨d, some (1 / 2), some 0⟩ (1 / 2)).state.x 0 = 1 := by
    rw [hstate]
    change (0 : Vec ℝ 1).along (1 / 2) d 0 = 1
    rw [Vec.get_along _ _ _ one_pos, Vec.get_zero, hd]
    norm_num
  have hrows : (s.taken ⟨d, some (1 / 2), some 0⟩ (1 / 2)).state.rows.working = [0] := by rwa [hstate]
  have hrows' : (s.iterates 1).state.rows.working = [0] := by rwa [hone.trans hiterated]
  obtain ⟨heq, hunmoved⟩ := checks_with_same_rows_agree (symmetric_line 1 (-2) 1 1) (above_line 1 (-2) 1 1)
    strict_indefinite_lt (flat_line_lt (-2) 1 1) strict_indefinite_lt (feasible_line zero_le_one) rfl rfl
    (by norm_num [strict, Tolerances.standard]) hstart (i := 0) (j := 1) hfirst hsecond fun row => by rw [hrows, hrows']
  exact ⟨_, _, _, _, hstart, rfl, hfirst, hsecond, hrows, hrows', hx, heq, hunmoved 1 one_pos le_rfl⟩

end Solver

end
end ActiveSet
