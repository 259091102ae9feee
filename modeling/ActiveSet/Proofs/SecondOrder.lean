import Mathlib.Topology.Algebra.Order.Field
import Mathlib.Topology.Order.Compact
import ActiveSet.Proofs.Cycling
import ActiveSet.Proofs.Unbounded

/-! Second-order conditions of an optimal report. The check that ends a solve follows a step that no row has blocked, or
is made where no free direction is left; and a ray that no row blocks ends on a radius bound, where no check is made. So
`D` is positive then, no direction is artificial, and `P` is positive on whatever leaves the working rows alone. With
positive multipliers the point is a strict local minimizer: the unit vectors that approach no working row are a compact
set, and on those of them without curvature the slope is bounded away from zero. -/

namespace ActiveSet

noncomputable section
open Exact

variable {m n : ℕ}

namespace ReducedFactor

variable {P : Mat ℝ n n} {F : ReducedFactor ℝ n}

/-- With a positive `D` a combination of the free directions that is not zero has a positive curvature. -/
theorem Curved.form_pos {flat : ℝ} (hC : Curved P flat F) (hF : Shaped F) (hd : ∀ i < F.size, 0 < F.d i)
    {w v : ℕ → ℝ} (hv : ∀ i < n, v i = dot F.size (fun j => reversed F.basis.q j i) w) (hne : ∃ i < n, v i ≠ 0) :
    0 < P.form v v := by
  have hexact : Exactly P F.size F.u F.d (reversed F.basis.q) :=
    hC.exactly fun i hi => (hd i (by omega)).ne'
  rw [Mat.form_congr hv hv, hexact.form_combination w, dot_eq]
  have hterm : ∀ l, dot F.size (F.u l) w * (F.d l * dot F.size (F.u l) w) =
      F.d l * (dot F.size (F.u l) w * dot F.size (F.u l) w) := fun l => by ring
  simp only [hterm]
  refine Finset.sum_pos' (fun l hl => ?_) ?_
  · exact mul_nonneg (hd l (Finset.mem_range.1 hl)).le (mul_self_nonneg _)
  · -- `U` takes only zero to zero
    by_contra hnone
    push Not at hnone
    have hzero : ∀ l < F.size, dot F.size (F.u l) w = 0 := by
      intro l hl
      have hle := hnone l (Finset.mem_range.2 hl)
      have hsquare := nonpos_of_mul_nonpos_right hle (hd l hl)
      exact mul_self_eq_zero.1 (le_antisymm hsquare (mul_self_nonneg _))
    have hw := Triangular.eq_zero_of_upper hF.isUpper hF.pivot_ne_zero hzero
    obtain ⟨i, hi, hvi⟩ := hne
    exact hvi ((hv i hi).trans (dot_eq_zero fun j hj => by rw [hw j hj, mul_zero]))

end ReducedFactor

namespace Solver

variable {p : Problem ℝ m n} {tol : Tolerances ℝ} {s r : Solver ℝ m n} {o : Options}

/-- What leaves the working rows alone is a combination of the free directions. -/
theorem Ranked.eq_combination (hs : Ranked p tol s) (hart : s.factor.artificial = 0) {v : ℕ → ℝ}
    (hv : ∀ row ∈ s.rows.working, dot n (p.A row) v = 0) {i : ℕ} (hi : i < n) :
    v i = dot s.factor.size (fun j => ReducedFactor.reversed s.factor.basis.q j i)
      fun j => dot n (ReducedFactor.reversed s.factor.basis.q j) v := by
  have hcount := hs.lockstep.shaped.count
  set F := s.factor
  have hW := hs.lockstep.columns
  have hnull : ∀ a ∈ s.rows.working.map p.A.row, dot n a v = 0 := by
    intro a ha
    obtain ⟨row, hrow, rfl⟩ := List.mem_map.1 ha
    rw [← hv row hrow]
    exact dot_congr (fun j _ => Mat.get_row ..) fun _ _ => rfl
  have hnullity : F.basis.nullity = F.size := by
    change n - F.basis.size = F.size
    omega
  rw [hW.eq_free hs.nonsingular hnull hi, hnullity, ← dot_reverse]
  refine dot_congr (fun j hj => ?_) fun j hj => ?_
  · change F.basis.q i (F.basis.size + (F.size - 1 - j)) = F.basis.q i (n - 1 - j)
    rw [show F.basis.size + (F.size - 1 - j) = n - 1 - j by omega]
  · change dot n (fun k => F.basis.q k (F.basis.size + (F.size - 1 - j))) v = _
    rw [show F.basis.size + (F.size - 1 - j) = n - 1 - j by omega]
    rfl

theorem Ranked.form_pos (hs : Ranked p tol s) (hart : s.factor.artificial = 0) {flat : ℝ}
    (hC : s.factor.Curved p.P flat) (hd : ∀ i < s.factor.size, 0 < s.factor.d i) {v : ℕ → ℝ}
    (hv : ∀ row ∈ s.rows.working, dot n (p.A row) v = 0) (hne : ∃ i < n, v i ≠ 0) : 0 < p.P.form v v :=
  hC.form_pos hs.lockstep.shaped hd (fun _ hi => hs.eq_combination hart hv hi) hne

/-- Inside the radius bounds by a margin, a check follows only a step to a minimum. -/
theorem Lockstep.positive_of_checks (hs : Lockstep p tol s) (hindefinite : 0 < tol.indefinite)
    (hmargin : 0 < tol.radiusMargin) (hr : Checks s r) : ∀ i < r.factor.size, 0 < r.factor.d i := by
  rcases hs.checks_cases hmargin hr with hsize | ⟨hconvex, hfactor, -⟩
  · exact fun i hi => absurd hi (by omega)
  · rw [hfactor]
    exact hs.positive_of_convex hindefinite hconvex

theorem Lockstep.exists_checks (hs : Lockstep p tol s) (ht : tol.Accepted) (hnot : s.done = false)
    (h : s.iterate.result = .ok ()) (hdone : s.iterate.state.done = true) :
    ∃ r, Checks s r ∧ s.iterate.state.rows = r.rows ∧ s.iterate.state.factor = r.factor := by
  obtain ⟨step, hstep, ⟨-, hstate⟩ | ⟨t, hlen, htaken, r, hr, hstate⟩⟩ := iterate_cases h
  · rw [hstate] at hdone
    exact absurd (hnot.symm.trans hdone) Bool.false_ne_true
  obtain ⟨rows, factor, hmoved, -⟩ := hs.taken_eq_ok htaken
  have hnot' : (s.taken step t).state.done = false := by
    rw [hmoved]
    exact hnot
  rw [hstate] at hdone ⊢
  have hdone : r.done = true := hdone
  rcases hr with ⟨-, rfl⟩ | ⟨hsettles, hsettle, rfl⟩
  · exact absurd (hnot'.symm.trans hdone) Bool.false_ne_true
  rcases settle_cases hsettle with ⟨-, -, hsettled⟩ | ⟨hart, ⟨-, hsettled⟩ | ⟨i, hcheck, hremove, hsettled⟩⟩
  · rw [hsettled] at hdone
    exact absurd (hnot'.symm.trans hdone) Bool.false_ne_true
  · obtain ⟨multipliers, residual, done, hcheck⟩ := check_state (s := (s.taken step t).state)
    refine ⟨_, ⟨⟨step, t, hstep, hlen, htaken, rfl, hsettles⟩, hart⟩, ?_, ?_⟩
    · change (s.taken step t).state.settle.state.rows = _
      rw [hsettled, hcheck]
    · change (s.taken step t).state.settle.state.factor = _
      rw [hsettled, hcheck]
  · obtain ⟨-, rows', -, -, -, -, hremoved⟩ := remove_eq_ok (hs.taken ht htaken).check.sound hremove
    rw [hsettled, hremoved] at hdone
    cases (check_done hcheck hdone).1

def SecondOrder (p : Problem ℝ m n) (s : Solver ℝ m n) : Prop := s.factor.artificial = 0 ∧
  ∀ v : ℕ → ℝ, (∀ row ∈ s.rows.working, dot n (p.A row) v = 0) → (∃ i < n, v i ≠ 0) → 0 < p.P.form v v

/-- What holds along a run: the curvatures are factored, and those of a solve that is done are positive. -/
structure Curbed (p : Problem ℝ m n) (tol : Tolerances ℝ) (s : Solver ℝ m n) : Prop where
  ranked : Ranked p tol s
  curved : s.factor.Curved p.P (tol.rule p.P).flat ∧ s.factor.UnitCorner
  settled : s.done = true → SecondOrder p s

theorem curbed_start {x₀ : Vec ℝ n} {bounds : RadiusBounds ℝ} {events : List (Event ℝ)}
    (hP : p.P.Symmetric) (h : start p x₀ bounds tol = .ok (s, events)) : Curbed p tol s := by
  have hs := ranked_start h
  obtain ⟨-, accepted, -, -, rfl⟩ := start_state h
  exact ⟨hs, curved_initialFactor hP hs.accepted, fun hdone => nomatch hdone⟩

theorem Curbed.iterate (hs : Curbed p tol s) (hP : p.P.Symmetric)
    (hindefinite : 0 < tol.indefinite) (hsquare : tol.indefinite * tol.indefinite ≤ (tol.rule p.P).flat)
    (hmargin : 0 < tol.radiusMargin) (hnot : s.done = false) (h : s.iterate.result = .ok ()) :
    Curbed p tol s.iterate.state := by
  have hkept := kept_curved hP hs.ranked.accepted hsquare
  have hlock := hs.ranked.lockstep
  refine ⟨hs.ranked.iterate h, hkept.iterate hlock hs.ranked.accepted h hs.curved, fun hdone => ?_⟩
  obtain ⟨r, hr, hrows, hfactor⟩ := hlock.exists_checks hs.ranked.accepted hnot h hdone
  have hd := hlock.positive_of_checks hindefinite hmargin hr
  obtain ⟨⟨step, t, hstep, -, htaken, rfl, -⟩, hart⟩ := hr
  have hcurved := hkept.taken hlock hstep htaken hs.curved
  unfold SecondOrder
  rw [hrows, hfactor]
  exact ⟨hart, fun v hv hne => (hs.ranked.taken hstep t).form_pos hart hcurved.1 hd hv hne⟩

/-- On a compact set where nothing falls and what is level curves upward, short steps rise, all of them as long as some
bound. -/
theorem exists_rising {X : Type} [TopologicalSpace X] {K : Set X} (hK : IsCompact K) (slope curvature : X → ℝ)
    (hslope : Continuous slope) (hcurvature : Continuous curvature) (hnonneg : ∀ d ∈ K, 0 ≤ slope d)
    (hpos : ∀ d ∈ K, slope d = 0 → 0 < curvature d) :
    ∃ ε, 0 < ε ∧ ∀ d ∈ K, ∀ t, 0 < t → t < ε → 0 < t * slope d + 1 / 2 * (t * t * curvature d) := by
  -- where the curvature is positive any step rises; the rest of the set is compact too
  have hupward : ∀ d ∈ K, 0 < curvature d → ∀ t, 0 < t → 0 < t * slope d + 1 / 2 * (t * t * curvature d) := by
    intro d hd hc t ht
    have h0 := hnonneg d hd
    positivity
  have hrest : IsCompact (K ∩ {d | curvature d ≤ 0}) := hK.inter_right (isClosed_le hcurvature continuous_const)
  rcases (K ∩ {d | curvature d ≤ 0}).eq_empty_or_nonempty with hempty | hne
  · refine ⟨1, one_pos, fun d hd t ht _ => hupward d hd ?_ t ht⟩
    by_contra hc
    exact Set.eq_empty_iff_forall_notMem.1 hempty d ⟨hd, not_lt.1 hc⟩
  obtain ⟨least, ⟨hleastK, hleastc⟩, hleast⟩ := hrest.exists_isMinOn hne hslope.continuousOn
  obtain ⟨worst, ⟨-, hworstc⟩, hworst⟩ := hrest.exists_isMinOn hne hcurvature.continuousOn
  have hworstc : curvature worst ≤ 0 := hworstc
  have hμ : 0 < slope least := by
    refine lt_of_le_of_ne (hnonneg least hleastK) fun h0 => ?_
    exact absurd (hpos least hleastK h0.symm) (not_lt.2 hleastc)
  have hscale : 0 < 1 - curvature worst := by linarith
  refine ⟨2 * slope least / (1 - curvature worst), by positivity, fun d hd t ht hlt => ?_⟩
  by_cases hc : 0 < curvature d
  · exact hupward d hd hc t ht
  · have hs : slope least ≤ slope d := hleast ⟨hd, not_lt.1 hc⟩
    have hw : curvature worst ≤ curvature d := hworst ⟨hd, not_lt.1 hc⟩
    rw [lt_div_iff₀ hscale] at hlt
    have hrise : 0 < slope d + 1 / 2 * (t * curvature d) := by nlinarith
    have hfactor : t * slope d + 1 / 2 * (t * t * curvature d) = t * (slope d + 1 / 2 * (t * curvature d)) := by ring
    rw [hfactor]
    exact mul_pos ht hrise

theorem continuous_dot {X : Type} [TopologicalSpace X] {u v : X → ℕ → ℝ} (hu : ∀ i, Continuous fun x => u x i)
    (hv : ∀ i, Continuous fun x => v x i) : Continuous fun x => dot n (u x) (v x) := by
  simp only [dot_eq]
  exact continuous_finsetSum _ fun i _ => (hu i).mul (hv i)

def unitCone (p : Problem ℝ m n) (working : List ℕ) : Set (ℕ → ℝ) :=
  {d | (∀ i, d i ∈ Set.Icc (-1) 1) ∧ dot n d d = 1 ∧ ∀ row ∈ working, dot n (p.A row) d ≤ 0}

theorem isCompact_unitCone (p : Problem ℝ m n) (working : List ℕ) : IsCompact (unitCone p working) := by
  have hbox : IsCompact (Set.pi Set.univ fun _ : ℕ => Set.Icc (-1 : ℝ) 1) := isCompact_univ_pi fun _ => isCompact_Icc
  refine hbox.of_isClosed_subset ?_ fun d hd i _ => hd.1 i
  have hcoordinate : ∀ i : ℕ, Continuous fun d : ℕ → ℝ => d i := fun i => continuous_apply i
  have hcone : unitCone p working = (⋂ i, {d | d i ∈ Set.Icc (-1) 1}) ∩
      ({d | dot n d d = 1} ∩ ⋂ row ∈ working, {d | dot n (p.A row) d ≤ 0}) := by
    ext d
    simp [unitCone]
  rw [hcone]
  refine IsClosed.inter ?_ (IsClosed.inter ?_ ?_)
  · exact isClosed_iInter fun i => isClosed_Icc.preimage (hcoordinate i)
  · exact isClosed_eq (continuous_dot hcoordinate hcoordinate) continuous_const
  · exact isClosed_biInter fun row _ =>
      isClosed_le (continuous_dot (fun _ => continuous_const) hcoordinate) continuous_const

theorem norm_pos_of_dot {u : ℕ → ℝ} (hu : 0 < dot n u u) : 0 < norm n u := by
  rw [norm_eq]
  exact Real.sqrt_pos.2 hu

theorem exists_unit {u : ℕ → ℝ} (hu : 0 < dot n u u) : ∃ d : ℕ → ℝ, (∀ i, d i ∈ Set.Icc (-1) 1) ∧ dot n d d = 1 ∧
    ∀ i < n, u i = norm n u * d i := by
  have hnorm := norm_pos_of_dot hu
  have hsquare : norm n u * norm n u = dot n u u := by
    rw [norm_eq]
    exact Real.mul_self_sqrt hu.le
  set d : ℕ → ℝ := fun i => if i < n then u i / norm n u else 0
  have hd : ∀ i < n, d i = u i / norm n u := fun i hi => if_pos hi
  refine ⟨d, fun i => ?_, ?_, fun i hi => ?_⟩
  · by_cases hi : i < n
    · rw [hd i hi, Set.mem_Icc, ← abs_le, abs_div, abs_of_pos hnorm, div_le_one hnorm]
      exact abs_le_norm hi
    · rw [show d i = 0 from if_neg hi]
      exact ⟨by norm_num, zero_le_one⟩
  · have hscaled : ∀ i < n, d i = (norm n u)⁻¹ * u i := fun i hi => by
      rw [hd i hi]
      ring
    rw [dot_congr hscaled hscaled, dot_mul_right, dot_comm, dot_mul_right, ← hsquare]
    field_simp
  · rw [hd i hi]
    field_simp

theorem Certified.balanced (hcert : Certified p tol s) (hgradient : tol.projectedGradient = 0) (d : ℕ → ℝ) :
    dot n d (p.gradient s.x) + dot m (fun row => dot n (p.A row) d) s.multipliers = 0 := by
  have hsmall := hcert.small
  rw [hgradient, norm_eq] at hsmall
  have hzero := (Real.sqrt_eq_zero (dot_self_nonneg ..)).1 (le_antisymm hsmall (Real.sqrt_nonneg _))
  rw [← dot_stationarity]
  exact dot_eq_zero fun i hi => by rw [eq_zero_of_dot_self hzero i hi, mul_zero]

/-- With positive multipliers a direction that approaches no working row does not fall, and one that is level leaves
every working row alone. -/
theorem Certified.slope_cases (hcert : Certified p tol s) (hs : Lockstep p tol s)
    (hgradient : tol.projectedGradient = 0) (hpositive : ∀ row ∈ s.rows.working, 0 < s.multipliers row) {d : ℕ → ℝ}
    (hd : ∀ row ∈ s.rows.working, dot n (p.A row) d ≤ 0) : 0 ≤ dot n d (p.gradient s.x) ∧
      (dot n d (p.gradient s.x) = 0 → ∀ row ∈ s.rows.working, dot n (p.A row) d = 0) := by
  have hbalanced := hcert.balanced hgradient d
  have hterm : ∀ row ∈ Finset.range m, dot n (p.A row) d * s.multipliers row ≤ 0 := by
    intro row _
    by_cases hin : row ∈ s.rows.working
    · exact mul_nonpos_of_nonpos_of_nonneg (hd row hin) (hpositive row hin).le
    · rw [hcert.outside row hin, mul_zero]
  have hsum : dot m (fun row => dot n (p.A row) d) s.multipliers ≤ 0 := by
    rw [dot_eq]
    exact Finset.sum_nonpos hterm
  refine ⟨by linarith, fun hlevel row hrow => ?_⟩
  have hzero : dot m (fun row => dot n (p.A row) d) s.multipliers = 0 := by linarith
  rw [dot_eq, Finset.sum_eq_zero_iff_of_nonpos hterm] at hzero
  have hrow0 := hzero row (Finset.mem_range.2 ((hs.mem_iff row).1 (Or.inl hrow)))
  exact (mul_eq_zero.1 hrow0).resolve_right (hpositive row hrow).ne'

/-- Feasible points close enough to the end of a solve are worse. -/
theorem Certified.strict_minimizer (hcert : Certified p tol s) (hs : Lockstep p tol s) (hf : Feasible p s)
    (hsecond : SecondOrder p s) (hP : p.P.Symmetric) (hgradient : tol.projectedGradient = 0)
    (hpositive : ∀ row ∈ s.rows.working, 0 < s.multipliers row) :
    ∃ ε, 0 < ε ∧ ∀ y : Vec ℝ n, (∀ row < m, dot n (p.A row) y ≤ p.b row) → y ≠ s.x →
      norm n (fun i => y i - s.x i) < ε → p.objective s.x < p.objective y := by
  have hcoordinate : ∀ i : ℕ, Continuous fun d : ℕ → ℝ => d i := fun i => continuous_apply i
  -- a level direction of the cone leaves every working row alone, and there `P` is positive
  have hlevel : ∀ d ∈ unitCone p s.rows.working, dot n d (p.gradient s.x) = 0 → 0 < p.P.form d d := by
    intro d hd hzero
    refine hsecond.2 d ((hcert.slope_cases hs hgradient hpositive hd.2.2).2 hzero) ?_
    by_contra hall
    push Not at hall
    have hshort : dot n d d = 0 := dot_eq_zero fun i hi => by rw [hall i hi, zero_mul]
    exact one_ne_zero (hd.2.1.symm.trans hshort)
  obtain ⟨ε, hε, hrise⟩ := exists_rising (isCompact_unitCone p s.rows.working)
    (fun d => dot n d (p.gradient s.x)) (fun d => p.P.form d d)
    (continuous_dot hcoordinate fun _ => continuous_const)
    (continuous_dot hcoordinate fun i => continuous_dot (fun _ => continuous_const) hcoordinate)
    (fun d hd => (hcert.slope_cases hs hgradient hpositive hd.2.2).1) hlevel
  refine ⟨ε, hε, fun y hy hne hnear => ?_⟩
  set u : ℕ → ℝ := fun i => y i - s.x i
  have hu : 0 < dot n u u := by
    refine lt_of_le_of_ne (dot_self_nonneg n u) fun h0 => hne (Vec.ext fun i hi => ?_)
    exact sub_eq_zero.1 (eq_zero_of_dot_self h0.symm i hi)
  have hnorm := norm_pos_of_dot hu
  obtain ⟨d, hbox, hunit, hscaled⟩ := exists_unit hu
  -- `y` satisfies the working rows, which are met at `s.x`, so the way to it lies in the cone
  have hcone : ∀ row ∈ s.rows.working, dot n (p.A row) d ≤ 0 := by
    intro row hrow
    have hdown : dot n (p.A row) u ≤ 0 := by
      rw [dot_sub_right, hf.working row hrow]
      exact sub_nonpos.2 (hy row ((hs.mem_iff row).1 (Or.inl hrow)))
    rw [dot_congr (fun _ _ => rfl) hscaled, dot_mul_right] at hdown
    exact nonpos_of_mul_nonpos_right hdown hnorm
  have hup := hrise d ⟨hbox, hunit, hcone⟩ (norm n u) hnorm hnear
  have hlinear : dot n u (p.gradient s.x) = norm n u * dot n d (p.gradient s.x) := by
    rw [dot_congr hscaled fun _ _ => rfl, dot_comm, dot_mul_right, dot_comm]
  have hform : p.P.form u u = norm n u * norm n u * p.P.form d d := by
    have hcomb : ∀ i < n, u i = norm n u * d i + 0 * d i := fun i hi => by
      rw [hscaled i hi]
      ring
    rw [Mat.form_congr hcomb hcomb, Mat.form_comb_left, Mat.form_comb_right]
    ring
  rw [Problem.objective_sub hP s.x y, hlinear, hform]
  linarith

/-- At an optimal report no direction is artificial and `P` is positive on whatever leaves the working rows alone; from
a feasible start and with positive multipliers, the point is a strict local minimizer over the feasible set. -/
theorem optimal_report_second_order {x₀ : Vec ℝ n} {bounds : RadiusBounds ℝ} {events : List (Event ℝ)}
    {r : Report ℝ m n} (hP : p.P.Symmetric) (hindefinite : 0 < tol.indefinite)
    (hsquare : tol.indefinite * tol.indefinite ≤ tol.relativeCurvature * p.P.scale) (hmargin : 0 < tol.radiusMargin)
    (hstart : start p x₀ bounds tol = .ok (s, events)) (hrun : (s.run o).result = .ok r)
    (hopt : r.status = .optimal) :
    (s.run o).state.solver.factor.artificial = 0 ∧
    (∀ v : ℕ → ℝ, (∀ row ∈ r.working, dot n (p.A row) v = 0) → (∃ i < n, v i ≠ 0) → 0 < p.P.form v v) ∧
    ((∀ row < m, dot n (p.A row) x₀ ≤ p.b row) → tol.blocking = 0 → tol.projectedGradient = 0 →
      (∀ row ∈ r.working, 0 < r.multipliers row) →
      (∀ row < m, dot n (p.A row) r.x ≤ p.b row) ∧
        ∃ ε, 0 < ε ∧ ∀ y : Vec ℝ n, (∀ row < m, dot n (p.A row) y ≤ p.b row) → y ≠ r.x →
          norm n (fun i => y i - r.x i) < ε → p.objective r.x < p.objective y) := by
  obtain ⟨⟨htracked, hcurbed⟩, hdone⟩ := run_optimal (q := fun t => Tracked p x₀ tol t ∧ Curbed p tol t)
    (fun t ht hnot _ h => ⟨ht.1.iterate hnot h, ht.2.iterate hP hindefinite hsquare hmargin hnot h⟩)
    ⟨tracked_start hstart, curbed_start hP hstart⟩ hrun hopt
  obtain ⟨-, -, -, hx, hmultipliers, hworking, -⟩ := run_eq_ok rfl hrun
  have hsecond := hcurbed.settled hdone
  rw [hx, hmultipliers, hworking]
  refine ⟨hsecond.1, hsecond.2, fun hfeas hblocking hgradient hpositive => ?_⟩
  have hf := htracked.feasible hblocking hfeas
  exact ⟨hf.rows, (htracked.certified hdone).strict_minimizer htracked.lockstep hf hsecond hP hgradient hpositive⟩

theorem optimal_report_second_order_ledge : ∃ s events r, start (ledge (-1)) 0 ⟨0, none⟩ strict = .ok (s, events) ∧
    (s.run ⟨5000, 0, 50⟩).result = .ok r ∧ r.status = .optimal ∧ r.working = [0] ∧
    (s.run ⟨5000, 0, 50⟩).state.solver.factor.artificial = 0 ∧
      ∃ ε, 0 < ε ∧ ∀ y : Vec ℝ 1, (∀ row < 1, dot 1 ((ledge (-1)).A row) y ≤ (ledge (-1)).b row) → y ≠ r.x →
        norm 1 (fun i => y i - r.x i) < ε → (ledge (-1)).objective r.x < (ledge (-1)).objective y := by
  obtain ⟨hP, hq, hA, -⟩ := get_ledge (-1)
  obtain ⟨hiterate, rows, factor, multipliers, residual, -, -, hiterated⟩ := iterate_ledge (c := -1) (by norm_num)
  obtain ⟨r, hrun, hopt, -, hworking, hfinal⟩ := run_ledge (c := -1) (o := ⟨5000, 0, 50⟩) (by norm_num) rfl
  have hdone : (fromZero strict (ledge (-1))).iterate.state.done = true := by rw [hiterated]
  obtain ⟨-, -, -, -, hmultipliers, -⟩ := run_eq_ok rfl hrun
  rw [hfinal] at hmultipliers
  have hpositive : 0 < r.multipliers 0 := by
    -- at the row the slope is -2
    have hgradient : (ledge (-1)).gradient (fromZero strict (ledge (-1))).iterate.state.x 0 = -2 := by
      unfold Problem.gradient
      rw [Vec.get_ofFn_of_lt _ one_pos, Mat.get_apply _ _ one_pos, dot_one, hP, hq, hiterated,
        Vec.get_ofFn_of_lt _ one_pos]
      norm_num
    have hcert := ((tracked_start (start_ledge (-1))).iterate rfl hiterate).certified hdone
    have hbalanced := hcert.balanced rfl fun _ => 1
    rw [dot_one, dot_one, dot_one, hgradient, hA] at hbalanced
    rw [hmultipliers]
    linarith
  obtain ⟨hart, -, hstrict⟩ := optimal_report_second_order (p := ledge (-1)) (symmetric_line (-1) (-1) 1 1)
    strict_indefinite_pos (square_le_flat_ledge (by rw [abs_neg, abs_one]))
    (by norm_num [strict, Tolerances.standard]) (start_ledge (-1)) hrun hopt
  refine ⟨_, _, r, start_ledge (-1), hrun, hopt, hworking, hart, ?_⟩
  refine (hstrict (feasible_ledge (-1)) rfl rfl ?_).2
  intro row hrow
  rw [hworking, List.mem_singleton] at hrow
  rwa [hrow]

end Solver

end
end ActiveSet
