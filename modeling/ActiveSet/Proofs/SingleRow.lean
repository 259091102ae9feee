import ActiveSet.Proofs.Breakdown
import ActiveSet.Proofs.Rays
import ActiveSet.Proofs.Stationarity

/-! Solves in one unknown with one row, from zero on. Where the curvature is too small for a pivot the first step is a
ray of length one times what the row leaves; a step that the row ends makes it the working row, and the multiplier that
cancels the slope there decides what the check says. -/

namespace ActiveSet

noncomputable section
open Exact

variable {n : ℕ}

namespace Solver

variable {m : ℕ} {tol : Tolerances ℝ} {s : Solver ℝ m n} {d : Vec ℝ n} {p : Problem ℝ m n}

/-- After the start the only direction is free. Its curvature was large enough for a pivot and is not flat, or it is the
entry of `D` unless it is flat. -/
theorem initialFactor_single (ht : tol.Accepted) (P : Mat ℝ 1 1) : (initialFactor tol P).state.artificial = 0 ∧
    (initialFactor tol P).state.size = 1 ∧
      ((tol.indefinite * tol.indefinite < P 0 0 ∧ (tol.rule P).flat < P 0 0 ∧ (initialFactor tol P).state.d 0 = 1) ∨
        ((initialFactor tol P).state.u 0 0 = 1 ∧
          (initialFactor tol P).state.d 0 = if |P 0 0| ≤ (tol.rule P).flat then 0 else P 0 0)) := by
  rw [state_initialFactor tol P rfl]
  set rule := tol.rule P
  set F := ReducedFactor.ofFactor rule P OrthogonalFactor.empty
  have hF : F.Shaped := ReducedFactor.shaped_ofFactor OrthogonalFactor.factors_empty
  have hcount : F.size + F.artificial + 0 = 1 := hF.count
  -- the only direction is a unit vector
  have hcurvature : ∀ G : ReducedFactor ℝ 1, (∃ W, G.basis.Factors W) → G.curvature P 0 0 = P 0 0 := by
    rintro G ⟨W, hW⟩
    have hq := hW.orthogonal 0 one_pos 0 one_pos
    rw [dot_one, if_pos rfl] at hq
    rw [ReducedFactor.curvature, Mat.form, dot_one, dot_one]
    unfold ReducedFactor.reversed
    linear_combination P 0 0 * hq
  by_cases h : F.size = 0 ∧ 0 < F.artificial
  · rw [if_pos h]
    obtain ⟨G, hG, -, w, -, hstate⟩ :=
      hF.remove_eq_grown ht.indefinite (ReducedFactor.remove_of_size_eq_zero rule P h.1 h.2)
    have hGcount := hG.count
    have hsize : G.size = 0 := hG.size.trans h.1
    have hcorner : G.curvature P G.size G.size = P 0 0 := by
      rw [hsize]
      exact hcurvature G hG.factors
    obtain ⟨v, hstate⟩ : ∃ v : ℕ → ℝ, (F.remove rule P none).state = ReducedFactor.grown rule G v (P 0 0) := by
      refine ⟨w, ?_⟩
      have hdot : dot G.size w (fun i => G.d i * w i) = 0 := dot_eq_zero fun i hi => by omega
      rw [hstate, hdot, hcorner, sub_zero]
    have hd : (ReducedFactor.grown rule G v (P 0 0)).d G.size = _ := ReducedFactor.d_grown_last (by omega)
    have hu : (ReducedFactor.grown rule G v (P 0 0)).u 0 0 = _ := ReducedFactor.get_grown one_pos one_pos
    rw [if_pos hsize.symm, if_neg (by omega), if_pos hsize.symm] at hu
    rw [hsize] at hd
    rw [hstate]
    refine ⟨?_, ?_, Or.inr ⟨hu, hd⟩⟩
    · change G.artificial = 0
      omega
    · change G.size + 1 = 1
      omega
  · rw [if_neg h]
    have hsize : F.size = 1 := by
      by_contra hne
      exact h ⟨by omega, by omega⟩
    obtain ⟨hlarge, hcurved⟩ : rule.indefinite < F.u 0 0 ∧ rule.flat < F.u 0 0 * F.u 0 0 := by
      rw [ReducedFactor.u_ofFactor]
      exact (ReducedFactor.truncated_pivots rule P _).large 0 (by change 0 < F.size; omega)
    have hC : F.Curved P rule.flat := ReducedFactor.curved_ofFactor (fun i hi j hj => by
      rw [Nat.lt_one_iff.1 hi, Nat.lt_one_iff.1 hj]) (ht.flat P)
    have hproduct : F.product 0 0 = F.curvature P 0 0 := by
      by_contra hne
      exact one_ne_zero ((ReducedFactor.d_ofFactor one_pos).symm.trans ((hC.corner 0 hsize.symm).2 hne))
    rw [ReducedFactor.product, hsize, dot_one, ReducedFactor.d_ofFactor one_pos, one_mul,
      hcurvature F hF.factors] at hproduct
    rw [hproduct] at hcurved
    refine ⟨by omega, hsize, Or.inl ⟨?_, hcurved, ReducedFactor.d_ofFactor one_pos⟩⟩
    rw [← hproduct]
    exact mul_self_lt_mul_self ht.indefinite hlarge

def fromZero (tol : Tolerances ℝ) (p : Problem ℝ 1 1) : Solver ℝ 1 1 where
  problem := p
  bounds := ⟨-1, none⟩
  tolerances := tol
  x := 0
  multipliers := 0
  residual := none
  iteration := 0
  done := false
  ray := none
  rows := WorkingSet.start p.A.rows p.b.toList
  factor := (initialFactor tol p.P).state

theorem start_of_accepted {p : Problem ℝ 1 1} {x : Vec ℝ 1} {bounds accepted : RadiusBounds ℝ}
    (hvalid : tol.validate = .ok ()) (hbounds : acceptBounds tol bounds = .ok accepted)
    (hviolates : violates tol p accepted x = false) : start p x bounds tol =
      .ok ({ fromZero tol p with bounds := accepted, x }, (initialFactor tol p.P).events) := by
  have hsymmetric : p.P.isSymmetric = true := by simp [Mat.isSymmetric, nearlySame]
  unfold start
  refine bind_eq_ok.2 ⟨(), hvalid, ?_⟩
  rw [hsymmetric]
  refine bind_eq_ok.2 ⟨_, hbounds, ?_⟩
  rw [hviolates]
  exact bind_eq_ok.2 ⟨(), initialFactor_eq_ok .., rfl⟩

theorem start_within {p : Problem ℝ 1 1} {lower : ℝ} {upper : Option ℝ} (hvalid : tol.validate = .ok ())
    (hpos : 0 ≤ tol.feasibility) (hlower : lower < tol.feasibility)
    (hupper : ∀ radius, upper = some radius → lower ≤ radius ∧ -tol.feasibility < radius)
    (hb : -p.b 0 < tol.feasibility) : start p 0 ⟨lower, upper⟩ tol =
      .ok ({ fromZero tol p with bounds := ⟨-1, upper⟩ }, (initialFactor tol p.P).events) := by
  have hbounds : acceptBounds tol ⟨lower, upper⟩ = .ok ⟨-1, upper⟩ := by
    have horder : (upper.any fun radius => decide (radius < lower)) = false := by
      cases upper with
      | none => rfl
      | some radius => simpa using (hupper radius rfl).1
    simp only [acceptBounds, horder, Bool.false_eq_true, if_false, if_pos hlower]
  have hviolates : violates tol p ⟨-1, upper⟩ 0 = false := by
    have hzero : dot 1 (p.A 0) (0 : Vec ℝ 1) = 0 := by rw [dot_one, Vec.get_zero, mul_zero]
    have hnorm : norm 1 (0 : Vec ℝ 1) = 0 := by rw [norm_eq, dot_one, Vec.get_zero, mul_zero, Real.sqrt_zero]
    have hinside : (upper.any fun radius => decide (tol.feasibility ≤ 0 - radius)) = false := by
      cases upper with
      | none => rfl
      | some radius =>
        have hlt := (hupper radius rfl).2
        exact decide_eq_false (by linarith)
    simp [violates, maximum, Problem.excess, hzero, hnorm, -zero_sub, hinside]
    exact ⟨by linarith, by linarith⟩
  exact start_of_accepted hvalid hbounds hviolates

theorem start_single {p : Problem ℝ 1 1} {lower : ℝ} (hvalid : tol.validate = .ok ()) (hpos : 0 ≤ tol.feasibility)
    (hlower : lower < tol.feasibility) (hb : -p.b 0 < tol.feasibility) :
    start p 0 ⟨lower, none⟩ tol = .ok (fromZero tol p, (initialFactor tol p.P).events) :=
  start_within hvalid hpos hlower (fun _ h => nomatch h) hb

def line (c g a b : ℝ) : Problem ℝ 1 1 :=
  ⟨Mat.ofFn fun _ _ => c, Vec.ofFn fun _ => g, Mat.ofFn fun _ _ => a, Vec.ofFn fun _ => b⟩

theorem get_line (c g a b : ℝ) : (line c g a b).P 0 0 = c ∧ (line c g a b).q 0 = g ∧ (line c g a b).A 0 0 = a ∧
    (line c g a b).b 0 = b :=
  ⟨Mat.get_ofFn_of_lt _ one_pos one_pos, Vec.get_ofFn_of_lt _ one_pos, Mat.get_ofFn_of_lt _ one_pos one_pos,
    Vec.get_ofFn_of_lt _ one_pos⟩

theorem withinRadius_of_unlimited (hbounds : s.bounds = ⟨-1, none⟩) (hmargin : s.tolerances.radiusMargin ≤ 1) :
    s.withinRadius = true := by
  have hle : s.bounds.lower + s.tolerances.radiusMargin ≤ norm n s.x := by
    rw [hbounds, norm_eq]
    linarith [Real.sqrt_nonneg (dot n s.x s.x)]
  refine Bool.and_eq_true_iff.2 ⟨decide_eq_true hle, ?_⟩
  rw [hbounds]

theorem withinRadius_fromZero {p : Problem ℝ 1 1} (hmargin : tol.radiusMargin ≤ 1) :
    (fromZero tol p).withinRadius = true :=
  withinRadius_of_unlimited rfl hmargin

theorem gradient_fromZero (tol : Tolerances ℝ) (p : Problem ℝ 1 1) : (fromZero tol p).gradient 0 = p.q 0 := by
  change (Vec.ofFn fun i => (p.P.apply 0) i + p.q i : Vec ℝ 1) 0 = p.q 0
  rw [Vec.get_ofFn_of_lt _ one_pos, Mat.get_apply _ _ one_pos, dot_one, Vec.get_zero, mul_zero, zero_add]

/-- The standard thresholds, but nothing that is not zero counts as solved, as sign or as blocking. -/
def strict : Tolerances ℝ := { Tolerances.standard with projectedGradient := 0, multiplier := 0, blocking := 0 }

theorem validate_strict : strict.validate = .ok () := by
  refine Tolerances.validate_eq_ok ?_ (by norm_num [strict, Tolerances.standard])
  simp [Tolerances.magnitudes, strict, Tolerances.standard]
  norm_num

theorem strict_indefinite_pos : 0 < strict.indefinite := by norm_num [strict, Tolerances.standard]

theorem strict_indefinite_lt : strict.indefinite < 1 := by norm_num [strict, Tolerances.standard]

theorem strict_feasibility_pos : 0 < strict.feasibility := by norm_num [strict, Tolerances.standard]

theorem strict_radiusMargin_le : strict.radiusMargin ≤ 1 := by norm_num [strict, Tolerances.standard]

theorem symmetric_line (c g a b : ℝ) : (line c g a b).P.Symmetric :=
  fun i hi j hj => by rw [Nat.lt_one_iff.1 hi, Nat.lt_one_iff.1 hj]

theorem scale_line (c g a b : ℝ) : (line c g a b).P.scale = |c| := by
  simp [Mat.scale, maximum, (get_line c g a b).1]

theorem flat_line_lt (g a b : ℝ) : strict.relativeCurvature * (line 1 g a b).P.scale < 1 := by
  rw [scale_line]
  norm_num [strict, Tolerances.standard]

theorem step_of_ray (hconvex : s.convex = false) (h : rayDirection s.factor s.gradient = .ok d) :
    s.step = s.bounded d none := by
  have hsearch : s.search = .ok (.ray d) := by
    unfold search
    dsimp only
    rw [if_neg (by rw [hconvex]; exact Bool.false_ne_true), h]
    rfl
  unfold Solver.step
  rw [hsearch]

/-- Only the rows limit a ray that does not come to a radius bound. -/
theorem bounded_of_uncrossed (hradius : s.radiusLimit d = .ok none) : s.bounded d none =
    .ok ⟨d, (tightest (s.ratios d)).map Prod.fst, (tightest (s.ratios d)).map Prod.snd⟩ := by
  unfold bounded
  rw [hradius]
  cases tightest (s.ratios d) with
  | none => rfl
  | some limit => simp [Except.map, shorter]

theorem radiusLimit_of_unlimited (hupper : s.bounds.upper = none) (hlower : ¬0 < s.bounds.lower) (d : Vec ℝ n) :
    s.radiusLimit d = .ok none := by
  unfold radiusLimit
  simp only [hupper, if_neg hlower]
  rfl

theorem bounded_of_unlimited (hupper : s.bounds.upper = none) (hlower : ¬0 < s.bounds.lower) :
    s.bounded d none =
      .ok ⟨d, (tightest (s.ratios d)).map Prod.fst, (tightest (s.ratios d)).map Prod.snd⟩ :=
  bounded_of_uncrossed (radiusLimit_of_unlimited hupper hlower d)

theorem tightest_single (v : ℝ) : tightest [some v] = some (v, 0) := by
  simp [tightest, tighter]

theorem Lockstep.ratios_single {p : Problem ℝ 1 1} {s : Solver ℝ 1 1} {d : Vec ℝ 1} (hs : Lockstep p tol s)
    (hignored : s.rows.ignored = [0]) : s.ratios d = [if tol.blocking < p.A 0 0 * d 0 then
      some (|p.b 0 - p.A 0 0 * s.x 0| / (p.A 0 0 * d 0)) else none] := by
  have hzero : s.rows.ignored[0]? = some 0 := by
    rw [hignored]
    rfl
  have hfirst := hs.getElem?_ratios (d := d) hzero
  have hlength : (s.ratios d).length = 1 := by
    rw [hs.fits.length_ratios, hignored]
    rfl
  obtain ⟨ratio, hratio⟩ := List.length_eq_one_iff.1 hlength
  rw [hratio] at hfirst ⊢
  rw [dot_one, dot_one] at hfirst
  exact congrArg (fun r => [r]) (Option.some.inj hfirst)

/-- With one unknown and a unit corner a ray is a unit step that does not rise. -/
theorem rayDirection_single {F : ReducedFactor ℝ 1} {g d : Vec ℝ 1} (hF : F.Shaped) (hsize : F.size = 1)
    (hunit : F.u 0 0 = 1) (h : rayDirection F g = .ok d) : d 0 * d 0 = 1 ∧ d 0 * g 0 ≤ 0 := by
  obtain ⟨c, w, hc, hexpand, hw, hslope⟩ := rayDirection_eq_ok h
  obtain ⟨⟨-, hne⟩, hback⟩ := Triangular.solve_eq_ok.1 hw
  obtain ⟨v, hv, hsolve⟩ : ∃ v : ℕ → ℝ, d 0 = c * F.expand v 0 ∧ dot F.size (F.u 0) v = 1 := by
    refine ⟨w, hexpand 0 one_pos, ?_⟩
    rw [hback, Triangular.backward_solves hF.isUpper hne (by omega), if_pos (by omega)]
  obtain ⟨W, hW⟩ := hF.factors
  have hq := hW.orthogonal 0 one_pos 0 one_pos
  rw [dot_one, if_pos rfl] at hq
  rw [hsize, dot_one, hunit, one_mul] at hsolve
  refine ⟨?_, by rwa [dot_one] at hslope⟩
  rw [hv, hF.get_expand v one_pos, hsize, dot_one, hsolve]
  unfold ReducedFactor.reversed
  linear_combination hc * (F.basis.q 0 0 * F.basis.q 0 0) + hq

theorem Lockstep.norm_project_single {p : Problem ℝ 1 1} {s : Solver ℝ 1 1} (hs : Lockstep p tol s)
    (hsize : s.factor.size = 1) : norm s.factor.width (s.factor.project s.gradient) = |s.gradient 0| := by
  have hF := hs.shaped
  obtain ⟨W, hW⟩ := hF.factors
  have hq := hW.orthogonal 0 one_pos 0 one_pos
  rw [dot_one, if_pos rfl] at hq
  rw [norm_eq, hF.width_eq, hsize, dot_one, hF.project_eq _ (by omega), hsize, dot_one, ← Real.sqrt_mul_self_eq_abs]
  unfold ReducedFactor.reversed
  congr 1
  linear_combination s.gradient 0 * s.gradient 0 * hq

/-- Where the curvature of the start is neither a pivot nor above the threshold, the first step goes along such a
ray. -/
theorem exists_unit_ray_of_last {p : Problem ℝ 1 1} (ht : tol.Accepted)
    (hunit : (initialFactor tol p.P).state.u 0 0 = 1) (hlast : (initialFactor tol p.P).state.d 0 < tol.indefinite)
    (bounds : RadiusBounds ℝ) : ∃ d : Vec ℝ 1, ({ fromZero tol p with bounds } : Solver ℝ 1 1).step =
      ({ fromZero tol p with bounds } : Solver ℝ 1 1).bounded d none ∧ d 0 * d 0 = 1 ∧ d 0 * p.q 0 ≤ 0 := by
  obtain ⟨-, hshaped⟩ := initialFactor_spec ht p.P (initialFactor_eq_ok tol p.P)
  obtain ⟨-, hsize, -⟩ := initialFactor_single ht p.P
  have hconvex : ({ fromZero tol p with bounds } : Solver ℝ 1 1).convex = false := by
    change (decide ((initialFactor tol p.P).state.size = 0) || decide (tol.indefinite ≤
      (initialFactor tol p.P).state.d ((initialFactor tol p.P).state.size - 1))) = false
    rw [hsize]
    simpa using hlast
  obtain ⟨d, hd⟩ := exists_rayDirection hshaped (fromZero tol p).gradient
  obtain ⟨hone, hslope⟩ := rayDirection_single hshaped hsize hunit hd
  rw [gradient_fromZero] at hslope
  exact ⟨d, step_of_ray hconvex hd, hone, hslope⟩

theorem exists_unit_ray_within {p : Problem ℝ 1 1} (ht : tol.Accepted) (hpos : 0 < tol.indefinite)
    (hpivot : p.P 0 0 ≤ tol.indefinite * tol.indefinite) (hsmall : p.P 0 0 < tol.indefinite) (bounds : RadiusBounds ℝ) :
    ∃ d : Vec ℝ 1, ({ fromZero tol p with bounds } : Solver ℝ 1 1).step =
      ({ fromZero tol p with bounds } : Solver ℝ 1 1).bounded d none ∧ d 0 * d 0 = 1 ∧ d 0 * p.q 0 ≤ 0 := by
  obtain ⟨-, -, ⟨hlarge, -⟩ | ⟨hunit, hcurvature⟩⟩ := initialFactor_single ht p.P
  · exact absurd hlarge (not_lt.2 hpivot)
  refine exists_unit_ray_of_last ht hunit ?_ bounds
  rw [hcurvature]
  split_ifs
  · exact hpos
  · exact hsmall

theorem exists_unit_ray {p : Problem ℝ 1 1} (ht : tol.Accepted) (hpos : 0 < tol.indefinite)
    (hpivot : p.P 0 0 ≤ tol.indefinite * tol.indefinite) (hsmall : p.P 0 0 < tol.indefinite) : ∃ d : Vec ℝ 1,
      (fromZero tol p).step = (fromZero tol p).bounded d none ∧ d 0 * d 0 = 1 ∧ d 0 * p.q 0 ≤ 0 :=
  exists_unit_ray_within ht hpos hpivot hsmall ⟨-1, none⟩

theorem start_line {c g a b : ℝ} (hb : 0 ≤ b) : start (line c g a b) 0 ⟨0, none⟩ strict =
    .ok (fromZero strict (line c g a b), (initialFactor strict (line c g a b).P).events) := by
  refine start_single validate_strict ?_ ?_ ?_
  · norm_num [strict, Tolerances.standard]
  · norm_num [strict, Tolerances.standard]
  · rw [(get_line c g a b).2.2.2]
    norm_num [strict, Tolerances.standard]
    linarith

theorem feasible_line {c g a b : ℝ} (hb : 0 ≤ b) :
    ∀ row < 1, dot 1 ((line c g a b).A row) (0 : Vec ℝ 1) ≤ (line c g a b).b row := fun row hrow => by
  rwa [Nat.lt_one_iff.1 hrow, dot_one, Vec.get_zero, mul_zero, (get_line c g a b).2.2.2]

def ledge (c : ℝ) : Problem ℝ 1 1 := line c (-1) 1 1

theorem get_ledge (c : ℝ) : (ledge c).P 0 0 = c ∧ (ledge c).q 0 = -1 ∧ (ledge c).A 0 0 = 1 ∧ (ledge c).b 0 = 1 :=
  get_line c (-1) 1 1

theorem feasible_ledge (c : ℝ) : ∀ row < 1, dot 1 ((ledge c).A row) (0 : Vec ℝ 1) ≤ (ledge c).b row :=
  feasible_line zero_le_one

theorem start_ledge (c : ℝ) : start (ledge c) 0 ⟨0, none⟩ strict =
    .ok (fromZero strict (ledge c), (initialFactor strict (ledge c).P).events) :=
  start_line zero_le_one

theorem square_le_flat_ledge {c : ℝ} (hc : |c| = 1) :
    strict.indefinite * strict.indefinite ≤ strict.relativeCurvature * (ledge c).P.scale := by
  rw [ledge, scale_line, hc]
  norm_num [strict, Tolerances.standard]

/-- Where nothing curves upward the first step goes along the line, as far as it can. -/
theorem exists_downward {c : ℝ} (hc : c ≤ 0) (bounds : RadiusBounds ℝ) : ∃ d : Vec ℝ 1, d 0 = 1 ∧
    ({ fromZero strict (ledge c) with bounds } : Solver ℝ 1 1).step =
      ({ fromZero strict (ledge c) with bounds } : Solver ℝ 1 1).bounded d none := by
  obtain ⟨hP, hq, -⟩ := get_ledge c
  obtain ⟨ht, -⟩ := start_eq_ok (start_ledge c)
  have hpos := strict_indefinite_pos
  obtain ⟨d, hstep, hone, hslope⟩ := exists_unit_ray_within (p := ledge c) ht hpos
    (by rw [hP]; exact hc.trans (mul_self_nonneg _)) (by rw [hP]; exact hc.trans_lt hpos) bounds
  refine ⟨d, ?_, hstep⟩
  rw [hq] at hslope
  nlinarith

theorem Lockstep.ratios_ledge {c : ℝ} {s : Solver ℝ 1 1} {d : Vec ℝ 1} (hs : Lockstep (ledge c) strict s)
    (hignored : s.rows.ignored = [0]) (hx : s.x = 0) (hd : d 0 = 1) : s.ratios d = [some 1] := by
  obtain ⟨-, -, hA, hb⟩ := get_ledge c
  rw [hs.ratios_single hignored, hA, hb, hd, hx, Vec.get_zero]
  norm_num [strict]

theorem step_ledge {c : ℝ} (hc : c ≤ 0) :
    ∃ d : Vec ℝ 1, d 0 = 1 ∧ (fromZero strict (ledge c)).step = .ok ⟨d, some 1, some 0⟩ := by
  obtain ⟨-, hs, -⟩ := start_eq_ok (start_ledge c)
  obtain ⟨d, hd, hstep⟩ := exists_downward hc ⟨-1, none⟩
  refine ⟨d, hd, hstep.trans ?_⟩
  change (fromZero strict (ledge c)).bounded d none = _
  rw [bounded_of_unlimited rfl (by change ¬(0 : ℝ) < -1; norm_num), hs.ratios_ledge rfl rfl hd, tightest_single]
  rfl

theorem Lockstep.multiplier_line {c g a b : ℝ} {s : Solver ℝ 1 1} (hs : Lockstep (line c g a b) tol s)
    (hworking : s.rows.working = [0]) {lam : Vec ℝ s.factor.basis.size} (hlam : s.columnMultipliers = .ok lam) :
    a * lam 0 = -(c * s.x 0 + g) := by
  obtain ⟨hP, hq, hA, -⟩ := get_line c g a b
  have hsize : s.factor.basis.size = 1 := by
    rw [← hs.length_working, hworking]
    rfl
  have hsolve := hs.columnMultipliers_solves hlam (t := 0) (by omega)
  have horthogonal := hs.columns.orthogonal 0 one_pos 0 one_pos
  have hproduct := hs.columns.product 0 ((line c g a b).A.row 0) (by rw [hworking]; rfl) 0 one_pos
  have hgradient : (line c g a b).gradient s.x 0 = c * s.x 0 + g := by
    unfold Problem.gradient
    rw [Vec.get_ofFn_of_lt _ one_pos, Mat.get_apply _ _ one_pos, dot_one, hP, hq]
  rw [dot_one, if_pos rfl] at horthogonal
  rw [dot_one, Mat.get_row, hA] at hproduct
  rw [dot_one, hgradient] at hsolve
  have hlast : s.factor.basis.r 0 0 * lam 0 = -(s.factor.basis.q 0 0 * (c * s.x 0 + g)) := by
    rw [← hsolve, dot_single (i := 0) (by omega) fun l hl hne => absurd hl (by omega)]
  linear_combination s.factor.basis.q 0 0 * hlast - lam 0 * hproduct - (c * s.x 0 + g) * horthogonal

theorem Lockstep.check_line {c g a b : ℝ} {s : Solver ℝ 1 1} (hs : Lockstep (line c g a b) tol s) (ht : tol.Accepted)
    (hN : s.factor.basis.Nonsingular) (hworking : s.rows.working = [0])
    (hmultiplier : ∀ lam : ℝ, a * lam = -(c * s.x 0 + g) → -tol.multiplier ≤ lam) :
    s.check.result = .ok none ∧ s.check.state.done = true := by
  have hcount := hs.shaped.count
  have hsize : s.factor.basis.size = 1 := by
    rw [← hs.length_working, hworking]
    rfl
  obtain ⟨lam, hlam⟩ := exists_columnMultipliers hN
  refine hs.check_solved hlam ?_ fun i hi => ?_
  · have hwidth : s.factor.width = 0 := by
      rw [hs.shaped.width_eq]
      omega
    rw [hwidth, norm_eq, show dot 0 (s.factor.project s.gradient) (s.factor.project s.gradient) = 0 from rfl,
      Real.sqrt_zero]
    exact ht.projectedGradient
  · rw [show i = 0 by omega]
    exact hmultiplier _ (hs.multiplier_line hworking hlam)

/-- The step that the only row ends leaves that row working and nothing free, and no radius bound is near. -/
theorem Ranked.taken_single {p : Problem ℝ 1 1} (hs : Ranked p tol (fromZero tol p)) (hmargin : tol.radiusMargin ≤ 1)
    {d : Vec ℝ 1} {u : ℝ} (hstep : (fromZero tol p).step = .ok ⟨d, some u, some 0⟩) :
    ((fromZero tol p).taken ⟨d, some u, some 0⟩ u).result = .ok () ∧ ∃ rows factor,
      ((fromZero tol p).taken ⟨d, some u, some 0⟩ u).state =
        { fromZero tol p with x := (fromZero tol p).x.along u d, rows, factor } ∧
      rows.working = [0] ∧ factor.size = 0 ∧ factor.artificial = 0 ∧
      ((fromZero tol p).taken ⟨d, some u, some 0⟩ u).state.settles ⟨d, some u, some 0⟩ = true := by
  have htaken := hs.lockstep.result_taken hs.accepted hstep u
  have hlock := hs.lockstep.taken hs.accepted htaken
  obtain ⟨rows, factor, hstate, ⟨hnone, -⟩ | ⟨i, row, hblock, hrow, hworking, -⟩⟩ := hs.lockstep.taken_eq_ok htaken
  · cases hnone
  obtain rfl := Option.some.inj hblock
  obtain rfl : 0 = row := Option.some.inj hrow
  have hworking : rows.working = [0] := hworking
  rw [hstate] at hlock ⊢
  have hcount : factor.size + factor.artificial + factor.basis.size = 1 := hlock.shaped.count
  have hlength : rows.working.length = factor.basis.size := hlock.length_working
  rw [hworking, List.length_singleton] at hlength
  have hsize : factor.size = 0 := by omega
  refine ⟨htaken, rows, factor, rfl, hworking, hsize, by omega, ?_⟩
  have hwithin := withinRadius_of_unlimited
    (s := { fromZero tol p with x := (fromZero tol p).x.along u d, rows, factor }) rfl hmargin
  simp [settles, hwithin, hsize]

theorem Ranked.iterate_line {c g a b : ℝ} (hs : Ranked (line c g a b) tol (fromZero tol (line c g a b)))
    (hmargin : tol.radiusMargin ≤ 1) {d : Vec ℝ 1} {u : ℝ}
    (hstep : (fromZero tol (line c g a b)).step = .ok ⟨d, some u, some 0⟩)
    (hmultiplier : ∀ lam : ℝ, a * lam = -(c * (u * d 0) + g) → -tol.multiplier ≤ lam) :
    (fromZero tol (line c g a b)).iterate.result = .ok () ∧ ∃ rows factor multipliers residual,
      rows.working = [0] ∧ factor.size = 0 ∧ factor.artificial = 0 ∧ (fromZero tol (line c g a b)).iterate.state =
        { fromZero tol (line c g a b) with
          x := Vec.ofFn fun _ => u * d 0, rows, factor, multipliers, residual, done := true, iteration := 1 } := by
  obtain ⟨htaken, rows, factor, hstate, hworking, hsize, hart, hsettles⟩ := hs.taken_single hmargin hstep
  have hlock := hs.lockstep.taken hs.accepted htaken
  have hN := (kept_nonsingular hs.accepted).taken hs.lockstep hstep htaken hs.nonsingular
  have hx : (fromZero tol (line c g a b)).x.along u d = Vec.ofFn fun _ => u * d 0 := by
    refine Vec.ext fun i hi => ?_
    rw [Vec.get_along _ _ _ hi, Vec.get_ofFn_of_lt _ hi, Nat.lt_one_iff.1 hi]
    change (0 : Vec ℝ 1) 0 + _ = _
    rw [Vec.get_zero, zero_add]
  rw [hx] at hstate
  rw [hstate] at hlock hN hsettles
  obtain ⟨hcheck, hdone⟩ := hlock.check_line hs.accepted hN hworking fun lam hlam => hmultiplier lam (by
    rwa [Vec.get_ofFn_of_lt _ one_pos] at hlam)
  obtain ⟨hfinish, hfinished⟩ := finish_of_check hart hsettles hcheck
  obtain ⟨multipliers, residual, done, hchecked⟩ := check_state
    (s := { fromZero tol (line c g a b) with x := Vec.ofFn fun _ => u * d 0, rows, factor })
  rw [hchecked] at hfinished hdone
  obtain rfl : done = true := hdone
  have hiterate : (fromZero tol (line c g a b)).iterate.result = .ok () := by
    rw [iterate_eq hstep rfl]
    exact Outcome.result_andThen_eq_ok.2 ⟨(), htaken, by rw [hstate]; exact hfinish⟩
  refine ⟨hiterate, rows, factor, multipliers, residual, hworking, hsize, hart, ?_⟩
  rw [iterate_eq hstep rfl] at hiterate ⊢
  obtain ⟨⟨⟩, -, -, hiterated⟩ := Outcome.andThen_eq_ok hiterate
  rw [hiterated, hstate, hfinished]
  rfl

/-- So the run is optimal, and its report has the point on the row. -/
theorem Ranked.run_line_blocked {c g a b : ℝ} (hs : Ranked (line c g a b) tol (fromZero tol (line c g a b)))
    (hmargin : tol.radiusMargin ≤ 1) {d : Vec ℝ 1} {u : ℝ}
    (hstep : (fromZero tol (line c g a b)).step = .ok ⟨d, some u, some 0⟩)
    (hmultiplier : ∀ lam : ℝ, a * lam = -(c * (u * d 0) + g) → -tol.multiplier ≤ lam) {o : Options}
    (ho : o.detailed = false) : ∃ r, ((fromZero tol (line c g a b)).run o).result = .ok r ∧ r.status = .optimal ∧
      r.x 0 = u * d 0 ∧ r.working = [0] ∧
      ((fromZero tol (line c g a b)).run o).state.solver = (fromZero tol (line c g a b)).iterate.state := by
  obtain ⟨hiterate, rows, factor, multipliers, residual, hworking, -, -, hstate⟩ :=
    hs.iterate_line hmargin hstep hmultiplier
  have hinside : (fromZero tol (line c g a b)).iterate.state.withinRadius = true := by
    rw [hstate]
    exact withinRadius_of_unlimited rfl hmargin
  obtain ⟨r, hrun, hopt, hfinal⟩ := run_of_done (o := o) rfl rfl rfl (withinRadius_fromZero hmargin) ho hiterate
    (by rw [hstate]) (by rw [hstate]; rfl) hinside
  obtain ⟨-, -, -, hx, -, hrows, -⟩ := run_eq_ok rfl hrun
  rw [hfinal, hstate] at hx hrows
  refine ⟨r, hrun, hopt, ?_, hrows.trans hworking, hfinal⟩
  rw [hx]
  exact Vec.get_ofFn_of_lt _ one_pos

theorem multiplier_ledge {c : ℝ} (hc : c ≤ 0) {d : Vec ℝ 1} (hd : d 0 = 1) (lam : ℝ)
    (hlam : 1 * lam = -(c * (1 * d 0) + -1)) : -strict.multiplier ≤ lam := by
  rw [hd] at hlam
  change -0 ≤ lam
  linarith

theorem iterate_ledge {c : ℝ} (hc : c ≤ 0) : (fromZero strict (ledge c)).iterate.result = .ok () ∧
    ∃ rows factor multipliers residual, rows.working = [0] ∧ factor.size = 0 ∧
      (fromZero strict (ledge c)).iterate.state = { fromZero strict (ledge c) with
        x := Vec.ofFn fun _ => 1, rows, factor, multipliers, residual, done := true, iteration := 1 } := by
  obtain ⟨d, hd, hstep⟩ := step_ledge hc
  obtain ⟨hiterate, rows, factor, multipliers, residual, hworking, hsize, -, hstate⟩ :=
    (ranked_start (start_ledge c)).iterate_line strict_radiusMargin_le hstep
      (multiplier_ledge hc hd)
  rw [hd, mul_one] at hstate
  exact ⟨hiterate, rows, factor, multipliers, residual, hworking, hsize, hstate⟩

theorem run_ledge {c : ℝ} (hc : c ≤ 0) {o : Options} (ho : o.detailed = false) : ∃ r,
    ((fromZero strict (ledge c)).run o).result = .ok r ∧ r.status = .optimal ∧ r.x 0 = 1 ∧ r.working = [0] ∧
      ((fromZero strict (ledge c)).run o).state.solver = (fromZero strict (ledge c)).iterate.state := by
  obtain ⟨d, hd, hstep⟩ := step_ledge hc
  obtain ⟨r, hrun, hopt, hx, hworking, hfinal⟩ := (ranked_start (start_ledge c)).run_line_blocked
    strict_radiusMargin_le hstep (multiplier_ledge hc hd) ho
  rw [hd, mul_one] at hx
  exact ⟨r, hrun, hopt, hx, hworking, hfinal⟩

/-- Downhill as far as `x ≤ 1` lets it. -/
def wall : Problem ℝ 1 1 := line 0 (-1) 1 1

theorem feasible_wall : ∀ row < 1, dot 1 (wall.A row) (0 : Vec ℝ 1) ≤ wall.b row :=
  feasible_ledge 0

theorem start_wall :
    start wall 0 ⟨0, none⟩ strict = .ok (fromZero strict wall, (initialFactor strict wall.P).events) :=
  start_ledge 0

end Solver

end
end ActiveSet
