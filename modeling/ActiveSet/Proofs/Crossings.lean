import ActiveSet.Proofs.Feasible

/-! Steps that a radius bound ends. What the quadratic equation returns are its roots, so such a step ends on the
sphere of the bound: with a margin the radius is then no longer inside, and nothing more is settled. -/

namespace ActiveSet

noncomputable section
open Exact

variable {m n : ℕ}

namespace Sphere

theorem root_of_outer {h q outer t : ℝ} (houter : outer * outer + 2 * h * outer + q = 0)
    (ht : t ∈ [outer, if Scalar.same outer 0 then 0 else q / outer]) : t * t + 2 * h * t + q = 0 := by
  rcases List.mem_cons.1 ht with rfl | ht
  · exact houter
  · rw [List.mem_singleton.1 ht]
    split_ifs with hzero
    · rw [same_iff.1 hzero] at houter
      linear_combination houter
    · have hne : outer ≠ 0 := fun h0 => hzero (same_iff.2 h0)
      field_simp
      linear_combination q * houter

theorem monicRoots_root {h q t : ℝ} (ht : t ∈ monicRoots h q) : t * t + 2 * h * t + q = 0 := by
  unfold monicRoots at ht
  simp only [larger_eq, abs_eq, sqrt_eq] at ht
  set scale := max |h| (Real.sqrt |q|)
  by_cases hscale : 0 < scale
  · rw [if_pos hscale] at ht
    set disc := h / scale * (h / scale) - q / scale / scale
    by_cases hdisc : disc < 0
    · rw [if_pos hdisc] at ht
      cases ht
    · rw [if_neg hdisc] at ht
      have hwidth : scale * Real.sqrt disc * (scale * Real.sqrt disc) = h * h - q := by
        have hsquare := Real.mul_self_sqrt (not_lt.1 hdisc)
        have hexpand : scale * scale * disc = h * h - q := by
          simp only [disc]
          field_simp
        linear_combination scale * scale * hsquare + hexpand
      refine root_of_outer ?_ ht
      split_ifs
      · linear_combination hwidth
      · linear_combination hwidth
  · -- a scale of zero leaves nothing of the equation
    rw [if_neg hscale] at ht
    have hle : |h| ≤ 0 ∧ Real.sqrt |q| ≤ 0 := max_le_iff.1 (not_lt.1 hscale)
    have hh : h = 0 := abs_nonpos_iff.1 hle.1
    have hq : q = 0 := abs_nonpos_iff.1 (Real.sqrt_eq_zero'.1 (le_antisymm hle.2 (Real.sqrt_nonneg _)))
    have ht0 : t = 0 := by simpa using ht
    rw [hh, hq, ht0]
    ring

theorem quadraticRoots_root {a b c t : ℝ} {roots : List ℝ} (h : quadraticRoots a b c = .ok roots) (ht : t ∈ roots) :
    a * (t * t) + b * t + c = 0 := by
  unfold quadraticRoots at h
  simp only [isFinite_eq, Bool.and_self, if_true, same_iff] at h
  split_ifs at h with ha hb hc hc hb
  · obtain rfl := Except.ok.inj h
    cases ht
  · obtain rfl := Except.ok.inj h
    rw [List.mem_singleton.1 ht, ha, hc]
    ring
  · obtain rfl := Except.ok.inj h
    rw [List.mem_singleton.1 ht, ha]
    field_simp
    ring
  · obtain rfl := Except.ok.inj h
    have ht0 : t = 0 := by simpa using ht
    rw [ht0, hb, hc]
    ring
  · obtain rfl := Except.ok.inj h
    rcases List.mem_cons.1 ht with rfl | ht
    · rw [hc]
      field_simp
      ring
    · rw [List.mem_singleton.1 ht, hc]
      ring
  · obtain rfl := Except.ok.inj h
    have hmonic := monicRoots_root ht
    norm_num at hmonic
    field_simp at hmonic
    linear_combination hmonic

theorem dot_of_crossing {x d : Vec ℝ n} {radius t : ℝ} {roots : List ℝ} (h : crossings n x d radius = .ok roots)
    (ht : t ∈ roots) : dot n (x.along t d) (x.along t d) = radius * radius := by
  have hsquare : square radius = .ok (radius * radius) := by simp [square]
  unfold crossings at h
  obtain ⟨r, hr, hroots⟩ := bind_eq_ok.1 h
  obtain rfl : radius * radius = r := Except.ok.inj (hsquare.symm.trans hr)
  have hroot := quadraticRoots_root hroots ht
  norm_num at hroot
  rw [Solver.dot_along, dot_comm n (x.along t d) x, dot_comm n (x.along t d) d, Solver.dot_along, Solver.dot_along,
    dot_comm n x d]
  linear_combination hroot

/-- From the centre a line of unit speed meets the sphere at its radius. -/
theorem crossings_center {d : Vec ℝ n} {radius : ℝ} (hd : dot n d d = 1) (hradius : 0 < radius) :
    crossings n (0 : Vec ℝ n) d radius = .ok [-radius, radius] := by
  have hzero : ∀ v : ℕ → ℝ, dot n v (0 : Vec ℝ n) = 0 := fun v => dot_eq_zero fun i _ => by rw [Vec.get_zero, mul_zero]
  have hroots : monicRoots (0 : ℝ) (-(radius * radius)) = [-radius, radius] := by
    have hscale : max |(0 : ℝ)| (Real.sqrt |(-(radius * radius))|) = radius := by
      rw [abs_neg, abs_mul_self, abs_zero, Real.sqrt_mul_self hradius.le, max_eq_right hradius.le]
    have hdisc : 0 / radius * (0 / radius) - -(radius * radius) / radius / radius = 1 := by
      field_simp
      ring
    have hnot : ¬Scalar.same (-(0 + radius * 1)) (0 : ℝ) = true := fun h => by
      linarith [same_iff.1 h]
    unfold monicRoots
    simp only [larger_eq, Exact.abs_eq, sqrt_eq, hscale, if_pos hradius, hdisc, Real.sqrt_one, lt_irrefl, if_false,
      if_neg hnot, if_neg (not_lt.2 (zero_le_one (α := ℝ)))]
    norm_num
  have hne : -(radius * radius) ≠ 0 := neg_ne_zero.2 (mul_self_ne_zero.2 hradius.ne')
  unfold crossings
  refine bind_eq_ok.2 ⟨radius * radius, by simp [square], ?_⟩
  rw [hd, hzero, hzero, zero_sub, mul_zero, quadraticRoots]
  simp only [isFinite_eq, Bool.and_self, if_true, same_iff, one_ne_zero, if_false, div_one, mul_zero]
  rw [if_neg hne, hroots]

end Sphere

namespace Solver

variable {s : Solver ℝ m n} {d : Vec ℝ n}

theorem radiusLimit_of_upper {upper : ℝ} {roots : List ℝ} (hupper : s.bounds.upper = some upper)
    (hlower : ¬0 < s.bounds.lower) (h : Sphere.crossings n s.x d upper = .ok roots) :
    s.radiusLimit d = .ok (nearest roots) := by
  unfold radiusLimit
  rw [hupper]
  dsimp only
  rw [if_pos (isFinite_eq upper)]
  refine bind_eq_ok.2 ⟨roots, h, ?_⟩
  rw [if_neg hlower]
  change Except.ok (nearest (roots ++ [])) = _
  rw [List.append_nil]

theorem radiusLimit_center {radius : ℝ} (hx : s.x = 0) (hupper : s.bounds.upper = some radius)
    (hlower : ¬0 < s.bounds.lower) (hd : dot n d d = 1) (hradius : 0 < radius) :
    s.radiusLimit d = .ok (some radius) := by
  have hcrossings : Sphere.crossings n s.x d radius = .ok [-radius, radius] := by
    rw [hx]
    exact Sphere.crossings_center hd hradius
  have hnearest : nearest [-radius, radius] = some radius := by simp [nearest, tighter, hradius, hradius.le]
  rw [radiusLimit_of_upper hupper hlower hcrossings, hnearest]

/-- On a radius bound only a margin of zero counts as inside. -/
theorem margin_nonpos {t : ℝ} (h : s.radiusLimit d = .ok (some t))
    (hwithin : ({ s with x := s.x.along t d } : Solver ℝ m n).withinRadius = true) : s.tolerances.radiusMargin ≤ 0 := by
  obtain ⟨crossings, hlimit, hcrosses⟩ := radiusLimit_eq_ok h
  obtain ⟨radius, roots, hbound, hroots, ht⟩ := (hcrosses t).1 (nearest_eq_some hlimit.symm).1
  have hnorm : norm n (s.x.along t d) = |radius| := by
    rw [norm_eq, Sphere.dot_of_crossing hroots ht, Real.sqrt_mul_self_eq_abs]
  obtain ⟨hlow, hhigh⟩ := Bool.and_eq_true_iff.1 hwithin
  rcases hbound with hupper | ⟨hpos, rfl⟩
  · dsimp only at hhigh
    rw [hupper] at hhigh
    have hle : norm n (s.x.along t d) ≤ radius - s.tolerances.radiusMargin := of_decide_eq_true hhigh
    rw [hnorm] at hle
    linarith [le_abs_self radius]
  · have hle : s.bounds.lower + s.tolerances.radiusMargin ≤ norm n (s.x.along t d) := of_decide_eq_true hlow
    rw [hnorm, abs_of_pos hpos] at hle
    linarith

/-- A step that is settled while a direction is free has not been blocked, so it has only moved the point. -/
theorem settles_taken {step : Step ℝ n} {t : ℝ} (hsize : 0 < (s.taken step t).state.factor.size)
    (h : (s.taken step t).state.settles step = true) : step.blocking = none ∧
      (s.taken step t).state = { s with x := s.x.along t step.direction } ∧
      ({ s with x := s.x.along t step.direction } : Solver ℝ m n).withinRadius = true := by
  obtain ⟨hfree, hwithin⟩ := Bool.and_eq_true_iff.1 h
  have hblock : step.blocking = none := by simpa [hsize.ne'] using hfree
  have hmoved : (s.taken step t).state = { s with x := s.x.along t step.direction } := by
    unfold Solver.taken
    rw [hblock]
    rfl
  rw [hmoved] at hwithin
  exact ⟨hblock, hmoved, hwithin⟩

theorem bounded_unblocked {most : Option ℝ} {step : Step ℝ n} {t : ℝ} (h : s.bounded d most = .ok step)
    (hlen : step.length = some t) (hblock : step.blocking = none) : most = some t ∨ s.radiusLimit d = .ok (some t) := by
  obtain ⟨radius, hradius, rfl⟩ := map_eq_ok.1 h
  dsimp only at hlen hblock
  rw [hlen] at hblock
  rw [shorter_eq_tighter, shorter_eq_tighter] at hlen
  rcases tighter_eq_or (tighter most ((tightest (s.ratios d)).map Prod.fst)) radius with h | h
  · rw [h] at hlen
    rcases tighter_eq_or most ((tightest (s.ratios d)).map Prod.fst) with h | h
    · exact Or.inl (h.symm.trans hlen)
    · -- a row that sets the length blocks the step
      rw [h] at hlen
      obtain ⟨limit, hlimit, rfl⟩ := Option.map_eq_some_iff.1 hlen
      rw [hlimit] at hblock
      simp at hblock
  · rw [h] at hlen
    rw [hlen] at hradius
    exact Or.inr hradius

end Solver

end
end ActiveSet
