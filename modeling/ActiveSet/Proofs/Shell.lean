import Mathlib.Topology.Order.IntermediateValue
import ActiveSet.Proofs.Descent
import ActiveSet.Proofs.Violation

/-! The point stays between the radius bounds. The quadratic equation returns every root, so the nearest crossing ahead
is the first one, and a step that is no longer than that cannot leave the shell: on the way out it would cross a sphere
sooner. A finite outer bound is met by every direction, and so no ray is endless. -/

namespace ActiveSet

noncomputable section
open Exact

variable {m n : ℕ}

namespace Sphere

theorem mem_monicRoots {h q t : ℝ} (hq : q ≠ 0) (ht : t * t + 2 * h * t + q = 0) : t ∈ monicRoots h q := by
  unfold monicRoots
  simp only [larger_eq, abs_eq, sqrt_eq]
  set scale := max |h| (Real.sqrt |q|)
  have hscale : 0 < scale := lt_max_of_lt_right (Real.sqrt_pos.2 (abs_pos.2 hq))
  have hdisc : h / scale * (h / scale) - q / scale / scale = (t + h) / scale * ((t + h) / scale) := by
    field_simp
    linear_combination -ht
  have hwidth : scale * |(t + h) / scale| = |t + h| := by
    rw [abs_div, abs_of_pos hscale]
    field_simp
  -- a root is the outer one, or the two have the product `q`
  have hpair : ∀ outer, outer * outer + 2 * h * outer + q = 0 →
      t ∈ [outer, if Scalar.same outer 0 then 0 else q / outer] := by
    intro outer houter
    have hne : outer ≠ 0 := fun h0 => hq (by rw [h0] at houter; linarith)
    have hvieta : (t - outer) * (t + outer + 2 * h) = 0 := by linear_combination ht - houter
    rw [if_neg fun h0 => hne (same_iff.1 h0), List.mem_cons, List.mem_singleton, eq_div_iff hne]
    rcases mul_eq_zero.1 hvieta with h0 | h0
    · exact Or.inl (by linarith)
    · exact Or.inr (by linear_combination outer * h0 - houter)
  rw [if_pos hscale, hdisc, if_neg (not_lt.2 (mul_self_nonneg _)), Real.sqrt_mul_self_eq_abs, hwidth]
  have hsquare := abs_mul_abs_self (t + h)
  apply hpair
  split_ifs
  · linear_combination hsquare + ht
  · linear_combination hsquare + ht

theorem mem_quadraticRoots {a b c t : ℝ} {roots : List ℝ} (ha : a ≠ 0) (h : quadraticRoots a b c = .ok roots)
    (ht : a * (t * t) + b * t + c = 0) : t ∈ roots := by
  unfold quadraticRoots at h
  simp only [isFinite_eq, Bool.and_self, if_true, same_iff, if_neg ha] at h
  split_ifs at h with hc hb
  · obtain rfl := Except.ok.inj h
    rw [hb, hc] at ht
    have ht0 : t = 0 := by simpa [ha] using ht
    rw [ht0]
    exact List.mem_cons_self
  · obtain rfl := Except.ok.inj h
    have hfactor : t * (a * t + b) = 0 := by linear_combination ht - hc
    rcases mul_eq_zero.1 hfactor with h0 | h0
    · rw [h0]
      exact List.mem_cons_of_mem _ List.mem_cons_self
    · have ht' : t = -(b / a) := by
        field_simp
        linarith
      rw [ht']
      exact List.mem_cons_self
  · obtain rfl := Except.ok.inj h
    refine mem_monicRoots (div_ne_zero hc ha) ?_
    norm_num
    field_simp
    linear_combination ht

theorem dot_along_self (x d : Vec ℝ n) (t : ℝ) : dot n (x.along t d) (x.along t d) =
    dot n x x + 2 * dot n d x * t + dot n d d * (t * t) := by
  rw [Solver.dot_along, dot_comm n (x.along t d) x, dot_comm n (x.along t d) d, Solver.dot_along, Solver.dot_along,
    dot_comm n x d]
  ring

theorem mem_crossings {x d : Vec ℝ n} {radius t : ℝ} {roots : List ℝ} (hd : dot n d d ≠ 0)
    (h : crossings n x d radius = .ok roots) (ht : dot n (x.along t d) (x.along t d) = radius * radius) :
    t ∈ roots := by
  have hsquare : square radius = .ok (radius * radius) := by simp [square]
  unfold crossings at h
  obtain ⟨r, hr, hroots⟩ := bind_eq_ok.1 h
  obtain rfl : radius * radius = r := Except.ok.inj (hsquare.symm.trans hr)
  refine mem_quadraticRoots hd hroots ?_
  rw [dot_along_self] at ht
  norm_num
  linear_combination ht

end Sphere

namespace Solver

variable {p : Problem ℝ m n} {tol : Tolerances ℝ} {s t : Solver ℝ m n} {d : Vec ℝ n} {o : Options}

/-- A step ends at the latest where a radius bound is crossed. -/
theorem bounded_within {most : Option ℝ} {step : Step ℝ n} (h : s.bounded d most = .ok step) {u : ℝ}
    (hu : s.Crosses d u) (h0 : 0 ≤ u) : Within step.length u := by
  obtain ⟨limit, hlimit, rfl⟩ := map_eq_ok.1 h
  obtain ⟨crossings, rfl, hcrosses⟩ := radiusLimit_eq_ok hlimit
  dsimp only
  rw [shorter_eq_tighter]
  exact tighter_right (within_nearest ((hcrosses u).2 hu) h0)

def sweep (x d : Vec ℝ n) (u : ℝ) : ℝ := dot n (x.along u d) (x.along u d)

theorem continuous_sweep (x d : Vec ℝ n) : Continuous (sweep x d) := by
  have heq : sweep x d = fun u => dot n x x + 2 * dot n d x * u + dot n d d * (u * u) :=
    funext fun u => Sphere.dot_along_self x d u
  rw [heq]
  fun_prop

theorem sweep_zero (x d : Vec ℝ n) : sweep x d 0 = dot n x x := by
  unfold sweep
  rw [Sphere.dot_along_self]
  ring

theorem norm_along (x d : Vec ℝ n) (u : ℝ) : norm n (x.along u d) = Real.sqrt (sweep x d u) := norm_eq ..

theorem sweep_of_still (hd : dot n d d = 0) (x : Vec ℝ n) (u : ℝ) : sweep x d u = dot n x x := by
  have hx : dot n d x = 0 := dot_eq_zero fun i hi => by rw [eq_zero_of_dot_self hd i hi, zero_mul]
  unfold sweep
  rw [Sphere.dot_along_self, hd, hx]
  ring

theorem crosses_of_sweep {radius u : ℝ}
    (hradius : s.bounds.upper = some radius ∨ (0 < s.bounds.lower ∧ s.bounds.lower = radius)) (hd : dot n d d ≠ 0)
    (hu : sweep s.x d u = radius * radius) : s.Crosses d u := by
  obtain ⟨roots, hroots⟩ := Sphere.exists_crossings (n := n) s.x d radius
  exact ⟨radius, roots, hradius, hroots, Sphere.mem_crossings hd hroots hu⟩

def InShell (bounds : RadiusBounds ℝ) (x : Vec ℝ n) : Prop :=
  bounds.lower ≤ norm n x ∧ ∀ upper, bounds.upper = some upper → norm n x ≤ upper

theorem inShell_of_withinRadius (hmargin : 0 ≤ s.tolerances.radiusMargin) (h : s.withinRadius = true) :
    InShell s.bounds s.x := by
  obtain ⟨hlow, hhigh⟩ := Bool.and_eq_true_iff.1 h
  refine ⟨?_, fun upper hupper => ?_⟩
  · have hle : s.bounds.lower + s.tolerances.radiusMargin ≤ norm n s.x := of_decide_eq_true hlow
    linarith
  · rw [hupper] at hhigh
    have hle : norm n s.x ≤ upper - s.tolerances.radiusMargin := of_decide_eq_true hhigh
    linarith

/-- Up to the first crossing the point stays between the bounds: past one of them there is a crossing on the way. -/
theorem InShell.along (hx : InShell s.bounds s.x) {t : ℝ} (ht : 0 ≤ t)
    (hfirst : ∀ u, s.Crosses d u → 0 ≤ u → t ≤ u) : InShell s.bounds (s.x.along t d) := by
  by_cases hd : dot n d d = 0
  · have hnorm : norm n (s.x.along t d) = norm n s.x := by rw [norm_along, sweep_of_still hd, norm_eq]
    unfold InShell
    rwa [hnorm]
  have hcont : ContinuousOn (sweep s.x d) (Set.Icc 0 t) := (continuous_sweep s.x d).continuousOn
  have hstart : norm n s.x = Real.sqrt (sweep s.x d 0) := by rw [sweep_zero, norm_eq]
  -- a crossing on the way can only be the end of it
  have hend : ∀ radius, (s.bounds.upper = some radius ∨ (0 < s.bounds.lower ∧ s.bounds.lower = radius)) →
      radius * radius ∈ sweep s.x d '' Set.Icc 0 t → sweep s.x d t = radius * radius := by
    rintro radius hradius ⟨u, ⟨hu0, hut⟩, hu⟩
    have htu := hfirst u (crosses_of_sweep hradius hd hu) hu0
    rwa [le_antisymm hut htu] at hu
  refine ⟨?_, fun upper hupper => ?_⟩
  · by_contra hlow
    rw [norm_along] at hlow
    have hpos : 0 < s.bounds.lower := (Real.sqrt_nonneg _).trans_lt (not_le.1 hlow)
    have hbelow : sweep s.x d t < s.bounds.lower * s.bounds.lower := by
      rw [← sq]
      exact (Real.sqrt_lt' hpos).1 (not_le.1 hlow)
    have habove : s.bounds.lower * s.bounds.lower ≤ sweep s.x d 0 := by
      rw [← sq]
      exact (Real.le_sqrt' hpos).1 (hstart ▸ hx.1)
    have hcross := hend _ (Or.inr ⟨hpos, rfl⟩) (intermediate_value_Icc' ht hcont ⟨hbelow.le, habove⟩)
    exact hbelow.ne hcross
  · by_contra hhigh
    rw [norm_along] at hhigh
    have hinside := hx.2 upper hupper
    rw [hstart] at hinside
    have hpos : 0 ≤ upper := (Real.sqrt_nonneg _).trans hinside
    have habove : upper * upper < sweep s.x d t := by
      rw [← sq]
      exact (Real.lt_sqrt hpos).1 (not_le.1 hhigh)
    have hbelow : sweep s.x d 0 ≤ upper * upper := by
      rw [← sq]
      exact (Real.sqrt_le_left hpos).1 hinside
    have hcross := hend _ (Or.inl hupper) (intermediate_value_Icc ht hcont ⟨hbelow, habove.le⟩)
    exact habove.ne' hcross

/-- From inside a finite outer bound every direction leads to it. -/
theorem InShell.exists_crosses (hx : InShell s.bounds s.x) {upper : ℝ} (hupper : s.bounds.upper = some upper)
    (hd : dot n d d ≠ 0) : ∃ u, 0 ≤ u ∧ s.Crosses d u := by
  have hpos : 0 < dot n d d := lt_of_le_of_ne (dot_self_nonneg n d) (Ne.symm hd)
  have hinside := hx.2 upper hupper
  rw [norm_eq] at hinside
  have hupper0 : 0 ≤ upper := (Real.sqrt_nonneg _).trans hinside
  have hbelow : dot n s.x s.x ≤ upper * upper := by
    rw [← sq]
    exact (Real.sqrt_le_left hupper0).1 hinside
  -- far enough along the line the square of the speed outweighs the rest
  set far := (upper * upper + 2 * |dot n d s.x|) / dot n d d + 1
  have hfar : 1 ≤ far := by
    have hnonneg : 0 ≤ (upper * upper + 2 * |dot n d s.x|) / dot n d d := by positivity
    exact le_add_of_nonneg_left hnonneg
  have hspeed : dot n d d * far = upper * upper + 2 * |dot n d s.x| + dot n d d := by
    simp only [far]
    field_simp
  have habove : upper * upper ≤ sweep s.x d far := by
    unfold sweep
    rw [Sphere.dot_along_self]
    have hx0 : 0 ≤ dot n s.x s.x := dot_self_nonneg n s.x
    have hslope := neg_abs_le (dot n d s.x)
    have hsquare : 0 ≤ upper * upper := mul_self_nonneg upper
    nlinarith
  obtain ⟨u, ⟨hu0, -⟩, hu⟩ := intermediate_value_Icc (zero_le_one.trans hfar)
    (continuous_sweep s.x d).continuousOn ⟨(sweep_zero s.x d).trans_le hbelow, habove⟩
  exact ⟨u, hu0, crosses_of_sweep (Or.inl hupper) hd hu⟩

theorem InShell.iterate (hx : InShell s.bounds s.x) (hblocking : 0 ≤ s.tolerances.blocking) :
    InShell s.bounds s.iterate.state.x := by
  obtain hstate | ⟨step, hstep, ⟨-, hstate⟩ | ⟨u, _, _, _, _, _, _, hlen, hstate⟩⟩ := s.iterate_frame
  · rwa [hstate]
  · rw [hstate]
    exact hx
  · rw [hstate]
    refine hx.along (length_nonneg hblocking hstep hlen) fun v hv h0 => ?_
    rcases step_cases hstep with rfl | ⟨d, most, -, -, hbounded⟩
    · exact (Option.some.inj hlen).ge.trans h0
    · obtain ⟨rfl, -⟩ := bounded_eq_ok hbounded
      obtain ⟨w, hw, hwv⟩ := bounded_within hbounded hv h0
      exact (Option.some.inj (hlen.symm.trans hw)).le.trans hwv

/-- No ray is endless inside a finite bound. -/
theorem Lockstep.ray_iterate (hs : Lockstep p tol s) (hx : InShell s.bounds s.x) {upper : ℝ}
    (hupper : s.bounds.upper = some upper) (hray : s.ray = none) : s.iterate.state.ray = none := by
  obtain hstate | ⟨step, hstep, ⟨hlen, -⟩ | ⟨u, _, _, _, _, _, _, -, hstate⟩⟩ := s.iterate_frame
  · rwa [hstate]
  · exfalso
    obtain ⟨hconvex, hd, -⟩ := step_endless hstep hlen
    obtain ⟨hsize, -⟩ := convex_eq_false hconvex
    obtain ⟨i, hi, hne⟩ := (descends_rayDirection p.P 0 hs.shaped hsize hd).nonzero
    obtain ⟨u, hu0, hu⟩ := hx.exists_crosses hupper fun h0 => hne (eq_zero_of_dot_self h0 i hi)
    rcases step_cases hstep with rfl | ⟨d, most, -, -, hbounded⟩
    · cases hlen
    · obtain ⟨rfl, -⟩ := bounded_eq_ok hbounded
      obtain ⟨w, hw, -⟩ := bounded_within hbounded hu hu0
      rw [hlen] at hw
      cases hw
  · rw [hstate]
    exact hray

/-- From a point that is not inside the bounds by the margin a loop makes no iteration. -/
theorem loop_of_outside {w : Watched ℝ m n} (hout : w.solver.withinRadius = false) (k : ℕ) :
    w.loop o k = .done w () := by
  refine Watched.loop_of_decided ?_ k
  unfold Watched.undecided
  rw [hout, Bool.and_false]

theorem loop_in_shell (hmargin : 0 ≤ s.tolerances.radiusMargin) (hblocking : 0 ≤ s.tolerances.blocking)
    (hwithin : s.withinRadius = true) {w : Watched ℝ m n} (hw : w.solver = s) (k : ℕ) :
    InShell s.bounds (w.loop o k).state.solver.x := by
  have hkept := Watched.loop_stays (o := o) (w := w) (q := fun t => Alike s t ∧ InShell s.bounds t.x) ?_ k ?_
  · exact hkept.2
  · rintro v ⟨halike, hx⟩ -
    refine ⟨halike.iterate, ?_⟩
    rw [← halike.2] at hx ⊢
    exact hx.iterate (by rwa [halike.1])
  · rw [hw]
    exact ⟨⟨rfl, rfl⟩, inShell_of_withinRadius hmargin hwithin⟩

/-- The solver behind a report has no ray if its outer bound is finite. -/
theorem Lockstep.ray_run (hs : Lockstep p tol s) (ht : tol.Accepted) (hmargin : 0 ≤ tol.radiusMargin)
    (hray : s.ray = none) {upper : ℝ} (hupper : s.bounds.upper = some upper) {r : Report ℝ m n}
    (hrun : (s.run o).result = .ok r) (hstatus : r.status ≠ .numericalError) : (s.run o).state.solver.ray = none := by
  by_cases hwithin : s.withinRadius = true
  · have hstep : ∀ t : Solver ℝ m n, (Lockstep p tol t ∧ Alike s t ∧ InShell s.bounds t.x ∧ t.ray = none) →
        t.done = false → t.unbounded = false → t.iterate.result = .ok () → Lockstep p tol t.iterate.state ∧
          Alike s t.iterate.state ∧ InShell s.bounds t.iterate.state.x ∧ t.iterate.state.ray = none := by
      rintro t ⟨hlock, halike, hx, hnone⟩ - - hok
      rw [← halike.2] at hx hupper ⊢
      exact ⟨hlock.iterate ht hok, halike.iterate, hx.iterate (by rw [hlock.tolerances]; exact ht.blocking),
        hlock.ray_iterate hx hupper hnone⟩
    have hx := inShell_of_withinRadius (by rwa [hs.tolerances]) hwithin
    exact (run_keeps hstep ⟨hs, ⟨rfl, rfl⟩, hx, hray⟩ hrun hstatus).1.2.2.2
  · obtain ⟨hsolver, -, hfinal, -⟩ := run_eq_ok rfl hrun
    rw [hfinal, loop_of_outside (by rw [hsolver]; exact Bool.eq_false_of_not_eq_true hwithin)]
    change (Watched.observe o true ⟨s, []⟩).state.solver.ray = none
    rw [hsolver, hray]

theorem Lockstep.status_ne_unbounded (hs : Lockstep p tol s) (ht : tol.Accepted) (hmargin : 0 ≤ tol.radiusMargin)
    (hray : s.ray = none) {upper : ℝ} (hupper : s.bounds.upper = some upper) {r : Report ℝ m n}
    (hrun : (s.run o).result = .ok r) : r.status ≠ .unbounded := by
  intro hunbounded
  have hstatus : r.status ≠ .numericalError := by
    rw [hunbounded]
    exact nofun
  have hnone := hs.ray_run ht hmargin hray hupper hrun hstatus
  obtain ⟨-, hverdict⟩ := run_keeps (q := fun _ => True) (fun _ _ _ _ _ => trivial) trivial hrun hstatus
  rw [hunbounded] at hverdict
  rcases verdict_cases hnone with h | h | ⟨h, -⟩
  · exact nomatch hverdict.trans h
  · exact nomatch hverdict.trans h
  · exact nomatch hverdict.trans h

theorem stored_bounds {x₀ : Vec ℝ n} {bounds : RadiusBounds ℝ} {events : List (Event ℝ)}
    (hstart : start p x₀ bounds tol = .ok (s, events)) :
    s.bounds = ⟨if bounds.lower < tol.feasibility then -1 else bounds.lower, bounds.upper⟩ := by
  obtain ⟨-, accepted, haccepted, -, hstate⟩ := start_state hstart
  unfold acceptBounds at haccepted
  by_cases hempty : (bounds.upper.any fun upper => decide (upper < bounds.lower)) = true
  · rw [if_pos hempty] at haccepted
    cases haccepted
  · rw [if_neg hempty] at haccepted
    rw [hstate]
    exact (Except.ok.inj haccepted).symm

/-- Every point of a run is between the stored radius bounds, unless the start is not inside them by the margin and no
iteration is made; and with a finite outer bound no run ends as unbounded. -/
theorem iterates_stay_in_shell {x₀ : Vec ℝ n} {bounds : RadiusBounds ℝ} {events : List (Event ℝ)}
    (hstart : start p x₀ bounds tol = .ok (s, events)) :
    s.bounds = ⟨if bounds.lower < tol.feasibility then -1 else bounds.lower, bounds.upper⟩ ∧
    (∀ o k (w : Watched ℝ m n), w.solver = s → (s.withinRadius = false ∧ w.loop o k = .done w ()) ∨
      InShell s.bounds (w.loop o k).state.solver.x) ∧
    ∀ o r, (s.run o).result = .ok r → ((s.withinRadius = false ∧ r.x = x₀) ∨ InShell s.bounds r.x) ∧
      ∀ upper, bounds.upper = some upper → r.status ≠ .unbounded := by
  obtain ⟨ht, hs, hx₀, -⟩ := start_eq_ok hstart
  obtain ⟨hvalid, accepted, -, -, hstate⟩ := start_state hstart
  have hmargin := Tolerances.radiusMargin_nonneg hvalid
  have hbounds := stored_bounds hstart
  have hray : s.ray = none := by rw [hstate]
  have hloop : ∀ o k (w : Watched ℝ m n), w.solver = s → (s.withinRadius = false ∧ w.loop o k = .done w ()) ∨
      InShell s.bounds (w.loop o k).state.solver.x := by
    intro o k w hw
    by_cases hwithin : s.withinRadius = true
    · exact Or.inr (loop_in_shell (by rwa [hs.tolerances]) (by rw [hs.tolerances]; exact ht.blocking) hwithin hw k)
    · have hout := Bool.eq_false_of_not_eq_true hwithin
      exact Or.inl ⟨hout, loop_of_outside (by rwa [hw]) k⟩
  refine ⟨hbounds, hloop, fun o r hrun => ⟨?_, fun upper hupper => ?_⟩⟩
  · obtain ⟨hsolver, -, hfinal, hx, -⟩ := run_eq_ok rfl hrun
    rw [hx, hfinal]
    rcases hloop o (o.maxIter + 1) _ hsolver with ⟨hout, hdone⟩ | hshell
    · refine Or.inl ⟨hout, ?_⟩
      rw [hdone]
      change (Watched.observe o true ⟨s, []⟩).state.solver.x = x₀
      rw [hsolver, hx₀]
    · exact Or.inr hshell
  · exact hs.status_ne_unbounded ht hmargin hray (by rw [hbounds]; exact hupper) hrun

theorem withinRadius_center (hx : s.x = 0) (hlower : s.bounds.lower + s.tolerances.radiusMargin ≤ 0)
    (hupper : ∀ upper, s.bounds.upper = some upper → s.tolerances.radiusMargin ≤ upper) : s.withinRadius = true := by
  have hnorm : norm n s.x = 0 := by
    rw [hx, norm_eq, dot_eq_zero fun i _ => by rw [Vec.get_zero, mul_zero], Real.sqrt_zero]
  refine Bool.and_eq_true_iff.2 ⟨decide_eq_true (hlower.trans hnorm.ge), ?_⟩
  cases hbound : s.bounds.upper with
  | none => rfl
  | some upper =>
    have hle := hupper upper hbound
    refine decide_eq_true (le_of_eq_of_le hnorm ?_)
    linarith

theorem iterates_stay_in_shell_drift : ∃ s events r,
    start drift 0 ⟨0, some 1e6⟩ Tolerances.standard = .ok (s, events) ∧ (s.run ⟨5000, 0, 50⟩).result = .ok r ∧
      -1 ≤ norm 1 r.x ∧ norm 1 r.x ≤ 1e6 ∧ r.status ≠ .unbounded := by
  obtain ⟨hiterate, -, hout⟩ := iterate_drift
  have hinside : drifting.withinRadius = true := by
    refine withinRadius_center rfl ?_ fun upper hupper => ?_
    · change -1 + (Tolerances.standard : Tolerances ℝ).radiusMargin ≤ 0
      norm_num [Tolerances.standard]
    · obtain rfl : 1e6 = upper := Option.some.inj hupper
      change (Tolerances.standard : Tolerances ℝ).radiusMargin ≤ 1e6
      norm_num [Tolerances.standard]
  obtain ⟨r, hr, -⟩ := run_of_decided (s := drifting) (o := ⟨5000, 0, 50⟩) rfl rfl rfl hinside rfl hiterate
    (Or.inr (Or.inr hout))
  obtain ⟨-, -, hrun⟩ := iterates_stay_in_shell start_drift
  obtain ⟨⟨hoff, -⟩ | hshell, hstatus⟩ := hrun _ r hr
  · rw [hinside] at hoff
    cases hoff
  · exact ⟨_, _, r, start_drift, hr, hshell.1, hshell.2 _ rfl, hstatus _ rfl⟩

end Solver

end
end ActiveSet
