import ActiveSet.Proofs.Directions
import ActiveSet.Proofs.Shell

/-! A step is as long as it can be. From a feasible point inside the outer bound the lengths that keep every row and the
bound, up to the one wanted, have a greatest one, and the step takes it: the ratio test sees every row that the
direction approaches, and past the nearest crossing ahead the line does not come back inside the sphere. The row that
blocks a step is the last of those that set its length. -/

namespace ActiveSet

noncomputable section
open Exact

variable {m n : ℕ}

/-- Inside a sphere and then on it, a line is outside from there on. -/
theorem Sphere.lt_of_past {a b c r u v : ℝ} (ha : 0 ≤ a) (hinside : c < r) (hu : 0 ≤ u)
    (hon : c + b * u + a * (u * u) = r) (huv : u < v) : r < c + b * v + a * (v * v) := by
  by_contra hle
  have hscaled : u * (c + b * v + a * (v * v)) ≤ u * r := mul_le_mul_of_nonneg_left (not_lt.1 hle) hu
  have hcross : (v - u) * (r - c + a * (u * v)) = u * (c + b * v + a * (v * v)) - u * r := by
    linear_combination -v * hon
  have hchord : 0 ≤ a * (u * v) := mul_nonneg ha (mul_nonneg hu (hu.trans huv.le))
  have hpos : 0 < (v - u) * (r - c + a * (u * v)) := mul_pos (by linarith) (by linarith)
  linarith

namespace Solver

theorem find?_reverse_range {f : ℕ → Bool} {k i j : ℕ} (h : (List.range k).reverse.find? f = some i) (hij : i < j)
    (hjk : j < k) : f j = false := by
  induction k with
  | zero => omega
  | succ k ih =>
    rw [List.range_succ, List.reverse_append, List.reverse_singleton, List.singleton_append, List.find?_cons] at h
    cases hk : f k with
    | true =>
      rw [hk] at h
      obtain rfl := Option.some.inj h
      omega
    | false =>
      rw [hk] at h
      rcases Nat.lt_succ_iff_lt_or_eq.1 hjk with hlt | rfl
      · exact ih h hlt
      · exact hk

theorem tightest_last {limits : List (Option ℝ)} {t : ℝ} {i j : ℕ} (h : tightest limits = some (t, i)) (hij : i < j) :
    limits[j]? ≠ some (some t) := by
  intro hj
  unfold tightest at h
  cases hfold : limits.foldl tighter none with
  | none => simp [hfold] at h
  | some u =>
    simp only [hfold, isFinite_eq, if_true, Option.map_eq_some_iff] at h
    obtain ⟨_, hfind, hpair⟩ := h
    obtain ⟨rfl, rfl⟩ := Prod.mk.inj hpair
    have hnot := find?_reverse_range hfind hij (List.getElem?_eq_some_iff.1 hj).1
    simp only [hj] at hnot
    exact Bool.false_ne_true (hnot.symm.trans (same_iff.2 rfl))

variable {p : Problem ℝ m n} {tol : Tolerances ℝ} {s t : Solver ℝ m n} {x d x₀ : Vec ℝ n} {most : Option ℝ}
  {step : Step ℝ n} {bounds : RadiusBounds ℝ} {events : List (Event ℝ)}

/-- The lengths of at most `most` along which every row and the outer radius bound are kept. -/
def Allowed (p : Problem ℝ m n) (x d : Vec ℝ n) (most upper : Option ℝ) : Set ℝ :=
  {a | 0 ≤ a ∧ (∀ t, most = some t → a ≤ t) ∧ (∀ row < m, dot n (p.A row) (x.along a d) ≤ p.b row) ∧
    ∀ radius, upper = some radius → norm n (x.along a d) ≤ radius}

/-- The direction approaches the row and meets it at length `u`. -/
def Meets (p : Problem ℝ m n) (x d : Vec ℝ n) (row : ℕ) (u : ℝ) : Prop :=
  0 < dot n (p.A row) d ∧ u = (p.b row - dot n (p.A row) x) / dot n (p.A row) d

/-- From a feasible point the ratio of a row is where it is met. -/
theorem Feasible.ratio_iff (hf : Feasible p s) (hs : Lockstep p tol s) (hblocking : tol.blocking = 0) {i : ℕ} {u : ℝ} :
    (s.ratios d)[i]? = some (some u) ↔ ∃ row, s.rows.ignored[i]? = some row ∧ Meets p s.x d row u := by
  rw [hs.ratio_iff, hblocking]
  refine exists_congr fun row => and_congr_right fun hrow => and_congr_right fun _ => ?_
  have hslack := hf.rows row ((hs.mem_iff row).1 (Or.inr (List.mem_of_getElem? hrow)))
  rw [abs_of_nonneg (by linarith)]

section

variable (hs : Lockstep p tol s) (hf : Feasible p s) (hblocking : tol.blocking = 0) (hlower : s.bounds.lower ≤ 0)
  (hinside : ∀ upper, s.bounds.upper = some upper → norm n s.x < upper) (hd : Spanned s.factor d)
  (h : s.bounded d most = .ok step)

include hlower hinside in
theorem inShell_of_inside : InShell s.bounds s.x := by
  refine ⟨hlower.trans ?_, fun upper hupper => (hinside upper hupper).le⟩
  rw [norm_eq]
  exact Real.sqrt_nonneg _

include hs hf hblocking hlower hinside hd h

theorem length_mem_allowed (hmost : ∀ t, most = some t → 0 ≤ t) {u : ℝ} (hlen : step.length = some u) :
    u ∈ Allowed p s.x d most s.bounds.upper := by
  have hle : ∀ {v : ℝ}, Within step.length v → u ≤ v := fun ⟨w, hw, hwv⟩ =>
    (Option.some.inj (hlen.symm.trans hw)).le.trans hwv
  obtain ⟨-, hlimit, hleast, -⟩ := bounded_eq_ok h
  have hu : 0 ≤ u := by
    rcases hleast u hlen with hu | hu | hu
    · exact hmost u hu
    · exact ratio_nonneg (by rw [hs.tolerances, hblocking]) hu
    · exact hu
  refine ⟨hu, fun v hv => ?_, ?_, ?_⟩
  · subst hv
    exact hle (bounded_le h)
  · exact (hf.along hs hblocking hu (fun row hrow => hs.dot_spanned hd hrow) fun v hv => hle (hlimit v hv)).rows
  · exact ((inShell_of_inside hlower hinside).along hu fun v hv h0 => hle (bounded_within h hv h0)).2

omit hd in
theorem le_length_of_allowed {u a : ℝ} (hlen : step.length = some u) (ha : a ∈ Allowed p s.x d most s.bounds.upper) :
    a ≤ u := by
  obtain ⟨-, hmost, hrows, hradius⟩ := ha
  cases hblock : step.blocking with
  | some i =>
    -- past the row that blocks the step it is violated
    obtain ⟨v, hv, hratio⟩ := (bounded_eq_ok h).2.2.2 i hblock
    obtain rfl : u = v := Option.some.inj (hlen.symm.trans hv)
    obtain ⟨row, hrow, hrate, rfl⟩ := (hf.ratio_iff hs hblocking).1 hratio
    have hkept := hrows row ((hs.mem_iff row).1 (Or.inr (List.mem_of_getElem? hrow)))
    rw [dot_along] at hkept
    rw [le_div_iff₀ hrate]
    linarith
  | none =>
    rcases bounded_unblocked h hlen hblock with hfull | hlimit
    · exact hmost u hfull
    · -- past the sphere the line does not come back
      obtain ⟨crossings, hnearest, hcrosses⟩ := radiusLimit_eq_ok hlimit
      obtain ⟨hu, hu0⟩ := nearest_eq_some hnearest.symm
      obtain ⟨radius, roots, hupper | ⟨hpos, -⟩, hroots, hroot⟩ := (hcrosses u).1 hu
      · have hbelow := hinside radius hupper
        have hend := hradius radius hupper
        rw [norm_eq] at hbelow hend
        have hradius0 : 0 < radius := (Real.sqrt_nonneg _).trans_lt hbelow
        rw [Real.sqrt_lt' hradius0, sq] at hbelow
        rw [Real.sqrt_le_left hradius0.le, sq, Sphere.dot_along_self] at hend
        have hon := Sphere.dot_of_crossing hroots hroot
        rw [Sphere.dot_along_self] at hon
        by_contra hpast
        exact (Sphere.lt_of_past (dot_self_nonneg n d) hbelow hu0 hon (not_le.1 hpast)).not_ge hend
      · exact absurd hpos (not_lt.2 hlower)

theorem not_bddAbove_allowed (hne : ∃ i < n, d i ≠ 0) (hlen : step.length = none) :
    ¬BddAbove (Allowed p s.x d most s.bounds.upper) := by
  have hnot : ∀ v, ¬Within step.length v := by
    rintro v ⟨w, hw, -⟩
    rw [hlen] at hw
    cases hw
  have hfree : ∀ v, some v ∉ s.ratios d := fun v hv => hnot v ((bounded_eq_ok h).2.1 v hv)
  have hupper : s.bounds.upper = none := by
    by_contra hsome
    obtain ⟨upper, hupper⟩ := Option.ne_none_iff_exists'.1 hsome
    obtain ⟨i, hi, hdi⟩ := hne
    obtain ⟨u, hu, hcross⟩ := (inShell_of_inside hlower hinside).exists_crosses hupper
      fun h0 => hdi (eq_zero_of_dot_self h0 i hi)
    exact hnot u (bounded_within h hcross hu)
  have hmost : most = none := by
    by_contra hsome
    obtain ⟨most, rfl⟩ := Option.ne_none_iff_exists'.1 hsome
    exact hnot most (bounded_le h)
  rintro ⟨M, hM⟩
  have hmem : max 0 (M + 1) ∈ Allowed p s.x d most s.bounds.upper := by
    refine ⟨le_max_left .., fun v hv => ?_, ?_, fun radius hr => ?_⟩
    · rw [hmost] at hv
      cases hv
    · exact (hf.along hs hblocking (le_max_left ..) (fun row hrow => hs.dot_spanned hd hrow)
        fun v hv => absurd hv (hfree v)).rows
    · rw [hupper] at hr
      cases hr
  linarith [hM hmem, le_max_right 0 (M + 1)]

omit hlower hinside hd in
theorem blocking_isSome_iff : step.blocking.isSome ↔
    ∃ u, step.length = some u ∧ ∃ row ∈ s.rows.ignored, Meets p s.x d row u := by
  constructor
  · intro hsome
    obtain ⟨i, hi⟩ := Option.isSome_iff_exists.1 hsome
    obtain ⟨u, hlen, hratio⟩ := (bounded_eq_ok h).2.2.2 i hi
    obtain ⟨row, hrow, hmeets⟩ := (hf.ratio_iff hs hblocking).1 hratio
    exact ⟨u, hlen, row, List.mem_of_getElem? hrow, hmeets⟩
  · rintro ⟨u, hlen, row, hrow, hmeets⟩
    obtain ⟨j, hj⟩ := List.getElem?_of_mem hrow
    have hratio := (hf.ratio_iff hs hblocking).2 ⟨row, hj, hmeets⟩
    -- the tightest ratio is at most this one, and the step is no longer than it
    obtain ⟨v, hv, hvu⟩ := within_tightest (List.mem_of_getElem? hratio)
    obtain ⟨⟨_, i⟩, hlimit, rfl⟩ := Option.map_eq_some_iff.1 hv
    obtain ⟨w, hw, hwv⟩ := (bounded_eq_ok h).2.1 _ (List.mem_of_getElem? (tightest_eq_some hlimit).1)
    obtain rfl : u = w := Option.some.inj (hlen.symm.trans hw)
    rw [Option.isSome_iff_exists]
    exact ⟨i, (bounded_blocking h).2 ⟨_, hlimit, by rw [hlen, le_antisymm hwv hvu]⟩⟩

omit hlower hinside hd in
/-- Of the rows that are met at the end of a step the last one blocks it. -/
theorem blocking_last {i : ℕ} (hi : step.blocking = some i) : ∃ u, step.length = some u ∧
    (∃ row, s.rows.ignored[i]? = some row ∧ Meets p s.x d row u) ∧
      ∀ j row, i < j → s.rows.ignored[j]? = some row → ¬Meets p s.x d row u := by
  obtain ⟨u, hlimit, hlen⟩ := (bounded_blocking h).1 hi
  refine ⟨u, hlen, (hf.ratio_iff hs hblocking).1 (tightest_eq_some hlimit).1, fun j row hij hrow hmeets => ?_⟩
  exact tightest_last hlimit hij ((hf.ratio_iff hs hblocking).2 ⟨row, hrow, hmeets⟩)

end

def fenced (radius : ℝ) : Solver ℝ 1 1 := { fromZero strict (ledge (-1)) with bounds := ⟨-1, some radius⟩ }

theorem start_fenced {radius : ℝ} (hradius : 0 ≤ radius) : start (ledge (-1)) 0 ⟨0, some radius⟩ strict =
    .ok (fenced radius, (initialFactor strict (ledge (-1)).P).events) := by
  have hfeasibility := strict_feasibility_pos
  refine start_within validate_strict hfeasibility.le hfeasibility (fun upper h => ?_) ?_
  · obtain rfl := Option.some.inj h
    exact ⟨hradius, by linarith⟩
  · rw [(get_ledge (-1)).2.2.2]
    norm_num [strict, Tolerances.standard]

theorem step_fenced {radius : ℝ} (hradius : 1 < radius) :
    ∃ d : Vec ℝ 1, (fenced radius).step = .ok ⟨d, some 1, some 0⟩ := by
  have hpos : 0 < radius := one_pos.trans hradius
  obtain ⟨-, hs, -⟩ := start_eq_ok (start_fenced hpos.le)
  obtain ⟨d, hd, hstep⟩ := exists_downward (c := -1) (by norm_num) ⟨-1, some radius⟩
  have hlimit : (fenced radius).radiusLimit d = .ok (some radius) :=
    radiusLimit_center rfl rfl (by change ¬(0 : ℝ) < -1; norm_num) (by rw [dot_one, hd, mul_one]) hpos
  refine ⟨d, hstep.trans ?_⟩
  change (fenced radius).bounded d none = _
  unfold bounded
  rw [hlimit, hs.ratios_ledge rfl rfl hd]
  simp [tightest, tighter, shorter, Except.map, hradius.le]

theorem iterates_feasible (hfeas : ∀ row < m, dot n (p.A row) x₀ ≤ p.b row) (hblocking : tol.blocking = 0)
    (hstart : start p x₀ bounds tol = .ok (s, events)) (k : ℕ) (h : (s.iterates k).result = .ok ()) :
    Lockstep p tol (s.iterates k).state ∧ Feasible p (s.iterates k).state ∧ Alike s (s.iterates k).state := by
  obtain ⟨ht, hs, hx, hworking, -⟩ := start_eq_ok hstart
  have hf : Feasible p s := by
    refine ⟨by rwa [hx], ?_⟩
    rw [hworking]
    exact fun row hrow => nomatch hrow
  exact iterates_keep (q := fun t => Lockstep p tol t ∧ Feasible p t ∧ Alike s t)
    (fun _ hs h => ⟨hs.1.iterate ht h, hs.2.1.iterate hs.1 ht hblocking h, hs.2.2.iterate⟩) k ⟨hs, hf, rfl, rfl⟩ h

theorem Lockstep.exists_going (hs : Lockstep p tol s)
    (hgo : s.convex = true → tol.projectedGradient < norm s.factor.width (s.factor.project (p.gradient s.x))) :
    ∃ step, s.step = .ok step ∧ s.bounded step.direction (if s.convex then some 1 else none) = .ok step ∧
      Spanned s.factor step.direction ∧ (s.convex = false → ∃ i < n, step.direction i ≠ 0) := by
  obtain ⟨step, hstep⟩ := exists_step hs.shaped
  refine ⟨step, hstep, ?_⟩
  rcases hs.step_goes hgo hstep with ⟨hconvex, hd, hbounded⟩ | ⟨hconvex, hd, hbounded⟩
  · rw [hconvex]
    exact ⟨hbounded, newtonDirection_spanned hd, nofun⟩
  · have hsize := (convex_eq_false hconvex).1
    rw [hconvex]
    exact ⟨hbounded, rayDirection_spanned hd, fun _ => (descends_rayDirection p.P 0 hs.shaped hsize hd).nonzero⟩

/-- From a feasible start, with no lower radius bound and inside the upper one, every step that iterations reach and
that does not rest is the longest one: along the direction to a minimizer up to a length of one, along a ray without a
limit of its own. A row blocks it exactly if it is met at its end, and then it is the last such row of the list. -/
theorem longest_step_of_iterates (hfeas : ∀ row < m, dot n (p.A row) x₀ ≤ p.b row) (hblocking : tol.blocking = 0)
    (hlower : bounds.lower < tol.feasibility ∨ bounds.lower ≤ 0) (hstart : start p x₀ bounds tol = .ok (s, events))
    (k : ℕ) (h : (s.iterates k).result = .ok ()) (ht : (s.iterates k).state = t)
    (hinside : ∀ upper, bounds.upper = some upper → norm n t.x < upper)
    (hgo : t.convex = true → tol.projectedGradient < norm t.factor.width (t.factor.project (p.gradient t.x))) :
    ∃ step, t.step = .ok step ∧
      (∀ u, step.length = some u →
        IsGreatest (Allowed p t.x step.direction (if t.convex then some 1 else none) bounds.upper) u) ∧
      (step.length = none →
        ¬BddAbove (Allowed p t.x step.direction (if t.convex then some 1 else none) bounds.upper)) ∧
      (step.blocking.isSome ↔
        ∃ u, step.length = some u ∧ ∃ row ∈ t.rows.ignored, Meets p t.x step.direction row u) ∧
      ∀ i, step.blocking = some i → ∃ u, step.length = some u ∧
        (∃ row, t.rows.ignored[i]? = some row ∧ Meets p t.x step.direction row u) ∧
          ∀ j row, i < j → t.rows.ignored[j]? = some row → ¬Meets p t.x step.direction row u := by
  obtain ⟨hs, hf, halike⟩ := iterates_feasible hfeas hblocking hstart k h
  rw [ht] at hs hf halike
  have hbounds := halike.2.trans (stored_bounds hstart)
  have hupper : t.bounds.upper = bounds.upper := by rw [hbounds]
  have hlower : t.bounds.lower ≤ 0 := by
    rw [hbounds]
    dsimp only
    split_ifs with hlow
    · norm_num
    · exact hlower.resolve_left hlow
  rw [← hupper] at hinside ⊢
  obtain ⟨step, hstep, hbounded, hd, hne⟩ := hs.exists_going hgo
  refine ⟨step, hstep, fun u hlen => ⟨?_, fun a ha => ?_⟩, fun hlen => ?_,
    blocking_isSome_iff hs hf hblocking hbounded, fun i hi => blocking_last hs hf hblocking hbounded hi⟩
  · refine length_mem_allowed hs hf hblocking hlower hinside hd hbounded (fun v hv => ?_) hlen
    split_ifs at hv
    rw [← Option.some.inj hv]
    exact zero_le_one
  · exact le_length_of_allowed hs hf hblocking hlower hinside hbounded hlen ha
  · refine not_bddAbove_allowed hs hf hblocking hlower hinside hd hbounded (hne ?_) hlen
    obtain ⟨hconvex, -⟩ := step_endless hstep hlen
    exact hconvex

theorem longest_step_of_iterates_fenced : ∃ s events d, start (ledge (-1)) 0 ⟨0, some 2⟩ strict = .ok (s, events) ∧
    s.step = .ok ⟨d, some 1, some 0⟩ ∧ IsGreatest (Allowed (ledge (-1)) s.x d none (some 2)) 1 ∧
      Meets (ledge (-1)) s.x d 0 1 := by
  have hstart := start_fenced (zero_le_two (α := ℝ))
  obtain ⟨d, hd⟩ := step_fenced (one_lt_two (α := ℝ))
  obtain ⟨hsize, hlast⟩ := last_ledge (c := -1) (by rw [abs_neg, abs_one])
  have hconvex : (fenced 2).convex = false := by
    have hsize : (fenced 2).factor.size = 1 := hsize
    have hlast : (fenced 2).factor.d 0 = -1 := hlast
    refine convex_of_lt (by omega) ?_
    change (fenced 2).factor.d ((fenced 2).factor.size - 1) < strict.indefinite
    rw [hsize, hlast]
    norm_num [strict, Tolerances.standard]
  have hinside : ∀ upper : ℝ, some 2 = some upper → norm 1 (fenced 2).x < upper := by
    intro upper hupper
    obtain rfl := Option.some.inj hupper
    have hzero : norm 1 (fenced 2).x = 0 := by
      change norm 1 (0 : Vec ℝ 1) = 0
      rw [norm_eq, dot_one, Vec.get_zero, mul_zero, Real.sqrt_zero]
    rw [hzero]
    exact zero_lt_two
  obtain ⟨step, hstep, hgreatest, -, -, hblock⟩ := longest_step_of_iterates (t := fenced 2) (feasible_ledge (-1)) rfl
    (Or.inr le_rfl) hstart 0 rfl rfl hinside fun h => absurd (hconvex.symm.trans h) Bool.false_ne_true
  obtain rfl : step = ⟨d, some 1, some 0⟩ := Except.ok.inj (hstep.symm.trans hd)
  rw [hconvex] at hgreatest
  obtain ⟨u, hu, ⟨row, hrow, hmeets⟩, -⟩ := hblock 0 rfl
  obtain rfl : 1 = u := Option.some.inj hu
  obtain rfl : 0 = row := Option.some.inj hrow
  exact ⟨_, _, d, hstart, hd, hgreatest 1 rfl, hmeets⟩

end Solver

end
end ActiveSet
