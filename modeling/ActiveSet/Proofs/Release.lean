import ActiveSet.Proofs.Rise

/-! What a check leads to. It is made at rest, at a minimum over the free directions or where there are none, so it
finds the gradient small along them, and it decides: the solve is done, or the working row with the least multiplier
is released. Where the gradient vanishes along the free directions it is a combination of the working rows, and a
direction that leaves all of them but the released one alone goes down just where it goes away from that one. Some
free direction does, as the working rows are independent; so the gradient no longer vanishes along the free ones, and
whether the next direction leads to a minimum or is a ray, it goes down. -/

namespace ActiveSet

noncomputable section
open Exact

variable {m n : ℕ}

namespace Solver

variable {p : Problem ℝ m n} {tol : Tolerances ℝ} {s r t : Solver ℝ m n} {x₀ : Vec ℝ n} {bounds : RadiusBounds ℝ}
  {events : List (Event ℝ)} {flat : ℝ} {row : ℕ}

theorem leastAt_le {k i : ℕ} (f : ℕ → ℝ) (hi : i < k) : f (leastAt k f) ≤ f i := by
  unfold leastAt
  refine ascend_keeps (p := fun j best => ∀ l < j, f best ≤ f l) (fun l hl => absurd hl (Nat.not_lt_zero l)) k
    (fun j best _ hbest l hl => ?_) i hi
  have hl : l < j ∨ l = j := by omega
  split_ifs with hless
  · have hless : f j < f best := by simpa using hless
    rcases hl with hl | rfl
    · exact hless.le.trans (hbest l hl)
    · exact le_rfl
  · have hless : f best ≤ f j := by simpa using hless
    rcases hl with hl | rfl
    · exact hbest l hl
    · exact hless

def Releases (s : Solver ℝ m n) (row : ℕ) : Prop := ∃ step u, s.step = .ok step ∧ step.length = some u ∧
  row ∈ (s.taken step u).state.rows.working ∧ row ∉ s.iterate.state.rows.working

/-- `t` is `r` without `row` among the working rows: the point is the same, and past the directions that were free there
is one more. -/
structure Loosened (r t : Solver ℝ m n) (row : ℕ) : Prop where
  x : t.x = r.x
  working : ∀ other ∈ r.rows.working, other ≠ row → other ∈ t.rows.working
  size : t.factor.size = r.factor.size + 1
  kept : ∀ j < r.factor.size, ∀ i < n,
    ReducedFactor.reversed t.factor.basis.q j i = ReducedFactor.reversed r.factor.basis.q j i

theorem Lockstep.loosened (hs : Lockstep p tol r) (ht : tol.Accepted) {i : ℕ} (hcheck : r.check.result = .ok (some i))
    (h : (r.check.state.remove i).result = .ok ()) (hrow : row ∈ r.rows.working)
    (hgone : row ∉ (r.check.state.remove i).state.rows.working) :
    r.rows.working[i]? = some row ∧ Loosened r (r.check.state.remove i).state row := by
  obtain ⟨multipliers, residual, done, hchecked⟩ := check_state (s := r)
  obtain ⟨hfactor, rows, -, -, -, hworking, hstate⟩ := remove_eq_ok hs.check.sound h
  rw [hstate] at hgone ⊢
  rw [hchecked] at hfactor hworking hgone ⊢
  have hgone : row ∉ rows.working := hgone
  have hind : 0 ≤ r.rule.indefinite := by
    rw [hs.rule_eq]
    exact ht.indefinite
  obtain ⟨G, hG, -, w, -, hgrown⟩ := hs.shaped.remove_eq_grown hind hfactor
  have hlast : ∀ j, r.rows.working[j]? = some row → j = i := fun j hj => by
    by_contra hne
    rw [hworking] at hgone
    exact hgone (List.mem_eraseIdx_iff_getElem?.2 ⟨j, hne, hj⟩)
  obtain ⟨j, hj⟩ := List.getElem?_of_mem hrow
  obtain rfl := hlast j hj
  refine ⟨hj, rfl, fun other hother hne => ?_, ?_, fun l hl k hk => ?_⟩
  · obtain ⟨l, hl⟩ := List.getElem?_of_mem hother
    change other ∈ rows.working
    rw [hworking]
    refine List.mem_eraseIdx_iff_getElem?.2 ⟨l, fun heq => hne ?_, hl⟩
    rw [heq] at hl
    exact Option.some.inj (hl.symm.trans hj)
  · exact (congrArg ReducedFactor.size hgrown).trans (congrArg (· + 1) hG.size)
  · exact (congrArg (fun F : ReducedFactor ℝ n => ReducedFactor.reversed F.basis.q l k) hgrown).trans
      (hG.kept l hl k hk)

theorem Checks.ranked (h : Checks s r) (hs : Ranked p tol s) : Ranked p tol r ∧ r.factor.artificial = 0 := by
  obtain ⟨⟨step, u, hstep, -, -, rfl, -⟩, hart⟩ := h
  exact ⟨hs.taken hstep u, hart⟩

theorem Checks.iterate_cases (h : Checks s r) (hok : s.iterate.result = .ok ()) : ∃ q,
    s.iterate.state = { q with iteration := q.iteration + 1 } ∧ ((r.check.result = .ok none ∧ q = r.check.state) ∨
      ∃ i : ℕ, r.check.result = .ok (some i) ∧ (r.check.state.remove i).result = .ok () ∧
        q = (r.check.state.remove i).state) := by
  obtain ⟨⟨step, u, hstep, hlen, -, rfl, hsettles⟩, hart⟩ := h
  obtain ⟨step', hstep', hcases⟩ := Solver.iterate_cases hok
  obtain rfl : step = step' := Except.ok.inj (hstep.symm.trans hstep')
  rcases hcases with ⟨hlen', -⟩ | ⟨u', hlen', -, q, hq, hstate⟩
  · rw [hlen] at hlen'
    cases hlen'
  obtain rfl : u = u' := Option.some.inj (hlen.symm.trans hlen')
  rcases hq with ⟨hnot, -⟩ | ⟨-, hsettle, rfl⟩
  · exact absurd hsettles hnot
  rcases settle_cases hsettle with ⟨hpos, -⟩ | ⟨-, hcheck⟩
  · omega
  · exact ⟨_, hstate, hcheck⟩

/-- Only a check releases a row. -/
theorem Releases.checks (h : Releases s row) (hok : s.iterate.result = .ok ()) :
    ∃ r, Checks s r ∧ row ∈ r.rows.working ∧ row ∉ s.iterate.state.rows.working := by
  obtain ⟨step, u, hstep, hlen, hin, hout⟩ := h
  obtain ⟨step', hstep', hcases⟩ := iterate_cases hok
  obtain rfl : step = step' := Except.ok.inj (hstep.symm.trans hstep')
  rcases hcases with ⟨hlen', -⟩ | ⟨u', hlen', htaken, q, hq, hstate⟩
  · rw [hlen] at hlen'
    cases hlen'
  obtain rfl : u = u' := Option.some.inj (hlen.symm.trans hlen')
  rcases hq with ⟨-, rfl⟩ | ⟨hsettles, hsettle, rfl⟩
  · rw [hstate] at hout
    exact absurd hin hout
  rcases settle_cases hsettle with ⟨-, -, hsettled⟩ | ⟨hart, -⟩
  · rw [hstate, hsettled] at hout
    exact absurd hin hout
  · exact ⟨_, ⟨⟨step, u, hstep, hlen, htaken, rfl, hsettles⟩, hart⟩, hin, hout⟩

theorem Ranked.exists_loosened (hs : Ranked p tol s) (hok : s.iterate.result = .ok ()) (h : Releases s row) :
    ∃ r i, Checks s r ∧ r.check.result = .ok (some i) ∧ r.rows.working[i]? = some row ∧
      Loosened r s.iterate.state row := by
  obtain ⟨r, hr, hin, hout⟩ := h.checks hok
  obtain ⟨q, hstate, ⟨-, rfl⟩ | ⟨i, hcheck, hremove, rfl⟩⟩ := hr.iterate_cases hok
  · obtain ⟨multipliers, residual, done, hchecked⟩ := check_state (s := r)
    rw [hstate, hchecked] at hout
    exact absurd hin hout
  · rw [hstate] at hout ⊢
    obtain ⟨hi, hx, hworking, hsize, hkept⟩ :=
      (hr.ranked hs).1.lockstep.loosened hs.accepted hcheck hremove hin hout
    exact ⟨r, i, hr, hcheck, hi, hx, hworking, hsize, hkept⟩

/-- A direction that leaves the other rows alone sees of the gradient what it sees of this one. -/
theorem Lockstep.dot_gradient_of_row (hs : Lockstep p tol r) (hart : r.factor.artificial = 0)
    (hzero : norm r.factor.width (r.factor.project r.gradient) = 0) {lam : Vec ℝ r.factor.basis.size}
    {multipliers : Vec ℝ m} (hlam : r.columnMultipliers = .ok lam)
    (hspread : spread r.rows.working r.factor.basis.size lam = .ok multipliers) (hrow : row < m) {v : ℕ → ℝ}
    (hv : ∀ other ∈ r.rows.working, other ≠ row → dot n (p.A other) v = 0) :
    dot n v (p.gradient r.x) = -(dot n (p.A row) v * multipliers row) := by
  rw [hs.dot_gradient_eq hart hzero hlam hspread, dot_single hrow]
  intro other _ hne
  by_cases hin : other ∈ r.rows.working
  · rw [hv other hin hne, zero_mul]
  · rw [spread_of_not_mem hspread hin, mul_zero]

theorem Lockstep.dot_reversed (hs : Lockstep p tol s) (hrow : row ∈ s.rows.working) {j : ℕ} (hj : j < s.factor.size) :
    dot n (p.A row) (ReducedFactor.reversed s.factor.basis.q j) = 0 := by
  have hcount := hs.shaped.count
  rw [dot_comm]
  exact hs.dot_free (t := n - 1 - j) (by omega) (by omega) hrow

/-- The new free direction leaves the released row: else it would be one of those that were free before. -/
theorem Loosened.dot_row_ne (h : Loosened r t row) (hr : Ranked p tol r) (hart : r.factor.artificial = 0)
    (ht : Lockstep p tol t) : dot n (p.A row) (ReducedFactor.reversed t.factor.basis.q r.factor.size) ≠ 0 := by
  intro hzero
  have hsize := h.size
  have hcount := ht.shaped.count
  obtain ⟨W, hW⟩ := ht.shaped.factors
  set z := ReducedFactor.reversed t.factor.basis.q r.factor.size
  have hnull : ∀ other ∈ r.rows.working, dot n (p.A other) z = 0 := by
    intro other hother
    by_cases hne : other = row
    · rwa [hne]
    · exact ht.dot_reversed (h.working other hother hne) (by omega)
  have hcross : ∀ j < r.factor.size, dot n (ReducedFactor.reversed r.factor.basis.q j) z = 0 := by
    intro j hj
    rw [← dot_congr (h.kept j hj) fun _ _ => rfl]
    exact (hW.orthogonal (n - 1 - j) (by omega) (n - 1 - r.factor.size) (by omega)).trans (if_neg (by omega))
  have hvanishes : ∀ i < n, z i = 0 := fun i hi => by
    rw [hr.eq_combination hart hnull hi]
    exact dot_eq_zero fun j hj => by rw [hcross j hj, mul_zero]
  have hself : dot n z z = 1 :=
    (hW.orthogonal (n - 1 - r.factor.size) (by omega) (n - 1 - r.factor.size) (by omega)).trans (if_pos rfl)
  rw [dot_eq_zero fun i hi => by rw [hvanishes i hi, zero_mul]] at hself
  exact zero_ne_one hself

/-- A ray goes along the last free direction, and what it sees of a gradient that vanishes along the others it sees
there. -/
theorem dot_rayDirection_ne {F : ReducedFactor ℝ n} {g d : Vec ℝ n} (hF : F.Shaped) {k : ℕ} (hk : F.size = k + 1)
    (hold : ∀ j < k, dot n (ReducedFactor.reversed F.basis.q j) g = 0)
    (hnew : dot n (ReducedFactor.reversed F.basis.q k) g ≠ 0) (h : rayDirection F g = .ok d) : dot n d g ≠ 0 := by
  obtain ⟨c, w, hc, hd, hw, -⟩ := rayDirection_eq_ok h
  obtain ⟨⟨-, hne⟩, hback⟩ := Triangular.solve_eq_ok.1 hw
  have hlast : F.u k k * w k = 1 := by
    have hsolve : dot F.size (F.u k) w = 1 := by
      rw [hback, Triangular.backward_solves hF.isUpper hne (by omega), if_pos (by omega)]
    rw [← hsolve, dot_single (i := k) (by omega) fun j hj hjk => ?_]
    rw [hF.upper k j (by omega), zero_mul]
  have hexpand : dot n (F.expand w) g = dot n (ReducedFactor.reversed F.basis.q k) g * w k := by
    rw [dot_congr (fun i hi => hF.get_expand w hi) fun _ _ => rfl, dot_comm, dot_transpose,
      dot_single (i := k) (by omega) fun j hj hjk => ?_]
    rw [hold j (by omega), zero_mul]
  rw [dot_congr hd fun _ _ => rfl, dot_comm, dot_mul_right, dot_comm, hexpand]
  exact mul_ne_zero (left_ne_zero_of_mul_eq_one hc) (mul_ne_zero hnew (right_ne_zero_of_mul_eq_one hlast))

/-- With the last free direction the only one that sees the gradient, the next step goes down. -/
theorem Lockstep.dot_step_neg (hs : Lockstep p tol t) (hC : t.factor.Curved p.P flat) (hind : 0 < tol.indefinite)
    (hgradient : tol.projectedGradient = 0) {k : ℕ} (hk : t.factor.size = k + 1)
    (hold : ∀ j < k, dot n (ReducedFactor.reversed t.factor.basis.q j) (p.gradient t.x) = 0)
    (hnew : dot n (ReducedFactor.reversed t.factor.basis.q k) (p.gradient t.x) ≠ 0) {step : Step ℝ n}
    (h : t.step = .ok step) : dot n (p.gradient t.x) step.direction < 0 := by
  have hnorm : 0 < norm t.factor.width (t.factor.project t.gradient) := by
    rw [norm_eq]
    refine Real.sqrt_pos.2 (lt_of_le_of_ne (dot_self_nonneg ..) fun h0 => hnew ?_)
    have hzero := eq_zero_of_dot_self h0.symm 0 (by rw [hs.shaped.width_eq]; omega)
    rwa [hs.gradient_eq, hs.shaped.project_eq _ (by omega), show t.factor.size - 1 - 0 = k by omega] at hzero
  have hgo : tol.projectedGradient < norm t.factor.width (t.factor.project (p.gradient t.x)) := by
    rwa [hgradient, ← hs.gradient_eq]
  rcases hs.step_goes (fun _ => hgo) h with ⟨hconvex, hd, -⟩ | ⟨-, hd, -⟩
  · have hpos := hs.positive_of_convex hind hconvex
    have hnewton := newton_projected hs.shaped hC hpos hd
    rw [hs.gradient_eq] at hnewton
    exact hnewton.dot_neg hs.shaped hC hpos (hnewton.nonzero hs hnorm)
  · obtain ⟨-, -, -, -, -, hslope⟩ := rayDirection_eq_ok hd
    rw [dot_comm]
    exact lt_of_le_of_ne hslope (dot_rayDirection_ne hs.shaped hk hold hnew hd)

theorem Loosened.descends (h : Loosened r t row) (hr : Ranked p tol r) (hart : r.factor.artificial = 0)
    (hzero : norm r.factor.width (r.factor.project r.gradient) = 0) {i : ℕ} (hcheck : r.check.result = .ok (some i))
    (hi : r.rows.working[i]? = some row) (ht : Lockstep p tol t) (hC : t.factor.Curved p.P flat)
    (hind : 0 < tol.indefinite) (hgradient : tol.projectedGradient = 0) {step : Step ℝ n} (hstep : t.step = .ok step) :
    dot n (p.A row) step.direction < 0 ∧ dot n (p.gradient t.x) step.direction < 0 := by
  have hlock := hr.lockstep
  have hmem := List.mem_of_getElem? hi
  have hrow : row < m := (hlock.mem_iff row).1 (Or.inl hmem)
  -- the multiplier of the row is negative
  obtain ⟨lam, multipliers, done, hlam, hspread, -, ⟨-, hfound, -⟩ | ⟨-, -, hfound, -⟩ | ⟨-, hnot, hfound, -⟩⟩ :=
    check_cases hcheck
  · cases hfound
  · cases hfound
  have hnegative : multipliers row < 0 := by
    push Not at hnot
    obtain ⟨j, hj, hless⟩ := hnot
    rw [hlock.tolerances] at hless
    rw [spread_of_getElem hspread hlock.length_working hlock.sound.nodup.of_append_left hi hrow,
      Option.some.inj hfound]
    have hmultiplier := hr.accepted.multiplier
    have hleast := leastAt_le lam hj
    linarith
  have hslope : ∀ v : ℕ → ℝ, (∀ other ∈ r.rows.working, other ≠ row → dot n (p.A other) v = 0) →
      dot n v (p.gradient t.x) = -(dot n (p.A row) v * multipliers row) := fun v hv => by
    rw [h.x]
    exact hlock.dot_gradient_of_row hart hzero hlam hspread hrow hv
  have hsize := h.size
  have hold : ∀ j < r.factor.size, dot n (ReducedFactor.reversed t.factor.basis.q j) (p.gradient t.x) = 0 := by
    intro j hj
    rw [h.x, dot_congr (h.kept j hj) fun _ _ => rfl]
    exact hr.dot_gradient hart hzero fun other hother => hlock.dot_reversed hother hj
  have hnew : dot n (ReducedFactor.reversed t.factor.basis.q r.factor.size) (p.gradient t.x) ≠ 0 := by
    rw [hslope _ fun other hother hne => ht.dot_reversed (h.working other hother hne) (by omega)]
    exact neg_ne_zero.2 (mul_ne_zero (h.dot_row_ne hr hart ht) hnegative.ne)
  have hdown := ht.dot_step_neg hC hind hgradient hsize hold hnew hstep
  refine ⟨?_, hdown⟩
  rw [dot_comm, hslope _ fun other hother hne => ht.dot_step hstep (h.working other hother hne)] at hdown
  by_contra hup
  linarith [mul_nonpos_of_nonneg_of_nonpos (not_lt.1 hup) hnegative.le]

theorem Lockstep.blocking_ne (hs : Lockstep p tol t) (ht : tol.Accepted) {step : Step ℝ n} (hstep : t.step = .ok step)
    (haway : dot n (p.A row) step.direction < 0) {i : ℕ} (hblock : step.blocking = some i) :
    t.rows.ignored[i]? ≠ some row := by
  intro hi
  rcases step_cases hstep with rfl | ⟨d, most, -, -, hbounded⟩
  · cases hblock
  · obtain ⟨rfl, -, -, hlimit⟩ := bounded_eq_ok hbounded
    obtain ⟨v, -, hratio⟩ := hlimit i hblock
    obtain ⟨other, hother, hrate, -⟩ := hs.ratio_iff.1 hratio
    obtain rfl : row = other := Option.some.inj (hi.symm.trans hother)
    linarith [ht.blocking]

theorem Ranked.check_decides (hr : Ranked p tol r)
    (hsmall : norm r.factor.width (r.factor.project r.gradient) ≤ tol.projectedGradient) :
    ∃ found residual, r.check.result = .ok found ∧ r.check.state.residual = some residual ∧
      residual ≤ tol.projectedGradient ∧ ((found = none ∧ r.check.state.done = true) ∨
        ∃ i row, found = some i ∧ r.rows.working[i]? = some row ∧ r.check.state.done = false) := by
  obtain ⟨found, hfound⟩ := hr.lockstep.exists_check hr.nonsingular
  obtain ⟨lam, multipliers, done, -, -, hstate, hdecided⟩ := check_cases hfound
  refine ⟨found, _, hfound, by rw [hstate], hsmall, ?_⟩
  rw [hr.lockstep.tolerances] at hdecided
  rw [hstate]
  rcases hdecided with ⟨hlarge, -⟩ | ⟨-, -, hnone, hdone⟩ | ⟨-, -, rfl, hdone⟩
  · exact absurd hlarge (not_lt.2 hsmall)
  · exact Or.inl ⟨hnone, hdone⟩
  · have hlt := (check_eq_some hfound).trans_eq hr.lockstep.length_working.symm
    exact Or.inr ⟨_, _, rfl, List.getElem?_eq_getElem hlt, hdone⟩

theorem iterate_valley : ∃ r, Checks (fromZero coarse valley) r ∧ r.check.result = .ok (some 0) ∧
    (fromZero coarse valley).iterate.result = .ok () ∧ Releases (fromZero coarse valley) 0 := by
  have hs := ranked_start start_valley
  obtain ⟨d, hd, hstep⟩ := step_valley
  obtain ⟨htaken, rows, factor, hstate, hworking, hsize, hart, hsettles⟩ :=
    hs.taken_single (by norm_num [coarse, strict, Tolerances.standard]) hstep
  have hr : Ranked valley coarse ((fromZero coarse valley).taken ⟨d, some 3, some 0⟩ 3).state := hs.taken hstep 3
  rw [hstate] at hr hsettles
  set r : Solver ℝ 1 1 := { fromZero coarse valley with x := (fromZero coarse valley).x.along 3 d, rows, factor }
  have hchecks : Checks (fromZero coarse valley) r := ⟨⟨_, 3, hstep, rfl, htaken, hstate.symm, hsettles⟩, hart⟩
  have hx : r.x 0 = 3 := by
    change (0 : Vec ℝ 1).along 3 d 0 = 3
    rw [Vec.get_along _ _ _ one_pos, Vec.get_zero, hd]
    norm_num
  have hbasis : r.factor.basis.size = 1 := by
    rw [← hr.lockstep.length_working]
    exact congrArg List.length hworking
  -- the multiplier of the row is `-2`
  have hcheck : r.check.result = .ok (some 0) := by
    obtain ⟨found, hfound⟩ := hr.lockstep.exists_check hr.nonsingular
    obtain ⟨lam, multipliers, done, hlam, -, -, ⟨hlarge, -⟩ | ⟨-, hall, -⟩ | ⟨-, -, rfl, -⟩⟩ := check_cases hfound
    · rw [hr.lockstep.norm_project fun j hj => absurd hj (by rw [hsize]; omega)] at hlarge
      exact absurd hlarge (lt_irrefl 0)
    · have hle : -coarse.multiplier ≤ lam 0 := hall 0 (by omega)
      have hlast := hr.lockstep.multiplier_line hworking hlam
      rw [hx] at hlast
      norm_num [coarse, strict] at hle hlast
      linarith
    · have hlt := leastAt_lt (by omega : 0 < r.factor.basis.size) lam
      rw [hfound, show leastAt r.factor.basis.size lam = 0 by omega]
  have hok : (fromZero coarse valley).iterate.result = .ok () := by
    rcases hs.iterate_or with hok | ⟨step, u, hstep', hlen, -, hrefused⟩
    · exact hok
    · obtain rfl := Except.ok.inj (hstep.symm.trans hstep')
      obtain rfl := Option.some.inj hlen
      rw [hstate] at hrefused
      exact absurd hsize hrefused.size.ne'
  refine ⟨r, hchecks, hcheck, hok, ⟨_, 3, hstep, rfl, ?_, ?_⟩⟩
  · rw [hstate]
    exact hworking ▸ List.mem_singleton_self 0
  · obtain ⟨q, hiterated, ⟨hnone, -⟩ | ⟨i, hi, hremove, rfl⟩⟩ := hchecks.iterate_cases hok
    · cases hcheck.symm.trans hnone
    · obtain rfl := Option.some.inj (Except.ok.inj (hcheck.symm.trans hi))
      obtain ⟨-, rows', -, -, -, hleft, hremoved⟩ := remove_eq_ok hr.lockstep.check.sound hremove
      obtain ⟨multipliers, residual, done, hchecked⟩ := check_state (s := r)
      have hnone : rows'.working = [] := by
        rw [hleft, hchecked]
        exact congrArg (List.eraseIdx · 0) hworking
      rw [hiterated, hremoved]
      change 0 ∉ rows'.working
      rw [hnone]
      exact List.not_mem_nil

/-- Inside the radius bounds by a margin, every check that an iteration makes goes through and finds the gradient along
the free directions small, so it ends the solve or asks for a working row. If small means zero, then after an iteration
that releases a row the next direction goes down and away from that row, which does not stop the step. -/
theorem checks_make_progress (hP : p.P.Symmetric) (hind : 0 < tol.indefinite)
    (hsq : tol.indefinite * tol.indefinite ≤ tol.relativeCurvature * p.P.scale) (hmargin : 0 < tol.radiusMargin)
    (hstart : start p x₀ bounds tol = .ok (s, events)) (k : ℕ) (h : (s.iterates k).result = .ok ())
    (ht : (s.iterates k).state = t) :
    (∀ r, Checks t r → ∃ found residual, r.check.result = .ok found ∧ r.check.state.residual = some residual ∧
      residual ≤ tol.projectedGradient ∧ ((found = none ∧ r.check.state.done = true) ∨
        ∃ i row, found = some i ∧ r.rows.working[i]? = some row ∧ r.check.state.done = false)) ∧
    (tol.projectedGradient = 0 → t.iterate.result = .ok () → ∀ row, Releases t row →
      ∃ step, t.iterate.state.step = .ok step ∧ dot n (p.A row) step.direction < 0 ∧
        dot n (p.gradient t.iterate.state.x) step.direction < 0 ∧
        ∀ i, step.blocking = some i → t.iterate.state.rows.ignored[i]? ≠ some row) := by
  obtain ⟨hs, hC, -⟩ := iterates_curved hP hsq hstart k h
  have hranked := iterates_keep (fun _ hs h => Ranked.iterate hs h) k (ranked_start hstart) h
  subst ht
  set t := (s.iterates k).state
  have hsmall : ∀ r, Checks t r → norm r.factor.width (r.factor.project r.gradient) ≤ tol.projectedGradient :=
    fun r hr => hs.norm_le_at_check hranked.accepted hC (hs.positive_of_convex hind) hmargin hr
  refine ⟨fun r hr => (hr.ranked hranked).1.check_decides (hsmall r hr), fun hgradient hok row hrow => ?_⟩
  obtain ⟨r, i, hr, hcheck, hi, hloose⟩ := hranked.exists_loosened hok hrow
  obtain ⟨hrankedr, hart⟩ := hr.ranked hranked
  have hzero : norm r.factor.width (r.factor.project r.gradient) = 0 := by
    refine le_antisymm ((hsmall r hr).trans_eq hgradient) ?_
    rw [norm_eq]
    exact Real.sqrt_nonneg _
  -- the state after the release is reached by one iteration more
  obtain ⟨hresult, hstate⟩ := Outcome.andThen_of_ok (f := fun s _ => s.iterate) h
  rw [← iterates_succ] at hresult hstate
  obtain ⟨hnext, hCnext, -⟩ := iterates_curved hP hsq hstart (k + 1) (hresult.trans hok)
  rw [hstate] at hnext hCnext
  obtain ⟨step, hstep⟩ := exists_step hnext.shaped
  obtain ⟨haway, hdown⟩ :=
    hloose.descends hrankedr hart hzero hcheck hi hnext hCnext hind hgradient hstep
  exact ⟨step, hstep, haway, hdown, fun i hblock => hnext.blocking_ne hranked.accepted hstep haway hblock⟩

theorem checks_make_progress_valley : ∃ s events r step, start valley 0 ⟨0, none⟩ coarse = .ok (s, events) ∧
    Checks s r ∧ r.check.result = .ok (some 0) ∧ s.iterate.result = .ok () ∧ Releases s 0 ∧
      s.iterate.state.step = .ok step ∧ dot 1 (valley.A 0) step.direction < 0 := by
  obtain ⟨r, hr, hcheck, hok, hreleases⟩ := iterate_valley
  have hscale : valley.P.scale = 1 := by rw [valley, scale_line, abs_one]
  obtain ⟨-, hnext⟩ := checks_make_progress (p := valley) (t := fromZero coarse valley) (symmetric_line 1 (-1) 1 3)
    (by norm_num [coarse, strict, Tolerances.standard])
    (by rw [hscale]; norm_num [coarse, strict, Tolerances.standard])
    (by norm_num [coarse, strict, Tolerances.standard]) start_valley 0 rfl rfl
  obtain ⟨step, hstep, haway, -⟩ := hnext rfl hok 0 hreleases
  exact ⟨_, _, r, step, start_valley, hr, hcheck, hok, hreleases, hstep, haway⟩

end Solver

end
end ActiveSet
