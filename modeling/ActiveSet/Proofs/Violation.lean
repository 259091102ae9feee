import Mathlib.Data.Nat.Count
import ActiveSet.Proofs.Crossings
import ActiveSet.Proofs.Unbounded

/-! How far a solve leaves its rows behind. A row stops a step only if it is approached faster than the threshold, so a
slower approach goes on for the whole length of the step and adds at most the threshold times that length. A row that is
violated already stops a step at the distance by which it is missed, on its far side, so such a step may leave it twice
as far behind; nothing else adds to the violation of the start. -/

namespace ActiveSet

noncomputable section
open Exact

variable {m n : ℕ}

namespace Problem

variable {p : Problem ℝ m n} {x : Vec ℝ n}

theorem infeasibility_nonneg (p : Problem ℝ m n) (x : Vec ℝ n) : 0 ≤ p.infeasibility x := by
  unfold infeasibility
  split_ifs
  · exact le_rfl
  · rw [larger_eq]
    exact le_max_right ..

theorem excess_le_infeasibility {row : ℕ} (hrow : row < m) : p.excess x row ≤ p.infeasibility x := by
  unfold infeasibility
  rw [if_neg (by omega), larger_eq]
  exact (le_maximum (m - 1) (p.excess x) row (by omega)).trans (le_max_left ..)

theorem infeasibility_le {c : ℝ} (hc : 0 ≤ c) (h : ∀ row < m, p.excess x row ≤ c) : p.infeasibility x ≤ c := by
  unfold infeasibility
  split_ifs with hm
  · exact hc
  · rw [larger_eq]
    exact max_le (maximum_le fun row hrow => h row (by omega)) hc

theorem excess_along (p : Problem ℝ m n) (x d : Vec ℝ n) (t : ℝ) (row : ℕ) :
    p.excess (x.along t d) row = p.excess x row + t * dot n (p.A row) d := by
  unfold excess
  rw [Solver.dot_along]
  ring

end Problem

namespace Solver

variable {p : Problem ℝ m n} {tol : Tolerances ℝ} {s : Solver ℝ m n} {step : Step ℝ n} {t : ℝ} {x₀ : Vec ℝ n}
  {bounds : RadiusBounds ℝ} {events : List (Event ℝ)}

/-- The next step goes on towards a row that is violated, and fast enough for the row to stop it. -/
def Presses (s : Solver ℝ m n) : Prop := ∃ step t row, s.step = .ok step ∧ step.length = some t ∧ 0 < t ∧ row < m ∧
  0 < s.problem.excess s.x row ∧ s.tolerances.blocking < dot n (s.problem.A row) step.direction

open Classical in
def pressings (s : Solver ℝ m n) (k : ℕ) : ℕ := Nat.count (fun j => (s.iterates j).state.Presses) k

open Classical in
theorem pressings_zero (s : Solver ℝ m n) : s.pressings 0 = 0 := Nat.count_zero _

open Classical in
theorem pressings_succ (s : Solver ℝ m n) (k : ℕ) :
    s.pressings (k + 1) = s.pressings k + if (s.iterates k).state.Presses then 1 else 0 :=
  Nat.count_succ ..

/-- The direction approaches a row, but too slowly for the row to stop it. -/
def Creeps (s : Solver ℝ m n) (d : Vec ℝ n) : Prop :=
  ∃ row < m, 0 < dot n (s.problem.A row) d ∧ dot n (s.problem.A row) d ≤ s.tolerances.blocking

open Classical in
def creep (s : Solver ℝ m n) : ℝ :=
  match s.step with
  | .ok ⟨d, some t, _⟩ => if s.Creeps d then t else 0
  | _ => 0

theorem creep_of_creeps (hstep : s.step = .ok step) (hlen : step.length = some t) (h : s.Creeps step.direction) :
    s.creep = t := by
  obtain ⟨d, length, blocking⟩ := step
  obtain rfl : length = some t := hlen
  unfold creep
  rw [hstep]
  exact if_pos h

theorem Lockstep.creep_nonneg (hs : Lockstep p tol s) (hblocking : 0 ≤ tol.blocking) : 0 ≤ s.creep := by
  unfold creep
  split
  next d t blocking hstep =>
    split_ifs
    · exact hs.length_nonneg hblocking hstep rfl
    · exact le_rfl
  next => exact le_rfl

/-- A row that stops a step is passed by no more than it was missed by. -/
theorem Lockstep.excess_le_of_stopped (hs : Lockstep p tol s) (hblocking : 0 ≤ tol.blocking) {row : ℕ}
    (hrow : row ∈ s.rows.ignored) {d : Vec ℝ n} (hrate : tol.blocking < dot n (p.A row) d)
    (hlimit : ∀ v, some v ∈ s.ratios d → t ≤ v) :
    p.excess (s.x.along t d) row ≤ |p.excess s.x row| + p.excess s.x row := by
  obtain ⟨j, hj⟩ := List.getElem?_of_mem hrow
  have hratio := hs.getElem?_ratios (d := d) hj
  rw [if_pos hrate] at hratio
  have hle := hlimit _ (List.mem_of_getElem? hratio)
  rw [le_div_iff₀ (hblocking.trans_lt hrate), abs_sub_comm] at hle
  rw [Problem.excess_along]
  unfold Problem.excess
  linarith

theorem Lockstep.excess_le (hs : Lockstep p tol s) (hblocking : 0 ≤ tol.blocking) (hstep : s.step = .ok step)
    (hlen : step.length = some t) {row : ℕ} (hrow : row < m) :
    p.excess (s.x.along t step.direction) row ≤ p.infeasibility s.x + tol.blocking * s.creep ∨
      (s.Presses ∧ p.excess (s.x.along t step.direction) row ≤ 2 * p.infeasibility s.x) := by
  have ht := hs.length_nonneg hblocking hstep hlen
  have hcreep := mul_nonneg hblocking (hs.creep_nonneg hblocking)
  have hstays := p.excess_le_infeasibility (x := s.x) hrow
  -- a row that is not approached, or not for any length, is not violated any further
  have hlevel : t * dot n (p.A row) step.direction ≤ 0 →
      p.excess (s.x.along t step.direction) row ≤ p.infeasibility s.x + tol.blocking * s.creep := fun h => by
    rw [Problem.excess_along]
    linarith
  rcases step_cases hstep with rfl | ⟨d, most, hd, -, hbounded⟩
  · obtain rfl := Option.some.inj hlen
    exact Or.inl (hlevel (by rw [zero_mul]))
  obtain ⟨rfl, hlimit, -, -⟩ := bounded_eq_ok hbounded
  rcases (hs.mem_iff row).2 hrow with hworking | hignored
  · exact Or.inl (hlevel (by rw [hs.dot_spanned hd hworking, mul_zero]))
  rcases le_or_gt (dot n (p.A row) step.direction) 0 with hrate | hrate
  · exact Or.inl (hlevel (mul_nonpos_of_nonneg_of_nonpos ht hrate))
  rcases le_or_gt (dot n (p.A row) step.direction) tol.blocking with hslow | hfast
  · have hcreeps : s.Creeps step.direction := by
      refine ⟨row, hrow, ?_, ?_⟩
      · rwa [hs.problem]
      · rwa [hs.problem, hs.tolerances]
    rw [creep_of_creeps hstep hlen hcreeps, Problem.excess_along]
    have hadded := mul_le_mul_of_nonneg_left hslow ht
    exact Or.inl (by linarith)
  rcases ht.eq_or_lt with rfl | hpos
  · exact Or.inl (hlevel (by rw [zero_mul]))
  have hle := hs.excess_le_of_stopped hblocking hignored hfast fun v hv => by
    obtain ⟨u, hu, huv⟩ := hlimit v hv
    rw [hlen] at hu
    exact (Option.some.inj hu).le.trans huv
  rcases le_or_gt (p.excess s.x row) 0 with hinside | hout
  · rw [abs_of_nonpos hinside, neg_add_cancel] at hle
    exact Or.inl (by linarith [p.infeasibility_nonneg s.x])
  · rw [abs_of_pos hout] at hle
    refine Or.inr ⟨⟨step, t, row, hstep, hlen, hpos, hrow, ?_, ?_⟩, by linarith⟩
    · rwa [hs.problem]
    · rwa [hs.problem, hs.tolerances]

open Classical in
/-- One iteration at most doubles the violation if its step presses on a violated row, and else adds what creeps. -/
theorem Lockstep.infeasibility_iterate (hs : Lockstep p tol s) (ht : tol.Accepted) (h : s.iterate.result = .ok ()) :
    s.iterate.state.infeasibility ≤ 2 ^ (if s.Presses then 1 else 0) * s.infeasibility + tol.blocking * s.creep := by
  have hcreep := mul_nonneg ht.blocking (hs.creep_nonneg ht.blocking)
  have hstart : 0 ≤ s.infeasibility := s.problem.infeasibility_nonneg s.x
  have hfactor : s.infeasibility ≤ 2 ^ (if s.Presses then 1 else 0) * s.infeasibility :=
    le_mul_of_one_le_left hstart (one_le_pow₀ one_le_two)
  obtain ⟨step, hstep, ⟨-, hstate⟩ | ⟨t, _, _, _, _, _, _, hlen, hstate⟩⟩ := hs.iterate_eq_ok ht h
  · rw [hstate]
    exact hfactor.trans (le_add_of_nonneg_right hcreep)
  · rw [hstate]
    refine Problem.infeasibility_le (add_nonneg (hstart.trans hfactor) hcreep) fun row hrow => ?_
    have hproblem : s.infeasibility = p.infeasibility s.x := by rw [← hs.problem]; rfl
    dsimp only
    rw [hs.problem]
    rcases hs.excess_le ht.blocking hstep hlen hrow with hle | ⟨hpresses, hle⟩
    · linarith
    · rw [if_pos hpresses, pow_one]
      linarith

open Classical in
theorem Lockstep.infeasibility_iterates (hs : Lockstep p tol s) (ht : tol.Accepted) (k : ℕ)
    (h : (s.iterates k).result = .ok ()) : (s.iterates k).state.infeasibility ≤
      2 ^ s.pressings k * (s.infeasibility + tol.blocking * ∑ j ∈ Finset.range k, (s.iterates j).state.creep) := by
  induction k with
  | zero =>
    rw [pressings_zero, pow_zero, one_mul, Finset.sum_range_zero, mul_zero, add_zero]
    exact le_rfl
  | succ k ih =>
    rw [iterates_succ] at h ⊢
    obtain ⟨⟨⟩, hk, hiterate, hstate⟩ := Outcome.andThen_eq_ok h
    have hlock := hs.iterates ht k hk
    have hnext := hlock.infeasibility_iterate ht hiterate
    have hcreep := mul_nonneg ht.blocking (hlock.creep_nonneg ht.blocking)
    set factor : ℝ := 2 ^ (if (s.iterates k).state.Presses then 1 else 0)
    have hfactor : 0 ≤ factor := by positivity
    -- what creeps in this iteration is not doubled by those before it, so it may be counted as if it were
    have hone : 1 ≤ 2 ^ s.pressings k * factor := by
      rw [← pow_add]
      exact one_le_pow₀ one_le_two
    rw [hstate, Finset.sum_range_succ, mul_add, mul_add, pressings_succ, pow_add]
    have hbefore := mul_le_mul_of_nonneg_left (ih hk) hfactor
    have hadded := le_mul_of_one_le_left hcreep hone
    linarith

theorem infeasibility_start (hpos : 0 < tol.feasibility) (hstart : start p x₀ bounds tol = .ok (s, events)) :
    s.infeasibility < tol.feasibility := by
  obtain ⟨-, accepted, -, hviolates, rfl⟩ := start_state hstart
  unfold violates at hviolates
  simp only [Bool.or_eq_false_iff, Bool.and_eq_false_iff, decide_eq_false_iff_not, not_le, not_not] at hviolates
  unfold infeasibility Problem.infeasibility
  split_ifs with hm
  · exact hpos
  · rw [larger_eq]
    exact max_lt (hviolates.1.1.resolve_left hm) hpos

theorem exists_iterates {o : Options} {r : Report ℝ m n} (hs : Ranked p tol s) (h : (s.run o).result = .ok r) :
    ∃ k, (s.iterates k).result = .ok () ∧ (s.run o).state.solver = (s.iterates k).state := by
  refine (run_keeps (q := fun u => ∃ k, (s.iterates k).result = .ok () ∧ u = (s.iterates k).state) ?_ ⟨0, rfl, rfl⟩ h
    (hs.run_status h)).1
  rintro _ ⟨k, hk, rfl⟩ - - hiterate
  have hnext := Outcome.andThen_of_ok (f := fun s _ => s.iterate) hk
  rw [← iterates_succ] at hnext
  exact ⟨k + 1, hnext.1.trans hiterate, hnext.2.symm⟩

/-- With the standard thresholds the violation is below `1e-9` at the start. After `k` iterations it is at most that and
`1e-11` times the length of the steps that creep, doubled once for every step that presses on a violated row; and every
report gives the violation that some number of iterations has left. -/
theorem infeasibility_growth (hstart : start p x₀ bounds Tolerances.standard = .ok (s, events)) :
    s.infeasibility < 1e-9 ∧
    (∀ k, (s.iterates k).result = .ok () → (s.iterates k).state.infeasibility ≤
      2 ^ s.pressings k * (s.infeasibility + 1e-11 * ∑ j ∈ Finset.range k, (s.iterates j).state.creep)) ∧
    ∀ o r, (s.run o).result = .ok r →
      ∃ k, (s.iterates k).result = .ok () ∧ r.primalResidual = (s.iterates k).state.infeasibility := by
  have hs := ranked_start hstart
  refine ⟨infeasibility_start (by norm_num [Tolerances.standard]) hstart, fun k hk => ?_, fun o r hrun => ?_⟩
  · exact hs.lockstep.infeasibility_iterates hs.accepted k hk
  · obtain ⟨k, hk, hsolver⟩ := exists_iterates hs hrun
    refine ⟨k, hk, ?_⟩
    rw [primalResidual_run hrun, hsolver]

theorem excess_line (c g a b : ℝ) (x : Vec ℝ 1) : (line c g a b).excess x 0 = a * x 0 - b := by
  rw [Problem.excess, dot_one, (get_line c g a b).2.2.1, (get_line c g a b).2.2.2]

theorem infeasibility_line (c g a b : ℝ) (x : Vec ℝ 1) : (line c g a b).infeasibility x = max (a * x 0 - b) 0 := by
  change Scalar.larger ((line c g a b).excess x 0) 0 = _
  rw [excess_line, larger_eq]

/-- Downhill towards a row that the start misses by less than the tolerance. -/
def overshoot : Problem ℝ 1 1 := line 0 (-1) 1 (-9e-10)

theorem start_overshoot : start overshoot 0 ⟨0, none⟩ Tolerances.standard =
    .ok (fromZero Tolerances.standard overshoot, (initialFactor Tolerances.standard overshoot.P).events) := by
  refine start_single validate_standard ?_ ?_ ?_
  · norm_num [Tolerances.standard]
  · norm_num [Tolerances.standard]
  · rw [overshoot, (get_line ..).2.2.2]
    norm_num [Tolerances.standard]

theorem step_overshoot : ∃ d : Vec ℝ 1, d 0 = 1 ∧
    (fromZero Tolerances.standard overshoot).step = .ok ⟨d, some 9e-10, some 0⟩ := by
  obtain ⟨hP, hq, hA, hb⟩ := get_line 0 (-1) 1 (-9e-10)
  obtain ⟨ht, hs, -⟩ := start_eq_ok start_overshoot
  have hpos : (0 : ℝ) < (Tolerances.standard : Tolerances ℝ).indefinite := by norm_num [Tolerances.standard]
  obtain ⟨d, hstep, hone, hslope⟩ := exists_unit_ray (p := overshoot) ht hpos
    (by rw [overshoot, hP]; exact mul_self_nonneg _) (by rw [overshoot, hP]; exact hpos)
  have hd : d 0 = 1 := by
    rw [overshoot, hq] at hslope
    nlinarith
  have hratios : (fromZero Tolerances.standard overshoot).ratios d = [some 9e-10] := by
    rw [hs.ratios_single rfl, overshoot, hA, hb, hd]
    change [if _ then some (|-9e-10 - 1 * (0 : Vec ℝ 1) 0| / _) else none] = _
    rw [Vec.get_zero]
    norm_num [Tolerances.standard]
  refine ⟨d, hd, hstep.trans ?_⟩
  rw [bounded_of_unlimited rfl (by change ¬(0 : ℝ) < -1; norm_num), hratios, tightest_single]
  rfl

theorem iterate_overshoot {o : Options} (ho : o.detailed = false) :
    (fromZero Tolerances.standard overshoot).infeasibility = 9e-10 ∧
    (fromZero Tolerances.standard overshoot).iterate.result = .ok () ∧
    (fromZero Tolerances.standard overshoot).iterate.state.infeasibility = 1.8e-9 ∧
    ∃ r, ((fromZero Tolerances.standard overshoot).run o).result = .ok r ∧ r.status = .optimal ∧
      r.primalResidual = 1.8e-9 := by
  have hs := ranked_start start_overshoot
  obtain ⟨d, hd, hstep⟩ := step_overshoot
  have hmargin : (Tolerances.standard : Tolerances ℝ).radiusMargin ≤ 1 := by norm_num [Tolerances.standard]
  have hmultiplier : ∀ lam : ℝ, 1 * lam = -(0 * (9e-10 * d 0) + -1) →
      -(Tolerances.standard : Tolerances ℝ).multiplier ≤ lam := fun lam hlam => by
    have hzero : (0 : ℝ) ≤ (Tolerances.standard : Tolerances ℝ).multiplier := hs.accepted.multiplier
    linarith
  obtain ⟨hiterate, rows, factor, multipliers, residual, -, -, -, hstate⟩ := hs.iterate_line hmargin hstep hmultiplier
  obtain ⟨r, hrun, hopt, -, -, hfinal⟩ := hs.run_line_blocked hmargin hstep hmultiplier ho
  have hinfeasibility : (fromZero Tolerances.standard overshoot).iterate.state.infeasibility = 1.8e-9 := by
    rw [show (fromZero Tolerances.standard overshoot).iterate.state = _ from hstate]
    refine (infeasibility_line 0 (-1) 1 (-9e-10) _).trans ?_
    rw [Vec.get_ofFn_of_lt _ one_pos, hd]
    norm_num
  refine ⟨(infeasibility_line 0 (-1) 1 (-9e-10) 0).trans ?_, hiterate, hinfeasibility, r, hrun, hopt, ?_⟩
  · rw [Vec.get_zero]
    norm_num
  · rw [primalResidual_run hrun]
    exact (congrArg infeasibility hfinal).trans hinfeasibility

theorem infeasibility_growth_overshoot : ∃ s events,
    start overshoot 0 ⟨0, none⟩ Tolerances.standard = .ok (s, events) ∧ (s.iterates 1).result = .ok () ∧
      s.pressings 1 = 1 ∧ s.creep = 0 ∧ s.infeasibility = 9e-10 ∧
      (s.iterates 1).state.infeasibility = 2 * s.infeasibility ∧
      (s.iterates 1).state.infeasibility ≤ 2 ^ s.pressings 1 * (s.infeasibility + 1e-11 * s.creep) := by
  obtain ⟨hinfeasibility, hiterate, hdoubled, -⟩ := iterate_overshoot (o := ⟨5000, 0, 50⟩) rfl
  obtain ⟨d, hd, hstep⟩ := step_overshoot
  obtain ⟨hok, hstate⟩ := iterates_one hiterate
  have hrate : ∀ row < 1, dot 1 (overshoot.A row) d = 1 := fun row hrow => by
    rw [Nat.lt_one_iff.1 hrow, dot_one, overshoot, (get_line ..).2.2.1, hd, mul_one]
  have hpresses : (fromZero Tolerances.standard overshoot).Presses := by
    refine ⟨_, 9e-10, 0, hstep, rfl, by norm_num, one_pos, ?_, ?_⟩
    · refine (excess_line 0 (-1) 1 (-9e-10) 0).ge.trans_lt' ?_
      rw [Vec.get_zero]
      norm_num
    · refine (hrate 0 one_pos).ge.trans_lt' ?_
      norm_num [fromZero, Tolerances.standard]
  have hcreeps : ¬(fromZero Tolerances.standard overshoot).Creeps d := by
    rintro ⟨row, hrow, -, hslow⟩
    have hslow : dot 1 (overshoot.A row) d ≤ (Tolerances.standard : Tolerances ℝ).blocking := hslow
    rw [hrate row hrow] at hslow
    norm_num [Tolerances.standard] at hslow
  have hcreep : (fromZero Tolerances.standard overshoot).creep = 0 := by
    unfold creep
    rw [hstep]
    exact if_neg hcreeps
  have hpressings : (fromZero Tolerances.standard overshoot).pressings 1 = 1 := by
    rw [pressings_succ, pressings_zero, zero_add]
    exact if_pos hpresses
  obtain ⟨-, hbound, -⟩ := infeasibility_growth start_overshoot
  have hle := hbound 1 hok
  rw [Finset.sum_range_one] at hle
  refine ⟨_, _, start_overshoot, hok, hpressings, hcreep, hinfeasibility, ?_, hle⟩
  rw [hstate, hdoubled, hinfeasibility]
  norm_num

/-- Downhill from the middle of a sphere, along a row that hardly rises. -/
def drift : Problem ℝ 1 1 := line 0 (-1) 1e-12 0

/-- The start at zero, with a million as the bound on the radius. -/
def drifting : Solver ℝ 1 1 := { fromZero Tolerances.standard drift with bounds := ⟨-1, some 1e6⟩ }

theorem start_drift : start drift 0 ⟨0, some 1e6⟩ Tolerances.standard =
    .ok (drifting, (initialFactor Tolerances.standard drift.P).events) := by
  refine start_within validate_standard ?_ ?_ (fun radius h => ?_) ?_
  · norm_num [Tolerances.standard]
  · norm_num [Tolerances.standard]
  · obtain rfl := Option.some.inj h
    norm_num [Tolerances.standard]
  · rw [drift, (get_line ..).2.2.2]
    norm_num [Tolerances.standard]

theorem step_drift : ∃ d : Vec ℝ 1, d 0 = 1 ∧ drifting.step = .ok ⟨d, some 1e6, none⟩ := by
  obtain ⟨hP, hq, hA, -⟩ := get_line 0 (-1) 1e-12 0
  obtain ⟨ht, hs, -⟩ := start_eq_ok start_drift
  have hpos : (0 : ℝ) < (Tolerances.standard : Tolerances ℝ).indefinite := by norm_num [Tolerances.standard]
  obtain ⟨d, hstep, hone, hslope⟩ := exists_unit_ray_within (p := drift) ht hpos
    (by rw [drift, hP]; exact mul_self_nonneg _) (by rw [drift, hP]; exact hpos) ⟨-1, some 1e6⟩
  have hd : d 0 = 1 := by
    rw [drift, hq] at hslope
    nlinarith
  have hratios : drifting.ratios d = [none] := by
    rw [hs.ratios_single rfl, drift, hA, hd, if_neg]
    norm_num [Tolerances.standard]
  have hlimit : drifting.radiusLimit d = .ok (some 1e6) :=
    radiusLimit_center rfl rfl (by change ¬(0 : ℝ) < -1; norm_num) (by rw [dot_one, hd, mul_one]) (by norm_num)
  refine ⟨d, hd, hstep.trans ?_⟩
  change drifting.bounded d none = _
  unfold bounded
  rw [hlimit, hratios]
  rfl

theorem iterate_drift : drifting.iterate.result = .ok () ∧ drifting.iterate.state.infeasibility = 1e-6 ∧
    drifting.iterate.state.withinRadius = false := by
  obtain ⟨d, hd, hstep⟩ := step_drift
  set moved : Solver ℝ 1 1 := { drifting with x := (0 : Vec ℝ 1).along 1e6 d }
  have hx : moved.x 0 = 1e6 := by
    change (0 : Vec ℝ 1).along 1e6 d 0 = 1e6
    rw [Vec.get_along _ _ _ one_pos, Vec.get_zero, hd, mul_one, zero_add]
  have hwithin : moved.withinRadius = false := by
    have hnorm : norm 1 moved.x = 1e6 := by
      rw [norm_eq, dot_one, hx, Real.sqrt_mul_self (by norm_num)]
    have houter : ¬norm 1 moved.x ≤ 1e6 - (Tolerances.standard : Tolerances ℝ).radiusMargin := by
      rw [hnorm]
      norm_num [Tolerances.standard]
    exact Bool.and_eq_false_iff.2 (Or.inr (decide_eq_false houter))
  have hiterate : drifting.iterate = .done { moved with iteration := 1 } () := by
    have hsettles : ¬moved.settles ⟨d, some 1e6, none⟩ = true := by
      unfold settles
      rw [hwithin, Bool.and_false]
      exact Bool.false_ne_true
    rw [iterate_eq hstep rfl]
    change (Outcome.done moved ()).andThen (fun r _ => r.finish _) = _
    rw [Outcome.done_andThen, finish, if_neg hsettles, Outcome.done_andThen]
    rfl
  have hinfeasibility : moved.infeasibility = 1e-6 := by
    refine (infeasibility_line 0 (-1) 1e-12 0 moved.x).trans ?_
    rw [hx]
    norm_num
  rw [hiterate]
  exact ⟨rfl, hinfeasibility, hwithin⟩

/-- The tolerance of the start is passed by a step that presses on a row, and by one that approaches it too slowly to be
stopped. -/
theorem infeasibility_past_tolerance :
    (∃ s events r, start overshoot 0 ⟨0, none⟩ Tolerances.standard = .ok (s, events) ∧
      (s.iterates 1).result = .ok () ∧ 1e-9 < (s.iterates 1).state.infeasibility ∧
      (s.run ⟨5000, 0, 50⟩).result = .ok r ∧ r.status = .optimal ∧ 1e-9 < r.primalResidual) ∧
    ∃ s events r, start drift 0 ⟨0, some 1e6⟩ Tolerances.standard = .ok (s, events) ∧ (s.iterates 1).result = .ok () ∧
      1e-9 < (s.iterates 1).state.infeasibility ∧ (s.run ⟨5000, 0, 50⟩).result = .ok r ∧ 1e-9 < r.primalResidual := by
  constructor
  · obtain ⟨-, hiterate, hinfeasibility, r, hrun, hopt, hresidual⟩ := iterate_overshoot (o := ⟨5000, 0, 50⟩) rfl
    obtain ⟨hok, hstate⟩ := iterates_one hiterate
    refine ⟨_, _, r, start_overshoot, hok, ?_, hrun, hopt, ?_⟩
    · rw [hstate, hinfeasibility]
      norm_num
    · rw [hresidual]
      norm_num
  obtain ⟨hiterate, hinfeasibility, hwithin⟩ := iterate_drift
  obtain ⟨hok, hstate⟩ := iterates_one hiterate
  have hinside : drifting.withinRadius = true := by
    have hnorm : norm 1 (0 : Vec ℝ 1) = 0 := by rw [norm_eq, dot_one, Vec.get_zero, mul_zero, Real.sqrt_zero]
    change (decide (-1 + (Tolerances.standard : Tolerances ℝ).radiusMargin ≤ norm 1 (0 : Vec ℝ 1)) &&
      decide (norm 1 (0 : Vec ℝ 1) ≤ 1e6 - (Tolerances.standard : Tolerances ℝ).radiusMargin)) = true
    rw [hnorm]
    norm_num [Tolerances.standard]
  obtain ⟨r, hr, -, hfinal⟩ := run_of_decided (s := drifting) (o := ⟨5000, 0, 50⟩) rfl rfl rfl hinside rfl hiterate
    (Or.inr (Or.inr hwithin))
  refine ⟨_, _, r, start_drift, hok, ?_, hr, ?_⟩
  · rw [hstate, hinfeasibility]
    norm_num
  · rw [primalResidual_run hr, hfinal, hinfeasibility]
    norm_num

end Solver

end
end ActiveSet
