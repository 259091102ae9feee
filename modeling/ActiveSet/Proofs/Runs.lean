import ActiveSet.Proofs.Sizes
import ActiveSet.Solve

/-! Runs from start to report. What every iteration keeps holds of the solver behind a report, and a run that its first
iteration decides reports what that has left. -/

namespace ActiveSet

noncomputable section
open Exact

variable {m n : ℕ}

namespace Watched

variable {α : Type} [Scalar α] {o : Options} {w : Watched α m n}

theorem solver_observe (o : Options) (header : Bool) (w : Watched α m n) :
    (w.observe o header).state.solver = w.solver := by
  unfold observe
  cases w.solver.snapshot o.detailed <;> rfl

theorem solver_turn (o : Options) (w : Watched α m n) : (w.turn o).state.solver = w.solver.iterate.state := by
  unfold turn
  refine Outcome.andThen_keeps (q := fun v : Watched α m n => v.solver = w.solver.iterate.state) rfl fun v _ hv => ?_
  split_ifs
  · exact (solver_observe ..).trans hv
  · exact hv

theorem turn_eq_ok (h : (w.turn o).result = .ok ()) :
    w.solver.iterate.result = .ok () ∧ (w.turn o).state.solver = w.solver.iterate.state := by
  refine ⟨?_, solver_turn o w⟩
  obtain ⟨⟨⟩, hiterate, -⟩ := Outcome.andThen_eq_ok h
  exact hiterate

theorem turn_of_error {cause : Fault} (h : w.solver.iterate.result = .error cause) :
    (w.turn o).result = .error cause ∧ (w.turn o).state = { w with solver := w.solver.iterate.state } :=
  Outcome.andThen_of_error (o := Outcome.within _ fun solver => ({ w with solver } : Watched α m n)) h

/-- What every iteration keeps is kept by the loop, which iterates only what is not decided. -/
theorem loop_keeps {q : Solver α m n → Prop}
    (hstep : ∀ s, q s → s.done = false → s.unbounded = false → s.iterate.result = .ok () → q s.iterate.state) (k : ℕ)
    (hq : q w.solver) (h : (w.loop o k).result = .ok ()) : q (w.loop o k).state.solver := by
  induction k generalizing w with
  | zero => exact hq
  | succ k ih =>
    unfold loop at h ⊢
    split_ifs at h ⊢ with hundecided
    · obtain ⟨⟨⟩, hturn, hloop, hstate⟩ := Outcome.andThen_eq_ok h
      obtain ⟨hiterate, hsolver⟩ := turn_eq_ok hturn
      simp only [undecided, Bool.and_eq_true, Bool.not_eq_true'] at hundecided
      obtain ⟨⟨⟨hnot, hbounded⟩, -⟩, -⟩ := hundecided
      rw [hstate]
      refine ih ?_ hloop
      rw [hsolver]
      exact hstep _ hq hnot hbounded hiterate
    · exact hq

/-- What every iteration keeps, whether it goes through or not, is also kept by a loop that a fault has stopped. -/
theorem loop_stays {q : Solver α m n → Prop}
    (hstep : ∀ v : Watched α m n, q v.solver → v.undecided o = true → q v.solver.iterate.state) (k : ℕ)
    (hq : q w.solver) : q (w.loop o k).state.solver := by
  induction k generalizing w with
  | zero => exact hq
  | succ k ih =>
    unfold loop
    split_ifs with hundecided
    · have hturned : q (w.turn o).state.solver := by
        rw [solver_turn]
        exact hstep w hq hundecided
      exact Outcome.andThen_keeps (q := fun v : Watched α m n => q v.solver) hturned fun v _ hv => ih hv
    · exact hq

/-- A loop that has ended tells why it stopped; one that a linear system has stopped is a breakdown. -/
theorem conclude_eq_ok {ran : Outcome α (Watched α m n) Unit} {status : Status}
    (h : (conclude ran).result = .ok status) : (ran.result = .ok () ∧ status = verdict ran.state.solver) ∨
      ∃ cause, ran.result = .error cause ∧ cause.isNumerical = true ∧ status = .numericalError := by
  unfold conclude at h
  cases hran : ran.result with
  | error cause =>
    rw [hran] at h
    dsimp only at h
    split_ifs at h with hnumerical
    exact Or.inr ⟨cause, rfl, hnumerical, (Except.ok.inj h).symm⟩
  | ok u =>
    rw [hran] at h
    exact Or.inl ⟨rfl, (Except.ok.inj h).symm⟩

theorem conclude_of_ok {ran : Outcome α (Watched α m n) Unit} (h : ran.result = .ok ()) :
    (conclude ran).result = .ok (verdict ran.state.solver) := by
  unfold conclude
  rw [h]

theorem conclude_of_error {ran : Outcome α (Watched α m n) Unit} {cause : Fault} (h : ran.result = .error cause)
    (hnumerical : cause.isNumerical = false) : (conclude ran).result = .error cause := by
  unfold conclude
  rw [h]
  dsimp only
  rw [if_neg (by rw [hnumerical]; exact Bool.false_ne_true)]

theorem state_conclude (ran : Outcome α (Watched α m n) Unit) : (conclude ran).state = ran.state := by
  unfold conclude
  cases ran.result with
  | error cause =>
    dsimp only
    split_ifs
    · rfl
    · rfl
  | ok u => rfl

theorem observe_eq_ok (ho : o.detailed = false) (header : Bool) (w : Watched α m n) :
    (w.observe o header).result = .ok () := by
  unfold observe Solver.snapshot
  rw [ho]
  rfl

theorem loop_of_decided (h : w.undecided o = false) (k : ℕ) : w.loop o k = .done w () := by
  cases k with
  | zero => rfl
  | succ k =>
    unfold loop
    rw [if_neg (by rw [h]; exact Bool.false_ne_true)]

theorem turn_of_ok (h : w.solver.iterate.result = .ok ()) (ho : o.detailed = false) :
    (w.turn o).result = .ok () := by
  unfold turn
  refine Outcome.result_andThen_eq_ok.2 ⟨(), h, ?_⟩
  split_ifs
  · exact observe_eq_ok ho ..
  · rfl

theorem verdict_eq_unbounded {s : Solver α m n} : verdict s = .unbounded ↔ s.unbounded = true := by
  unfold verdict
  split_ifs with hray
  all_goals simp [hray]

theorem verdict_eq_maxIter {s : Solver α m n} :
    verdict s = .maxIter ↔ s.unbounded = false ∧ s.done = false ∧ s.withinRadius = true := by
  unfold verdict
  split_ifs with hray hradius hdone
  · simp [hray]
  · simp [show s.withinRadius = false by simpa using hradius]
  · simp [hdone]
  · simpa [hray, hdone] using hradius

theorem verdict_eq_optimal {s : Solver α m n} (h : verdict s = .optimal) :
    s.done = true ∧ s.withinRadius = true := by
  unfold verdict at h
  split_ifs at h with hray hradius hdone
  exact ⟨hdone, by simpa using hradius⟩

theorem done_of_optimal {s : Solver α m n} (h : verdict s = .optimal) : s.done = true := (verdict_eq_optimal h).1

end Watched

namespace Solver

variable {p : Problem ℝ m n} {tol : Tolerances ℝ} {s : Solver ℝ m n} {o : Options} {r : Report ℝ m n}

theorem run_eq_ok {α : Type} [Scalar α] {s : Solver α m n} {r : Report α m n} {w : Watched α m n}
    (hw : (Watched.observe o true ⟨s, []⟩).state = w) (h : (s.run o).result = .ok r) : w.solver = s ∧
      (Watched.conclude (w.loop o (o.maxIter + 1))).result = .ok r.status ∧
      (s.run o).state.solver = (w.loop o (o.maxIter + 1)).state.solver ∧ r.x = (s.run o).state.solver.x ∧
      r.multipliers = (s.run o).state.solver.multipliers ∧ r.working = (s.run o).state.solver.rows.working ∧
      r.dualResidual = (s.run o).state.solver.residual := by
  unfold run at h ⊢
  obtain ⟨⟨⟩, -, h, hstate⟩ := Outcome.andThen_eq_ok h
  have hsolver := Watched.solver_observe o true ⟨s, []⟩
  rw [hstate]
  rw [hw] at hsolver h ⊢
  obtain ⟨status, hstatus, h, hstate⟩ := Outcome.andThen_eq_ok h
  rw [hstate, Watched.state_conclude]
  rw [Watched.state_conclude] at h
  obtain ⟨⟨⟩, -, h, hstate⟩ := Outcome.andThen_eq_ok h
  rw [hstate]
  obtain rfl := Except.ok.inj h
  exact ⟨hsolver, hstatus, Watched.solver_observe o false (w.loop o (o.maxIter + 1)).state, rfl, rfl, rfl, rfl⟩

theorem run_report {α : Type} [Scalar α] {s : Solver α m n} {r : Report α m n} (h : (s.run o).result = .ok r) :
    r = (s.run o).state.report r.status := by
  unfold run at h ⊢
  obtain ⟨⟨⟩, -, h, hstate⟩ := Outcome.andThen_eq_ok h
  rw [hstate]
  obtain ⟨status, -, h, hstate⟩ := Outcome.andThen_eq_ok h
  rw [hstate]
  obtain ⟨⟨⟩, -, h, hstate⟩ := Outcome.andThen_eq_ok h
  rw [hstate]
  obtain rfl := Except.ok.inj h
  rfl

theorem primalResidual_run (h : (s.run o).result = .ok r) :
    r.primalResidual = (s.run o).state.solver.infeasibility :=
  congrArg Report.primalResidual (run_report h)

/-- What every iteration keeps holds of the solver behind a report that is no breakdown, and its state is the reason
of the stop. -/
theorem run_keeps {q : Solver ℝ m n → Prop}
    (hstep : ∀ s, q s → s.done = false → s.unbounded = false → s.iterate.result = .ok () → q s.iterate.state)
    (hq : q s) (h : (s.run o).result = .ok r) (hstatus : r.status ≠ .numericalError) :
    q (s.run o).state.solver ∧ r.status = Watched.verdict (s.run o).state.solver := by
  obtain ⟨hsolver, hconclude, hfinal, -⟩ := run_eq_ok rfl h
  rcases Watched.conclude_eq_ok hconclude with ⟨hloop, hverdict⟩ | ⟨cause, -, -, herror⟩
  · rw [hfinal]
    exact ⟨Watched.loop_keeps hstep _ (by rwa [hsolver]) hloop, hverdict⟩
  · exact absurd herror hstatus

/-- An optimal report is that of a solver that is done, reached from the start by the loop. -/
theorem run_optimal {q : Solver ℝ m n → Prop}
    (hstep : ∀ s, q s → s.done = false → s.unbounded = false → s.iterate.result = .ok () → q s.iterate.state)
    (hq : q s) (h : (s.run o).result = .ok r) (hopt : r.status = .optimal) :
    q (s.run o).state.solver ∧ (s.run o).state.solver.done = true := by
  obtain ⟨hkept, hverdict⟩ := run_keeps hstep hq h (by rw [hopt]; exact nofun)
  exact ⟨hkept, Watched.done_of_optimal (hverdict.symm.trans hopt)⟩

theorem run_of_decided (hnot : s.done = false) (hray : s.ray = none) (hiteration : s.iteration = 0)
    (hradius : s.withinRadius = true) (ho : o.detailed = false) (hiterate : s.iterate.result = .ok ())
    (hdecided : s.iterate.state.done = true ∨ s.iterate.state.unbounded = true ∨ s.iterate.state.withinRadius = false) :
    ∃ r, (s.run o).result = .ok r ∧ r.status = Watched.verdict s.iterate.state ∧
      (s.run o).state.solver = s.iterate.state := by
  have hsolver := Watched.solver_observe o true ⟨s, []⟩
  set w := (Watched.observe o true ⟨s, []⟩).state with hw
  have hundecided : w.undecided o = true := by
    simp [Watched.undecided, hsolver, hnot, unbounded, hray, hiteration, hradius]
  have hturn : (w.turn o).result = .ok () := Watched.turn_of_ok (by rwa [hsolver]) ho
  have hturned : (w.turn o).state.solver = s.iterate.state := by
    rw [(Watched.turn_eq_ok hturn).2, hsolver]
  have hstop : (w.turn o).state.undecided o = false := by
    rcases hdecided with h | h | h
    · simp [Watched.undecided, hturned, h]
    · simp [Watched.undecided, hturned, h]
    · simp [Watched.undecided, hturned, h]
  have hloop : (w.loop o (o.maxIter + 1)).result = .ok () ∧
      (w.loop o (o.maxIter + 1)).state = (w.turn o).state := by
    unfold Watched.loop
    rw [if_pos hundecided]
    unfold Outcome.andThen
    rw [hturn]
    dsimp only
    rw [Watched.loop_of_decided hstop]
    exact ⟨rfl, rfl⟩
  have hconclude : (Watched.conclude (w.loop o (o.maxIter + 1))).result = .ok (Watched.verdict s.iterate.state) := by
    rw [Watched.conclude_of_ok hloop.1, hloop.2, hturned]
  set v := (Watched.conclude (w.loop o (o.maxIter + 1))).state
  have hresult : (s.run o).result = .ok ((v.observe o false).state.report (Watched.verdict s.iterate.state)) := by
    unfold run
    refine Outcome.result_andThen_eq_ok.2 ⟨(), Watched.observe_eq_ok ho .., ?_⟩
    refine Outcome.result_andThen_eq_ok.2 ⟨_, hconclude, ?_⟩
    exact Outcome.result_andThen_eq_ok.2 ⟨(), Watched.observe_eq_ok ho .., rfl⟩
  obtain ⟨-, -, hfinal, -⟩ := run_eq_ok hw.symm hresult
  exact ⟨_, hresult, rfl, by rw [hfinal, hloop.2, hturned]⟩

theorem exists_columnMultipliers (h : ∀ i < s.factor.basis.size, s.factor.basis.r i i ≠ 0) :
    ∃ lam, s.columnMultipliers = .ok lam := by
  unfold columnMultipliers
  exact ⟨_, map_eq_ok.2 ⟨_, Triangular.solve_eq_ok.2 ⟨⟨rfl, h⟩, rfl⟩, rfl⟩⟩

/-- A check that finds the gradient small and no multiplier negative has nothing to release. -/
theorem Lockstep.check_solved (hs : Lockstep p tol s) {lam : Vec ℝ s.factor.basis.size}
    (hlam : s.columnMultipliers = .ok lam)
    (hsmall : norm s.factor.width (s.factor.project s.gradient) ≤ tol.projectedGradient)
    (hall : ∀ i < s.factor.basis.size, -tol.multiplier ≤ lam i) :
    s.check.result = .ok none ∧ s.check.state.done = true := by
  obtain ⟨multipliers, hspread⟩ := hs.fits.exists_spread lam
  have hall' : ((List.range s.factor.basis.size).all fun i => decide (-tol.multiplier ≤ lam i)) = true :=
    List.all_eq_true.2 fun i hi => decide_eq_true (hall i (List.mem_range.1 hi))
  unfold Solver.check
  rw [hlam]
  dsimp only
  rw [hspread]
  dsimp only
  rw [hs.tolerances, if_neg (not_lt.2 hsmall), if_pos hall']
  exact ⟨rfl, rfl⟩

theorem along_zero (x : Vec ℝ n) : x.along 0 0 = x :=
  Vec.ext fun i hi => by rw [Vec.get_along _ _ _ hi, zero_mul, add_zero]

theorem settle_of_check (hart : s.factor.artificial = 0) (h : s.check.result = .ok none) :
    s.settle = ⟨s.check.state, s.check.events ++ [], .ok ()⟩ := by
  unfold Solver.settle
  rw [if_neg (by omega)]
  unfold Outcome.andThen
  rw [h]
  rfl

theorem finish_of_check {step : Step ℝ n} (hart : s.factor.artificial = 0) (hsettles : s.settles step = true)
    (h : s.check.result = .ok none) : (s.finish step).result = .ok () ∧
      (s.finish step).state = { s.check.state with iteration := s.check.state.iteration + 1 } := by
  unfold finish
  rw [if_pos hsettles, settle_of_check hart h]
  exact ⟨rfl, rfl⟩

theorem Lockstep.step_at_rest (hs : Lockstep p tol s) (hconvex : s.convex = true)
    (hsmall : norm s.factor.width (s.factor.project s.gradient) ≤ tol.projectedGradient) :
    s.step = .ok ⟨0, some 0, none⟩ := by
  have hsearch : s.search = .ok .rest := by
    unfold search
    dsimp only
    rw [if_pos hconvex, norm_ofFn, hs.tolerances, if_pos hsmall]
  unfold Solver.step
  rw [hsearch]

theorem taken_at_rest (s : Solver ℝ m n) : s.taken ⟨0, some 0, none⟩ 0 = .done s () := by
  have hmoved : ({ s with x := s.x.along 0 0 } : Solver ℝ m n) = s := by rw [along_zero]
  unfold Solver.taken
  dsimp only
  rw [hmoved]

/-- A first iteration that finds the solve done, away from the radius bounds, makes the report an optimal one. -/
theorem run_of_done (hnot : s.done = false) (hray : s.ray = none) (hiteration : s.iteration = 0)
    (hradius : s.withinRadius = true) (ho : o.detailed = false) (hiterate : s.iterate.result = .ok ())
    (hdone : s.iterate.state.done = true) (hray' : s.iterate.state.ray = none)
    (hradius' : s.iterate.state.withinRadius = true) : ∃ r, (s.run o).result = .ok r ∧ r.status = .optimal ∧
      (s.run o).state.solver = s.iterate.state := by
  obtain ⟨r, hr, hstatus, hfinal⟩ := run_of_decided hnot hray hiteration hradius ho hiterate (Or.inl hdone)
  refine ⟨r, hr, hstatus.trans ?_, hfinal⟩
  simp [Watched.verdict, unbounded, hray', hradius', hdone]

end Solver

end
end ActiveSet
