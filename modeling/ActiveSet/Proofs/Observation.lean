import ActiveSet.Call
import ActiveSet.Proofs.Turns
import ActiveSet.Proofs.Unbounded

/-! Watching a solve does not change it. In exact arithmetic the parts of a solve belong together wherever a snapshot
is taken, so a snapshot never fails, also not one with the gaps of the factorizations; and nothing that is iterated
depends on when one is taken or on who is shown it. So the runs of two callers differ in their snapshots only. -/

namespace ActiveSet

/-- What a report says apart from the snapshots it comes with. -/
def Report.bare {α : Type} {m n : ℕ} (r : Report α m n) : Report α m n := { r with history := [] }

def Answer.bare {α σ : Type} (a : Answer α σ) : (m : ℕ) × (n : ℕ) × Report α m n := ⟨a.m, a.n, a.report.bare⟩

theorem Options.accept_of_pos {interval : ℤ} (h : 0 < interval) (maxIter verbosity : ℤ) :
    accept maxIter verbosity interval =
      if maxIter < 0 then .error .iterationLimit else .ok ⟨maxIter.toNat, verbosity, interval.toNat⟩ := by
  unfold accept
  rw [if_neg (not_le.2 h)]

namespace Intake

variable {α : Type} [Scalar α] {P q A b x : Tensor α} {bounds : RadiusBounds α} {tol : Tolerances α}

/-- Apart from the snapshots a call returns what the run says, so nothing in it is left to the listener. -/
theorem bare_call {σ : Type} {interval : ℤ} (hinterval : 0 < interval) (maxIter verbosity : ℤ)
    (callback : Option (σ → Snapshot α → σ)) (seen : σ) :
    (call P q A b x bounds tol maxIter verbosity interval callback seen).map Answer.bare =
      if maxIter < 0 then .error .iterationLimit
      else (solver P q A b x bounds tol).bind fun t =>
        ((t.2.2.1.run ⟨maxIter.toNat, verbosity, interval.toNat⟩).result.map Report.bare).map fun r =>
          ⟨t.1, t.2.1, r⟩ := by
  unfold call reported opened
  rw [Options.accept_of_pos hinterval]
  split_ifs
  · rfl
  cases solver P q A b x bounds tol with
  | error cause => rfl
  | ok t =>
    obtain ⟨m, n, s, events⟩ := t
    change Except.map _ (Except.map _ (Except.map _ (s.run _).result)) = Except.map _ (Except.map _ (s.run _).result)
    cases (s.run ⟨maxIter.toNat, verbosity, interval.toNat⟩).result with
    | error cause => rfl
    | ok r => rfl

theorem solver_eq_ok {m n : ℕ} {s : Solver α m n} {events : List (Event α)}
    (h : solver P q A b x bounds tol = .ok ⟨m, n, s, events⟩) :
    ∃ p x₀, Solver.start p x₀ bounds tol = .ok (s, events) := by
  unfold solver at h
  obtain ⟨⟨⟩, -, h⟩ := bind_eq_ok.1 h
  obtain ⟨⟨n', c⟩, -, h⟩ := bind_eq_ok.1 h
  dsimp only at h
  split at h
  · cases h
  split at h
  · cases h
  obtain ⟨⟨m', c'⟩, -, h⟩ := bind_eq_ok.1 h
  dsimp only at h
  split at h
  · cases h
  obtain ⟨q', -, h⟩ := bind_eq_ok.1 h
  obtain ⟨b', -, h⟩ := bind_eq_ok.1 h
  obtain ⟨x₀, -, h⟩ := bind_eq_ok.1 h
  obtain ⟨s', hstart, h⟩ := bind_eq_ok.1 h
  cases h
  exact ⟨_, x₀, hstart⟩

end Intake

noncomputable section
open Exact

variable {m n : ℕ}

namespace Solver

variable {p : Problem ℝ m n} {tol : Tolerances ℝ} {s : Solver ℝ m n} {o o' : Options}

theorem Ranked.loop_alike {w v : Watched ℝ m n} (hs : Ranked p tol w.solver) (hsame : w.solver = v.solver)
    (hlimit : o.maxIter = o'.maxIter) (k : ℕ) :
    (w.loop o k).result = (v.loop o' k).result ∧ (w.loop o k).state.solver = (v.loop o' k).state.solver := by
  induction k generalizing w v with
  | zero => exact ⟨rfl, hsame⟩
  | succ k ih =>
    have hundecided : w.undecided o = v.undecided o' := by
      unfold Watched.undecided
      rw [hsame, hlimit]
    have hresults : (w.turn o).result = (v.turn o').result := by
      rw [hs.result_turn, Ranked.result_turn (hsame ▸ hs), hsame]
    have hsolvers : (w.turn o).state.solver = (v.turn o').state.solver := by
      rw [Watched.solver_turn, Watched.solver_turn, hsame]
    unfold Watched.loop
    rw [hundecided]
    split_ifs
    · cases hturn : (w.turn o).result with
      | error cause =>
        obtain ⟨hresult, hstate⟩ := Outcome.andThen_of_error (f := fun w _ => w.loop o k) hturn
        obtain ⟨hresult', hstate'⟩ := Outcome.andThen_of_error (f := fun w _ => w.loop o' k) (hresults ▸ hturn)
        rw [hresult, hresult', hstate, hstate']
        exact ⟨rfl, hsolvers⟩
      | ok u =>
        obtain ⟨hresult, hstate⟩ := Outcome.andThen_of_ok (f := fun w _ => w.loop o k) hturn
        obtain ⟨hresult', hstate'⟩ := Outcome.andThen_of_ok (f := fun w _ => w.loop o' k) (hresults ▸ hturn)
        rw [hresult, hresult', hstate, hstate']
        obtain ⟨hiterate, hsolver⟩ := Watched.turn_eq_ok hturn
        refine ih ?_ hsolvers
        rw [hsolver]
        exact hs.iterate hiterate
    · exact ⟨rfl, hsame⟩

theorem Ranked.looped (hs : Ranked p tol s) (h : (s.looped o).result = .ok ()) :
    Ranked p tol (s.looped o).state.solver := by
  refine Watched.loop_keeps (fun t ht _ _ hiterate => ht.iterate hiterate) _ ?_ h
  rwa [Watched.solver_entered]

theorem Ranked.unbroken_looped (hs : Ranked p tol s) : (s.looped o).Unbroken := by
  rw [← Watched.solver_entered o s] at hs
  exact hs.unbroken_loop _

/-- The first and the last snapshot add no fault either, and so a run is what its loop makes of it. -/
theorem Ranked.bare_run (hs : Ranked p tol s) : (s.run o).result.map Report.bare = (s.looped o).result.map fun _ =>
    Watched.report ⟨(s.looped o).state.solver, []⟩ (Watched.verdict (s.looped o).state.solver) := by
  have hfirst : (Watched.observe o true ⟨s, []⟩).result = .ok () := hs.lockstep.fits.result_observe _
  unfold run
  rw [(Outcome.andThen_of_ok hfirst).1]
  change Except.map _ (Outcome.andThen (Watched.conclude (s.looped o)) _).result = _
  cases hlooped : (s.looped o).result with
  | error cause =>
    rw [(Outcome.andThen_of_error (Watched.conclude_of_error hlooped (hs.unbroken_looped cause hlooped))).1]
    rfl
  | ok u =>
    have hlast : ((s.looped o).state.observe o false).result = .ok () :=
      (hs.looped hlooped).lockstep.fits.result_observe _
    rw [(Outcome.andThen_of_ok (Watched.conclude_of_ok hlooped)).1, Watched.state_conclude,
      (Outcome.andThen_of_ok hlast).1]
    change Except.ok (Report.bare (Watched.report _ _)) = Except.ok _
    unfold Report.bare Watched.report
    rw [Watched.solver_observe]

theorem Ranked.bare_run_eq (hs : Ranked p tol s) (hlimit : o.maxIter = o'.maxIter) :
    (s.run o).result.map Report.bare = (s.run o').result.map Report.bare := by
  have hentered : (Watched.entered o s).solver = (Watched.entered o' s).solver := by
    rw [Watched.solver_entered, Watched.solver_entered]
  have hranked : Ranked p tol (Watched.entered o s).solver := by rwa [Watched.solver_entered]
  obtain ⟨hresult, hsolver⟩ := hranked.loop_alike hentered hlimit (o.maxIter + 1)
  rw [hs.bare_run, hs.bare_run]
  unfold Solver.looped
  rw [← hlimit, hresult, hsolver]

end Solver

section Shape

variable {p : Problem ℝ m n} {x₀ : Vec ℝ n} {bounds : RadiusBounds ℝ} {tol : Tolerances ℝ} {s : Solver ℝ m n}
  {events : List (Event ℝ)}

theorem Solver.isSymmetric_of_start (h : Solver.start p x₀ bounds tol = .ok (s, events)) :
    p.P.isSymmetric = true := by
  unfold Solver.start at h
  obtain ⟨⟨⟩, -, h⟩ := bind_eq_ok.1 h
  dsimp only at h
  split_ifs at h with hsymmetric
  · cases h
  · simpa using hsymmetric

theorem Intake.vector_ofList (what : String) (v : Vec ℝ n) : vector what n (.ofList v.toList) = .ok v := by
  unfold vector
  rw [Tensor.flatten_ofList, Vec.ofList?_toList]

theorem Intake.solver_of_start (h : Solver.start p x₀ bounds tol = .ok (s, events)) :
    solver (.ofMat p.P) (.ofList p.q.toList) (.ofMat p.A) (.ofList p.b.toList) (.ofList x₀.toList) bounds tol =
      .ok ⟨m, n, s, events⟩ := by
  obtain ⟨hvalid, -⟩ := Solver.start_state h
  unfold solver
  refine bind_eq_ok.2 ⟨(), hvalid, bind_eq_ok.2 ⟨(n, n), rfl, ?_⟩⟩
  dsimp only
  rw [if_neg (not_not.2 rfl), Tensor.toMat_ofMat, Solver.isSymmetric_of_start h, if_neg (by exact Bool.false_ne_true)]
  refine bind_eq_ok.2 ⟨(m, n), rfl, ?_⟩
  dsimp only
  rw [if_neg (not_not.2 rfl), Tensor.toMat_ofMat]
  exact bind_eq_ok.2 ⟨_, vector_ofList .., bind_eq_ok.2 ⟨_, vector_ofList .., bind_eq_ok.2 ⟨_, vector_ofList ..,
    bind_eq_ok.2 ⟨_, h, rfl⟩⟩⟩⟩

theorem Intake.solver_line {c g a b : ℝ} {s : Solver ℝ 1 1}
    (h : Solver.start (Solver.line c g a b) 0 bounds tol = .ok (s, events)) :
    solver ⟨[1, 1], #[c]⟩ ⟨[1], #[g]⟩ ⟨[1, 1], #[a]⟩ ⟨[1], #[b]⟩ ⟨[1], #[0]⟩ bounds tol = .ok ⟨1, 1, s, events⟩ := by
  have hmat : ∀ v : ℝ, Tensor.ofMat (Mat.ofFn fun _ _ => v : Mat ℝ 1 1) = ⟨[1, 1], #[v]⟩ := fun _ => rfl
  have hvec : ∀ v : ℝ, Tensor.ofList (Vec.ofFn fun _ => v : Vec ℝ 1).toList = ⟨[1], #[v]⟩ := fun _ => rfl
  have hzero : Tensor.ofList (0 : Vec ℝ 1).toList = ⟨[1], #[0]⟩ := rfl
  have htaken := solver_of_start h
  dsimp only [Solver.line] at htaken
  rwa [hmat, hvec, hmat, hvec, hzero] at htaken

end Shape

namespace Intake

/-- Two calls with the same data and the same limit either fail alike or return reports that differ in their snapshots
only, whatever they ask to be printed, however often a snapshot is taken and whoever listens. A snapshot with the gaps
of the factorizations can be taken after any iterations that went through, and at the end of a loop that is
followed by one. -/
theorem observation_passive {σ σ' : Type} (P q A b x : Tensor ℝ) (bounds : RadiusBounds ℝ) (tol : Tolerances ℝ)
    (maxIter verbosity verbosity' : ℤ) {interval interval' : ℤ} (hinterval : 0 < interval) (hinterval' : 0 < interval')
    (callback : Option (σ → Snapshot ℝ → σ)) (callback' : Option (σ' → Snapshot ℝ → σ')) (seen : σ) (seen' : σ') :
    (call P q A b x bounds tol maxIter verbosity interval callback seen).map Answer.bare =
      (call P q A b x bounds tol maxIter verbosity' interval' callback' seen').map Answer.bare ∧
    ∀ m n (s : Solver ℝ m n) events, solver P q A b x bounds tol = .ok ⟨m, n, s, events⟩ →
      (∀ k, (s.iterates k).result = .ok () → ∃ info, (s.iterates k).state.snapshot true = .ok info) ∧
      ∀ o, (Watched.conclude (s.looped o)).succeeds → ∃ info, (s.looped o).state.solver.snapshot true = .ok info := by
  constructor
  · rw [bare_call hinterval, bare_call hinterval']
    cases hsolver : solver P q A b x bounds tol with
    | error cause => rfl
    | ok t =>
      obtain ⟨m, n, s, events⟩ := t
      obtain ⟨p, x₀, hstart⟩ := solver_eq_ok hsolver
      have hruns : (s.run ⟨maxIter.toNat, verbosity, interval.toNat⟩).result.map Report.bare =
          (s.run ⟨maxIter.toNat, verbosity', interval'.toNat⟩).result.map Report.bare :=
        (Solver.ranked_start hstart).bare_run_eq rfl
      change (if maxIter < 0 then _ else Except.map _ (Except.map _ (s.run _).result)) =
        if maxIter < 0 then _ else Except.map _ (Except.map _ (s.run _).result)
      rw [hruns]
  · intro m n s events hsolver
    obtain ⟨p, x₀, hstart⟩ := solver_eq_ok hsolver
    have hs := Solver.ranked_start hstart
    refine ⟨fun k hk => ?_, fun o ho => ?_⟩
    · exact (Solver.iterates_keep (fun _ ht h => ht.iterate h) k hs hk).lockstep.fits.exists_snapshot true
    · obtain ⟨status, hstatus⟩ := ho
      rcases Watched.conclude_eq_ok hstatus with ⟨hlooped, -⟩ | ⟨cause, hcause, hnumerical, -⟩
      · exact (hs.looped hlooped).lockstep.fits.exists_snapshot true
      · -- no linear system breaks down
        rw [hs.unbroken_looped cause hcause] at hnumerical
        cases hnumerical

/-- Downhill on a concave parabola: a caller that counts the snapshots, has one taken at every iteration and the gaps
printed is told of the ray like one that asks for nothing. -/
theorem observation_passive_line : ∃ (a : Answer ℝ ℕ) (s : Solver ℝ 1 1) (events : List (Event ℝ)) (info : Snapshot ℝ),
    call ⟨[1, 1], #[-1]⟩ ⟨[1], #[-1]⟩ ⟨[1, 1], #[-1]⟩ ⟨[1], #[0]⟩ ⟨[1], #[0]⟩ ⟨0, none⟩ Tolerances.standard 5000 2 1
      (some fun count _ => count + 1) 0 = .ok a ∧ a.report.status = .unbounded ∧
    solver ⟨[1, 1], #[-1]⟩ ⟨[1], #[-1]⟩ ⟨[1, 1], #[-1]⟩ ⟨[1], #[0]⟩ ⟨[1], #[0]⟩ ⟨0, none⟩ Tolerances.standard =
      .ok ⟨1, 1, s, events⟩ ∧ s.snapshot true = .ok info := by
  obtain ⟨s, events, r, d, hstart, hr, hstatus, -⟩ := Solver.run_line (c := -1) (g := -1) (a := -1) (b := 0)
    (by norm_num) (by norm_num) fun e hone hslope => by linarith
  have hsolver := solver_line hstart
  obtain ⟨hsame, hsnapshots⟩ := observation_passive ⟨[1, 1], #[-1]⟩ ⟨[1], #[-1]⟩ ⟨[1, 1], #[-1]⟩ ⟨[1], #[0]⟩
    ⟨[1], #[0]⟩ ⟨0, none⟩ Tolerances.standard 5000 0 2 (by norm_num : (0 : ℤ) < 50) one_pos none
    (some fun count _ => count + 1) () 0
  obtain ⟨info, hinfo⟩ := (hsnapshots 1 1 s events hsolver).1 0 rfl
  rw [bare_call (by norm_num), if_neg (by norm_num), hsolver] at hsame
  change Except.map _ (Except.map _ (s.run ⟨5000, 0, 50⟩).result) = _ at hsame
  rw [hr] at hsame
  obtain ⟨a, ha, hbare⟩ := map_eq_ok.1 hsame.symm
  exact ⟨a, s, events, info, ha, (congrArg (fun t => t.2.2.status) hbare).trans hstatus, hsolver, hinfo⟩

end Intake

end
end ActiveSet
