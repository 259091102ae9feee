import ActiveSet.Proofs.Runs
import ActiveSet.Double

/-! Which faults a run can end with, in any arithmetic. A zero pivot and crossings that cannot be found end a run with a
report. What is passed on is a number that is not finite, a radius whose square is out of range, the refusal to set a
direction free, and, if gaps of the factorizations are asked for, sizes that a breakdown has left apart. With doubles
the first three happen, with the standard thresholds and on data that is finite. -/

namespace ActiveSet

variable {α : Type} [Scalar α] {m n : ℕ}

theorem WorkingSet.Sound.length_workingRows {ρ β : Type} {w : WorkingSet ρ β} (hw : w.Sound) :
    w.workingRows.length = w.working.length := by
  refine List.filterMap_length_eq_length.2 fun i hi => ?_
  have hlt := (hw.mem_iff i).1 (Or.inl hi)
  rw [List.getElem?_eq_getElem hlt]
  rfl

namespace Solver

variable {s : Solver α m n} {cause : Fault}

theorem exists_gap (r c : ℕ) (M N : ℕ → ℕ → α) : ∃ v, gap r c M r c N = .ok v := by
  unfold gap
  rw [stretch?_self, stretch?_self]
  exact ⟨_, rfl⟩

theorem Fits.exists_gaps (hs : Fits s) : ∃ gaps, s.gaps = .ok gaps := by
  unfold Solver.gaps
  dsimp only
  rw [hs.counted.width_eq, hs.sound.length_workingRows, hs.working]
  obtain ⟨curvature, hcurvature⟩ := exists_gap (α := α) s.factor.size s.factor.size _ _
  obtain ⟨orthogonality, horthogonality⟩ := exists_gap (α := α) n n _ _
  obtain ⟨columns, hcolumns⟩ := exists_gap (α := α) n s.factor.basis.size _ _
  exact ⟨_, bind_eq_ok.2 ⟨_, hcurvature, bind_eq_ok.2 ⟨_, horthogonality, bind_eq_ok.2 ⟨_, hcolumns, rfl⟩⟩⟩⟩

theorem gap_eq_error {r c r' c' : ℕ} {M N : ℕ → ℕ → α} (h : gap r c M r' c' N = .error cause) :
    cause = .sizeMismatch := by
  unfold gap at h
  split at h
  · cases h
  · exact (Except.error.inj h).symm

theorem gaps_eq_error (h : s.gaps = .error cause) : cause = .sizeMismatch := by
  rcases bind_eq_error.1 h with h | ⟨_, -, h⟩
  · exact gap_eq_error h
  · rcases bind_eq_error.1 h with h | ⟨_, -, h⟩
    · exact gap_eq_error h
    · rcases bind_eq_error.1 h with h | ⟨_, -, h⟩
      · exact gap_eq_error h
      · cases h

theorem Fits.exists_snapshot (hs : Fits s) (diagnostics : Bool) : ∃ info, s.snapshot diagnostics = .ok info := by
  obtain ⟨gaps, hgaps⟩ := hs.exists_gaps
  unfold Solver.snapshot
  cases diagnostics with
  | false => exact ⟨_, rfl⟩
  | true => exact ⟨_, bind_eq_ok.2 ⟨some gaps, map_eq_ok.2 ⟨gaps, hgaps, rfl⟩, rfl⟩⟩

theorem Fits.result_observe {o : Options} {w : Watched α m n} (hs : Fits w.solver) (header : Bool) :
    (w.observe o header).result = .ok () := by
  obtain ⟨info, hinfo⟩ := hs.exists_snapshot o.detailed
  unfold Watched.observe
  rw [hinfo]

end Solver

namespace Watched

variable {o : Options} {w : Watched α m n}

theorem observe_or (o : Options) (header : Bool) (w : Watched α m n) : (w.observe o header).result = .ok () ∨
    (o.detailed = true ∧ (w.observe o header).result = .error .sizeMismatch) := by
  cases hdetailed : o.detailed with
  | false => exact Or.inl (observe_eq_ok hdetailed header w)
  | true =>
    unfold observe
    cases hsnapshot : w.solver.snapshot o.detailed with
    | ok info => exact Or.inl rfl
    | error cause =>
      refine Or.inr ⟨rfl, ?_⟩
      rw [hdetailed] at hsnapshot
      rcases bind_eq_error.1 hsnapshot with h | ⟨_, -, h⟩
      · rw [Solver.gaps_eq_error (map_eq_error.1 h)]
        rfl
      · cases h

theorem result_turn (hfits : w.solver.iterate.result = .ok () → w.solver.iterate.state.Fits) :
    (w.turn o).result = w.solver.iterate.result := by
  cases h : w.solver.iterate.result with
  | error cause => exact (turn_of_error h).1
  | ok u =>
    unfold turn
    refine Outcome.result_andThen_eq_ok.2 ⟨(), h, ?_⟩
    split_ifs
    · exact Solver.Fits.result_observe (hfits h) _
    · rfl

end Watched

section Runs

variable {o : Options} {q : Solver α m n → Prop} {bad : Fault → Solver α m n → Prop}

/-- If every iteration keeps `q` or is bad, the loop ends with `q` or with a bad iteration. -/
theorem Watched.loop_or {w : Watched α m n} (hfits : ∀ s, q s → s.Fits)
    (hstep : ∀ s, q s → (s.iterate.result = .ok () ∧ q s.iterate.state) ∨
      ∃ cause, s.iterate.result = .error cause ∧ bad cause s.iterate.state) (k : ℕ) (hq : q w.solver) :
    ((w.loop o k).result = .ok () ∧ q (w.loop o k).state.solver) ∨
      ∃ cause, (w.loop o k).result = .error cause ∧ bad cause (w.loop o k).state.solver := by
  induction k generalizing w with
  | zero => exact Or.inl ⟨rfl, hq⟩
  | succ k ih =>
    unfold Watched.loop
    by_cases hundecided : w.undecided o = true
    · rw [if_pos hundecided]
      rcases hstep w.solver hq with ⟨hiterate, hnext⟩ | ⟨cause, hcause, hbad⟩
      · have hturn : (w.turn o).result = .ok () := (Watched.result_turn fun _ => hfits _ hnext).trans hiterate
        obtain ⟨-, hsolver⟩ := Watched.turn_eq_ok hturn
        have hturned : q (w.turn o).state.solver := by rwa [hsolver]
        obtain ⟨hresult, hstate⟩ := Outcome.andThen_of_ok (f := fun w _ => w.loop o k) hturn
        rw [hresult, hstate]
        exact ih hturned
      · have hturn := Watched.turn_of_error (o := o) hcause
        obtain ⟨hresult, hstate⟩ := Outcome.andThen_of_error (f := fun w _ => w.loop o k) hturn.1
        rw [hresult, hstate, hturn.2]
        exact Or.inr ⟨cause, rfl, hbad⟩
    · rw [if_neg hundecided]
      exact Or.inl ⟨rfl, hq⟩

/-- And so a run makes a report of the solver that the loop has left. After a bad iteration it passes the fault on, or
reports it if it is one of the linear algebra, unless the gaps of what is left cannot be formed. -/
theorem Solver.run_or (bad : Fault → Solver α m n → Prop) {s : Solver α m n} (hfits : ∀ s, q s → s.Fits)
    (hstep : ∀ s, q s → (s.iterate.result = .ok () ∧ q s.iterate.state) ∨
      ∃ cause, s.iterate.result = .error cause ∧ bad cause s.iterate.state) (hq : q s) :
    (∃ r, (s.run o).result = .ok r ∧ r.status = Watched.verdict (s.run o).state.solver ∧ q (s.run o).state.solver) ∨
      ∃ cause, bad cause (s.run o).state.solver ∧
        ((cause.isNumerical = false ∧ (s.run o).result = .error cause) ∨
          (cause.isNumerical = true ∧ ((∃ r, (s.run o).result = .ok r) ∨
            (o.detailed = true ∧ (s.run o).result = .error .sizeMismatch)))) := by
  have hsolver := Watched.solver_observe o true ⟨s, []⟩
  have hfirst : (Watched.observe o true ⟨s, []⟩).result = .ok () := Fits.result_observe (hfits s hq) _
  set w := (Watched.observe o true ⟨s, []⟩).state
  set v := (w.loop o (o.maxIter + 1)).state
  have hconclude := Watched.state_conclude (w.loop o (o.maxIter + 1))
  have hlast := Watched.solver_observe o false v
  unfold run
  obtain ⟨hresult, hstate⟩ := Outcome.andThen_of_ok hfirst
  rw [hresult, hstate]
  -- the loop ends well, with a fault that is passed on, or with one that is reported
  rcases w.loop_or (o := o) hfits hstep (o.maxIter + 1) (by rwa [hsolver]) with ⟨hloop, hend⟩ | ⟨cause, hcause, hbad⟩
  · obtain ⟨hresult, hstate⟩ := Outcome.andThen_of_ok (Watched.conclude_of_ok hloop)
    rw [hresult, hstate, hconclude]
    obtain ⟨hresult, hstate⟩ := Outcome.andThen_of_ok (Fits.result_observe (hfits _ hend) false)
    rw [hresult, hstate]
    refine Or.inl ⟨_, rfl, ?_, ?_⟩
    · change Watched.verdict v.solver = Watched.verdict (Watched.observe o false v).state.solver
      rw [hlast]
    · change q (Watched.observe o false v).state.solver
      rwa [hlast]
  refine Or.inr ⟨cause, ?_⟩
  cases hnumerical : cause.isNumerical with
  | false =>
    obtain ⟨hresult, hstate⟩ := Outcome.andThen_of_error (Watched.conclude_of_error hcause hnumerical)
    rw [hresult, hstate, hconclude]
    exact ⟨hbad, Or.inl ⟨rfl, rfl⟩⟩
  | true =>
    have hbroken : (Watched.conclude (w.loop o (o.maxIter + 1))).result = .ok .numericalError := by
      unfold Watched.conclude
      rw [hcause]
      dsimp only
      rw [if_pos hnumerical]
    obtain ⟨hresult, hstate⟩ := Outcome.andThen_of_ok hbroken
    rw [hresult, hstate, hconclude]
    rcases Watched.observe_or o false v with hobserved | ⟨hdetailed, hobserved⟩
    · obtain ⟨hresult, hstate⟩ := Outcome.andThen_of_ok hobserved
      rw [hresult, hstate]
      refine ⟨?_, Or.inr ⟨rfl, Or.inl ⟨_, rfl⟩⟩⟩
      change bad cause (Watched.observe o false v).state.solver
      rwa [hlast]
    · obtain ⟨hresult, hstate⟩ := Outcome.andThen_of_error hobserved
      rw [hresult, hstate]
      refine ⟨?_, Or.inr ⟨rfl, Or.inr ⟨hdetailed, rfl⟩⟩⟩
      rwa [hlast]

end Runs

namespace Solver

variable {p : Problem α m n} {tol : Tolerances α} {s : Solver α m n} {x₀ : Vec α n} {bounds : RadiusBounds α}
  {events : List (Event α)}

theorem counted_initialFactor (tol : Tolerances α) (P : Mat α n n) :
    (initialFactor tol P).state.Counted ∧ (initialFactor tol P).state.basis.size = 0 := by
  rw [state_initialFactor tol P rfl]
  have hF := ReducedFactor.counted_ofFactor (tol.rule P) P
  set F := ReducedFactor.ofFactor (tol.rule P) P OrthogonalFactor.empty
  by_cases h : F.size = 0 ∧ 0 < F.artificial
  · rw [if_pos h]
    have hok := ReducedFactor.remove_of_size_eq_zero (tol.rule P) P h.1 h.2
    rcases hF.remove_or (tol.rule P) P none (fun h0 => absurd h0 h.2.ne') with
      ⟨-, hcounted, hbasis⟩ | ⟨cause, hcause, -⟩ | ⟨hrefused, -⟩
    · rw [if_neg h.2.ne'] at hbasis
      exact ⟨hcounted, hbasis⟩
    · rw [hok] at hcause
      cases hcause
    · rw [hok] at hrefused
      cases hrefused
  · rw [if_neg h]
    exact ⟨hF, rfl⟩

theorem fits_start (hstart : start p x₀ bounds tol = .ok (s, events)) :
    s.Fits ∧ s.tolerances = tol ∧ 0 ≤ tol.projectedGradient := by
  obtain ⟨hvalid, accepted, -, -, rfl⟩ := start_state hstart
  obtain ⟨hcounted, hbasis⟩ := counted_initialFactor tol p.P
  have hrest := Tolerances.magnitudes_nonneg hvalid ("projected_gradient", tol.projectedGradient)
    (by simp [Tolerances.magnitudes])
  exact ⟨⟨hcounted, WorkingSet.sound_start (by rw [length_rows, length_toList]), hbasis.symm⟩, rfl, hrest⟩

/-- What stops an iteration: its numbers break down, or a direction is not set free and the factorization that is left
behind says why. -/
def Stopped (tol : Tolerances α) (bounds : RadiusBounds α) (cause : Fault) (s : Solver α m n) : Prop :=
  Breaks bounds cause ∨
    (cause = .notPositive ∧ 0 < s.factor.size ∧ ¬tol.indefinite < s.factor.d (s.factor.size - 1))

theorem Fits.iterate_stopped {t : Solver α m n} (ht : t.Fits) (halike : Alike s t)
    (hrest : 0 ≤ s.tolerances.projectedGradient) :
    (t.iterate.result = .ok () ∧ t.iterate.state.Fits ∧ Alike s t.iterate.state) ∨
      ∃ cause, t.iterate.result = .error cause ∧ Stopped s.tolerances s.bounds cause t.iterate.state := by
  have htol := halike.1
  have hbounds := halike.2
  rw [← htol] at hrest
  rcases ht.iterate_or hrest with ⟨hok, hfits⟩ | ⟨step, v, -, -, -, -, hrefused⟩ | ⟨cause, hcause, hbreaks⟩
  · exact Or.inl ⟨hok, hfits, halike.iterate⟩
  · refine Or.inr ⟨_, hrefused.result, Or.inr ⟨rfl, ?_⟩⟩
    obtain ⟨htaken, -⟩ := halike.taken step v
    rw [hrefused.factor, ← htaken]
    exact ⟨hrefused.size, hrefused.last⟩
  · rw [hbounds] at hbreaks
    exact Or.inr ⟨cause, hcause, Or.inl hbreaks⟩

/-- In any arithmetic a run from a start that was accepted makes a report, or it is stopped by a number that is not
finite, by a radius bound that is finite while its square is not, by the refusal to set a direction free while the
last curvature is not above the threshold, or, if the gaps of the factorizations are asked for, by sizes that a
breakdown has left apart. -/
theorem faults_of_run (hstart : start p x₀ bounds tol = .ok (s, events)) (o : Options) :
    (∃ r, (s.run o).result = .ok r) ∨ (s.run o).result = .error .notFinite ∨
      ((s.run o).result = .error .overflow ∧
        ∃ radius, (s.bounds.upper = some radius ∨ (0 < s.bounds.lower ∧ s.bounds.lower = radius)) ∧
          Scalar.isFinite radius = true ∧ Scalar.isFinite (radius * radius) = false) ∨
      ((s.run o).result = .error .notPositive ∧ 0 < (s.run o).state.solver.factor.size ∧
        ¬tol.indefinite < (s.run o).state.solver.factor.d ((s.run o).state.solver.factor.size - 1)) ∨
      ((s.run o).result = .error .sizeMismatch ∧ o.detailed = true) := by
  obtain ⟨hs, rfl, hrest⟩ := fits_start hstart
  rcases run_or (Stopped s.tolerances s.bounds) (o := o) (q := fun t => t.Fits ∧ Alike s t) (fun _ ht => ht.1)
    (fun _ ht => ht.1.iterate_stopped ht.2 hrest) ⟨hs, rfl, rfl⟩ with
    ⟨r, hr, -⟩ | ⟨cause, hstopped, ⟨hnumerical, hresult⟩ | ⟨-, ⟨r, hr⟩ | ⟨hdetailed, hresult⟩⟩⟩
  · exact Or.inl ⟨r, hr⟩
  · rcases hstopped with ((⟨rfl, -⟩ | ⟨place, rfl⟩) | rfl | ⟨rfl, hhuge⟩) | ⟨rfl, hlast⟩
    · exact Or.inr (Or.inl hresult)
    · cases hnumerical
    · cases hnumerical
    · exact Or.inr (Or.inr (Or.inl ⟨hresult, hhuge⟩))
    · exact Or.inr (Or.inr (Or.inr (Or.inl ⟨hresult, hlast⟩)))
  · exact Or.inl ⟨r, hr⟩
  · exact Or.inr (Or.inr (Or.inr (Or.inr ⟨hresult, hdetailed⟩)))

def escape (p : Problem α m n) (x : Vec α n) (bounds : RadiusBounds α) (o : Options) : Option Fault :=
  match start p x bounds Tolerances.standard with
  | .error _ => none
  | .ok (s, _) =>
    match (s.run o).result with
    | .error cause => some cause
    | .ok _ => none

theorem exists_of_escape {o : Options} {cause : Fault} (h : escape p x₀ bounds o = some cause) : ∃ s events,
    start p x₀ bounds Tolerances.standard = .ok (s, events) ∧ (s.run o).result = .error cause := by
  unfold escape at h
  cases hstart : start p x₀ bounds Tolerances.standard with
  | error _ => simp [hstart] at h
  | ok started =>
    obtain ⟨s, events⟩ := started
    rw [hstart] at h
    dsimp only at h
    cases hrun : (s.run o).result with
    | error fault =>
      rw [hrun] at h
      exact ⟨s, events, rfl, hrun.trans (congrArg _ (Option.some.inj h))⟩
    | ok _ => simp [hrun] at h

def hill : Problem Float 0 2 :=
  ⟨Mat.ofFn fun i j => if i = j then -1 else 0, Vec.ofFn fun i => if i = 0 then 1 else 0, 0, 0⟩

def curve (c g : Float) : Problem Float 0 1 := ⟨Mat.ofFn fun _ _ => c, Vec.ofFn fun _ => g, 0, 0⟩

/-- The margin is lost in the rounding of a large radius, so a ray that ends on its bound is settled. -/
theorem escape_hill : escape hill 0 ⟨0, some 1073741824⟩ ⟨5000, 0, 50⟩ = some .notPositive := by decide +kernel

theorem faults_of_run_hill : ∃ s events,
    start hill 0 ⟨0, some 1073741824⟩ Tolerances.standard = .ok (s, events) ∧
      (s.run ⟨5000, 0, 50⟩).result = .error .notPositive ∧ 0 < (s.run ⟨5000, 0, 50⟩).state.solver.factor.size ∧
      ¬(Tolerances.standard : Tolerances Float).indefinite < (s.run ⟨5000, 0, 50⟩).state.solver.factor.d
        ((s.run ⟨5000, 0, 50⟩).state.solver.factor.size - 1) := by
  obtain ⟨s, events, hstart, hrun⟩ := exists_of_escape escape_hill
  refine ⟨s, events, hstart, hrun, ?_⟩
  rcases faults_of_run hstart ⟨5000, 0, 50⟩ with ⟨r, hr⟩ | hother | ⟨hother, -⟩ | ⟨-, hlast⟩ | ⟨hother, -⟩
  · rw [hrun] at hr
    cases hr
  · rw [hrun] at hother
    cases hother
  · rw [hrun] at hother
    cases hother
  · exact hlast
  · rw [hrun] at hother
    cases hother

/-- With doubles, finite data and the standard thresholds: a direction is not set free, the square of a radius is out of
range, and a gradient is not finite. -/
theorem runs_without_report :
    (∃ s events, start hill 0 ⟨0, some 1073741824⟩ Tolerances.standard = .ok (s, events) ∧
      (s.run ⟨5000, 0, 50⟩).result = .error .notPositive) ∧
    (∃ s events, start (curve 1 (-1)) 0 ⟨0, some 1e200⟩ Tolerances.standard = .ok (s, events) ∧
      (s.run ⟨5000, 0, 50⟩).result = .error .overflow) ∧
    ∃ s events, start (curve 1e200 0) (Vec.ofFn fun _ => 1e200) ⟨0, none⟩ Tolerances.standard = .ok (s, events) ∧
      (s.run ⟨5000, 0, 50⟩).result = .error .notFinite := by
  refine ⟨exists_of_escape escape_hill, exists_of_escape ?_, exists_of_escape ?_⟩
  · decide +kernel
  · decide +kernel

end Solver

end ActiveSet
