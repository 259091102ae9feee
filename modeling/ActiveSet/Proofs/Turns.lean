import ActiveSet.Proofs.Multipliers

/-! The loop of a solve ends, in any arithmetic. An iteration is stopped by a fault, finds a ray and leaves the point
and the count where they are, or raises the count by one; and the loop goes on only while there is no ray and the count
is within its limit. So the limit on the turns takes nothing away from the loop, and the status of a report follows
from what it has left. -/

namespace ActiveSet

variable {α : Type} [Scalar α] {m n : ℕ}

namespace Solver

variable {s : Solver α m n}

theorem finish_advances (step : Step α n) (s : Solver α m n) :
    (∃ cause, (s.finish step).result = .error cause ∧ (s.finish step).state.iteration = s.iteration ∧
      (s.finish step).state.ray = s.ray) ∨
    ((s.finish step).result = .ok () ∧ (s.finish step).state.iteration = s.iteration + 1 ∧
      (s.finish step).state.ray = s.ray) := by
  obtain ⟨o, ho, hiteration, hray⟩ : ∃ o : Outcome α (Solver α m n) Unit,
      (s.finish step = o.andThen fun r _ => .done { r with iteration := r.iteration + 1 } ()) ∧
        o.state.iteration = s.iteration ∧ o.state.ray = s.ray := by
    refine ⟨if s.settles step then s.settle else .done s (), rfl, ?_⟩
    split_ifs
    · obtain ⟨_, _, _, _, _, hsettle⟩ := s.settle_frame
      rw [hsettle]
      exact ⟨rfl, rfl⟩
    · exact ⟨rfl, rfl⟩
  rw [ho]
  cases hresult : o.result with
  | error cause =>
    obtain ⟨hstopped, hstate⟩ := Outcome.andThen_of_error hresult
    rw [hstopped, hstate]
    exact Or.inl ⟨cause, rfl, hiteration, hray⟩
  | ok u =>
    obtain ⟨hdone, hstate⟩ := Outcome.andThen_of_ok hresult
    rw [hdone, hstate, ← hiteration, ← hray]
    exact Or.inr ⟨rfl, rfl, rfl⟩

/-- An iteration is stopped, or it finds a ray and changes nothing else, or it is counted. -/
theorem iterate_advances (s : Solver α m n) :
    (∃ cause, s.iterate.result = .error cause ∧ s.iterate.state.iteration = s.iteration ∧
      s.iterate.state.ray = s.ray) ∨
    (s.iterate.result = .ok () ∧ ((∃ d, s.iterate.state = { s with ray := some d }) ∨
      (s.iterate.state.iteration = s.iteration + 1 ∧ s.iterate.state.ray = s.ray))) := by
  cases hstep : s.step with
  | error cause =>
    refine Or.inl ⟨cause, ?_⟩
    rw [iterate_fail hstep]
    exact ⟨rfl, rfl, rfl⟩
  | ok step =>
    cases hlen : step.length with
    | none =>
      obtain ⟨hresult, hstate⟩ := iterate_of_endless hstep hlen
      exact Or.inr ⟨hresult, Or.inl ⟨_, hstate⟩⟩
    | some t =>
      rw [iterate_eq hstep hlen]
      obtain ⟨rows, factor, htaken⟩ := s.taken_frame step t
      cases hresult : (s.taken step t).result with
      | error cause =>
        obtain ⟨hstopped, hstate⟩ := Outcome.andThen_of_error (f := fun r _ => r.finish step) hresult
        rw [hstopped, hstate, htaken]
        exact Or.inl ⟨cause, rfl, rfl, rfl⟩
      | ok u =>
        obtain ⟨hdone, hstate⟩ := Outcome.andThen_of_ok (f := fun r _ => r.finish step) hresult
        rw [hdone, hstate]
        have hfinish := finish_advances step (s.taken step t).state
        rw [htaken] at hfinish ⊢
        rcases hfinish with hstopped | ⟨hfinished, hiteration, hray⟩
        · exact Or.inl hstopped
        · exact Or.inr ⟨hfinished, Or.inr ⟨hiteration, hray⟩⟩

theorem iterate_of_bounded (hbounded : s.unbounded = false) : (∃ cause, s.iterate.result = .error cause) ∨
    (s.iterate.result = .ok () ∧ s.unbounded = false ∧ s.iterate.state.unbounded = true ∧
      s.iterate.state.x = s.x ∧ s.iterate.state.iteration = s.iteration) ∨
    (s.iterate.result = .ok () ∧ s.iterate.state.iteration = s.iteration + 1) := by
  rcases s.iterate_advances with ⟨cause, hcause, -⟩ | ⟨hok, ⟨d, hray⟩ | ⟨hcounted, -⟩⟩
  · exact Or.inl ⟨cause, hcause⟩
  · rw [hray]
    exact Or.inr (Or.inl ⟨hok, hbounded, rfl, rfl, rfl⟩)
  · exact Or.inr (Or.inr ⟨hok, hcounted⟩)

theorem iteration_iterate_le (s : Solver α m n) : s.iterate.state.iteration ≤ s.iteration + 1 := by
  rcases s.iterate_advances with ⟨-, -, h, -⟩ | ⟨-, ⟨d, h⟩ | ⟨h, -⟩⟩
  · omega
  · rw [h]
    exact Nat.le_succ _
  · omega

end Solver

namespace Watched

variable {o : Options} {w : Watched α m n} {calls : List (Solver α m n)} {out : Outcome α (Watched α m n) Unit}

/-- From `w` the loop iterates at each of `calls`, one after the other, and leaves `out`. It goes on for as long as
nothing is decided. -/
inductive Loops (o : Options) :
    Watched α m n → List (Solver α m n) → Outcome α (Watched α m n) Unit → Prop where
  | stops {w : Watched α m n} (h : w.undecided o = false) : Loops o w [] (.done w ())
  | faults {w : Watched α m n} {cause : Fault} (h : w.undecided o = true)
      (hturn : (w.turn o).result = .error cause) : Loops o w [w.solver] (w.turn o)
  | turns {w : Watched α m n} {calls : List (Solver α m n)} {out : Outcome α (Watched α m n) Unit}
      (h : w.undecided o = true) (hturn : (w.turn o).result = .ok ())
      (hrest : Loops o (w.turn o).state calls out) :
      Loops o w (w.solver :: calls) ((w.turn o).andThen fun _ _ => out)

theorem undecided_iff : w.undecided o = true ↔ w.solver.done = false ∧ w.solver.unbounded = false ∧
    w.solver.iteration ≤ o.maxIter ∧ w.solver.withinRadius = true := by
  simp [undecided, and_assoc]

theorem Loops.unique (h : Loops o w calls out) {calls' : List (Solver α m n)} {out' : Outcome α (Watched α m n) Unit}
    (h' : Loops o w calls' out') : calls' = calls ∧ out' = out := by
  induction h generalizing calls' out' with
  | stops hdecided =>
    cases h' with
    | stops => exact ⟨rfl, rfl⟩
    | faults hgoes => simp [hdecided] at hgoes
    | turns hgoes => simp [hdecided] at hgoes
  | faults hgoes hturn =>
    cases h' with
    | stops hdecided => simp [hdecided] at hgoes
    | faults => exact ⟨rfl, rfl⟩
    | turns _ hturn' => simp [hturn] at hturn'
  | turns hgoes hturn _ ih =>
    cases h' with
    | stops hdecided => simp [hdecided] at hgoes
    | faults _ hturn' => simp [hturn] at hturn'
    | turns _ _ hrest' =>
      obtain ⟨rfl, rfl⟩ := ih hrest'
      exact ⟨rfl, rfl⟩

theorem turn_advances (hturn : (w.turn o).result = .ok ()) : (w.turn o).state.undecided o = false ∨
    (w.turn o).state.solver.iteration = w.solver.iteration + 1 := by
  obtain ⟨hiterate, hsolver⟩ := turn_eq_ok hturn
  rcases w.solver.iterate_advances with ⟨cause, hcause, -⟩ | ⟨-, ⟨d, hray⟩ | ⟨hcount, -⟩⟩
  · rw [hiterate] at hcause
    cases hcause
  · refine Or.inl (Bool.eq_false_iff.2 fun hgoes => ?_)
    have hunbounded := (undecided_iff.1 hgoes).2.1
    rw [hsolver, hray] at hunbounded
    cases hunbounded
  · exact Or.inr (by rw [hsolver, hcount])

/-- A limit that leaves a turn for each count up to the last one takes nothing away from the loop. -/
theorem exists_loops (k : ℕ) (h : w.undecided o = false ∨ o.maxIter + 1 ≤ w.solver.iteration + k) :
    ∃ calls, Loops o w calls (w.loop o k) := by
  induction k generalizing w with
  | zero =>
    refine ⟨[], .stops ?_⟩
    rcases h with hdecided | hcount
    · exact hdecided
    · refine Bool.eq_false_iff.2 fun hgoes => ?_
      have := (undecided_iff.1 hgoes).2.2.1
      omega
  | succ k ih =>
    by_cases hgoes : w.undecided o = true
    · have hcount : o.maxIter + 1 ≤ w.solver.iteration + (k + 1) := by
        refine h.resolve_left fun hdecided => ?_
        simp [hgoes] at hdecided
      have hloop : w.loop o (k + 1) = (w.turn o).andThen fun v _ => v.loop o k := by
        rw [loop, if_pos hgoes]
      rw [hloop]
      cases hturn : (w.turn o).result with
      | error cause =>
        -- a fault ends the loop, whatever fuel is left
        refine ⟨[w.solver], ?_⟩
        have hstopped : ((w.turn o).andThen fun v _ => v.loop o k) = w.turn o := by
          unfold Outcome.andThen
          rw [hturn]
          exact congrArg (Outcome.mk _ _) hturn.symm
        rw [hstopped]
        exact .faults hgoes hturn
      | ok u =>
        have hnext : (w.turn o).state.undecided o = false ∨ o.maxIter + 1 ≤ (w.turn o).state.solver.iteration + k := by
          rcases turn_advances hturn with hdecided | hcounted
          · exact Or.inl hdecided
          · exact Or.inr (by omega)
        obtain ⟨calls, hrest⟩ := ih hnext
        refine ⟨w.solver :: calls, ?_⟩
        have hgone : ((w.turn o).andThen fun v _ => v.loop o k) =
            (w.turn o).andThen fun _ _ => (w.turn o).state.loop o k := by
          unfold Outcome.andThen
          rw [hturn]
        rw [hgone]
        exact .turns hgoes hturn hrest
    · have hdecided := Bool.eq_false_of_not_eq_true hgoes
      rw [loop_of_decided hdecided]
      exact ⟨[], .stops hdecided⟩

/-- The loop iterates only what is not decided. -/
theorem Loops.undecided_of_mem (h : Loops o w calls out) : ∀ t ∈ calls, t.done = false ∧ t.unbounded = false ∧
    t.iteration ≤ o.maxIter ∧ t.withinRadius = true := by
  induction h with
  | stops => simp
  | faults hgoes => simpa using undecided_iff.1 hgoes
  | turns hgoes _ _ ih => exact List.forall_mem_cons.2 ⟨undecided_iff.1 hgoes, ih⟩

theorem Loops.mem_of_undecided (h : Loops o w calls out) (hgoes : w.undecided o = true) : w.solver ∈ calls := by
  cases h with
  | stops hdecided => simp [hgoes] at hdecided
  | faults => exact List.mem_cons_self
  | turns => exact List.mem_cons_self

/-- A call is made where a number of iterations has got to. -/
theorem Loops.exists_iterates_of_mem (h : Loops o w calls out) : ∀ t ∈ calls,
    ∃ k, (w.solver.iterates k).result = .ok () ∧ (w.solver.iterates k).state = t := by
  induction h with
  | stops => simp
  | faults => simpa using ⟨0, rfl, rfl⟩
  | @turns v _ _ _ hturn _ ih =>
    refine List.forall_mem_cons.2 ⟨⟨0, rfl, rfl⟩, fun t ht => ?_⟩
    obtain ⟨k, hk, hstate⟩ := ih t ht
    obtain ⟨hiterate, hsolver⟩ := turn_eq_ok hturn
    rw [hsolver] at hk hstate
    obtain ⟨hresult, hnext⟩ := Outcome.andThen_of_ok (f := fun s _ => s.iterates k) hiterate
    exact ⟨k + 1, hresult.trans hk, hnext.trans hstate⟩

theorem Loops.length_le (h : Loops o w calls out) (hcount : w.solver.iteration ≤ o.maxIter + 1) :
    w.solver.iteration + calls.length ≤ o.maxIter + 1 := by
  induction h with
  | stops => exact hcount
  | faults hgoes => exact Nat.succ_le_succ (undecided_iff.1 hgoes).2.2.1
  | @turns v _ _ hgoes hturn hrest ih =>
    have hle := (undecided_iff.1 hgoes).2.2.1
    rw [List.length_cons]
    rcases turn_advances hturn with hdecided | hcounted
    · obtain ⟨rfl, -⟩ := hrest.unique (.stops hdecided)
      simpa using hle
    · have := ih (by omega)
      omega

theorem Loops.iteration_le (h : Loops o w calls out) (hcount : w.solver.iteration ≤ o.maxIter + 1) :
    out.state.solver.iteration ≤ o.maxIter + 1 := by
  induction h with
  | stops => exact hcount
  | faults hgoes =>
    have hle := (undecided_iff.1 hgoes).2.2.1
    rw [solver_turn]
    exact (Solver.iteration_iterate_le _).trans (by omega)
  | turns hgoes hturn _ ih =>
    have hle := (undecided_iff.1 hgoes).2.2.1
    rw [(Outcome.andThen_of_ok hturn).2]
    refine ih ?_
    rw [solver_turn]
    exact (Solver.iteration_iterate_le _).trans (by omega)

theorem Loops.decided (h : Loops o w calls out) (hok : out.result = .ok ()) : out.state.undecided o = false := by
  induction h with
  | stops hdecided => exact hdecided
  | faults _ hturn => simp [hturn] at hok
  | turns _ hturn _ ih =>
    obtain ⟨hresult, hstate⟩ := Outcome.andThen_of_ok hturn
    rw [hstate]
    exact ih (hresult.symm.trans hok)

/-- If nothing else is decided the count has passed its limit. -/
theorem Loops.exhausted (h : Loops o w calls out) (hcount : w.solver.iteration ≤ o.maxIter + 1)
    (hok : out.result = .ok ()) (hdone : out.state.solver.done = false) (hbounded : out.state.solver.unbounded = false)
    (hinside : out.state.solver.withinRadius = true) : out.state.solver.iteration = o.maxIter + 1 := by
  have hpast : ¬out.state.solver.iteration ≤ o.maxIter := fun hle =>
    Bool.eq_false_iff.1 (h.decided hok) (undecided_iff.2 ⟨hdone, hbounded, hle, hinside⟩)
  have hlimit := h.iteration_le hcount
  omega

/-- What is left is what the last call has left, or what the loop was entered with. -/
theorem Loops.last (h : Loops o w calls out) : (calls = [] ∧ out.state = w) ∨
    ∃ last, calls.getLast? = some last ∧ out.state.solver = last.iterate.state := by
  induction h with
  | stops => exact Or.inl ⟨rfl, rfl⟩
  | @faults v => exact Or.inr ⟨v.solver, rfl, solver_turn o v⟩
  | @turns v calls _ _ hturn _ ih =>
    rw [(Outcome.andThen_of_ok hturn).2]
    refine Or.inr ?_
    rcases ih with ⟨rfl, hstate⟩ | ⟨last, hlast, hstate⟩
    · exact ⟨v.solver, rfl, by rw [hstate, solver_turn]⟩
    · refine ⟨last, ?_, hstate⟩
      rw [List.getLast?_cons, hlast, Option.getD_some]

def entered (o : Options) (s : Solver α m n) : Watched α m n := (observe o true ⟨s, []⟩).state

theorem solver_entered (o : Options) (s : Solver α m n) : (entered o s).solver = s := solver_observe ..

end Watched

namespace Solver

variable {p : Problem α m n} {x₀ : Vec α n} {bounds : RadiusBounds α} {tol : Tolerances α} {s : Solver α m n}
  {events : List (Event α)} {o : Options} {r : Report α m n}

def looped (o : Options) (s : Solver α m n) : Outcome α (Watched α m n) Unit :=
  (Watched.entered o s).loop o (o.maxIter + 1)

theorem exists_looped (o : Options) (s : Solver α m n) :
    ∃ calls, Watched.Loops o (Watched.entered o s) calls (s.looped o) :=
  Watched.exists_loops _ (Or.inr (Nat.le_add_left ..))

/-- A report is made of what the loop has left, and its status is the verdict on it unless a linear system could not be
solved. -/
theorem run_looped (h : (s.run o).result = .ok r) : (s.run o).state.solver = (s.looped o).state.solver ∧
    r.iterations = (s.looped o).state.solver.iteration ∧
    (((s.looped o).result = .ok () ∧ r.status = Watched.verdict (s.looped o).state.solver) ∨
      ∃ cause, (s.looped o).result = .error cause ∧ cause.isNumerical = true ∧ r.status = .numericalError) := by
  obtain ⟨-, hconclude, hfinal, -⟩ := run_eq_ok (w := Watched.entered o s) rfl h
  refine ⟨hfinal, ?_, Watched.conclude_eq_ok hconclude⟩
  rw [run_report h]
  exact congrArg iteration hfinal

theorem status_eq_maxIter (hcount : s.iteration ≤ o.maxIter + 1) (h : (s.run o).result = .ok r) :
    r.status = .maxIter ↔ (∀ cause, (s.looped o).result = .error cause → cause.isNumerical = false) ∧
      (s.looped o).state.solver.unbounded = false ∧ (s.looped o).state.solver.done = false ∧
      (s.looped o).state.solver.withinRadius = true ∧ r.iterations = o.maxIter + 1 := by
  obtain ⟨calls, hloops⟩ := exists_looped o s
  rw [← Watched.solver_entered o s] at hcount
  obtain ⟨-, hiterations, hstatus⟩ := run_looped h
  constructor
  · intro hmax
    rcases hstatus with ⟨hok, hverdict⟩ | ⟨-, -, -, hbroken⟩
    · obtain ⟨hbounded, hundone, hinside⟩ := Watched.verdict_eq_maxIter.1 (hverdict.symm.trans hmax)
      refine ⟨fun cause hcause => ?_, hbounded, hundone, hinside, ?_⟩
      · rw [hok] at hcause
        cases hcause
      · exact hiterations.trans (hloops.exhausted hcount hok hundone hbounded hinside)
    · rw [hmax] at hbroken
      cases hbroken
  · rintro ⟨hsolved, hbounded, hundone, hinside, -⟩
    rcases hstatus with ⟨-, hverdict⟩ | ⟨cause, hcause, hnumerical, -⟩
    · exact hverdict.trans (Watched.verdict_eq_maxIter.2 ⟨hbounded, hundone, hinside⟩)
    · rw [hsolved cause hcause] at hnumerical
      cases hnumerical

theorem looped_of_optimal (h : (s.run o).result = .ok r) (hopt : r.status = .optimal) :
    (s.looped o).state.solver.done = true ∧ (s.looped o).state.solver.withinRadius = true := by
  obtain ⟨-, -, ⟨-, hverdict⟩ | ⟨-, -, -, hbroken⟩⟩ := run_looped h
  · exact Watched.verdict_eq_optimal (hverdict.symm.trans hopt)
  · rw [hopt] at hbroken
    cases hbroken

/-- In any arithmetic the loop of a run iterates at most once more than its limit says, and goes on until something is
decided. Each iteration is stopped, or finds a ray and moves nothing, or is counted. A report says that the iterations
have run out exactly if no linear system has stopped the loop, nothing else is decided and the count is past the limit;
and it is optimal only if the last iteration found the solve done, away from the radius bounds. -/
theorem runs_within_limit (hstart : start p x₀ bounds tol = .ok (s, events)) (o : Options) :
    ∃ calls, Watched.Loops o (Watched.entered o s) calls (s.looped o) ∧
      (∀ calls' out, Watched.Loops o (Watched.entered o s) calls' out → calls' = calls ∧ out = s.looped o) ∧
      calls.length ≤ o.maxIter + 1 ∧
      (∀ t ∈ calls, (∃ cause, t.iterate.result = .error cause) ∨
        (t.iterate.result = .ok () ∧ t.unbounded = false ∧ t.iterate.state.unbounded = true ∧
          t.iterate.state.x = t.x ∧ t.iterate.state.iteration = t.iteration) ∨
        (t.iterate.result = .ok () ∧ t.iterate.state.iteration = t.iteration + 1)) ∧
      ∀ r final, (s.run o).result = .ok r → (s.run o).state.solver = final →
        r.iterations = final.iteration ∧ r.iterations ≤ o.maxIter + 1 ∧
        (r.status = .maxIter ↔ (∀ cause, (s.looped o).result = .error cause → cause.isNumerical = false) ∧
          final.unbounded = false ∧ final.done = false ∧ final.withinRadius = true ∧ r.iterations = o.maxIter + 1) ∧
        (r.status = .optimal → final.withinRadius = true ∧ final.done = true ∧
          ∃ last, calls.getLast? = some last ∧ last.done = false ∧ last.iterate.state = final) := by
  obtain ⟨-, accepted, -, -, hs⟩ := start_state hstart
  obtain ⟨hfresh, hnot⟩ : s.iteration = 0 ∧ s.done = false := by
    rw [hs]
    exact ⟨rfl, rfl⟩
  have hentered := Watched.solver_entered o s
  have hcount : s.iteration ≤ o.maxIter + 1 := hfresh.trans_le (Nat.zero_le _)
  have hcount' : (Watched.entered o s).solver.iteration ≤ o.maxIter + 1 := by rwa [hentered]
  obtain ⟨calls, hloops⟩ := exists_looped o s
  refine ⟨calls, hloops, fun _ _ => hloops.unique, ?_, fun t ht => ?_, fun r final hrun hfinal => ?_⟩
  · exact (Nat.le_add_left ..).trans (hloops.length_le hcount')
  · exact iterate_of_bounded (hloops.undecided_of_mem t ht).2.1
  obtain ⟨hleft, hiterations, -⟩ := run_looped hrun
  obtain rfl : (s.looped o).state.solver = final := hleft.symm.trans hfinal
  refine ⟨hiterations, hiterations.trans_le (hloops.iteration_le hcount'), status_eq_maxIter hcount hrun,
    fun hopt => ?_⟩
  obtain ⟨hdone, hinside⟩ := looped_of_optimal hrun hopt
  refine ⟨hinside, hdone, ?_⟩
  rcases hloops.last with ⟨-, hstate⟩ | ⟨last, hlast, hstate⟩
  · -- a solve is not done when it starts
    rw [hstate, hentered, hnot] at hdone
    cases hdone
  · exact ⟨last, hlast, (hloops.undecided_of_mem last (List.mem_of_getLast? hlast)).1, hstate.symm⟩

theorem runs_within_limit_roof : ∃ s events r,
    start roof eaves ⟨0, none⟩ Tolerances.standard = .ok (s, events) ∧ (s.run ⟨1, 0, 50⟩).result = .ok r ∧
      r.status = .maxIter ∧ r.iterations = 2 ∧ (s.run ⟨1, 0, 50⟩).state.solver.done = false := by
  obtain ⟨s, events, r, hstart, hrun, htest⟩ := exists_of_reported reported_roof
  obtain ⟨hstatus, -⟩ := of_decide_eq_true htest
  obtain ⟨calls, -, -, -, -, hreport⟩ := runs_within_limit hstart ⟨1, 0, 50⟩
  obtain ⟨-, -, hmax, -⟩ := hreport r _ hrun rfl
  obtain ⟨-, -, hundone, -, hcount⟩ := hmax.1 hstatus
  exact ⟨s, events, r, hstart, hrun, hstatus, hcount, hundone⟩

end Solver

end ActiveSet
