import ActiveSet.Proofs.Faults
import ActiveSet.Proofs.Turns

/-! Which snapshots a run takes, in any arithmetic: one before the first iteration, one whenever the count has come to
a multiple of the interval, and one at the end. The count stands still when a ray is found, so a ray at a multiple of
the interval is reported once more. What a run keeps is what it has handed to its caller. -/

namespace ActiveSet

variable {α σ τ β γ : Type} {m n : ℕ}

namespace Outcome

def Silent (o : Outcome α σ β) : Prop := Event.handed o.events = []

theorem silent_done (s : σ) (b : β) : (done s b : Outcome α σ β).Silent := rfl

theorem silent_fail (s : σ) (cause : Fault) : (fail s cause : Outcome α σ β).Silent := rfl

theorem Silent.within {o : Outcome α σ β} (h : o.Silent) (embed : σ → τ) : (o.within embed).Silent := h

theorem Silent.andThen {o : Outcome α σ β} (h : o.Silent) {next : σ → β → Outcome α σ γ}
    (hnext : ∀ s b, (next s b).Silent) : (o.andThen next).Silent := by
  unfold Outcome.andThen
  cases o.result with
  | error cause => exact h
  | ok b =>
    change Event.handed (o.events ++ (next o.state b).events) = []
    rw [Event.handed_append, h, hnext]
    rfl

theorem Silent.reporting {o : Outcome α σ β} (h : o.Silent) {e : Event α} (he : e.snapshot? = none) :
    (o.reporting e).Silent := by
  unfold Outcome.reporting
  cases o.result with
  | error cause => exact h
  | ok b =>
    change Event.handed (o.events ++ [e]) = []
    rw [Event.handed_append, h]
    simp [Event.handed, he]

end Outcome

open Outcome

theorem WorkingSet.silent_activate {ρ : Type} (w : WorkingSet ρ β) (idx : ℤ) :
    (w.activate idx : Outcome α (WorkingSet ρ β) ℕ).Silent := by
  unfold activate
  dsimp only
  repeat' split
  all_goals rfl

theorem WorkingSet.silent_release {ρ : Type} (w : WorkingSet ρ β) (idx : ℤ) :
    (w.release idx : Outcome α (WorkingSet ρ β) ℕ).Silent := by
  unfold release
  dsimp only
  repeat' split
  all_goals rfl

namespace Watched

variable {w : Watched α m n}

/-- Whatever is added to the history is handed to the caller, and nothing else is. -/
def Recorded (w : Watched α m n) (out : Outcome α (Watched α m n) β) : Prop :=
  out.state.history = w.history ++ Event.handed out.events

theorem Recorded.andThen {out : Outcome α (Watched α m n) β} (h : Recorded w out)
    {next : Watched α m n → β → Outcome α (Watched α m n) γ} (hnext : ∀ v b, Recorded v (next v b)) :
    Recorded w (out.andThen next) := by
  unfold Outcome.andThen
  cases out.result with
  | error cause => exact h
  | ok b =>
    change (next out.state b).state.history = w.history ++ Event.handed (out.events ++ (next out.state b).events)
    rw [hnext, h, Event.handed_append, List.append_assoc]

theorem recorded_done (w : Watched α m n) (b : β) : Recorded w (.done w b) := (List.append_nil _).symm

end Watched

variable [Scalar α]

theorem OrthogonalFactor.silent_remove (F : OrthogonalFactor α n) (idx : ℤ) : (F.remove idx).Silent := by
  unfold OrthogonalFactor.remove
  split_ifs
  · exact (silent_done _ _).reporting rfl
  · exact silent_fail _ _

namespace ReducedFactor

theorem silent_add (rule : CurvatureRule α) (P : Mat α n n) (F : ReducedFactor α n) (a : Vec α n) :
    (F.add rule P a).Silent := by
  unfold add
  dsimp only
  repeat' split
  all_goals rfl

theorem silent_release (F : ReducedFactor α n) (idx : Option ℤ) : (F.release idx).Silent := by
  unfold release
  split_ifs
  · cases idx with
    | none => exact silent_fail _ _
    | some i => exact (OrthogonalFactor.silent_remove _ _).within _
  · cases idx with
    | none => exact silent_done _ _
    | some i => exact (silent_done _ _).reporting rfl

theorem silent_remove (rule : CurvatureRule α) (P : Mat α n n) (F : ReducedFactor α n) (idx : Option ℤ) :
    (F.remove rule P idx).Silent := by
  rw [remove_eq]
  split_ifs
  · exact silent_fail _ _
  · refine (F.silent_release idx).andThen fun G _ => ?_
    unfold regrow
    cases grow rule P F G with
    | error cause => exact silent_fail _ _
    | ok H => exact silent_done _ _

end ReducedFactor

namespace Solver

theorem silent_initialFactor (tol : Tolerances α) (P : Mat α n n) : (initialFactor tol P).Silent := by
  have hbuilt : ∀ F : ReducedFactor α n,
      (⟨F, F.initialEvents, .ok ()⟩ : Outcome α (ReducedFactor α n) Unit).Silent := by
    intro F
    unfold Silent ReducedFactor.initialEvents
    split_ifs
    · rfl
    · rfl
  unfold initialFactor
  dsimp only
  split_ifs
  · exact (hbuilt _).andThen fun F _ => F.silent_remove ..
  · exact hbuilt _

theorem silent_start {p : Problem α m n} {x₀ : Vec α n} {bounds : RadiusBounds α} {tol : Tolerances α}
    {s : Solver α m n} {events : List (Event α)} (h : start p x₀ bounds tol = .ok (s, events)) :
    Event.handed events = [] := by
  unfold start at h
  obtain ⟨⟨⟩, -, h⟩ := bind_eq_ok.1 h
  dsimp only at h
  split_ifs at h
  · cases h
  obtain ⟨accepted, -, h⟩ := bind_eq_ok.1 h
  split_ifs at h
  · cases h
  obtain ⟨⟨⟩, -, h⟩ := bind_eq_ok.1 h
  obtain ⟨-, rfl⟩ := Prod.mk.inj (Except.ok.inj h)
  exact silent_initialFactor tol p.P

theorem silent_add (s : Solver α m n) (idx : ℤ) : (s.add idx).Silent := by
  unfold Solver.add
  split
  · exact silent_fail _ _
  · refine ((ReducedFactor.silent_add ..).within _).andThen fun s _ => ?_
    exact ((WorkingSet.silent_activate ..).within _).andThen fun s _ => (silent_done _ _).reporting rfl

theorem silent_free (s : Solver α m n) (idx : Option ℤ) : (s.free idx).Silent :=
  (ReducedFactor.silent_remove ..).within _

theorem silent_remove (s : Solver α m n) (idx : ℤ) : (s.remove idx).Silent := by
  unfold Solver.remove
  refine ((WorkingSet.silent_release ..).within _).andThen fun s _ => ?_
  exact (s.silent_free _).andThen fun s _ => (silent_done _ _).reporting rfl

theorem silent_check (s : Solver α m n) : s.check.Silent := by
  unfold check
  cases s.columnMultipliers with
  | error cause => exact silent_fail _ _
  | ok lam =>
    dsimp only
    cases spread (m := m) s.rows.working s.factor.basis.size lam with
    | error cause => exact silent_fail _ _
    | ok multipliers =>
      dsimp only
      split_ifs
      · exact (silent_done _ _).reporting rfl
      · exact silent_done _ _
      · exact silent_done _ _

theorem silent_settle (s : Solver α m n) : s.settle.Silent := by
  unfold settle
  split_ifs
  · exact s.silent_free _
  · refine s.silent_check.andThen fun s found => ?_
    cases found with
    | none => exact silent_done _ _
    | some idx => exact s.silent_remove _

theorem silent_iterate (s : Solver α m n) : s.iterate.Silent := by
  cases hstep : s.step with
  | error cause =>
    rw [iterate_fail hstep]
    exact silent_fail _ _
  | ok step =>
    cases hlen : step.length with
    | none =>
      rw [iterate_found hstep hlen]
      exact (silent_done _ _).reporting rfl
    | some t =>
      rw [iterate_eq hstep hlen]
      refine Silent.andThen ?_ fun s _ => Silent.andThen ?_ fun s _ => silent_done _ _
      · unfold taken
        cases step.blocking with
        | none => exact silent_done _ _
        | some i => exact silent_add _ _
      · split_ifs
        · exact s.silent_settle
        · exact silent_done _ _

end Solver

namespace Watched

variable {o : Options} {w : Watched α m n}

theorem observe_cases (o : Options) (header : Bool) (w : Watched α m n) :
    (∃ info, (w.observe o header).result = .ok () ∧ info.iteration = w.solver.iteration ∧
      (w.observe o header).state = { w with history := w.history ++ [info] } ∧
      Event.handed (w.observe o header).events = [info]) ∨
    ∃ cause, (w.observe o header).result = .error cause ∧ cause.isNumerical = false ∧
      (w.observe o header).state = w ∧ (w.observe o header).events = [] := by
  cases hsnapshot : w.solver.snapshot o.detailed with
  | error cause =>
    have hobserve : w.observe o header = .fail w cause := by
      unfold observe
      rw [hsnapshot]
    rw [hobserve]
    refine Or.inr ⟨cause, rfl, ?_, rfl, rfl⟩
    rcases observe_or o header w with hok | ⟨-, hmismatch⟩
    · rw [hobserve] at hok
      cases hok
    · rw [hobserve] at hmismatch
      rw [Except.error.inj hmismatch]
      rfl
  | ok info =>
    refine Or.inl ⟨info, ?_⟩
    have hcount : info.iteration = w.solver.iteration := by
      unfold Solver.snapshot at hsnapshot
      dsimp only at hsnapshot
      split_ifs at hsnapshot
      · obtain ⟨gaps, -, hinfo⟩ := bind_eq_ok.1 hsnapshot
        rw [← Except.ok.inj hinfo]
      · obtain ⟨gaps, -, hinfo⟩ := bind_eq_ok.1 hsnapshot
        rw [← Except.ok.inj hinfo]
    unfold observe
    rw [hsnapshot]
    refine ⟨rfl, hcount, rfl, ?_⟩
    change Event.handed (.shown info :: if 0 < o.verbosity then _ else []) = [info]
    by_cases hprinted : 0 < o.verbosity
    · rw [if_pos hprinted]
      cases header
      · rfl
      · rfl
    · rw [if_neg hprinted]
      rfl

theorem recorded_observe (o : Options) (header : Bool) (w : Watched α m n) : Recorded w (w.observe o header) := by
  unfold Recorded
  rcases observe_cases o header w with ⟨info, -, -, hstate, hhanded⟩ | ⟨cause, -, -, hstate, hevents⟩
  · rw [hstate, hhanded]
  · rw [hstate, hevents]
    exact (List.append_nil _).symm

theorem recorded_turn (o : Options) (w : Watched α m n) : Recorded w (w.turn o) := by
  have hiterate : Recorded w (w.solver.iterate.within fun solver => { w with solver }) := by
    change w.history = w.history ++ Event.handed w.solver.iterate.events
    rw [w.solver.silent_iterate, List.append_nil]
  refine hiterate.andThen fun v _ => ?_
  split_ifs
  · exact recorded_observe ..
  · exact recorded_done ..

theorem recorded_loop (o : Options) (k : ℕ) (w : Watched α m n) : Recorded w (w.loop o k) := by
  induction k generalizing w with
  | zero => exact recorded_done ..
  | succ k ih =>
    unfold loop
    split_ifs
    · exact (recorded_turn o w).andThen fun v _ => ih v
    · exact recorded_done ..

theorem Recorded.conclude {ran : Outcome α (Watched α m n) Unit} (h : Recorded w ran) : Recorded w (conclude ran) := by
  unfold Watched.conclude
  cases ran.result with
  | ok u => exact h
  | error cause =>
    dsimp only
    split_ifs
    · change ran.state.history = w.history ++ Event.handed (ran.events ++ _)
      rw [Event.handed_append, h]
      exact congrArg (w.history ++ ·) (List.append_nil _).symm
    · exact h

theorem recorded_run (o : Options) (s : Solver α m n) : Recorded ⟨s, []⟩ (s.run o) := by
  refine (recorded_observe ..).andThen fun v _ => ?_
  refine (recorded_loop ..).conclude.andThen fun v status => ?_
  exact (recorded_observe ..).andThen fun v _ => recorded_done ..

def due (k N : ℕ) : List ℕ := (List.range (N / k)).map fun i => (i + 1) * k

theorem due_succ (k N : ℕ) : due k (N + 1) = due k N ++ if k ∣ N + 1 then [N + 1] else [] := by
  unfold due
  rw [Nat.succ_div]
  split_ifs with hdvd
  · have hlast : (N / k + 1) * k = N + 1 := by
      rw [← Nat.div_mul_cancel hdvd, Nat.succ_div, if_pos hdvd]
    rw [List.range_succ, List.map_append, List.map_singleton, hlast]
  · simp

/-- The snapshots of a loop so far: at the start, when one was due, and once more at a ray that was found when one was
due. -/
def Accounted (k : ℕ) (w : Watched α m n) : Prop :=
  w.history.map Snapshot.iteration = 0 :: due k w.solver.iteration ++
    if w.solver.unbounded = true ∧ k ∣ w.solver.iteration then [w.solver.iteration] else []

/-- After an iteration that goes through a turn takes a snapshot if one is due, and else ends there. -/
theorem turn_observes (h : w.solver.iterate.result = .ok ()) {v : Watched α m n}
    (hv : { w with solver := w.solver.iterate.state } = v) :
    (o.interval ∣ v.solver.iteration ∧ ∃ header, (w.turn o).result = (v.observe o header).result ∧
      (w.turn o).state = (v.observe o header).state) ∨
    (¬o.interval ∣ v.solver.iteration ∧ (w.turn o).result = .ok () ∧ (w.turn o).state = v) := by
  subst hv
  have hturn : (w.turn o).result = _ ∧ (w.turn o).state = _ :=
    Outcome.andThen_of_ok (o := Outcome.within _ fun solver => ({ w with solver } : Watched α m n)) h
  split_ifs at hturn with hdue
  · exact Or.inl ⟨Nat.dvd_of_mod_eq_zero hdue, _, hturn⟩
  · exact Or.inr ⟨fun hdvd => hdue (Nat.mod_eq_zero_of_dvd hdvd), hturn⟩

theorem history_turn (h : w.solver.iterate.result = .ok ())
    (hcaught : ∀ cause, (w.turn o).result = .error cause → cause.isNumerical = true) :
    (w.turn o).state.history.map Snapshot.iteration = w.history.map Snapshot.iteration ++
      if o.interval ∣ w.solver.iterate.state.iteration then [w.solver.iterate.state.iteration] else [] := by
  rcases turn_observes (o := o) h rfl with ⟨hdue, header, hresult, hstate⟩ | ⟨hdue, -, hstate⟩
  · rw [hstate, if_pos hdue]
    rcases observe_cases o header { w with solver := w.solver.iterate.state } with
      ⟨info, -, hcount, hobserved, -⟩ | ⟨cause, hcause, hpassed, -⟩
    · rw [hobserved, List.map_append, List.map_singleton, hcount]
    · rw [hcaught cause (hresult.trans hcause)] at hpassed
      cases hpassed
  · rw [hstate, if_neg hdue, List.append_nil]

/-- A turn that a fault of its iteration has stopped takes no snapshot and leaves the count, and one that goes through
takes those that are due. -/
theorem Accounted.turn (hw : Accounted o.interval w) (hbounded : w.solver.unbounded = false)
    (hcaught : ∀ cause, (w.turn o).result = .error cause → cause.isNumerical = true) :
    Accounted o.interval (w.turn o).state := by
  have hplain : w.history.map Snapshot.iteration = 0 :: due o.interval w.solver.iteration := by
    simpa [Accounted, hbounded] using hw
  unfold Accounted
  rw [solver_turn]
  rcases w.solver.iterate_advances with ⟨cause, hcause, hcount, hray⟩ | ⟨hok, ⟨d, hray⟩ | ⟨hcount, hray⟩⟩
  · have hbounded' : w.solver.iterate.state.unbounded = false := by
      rw [Solver.unbounded, hray]
      exact hbounded
    rw [(turn_of_error hcause).2, hplain, hcount, hbounded']
    simp
  · -- the count stands still, so the snapshot that is due at it is taken again
    rw [history_turn hok hcaught, hplain, hray]
    simp [Solver.unbounded]
  · have hbounded' : w.solver.iterate.state.unbounded = false := by
      rw [Solver.unbounded, hray]
      exact hbounded
    rw [history_turn hok hcaught, hplain, hcount, due_succ, hbounded']
    simp

theorem Loops.accounted {calls : List (Solver α m n)} {out : Outcome α (Watched α m n) Unit} (h : Loops o w calls out)
    (hcaught : ∀ cause, out.result = .error cause → cause.isNumerical = true) (hw : Accounted o.interval w) :
    Accounted o.interval out.state := by
  induction h with
  | stops => exact hw
  | faults hgoes hturn => exact hw.turn (undecided_iff.1 hgoes).2.1 hcaught
  | turns hgoes hturn _ ih =>
    obtain ⟨hresult, hstate⟩ := Outcome.andThen_of_ok hturn
    rw [hstate]
    refine ih (fun cause hcause => hcaught cause (hresult.trans hcause)) ?_
    refine hw.turn (undecided_iff.1 hgoes).2.1 fun cause hcause => ?_
    rw [hturn] at hcause
    cases hcause

/-- A linear system that cannot be solved leaves no ray behind. -/
theorem Loops.unbounded_of_error {calls : List (Solver α m n)} {out : Outcome α (Watched α m n) Unit} {cause : Fault}
    (h : Loops o w calls out) (hcause : out.result = .error cause) (hnumerical : cause.isNumerical = true) :
    out.state.solver.unbounded = false := by
  induction h with
  | stops => cases hcause
  | @faults v _ hgoes _ =>
    rw [solver_turn]
    rcases v.solver.iterate_advances with ⟨-, -, -, hray⟩ | ⟨hok, -⟩
    · rw [Solver.unbounded, hray]
      exact (undecided_iff.1 hgoes).2.1
    · -- an iteration that went through was stopped by its snapshot
      rcases turn_observes (o := o) hok rfl with ⟨-, header, hresult, -⟩ | ⟨-, hresult, -⟩
      · rcases observe_cases o header { v with solver := v.solver.iterate.state } with
          ⟨-, hobserved, -⟩ | ⟨other, hother, hpassed, -⟩
        · rw [hresult, hobserved] at hcause
          cases hcause
        · rw [hresult, hother] at hcause
          rw [Except.error.inj hcause, hnumerical] at hpassed
          cases hpassed
      · rw [hresult] at hcause
        cases hcause
  | turns _ hturn _ ih =>
    obtain ⟨hresult, hstate⟩ := Outcome.andThen_of_ok hturn
    rw [hstate]
    exact ih (hresult.symm.trans hcause)

end Watched

namespace Solver

variable {p : Problem α m n} {x₀ : Vec α n} {bounds : RadiusBounds α} {tol : Tolerances α} {s : Solver α m n}
  {events : List (Event α)} {o : Options} {r : Report α m n}

theorem run_observes (h : (s.run o).result = .ok r) : (Watched.observe o true ⟨s, []⟩).result = .ok () ∧
    ((s.looped o).state.observe o false).result = .ok () ∧
    (s.run o).state = ((s.looped o).state.observe o false).state := by
  unfold run at h ⊢
  obtain ⟨⟨⟩, hfirst, h, hstate⟩ := Outcome.andThen_eq_ok h
  obtain ⟨status, -, h, hstate'⟩ := Outcome.andThen_eq_ok h
  rw [Watched.state_conclude] at h hstate'
  obtain ⟨⟨⟩, hlast, -, hstate''⟩ := Outcome.andThen_eq_ok h
  exact ⟨hfirst, hlast, hstate.trans (hstate'.trans hstate'')⟩

theorem accounted_entered (hcount : s.iteration = 0) (hbounded : s.unbounded = false) (k : ℕ)
    (h : (Watched.observe o true ⟨s, []⟩).result = .ok ()) : (Watched.entered o s).Accounted k := by
  rcases Watched.observe_cases o true ⟨s, []⟩ with ⟨info, -, hinfo, hstate, -⟩ | ⟨cause, hcause, -⟩
  · have hentered : Watched.entered o s = ⟨s, [info]⟩ := hstate
    rw [hentered, Watched.Accounted, List.map_singleton, hinfo, hcount, hbounded]
    simp [Watched.due]
  · rw [h] at hcause
    cases hcause

theorem status_eq_unbounded (h : (s.run o).result = .ok r) :
    r.status = .unbounded ↔ (s.looped o).state.solver.unbounded = true := by
  obtain ⟨calls, hloops⟩ := exists_looped o s
  obtain ⟨-, -, ⟨-, hverdict⟩ | ⟨cause, hcause, hnumerical, hbroken⟩⟩ := run_looped h
  · rw [hverdict, Watched.verdict_eq_unbounded]
  · rw [hbroken, hloops.unbounded_of_error hcause hnumerical]
    simp

theorem accounted_looped (hstart : start p x₀ bounds tol = .ok (s, events)) (h : (s.run o).result = .ok r) :
    (s.looped o).state.Accounted o.interval := by
  obtain ⟨-, accepted, -, -, hs⟩ := start_state hstart
  obtain ⟨hcount, hbounded⟩ : s.iteration = 0 ∧ s.unbounded = false := by
    rw [hs]
    exact ⟨rfl, rfl⟩
  obtain ⟨calls, hloops⟩ := exists_looped o s
  refine hloops.accounted (fun cause hcause => ?_) (accounted_entered hcount hbounded _ (run_observes h).1)
  obtain ⟨-, -, ⟨hok, -⟩ | ⟨other, hother, hnumerical, -⟩⟩ := run_looped h
  · rw [hok] at hcause
    cases hcause
  · rw [hother] at hcause
    rwa [← Except.error.inj hcause]

/-- In any arithmetic the snapshots of a report are one at the start, one at each multiple of the interval up to the
count of the report, another one there if a ray was found at a multiple, and one at the end. They are what the caller
was handed, in the same order. -/
theorem snapshots_of_report (hstart : start p x₀ bounds tol = .ok (s, events)) (hrun : (s.run o).result = .ok r) :
    r.history.map Snapshot.iteration =
      0 :: (List.range (r.iterations / o.interval)).map (fun i => (i + 1) * o.interval) ++
        (if r.status = .unbounded ∧ o.interval ∣ r.iterations then [r.iterations] else []) ++ [r.iterations] ∧
    r.history.length = 2 + r.iterations / o.interval +
      (if r.status = .unbounded ∧ o.interval ∣ r.iterations then 1 else 0) ∧
    Event.handed (events ++ (s.run o).events) = r.history := by
  obtain ⟨-, hlast, hstate⟩ := run_observes hrun
  obtain ⟨-, hiterations, -⟩ := run_looped hrun
  have hhistory : r.history = (s.run o).state.history := congrArg Report.history (run_report hrun)
  have hcounts : r.history.map Snapshot.iteration =
      0 :: (List.range (r.iterations / o.interval)).map (fun i => (i + 1) * o.interval) ++
        (if r.status = .unbounded ∧ o.interval ∣ r.iterations then [r.iterations] else []) ++ [r.iterations] := by
    rcases Watched.observe_cases o false (s.looped o).state with ⟨info, -, hinfo, hobserved, -⟩ | ⟨cause, hcause, -⟩
    · simp only [hhistory, hstate, hobserved, List.map_append, List.map_singleton, hinfo, status_eq_unbounded hrun,
        hiterations]
      rw [accounted_looped hstart hrun]
      rfl
    · rw [hlast] at hcause
      cases hcause
  refine ⟨hcounts, ?_, ?_⟩
  · rw [← List.length_map (f := Snapshot.iteration), hcounts]
    split_ifs
    · simp; omega
    · simp; omega
  · rw [Event.handed_append, silent_start hstart, hhistory, Watched.recorded_run o s]

/-- `1/2 x² - x - y`, which has its minimum along the first axis and none along the second. -/
def gutter : Problem Float 0 2 :=
  ⟨Mat.ofFn fun i j => if i = 0 ∧ j = 0 then 1 else 0, Vec.ofFn fun _ => -1, 0, 0⟩

theorem reported_gutter : (reported gutter 0 ⟨0, none⟩ ⟨5000, 0, 1⟩).any
    (fun r => decide (r.status = .unbounded ∧ r.iterations = 1)) = true := by decide +kernel

/-- The first iteration goes down to the gutter, and the second one finds the ray along it. -/
theorem snapshots_of_report_gutter : ∃ s events r,
    start gutter 0 ⟨0, none⟩ Tolerances.standard = .ok (s, events) ∧ (s.run ⟨5000, 0, 1⟩).result = .ok r ∧
      r.history.map Snapshot.iteration = [0, 1, 1, 1] ∧
      (Event.handed (events ++ (s.run ⟨5000, 0, 1⟩).events)).length = 4 := by
  obtain ⟨s, events, r, hstart, hrun, htest⟩ := exists_of_reported reported_gutter
  obtain ⟨hstatus, hcount⟩ := of_decide_eq_true htest
  obtain ⟨hcounts, hlength, hhanded⟩ := snapshots_of_report hstart hrun
  rw [hstatus, hcount] at hcounts hlength
  refine ⟨s, events, r, hstart, hrun, hcounts, ?_⟩
  rw [hhanded, hlength]
  rfl

end Solver

end ActiveSet
