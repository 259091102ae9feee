import ActiveSet.Proofs.Certificate
import ActiveSet.Double

/-! The multipliers of rows outside the working set, in any arithmetic. A check gives every such row a zero, and so a
solve that is done has no other multipliers there. But the row that a check then releases keeps the multiplier it was
released for until the next check, and a solve can end before that: of the rows outside the working set at most one,
the one last released, has a multiplier that is not zero. -/

namespace ActiveSet

namespace Solver

variable {α : Type} [Scalar α] {m n : ℕ} {s : Solver α m n}

/-- The rows outside the working set have zero multipliers. -/
def NullOutside (s : Solver α m n) : Prop := ∀ row, row ∉ s.rows.working → s.multipliers row = 0

/-- They do once the solve is done, and else one row may be left to be reset. -/
structure Lagging (s : Solver α m n) : Prop where
  released : ∃ row, ∀ other, other ∉ s.rows.working → other ≠ row → s.multipliers other = 0
  solved : s.done = true → NullOutside s

theorem NullOutside.lagging (h : NullOutside s) : Lagging s := ⟨⟨0, fun other hother _ => h other hother⟩, fun _ => h⟩

theorem check_resets {found : Option ℕ} (h : s.check.result = .ok found) :
    NullOutside s.check.state ∧ (s.check.state.done = true → found = none) := by
  obtain ⟨lam, multipliers, done, -, hspread, hstate, hdecided⟩ := check_cases h
  rw [hstate]
  refine ⟨fun row hrow => spread_of_not_mem hspread hrow, fun hdone => ?_⟩
  rcases hdecided with ⟨-, hfound, -⟩ | ⟨-, -, hfound, -⟩ | ⟨-, -, -, rfl⟩
  · exact hfound
  · exact hfound
  · cases hdone

/-- One that is stopped leaves the multipliers alone or sets all of them to zero. -/
theorem Lagging.check_stopped (hs : Lagging s) {cause : Fault} (h : s.check.result = .error cause) :
    Lagging s.check.state := by
  revert h
  unfold check
  cases s.columnMultipliers with
  | error cause => exact fun _ => hs
  | ok lam =>
    dsimp only
    cases spread (m := m) s.rows.working s.factor.basis.size lam with
    | error cause => exact fun _ => NullOutside.lagging fun row _ => Vec.get_zero row
    | ok multipliers =>
      dsimp only
      split_ifs
      · rw [Outcome.result_reporting]
        exact fun h => nomatch h
      · exact fun h => nomatch h
      · exact fun h => nomatch h

theorem Lagging.add (hs : Lagging s) (idx : ℤ) : Lagging (s.add idx).state := by
  obtain ⟨rows, factor, hstate, hsubset⟩ := s.add_frame idx
  rw [hstate]
  obtain ⟨row, hrow⟩ := hs.released
  exact ⟨⟨row, fun other hother => hrow other fun h => hother (hsubset h)⟩,
    fun hdone other hother => hs.solved hdone other fun h => hother (hsubset h)⟩

/-- The row that is released is the one that keeps its multiplier. -/
theorem NullOutside.remove (hs : NullOutside s) (hdone : s.done = false) (idx : ℤ) : Lagging (s.remove idx).state := by
  obtain ⟨rows, factor, hstate, row, hrow⟩ := s.remove_frame idx
  rw [hstate]
  refine ⟨⟨row, fun other hother hne => hs other fun h => hother (hrow other h hne)⟩, fun h => ?_⟩
  have h : s.done = true := h
  rw [hdone] at h
  cases h

theorem Lagging.settle (hs : Lagging s) : Lagging s.settle.state := by
  unfold Solver.settle
  split_ifs
  · exact ⟨hs.released, hs.solved⟩
  cases hcheck : s.check.result with
  | error cause =>
    rw [(Outcome.andThen_of_error hcheck).2]
    exact hs.check_stopped hcheck
  | ok found =>
    rw [(Outcome.andThen_of_ok hcheck).2]
    obtain ⟨hnull, hfound⟩ := check_resets hcheck
    cases found with
    | none => exact hnull.lagging
    | some idx =>
      refine hnull.remove ?_ idx
      by_contra hdone
      exact nomatch hfound (Bool.eq_true_of_not_eq_false hdone)

theorem Lagging.taken (hs : Lagging s) (step : Step α n) (t : α) : Lagging (s.taken step t).state := by
  have hmoved : Lagging { s with x := s.x.along t step.direction } := ⟨hs.released, hs.solved⟩
  unfold Solver.taken
  cases step.blocking with
  | none => exact hmoved
  | some i => exact hmoved.add i

theorem Lagging.iterate (hs : Lagging s) : Lagging s.iterate.state := by
  cases hstep : s.step with
  | error cause =>
    rw [iterate_fail hstep]
    exact hs
  | ok step =>
    cases hlen : step.length with
    | none =>
      rw [(iterate_of_endless hstep hlen).2]
      exact ⟨hs.released, hs.solved⟩
    | some t =>
      rw [iterate_eq hstep hlen]
      refine Outcome.andThen_keeps (hs.taken step t) fun r _ hr => ?_
      unfold finish
      refine Outcome.andThen_keeps ?_ fun _ _ hr => ⟨hr.released, hr.solved⟩
      split_ifs
      · exact hr.settle
      · exact hr

theorem iterates_stay {q : Solver α m n → Prop} (hstep : ∀ s, q s → q s.iterate.state) (k : ℕ) (hq : q s) :
    q (s.iterates k).state := by
  induction k generalizing s with
  | zero => exact hq
  | succ k ih => exact Outcome.andThen_keeps (hstep s hq) fun t _ ht => ih ht

/-- After any number of iterations and in every report, of the rows outside the working set at most one has a
multiplier that is not zero, and none has once the solve is done. -/
theorem multipliers_outside_working {p : Problem α m n} {x₀ : Vec α n} {bounds : RadiusBounds α} {tol : Tolerances α}
    {events : List (Event α)} (hstart : start p x₀ bounds tol = .ok (s, events)) :
    (∀ k t, (s.iterates k).state = t →
      (∃ row, ∀ other, other ∉ t.rows.working → other ≠ row → t.multipliers other = 0) ∧
        (t.done = true → ∀ row, row ∉ t.rows.working → t.multipliers row = 0)) ∧
    ∀ o r, (s.run o).result = .ok r →
      (∃ row, ∀ other, other ∉ r.working → other ≠ row → r.multipliers other = 0) ∧
        (r.status = .optimal → ∀ row, row ∉ r.working → r.multipliers row = 0) := by
  obtain ⟨-, accepted, -, -, hs⟩ := start_state hstart
  have hlag : Lagging s := by
    rw [hs]
    exact NullOutside.lagging fun row _ => Vec.get_zero row
  refine ⟨fun k t ht => ?_, fun o r hrun => ?_⟩
  · subst ht
    have hlag := iterates_stay (fun _ ht => Lagging.iterate ht) k hlag
    exact ⟨hlag.released, hlag.solved⟩
  · obtain ⟨hsolver, hconclude, hfinal, -, hmult, hworking, -⟩ := run_eq_ok rfl hrun
    have hlag : Lagging (s.run o).state.solver := by
      rw [hfinal]
      exact Watched.loop_stays (q := Lagging) (fun _ hv _ => hv.iterate) _ (by rwa [hsolver])
    rw [hmult, hworking]
    refine ⟨hlag.released, fun hopt => hlag.solved ?_⟩
    rcases Watched.conclude_eq_ok hconclude with ⟨-, hverdict⟩ | ⟨cause, -, -, hstatus⟩
    · rw [hopt, ← hfinal] at hverdict
      exact Watched.done_of_optimal hverdict.symm
    · rw [hopt] at hstatus
      cases hstatus

def reported (p : Problem α m n) (x : Vec α n) (bounds : RadiusBounds α) (o : Options) : Option (Report α m n) :=
  match start p x bounds Tolerances.standard with
  | .error _ => none
  | .ok (s, _) => (s.run o).result.toOption

theorem exists_of_reported {p : Problem α m n} {x : Vec α n} {bounds : RadiusBounds α} {o : Options}
    {test : Report α m n → Bool} (h : (reported p x bounds o).any test = true) : ∃ s events r,
      start p x bounds Tolerances.standard = .ok (s, events) ∧ (s.run o).result = .ok r ∧ test r = true := by
  unfold reported at h
  cases hstart : start p x bounds Tolerances.standard with
  | error cause => simp [hstart] at h
  | ok started =>
    obtain ⟨s, events⟩ := started
    rw [hstart] at h
    dsimp only at h
    cases hrun : (s.run o).result with
    | error cause => simp [hrun, Except.toOption] at h
    | ok r =>
      rw [hrun] at h
      exact ⟨s, events, r, rfl, hrun, h⟩

/-- `1/2 (x² + y²) - y` subject to `2 y - x ≤ 1` and `y ≤ 0`. The way from `(-3, -1)` leads to the first row, and from
there to the second one as well, where the first has the multiplier `-1`. -/
def roof : Problem Float 2 2 where
  P := Mat.ofFn fun i j => if i = j then 1 else 0
  q := Vec.ofFn fun i => if i = 0 then 0 else -1
  A := Mat.ofFn fun i j => if i = 0 then (if j = 0 then -1 else 2) else if j = 0 then 0 else 1
  b := Vec.ofFn fun i => if i = 0 then 1 else 0

def eaves : Vec Float 2 := Vec.ofFn fun i => if i = 0 then -3 else -1

def endsReleased (status : Status) (r : Report Float 2 2) : Bool :=
  decide (r.status = status ∧ r.working = [1] ∧ r.multipliers 0 = -1)

theorem reported_roof :
    (reported roof eaves ⟨0, none⟩ ⟨1, 0, 50⟩).any (endsReleased .maxIter) = true := by decide +kernel

/-- On the roof it is the first row that keeps its multiplier, and no other. -/
theorem multipliers_outside_working_roof : ∃ s events r,
    start roof eaves ⟨0, none⟩ Tolerances.standard = .ok (s, events) ∧ (s.run ⟨1, 0, 50⟩).result = .ok r ∧
      ∀ other, other ∉ r.working → other ≠ 0 → r.multipliers other = 0 := by
  obtain ⟨s, events, r, hstart, hrun, htest⟩ := exists_of_reported reported_roof
  obtain ⟨-, hworking, hkept⟩ := of_decide_eq_true htest
  refine ⟨s, events, r, hstart, hrun, fun other hother hne => ?_⟩
  obtain ⟨⟨row, hrow⟩, -⟩ := (multipliers_outside_working hstart).2 _ r hrun
  have hfirst : row = 0 := by
    by_contra hrow0
    have hzero := hrow 0 (by rw [hworking]; decide) (Ne.symm hrow0)
    rw [hkept] at hzero
    exact absurd hzero (by decide +kernel)
  exact hrow other hother (by rwa [hfirst])

/-- A run whose iterations run out, and one that ends on a radius bound, report a multiplier of a row that is not in
their working set. -/
theorem reports_with_stale_multiplier :
    (∃ s events r, start roof eaves ⟨0, none⟩ Tolerances.standard = .ok (s, events) ∧
      (s.run ⟨1, 0, 50⟩).result = .ok r ∧ r.status = .maxIter ∧ 0 ∉ r.working ∧ r.multipliers 0 ≠ 0) ∧
    ∃ s events r, start roof eaves ⟨0.5, none⟩ Tolerances.standard = .ok (s, events) ∧
      (s.run ⟨5000, 0, 50⟩).result = .ok r ∧ r.status = .radiusBound ∧ 0 ∉ r.working ∧ r.multipliers 0 ≠ 0 := by
  have hstale : ∀ {status : Status} {r : Report Float 2 2}, endsReleased status r = true →
      r.status = status ∧ 0 ∉ r.working ∧ r.multipliers 0 ≠ 0 := by
    intro status r htest
    obtain ⟨hstatus, hworking, hkept⟩ := of_decide_eq_true htest
    rw [hworking, hkept]
    exact ⟨hstatus, by decide, by decide +kernel⟩
  have hradius : (reported roof eaves ⟨0.5, none⟩ ⟨5000, 0, 50⟩).any (endsReleased .radiusBound) = true := by
    decide +kernel
  obtain ⟨s, events, r, hstart, hrun, htest⟩ := exists_of_reported reported_roof
  obtain ⟨s', events', r', hstart', hrun', htest'⟩ := exists_of_reported hradius
  exact ⟨⟨s, events, r, hstart, hrun, hstale htest⟩, s', events', r', hstart', hrun', hstale htest'⟩

end Solver

end ActiveSet
