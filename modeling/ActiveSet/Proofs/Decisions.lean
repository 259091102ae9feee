import ActiveSet.Proofs.Atomicity
import ActiveSet.Proofs.Cycling
import ActiveSet.Proofs.Multipliers

/-! How long a solve can go on without a decision, in any arithmetic. A row that blocks a step takes up a factored
direction, whatever the numbers, and where none is left a step rests and is settled. So within as many iterations as
there are factored directions one is stopped by a fault, finds a ray, ends near a radius bound, or settles, and
settling sets an artificial direction free or makes a check. No iteration makes a direction artificial. -/

namespace ActiveSet

variable {α : Type} [Scalar α] {m n : ℕ}

namespace Solver

variable {p : Problem α m n} {x₀ : Vec α n} {bounds : RadiusBounds α} {tol : Tolerances α} {s r t : Solver α m n}
  {events : List (Event α)} {step : Step α n}

/-- Also where it is refused, taking up a row leaves the factorization that its normal leaves. -/
theorem factor_add {i row : ℕ} (hrow : s.rows.ignored[i]? = some row) :
    (s.add i).state.factor = (s.factor.add s.rule s.problem.P (s.problem.A.row row)).state := by
  have hi := (List.getElem?_eq_some_iff.1 hrow).1
  unfold Solver.add
  rw [Position.resolve?_ofNat hi, Option.bind_some, hrow]
  refine Outcome.andThen_keeps (q := fun t : Solver α m n => t.factor = _) rfl fun t _ ht => ?_
  refine Outcome.andThen_keeps (q := fun t : Solver α m n => t.factor = _) ht fun t _ ht => ?_
  rwa [Outcome.state_reporting]

theorem Fits.taken_sizes (hs : Fits s) (hrest : 0 ≤ s.tolerances.projectedGradient) (hstep : s.step = .ok step) {i : ℕ}
    (hblock : step.blocking = some i) (u : α) : s.factor.basis.size < n ∧ 0 < s.factor.size ∧
      (s.taken step u).state.factor.size + 1 = s.factor.size ∧
      (s.taken step u).state.factor.artificial = s.factor.artificial := by
  obtain ⟨hsize, hi⟩ := hs.blocking_lt hrest hstep hblock
  have hcount := hs.counted
  unfold ReducedFactor.Counted at hcount
  refine ⟨by omega, hsize, ?_⟩
  unfold taken
  rw [hblock]
  dsimp only
  rw [factor_add (s := { s with x := s.x.along u step.direction }) (List.getElem?_eq_getElem hi)]
  exact hs.counted.add_sizes hsize _ _ _

theorem Fits.artificial_taken (hs : Fits s) (hrest : 0 ≤ s.tolerances.projectedGradient) (hstep : s.step = .ok step)
    (u : α) : (s.taken step u).state.factor.artificial = s.factor.artificial := by
  cases hblock : step.blocking with
  | none =>
    unfold taken
    rw [hblock]
    rfl
  | some i => exact (hs.taken_sizes hrest hstep hblock u).2.2.2

theorem artificial_remove_le (s : Solver α m n) (idx : ℤ) :
    (s.remove idx).state.factor.artificial ≤ s.factor.artificial := by
  unfold remove
  refine Outcome.andThen_keeps (q := fun t : Solver α m n => t.factor.artificial ≤ s.factor.artificial) le_rfl
    fun t _ ht => ?_
  refine Outcome.andThen_keeps (q := fun t : Solver α m n => t.factor.artificial ≤ s.factor.artificial)
    ((ReducedFactor.artificial_remove_le ..).trans ht) fun t _ ht => ?_
  rwa [Outcome.state_reporting]

theorem artificial_settle_le (s : Solver α m n) : s.settle.state.factor.artificial ≤ s.factor.artificial := by
  unfold settle
  split_ifs
  · exact ReducedFactor.artificial_remove_le ..
  · obtain ⟨multipliers, residual, done, hcheck⟩ := check_state (s := s)
    refine Outcome.andThen_keeps (q := fun t : Solver α m n => t.factor.artificial ≤ s.factor.artificial)
      (by rw [hcheck]) fun t found ht => ?_
    cases found with
    | none => exact ht
    | some idx => exact (t.artificial_remove_le idx).trans ht

theorem artificial_finish_le (step : Step α n) (s : Solver α m n) :
    (s.finish step).state.factor.artificial ≤ s.factor.artificial := by
  unfold finish
  refine Outcome.andThen_keeps (q := fun t : Solver α m n => t.factor.artificial ≤ s.factor.artificial) ?_
    fun _ _ ht => ht
  split_ifs
  · exact s.artificial_settle_le
  · exact le_rfl

theorem Fits.artificial_iterate_le (hs : Fits s) (hrest : 0 ≤ s.tolerances.projectedGradient) :
    s.iterate.state.factor.artificial ≤ s.factor.artificial := by
  cases hstep : s.step with
  | error cause =>
    rw [iterate_fail hstep]
    exact le_rfl
  | ok step =>
    cases hlen : step.length with
    | none => rw [(iterate_of_endless hstep hlen).2]
    | some u =>
      rw [iterate_eq hstep hlen]
      exact Outcome.andThen_keeps (q := fun t : Solver α m n => t.factor.artificial ≤ s.factor.artificial)
        (hs.artificial_taken hrest hstep u).le fun t _ ht => (t.artificial_finish_le step).trans ht

/-- What an iteration can come to, except for a row that has blocked its step. -/
inductive Decides (s : Solver α m n) : Prop where
  | fault {cause : Fault} (h : s.iterate.result = .error cause)
  | ray {step : Step α n} (hstep : s.step = .ok step) (hlen : step.length = none)
  | outside (h : s.iterate.state.withinRadius = false)
  | frees (h : s.iterate.state.factor.artificial + 1 = s.factor.artificial)
  | checks {r : Solver α m n} (h : SettlesAt s r) (hart : r.factor.artificial = 0)

theorem Fits.decides_or (hs : Fits s) (hrest : 0 ≤ s.tolerances.projectedGradient) : Decides s ∨
    (s.iterate.result = .ok () ∧ s.iterate.state.factor.size + 1 = s.factor.size ∧
      0 < s.iterate.state.factor.size) := by
  cases hresult : s.iterate.result with
  | error cause => exact Or.inl (.fault hresult)
  | ok done =>
    obtain ⟨step, hstep, ⟨hlen, -⟩ | ⟨u, hlen, htaken, q, hq, hstate⟩⟩ := iterate_cases hresult
    · exact Or.inl (.ray hstep hlen)
    rcases hq with ⟨hnot, rfl⟩ | ⟨hsettles, hsettle, rfl⟩
    · cases hwithin : (s.taken step u).state.withinRadius with
      | false =>
        refine Or.inl (.outside ?_)
        rw [hstate]
        exact hwithin
      | true =>
        -- inside the bounds only a row that leaves some direction free keeps a step from being settled
        have hblocked : step.blocking ≠ none ∧ (s.taken step u).state.factor.size ≠ 0 := by
          simpa [settles, hwithin] using hnot
        obtain ⟨i, hi⟩ := Option.ne_none_iff_exists'.1 hblocked.1
        obtain ⟨-, -, hsize, -⟩ := hs.taken_sizes hrest hstep hi u
        rw [hstate]
        exact Or.inr ⟨rfl, hsize, Nat.pos_of_ne_zero hblocked.2⟩
    · rcases settle_cases hsettle with ⟨hart, hfree, hsettled⟩ | ⟨hart, -⟩
      · refine Or.inl (.frees ?_)
        rw [hstate, ← hs.artificial_taken hrest hstep u]
        change (s.taken step u).state.settle.state.factor.artificial + 1 = _
        rw [hsettled]
        exact ReducedFactor.artificial_remove_of_pos hart hfree
      · exact Or.inl (.checks ⟨step, u, hstep, hlen, htaken, rfl, hsettles⟩ hart)

theorem Fits.iterate (hs : Fits s) (hrest : 0 ≤ s.tolerances.projectedGradient) (h : s.iterate.result = .ok ()) :
    Fits s.iterate.state := by
  rcases hs.iterate_or hrest with ⟨-, hfits⟩ | ⟨_, _, _, _, _, _, hrefused⟩ | ⟨cause, hcause, -⟩
  · exact hfits
  · cases h.symm.trans hrefused.result
  · cases h.symm.trans hcause

/-- With `k` factored directions a decision comes within `k` iterations, or with the next one if there is none. -/
theorem Fits.exists_decides (hs : Fits s) (hrest : 0 ≤ s.tolerances.projectedGradient) {k : ℕ}
    (hk : s.factor.size = k) : ∃ j < max k 1, (s.iterates j).result = .ok () ∧ Decides (s.iterates j).state := by
  induction k generalizing s with
  | zero =>
    rcases hs.decides_or hrest with hdecides | ⟨-, hsize, -⟩
    · exact ⟨0, Nat.lt_of_lt_of_le one_pos (le_max_right _ _), rfl, hdecides⟩
    · omega
  | succ k ih =>
    rcases hs.decides_or hrest with hdecides | ⟨hok, hsize, hpos⟩
    · exact ⟨0, Nat.lt_of_lt_of_le one_pos (le_max_right _ _), rfl, hdecides⟩
    · obtain ⟨htol, -⟩ := Alike.iterate (s := s) (t := s) ⟨rfl, rfl⟩
      obtain ⟨j, hj, hresult, hdecides⟩ := ih (hs.iterate hrest hok) (by rwa [htol]) (by omega)
      obtain ⟨hnext, hstate⟩ := Outcome.andThen_of_ok (f := fun s _ => s.iterates j) hok
      refine ⟨j + 1, by omega, hnext.trans hresult, ?_⟩
      rwa [show (s.iterates (j + 1)).state = _ from hstate]

theorem Fits.iterates (hs : Fits s) (hrest : 0 ≤ s.tolerances.projectedGradient) (k : ℕ)
    (h : (s.iterates k).result = .ok ()) : Fits (s.iterates k).state ∧ Alike s (s.iterates k).state :=
  iterates_keep (q := fun t => Fits t ∧ Alike s t)
    (fun t ht h => ⟨ht.1.iterate (by rwa [ht.2.1]) h, ht.2.iterate⟩) k ⟨hs, rfl, rfl⟩ h

theorem Fits.antitone_artificial (hs : Fits s) (hrest : 0 ≤ s.tolerances.projectedGradient) :
    Antitone fun k => (s.iterates k).state.factor.artificial := by
  refine antitone_nat_of_succ_le fun k => ?_
  rw [iterates_succ]
  cases hresult : (s.iterates k).result with
  | error cause => rw [(Outcome.andThen_of_error hresult).2]
  | ok done =>
    obtain ⟨hfits, halike⟩ := hs.iterates hrest k hresult
    rw [(Outcome.andThen_of_ok hresult).2]
    exact hfits.artificial_iterate_le (by rwa [halike.1])

/-- From every state that iterations reach, one of the next iterations, as many as there are factored directions but at
least one, comes to a decision, and those before it go through. A row that blocks a step on the way finds room in the
basis and takes up exactly one of the factored directions, of which there is one. And there are never more artificial
directions than before. -/
theorem stretches_end (hstart : start p x₀ bounds tol = .ok (s, events)) :
    (∀ k t, (s.iterates k).result = .ok () → (s.iterates k).state = t →
      (∃ j < max t.factor.size 1, (t.iterates j).result = .ok () ∧ Decides (t.iterates j).state) ∧
      ∀ step u i, t.step = .ok step → step.length = some u → step.blocking = some i →
        0 < t.factor.size ∧ t.factor.basis.size < n ∧ (t.taken step u).state.factor.size + 1 = t.factor.size) ∧
    Antitone fun k => (s.iterates k).state.factor.artificial := by
  obtain ⟨hs, htol, hrest⟩ := fits_start hstart
  rw [← htol] at hrest
  refine ⟨fun k t h ht => ?_, hs.antitone_artificial hrest⟩
  subst ht
  obtain ⟨hfits, halike⟩ := hs.iterates hrest k h
  have hrest : 0 ≤ (s.iterates k).state.tolerances.projectedGradient := by rwa [halike.1]
  refine ⟨hfits.exists_decides hrest rfl, fun step u i hstep _ hblock => ?_⟩
  obtain ⟨hroom, hpos, hsize, -⟩ := hfits.taken_sizes hrest hstep hblock u
  exact ⟨hpos, hroom, hsize⟩

theorem stretches_end_roof : ∃ s events, start roof eaves ⟨0, none⟩ Tolerances.standard = .ok (s, events) ∧
    s.factor.size = 2 ∧ (s.iterates 1).state.factor.size = 1 ∧
      ∃ j < 2, (s.iterates j).result = .ok () ∧ Decides (s.iterates j).state := by
  have hfirst : ((after roof eaves 0).any fun t => decide (t.factor.size = 2)) = true := by decide +kernel
  have hsecond : ((after roof eaves 1).any fun t => decide (t.factor.size = 1)) = true := by decide +kernel
  obtain ⟨s, events, hstart, -, hsize⟩ := exists_of_after hfirst
  obtain ⟨s', events', hstart', -, hsize'⟩ := exists_of_after hsecond
  obtain ⟨rfl, -⟩ := Prod.mk.inj (Except.ok.inj (hstart.symm.trans hstart'))
  have hsize : s.factor.size = 2 := of_decide_eq_true hsize
  obtain ⟨hstretch, -⟩ := stretches_end hstart
  obtain ⟨⟨j, hj, hresult, hdecides⟩, -⟩ := hstretch 0 s rfl rfl
  exact ⟨s, events, hstart, hsize, of_decide_eq_true hsize', j, by omega, hresult, hdecides⟩

end Solver

end ActiveSet
