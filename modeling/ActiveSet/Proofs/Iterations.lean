import ActiveSet.Proofs.Certificate

/-! After any number of iterations. What one iteration keeps they all keep: the lists, the columns and the
factorizations agree, every row holds, the working rows are independent, and no linear system has stopped the solve. -/

namespace ActiveSet

noncomputable section
open Exact

variable {m n : ℕ}

namespace Solver

variable {p : Problem ℝ m n} {tol : Tolerances ℝ} {s t : Solver ℝ m n} {x₀ : Vec ℝ n} {bounds : RadiusBounds ℝ}
  {events : List (Event ℝ)} {d : Vec ℝ n}

section

variable {α : Type} [Scalar α] {s : Solver α m n}

theorem iterates_keep {q : Solver α m n → Prop}
    (hstep : ∀ s, q s → s.iterate.result = .ok () → q s.iterate.state) (k : ℕ) (hq : q s)
    (h : (s.iterates k).result = .ok ()) : q (s.iterates k).state := by
  -- the first iteration comes off, so the start varies
  induction k generalizing s with
  | zero => exact hq
  | succ k ih =>
    unfold iterates at h ⊢
    obtain ⟨⟨⟩, hiterate, hrest, hstate⟩ := Outcome.andThen_eq_ok h
    rw [hstate]
    exact ih (hstep s hq hiterate) hrest

theorem iterates_succ (k : ℕ) (s : Solver α m n) :
    s.iterates (k + 1) = (s.iterates k).andThen fun s _ => s.iterate := by
  induction k generalizing s with
  | zero =>
    calc s.iterates 1 = s.iterate := Outcome.andThen_done s.iterate
      _ = (Outcome.done s ()).andThen fun s _ => s.iterate := by rw [Outcome.done_andThen]
  | succ k ih =>
    calc s.iterates (k + 2) = s.iterate.andThen fun s _ => s.iterates (k + 1) := rfl
      _ = s.iterate.andThen fun s _ => (s.iterates k).andThen fun s _ => s.iterate := by simp only [ih]
      _ = (s.iterates (k + 1)).andThen fun s _ => s.iterate := (Outcome.andThen_assoc ..).symm

theorem iterates_one (h : s.iterate.result = .ok ()) :
    (s.iterates 1).result = .ok () ∧ (s.iterates 1).state = s.iterate.state := by
  have hone : s.iterates 1 = s.iterate := Outcome.andThen_done s.iterate
  rw [hone]
  exact ⟨h, rfl⟩

end

theorem iterate_wall : ((fromZero strict wall).iterates 1).result = .ok () ∧
    ((fromZero strict wall).iterates 1).state.rows.working = [0] := by
  obtain ⟨hiterate, rows, factor, multipliers, residual, hworking, -, hiterated⟩ := iterate_ledge le_rfl
  obtain ⟨hdone, hstate⟩ := iterates_one (s := fromZero strict wall) hiterate
  refine ⟨hdone, ?_⟩
  rw [hstate]
  exact (congrArg (fun s : Solver ℝ 1 1 => s.rows.working) hiterated).trans hworking

theorem Lockstep.iterates (hs : Lockstep p tol s) (ht : tol.Accepted) (k : ℕ)
    (h : (s.iterates k).result = .ok ()) : Lockstep p tol (s.iterates k).state :=
  iterates_keep (fun _ hs h => hs.iterate ht h) k hs h

/-- From a feasible start every row holds after any number of iterations, and the working ones with equality. -/
theorem iterates_stay_feasible (hfeas : ∀ row < m, dot n (p.A row) x₀ ≤ p.b row) (hblocking : tol.blocking = 0)
    (hstart : start p x₀ bounds tol = .ok (s, events)) (k : ℕ) (h : (s.iterates k).result = .ok ()) :
    (∀ row < m, dot n (p.A row) (s.iterates k).state.x ≤ p.b row) ∧
      ∀ row ∈ (s.iterates k).state.rows.working, dot n (p.A row) (s.iterates k).state.x = p.b row := by
  obtain ⟨ht, hs, hx, hworking, -⟩ := start_eq_ok hstart
  have hf : Feasible p s := by
    refine ⟨by rwa [hx], ?_⟩
    rw [hworking]
    exact fun row hrow => nomatch hrow
  obtain ⟨-, hf⟩ := iterates_keep (q := fun s => Lockstep p tol s ∧ Feasible p s)
    (fun _ hs h => ⟨hs.1.iterate ht h, hs.2.iterate hs.1 ht hblocking h⟩) k ⟨hs, hf⟩ h
  exact ⟨hf.rows, hf.working⟩

theorem iterates_stay_feasible_wall : ∃ s events, start wall 0 ⟨0, none⟩ strict = .ok (s, events) ∧
    (s.iterates 1).result = .ok () ∧ dot 1 (wall.A 0) (s.iterates 1).state.x = wall.b 0 := by
  obtain ⟨hiterates, hworking⟩ := iterate_wall
  obtain ⟨-, hmet⟩ := iterates_stay_feasible feasible_wall rfl start_wall 1 hiterates
  exact ⟨_, _, start_wall, hiterates, hmet 0 (by rw [hworking]; exact List.mem_singleton_self 0)⟩

/-- After any number of iterations the sizes add up, the basis factors the working rows in the order of their list,
and the two lists together hold every row once. -/
theorem iterates_in_lockstep (hstart : start p x₀ bounds tol = .ok (s, events)) (k : ℕ)
    (h : (s.iterates k).result = .ok ()) (ht : (s.iterates k).state = t) :
    t.factor.basis.size = t.rows.working.length ∧ t.rows.working.length ≤ n ∧
      t.factor.size + t.factor.artificial + t.factor.basis.size = n ∧
      t.factor.basis.q.IsOrthogonal ∧ (∀ i j, j < i → t.factor.basis.r i j = 0) ∧
      (∀ j row, t.rows.working[j]? = some row → ∀ i < n,
        dot t.factor.basis.size (t.factor.basis.q i) (fun l => t.factor.basis.r l j) = p.A row i) ∧
      (t.rows.working ++ t.rows.ignored).Perm (List.range m) := by
  subst ht
  obtain ⟨ht, hs, -⟩ := start_eq_ok hstart
  have hs := hs.iterates ht k h
  have hperm := hs.sound.perm
  rw [hs.rows, length_rows] at hperm
  refine ⟨hs.length_working.symm, hs.length_working.trans_le hs.columns.le, hs.shaped.count, hs.columns.orthogonal,
    hs.columns.upper, fun j row hrow i hi => ?_, hperm⟩
  have hcolumn : ((s.iterates k).state.rows.working.map p.A.row)[j]? = some (p.A.row row) := by
    rw [List.getElem?_map, hrow, Option.map_some]
  rw [hs.columns.product_block hcolumn hi, Mat.get_row]

/-- The wall is the only column of the basis after one iteration. -/
theorem iterates_in_lockstep_wall : ∃ s events, start wall 0 ⟨0, none⟩ strict = .ok (s, events) ∧
    (s.iterates 1).result = .ok () ∧ (s.iterates 1).state.factor.basis.size = 1 ∧
      (s.iterates 1).state.factor.basis.q 0 0 * (s.iterates 1).state.factor.basis.r 0 0 = 1 := by
  obtain ⟨hiterates, hworking⟩ := iterate_wall
  obtain ⟨hsize, -, -, -, -, hcolumns, -⟩ := iterates_in_lockstep start_wall 1 hiterates rfl
  rw [hworking, List.length_singleton] at hsize
  have hcolumn := hcolumns 0 0 (by rw [hworking]; rfl) 0 one_pos
  rw [hsize, dot_one, wall, (get_line ..).2.2.1] at hcolumn
  exact ⟨_, _, start_wall, hiterates, hsize, hcolumn⟩

/-- After any number of iterations the working rows are independent and neither triangle has a zero pivot: the next
step exists, the check goes through, no change of the working rows and no iteration breaks down, and so no run ends in
a numerical error. -/
theorem iterates_never_break_down (hstart : start p x₀ bounds tol = .ok (s, events)) :
    (∀ k t, (s.iterates k).result = .ok () → (s.iterates k).state = t →
      Independent (t.rows.working.map p.A.row) ∧ (∀ i < t.factor.basis.size, t.factor.basis.r i i ≠ 0) ∧
      (∀ i < t.factor.size, t.factor.u i i ≠ 0) ∧ (∃ step, t.step = .ok step) ∧
      (∃ found, t.check.result = .ok found) ∧ (∀ idx, (t.add idx).Unbroken) ∧ (∀ idx, (t.remove idx).Unbroken) ∧
      (∀ idx, (t.free idx).Unbroken) ∧ t.iterate.Unbroken) ∧
    ∀ o r, (s.run o).result = .ok r → r.status ≠ .numericalError := by
  have hs := ranked_start hstart
  refine ⟨fun k t h ht => ?_, fun o r hrun => hs.run_status hrun⟩
  subst ht
  have hs := iterates_keep (fun _ hs h => Ranked.iterate hs h) k hs h
  have hF := hs.lockstep.shaped
  exact ⟨hs.lockstep.columns.independent_iff.2 hs.nonsingular, hs.nonsingular, hF.pivot_ne_zero, exists_step hF,
    hs.lockstep.exists_check hs.nonsingular, unbroken_add hF, unbroken_remove hF, unbroken_free hF,
    hs.unbroken_iterate⟩

theorem iterates_never_break_down_wall : ∃ s events, start wall 0 ⟨0, none⟩ strict = .ok (s, events) ∧
    (s.iterates 1).result = .ok () ∧ Independent [wall.A.row 0] ∧ (s.iterates 1).state.factor.basis.r 0 0 ≠ 0 ∧
      (∃ found, (s.iterates 1).state.check.result = .ok found) ∧
      ∀ o r, (s.run o).result = .ok r → r.status ≠ .numericalError := by
  obtain ⟨hiterates, hworking⟩ := iterate_wall
  obtain ⟨hall, hstatus⟩ := iterates_never_break_down start_wall
  obtain ⟨hindependent, hpivot, -, -, hcheck, -⟩ := hall 1 _ hiterates rfl
  obtain ⟨ht, hs, -⟩ := ranked_start start_wall
  have hsize := (hs.iterates ht 1 hiterates).length_working
  rw [hworking] at hindependent hsize
  exact ⟨_, _, start_wall, hiterates, hindependent, hpivot 0 (by rw [← hsize]; exact one_pos), hcheck, hstatus⟩

end Solver

end
end ActiveSet
