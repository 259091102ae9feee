import ActiveSet.Proofs.Faults
import ActiveSet.Proofs.Feasible
import ActiveSet.Proofs.Independence
import ActiveSet.Proofs.Runs

/-! No linear system of a solve breaks down. `U` has its pivots by its shape. `R` keeps them because a row is taken
up only if the direction of the step approaches it, and no combination of the working rows is approached. -/

namespace ActiveSet

noncomputable section
open Exact

variable {m n : ℕ}

namespace Outcome

variable {σ β γ : Type} {o : Outcome ℝ σ β}

/-- No linear system has stopped the operation. -/
def Unbroken (o : Outcome ℝ σ β) : Prop := ∀ cause, o.result = .error cause → cause.isNumerical = false

theorem unbroken_of_ok {b : β} (h : o.result = .ok b) : o.Unbroken := fun cause he => by
  rw [h] at he
  cases he

theorem unbroken_done {s : σ} {b : β} : (done s b : Outcome ℝ σ β).Unbroken := unbroken_of_ok rfl

theorem unbroken_fail {s : σ} {cause : Fault} (h : cause.isNumerical = false) :
    (fail s cause : Outcome ℝ σ β).Unbroken := fun cause' he => by
  obtain rfl := Except.error.inj he
  exact h

theorem Unbroken.reporting (ho : o.Unbroken) (e : Event ℝ) : (o.reporting e).Unbroken := fun cause he =>
  ho cause ((result_reporting o e).symm.trans he)

theorem Unbroken.andThen {next : σ → β → Outcome ℝ σ γ} (ho : o.Unbroken)
    (hnext : ∀ b, o.result = .ok b → (next o.state b).Unbroken) : (o.andThen next).Unbroken := by
  intro cause he
  unfold Outcome.andThen at he
  cases hresult : o.result with
  | error cause' =>
    rw [hresult] at he
    obtain rfl := Except.error.inj he
    exact ho _ hresult
  | ok b =>
    rw [hresult] at he
    exact hnext b hresult cause he

end Outcome

open Outcome

namespace WorkingSet

variable {ρ β : Type}

theorem isNumerical_of_closeGap {γ : Type} {start : ℕ} {idx : ℤ} {xs : List γ} {cause : Fault}
    (h : closeGap start idx xs = .error cause) : cause.isNumerical = false := by
  unfold closeGap Position.overwrite at h
  dsimp only at h
  split_ifs at h
  split at h
  · cases h
  · obtain rfl := Except.error.inj h
    rfl

theorem unbroken_activate (w : WorkingSet ρ β) (idx : ℤ) : (w.activate idx : Outcome ℝ _ _).Unbroken := by
  unfold activate
  split
  · exact unbroken_fail rfl
  split
  · exact unbroken_fail rfl
  split
  · exact unbroken_fail (isNumerical_of_closeGap ‹_›)
  dsimp only
  split
  · exact unbroken_fail (isNumerical_of_closeGap ‹_›)
  · exact unbroken_done

theorem unbroken_release (w : WorkingSet ρ β) (idx : ℤ) : (w.release idx : Outcome ℝ _ _).Unbroken := by
  unfold release
  split
  · exact unbroken_fail rfl
  split
  · exact unbroken_fail rfl
  dsimp only
  split
  · exact unbroken_fail rfl
  split
  · exact unbroken_fail rfl
  split_ifs
  · exact unbroken_done
  · exact unbroken_fail rfl

end WorkingSet

namespace ReducedFactor

variable {P : Mat ℝ n n} {F G : ReducedFactor ℝ n} {rule : CurvatureRule ℝ}

theorem Opened.exists_resolve (hF : Opened F) (slope : Vec ℝ n) : ∃ G, F.resolve slope = .ok G := by
  have hpivot : ∀ i < F.size - 1, F.u i i ≠ 0 := fun i hi => (hF.diagonal i (by omega)).ne'
  exact ⟨_, map_eq_ok.2 ⟨_, Triangular.solveT_eq_ok.2 ⟨⟨by rw [hF.width_eq], hpivot⟩, rfl⟩, rfl⟩⟩

theorem Shaped.result_add (hF : Shaped F) (a : Vec ℝ n) :
    (F.add rule P a).result = (F.basis.append a).map fun _ => () := by
  unfold ReducedFactor.add
  cases hb : F.basis.append a with
  | error cause => rfl
  | ok basis =>
    dsimp only
    by_cases h0 : F.size = 0
    · rw [if_pos h0]
      rfl
    · by_cases h1 : F.size = 1
      · rw [if_neg h0, if_pos h1]
        rfl
      · rw [if_neg h0, if_neg h1]
        by_cases hre : F.d (F.size - 1) ≤ rule.recompute ∧ 1 < (F.dropped basis a).size
        · obtain ⟨G, hG⟩ := (hF.opened hb (by omega)).exists_resolve (lastSlope P (F.dropped basis a))
          unfold dropped at hre
          unfold lastSlope dropped at hG
          rw [if_pos hre, hG]
          rfl
        · unfold dropped at hre
          rw [if_neg hre]
          rfl

theorem Shaped.result_add_of_lt (hF : Shaped F) (hroom : F.basis.size < n) (a : Vec ℝ n) :
    (F.add rule P a).result = .ok () := by
  rw [hF.result_add]
  unfold OrthogonalFactor.append
  rw [if_neg (by omega)]
  rfl

theorem Freed.exists_newColumn (hG : Freed F G) (hF : Signed F) : ∃ w, newColumn P F G = .ok w := by
  unfold newColumn
  split_ifs
  · exact ⟨_, rfl⟩
  · have hpivot : ∀ i < G.size, G.u i i ≠ 0 := by
      rw [hG.size, hG.u]
      exact fun i hi => (hF.diagonal i hi).ne'
    exact ⟨_, map_eq_ok.2 ⟨_, Triangular.solveT_eq_ok.2 ⟨⟨by rw [width_eq_size hF.count, hG.size], hpivot⟩, rfl⟩, rfl⟩⟩

theorem Freed.result_regrow (hG : Freed F G) (hF : Signed F) : (regrow rule P F G).result = .ok () := by
  obtain ⟨w, hw⟩ := hG.exists_newColumn (P := P) hF
  unfold regrow
  rw [hG.grow_eq, hw]
  rfl

theorem Signed.result_remove (hF : Signed F) (idx : Option ℤ) : (F.remove rule P idx).result =
    if F.size ≠ 0 ∧ ¬rule.indefinite < F.d (F.size - 1) then .error .notPositive else (F.release idx).result := by
  rw [remove_eq]
  split_ifs with hguard
  · rfl
  · cases hrelease : (F.release idx).result with
    | error cause => simp [Outcome.andThen, hrelease]
    | ok u => exact Outcome.result_andThen_eq_ok.2 ⟨u, hrelease, (hF.freed hrelease).result_regrow hF⟩

theorem Shaped.result_remove_column (hF : Shaped F) (hart : F.artificial = 0)
    (hcurvature : F.size = 0 ∨ rule.indefinite < F.d (F.size - 1)) {i : ℕ} (hi : i < F.basis.size) :
    (F.remove rule P (some i)).result = .ok () := by
  have hguard : ¬(F.size ≠ 0 ∧ ¬rule.indefinite < F.d (F.size - 1)) := by
    rintro ⟨hsize, hlast⟩
    exact hcurvature.elim hsize hlast
  rw [hF.signed.result_remove, if_neg hguard]
  unfold release
  rw [if_pos hart]
  exact OrthogonalFactor.result_remove hi

theorem unbroken_release (F : ReducedFactor ℝ n) (idx : Option ℤ) : (F.release idx).Unbroken := by
  intro cause he
  rw [result_release] at he
  split_ifs at he with hart
  cases idx with
  | none =>
    obtain rfl := Except.error.inj he
    rfl
  | some i =>
    dsimp only at he
    split_ifs at he
    obtain rfl := Except.error.inj he
    rfl

theorem Shaped.unbroken_add (hF : Shaped F) (a : Vec ℝ n) : (F.add rule P a).Unbroken := by
  intro cause he
  rw [hF.result_add] at he
  unfold OrthogonalFactor.append at he
  split_ifs at he
  · obtain rfl := Except.error.inj he
    rfl
  · cases he

theorem Shaped.unbroken_remove (hF : Shaped F) (idx : Option ℤ) : (F.remove rule P idx).Unbroken := by
  intro cause he
  rw [hF.signed.result_remove] at he
  split_ifs at he
  · obtain rfl := Except.error.inj he
    rfl
  · exact unbroken_release F idx cause he

end ReducedFactor

theorem Sphere.exists_crossings (x d : ℕ → ℝ) (radius : ℝ) : ∃ roots, Sphere.crossings n x d radius = .ok roots := by
  have hroots : ∀ a b c : ℝ, ∃ roots, Sphere.quadraticRoots a b c = .ok roots := by
    intro a b c
    unfold quadraticRoots
    simp only [isFinite_eq, Bool.and_self, if_true]
    split_ifs <;> exact ⟨_, rfl⟩
  have hsquare : Sphere.square radius = .ok (radius * radius) := by simp [square]
  obtain ⟨roots, hroots⟩ := hroots (dot n d d) (2.0 * dot n d x) (dot n x x - radius * radius)
  exact ⟨roots, bind_eq_ok.2 ⟨_, hsquare, hroots⟩⟩

namespace Solver

variable {p : Problem ℝ m n} {tol : Tolerances ℝ} {s : Solver ℝ m n} {o : Options} {r : Report ℝ m n}

theorem exists_radiusLimit (s : Solver ℝ m n) (d : Vec ℝ n) : ∃ limit, s.radiusLimit d = .ok limit := by
  have hinner : ∀ outer : List ℝ, ∃ limit, (if 0 < s.bounds.lower then do
      let inner ← Sphere.crossings n s.x d s.bounds.lower
      pure (nearest (outer ++ inner)) else pure (nearest (outer ++ []))) = Except.ok limit := by
    intro outer
    split_ifs
    · obtain ⟨inner, hinner⟩ := Sphere.exists_crossings (n := n) s.x d s.bounds.lower
      exact ⟨_, bind_eq_ok.2 ⟨inner, hinner, rfl⟩⟩
    · exact ⟨_, rfl⟩
  unfold radiusLimit
  cases s.bounds.upper with
  | none => exact hinner []
  | some upper =>
    dsimp only
    rw [if_pos (isFinite_eq upper)]
    obtain ⟨outer, houter⟩ := Sphere.exists_crossings (n := n) s.x d upper
    obtain ⟨limit, hlimit⟩ := hinner outer
    exact ⟨limit, bind_eq_ok.2 ⟨outer, houter, hlimit⟩⟩

theorem exists_bounded (s : Solver ℝ m n) (d : Vec ℝ n) (most : Option ℝ) : ∃ step, s.bounded d most = .ok step := by
  obtain ⟨limit, hlimit⟩ := s.exists_radiusLimit d
  exact ⟨_, map_eq_ok.2 ⟨limit, hlimit, rfl⟩⟩

theorem exists_newtonDirection {F : ReducedFactor ℝ n} (hF : F.Shaped) (along : ℕ → ℝ) :
    ∃ d, newtonDirection F along = .ok d := by
  unfold newtonDirection
  exact ⟨_, bind_eq_ok.2 ⟨_, Triangular.solveT_eq_ok.2 ⟨⟨hF.width_eq, hF.pivot_ne_zero⟩, rfl⟩,
    bind_eq_ok.2 ⟨_, Triangular.solve_eq_ok.2 ⟨⟨rfl, hF.pivot_ne_zero⟩, rfl⟩, rfl⟩⟩⟩

theorem exists_rayDirection {F : ReducedFactor ℝ n} (hF : F.Shaped) (g : Vec ℝ n) :
    ∃ d, rayDirection F g = .ok d := by
  have hwidth : ¬F.width ≠ F.size := not_not.2 hF.width_eq
  unfold rayDirection
  simp only [if_neg hwidth]
  exact ⟨_, bind_eq_ok.2 ⟨_, Triangular.solve_eq_ok.2 ⟨⟨rfl, hF.pivot_ne_zero⟩, rfl⟩, rfl⟩⟩

theorem exists_step (hF : s.factor.Shaped) : ∃ step, s.step = .ok step := by
  have hsearch : ∃ found, s.search = .ok found := by
    unfold search
    dsimp only
    split_ifs
    · exact ⟨_, rfl⟩
    · obtain ⟨d, hd⟩ := exists_newtonDirection hF (Vec.ofFn (s.factor.project s.gradient) : Vec ℝ s.factor.width)
      exact ⟨_, map_eq_ok.2 ⟨d, hd, rfl⟩⟩
    · obtain ⟨d, hd⟩ := exists_rayDirection hF s.gradient
      exact ⟨_, map_eq_ok.2 ⟨d, hd, rfl⟩⟩
  obtain ⟨found, hfound⟩ := hsearch
  unfold step
  rw [hfound]
  cases found with
  | rest => exact ⟨_, rfl⟩
  | newton d => exact s.exists_bounded d (some 1)
  | ray d => exact s.exists_bounded d none

theorem Lockstep.exists_check (hs : Lockstep p tol s) (hN : s.factor.basis.Nonsingular) :
    ∃ found, s.check.result = .ok found := by
  obtain ⟨lam, hlam⟩ := exists_columnMultipliers hN
  obtain ⟨multipliers, hspread⟩ := hs.fits.exists_spread lam
  unfold Solver.check
  rw [hlam]
  dsimp only
  rw [hspread]
  dsimp only
  split_ifs
  · exact ⟨_, result_reporting ..⟩
  · exact ⟨_, rfl⟩
  · exact ⟨_, rfl⟩

/-- What outlasts the two changes of a factorization: an addition of a row that some combination of the free
directions approaches, and a removal. -/
structure Kept (p : Problem ℝ m n) (tol : Tolerances ℝ) (q : ReducedFactor ℝ n → Prop) : Prop where
  add : ∀ F d row, F.Shaped → q F → Spanned F d → tol.blocking < dot n (p.A row) d →
    (F.add (tol.rule p.P) p.P (p.A.row row)).result = .ok () → q (F.add (tol.rule p.P) p.P (p.A.row row)).state
  remove : ∀ F idx, F.Shaped → q F → (F.remove (tol.rule p.P) p.P idx).result = .ok () →
    q (F.remove (tol.rule p.P) p.P idx).state

theorem Lockstep.exists_blocking (hs : Lockstep p tol s) {step : Step ℝ n} (hstep : s.step = .ok step) {i : ℕ}
    (hblock : step.blocking = some i) : Spanned s.factor step.direction ∧
      ∃ row, s.rows.ignored[i]? = some row ∧ tol.blocking < dot n (p.A row) step.direction := by
  rcases step_cases hstep with rfl | ⟨d, most, hd, -, hbounded⟩
  · cases hblock
  · obtain ⟨rfl, -, -, hmet⟩ := bounded_eq_ok hbounded
    obtain ⟨t, -, hratio⟩ := hmet i hblock
    obtain ⟨row, hrow, hrate, -⟩ := hs.ratio_iff.1 hratio
    exact ⟨hd, row, hrow, hrate⟩

/-- Some free direction sees a row that a combination of them approaches. -/
theorem Spanned.exists_dot_ne_zero {F : ReducedFactor ℝ n} {d : Vec ℝ n} (hd : Spanned F d) {a : ℕ → ℝ}
    (ha : 0 < dot n a d) : ∃ j < F.width, dot n (fun i => F.z i j) a ≠ 0 := by
  by_contra hnone
  push Not at hnone
  obtain ⟨c, w, hd⟩ := hd
  have hzero : dot n a d = 0 := by
    rw [dot_congr (fun _ _ => rfl) hd, dot_mul_right, dot_expand,
      dot_eq_zero fun j hj => by rw [hnone j hj, zero_mul], mul_zero]
  exact ha.ne' hzero

theorem Lockstep.result_add (hs : Lockstep p tol s) (hroom : s.factor.basis.size < n) {i : ℕ}
    (hi : i < s.rows.ignored.length) : (s.add i).result = .ok () := by
  obtain ⟨row, hrow⟩ : ∃ row, s.rows.ignored[i]? = some row := ⟨_, List.getElem?_eq_getElem hi⟩
  have hadd : (s.factor.add s.rule s.problem.P (s.problem.A.row row)).result = .ok () :=
    hs.shaped.result_add_of_lt hroom _
  obtain ⟨rows, hactivate, -⟩ := hs.sound.activate (α := ℝ) hrow
  unfold Solver.add
  rw [Position.resolve?_ofNat hi, Option.bind_some, hrow]
  refine Outcome.result_andThen_eq_ok.2 ⟨(), hadd, ?_⟩
  refine Outcome.result_andThen_eq_ok.2 ⟨row, ?_, result_reporting ..⟩
  dsimp only [Outcome.state_within, Outcome.result_within]
  rw [hactivate]
  rfl

theorem Lockstep.result_taken (hs : Lockstep p tol s) (ht : tol.Accepted) {step : Step ℝ n}
    (hstep : s.step = .ok step) (t : ℝ) : (s.taken step t).result = .ok () := by
  unfold Solver.taken
  cases hblock : step.blocking with
  | none => rfl
  | some i =>
    obtain ⟨hspanned, row, hrow, hrate⟩ := hs.exists_blocking hstep hblock
    obtain ⟨j, hj, -⟩ := hspanned.exists_dot_ne_zero (ht.blocking.trans_lt hrate)
    have hroom : s.factor.basis.size < n := by
      unfold ReducedFactor.width ReducedFactor.offset at hj
      omega
    exact (hs.moved (s.x.along t step.direction)).result_add hroom (List.getElem?_eq_some_iff.1 hrow).1

theorem Kept.taken {q : ReducedFactor ℝ n → Prop} (hq : Kept p tol q) (hs : Lockstep p tol s) {step : Step ℝ n}
    {t : ℝ} (hstep : s.step = .ok step) (h : (s.taken step t).result = .ok ()) (hfactor : q s.factor) :
    q (s.taken step t).state.factor := by
  obtain ⟨rows, factor, hstate, ⟨-, -, rfl⟩ | ⟨i, row, hblock, hrow, -, hadd, rfl⟩⟩ := hs.taken_eq_ok h
  · rw [hstate]
    exact hfactor
  · obtain ⟨hspanned, row', hrow', hrate⟩ := hs.exists_blocking hstep hblock
    obtain rfl : row = row' := Option.some.inj (hrow.symm.trans hrow')
    rw [hstate]
    rw [hs.rule_eq, hs.problem] at hadd ⊢
    exact hq.add s.factor step.direction row hs.shaped hfactor hspanned hrate hadd

theorem Kept.settle {q : ReducedFactor ℝ n → Prop} (hq : Kept p tol q) (hs : Lockstep p tol s)
    (h : s.settle.result = .ok ()) (hfactor : q s.factor) : q s.settle.state.factor := by
  obtain ⟨_, _, _, rows, factor, hstate, -, rfl | ⟨idx, hremove, rfl⟩⟩ := hs.settle_eq_ok h
  · rw [hstate]
    exact hfactor
  · rw [hstate]
    rw [hs.rule_eq, hs.problem] at hremove ⊢
    exact hq.remove s.factor idx hs.shaped hfactor hremove

theorem Kept.iterate {q : ReducedFactor ℝ n → Prop} (hq : Kept p tol q) (hs : Lockstep p tol s) (ht : tol.Accepted)
    (h : s.iterate.result = .ok ()) (hfactor : q s.factor) : q s.iterate.state.factor := by
  obtain ⟨step, hstep, ⟨-, hstate⟩ | ⟨t, -, htaken, r, hr, hstate⟩⟩ := iterate_cases h
  · rw [hstate]
    exact hfactor
  · have hmoved := hq.taken hs hstep htaken hfactor
    rw [hstate]
    rcases hr with ⟨-, rfl⟩ | ⟨-, hsettle, rfl⟩
    · exact hmoved
    · exact hq.settle (hs.taken ht htaken) hsettle hmoved

theorem kept_nonsingular (ht : tol.Accepted) : Kept p tol fun F => F.basis.Nonsingular := by
  constructor
  · intro F d row hF hN hspanned hrate h
    obtain ⟨W, hW⟩ := hF.factors
    obtain ⟨j, hj, hsees⟩ := hspanned.exists_dot_ne_zero (ht.blocking.trans_lt hrate)
    have hcol : F.offset + j < n := by
      unfold ReducedFactor.width at hj
      omega
    refine hN.append hW (ReducedFactor.basis_add h) (t := F.offset + j) (by unfold ReducedFactor.offset; omega) hcol ?_
    rwa [dot_congr (fun _ _ => rfl) fun i _ => Mat.get_row p.A row i]
  · intro F idx hF hN h
    obtain ⟨W, hW⟩ := hF.factors
    rcases Nat.eq_zero_or_pos F.artificial with hart | hart
    · obtain ⟨i, -, hremove, hbasis⟩ := ReducedFactor.basis_remove_of_column hart h
      rw [hbasis]
      exact hN.remove hW hremove
    · rw [ReducedFactor.basis_remove_of_artificial hart h]
      exact hN

/-- The parts of a solve belong together and its working rows are independent. -/
structure Ranked (p : Problem ℝ m n) (tol : Tolerances ℝ) (s : Solver ℝ m n) : Prop where
  accepted : tol.Accepted
  lockstep : Lockstep p tol s
  nonsingular : s.factor.basis.Nonsingular

theorem ranked_start {x : Vec ℝ n} {bounds : RadiusBounds ℝ} {events : List (Event ℝ)}
    (h : start p x bounds tol = .ok (s, events)) : Ranked p tol s := by
  obtain ⟨ht, hs, -, hworking, -⟩ := start_eq_ok h
  refine ⟨ht, hs, OrthogonalFactor.nonsingular_of_size_eq_zero ?_⟩
  rw [← hs.length_working, hworking]
  rfl

theorem Ranked.iterate (hs : Ranked p tol s) (h : s.iterate.result = .ok ()) : Ranked p tol s.iterate.state :=
  ⟨hs.accepted, hs.lockstep.iterate hs.accepted h,
    (kept_nonsingular hs.accepted).iterate hs.lockstep hs.accepted h hs.nonsingular⟩

theorem unbroken_add (hF : s.factor.Shaped) (idx : ℤ) : (s.add idx).Unbroken := by
  unfold Solver.add
  split
  · exact unbroken_fail rfl
  · refine Unbroken.andThen (hF.unbroken_add _) fun _ _ => ?_
    exact Unbroken.andThen (WorkingSet.unbroken_activate s.rows idx) fun _ _ => unbroken_done.reporting _

theorem unbroken_free (hF : s.factor.Shaped) (idx : Option ℤ) : (s.free idx).Unbroken := hF.unbroken_remove idx

theorem unbroken_remove (hF : s.factor.Shaped) (idx : ℤ) : (s.remove idx).Unbroken := by
  unfold Solver.remove
  refine Unbroken.andThen (WorkingSet.unbroken_release s.rows idx) fun _ _ => ?_
  exact Unbroken.andThen (unbroken_free hF (some idx)) fun _ _ => unbroken_done.reporting _

theorem Ranked.unbroken_settle (hs : Ranked p tol s) : s.settle.Unbroken := by
  unfold Solver.settle
  split_ifs
  · exact unbroken_free hs.lockstep.shaped none
  · obtain ⟨found, hfound⟩ := hs.lockstep.exists_check hs.nonsingular
    refine Unbroken.andThen (unbroken_of_ok hfound) fun found _ => ?_
    cases found with
    | none => exact unbroken_done
    | some i => exact unbroken_remove hs.lockstep.check.shaped i

theorem Ranked.unbroken_iterate (hs : Ranked p tol s) : s.iterate.Unbroken := by
  obtain ⟨step, hstep⟩ := exists_step hs.lockstep.shaped
  cases hlen : step.length with
  | none =>
    rw [iterate_found hstep hlen]
    exact unbroken_done.reporting _
  | some t =>
    rw [iterate_eq hstep hlen]
    refine Unbroken.andThen ?_ fun _ htaken => ?_
    · exact unbroken_of_ok (hs.lockstep.result_taken hs.accepted hstep t)
    · have hmoved : Ranked p tol (s.taken step t).state := ⟨hs.accepted, hs.lockstep.taken hs.accepted htaken,
        (kept_nonsingular hs.accepted).taken hs.lockstep hstep htaken hs.nonsingular⟩
      unfold finish
      refine Unbroken.andThen ?_ fun _ _ => unbroken_done
      split_ifs
      · exact hmoved.unbroken_settle
      · exact unbroken_done

theorem Ranked.result_turn {w : Watched ℝ m n} (hs : Ranked p tol w.solver) (o : Options) :
    (w.turn o).result = w.solver.iterate.result :=
  Watched.result_turn fun h => (hs.iterate h).lockstep.fits

theorem Ranked.unbroken_loop {w : Watched ℝ m n} (hs : Ranked p tol w.solver) (k : ℕ) : (w.loop o k).Unbroken := by
  induction k generalizing w with
  | zero => exact unbroken_done
  | succ k ih =>
    unfold Watched.loop
    split_ifs
    · refine Unbroken.andThen (fun cause hcause => ?_) fun _ hturn => ?_
      · rw [hs.result_turn] at hcause
        exact hs.unbroken_iterate cause hcause
      · obtain ⟨hiterate, hsolver⟩ := Watched.turn_eq_ok hturn
        refine ih ?_
        rw [hsolver]
        exact hs.iterate hiterate
    · exact unbroken_done

theorem Ranked.run_status (hs : Ranked p tol s) (h : (s.run o).result = .ok r) : r.status ≠ .numericalError := by
  intro hbroken
  obtain ⟨hsolver, hconclude, -⟩ := run_eq_ok rfl h
  rw [hbroken] at hconclude
  rcases Watched.conclude_eq_ok hconclude with ⟨-, hverdict⟩ | ⟨cause, hcause, hnumerical, -⟩
  · unfold Watched.verdict at hverdict
    split_ifs at hverdict
  · rw [← hsolver] at hs
    rw [hs.unbroken_loop _ cause hcause] at hnumerical
    cases hnumerical

end Solver

end
end ActiveSet
