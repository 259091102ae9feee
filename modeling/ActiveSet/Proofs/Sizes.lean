import ActiveSet.Proofs.Lockstep

/-! What can stop an iteration, in any arithmetic. No law of the numbers is used: every unknown is a working, an
artificial or a factored direction, the working columns are the working rows, and every position is in range. So no
size is ever wrong, and the faults that are left are those of the numbers: a triangular system that cannot be solved, a
radius bound whose crossings cannot be found, and the refusal to set a direction free. -/

namespace ActiveSet

variable {α : Type} [Scalar α] {m n : ℕ}

/-- A number of a triangular system is not finite, or one of its pivots is zero. -/
def Fault.IsUnsolvable (α : Type) [Scalar α] (cause : Fault) : Prop :=
  (cause = .notFinite ∧ ∃ a : α, Scalar.isFinite a = false) ∨ ∃ place, cause = .singular place

namespace Triangular

variable {k : ℕ} {U : ℕ → ℕ → α} {b : ℕ → α} {cause : Fault}

theorem exists_of_not_finite (h : ¬finite k U b = true) : ∃ a : α, Scalar.isFinite a = false := by
  by_contra hall
  have hfinite : ∀ a : α, Scalar.isFinite a = true := fun a => by simpa using fun ha => hall ⟨a, ha⟩
  exact h (by simp [finite, hfinite])

theorem isUnsolvable_accept (h : accept k k U b = .error cause) : cause.IsUnsolvable α := by
  unfold accept at h
  rw [if_neg (not_not.2 rfl)] at h
  split_ifs at h with hfinite
  · split at h
    · exact Or.inr ⟨_, (Except.error.inj h).symm⟩
    · cases h
  · exact Or.inl ⟨(Except.error.inj h).symm, exists_of_not_finite hfinite⟩

theorem isUnsolvable_solve (h : solve k k U b = .error cause) : cause.IsUnsolvable α :=
  isUnsolvable_accept (map_eq_error.1 h)

theorem isUnsolvable_solveT (h : solveT k k U b = .error cause) : cause.IsUnsolvable α :=
  isUnsolvable_accept (map_eq_error.1 h)

end Triangular

theorem Cholesky.rank_full_le (M : Mat α n n) : (full M).rank ≤ n := by
  unfold full
  refine ascend_keeps (p := fun j (s : Cholesky α n) => s.rank ≤ j) le_rfl n fun j s _ hs => ?_
  unfold turn
  dsimp only
  split_ifs
  · exact hs.trans j.le_succ
  · exact le_rfl
  · exact hs.trans j.le_succ

namespace ReducedFactor

variable {P : Mat α n n} {F G : ReducedFactor α n} {rule : CurvatureRule α} {idx : Option ℤ} {cause : Fault}

/-- Every unknown is a working, an artificial or a factored direction. -/
def Counted (F : ReducedFactor α n) : Prop := F.size + F.artificial + F.basis.size = n

omit [Scalar α] in
theorem Counted.width_eq (hF : F.Counted) : F.width = F.size := by
  unfold Counted at hF
  unfold width offset
  omega

theorem counted_ofFactor (rule : CurvatureRule α) (P : Mat α n n) :
    (ofFactor rule P OrthogonalFactor.empty).Counted := by
  have hfull := Cholesky.rank_full_le (restriction P OrthogonalFactor.empty)
  have hcut := Cholesky.cut_le (Cholesky.full (restriction P OrthogonalFactor.empty)) rule.indefinite rule.flat
  exact Nat.add_sub_cancel' (hcut.trans hfull)

theorem Counted.resolve_or (hG : G.Counted) (c : Prop) [Decidable c] (slope : Vec α n) :
    (∃ H, (if c then G.resolve slope else .ok G) = .ok H ∧ H.size = G.size ∧ H.artificial = G.artificial ∧
        H.basis = G.basis) ∨
      ∃ cause, (if c then G.resolve slope else .ok G) = .error cause ∧ cause.IsUnsolvable α := by
  split_ifs
  · cases h : G.resolve slope with
    | error cause =>
      refine Or.inr ⟨cause, rfl, ?_⟩
      unfold resolve at h
      dsimp only at h
      rw [hG.width_eq] at h
      exact Triangular.isUnsolvable_solveT (map_eq_error.1 h)
    | ok H =>
      refine Or.inl ⟨H, rfl, ?_⟩
      obtain ⟨w, -, rfl⟩ := map_eq_ok.1 h
      exact ⟨rfl, rfl, rfl⟩
  · exact Or.inl ⟨G, rfl, rfl, rfl, rfl⟩

theorem exists_append (hroom : F.basis.size < n) (a : Vec α n) :
    ∃ basis, F.basis.append a = .ok basis ∧ basis.size = F.basis.size + 1 := by
  unfold OrthogonalFactor.append
  rw [if_neg (not_le.2 hroom)]
  exact ⟨_, rfl, rfl⟩

theorem Counted.add_or (hF : F.Counted) (hroom : F.basis.size < n) (rule : CurvatureRule α) (P : Mat α n n)
    (a : Vec α n) : ((F.add rule P a).result = .ok () ∧ (F.add rule P a).state.Counted ∧
        (F.add rule P a).state.basis.size = F.basis.size + 1) ∨
      ∃ cause, (F.add rule P a).result = .error cause ∧ cause.IsUnsolvable α := by
  obtain ⟨basis, hbasis, hsize⟩ := exists_append hroom a
  unfold Counted at hF
  unfold add
  rw [hbasis]
  dsimp only
  by_cases h0 : F.size = 0
  · rw [if_pos h0]
    refine Or.inl ⟨rfl, ?_, hsize⟩
    change F.size + (F.artificial - 1) + basis.size = n
    omega
  rw [if_neg h0]
  by_cases h1 : F.size = 1
  · rw [if_pos h1]
    refine Or.inl ⟨rfl, ?_, hsize⟩
    change F.size - 1 + F.artificial + basis.size = n
    omega
  rw [if_neg h1]
  set G := ({ F with basis, u := F.replay a } : ReducedFactor α n).shrink.restore
  have hG : G.Counted := by
    change F.size - 1 + F.artificial + basis.size = n
    omega
  rcases hG.resolve_or (F.d (F.size - 1) ≤ rule.recompute ∧ 1 < G.size) (P.apply (Vec.ofFn fun i => G.z i 0)) with
    ⟨H, hH, hHsize, hHart, hHbasis⟩ | ⟨cause, hcause, hunsolvable⟩
  · rw [hH]
    refine Or.inl ⟨rfl, ?_, ?_⟩
    · change H.size + H.artificial + H.basis.size = n
      rw [hHsize, hHart, hHbasis]
      exact hG
    · change H.basis.size = _
      rw [hHbasis]
      exact hsize
  · rw [hcause]
    exact Or.inr ⟨cause, rfl, hunsolvable⟩

theorem Counted.release (hF : F.Counted) (hidx : F.artificial = 0 → ∃ i : ℕ, idx = some (i : ℤ) ∧ i < F.basis.size) :
    (F.release idx).result = .ok () ∧ (F.release idx).state.size = F.size ∧
      (F.release idx).state.size + 1 + (F.release idx).state.artificial + (F.release idx).state.basis.size = n ∧
      (F.release idx).state.basis.size = if F.artificial = 0 then F.basis.size - 1 else F.basis.size := by
  unfold Counted at hF
  have hresult : (F.release idx).result = .ok () := by
    unfold ReducedFactor.release
    by_cases hart : F.artificial = 0
    · obtain ⟨i, rfl, hi⟩ := hidx hart
      rw [if_pos hart]
      exact OrthogonalFactor.result_remove hi
    · rw [if_neg hart]
      cases idx with
      | none => rfl
      | some i => exact Outcome.result_reporting ..
  refine ⟨hresult, ?_⟩
  rcases release_eq_ok hresult with ⟨hart, i, hi, hremove, hstate⟩ | ⟨hart, hstate⟩
  · obtain ⟨-, -, herase⟩ := OrthogonalFactor.remove_eq_ok hremove
    have hsize : (F.release idx).state.basis.size = F.basis.size - 1 := by
      rw [hstate, herase]
      rfl
    obtain ⟨j, -, hj⟩ := hidx hart
    rw [if_pos hart, hsize, hstate]
    refine ⟨rfl, ?_, rfl⟩
    change F.size + 1 + F.artificial + (F.basis.size - 1) = n
    omega
  · rw [if_neg hart.ne', hstate]
    refine ⟨rfl, ?_, rfl⟩
    change F.size + 1 + (F.artificial - 1) + F.basis.size = n
    omega

theorem Counted.grow_or (hF : F.Counted) (hsize : G.size = F.size) (rule : CurvatureRule α) (P : Mat α n n) :
    (∃ H, grow rule P F G = .ok H ∧ H.size = G.size + 1 ∧ H.artificial = G.artificial ∧ H.basis = G.basis) ∨
      ∃ cause, grow rule P F G = .error cause ∧ cause.IsUnsolvable α := by
  cases h : grow rule P F G with
  | error cause =>
    refine Or.inr ⟨cause, rfl, ?_⟩
    unfold grow at h
    dsimp only at h
    rcases bind_eq_error.1 (map_eq_error.1 h) with h | ⟨w, -, h⟩
    · split_ifs at h
      rw [hF.width_eq, ← hsize] at h
      exact Triangular.isUnsolvable_solveT (map_eq_error.1 h)
    · cases h
  | ok H =>
    refine Or.inl ⟨H, rfl, ?_⟩
    obtain ⟨w, -, rfl⟩ := map_eq_ok.1 h
    exact ⟨rfl, rfl, rfl⟩

theorem Counted.remove_or (hF : F.Counted) (rule : CurvatureRule α) (P : Mat α n n) (idx : Option ℤ)
    (hidx : F.artificial = 0 → ∃ i : ℕ, idx = some (i : ℤ) ∧ i < F.basis.size) :
    ((F.remove rule P idx).result = .ok () ∧ (F.remove rule P idx).state.Counted ∧
        (F.remove rule P idx).state.basis.size = if F.artificial = 0 then F.basis.size - 1 else F.basis.size) ∨
      (∃ cause, (F.remove rule P idx).result = .error cause ∧ cause.IsUnsolvable α) ∨
      ((F.remove rule P idx).result = .error .notPositive ∧ (F.remove rule P idx).state = F ∧ 0 < F.size ∧
        ¬rule.indefinite < F.d (F.size - 1)) := by
  obtain ⟨hresult, hsize, hcount, hbasis⟩ := hF.release hidx
  rw [remove_eq]
  by_cases hguard : F.size ≠ 0 ∧ ¬rule.indefinite < F.d (F.size - 1)
  · rw [if_pos hguard]
    exact Or.inr (Or.inr ⟨rfl, rfl, Nat.pos_of_ne_zero hguard.1, hguard.2⟩)
  rw [if_neg hguard]
  obtain ⟨hnext, hstate⟩ := Outcome.andThen_of_ok (f := fun G _ => regrow rule P F G) hresult
  rw [hnext, hstate]
  unfold regrow
  rcases hF.grow_or hsize rule P with ⟨H, hH, hHsize, hHart, hHbasis⟩ | ⟨cause, hcause, hunsolvable⟩
  · rw [hH]
    refine Or.inl ⟨rfl, ?_, ?_⟩
    · change H.size + H.artificial + H.basis.size = n
      rw [hHsize, hHart, hHbasis]
      exact hcount
    · change H.basis.size = _
      rw [hHbasis, hbasis]
  · rw [hcause]
    exact Or.inr (Or.inl ⟨cause, rfl, hunsolvable⟩)

theorem artificial_remove_le (rule : CurvatureRule α) (P : Mat α n n) (F : ReducedFactor α n) (idx : Option ℤ) :
    (F.remove rule P idx).state.artificial ≤ F.artificial := by
  rw [remove_eq]
  split_ifs
  · exact le_rfl
  · refine Outcome.andThen_keeps (q := fun G : ReducedFactor α n => G.artificial ≤ F.artificial) ?_ fun G _ hG => ?_
    · unfold ReducedFactor.release
      split_ifs
      · cases idx with
        | none => exact le_rfl
        | some i => exact le_rfl
      · cases idx with
        | none => exact Nat.sub_le ..
        | some i =>
          rw [Outcome.state_reporting]
          exact Nat.sub_le ..
    · unfold regrow
      cases hgrow : grow rule P F G with
      | error cause => exact hG
      | ok H =>
        obtain ⟨w, -, rfl⟩ := map_eq_ok.1 hgrow
        exact hG

theorem artificial_remove_of_pos {rule : CurvatureRule α} {P : Mat α n n} (hart : 0 < F.artificial)
    (h : (F.remove rule P idx).result = .ok ()) : (F.remove rule P idx).state.artificial + 1 = F.artificial := by
  obtain ⟨-, hrelease, hgrow⟩ := remove_cases h
  obtain ⟨w, -, hstate⟩ := map_eq_ok.1 hgrow
  rcases release_eq_ok hrelease with ⟨hzero, -⟩ | ⟨-, hs⟩
  · omega
  · have hkept : (F.remove rule P idx).state.artificial = F.artificial - 1 := by
      rw [← hstate]
      exact congrArg artificial hs
    omega

/-- With a direction left a column takes up a factored one, also where the last column of `U` cannot be solved for. -/
theorem Counted.add_sizes (hF : F.Counted) (hsize : 0 < F.size) (rule : CurvatureRule α) (P : Mat α n n)
    (a : Vec α n) : (F.add rule P a).state.size + 1 = F.size ∧ (F.add rule P a).state.artificial = F.artificial := by
  unfold Counted at hF
  obtain ⟨basis, hbasis, hgrown⟩ := exists_append (F := F) (by omega) a
  unfold add
  rw [hbasis]
  dsimp only
  rw [if_neg hsize.ne']
  by_cases h1 : F.size = 1
  · rw [if_pos h1]
    refine ⟨?_, rfl⟩
    change F.size - 1 + 1 = F.size
    omega
  rw [if_neg h1]
  set G := ({ F with basis, u := F.replay a } : ReducedFactor α n).shrink.restore
  have hG : G.size + 1 = F.size := by
    change F.size - 1 + 1 = F.size
    omega
  have hcounted : G.Counted := by
    change F.size - 1 + F.artificial + basis.size = n
    omega
  rcases hcounted.resolve_or (F.d (F.size - 1) ≤ rule.recompute ∧ 1 < G.size) (P.apply (Vec.ofFn fun i => G.z i 0)) with
    ⟨H, hH, hHsize, hHart, -⟩ | ⟨cause, hcause, -⟩
  · rw [hH]
    exact ⟨(congrArg (· + 1) hHsize).trans hG, hHart⟩
  · rw [hcause]
    exact ⟨hG, rfl⟩

end ReducedFactor

theorem Sphere.quadraticRoots_eq_error {a b c : α} {cause : Fault} (h : quadraticRoots a b c = .error cause) :
    cause = .illPosed := by
  unfold quadraticRoots at h
  dsimp only at h
  split_ifs at h <;> exact (Except.error.inj h).symm

def Sphere.IsHuge (radius : α) : Prop := Scalar.isFinite radius = true ∧ Scalar.isFinite (radius * radius) = false

theorem Sphere.crossings_eq_error {x d : ℕ → α} {radius : α} {cause : Fault}
    (h : crossings n x d radius = .error cause) : cause = .illPosed ∨ (cause = .overflow ∧ IsHuge radius) := by
  rcases bind_eq_error.1 h with h | ⟨_, -, h⟩
  · unfold square at h
    split_ifs at h with hhuge
    refine Or.inr ⟨(Except.error.inj h).symm, ?_⟩
    simpa [IsHuge] using hhuge
  · exact Or.inl (quadraticRoots_eq_error h)

namespace Solver

variable {s : Solver α m n} {d : Vec α n} {step : Step α n} {cause : Fault}

/-- The sizes fit: every direction is counted and the working columns are the working rows. -/
structure Fits (s : Solver α m n) : Prop where
  counted : s.factor.Counted
  sound : s.rows.Sound
  working : s.rows.working.length = s.factor.basis.size

theorem Lockstep.fits {p : Problem ℝ m n} {tol : Tolerances ℝ} {s : Solver ℝ m n} (hs : Lockstep p tol s) : Fits s :=
  ⟨hs.shaped.count, hs.sound, hs.length_working⟩

/-- What can go wrong with the numbers of a solve: a triangular system cannot be solved, or a radius bound has no
crossings that can be computed. -/
def Breaks (bounds : RadiusBounds α) (cause : Fault) : Prop :=
  cause.IsUnsolvable α ∨ cause = .illPosed ∨
    (cause = .overflow ∧ ∃ radius, (bounds.upper = some radius ∨ (0 < bounds.lower ∧ bounds.lower = radius)) ∧
      Sphere.IsHuge radius)

theorem breaks_of_radiusLimit (h : s.radiusLimit d = .error cause) : Breaks s.bounds cause := by
  have hcrossings : ∀ radius, (s.bounds.upper = some radius ∨ (0 < s.bounds.lower ∧ s.bounds.lower = radius)) →
      Sphere.crossings n s.x d radius = .error cause → Breaks s.bounds cause := fun radius hbound h => by
    rcases Sphere.crossings_eq_error h with hill | ⟨hoverflow, hhuge⟩
    · exact Or.inr (Or.inl hill)
    · exact Or.inr (Or.inr ⟨hoverflow, radius, hbound, hhuge⟩)
  have hinner : ∀ outer : List α, (do
      let inner ← if 0 < s.bounds.lower then Sphere.crossings n s.x d s.bounds.lower else pure []
      pure (((outer ++ inner).filter fun t => decide (0 ≤ t) && Scalar.isFinite t).foldl
        (fun best t => tighter best (some t)) none)) = Except.error cause → Breaks s.bounds cause := fun outer h => by
    dsimp only at h
    split_ifs at h with hlower
    · rcases bind_eq_error.1 h with h | ⟨_, -, h⟩
      · exact hcrossings _ (Or.inr ⟨hlower, rfl⟩) h
      · cases h
    · cases h
  unfold radiusLimit at h
  cases hupper : s.bounds.upper with
  | none =>
    rw [hupper] at h
    exact hinner [] h
  | some upper =>
    rw [hupper] at h
    dsimp only at h
    by_cases hfinite : Scalar.isFinite upper = true
    · rw [if_pos hfinite] at h
      rcases bind_eq_error.1 h with h | ⟨outer, -, h⟩
      · exact hcrossings upper (Or.inl hupper) h
      · exact hinner outer h
    · rw [if_neg hfinite] at h
      exact hinner [] h

theorem Fits.isUnsolvable_search (hs : Fits s) (h : s.search = .error cause) : cause.IsUnsolvable α := by
  have hwidth := hs.counted.width_eq
  unfold search at h
  dsimp only at h
  split_ifs at h
  · have h := map_eq_error.1 h
    unfold newtonDirection at h
    rw [hwidth] at h
    rcases bind_eq_error.1 h with h | ⟨u, -, h⟩
    · exact Triangular.isUnsolvable_solveT h
    · rcases bind_eq_error.1 h with h | ⟨w, -, h⟩
      · exact Triangular.isUnsolvable_solve h
      · cases h
  · have h := map_eq_error.1 h
    unfold rayDirection at h
    rcases bind_eq_error.1 h with h | ⟨w, -, h⟩
    · exact Triangular.isUnsolvable_solve h
    · rw [if_neg (not_not.2 hwidth)] at h
      cases h

theorem Fits.breaks_of_step (hs : Fits s) (h : s.step = .error cause) : Breaks s.bounds cause := by
  unfold Solver.step at h
  cases hsearch : s.search with
  | error cause' =>
    rw [hsearch] at h
    obtain rfl := Except.error.inj h
    exact Or.inl (hs.isUnsolvable_search hsearch)
  | ok found =>
    rw [hsearch] at h
    cases found with
    | rest => cases h
    | newton d => exact breaks_of_radiusLimit (map_eq_error.1 h)
    | ray d => exact breaks_of_radiusLimit (map_eq_error.1 h)

theorem Fits.length_ratios (hs : Fits s) (d : Vec α n) : (s.ratios d).length = s.rows.ignored.length := by
  unfold ratios
  rw [List.length_zipWith, hs.sound.length_ignoredRows, hs.sound.length_ignoredRhs, Nat.min_self]

theorem tightest_lt {limits : List (Option α)} {t : α} {i : ℕ} (h : tightest limits = some (t, i)) :
    i < limits.length := by
  unfold tightest at h
  cases hfold : limits.foldl tighter none with
  | none => simp [hfold] at h
  | some u =>
    simp only [hfold] at h
    split_ifs at h
    obtain ⟨j, hj, hpair⟩ := Option.map_eq_some_iff.1 h
    obtain ⟨-, rfl⟩ := Prod.mk.inj hpair
    simpa using List.mem_of_find?_eq_some hj

/-- Without a factored direction there is nothing to look for: an empty gradient is small. -/
theorem Fits.search_of_size_eq_zero (hs : Fits s) (hrest : 0 ≤ s.tolerances.projectedGradient)
    (h0 : s.factor.size = 0) : s.search = .ok .rest := by
  have hconvex : s.convex = true := by simp [convex, h0]
  have hsmall : norm s.factor.width (Vec.ofFn (s.factor.project s.gradient) : Vec α s.factor.width) ≤
      s.tolerances.projectedGradient := by
    unfold norm
    rwa [if_pos (hs.counted.width_eq.trans h0)]
  unfold search
  dsimp only
  rw [if_pos hconvex, if_pos hsmall]

theorem Fits.lt_of_bounded (hs : Fits s) {most : Option α} (h : s.bounded d most = .ok step) {i : ℕ}
    (hblock : step.blocking = some i) : i < s.rows.ignored.length := by
  obtain ⟨limit, -, rfl⟩ := map_eq_ok.1 h
  obtain ⟨⟨t, j⟩, hlimit, hif⟩ := Option.bind_eq_some_iff.1 hblock
  split_ifs at hif
  obtain rfl := Option.some.inj hif
  rw [← hs.length_ratios d]
  exact tightest_lt hlimit

theorem Fits.blocking_lt (hs : Fits s) (hrest : 0 ≤ s.tolerances.projectedGradient) (h : s.step = .ok step) {i : ℕ}
    (hblock : step.blocking = some i) : 0 < s.factor.size ∧ i < s.rows.ignored.length := by
  unfold Solver.step at h
  cases hsearch : s.search with
  | error cause =>
    rw [hsearch] at h
    cases h
  | ok found =>
    rw [hsearch] at h
    have hsize : found ≠ .rest → 0 < s.factor.size := fun hne => Nat.pos_of_ne_zero fun h0 =>
      hne (Except.ok.inj (hsearch.symm.trans (hs.search_of_size_eq_zero hrest h0)))
    cases found with
    | rest =>
      obtain rfl := Except.ok.inj h
      cases hblock
    | newton d => exact ⟨hsize nofun, hs.lt_of_bounded h hblock⟩
    | ray d => exact ⟨hsize nofun, hs.lt_of_bounded h hblock⟩

theorem Fits.add_or (hs : Fits s) (hsize : 0 < s.factor.size) {i : ℕ} (hi : i < s.rows.ignored.length) :
    ((s.add i).result = .ok () ∧ Fits (s.add i).state) ∨
      ∃ cause, (s.add i).result = .error cause ∧ cause.IsUnsolvable α := by
  have hcount := hs.counted
  unfold ReducedFactor.Counted at hcount
  obtain ⟨row, hrow⟩ : ∃ row, s.rows.ignored[i]? = some row := ⟨_, List.getElem?_eq_getElem hi⟩
  obtain ⟨rows, hactivate, -⟩ := hs.sound.activate (α := α) hrow
  have hadd := hs.counted.add_or (by omega) s.rule s.problem.P (s.problem.A.row row)
  rcases hadd with ⟨hadd, hcounted, hbasis⟩ | ⟨cause, hcause, hunsolvable⟩
  · have hok : (s.add i).result = .ok () := by
      unfold Solver.add
      rw [Position.resolve?_ofNat hi, Option.bind_some, hrow]
      refine Outcome.result_andThen_eq_ok.2 ⟨(), hadd, ?_⟩
      refine Outcome.result_andThen_eq_ok.2 ⟨row, ?_, Outcome.result_reporting ..⟩
      dsimp only [Outcome.state_within, Outcome.result_within]
      rw [hactivate]
      rfl
    obtain ⟨row', hrow', -, rows', hsound, -, -, hworking, -, hstate⟩ := add_eq_ok hs.sound hok
    obtain rfl : row = row' := Option.some.inj (hrow.symm.trans hrow')
    refine Or.inl ⟨hok, ?_⟩
    rw [hstate]
    refine ⟨hcounted, hsound, ?_⟩
    change rows'.working.length = _
    rw [hworking, List.length_append, hs.working]
    exact hbasis.symm
  · refine Or.inr ⟨cause, ?_, hunsolvable⟩
    unfold Solver.add
    rw [Position.resolve?_ofNat hi, Option.bind_some, hrow]
    exact (Outcome.andThen_of_error (o := Outcome.within _ fun factor => ({ s with factor } : Solver α m n)) hcause).1

/-- The operation on `s` was refused because the last curvature is not above the threshold. The factorization is as it
was. -/
structure Refused (s : Solver α m n) (o : Outcome α (Solver α m n) Unit) : Prop where
  result : o.result = .error .notPositive
  factor : o.state.factor = s.factor
  size : 0 < s.factor.size
  last : ¬s.rule.indefinite < s.factor.d (s.factor.size - 1)

theorem free_or (idx : Option ℤ) (hF : s.factor.Counted)
    (hidx : s.factor.artificial = 0 → ∃ i : ℕ, idx = some (i : ℤ) ∧ i < s.factor.basis.size) :
    ((s.free idx).result = .ok () ∧ (s.free idx).state.factor.Counted ∧ (s.free idx).state.factor.basis.size =
        if s.factor.artificial = 0 then s.factor.basis.size - 1 else s.factor.basis.size) ∨
      Refused s (s.free idx) ∨ ∃ cause, (s.free idx).result = .error cause ∧ cause.IsUnsolvable α := by
  rcases hF.remove_or s.rule s.problem.P idx hidx with hok | hunsolvable | ⟨hresult, hstate, hsize, hlast⟩
  · exact Or.inl hok
  · exact Or.inr (Or.inr hunsolvable)
  · exact Or.inr (Or.inl ⟨hresult, hstate, hsize, hlast⟩)

theorem Fits.remove_or (hs : Fits s) (hart : s.factor.artificial = 0) {i : ℕ} (hi : i < s.factor.basis.size) :
    ((s.remove i).result = .ok () ∧ Fits (s.remove i).state) ∨ Refused s (s.remove i) ∨
      ∃ cause, (s.remove i).result = .error cause ∧ cause.IsUnsolvable α := by
  have hlt : i < s.rows.working.length := by rwa [hs.working]
  obtain ⟨row, -, rows, hrows, -⟩ := hs.sound.release (α := α) (Position.resolve?_ofNat hlt)
  have hremove : s.remove i = (({ s with rows } : Solver α m n).free (some i)).andThen fun s _ =>
      (Outcome.done s ()).reporting (.rowRemoved s.iteration row) := by
    unfold Solver.remove
    rw [hrows]
    rfl
  rcases free_or (s := { s with rows }) (some (i : ℤ)) hs.counted fun _ => ⟨i, rfl, hi⟩ with
    ⟨hok, hcounted, hbasis⟩ | hrefused | ⟨cause, hcause, hunsolvable⟩
  · have hresult : (s.remove i).result = .ok () := by
      rw [hremove]
      exact Outcome.result_andThen_eq_ok.2 ⟨(), hok, Outcome.result_reporting ..⟩
    obtain ⟨-, rows', hsound, -, -, hworking, hstate⟩ := remove_eq_ok hs.sound hresult
    refine Or.inl ⟨hresult, ?_⟩
    rw [hstate]
    refine ⟨hcounted, hsound, ?_⟩
    change rows'.working.length = _
    rw [hworking, List.length_eraseIdx_of_lt hlt, hs.working]
    exact (hbasis.trans (if_pos hart)).symm
  · obtain ⟨hresult, hstate⟩ := Outcome.andThen_of_error hrefused.result
    rw [hremove]
    exact Or.inr (Or.inl ⟨hresult, hstate ▸ hrefused.factor, hrefused.size, hrefused.last⟩)
  · rw [hremove]
    exact Or.inr (Or.inr ⟨cause, (Outcome.andThen_of_error hcause).1, hunsolvable⟩)

theorem leastAt_lt {k : ℕ} (hk : 0 < k) (f : ℕ → α) : leastAt k f < k := by
  unfold leastAt
  refine ascend_keeps (p := fun _ best => best < k) hk k fun i best hi hbest => ?_
  split_ifs
  · exact hi
  · exact hbest

theorem Fits.exists_spread (hs : Fits s) (lam : ℕ → α) :
    ∃ multipliers : Vec α m, spread s.rows.working s.factor.basis.size lam = .ok multipliers := by
  unfold spread
  rw [if_pos (Or.inl hs.working)]
  exact ⟨_, rfl⟩

theorem Fits.check_or (hs : Fits s) : (∃ found, s.check.result = .ok found) ∨
    ∃ cause, s.check.result = .error cause ∧ cause.IsUnsolvable α := by
  unfold check
  cases hlam : s.columnMultipliers with
  | error cause => exact Or.inr ⟨cause, rfl, Triangular.isUnsolvable_solve (map_eq_error.1 hlam)⟩
  | ok lam =>
    refine Or.inl ?_
    obtain ⟨multipliers, hspread⟩ := hs.exists_spread lam
    dsimp only
    rw [hspread]
    dsimp only
    split_ifs
    · exact ⟨_, Outcome.result_reporting ..⟩
    · exact ⟨_, rfl⟩
    · exact ⟨_, rfl⟩

theorem check_eq_some {i : ℕ} (h : s.check.result = .ok (some i)) : i < s.factor.basis.size := by
  obtain ⟨lam, _, done, -, -, -, ⟨-, hfound, -⟩ | ⟨-, -, hfound, -⟩ | ⟨-, hnot, hfound, -⟩⟩ := check_cases h
  · cases hfound
  · cases hfound
  · obtain rfl := Option.some.inj hfound
    -- without working rows no multiplier is negative
    refine leastAt_lt (Nat.pos_of_ne_zero fun h0 => hnot fun j hj => ?_) lam
    omega

theorem Fits.check (hs : Fits s) : Fits s.check.state := by
  obtain ⟨multipliers, residual, done, hcheck⟩ := check_state (s := s)
  rw [hcheck]
  exact ⟨hs.counted, hs.sound, hs.working⟩

theorem Fits.settle_or (hs : Fits s) : (s.settle.result = .ok () ∧ Fits s.settle.state) ∨ Refused s s.settle ∨
    ∃ cause, s.settle.result = .error cause ∧ cause.IsUnsolvable α := by
  unfold Solver.settle
  by_cases hart : 0 < s.factor.artificial
  · rw [if_pos hart]
    rcases free_or none hs.counted fun h0 => absurd h0 hart.ne' with ⟨hok, hcounted, hbasis⟩ | hrest
    · rw [if_neg hart.ne'] at hbasis
      exact Or.inl ⟨hok, hcounted, hs.sound, hs.working.trans hbasis.symm⟩
    · exact Or.inr hrest
  rw [if_neg hart]
  obtain ⟨multipliers, residual, done, hcheck⟩ := check_state (s := s)
  rcases hs.check_or with ⟨found, hfound⟩ | ⟨cause, hcause, hunsolvable⟩
  · cases found with
    | none =>
      obtain ⟨hresult, hstate⟩ := Outcome.andThen_of_ok hfound
      rw [hresult, hstate]
      exact Or.inl ⟨rfl, hs.check⟩
    | some i =>
      have hfactor : s.check.state.factor = s.factor := by rw [hcheck]
      have hrule : s.check.state.rule = s.rule := by
        rw [hcheck]
        rfl
      have hi := check_eq_some hfound
      rw [← hfactor] at hi
      obtain ⟨hresult, hstate⟩ := Outcome.andThen_of_ok hfound
      rcases hs.check.remove_or (by rw [hfactor]; omega) hi with ⟨hok, hfits⟩ | hrefused | ⟨cause, hcause, hunsolvable⟩
      · refine Or.inl ⟨hresult.trans hok, ?_⟩
        rw [hstate]
        exact hfits
      · obtain ⟨hrefusal, hkept, hsize, hlast⟩ := hrefused
        rw [hrule, hfactor] at hlast
        rw [hfactor] at hkept hsize
        exact Or.inr (Or.inl ⟨hresult.trans hrefusal, (congrArg Solver.factor hstate).trans hkept, hsize, hlast⟩)
      · exact Or.inr (Or.inr ⟨cause, hresult.trans hcause, hunsolvable⟩)
  · exact Or.inr (Or.inr ⟨cause, (Outcome.andThen_of_error hcause).1, hunsolvable⟩)

theorem Fits.taken_or (hs : Fits s) (hrest : 0 ≤ s.tolerances.projectedGradient) (hstep : s.step = .ok step) (t : α) :
    ((s.taken step t).result = .ok () ∧ Fits (s.taken step t).state) ∨
      ∃ cause, (s.taken step t).result = .error cause ∧ cause.IsUnsolvable α := by
  have hmoved : Fits ({ s with x := s.x.along t step.direction } : Solver α m n) := ⟨hs.counted, hs.sound, hs.working⟩
  unfold taken
  cases hblock : step.blocking with
  | none => exact Or.inl ⟨rfl, hmoved⟩
  | some i =>
    obtain ⟨hsize, hi⟩ := hs.blocking_lt hrest hstep hblock
    exact hmoved.add_or hsize hi

theorem Fits.finish_or (hs : Fits s) (step : Step α n) :
    ((s.finish step).result = .ok () ∧ Fits (s.finish step).state) ∨
    (s.settles step = true ∧ Refused s (s.finish step)) ∨
      ∃ cause, (s.finish step).result = .error cause ∧ cause.IsUnsolvable α := by
  unfold finish
  by_cases hsettles : s.settles step = true
  · rw [if_pos hsettles]
    rcases hs.settle_or with ⟨hok, hsettled⟩ | hrefused | ⟨cause, hcause, hunsolvable⟩
    · obtain ⟨hresult, hstate⟩ := Outcome.andThen_of_ok hok
      refine Or.inl ⟨hresult, ?_⟩
      rw [hstate]
      exact ⟨hsettled.counted, hsettled.sound, hsettled.working⟩
    · obtain ⟨hresult, hstate⟩ := Outcome.andThen_of_error hrefused.result
      refine Or.inr (Or.inl ⟨hsettles, hresult, ?_, hrefused.size, hrefused.last⟩)
      rw [hstate]
      exact hrefused.factor
    · exact Or.inr (Or.inr ⟨cause, (Outcome.andThen_of_error hcause).1, hunsolvable⟩)
  · rw [if_neg hsettles]
    exact Or.inl ⟨rfl, hs.counted, hs.sound, hs.working⟩

/-- An iteration goes through and keeps the sizes, or settling after its step is refused, or its numbers break down. -/
theorem Fits.iterate_or (hs : Fits s) (hrest : 0 ≤ s.tolerances.projectedGradient) :
    (s.iterate.result = .ok () ∧ Fits s.iterate.state) ∨
      (∃ step t, s.step = .ok step ∧ step.length = some t ∧ (s.taken step t).result = .ok () ∧
        (s.taken step t).state.settles step = true ∧ Refused (s.taken step t).state s.iterate) ∨
      ∃ cause, s.iterate.result = .error cause ∧ Breaks s.bounds cause := by
  cases hstep : s.step with
  | error cause =>
    refine Or.inr (Or.inr ⟨cause, ?_, hs.breaks_of_step hstep⟩)
    rw [iterate_fail hstep]
    rfl
  | ok step =>
    cases hlen : step.length with
    | none =>
      obtain ⟨hresult, hstate⟩ := iterate_of_endless hstep hlen
      rw [hstate]
      exact Or.inl ⟨hresult, hs.counted, hs.sound, hs.working⟩
    | some t =>
      rw [iterate_eq hstep hlen]
      rcases hs.taken_or hrest hstep t with ⟨htaken, hfits⟩ | ⟨cause, hcause, hunsolvable⟩
      · obtain ⟨hresult, hstate⟩ := Outcome.andThen_of_ok (f := fun r _ => r.finish step) htaken
        rcases hfits.finish_or step with ⟨hok, hfinished⟩ | ⟨hsettles, hrefused⟩ | ⟨cause, hcause, hunsolvable⟩
        · refine Or.inl ⟨hresult.trans hok, ?_⟩
          rw [hstate]
          exact hfinished
        · refine Or.inr (Or.inl ⟨step, t, rfl, hlen, htaken, hsettles, hresult.trans hrefused.result, ?_,
            hrefused.size, hrefused.last⟩)
          rw [hstate]
          exact hrefused.factor
        · exact Or.inr (Or.inr ⟨cause, hresult.trans hcause, Or.inl hunsolvable⟩)
      · exact Or.inr (Or.inr ⟨cause, (Outcome.andThen_of_error hcause).1, Or.inl hunsolvable⟩)

theorem add_frame (s : Solver α m n) (idx : ℤ) : ∃ rows factor, (s.add idx).state = { s with rows, factor } ∧
    s.rows.working ⊆ rows.working := by
  unfold add
  split
  · exact ⟨s.rows, s.factor, rfl, List.Subset.refl _⟩
  · refine Outcome.andThen_keeps (q := fun t : Solver α m n => ∃ rows factor, t = { s with rows, factor } ∧
      s.rows.working ⊆ rows.working) ⟨s.rows, _, rfl, List.Subset.refl _⟩ ?_
    rintro t - ⟨rows, factor, rfl, hsubset⟩
    refine Outcome.andThen_keeps (q := fun t : Solver α m n => ∃ rows factor, t = { s with rows, factor } ∧
      s.rows.working ⊆ rows.working) ⟨_, factor, rfl, List.Subset.trans hsubset (rows.working_activate idx)⟩ ?_
    intro t _ ht
    rwa [Outcome.state_reporting]

/-- Also where it is refused half way, releasing a row takes only that one away. -/
theorem remove_frame (s : Solver α m n) (idx : ℤ) : ∃ rows factor, (s.remove idx).state = { s with rows, factor } ∧
    ∃ row, ∀ other ∈ s.rows.working, other ≠ row → other ∈ rows.working := by
  unfold remove
  refine Outcome.andThen_keeps (q := fun t : Solver α m n => ∃ rows factor, t = { s with rows, factor } ∧
    ∃ row, ∀ other ∈ s.rows.working, other ≠ row → other ∈ rows.working)
    ⟨_, s.factor, rfl, s.rows.working_release idx⟩ ?_
  rintro t - ⟨rows, factor, rfl, hlost⟩
  refine Outcome.andThen_keeps (q := fun t : Solver α m n => ∃ rows factor, t = { s with rows, factor } ∧
    ∃ row, ∀ other ∈ s.rows.working, other ≠ row → other ∈ rows.working) ⟨rows, _, rfl, hlost⟩ ?_
  intro t _ ht
  rwa [Outcome.state_reporting]

theorem settle_frame (s : Solver α m n) : ∃ multipliers residual done rows factor,
    s.settle.state = { s with multipliers, residual, done, rows, factor } := by
  unfold settle
  split_ifs
  · exact ⟨_, _, _, _, _, rfl⟩
  · obtain ⟨multipliers, residual, done, hcheck⟩ := check_state (s := s)
    refine Outcome.andThen_keeps (q := fun t : Solver α m n => ∃ multipliers residual done rows factor,
      t = { s with multipliers, residual, done, rows, factor }) ⟨_, _, _, _, _, hcheck⟩ ?_
    rintro t found ⟨multipliers, residual, done, rows, factor, rfl⟩
    cases found with
    | none => exact ⟨_, _, _, _, _, rfl⟩
    | some idx =>
      obtain ⟨rows', factor', hremove, -⟩ := remove_frame { s with multipliers, residual, done, rows, factor } idx
      exact ⟨_, _, _, _, _, hremove⟩

theorem taken_frame (s : Solver α m n) (step : Step α n) (t : α) : ∃ rows factor,
    (s.taken step t).state = { s with x := s.x.along t step.direction, rows, factor } := by
  unfold taken
  cases step.blocking with
  | none => exact ⟨_, _, rfl⟩
  | some i =>
    obtain ⟨rows, factor, hadd, -⟩ := add_frame { s with x := s.x.along t step.direction } i
    exact ⟨rows, factor, hadd⟩

theorem finish_frame (step : Step α n) (s : Solver α m n) : ∃ multipliers residual done rows factor iteration,
    (s.finish step).state = { s with multipliers, residual, done, rows, factor, iteration } := by
  unfold finish
  refine Outcome.andThen_keeps (q := fun t : Solver α m n => ∃ multipliers residual done rows factor iteration,
    t = { s with multipliers, residual, done, rows, factor, iteration }) ?_ ?_
  · split_ifs
    · obtain ⟨_, _, _, _, _, hsettle⟩ := s.settle_frame
      exact ⟨_, _, _, _, _, _, hsettle⟩
    · exact ⟨_, _, _, _, _, _, rfl⟩
  · rintro t - ⟨multipliers, residual, done, rows, factor, iteration, rfl⟩
    exact ⟨_, _, _, _, _, _, rfl⟩

theorem iterate_along {step : Step α n} {t : α} (hstep : s.step = .ok step) (hlen : step.length = some t) :
    ∃ multipliers residual done rows factor iteration, s.iterate.state =
      { s with x := s.x.along t step.direction, multipliers, residual, done, rows, factor, iteration } := by
  rw [iterate_eq hstep hlen]
  obtain ⟨rows, factor, htaken⟩ := s.taken_frame step t
  cases hresult : (s.taken step t).result with
  | error cause => exact ⟨_, _, _, rows, factor, _, (Outcome.andThen_of_error hresult).2.trans htaken⟩
  | ok u =>
    obtain ⟨_, _, _, rows', factor', _, hfinish⟩ := finish_frame step (s.taken step t).state
    rw [(Outcome.andThen_of_ok hresult).2, hfinish, htaken]
    exact ⟨_, _, _, _, _, _, rfl⟩

/-- What an iteration can change, also where a fault stops it: it does nothing, or finds a ray, or goes along the
direction of its step. -/
theorem iterate_frame (s : Solver α m n) : s.iterate.state = s ∨ ∃ step, s.step = .ok step ∧
    ((step.length = none ∧ s.iterate.state = { s with ray := some step.direction }) ∨
      ∃ t multipliers residual done rows factor iteration, step.length = some t ∧ s.iterate.state =
        { s with x := s.x.along t step.direction, multipliers, residual, done, rows, factor, iteration }) := by
  cases hstep : s.step with
  | error cause =>
    left
    rw [iterate_fail hstep]
    rfl
  | ok step =>
    refine Or.inr ⟨step, rfl, ?_⟩
    cases hlen : step.length with
    | none => exact Or.inl ⟨rfl, (iterate_of_endless hstep hlen).2⟩
    | some t =>
      obtain ⟨_, _, _, _, _, _, hstate⟩ := iterate_along hstep hlen
      exact Or.inr ⟨t, _, _, _, _, _, _, rfl, hstate⟩

def Alike (s t : Solver α m n) : Prop := t.tolerances = s.tolerances ∧ t.bounds = s.bounds

variable {t : Solver α m n}

theorem Alike.taken (h : Alike s t) (step : Step α n) (v : α) : Alike s (t.taken step v).state := by
  obtain ⟨rows, factor, hstate⟩ := t.taken_frame step v
  rw [hstate]
  exact h

theorem Alike.iterate (h : Alike s t) : Alike s t.iterate.state := by
  obtain hstate | ⟨step, -, ⟨-, hstate⟩ | ⟨v, _, _, _, _, _, _, -, hstate⟩⟩ := t.iterate_frame
  · rwa [hstate]
  · rw [hstate]
    exact h
  · rw [hstate]
    exact h

end Solver

end ActiveSet
