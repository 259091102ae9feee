import ActiveSet.Proofs.Restriction
import ActiveSet.Proofs.Rows
import ActiveSet.Solver.Start

/-! The lists of rows, the working columns and the two factorizations change together: after any number of
iterations the basis factors the working rows in the order of the list. -/

namespace ActiveSet

noncomputable section
open Exact

theorem Outcome.andThen_eq_ok {α σ β γ : Type} {o : Outcome α σ β} {next : σ → β → Outcome α σ γ} {c : γ}
    (h : (o.andThen next).result = .ok c) : ∃ b, o.result = .ok b ∧ (next o.state b).result = .ok c ∧
      (o.andThen next).state = (next o.state b).state := by
  obtain ⟨b, hb, hnext⟩ := Outcome.result_andThen_eq_ok.1 h
  exact ⟨b, hb, hnext, by simp [Outcome.andThen, hb]⟩

theorem Outcome.andThen_of_ok {α σ β γ : Type} {o : Outcome α σ β} {f : σ → β → Outcome α σ γ} {b : β}
    (h : o.result = .ok b) : (o.andThen f).result = (f o.state b).result ∧
      (o.andThen f).state = (f o.state b).state := by
  unfold andThen
  rw [h]
  exact ⟨rfl, rfl⟩

theorem Outcome.andThen_of_error {α σ β γ : Type} {o : Outcome α σ β} {f : σ → β → Outcome α σ γ} {cause : Fault}
    (h : o.result = .error cause) : (o.andThen f).result = .error cause ∧ (o.andThen f).state = o.state := by
  unfold andThen
  rw [h]
  exact ⟨rfl, rfl⟩

theorem Outcome.andThen_keeps {α σ β γ : Type} {q : σ → Prop} {o : Outcome α σ β} {next : σ → β → Outcome α σ γ}
    (ho : q o.state) (hnext : ∀ s b, q s → q (next s b).state) : q (o.andThen next).state := by
  unfold andThen
  cases o.result with
  | error cause => exact ho
  | ok b => exact hnext o.state b ho

theorem Outcome.andThen_assoc {α σ β γ δ : Type} (o : Outcome α σ β) (next : σ → β → Outcome α σ γ)
    (last : σ → γ → Outcome α σ δ) :
    (o.andThen next).andThen last = o.andThen fun s b => (next s b).andThen last := by
  unfold andThen
  cases o.result with
  | error cause => rfl
  | ok b =>
    dsimp only
    cases (next o.state b).result with
    | error cause => rfl
    | ok c =>
      dsimp only
      rw [List.append_assoc]

theorem Outcome.andThen_done {α σ : Type} (o : Outcome α σ Unit) : (o.andThen fun s _ => .done s ()) = o := by
  obtain ⟨state, events, result⟩ := o
  unfold andThen
  cases result with
  | error cause => rfl
  | ok u => simp [done]

variable {m n : ℕ}

structure Tolerances.Accepted (tol : Tolerances ℝ) : Prop where
  blocking : 0 ≤ tol.blocking
  indefinite : 0 ≤ tol.indefinite
  multiplier : 0 ≤ tol.multiplier
  projectedGradient : 0 ≤ tol.projectedGradient
  relativeCurvature : 0 ≤ tol.relativeCurvature

theorem Tolerances.magnitudes_nonneg {α : Type} [Scalar α] {tol : Tolerances α} (h : tol.validate = .ok ()) :
    ∀ m ∈ tol.magnitudes, 0 ≤ m.2 := by
  revert h
  unfold validate
  cases hfind : tol.magnitudes.find? _ with
  | some m => exact fun h => nomatch h
  | none =>
    intro _ m hm
    have hpass := List.find?_eq_none.1 hfind m hm
    simp only [Bool.not_eq_true', Bool.and_eq_false_iff, decide_eq_false_iff_not, not_or, not_not] at hpass
    exact hpass.2

theorem Tolerances.accepted_of_validate {tol : Tolerances ℝ} (h : tol.validate = .ok ()) : tol.Accepted := by
  have hall := magnitudes_nonneg h
  exact ⟨hall ("blocking", tol.blocking) (by simp [magnitudes]),
    hall ("indefinite", tol.indefinite) (by simp [magnitudes]),
    hall ("multiplier", tol.multiplier) (by simp [magnitudes]),
    hall ("projected_gradient", tol.projectedGradient) (by simp [magnitudes]),
    hall ("relative_curvature", tol.relativeCurvature) (by simp [magnitudes])⟩

theorem Tolerances.radiusMargin_nonneg {tol : Tolerances ℝ} (h : tol.validate = .ok ()) : 0 ≤ tol.radiusMargin :=
  magnitudes_nonneg h ("radius_margin", tol.radiusMargin) (by simp [magnitudes])

theorem Tolerances.validate_eq_ok {tol : Tolerances ℝ} (hall : ∀ m ∈ tol.magnitudes, 0 ≤ m.2)
    (hrecompute : tol.curvatureRecompute < 0) : tol.validate = .ok () := by
  unfold validate
  cases hfind : tol.magnitudes.find? _ with
  | none =>
    dsimp only
    rw [if_pos hrecompute]
  | some m =>
    have hbad := List.find?_some hfind
    simp [hall m (List.mem_of_find?_eq_some hfind)] at hbad

theorem Mat.scale_nonneg {r c : ℕ} (M : Mat ℝ r c) : 0 ≤ M.scale := by
  unfold scale
  split_ifs
  · exact le_rfl
  · have hrow := le_maximum (r - 1) (fun i => maximum (c - 1) fun j => Scalar.abs (M i j)) 0 (Nat.zero_le _)
    have hentry := le_maximum (c - 1) (fun j => Scalar.abs (M 0 j)) 0 (Nat.zero_le _)
    rw [abs_eq] at hentry
    exact (abs_nonneg _).trans (hentry.trans hrow)

theorem Tolerances.Accepted.flat {tol : Tolerances ℝ} (ht : tol.Accepted) (P : Mat ℝ n n) :
    0 ≤ (tol.rule P).flat := mul_nonneg ht.relativeCurvature P.scale_nonneg

namespace ReducedFactor

variable {α : Type} [Scalar α] {P : Mat α n n} {F G : ReducedFactor α n} {rule : CurvatureRule α} {idx : Option ℤ}

theorem basis_grow {H : ReducedFactor α n} (h : grow rule P F G = .ok H) : H.basis = G.basis := by
  obtain ⟨w, -, rfl⟩ := map_eq_ok.1 h
  rfl

theorem basis_remove_of_artificial (hart : 0 < F.artificial) (h : (F.remove rule P idx).result = .ok ()) :
    (F.remove rule P idx).state.basis = F.basis := by
  obtain ⟨-, hrelease, hgrow⟩ := remove_cases h
  rw [basis_grow hgrow]
  rcases release_eq_ok hrelease with ⟨h0, -⟩ | ⟨-, hs⟩
  · omega
  · rw [hs]

theorem basis_remove_of_column (hart : F.artificial = 0) (h : (F.remove rule P idx).result = .ok ()) :
    ∃ i : ℤ, idx = some i ∧ (F.basis.remove i).result = .ok () ∧
      (F.remove rule P idx).state.basis = (F.basis.remove i).state := by
  obtain ⟨-, hrelease, hgrow⟩ := remove_cases h
  rcases release_eq_ok hrelease with ⟨-, i, hi, hremove, hs⟩ | ⟨hpos, -⟩
  · refine ⟨i, hi, hremove, ?_⟩
    rw [basis_grow hgrow, hs]
  · omega

end ReducedFactor

namespace Solver

variable {p : Problem ℝ m n} {tol : Tolerances ℝ} {s : Solver ℝ m n}

/-- The parts of a solve belong together: the rows are those of the problem, and the working ones are
factored in their order. -/
structure Lockstep (p : Problem ℝ m n) (tol : Tolerances ℝ) (s : Solver ℝ m n) : Prop where
  problem : s.problem = p
  tolerances : s.tolerances = tol
  rows : s.rows.rows = p.A.rows
  rhs : s.rows.rhs = p.b.toList
  sound : s.rows.Sound
  columns : s.factor.basis.Factors (s.rows.working.map p.A.row)
  shaped : s.factor.Shaped

/-- The point, the multipliers and the verdict do not matter. -/
theorem Lockstep.of_eq {s' : Solver ℝ m n} (hs : Lockstep p tol s) (hp : s'.problem = s.problem)
    (ht : s'.tolerances = s.tolerances) (hr : s'.rows = s.rows) (hf : s'.factor = s.factor) : Lockstep p tol s' := by
  refine ⟨hp.trans hs.problem, ht.trans hs.tolerances, ?_, ?_, ?_, ?_, ?_⟩
  · rw [hr, hs.rows]
  · rw [hr, hs.rhs]
  · rw [hr]
    exact hs.sound
  · rw [hr, hf]
    exact hs.columns
  · rw [hf]
    exact hs.shaped

theorem Lockstep.moved (hs : Lockstep p tol s) (x : Vec ℝ n) : Lockstep p tol { s with x } :=
  hs.of_eq rfl rfl rfl rfl

theorem Lockstep.length_working (hs : Lockstep p tol s) : s.rows.working.length = s.factor.basis.size := by
  rw [hs.columns.size, List.length_map]

theorem Lockstep.gradient_eq (hs : Lockstep p tol s) : s.gradient = p.gradient s.x := by
  unfold Solver.gradient
  rw [hs.problem]

theorem Lockstep.rule_eq (hs : Lockstep p tol s) : s.rule = tol.rule p.P := by
  unfold Solver.rule
  rw [hs.problem, hs.tolerances]

theorem initialFactor_eq_ok {α : Type} [Scalar α] (tol : Tolerances α) (P : Mat α n n) :
    (initialFactor tol P).result = .ok () := by
  unfold initialFactor
  dsimp only
  split_ifs with h
  · exact Outcome.result_andThen_eq_ok.2 ⟨(), rfl, ReducedFactor.remove_of_size_eq_zero _ _ h.1 h.2⟩
  · rfl

theorem state_initialFactor {α : Type} [Scalar α] (tol : Tolerances α) (P : Mat α n n) {F : ReducedFactor α n}
    (hF : F = ReducedFactor.ofFactor (tol.rule P) P OrthogonalFactor.empty) : (initialFactor tol P).state =
      if F.size = 0 ∧ 0 < F.artificial then (F.remove (tol.rule P) P none).state else F := by
  subst hF
  unfold initialFactor
  dsimp only
  split_ifs
  · rfl
  · rfl

theorem initialFactor_spec (ht : tol.Accepted) (P : Mat ℝ n n) (h : (initialFactor tol P).result = .ok ()) :
    (initialFactor tol P).state.basis.Factors [] ∧ (initialFactor tol P).state.Shaped := by
  have hempty : (OrthogonalFactor.empty : OrthogonalFactor ℝ n).Factors [] := OrthogonalFactor.factors_empty
  have hshaped : (ReducedFactor.ofFactor (tol.rule P) P OrthogonalFactor.empty).Shaped :=
    ReducedFactor.shaped_ofFactor hempty
  have hbasis : (ReducedFactor.ofFactor (tol.rule P) P OrthogonalFactor.empty).basis.Factors [] :=
    ReducedFactor.factors_arrange hempty (ReducedFactor.truncated_pivots ..)
  unfold initialFactor at h ⊢
  dsimp only at h ⊢
  split_ifs at h ⊢ with h0
  · obtain ⟨-, -, hremove, hs⟩ := Outcome.andThen_eq_ok h
    rw [hs]
    refine ⟨?_, hshaped.remove ht.indefinite hremove⟩
    rw [ReducedFactor.basis_remove_of_artificial h0.2 hremove]
    exact hbasis
  · exact ⟨hbasis, hshaped⟩

theorem length_rows {α : Type} [Scalar α] (A : Mat α m n) : A.rows.length = m := by simp [Mat.rows]

theorem length_toList {α : Type} [Scalar α] (b : Vec α m) : b.toList.length = m := by simp [Vec.toList]

theorem start_state {α : Type} [Scalar α] {p : Problem α m n} {tol : Tolerances α} {s : Solver α m n} {x : Vec α n}
    {bounds : RadiusBounds α} {events : List (Event α)} (h : start p x bounds tol = .ok (s, events)) :
    tol.validate = .ok () ∧ ∃ accepted, acceptBounds tol bounds = .ok accepted ∧ violates tol p accepted x = false ∧ s =
      { problem := p, bounds := accepted, tolerances := tol, x, multipliers := 0, residual := none, iteration := 0
        done := false, ray := none, rows := WorkingSet.start p.A.rows p.b.toList
        factor := (initialFactor tol p.P).state } := by
  unfold start at h
  obtain ⟨⟨⟩, hvalid, h⟩ := bind_eq_ok.1 h
  dsimp only at h
  split_ifs at h with hsym
  · cases h
  obtain ⟨accepted, haccepted, h⟩ := bind_eq_ok.1 h
  split_ifs at h with hviolates
  · cases h
  obtain ⟨⟨⟩, -, h⟩ := bind_eq_ok.1 h
  obtain ⟨rfl, -⟩ := Prod.mk.inj (Except.ok.inj h)
  exact ⟨hvalid, accepted, haccepted, Bool.eq_false_of_not_eq_true hviolates, rfl⟩

theorem start_eq_ok {x : Vec ℝ n} {bounds : RadiusBounds ℝ} {events : List (Event ℝ)}
    (h : start p x bounds tol = .ok (s, events)) :
    tol.Accepted ∧ Lockstep p tol s ∧ s.x = x ∧ s.rows.working = [] ∧ s.done = false := by
  obtain ⟨hvalid, accepted, -, -, rfl⟩ := start_state h
  have ht := Tolerances.accepted_of_validate hvalid
  obtain ⟨hbasis, hshaped⟩ := initialFactor_spec ht p.P (initialFactor_eq_ok tol p.P)
  exact ⟨ht, ⟨rfl, rfl, rfl, rfl, WorkingSet.sound_start (by rw [length_rows, length_toList]), hbasis, hshaped⟩,
    rfl, rfl, rfl⟩

theorem add_eq_ok {α : Type} [Scalar α] {s : Solver α m n} (hs : s.rows.Sound) {i : ℕ} (h : (s.add i).result = .ok ()) :
    ∃ row, s.rows.ignored[i]? = some row ∧
      (s.factor.add s.rule s.problem.P (s.problem.A.row row)).result = .ok () ∧
      ∃ rows : WorkingSet (Vec α n) α, rows.Sound ∧ rows.rows = s.rows.rows ∧ rows.rhs = s.rows.rhs ∧
        rows.working = s.rows.working ++ [row] ∧ rows.ignored = s.rows.ignored.eraseIdx i ∧
        (s.add i).state =
          { s with rows, factor := (s.factor.add s.rule s.problem.P (s.problem.A.row row)).state } := by
  revert h
  unfold Solver.add
  cases hrow : (Position.resolve? s.rows.ignored.length i).bind fun j => s.rows.ignored[j]? with
  | none => exact fun h => nomatch h
  | some row =>
    intro h
    obtain ⟨j, hj, hrow⟩ := Option.bind_eq_some_iff.1 hrow
    obtain ⟨rfl, -⟩ : i = j ∧ i < s.rows.ignored.length := by
      unfold Position.resolve? at hj
      rw [if_pos (by omega)] at hj
      split_ifs at hj with hlt
      exact ⟨by simpa using Option.some.inj hj, by omega⟩
    obtain ⟨⟨⟩, hfactor, h, hstate⟩ := Outcome.andThen_eq_ok h
    obtain ⟨rows, hactivate, hsound, hr, hb, hworking, hignored⟩ := hs.activate (α := α) hrow
    refine ⟨row, hrow, hfactor, rows, hsound, hr, hb, hworking, hignored, ?_⟩
    rw [hstate]
    dsimp only [Outcome.state_within]
    rw [hactivate]
    simp [Outcome.done, Outcome.andThen, Outcome.within]

theorem Lockstep.add (hs : Lockstep p tol s) (ht : tol.Accepted) {i : ℕ} (h : (s.add i).result = .ok ()) :
    Lockstep p tol (s.add i).state := by
  obtain ⟨row, hrow, hfactor, rows, hsound, hr, hb, hworking, -, hstate⟩ := add_eq_ok hs.sound h
  have hflat : 0 ≤ s.rule.flat := by
    rw [hs.rule_eq]
    exact ht.flat _
  rw [hstate]
  refine ⟨hs.problem, hs.tolerances, hr.trans hs.rows, hb.trans hs.rhs, hsound, ?_, hs.shaped.add hflat hfactor⟩
  change OrthogonalFactor.Factors _ (rows.working.map p.A.row)
  rw [hworking, List.map_append, ← hs.problem]
  have hcolumns := hs.columns
  rw [← hs.problem] at hcolumns
  exact hcolumns.append (ReducedFactor.basis_add hfactor)

theorem Lockstep.free (hs : Lockstep p tol s) (ht : tol.Accepted) (hart : 0 < s.factor.artificial)
    {idx : Option ℤ} (h : (s.free idx).result = .ok ()) : Lockstep p tol (s.free idx).state := by
  have hind : 0 ≤ s.rule.indefinite := by
    rw [hs.rule_eq]
    exact ht.indefinite
  refine ⟨hs.problem, hs.tolerances, hs.rows, hs.rhs, hs.sound, ?_, hs.shaped.remove hind h⟩
  change (s.factor.remove s.rule s.problem.P idx).state.basis.Factors _
  rw [ReducedFactor.basis_remove_of_artificial hart h]
  exact hs.columns

/-- A working row given by its position, also from the end, leaves the lists whatever the factorization says. -/
theorem remove_resolved {α : Type} [Scalar α] {s : Solver α m n} (hs : s.rows.Sound) {idx : ℤ} {place : ℕ}
    (hidx : Position.resolve? s.rows.working.length idx = some place) :
    (s.remove idx).result = (s.factor.remove s.rule s.problem.P (some idx)).result ∧
      ∃ rows : WorkingSet (Vec α n) α, rows.Sound ∧ rows.rows = s.rows.rows ∧ rows.rhs = s.rows.rhs ∧
        rows.working = s.rows.working.eraseIdx place ∧ (s.remove idx).state =
          { s with rows, factor := (s.factor.remove s.rule s.problem.P (some idx)).state } := by
  obtain ⟨row, -, rows, heq, hsound, hr, hb, hworking, -⟩ := hs.release (α := α) hidx
  have hremove : s.remove idx = (({ s with rows } : Solver α m n).free (some idx)).andThen fun s _ =>
      (Outcome.done s ()).reporting (.rowRemoved s.iteration row) := by
    unfold Solver.remove
    rw [heq]
    exact Outcome.done_andThen ..
  have hkeep : ∀ o : Outcome α (Solver α m n) Unit,
      (o.andThen fun s _ => (Outcome.done s ()).reporting (.rowRemoved s.iteration row)).result = o.result ∧
      (o.andThen fun s _ => (Outcome.done s ()).reporting (.rowRemoved s.iteration row)).state = o.state := by
    intro o
    unfold Outcome.andThen
    cases o.result <;> exact ⟨rfl, rfl⟩
  rw [hremove, (hkeep _).1, (hkeep _).2]
  exact ⟨rfl, rows, hsound, hr, hb, hworking, rfl⟩

theorem remove_eq_ok {α : Type} [Scalar α] {s : Solver α m n} (hs : s.rows.Sound) {i : ℕ}
    (h : (s.remove i).result = .ok ()) : (s.factor.remove s.rule s.problem.P (some i)).result = .ok () ∧
      ∃ rows : WorkingSet (Vec α n) α, rows.Sound ∧ rows.rows = s.rows.rows ∧ rows.rhs = s.rows.rhs ∧
        rows.working = s.rows.working.eraseIdx i ∧ (s.remove i).state =
          { s with rows, factor := (s.factor.remove s.rule s.problem.P (some (i : ℤ))).state } := by
  have hlt : i < s.rows.working.length := by
    by_contra hge
    have hnone : Position.resolve? s.rows.working.length (i : ℤ) = none := by
      unfold Position.resolve?
      rw [if_pos (by omega), if_neg (by omega)]
    unfold Solver.remove at h
    obtain ⟨row, hrelease, -⟩ := Outcome.andThen_eq_ok h
    simp [WorkingSet.release, hnone, Outcome.fail] at hrelease
  obtain ⟨hresult, hrows⟩ := remove_resolved hs (Position.resolve?_ofNat hlt)
  exact ⟨hresult.symm.trans h, hrows⟩

theorem Lockstep.remove (hs : Lockstep p tol s) (ht : tol.Accepted) (hart : s.factor.artificial = 0) {i : ℕ}
    (h : (s.remove i).result = .ok ()) : Lockstep p tol (s.remove i).state := by
  obtain ⟨hfactor, rows, hsound, hr, hb, hworking, hstate⟩ := remove_eq_ok hs.sound h
  have hind : 0 ≤ s.rule.indefinite := by
    rw [hs.rule_eq]
    exact ht.indefinite
  rw [hstate]
  refine ⟨hs.problem, hs.tolerances, hr.trans hs.rows, hb.trans hs.rhs, hsound, ?_, hs.shaped.remove hind hfactor⟩
  obtain ⟨j, hj, hremove, hbasis⟩ := ReducedFactor.basis_remove_of_column hart hfactor
  obtain rfl : (i : ℤ) = j := Option.some.inj hj
  change (s.factor.remove s.rule s.problem.P (some (i : ℤ))).state.basis.Factors (rows.working.map p.A.row)
  rw [hbasis, hworking, ← List.eraseIdx_map]
  exact hs.columns.remove hremove

theorem check_state {α : Type} [Scalar α] {s : Solver α m n} : ∃ multipliers residual done,
    s.check.state = { s with multipliers, residual, done } := by
  unfold check
  cases s.columnMultipliers with
  | error cause => exact ⟨_, _, _, rfl⟩
  | ok lam =>
    dsimp only
    cases spread s.rows.working s.factor.basis.size lam with
    | error cause => exact ⟨_, _, _, rfl⟩
    | ok multipliers =>
      dsimp only
      split_ifs
      · exact ⟨_, _, _, Outcome.state_reporting ..⟩
      · exact ⟨_, _, _, rfl⟩
      · exact ⟨_, _, _, rfl⟩

theorem check_cases {α : Type} [Scalar α] {s : Solver α m n} {found : Option ℕ} (h : s.check.result = .ok found) :
    ∃ lam multipliers done, s.columnMultipliers = .ok lam ∧
      spread s.rows.working s.factor.basis.size lam = .ok multipliers ∧
      s.check.state = { s with
        multipliers
        residual := some (norm s.factor.width (s.factor.project s.gradient))
        done } ∧
      ((s.tolerances.projectedGradient < norm s.factor.width (s.factor.project s.gradient) ∧ found = none ∧
          done = false) ∨
        (¬s.tolerances.projectedGradient < norm s.factor.width (s.factor.project s.gradient) ∧
          (∀ i < s.factor.basis.size, -s.tolerances.multiplier ≤ lam i) ∧ found = none ∧ done = true) ∨
        (¬s.tolerances.projectedGradient < norm s.factor.width (s.factor.project s.gradient) ∧
          (¬∀ i < s.factor.basis.size, -s.tolerances.multiplier ≤ lam i) ∧
          found = some (leastAt s.factor.basis.size lam) ∧ done = false)) := by
  revert h
  unfold check
  cases hlam : s.columnMultipliers with
  | error cause => exact fun h => nomatch h
  | ok lam =>
    dsimp only
    cases hspread : spread (m := m) s.rows.working s.factor.basis.size lam with
    | error cause => exact fun h => nomatch h
    | ok multipliers =>
      have hall : ((List.range s.factor.basis.size).all fun i => decide (-s.tolerances.multiplier ≤ lam i)) = true ↔
          ∀ i < s.factor.basis.size, -s.tolerances.multiplier ≤ lam i := by
        simp [List.all_eq_true]
      dsimp only
      split_ifs with hlarge hnone
      · intro h
        rw [Outcome.result_reporting] at h
        exact ⟨lam, multipliers, _, rfl, hspread, Outcome.state_reporting ..,
          Or.inl ⟨hlarge, (Except.ok.inj h).symm, rfl⟩⟩
      · intro h
        exact ⟨lam, multipliers, _, rfl, hspread, rfl,
          Or.inr (Or.inl ⟨hlarge, hall.1 hnone, (Except.ok.inj h).symm, rfl⟩)⟩
      · intro h
        exact ⟨lam, multipliers, _, rfl, hspread, rfl,
          Or.inr (Or.inr ⟨hlarge, fun hnot => hnone (hall.2 hnot), (Except.ok.inj h).symm, rfl⟩)⟩

theorem Lockstep.check (hs : Lockstep p tol s) : Lockstep p tol s.check.state := by
  obtain ⟨multipliers, residual, done, hstate⟩ := check_state (s := s)
  exact hs.of_eq (by rw [hstate]) (by rw [hstate]) (by rw [hstate]) (by rw [hstate])

theorem settle_cases {α : Type} [Scalar α] {s : Solver α m n} (h : s.settle.result = .ok ()) :
    (0 < s.factor.artificial ∧ (s.free none).result = .ok () ∧ s.settle.state = (s.free none).state) ∨
      (s.factor.artificial = 0 ∧
        ((s.check.result = .ok none ∧ s.settle.state = s.check.state) ∨
          ∃ i : ℕ, s.check.result = .ok (some i) ∧ (s.check.state.remove i).result = .ok () ∧
            s.settle.state = (s.check.state.remove i).state)) := by
  unfold settle at h ⊢
  split_ifs at h ⊢ with hart
  · exact Or.inl ⟨hart, h, rfl⟩
  · refine Or.inr ⟨by omega, ?_⟩
    obtain ⟨found, hcheck, hnext, hstate⟩ := Outcome.andThen_eq_ok h
    rw [hstate]
    cases found with
    | none => exact Or.inl ⟨hcheck, rfl⟩
    | some i => exact Or.inr ⟨i, hcheck, hnext, rfl⟩

theorem Lockstep.settle (hs : Lockstep p tol s) (ht : tol.Accepted) (h : s.settle.result = .ok ()) :
    Lockstep p tol s.settle.state := by
  rcases settle_cases h with ⟨hart, hfree, hstate⟩ | ⟨hart, ⟨-, hstate⟩ | ⟨i, -, hremove, hstate⟩⟩
  · rw [hstate]
    exact hs.free ht hart hfree
  · rw [hstate]
    exact hs.check
  · rw [hstate]
    refine hs.check.remove ht ?_ hremove
    obtain ⟨multipliers, residual, done, hstate⟩ := check_state (s := s)
    rw [hstate]
    exact hart

def taken {α : Type} [Scalar α] (s : Solver α m n) (step : Step α n) (t : α) : Outcome α (Solver α m n) Unit :=
  let moved := { s with x := s.x.along t step.direction }
  match step.blocking with
  | some i => moved.add i
  | none => .done moved ()

/-- Nothing has stopped the step, or nothing is left to go along, and the radius is inside its bounds. -/
def settles {α : Type} [Scalar α] (step : Step α n) (s : Solver α m n) : Bool :=
  (step.blocking.isNone || s.factor.size = 0) && s.withinRadius

/-- An iteration from `s` settles in the state `r`: its step has been made and the row that blocked it is taken up,
nothing is left to go along or nothing has stopped the step, and the radius is inside its bounds. -/
def SettlesAt {α : Type} [Scalar α] (s r : Solver α m n) : Prop := ∃ step u, s.step = .ok step ∧
  step.length = some u ∧ (s.taken step u).result = .ok () ∧ r = (s.taken step u).state ∧ r.settles step = true

def finish {α : Type} [Scalar α] (step : Step α n) (s : Solver α m n) : Outcome α (Solver α m n) Unit :=
  (if s.settles step then s.settle else .done s ()).andThen fun s _ =>
    .done { s with iteration := s.iteration + 1 } ()

theorem iterate_eq {α : Type} [Scalar α] {s : Solver α m n} {step : Step α n} {t : α} (hstep : s.step = .ok step)
    (hlen : step.length = some t) : s.iterate = (s.taken step t).andThen fun r _ => r.finish step := by
  obtain ⟨direction, length, blocking⟩ := step
  obtain rfl : length = some t := hlen
  unfold iterate taken
  rw [hstep]
  cases blocking <;> rfl

theorem iterate_fail {α : Type} [Scalar α] {s : Solver α m n} {cause : Fault} (hstep : s.step = .error cause) :
    s.iterate = .fail s cause := by
  unfold iterate
  rw [hstep]

theorem iterate_found {α : Type} [Scalar α] {s : Solver α m n} {step : Step α n} (hstep : s.step = .ok step)
    (hlen : step.length = none) :
    s.iterate = (Outcome.done { s with ray := some step.direction } ()).reporting .rayFound := by
  unfold iterate
  rw [hstep]
  dsimp only
  rw [hlen]

theorem iterate_of_endless {α : Type} [Scalar α] {s : Solver α m n} {step : Step α n} (hstep : s.step = .ok step)
    (hlen : step.length = none) :
    s.iterate.result = .ok () ∧ s.iterate.state = { s with ray := some step.direction } := by
  rw [iterate_found hstep hlen]
  exact ⟨Outcome.result_reporting .., Outcome.state_reporting ..⟩

/-- What one iteration that is not refused does: it finds a ray, or it makes a step and perhaps settles. -/
theorem iterate_cases {α : Type} [Scalar α] {s : Solver α m n} (h : s.iterate.result = .ok ()) :
    ∃ step, s.step = .ok step ∧
    ((step.length = none ∧ s.iterate.state = { s with ray := some step.direction }) ∨
      ∃ t, step.length = some t ∧ (s.taken step t).result = .ok () ∧
        ∃ r, ((¬(s.taken step t).state.settles step ∧ r = (s.taken step t).state) ∨
            ((s.taken step t).state.settles step ∧ (s.taken step t).state.settle.result = .ok () ∧
              r = (s.taken step t).state.settle.state)) ∧
          s.iterate.state = { r with iteration := r.iteration + 1 }) := by
  cases hstep : s.step with
  | error cause =>
    unfold iterate at h
    rw [hstep] at h
    cases h
  | ok step =>
    refine ⟨step, rfl, ?_⟩
    cases hlen : step.length with
    | none => exact Or.inl ⟨rfl, (iterate_of_endless hstep hlen).2⟩
    | some t =>
      refine Or.inr ⟨t, rfl, ?_⟩
      rw [iterate_eq hstep hlen] at h ⊢
      obtain ⟨⟨⟩, htaken, hfinish, hstate⟩ := Outcome.andThen_eq_ok h
      rw [hstate]
      unfold finish at hfinish ⊢
      split_ifs at hfinish ⊢ with hcond
      · obtain ⟨⟨⟩, hsettle, -, hstate'⟩ := Outcome.andThen_eq_ok hfinish
        exact ⟨htaken, _, Or.inr ⟨hcond, hsettle, rfl⟩, hstate'⟩
      · exact ⟨htaken, _, Or.inl ⟨hcond, rfl⟩, rfl⟩

theorem Lockstep.taken (hs : Lockstep p tol s) (ht : tol.Accepted) {step : Step ℝ n} {t : ℝ}
    (h : (s.taken step t).result = .ok ()) : Lockstep p tol (s.taken step t).state := by
  unfold Solver.taken at h ⊢
  cases hblock : step.blocking with
  | none =>
    rw [hblock] at h
    exact hs.moved _
  | some i =>
    rw [hblock] at h
    exact (hs.moved _).add ht h

/-- What a step leaves: the point has moved, and the row that blocked it is taken up. -/
theorem Lockstep.taken_eq_ok (hs : Lockstep p tol s) {step : Step ℝ n} {t : ℝ}
    (h : (s.taken step t).result = .ok ()) : ∃ rows factor,
      (s.taken step t).state = { s with x := s.x.along t step.direction, rows, factor } ∧
        ((step.blocking = none ∧ rows = s.rows ∧ factor = s.factor) ∨
          ∃ i row, step.blocking = some i ∧ s.rows.ignored[i]? = some row ∧
            rows.working = s.rows.working ++ [row] ∧
            (s.factor.add s.rule s.problem.P (s.problem.A.row row)).result = .ok () ∧
            factor = (s.factor.add s.rule s.problem.P (s.problem.A.row row)).state) := by
  unfold Solver.taken at h ⊢
  cases hblock : step.blocking with
  | none => exact ⟨s.rows, s.factor, rfl, Or.inl ⟨rfl, rfl, rfl⟩⟩
  | some i =>
    rw [hblock] at h
    obtain ⟨row, hrow, hadd, rows, -, -, -, hworking, -, hstate⟩ := add_eq_ok (hs.moved _).sound h
    exact ⟨rows, _, hstate, Or.inr ⟨i, row, rfl, hrow, hworking, hadd, rfl⟩⟩

/-- What settling leaves: the point and the ray are as before, no row is taken up, and the factorization is as before
or has lost a column or an artificial direction. -/
theorem Lockstep.settle_eq_ok (hs : Lockstep p tol s) (h : s.settle.result = .ok ()) :
    ∃ multipliers residual done rows factor,
      s.settle.state = { s with multipliers, residual, done, rows, factor } ∧
        (∀ row ∈ rows.working, row ∈ s.rows.working) ∧
        (factor = s.factor ∨ ∃ idx, (s.factor.remove s.rule s.problem.P idx).result = .ok () ∧
          factor = (s.factor.remove s.rule s.problem.P idx).state) := by
  obtain ⟨multipliers, residual, done, hcheck⟩ := check_state (s := s)
  rcases settle_cases h with ⟨-, hfree, hstate⟩ | ⟨-, ⟨-, hstate⟩ | ⟨i, -, hremove, hstate⟩⟩
  · exact ⟨_, _, _, _, _, hstate, fun row hrow => hrow, Or.inr ⟨none, hfree, rfl⟩⟩
  · exact ⟨_, _, _, _, _, hstate.trans hcheck, fun row hrow => hrow, Or.inl rfl⟩
  · obtain ⟨hfactor, rows, -, -, -, hworking, hstate'⟩ := remove_eq_ok hs.check.sound hremove
    rw [hcheck] at hfactor hworking hstate'
    rw [hstate, hcheck, hstate']
    refine ⟨_, _, _, rows, _, rfl, fun row hrow => ?_, Or.inr ⟨some i, hfactor, rfl⟩⟩
    rw [hworking] at hrow
    exact List.mem_of_mem_eraseIdx hrow

theorem Lockstep.iterate (hs : Lockstep p tol s) (ht : tol.Accepted) (h : s.iterate.result = .ok ()) :
    Lockstep p tol s.iterate.state := by
  obtain ⟨step, -, ⟨-, hstate⟩ | ⟨t, -, htaken, r, hr, hstate⟩⟩ := iterate_cases h
  · rw [hstate]
    exact hs.of_eq rfl rfl rfl rfl
  · have hlock : Lockstep p tol r := by
      rcases hr with ⟨-, rfl⟩ | ⟨-, hsettle, rfl⟩
      · exact hs.taken ht htaken
      · exact (hs.taken ht htaken).settle ht hsettle
    rw [hstate]
    exact hlock.of_eq rfl rfl rfl rfl

/-- What an iteration that finds no ray changes: not the problem, its bounds or its ray. -/
theorem Lockstep.iterate_eq_ok (hs : Lockstep p tol s) (ht : tol.Accepted) (h : s.iterate.result = .ok ()) :
    ∃ step, s.step = .ok step ∧ ((step.length = none ∧ s.iterate.state = { s with ray := some step.direction }) ∨
      ∃ t multipliers residual done rows factor iteration, step.length = some t ∧ s.iterate.state =
        { s with x := s.x.along t step.direction, multipliers, residual, done, rows, factor, iteration }) := by
  obtain ⟨step, hstep, ⟨hlen, hstate⟩ | ⟨t, hlen, htaken, r, hr, hstate⟩⟩ := iterate_cases h
  · exact ⟨step, hstep, Or.inl ⟨hlen, hstate⟩⟩
  · obtain ⟨rows, factor, hmoved, -⟩ := hs.taken_eq_ok htaken
    refine ⟨step, hstep, Or.inr ?_⟩
    rcases hr with ⟨-, rfl⟩ | ⟨-, hsettle, rfl⟩
    · rw [hmoved] at hstate
      exact ⟨t, _, _, _, _, _, _, hlen, hstate⟩
    · obtain ⟨multipliers, residual, done, rows', factor', hsettled, -⟩ := (hs.taken ht htaken).settle_eq_ok hsettle
      rw [hsettled, hmoved] at hstate
      exact ⟨t, _, _, _, _, _, _, hlen, hstate⟩

end Solver

end
end ActiveSet
