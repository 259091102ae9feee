import ActiveSet.Proofs.Iterations
import ActiveSet.Double

/-! Taking up and releasing a single row, at any position and after any number of iterations. Each changes the lists and
the factorization, and the two follow different rules: the lists read a negative position from the end, and a removal
frees an artificial direction before any column. Taking up a row asks the factorization first and is all or nothing for
a position from the front. Releasing one changes the lists first, and what the factorization then refuses, or does with
another direction, leaves the two apart. -/

namespace ActiveSet

noncomputable section
open Exact

theorem Position.resolve?_eq_none_iff {size : ℕ} {i : ℤ} : resolve? size i = none ↔ i < -size ∨ size ≤ i := by
  unfold resolve?
  split_ifs with h0 h1 h2
  · exact iff_of_false nofun (by omega)
  · exact iff_of_true rfl (by omega)
  · exact iff_of_false nofun (by omega)
  · exact iff_of_true rfl (by omega)

namespace Solver

section Arithmetic

variable {α : Type} [Scalar α] {m n : ℕ} {p : Problem α m n} {s : Solver α m n}
  {o : Outcome α (Solver α m n) Unit} {idx : ℤ}

/-- The basis has one column for each working row and factors them, and the ignored block holds the ignored rows. -/
structure InStep (p : Problem α m n) (s : Solver α m n) : Prop where
  size : s.rows.working.length = s.factor.basis.size
  columns : ∀ j row, s.rows.working[j]? = some row → ∀ i < n,
    dot s.factor.basis.size (s.factor.basis.q i) (fun l => s.factor.basis.r l j) = p.A row i
  ignoredRows : s.rows.ignoredRows = s.rows.ignored.map p.A.row
  ignoredRhs : s.rows.ignoredRhs = s.rows.ignored.map p.b

/-- A change of `s` is refused and leaves the lists and the factorization as they were, or it leaves them in step. -/
def AllOrNothing (p : Problem α m n) (s : Solver α m n) (o : Outcome α (Solver α m n) Unit) : Prop :=
  (∃ cause, o.result = .error cause ∧ o.state.rows = s.rows ∧ o.state.factor = s.factor) ∨
    (o.result = .ok () ∧ InStep p o.state)

theorem allOrNothing_fail (cause : Fault) : AllOrNothing p s (.fail s cause) := Or.inl ⟨cause, rfl, rfl, rfl⟩

theorem add_out_of_range (h : idx < -s.rows.ignored.length ∨ s.rows.ignored.length ≤ idx) :
    s.add idx = .fail s .outOfRange := by
  unfold Solver.add
  rw [Position.resolve?_eq_none_iff.2 h]
  rfl

theorem remove_out_of_range (h : idx < -s.rows.working.length ∨ s.rows.working.length ≤ idx) :
    s.remove idx = .fail s .outOfRange := by
  unfold Solver.remove WorkingSet.release
  rw [Position.resolve?_eq_none_iff.2 h]
  rfl

/-- A position in range, also from the end, takes an entry off the working rows whatever the factorization then does. -/
theorem remove_in_range (hs : s.rows.Sound) (hlow : -s.rows.working.length ≤ idx)
    (hhigh : idx < s.rows.working.length) :
    (s.remove idx).result = (s.factor.remove s.rule s.problem.P (some idx)).result ∧
      (s.remove idx).state.factor = (s.factor.remove s.rule s.problem.P (some idx)).state ∧
      (s.remove idx).state.rows.working.length + 1 = s.rows.working.length := by
  obtain ⟨place, hplace⟩ : ∃ place, Position.resolve? s.rows.working.length idx = some place := by
    refine Option.ne_none_iff_exists'.1 fun hnone => ?_
    have hout := Position.resolve?_eq_none_iff.1 hnone
    omega
  have hlt := Position.resolve?_lt hplace
  obtain ⟨hresult, rows, -, -, -, hworking, hstate⟩ := remove_resolved hs hplace
  rw [hstate]
  refine ⟨hresult, rfl, ?_⟩
  change rows.working.length + 1 = _
  rw [hworking, List.length_eraseIdx_of_lt hlt]
  omega

theorem allOrNothing_add_full (hfull : n ≤ s.factor.basis.size) : AllOrNothing p s (s.add idx) := by
  unfold Solver.add
  split
  · exact allOrNothing_fail _
  next row _ =>
    rw [ReducedFactor.add_of_full s.rule s.problem.P hfull]
    exact allOrNothing_fail _

end Arithmetic

variable {m n : ℕ} {p : Problem ℝ m n} {tol : Tolerances ℝ} {s t : Solver ℝ m n} {idx : ℤ}

theorem Lockstep.inStep (hs : Lockstep p tol s) : InStep p s := by
  have hlt : ∀ row ∈ s.rows.ignored, row < m := fun row hrow => (hs.mem_iff row).1 (Or.inr hrow)
  refine ⟨hs.length_working, fun j row hrow i hi => ?_, ?_, ?_⟩
  · have hcolumn : (s.rows.working.map p.A.row)[j]? = some (p.A.row row) := by
      rw [List.getElem?_map, hrow, Option.map_some]
    rw [hs.columns.product_block hcolumn hi, Mat.get_row]
  · exact WorkingSet.eq_map_of_map_some hs.sound.ignoredRows fun row hrow => hs.getElem?_rows (hlt row hrow)
  · exact WorkingSet.eq_map_of_map_some hs.sound.ignoredRhs fun row hrow => hs.getElem?_rhs (hlt row hrow)

theorem Lockstep.allOrNothing_add (hs : Lockstep p tol s) (ht : tol.Accepted)
    (h : 0 ≤ idx ∨ idx < -s.rows.ignored.length ∨ n ≤ s.factor.basis.size) : AllOrNothing p s (s.add idx) := by
  by_cases hfull : n ≤ s.factor.basis.size
  · exact allOrNothing_add_full hfull
  by_cases hrange : idx < -s.rows.ignored.length ∨ s.rows.ignored.length ≤ idx
  · rw [add_out_of_range hrange]
    exact allOrNothing_fail _
  · lift idx to ℕ using by omega
    have hadd := hs.result_add (i := idx) (by omega) (by omega)
    exact Or.inr ⟨hadd, (hs.add ht hadd).inStep⟩

/-- Counted from the end, the row is in the factorization before the lists are asked. -/
theorem Lockstep.size_add (hs : Lockstep p tol s) (hroom : s.factor.basis.size < n)
    (hlow : -s.rows.ignored.length ≤ idx) (hhigh : idx < s.rows.ignored.length) :
    (s.add idx).state.factor.basis.size = s.factor.basis.size + 1 := by
  unfold Solver.add
  cases hplace : Position.resolve? s.rows.ignored.length idx with
  | none =>
    have hout := Position.resolve?_eq_none_iff.1 hplace
    omega
  | some place =>
    have hlt := Position.resolve?_lt hplace
    rw [Option.bind_some, List.getElem?_eq_getElem hlt]
    dsimp only
    set a := s.problem.A.row s.rows.ignored[place]
    have hadd : (s.factor.add s.rule s.problem.P a).result = .ok () := hs.shaped.result_add_of_lt hroom a
    have hsize : (s.factor.add s.rule s.problem.P a).state.basis.size = s.factor.basis.size + 1 := by
      have hbasis := ReducedFactor.basis_add hadd
      unfold OrthogonalFactor.append at hbasis
      rw [if_neg (by omega)] at hbasis
      rw [← Except.ok.inj hbasis]
      rfl
    refine Outcome.andThen_keeps (q := fun t : Solver ℝ m n => t.factor.basis.size = s.factor.basis.size + 1) hsize ?_
    intro t _ ht
    refine Outcome.andThen_keeps (q := fun t : Solver ℝ m n => t.factor.basis.size = s.factor.basis.size + 1) ht ?_
    intro t _ ht
    rwa [Outcome.state_reporting]

theorem nonneg_of_remove {F : ReducedFactor ℝ n} {rule : CurvatureRule ℝ} {P : Mat ℝ n n} (hart : F.artificial = 0)
    (h : (F.remove rule P (some idx)).result = .ok ()) : 0 ≤ idx := by
  obtain ⟨i, hi, hremove, -⟩ := ReducedFactor.basis_remove_of_column hart h
  obtain rfl := Option.some.inj hi
  exact (OrthogonalFactor.remove_eq_ok hremove).1

/-- Whether a row can be released as a whole. The lists let it go in any case. -/
theorem Lockstep.allOrNothing_remove_iff (hs : Lockstep p tol s) (ht : tol.Accepted) :
    AllOrNothing p s (s.remove idx) ↔ (idx < -s.rows.working.length ∨ s.rows.working.length ≤ idx) ∨
      (0 ≤ idx ∧ s.factor.artificial = 0 ∧
        (s.factor.size = 0 ∨ tol.indefinite < s.factor.d (s.factor.size - 1))) := by
  by_cases hrange : idx < -s.rows.working.length ∨ s.rows.working.length ≤ idx
  · rw [remove_out_of_range hrange]
    exact iff_of_true (allOrNothing_fail _) (Or.inl hrange)
  have hlow : -s.rows.working.length ≤ idx := by omega
  have hhigh : idx < s.rows.working.length := by omega
  obtain ⟨hresult, hfactor, hlength⟩ := remove_in_range hs.sound hlow hhigh
  have hindefinite : s.rule.indefinite = tol.indefinite := by
    rw [hs.rule_eq]
    rfl
  -- in range the list loses a row in any case, so the basis must lose its column
  constructor
  · rintro (⟨cause, -, hrows, -⟩ | ⟨hok, hstep⟩)
    · rw [hrows] at hlength
      omega
    · rw [hresult] at hok
      have hsize := hstep.size
      rw [hfactor] at hsize
      have hart : s.factor.artificial = 0 := by
        by_contra hart
        rw [ReducedFactor.basis_remove_of_artificial (Nat.pos_of_ne_zero hart) hok, ← hs.length_working] at hsize
        omega
      obtain ⟨hcurvature, -, -⟩ := ReducedFactor.remove_cases hok
      rw [hindefinite] at hcurvature
      refine Or.inr ⟨nonneg_of_remove hart hok, hart, ?_⟩
      by_cases h0 : s.factor.size = 0
      · exact Or.inl h0
      · exact Or.inr (hcurvature h0)
  · rintro (hout | ⟨hpos, hart, hcurvature⟩)
    · exact absurd hout hrange
    · lift idx to ℕ using hpos
      rw [← hindefinite] at hcurvature
      have hi : idx < s.factor.basis.size := by
        rw [← hs.length_working]
        omega
      have hok : (s.remove idx).result = .ok () :=
        hresult.trans (hs.shaped.result_remove_column hart hcurvature hi)
      exact Or.inr ⟨hok, (hs.remove ht hart hok).inStep⟩

/-- After any number of iterations. Taking up a row is all or nothing for a position from the front, for one out of
range and for a full basis; with room, the factorization takes up a row counted from the end before the lists are asked.
Releasing one is all or nothing just for a position out of range, and for one from the front while no direction is
artificial and the last curvature is above the threshold; and in range the row leaves the list in any case. -/
theorem edits_all_or_nothing {x₀ : Vec ℝ n} {bounds : RadiusBounds ℝ} {events : List (Event ℝ)}
    (hstart : start p x₀ bounds tol = .ok (s, events)) (k : ℕ) (h : (s.iterates k).result = .ok ())
    (ht : (s.iterates k).state = t) :
    (∀ idx : ℤ, 0 ≤ idx ∨ idx < -t.rows.ignored.length ∨ n ≤ t.factor.basis.size → AllOrNothing p t (t.add idx)) ∧
    (∀ idx : ℤ, -t.rows.ignored.length ≤ idx → idx < t.rows.ignored.length → t.factor.basis.size < n →
      (t.add idx).state.factor.basis.size = t.factor.basis.size + 1) ∧
    (∀ idx : ℤ, AllOrNothing p t (t.remove idx) ↔ (idx < -t.rows.working.length ∨ t.rows.working.length ≤ idx) ∨
      (0 ≤ idx ∧ t.factor.artificial = 0 ∧
        (t.factor.size = 0 ∨ tol.indefinite < t.factor.d (t.factor.size - 1)))) ∧
    ∀ idx : ℤ, -t.rows.working.length ≤ idx → idx < t.rows.working.length →
      (t.remove idx).state.rows.working.length + 1 = t.rows.working.length := by
  subst ht
  obtain ⟨ht, hs, -⟩ := start_eq_ok hstart
  have hs := hs.iterates ht k h
  refine ⟨fun idx hidx => hs.allOrNothing_add ht hidx, fun idx hlow hhigh hroom => hs.size_add hroom hlow hhigh,
    fun idx => hs.allOrNothing_remove_iff ht, fun idx hlow hhigh => (remove_in_range hs.sound hlow hhigh).2.2⟩

theorem edits_all_or_nothing_wall : ∃ s events, start wall 0 ⟨0, none⟩ strict = .ok (s, events) ∧
    (s.iterates 1).result = .ok () ∧ AllOrNothing wall (s.iterates 1).state ((s.iterates 1).state.remove 0) ∧
      ¬AllOrNothing wall (s.iterates 1).state ((s.iterates 1).state.remove (-1)) := by
  obtain ⟨hiterates, hworking⟩ := iterate_wall
  obtain ⟨-, -, hiff, -⟩ := edits_all_or_nothing start_wall 1 hiterates rfl
  obtain ⟨ht, hs, -⟩ := start_eq_ok start_wall
  have hcount := (hs.iterates ht 1 hiterates).shaped.count
  rw [← (hs.iterates ht 1 hiterates).length_working, hworking, List.length_singleton] at hcount
  rw [hworking, List.length_singleton] at hiff
  refine ⟨_, _, start_wall, hiterates, (hiff 0).2 (Or.inr ⟨le_rfl, by omega, Or.inl (by omega)⟩), fun hwhole => ?_⟩
  rcases (hiff (-1)).1 hwhole with hout | ⟨hpos, -⟩
  · omega
  · omega

section Doubles

variable {α : Type} [Scalar α] {m n : ℕ} {p : Problem α m n} {x : Vec α n} {k : ℕ}

def after (p : Problem α m n) (x : Vec α n) (k : ℕ) : Option (Solver α m n) :=
  match start p x ⟨0, none⟩ Tolerances.standard with
  | .error _ => none
  | .ok (s, _) => (s.iterates k).result.toOption.map fun _ => (s.iterates k).state

theorem exists_of_after {test : Solver α m n → Bool} (h : (after p x k).any test = true) : ∃ s events,
    start p x ⟨0, none⟩ Tolerances.standard = .ok (s, events) ∧ (s.iterates k).result = .ok () ∧
      test (s.iterates k).state = true := by
  unfold after at h
  cases hstart : start p x ⟨0, none⟩ Tolerances.standard with
  | error cause => simp [hstart] at h
  | ok started =>
    obtain ⟨s, events⟩ := started
    rw [hstart] at h
    dsimp only at h
    cases hiterates : (s.iterates k).result with
    | error cause => simp [hiterates, Except.toOption] at h
    | ok u =>
      rw [hiterates] at h
      exact ⟨s, events, rfl, hiterates, h⟩

/-- What of it can be computed: a refusal after which the lists or the size of the basis are not what they were, or a
right-hand side in the ignored block that is not that of its row. -/
def torn [DecidableEq α] (p : Problem α m n) (s : Solver α m n) (o : Outcome α (Solver α m n) Unit) : Bool :=
  match o.result with
  | .error _ =>
    decide (o.state.rows.working ≠ s.rows.working ∨ o.state.factor.basis.size ≠ s.factor.basis.size)
  | .ok _ => decide (o.state.rows.ignoredRhs ≠ o.state.rows.ignored.map p.b)

theorem not_allOrNothing_of_torn [DecidableEq α] {s : Solver α m n} {o : Outcome α (Solver α m n) Unit}
    (h : torn p s o = true) : ¬AllOrNothing p s o := by
  unfold torn at h
  rintro (⟨cause, hresult, hrows, hfactor⟩ | ⟨hresult, hstep⟩)
  · rw [hresult] at h
    rcases of_decide_eq_true h with hworking | hsize
    · exact hworking (by rw [hrows])
    · exact hsize (by rw [hfactor])
  · rw [hresult] at h
    exact of_decide_eq_true h hstep.ignoredRhs

end Doubles

def slide : Problem Float 2 2 where
  P := Mat.ofFn fun i j => if i = j then -1 else 0
  q := Vec.ofFn fun _ => -1
  A := Mat.ofFn fun i j => if i = j then 1 else 0
  b := Vec.ofFn fun _ => 1

def shelf (m : ℕ) : Problem Float m 2 where
  P := Mat.ofFn fun i j => if i = j then 2 else 0
  q := 0
  A := Mat.ofFn fun i j => if i = 2 ∨ i = j then 1 else 0
  b := Vec.ofFn fun i => if i = 0 then 1 else if i = 1 then 2 else 3

/-- A release of the only working row that the factorization refuses, and the last row taken up by its position from
the end: refused by the lists with three rows, and with two rows it goes through and another right-hand side is kept. -/
theorem edits_half_done :
    (∃ s events, start slide 0 ⟨0, none⟩ Tolerances.standard = .ok (s, events) ∧ (s.iterates 1).result = .ok () ∧
      ¬AllOrNothing slide (s.iterates 1).state ((s.iterates 1).state.remove 0)) ∧
    ∀ m ∈ [2, 3], ∃ s events, start (shelf m) 0 ⟨0, none⟩ Tolerances.standard = .ok (s, events) ∧
      (s.iterates 0).result = .ok () ∧
      ¬AllOrNothing (shelf m) (s.iterates 0).state ((s.iterates 0).state.add (-1)) := by
  have hslide : ((after slide 0 1).any fun t => torn slide t (t.remove 0)) = true := by decide +kernel
  have hshelf : ∀ m ∈ [2, 3], ((after (shelf m) 0 0).any fun t => torn (shelf m) t (t.add (-1))) = true := by
    decide +kernel
  obtain ⟨s, events, hstart, hiterates, htorn⟩ := exists_of_after hslide
  refine ⟨⟨s, events, hstart, hiterates, not_allOrNothing_of_torn htorn⟩, fun m hm => ?_⟩
  obtain ⟨s, events, hstart, hiterates, htorn⟩ := exists_of_after (hshelf m hm)
  exact ⟨s, events, hstart, hiterates, not_allOrNothing_of_torn htorn⟩

end Solver

end
end ActiveSet
