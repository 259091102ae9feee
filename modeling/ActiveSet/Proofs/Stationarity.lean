import ActiveSet.Proofs.Checker
import ActiveSet.Proofs.Feasible
import ActiveSet.Proofs.Runs

/-! What a check sees. The multipliers cancel the gradient along the working rows, and what is left of it is the
gradient along the free directions, which are all there are once none is artificial. -/

namespace ActiveSet

noncomputable section
open Exact

variable {m n : ℕ}

namespace Solver

variable {p : Problem ℝ m n} {tol : Tolerances ℝ} {s : Solver ℝ m n}

theorem spread_eq_ok {α : Type} [Scalar α] {working : List ℕ} {k : ℕ} {lam : ℕ → α} {multipliers : Vec α m}
    (h : spread working k lam = .ok multipliers) : multipliers = Vec.ofFn fun row =>
      match working.idxOf? row with
      | some i => lam (if k = 1 then 0 else i)
      | none => 0 := by
  unfold spread at h
  by_cases hk : working.length = k ∨ k = 1
  · rw [if_pos hk] at h
    exact (Except.ok.inj h).symm
  · rw [if_neg hk] at h
    cases h

theorem spread_of_not_mem {α : Type} [Scalar α] {working : List ℕ} {k : ℕ} {lam : ℕ → α} {multipliers : Vec α m}
    (h : spread working k lam = .ok multipliers) {row : ℕ} (hrow : row ∉ working) : multipliers row = 0 := by
  rw [spread_eq_ok h, Vec.get_ofFn, List.idxOf?_eq_none_iff.2 hrow]
  exact ite_self 0

theorem spread_of_getElem {working : List ℕ} {k : ℕ} {lam : ℕ → ℝ} {multipliers : Vec ℝ m}
    (h : spread working k lam = .ok multipliers) (hlen : working.length = k) (hnodup : working.Nodup) {j row : ℕ}
    (hj : working[j]? = some row) (hrow : row < m) : multipliers row = lam j := by
  obtain ⟨hlt, rfl⟩ := List.getElem?_eq_some_iff.1 hj
  have hidx : working.idxOf? working[j] = some j := by
    rw [List.idxOf?_eq_some_iff]
    refine ⟨hlt, rfl, fun i hi heq => ?_⟩
    exact hi.ne ((List.Nodup.getElem_inj_iff hnodup).1 heq)
  rw [spread_eq_ok h, Vec.get_ofFn_of_lt _ hrow, hidx]
  dsimp only
  split_ifs
  · rw [show j = 0 by omega]
  · rfl

theorem dot_spread {working : List ℕ} {k : ℕ} {lam : ℕ → ℝ} {multipliers : Vec ℝ m}
    (h : spread working k lam = .ok multipliers) (hlen : working.length = k) (hnodup : working.Nodup)
    (hlt : ∀ row ∈ working, row < m) (f : ℕ → ℝ) :
    dot m f multipliers = dot k (fun j => f (working.getD j 0)) lam := by
  subst hlen
  have hget : ∀ j < working.length, working[j]? = some (working.getD j 0) := fun j hj => by
    rw [List.getD_eq_getElem?_getD, List.getElem?_eq_getElem hj, Option.getD_some]
  have hmem : ∀ j < working.length, working.getD j 0 ∈ working := fun j hj => List.mem_of_getElem? (hget j hj)
  rw [dot_eq, dot_eq]
  symm
  refine Finset.sum_of_injOn (fun j => working.getD j 0) ?_ ?_ ?_ ?_
  · intro i hi j hj hij
    have hi : i < working.length := by simpa using hi
    have hj : j < working.length := by simpa using hj
    have heq : working[i]? = working[j]? := by rw [hget i hi, hget j hj]; exact congrArg some hij
    exact (List.getElem?_inj hi hnodup).1 heq
  · intro j hj
    simpa using hlt _ (hmem j (by simpa using hj))
  · intro row _ hrow
    have hnot : row ∉ working := fun hin => by
      obtain ⟨j, hj⟩ := List.getElem?_of_mem hin
      have hjlt := (List.getElem?_eq_some_iff.1 hj).1
      refine hrow ⟨j, by simpa using hjlt, ?_⟩
      exact Option.some.inj ((hget j hjlt).symm.trans hj)
    rw [spread_of_not_mem h hnot, mul_zero]
  · intro j hj
    have hj : j < working.length := Finset.mem_range.1 hj
    rw [spread_of_getElem h rfl hnodup (hget j hj) (hlt _ (hmem j hj))]

theorem dot_stationarity (x : Vec ℝ n) (lam : Vec ℝ m) (u : ℕ → ℝ) : dot n u (p.stationarity x lam) =
    dot n u (p.gradient x) + dot m (fun k => dot n (p.A k) u) lam := by
  unfold Problem.stationarity
  rw [dot_add_right, dot_transpose n m (fun i k => p.A k i)]

theorem Lockstep.columnMultipliers_solves (hs : Lockstep p tol s) {lam : Vec ℝ s.factor.basis.size}
    (h : s.columnMultipliers = .ok lam) {t : ℕ} (ht : t < s.factor.basis.size) :
    dot s.factor.basis.size (s.factor.basis.r t) lam = -dot n (fun i => s.factor.basis.q i t) (p.gradient s.x) := by
  have hle := hs.columns.le
  unfold columnMultipliers at h
  obtain ⟨w, hw, hlam⟩ := map_eq_ok.1 h
  obtain ⟨⟨-, hne⟩, hw⟩ := Triangular.solve_eq_ok.1 hw
  have hsolve := Triangular.backward_solves (b := s.factor.basis.q.applyT s.gradient)
    (fun i _ j hj => hs.columns.upper i j hj) hne ht
  rw [← hw, Mat.get_applyT _ _ (by omega), hs.gradient_eq] at hsolve
  rw [← hlam, ← hsolve, ← dot_neg_right]
  exact dot_congr (fun _ _ => rfl) fun i hi => Vec.get_ofFn_of_lt _ hi

/-- Along `Q` the gradient of the Lagrangian is that of the objective past the working columns, and zero along
them. -/
theorem Lockstep.dot_column_stationarity (hs : Lockstep p tol s) {lam : Vec ℝ s.factor.basis.size}
    {multipliers : Vec ℝ m} (hlam : s.columnMultipliers = .ok lam)
    (hspread : spread s.rows.working s.factor.basis.size lam = .ok multipliers) {t : ℕ} (ht : t < n) :
    dot n (fun i => s.factor.basis.q i t) (p.stationarity s.x multipliers) =
      if t < s.factor.basis.size then 0 else dot n (fun i => s.factor.basis.q i t) (p.gradient s.x) := by
  have hlen := hs.length_working
  have hnodup := hs.sound.nodup.of_append_left
  have hlt : ∀ row ∈ s.rows.working, row < m := fun row hrow => (hs.mem_iff row).1 (Or.inl hrow)
  rw [dot_stationarity, dot_spread hspread hlen hnodup hlt]
  have hcolumn : ∀ j < s.factor.basis.size,
      dot n (p.A (s.rows.working.getD j 0)) (fun i => s.factor.basis.q i t) = s.factor.basis.r t j := by
    intro j hj
    have hget : (s.rows.working.map p.A.row)[j]? = some (p.A.row (s.rows.working.getD j 0)) := by
      rw [List.getElem?_map, List.getD_eq_getElem?_getD, List.getElem?_eq_getElem (by omega), Option.getD_some,
        Option.map_some]
    rw [← hs.columns.dot_column ht hget, dot_comm]
    exact dot_congr (fun _ _ => rfl) fun i _ => (Mat.get_row ..).symm
  rw [dot_congr hcolumn fun _ _ => rfl]
  split_ifs with hk
  · rw [hs.columnMultipliers_solves hlam hk, add_neg_cancel]
  · have hzero : dot s.factor.basis.size (s.factor.basis.r t) lam = 0 :=
      dot_eq_zero fun j hj => by rw [hs.columns.upper t j (by omega), zero_mul]
    rw [hzero, add_zero]

/-- With no artificial direction left, the residual of a check is the size of the gradient of the Lagrangian. -/
theorem Lockstep.norm_stationarity (hs : Lockstep p tol s) (hart : s.factor.artificial = 0)
    {lam : Vec ℝ s.factor.basis.size} {multipliers : Vec ℝ m} (hlam : s.columnMultipliers = .ok lam)
    (hspread : spread s.rows.working s.factor.basis.size lam = .ok multipliers) :
    norm n (p.stationarity s.x multipliers) = norm s.factor.width (s.factor.project s.gradient) := by
  have hle := hs.columns.le
  have hoffset : s.factor.offset = s.factor.basis.size := by
    unfold ReducedFactor.offset
    omega
  have hwidth : s.factor.width = n - s.factor.basis.size := by
    unfold ReducedFactor.width
    rw [hoffset]
  rw [norm_eq, norm_eq, ← hs.columns.orthogonal.dot_cols]
  congr 1
  have hsplit : ∀ u : ℕ → ℝ, dot n u u = dot s.factor.basis.size u u +
      dot s.factor.width (fun t => u (s.factor.basis.size + t)) (fun t => u (s.factor.basis.size + t)) := by
    intro u
    rw [← dot_add, hwidth, Nat.add_sub_cancel' hle]
  rw [hsplit, dot_eq_zero, zero_add]
  · have hfree : ∀ t < s.factor.width, dot n (fun i => s.factor.basis.q i (s.factor.basis.size + t))
        (p.stationarity s.x multipliers) = s.factor.project s.gradient t := by
      intro t ht
      rw [hs.dot_column_stationarity hlam hspread (by omega), if_neg (by omega), hs.gradient_eq]
      unfold ReducedFactor.project ReducedFactor.z
      rw [hoffset]
    exact dot_congr hfree hfree
  · intro t ht
    rw [hs.dot_column_stationarity hlam hspread (by omega), if_pos ht, zero_mul]

end Solver

end
end ActiveSet
