import ActiveSet.Proofs.Checker
import ActiveSet.Proofs.Independence
import ActiveSet.Tensor.Rotation
import Mathlib.LinearAlgebra.Matrix.Block
import Mathlib.LinearAlgebra.UnitaryGroup

/-! A square upper Hessenberg matrix after the whole sweep. The turns come to one orthogonal factor on the left, so the
inner products of the columns stay. Each turn leaves the length of a pair as its pivot, so only the last pivot, which no
turn makes, can be negative; and a pivot that vanishes shows that the columns up to it are dependent. -/

namespace ActiveSet

noncomputable section
open Exact
open scoped Matrix

namespace Mat

variable {n : ℕ}

def IsHessenberg (M : Mat ℝ n n) : Prop := ∀ i < n, ∀ j < n, j + 1 < i → M i j = 0

theorem IsOrthogonal.mem_orthogonalGroup {G : Mat ℝ n n} (hG : G.IsOrthogonal) :
    G.toMatrix ∈ Matrix.orthogonalGroup (Fin n) ℝ :=
  (Matrix.mem_orthogonalGroup_iff' (Fin n) ℝ).2 ((isOrthogonal_iff G).1 hG)

theorem toMatrix_eq_mul {T G M : Mat ℝ n n} (h : ∀ i < n, ∀ j < n, T i j = dot n (G i) fun l => M l j) :
    T.toMatrix = G.toMatrix * M.toMatrix := by
  ext i j
  rw [Matrix.mul_apply]
  exact (h i i.isLt j j.isLt).trans (dot_eq_sum_fin _ _)

theorem eq_zero_of_independent {r c q : ℕ} {M : Mat ℝ r c} (hq : q ≤ c) (h : Independent (M.cols.take q)) (x : ℕ → ℝ)
    (hx : ∀ i < r, dot q (M i) x = 0) : ∀ j < q, x j = 0 := by
  have hlength : (M.cols.take q).length = q := by simp [cols, hq]
  have hcol : ∀ j < q, (M.cols.take q).getD j 0 = M.col j := fun j hj => by
    rw [List.getD_eq_getElem?_getD, List.getElem?_take_of_lt hj, getElem?_cols.2 ⟨by omega, rfl⟩, Option.getD_some]
  intro j hj
  refine independent_iff.1 h x (fun i hi => ?_) j (by rwa [hlength])
  rw [hlength, dot_comm, ← hx i hi]
  exact dot_congr (fun j hj => by rw [hcol j hj, get_col]) fun _ _ => rfl

end Mat

/-- A square matrix is never refused. -/
theorem Tensor.triangularize_ofMat {n : ℕ} (M : Mat ℝ n n) :
    (ofMat M).triangularize = .ok (ofMat M.triangularize) := by
  change (if n + 1 < n then Except.error Fault.outOfRange else .ok (ofMat ((ofMat M).toMat n n).triangularize)) = _
  rw [if_neg (by omega), toMat_ofMat]

namespace Mat

variable {n : ℕ}

/-- The sweep takes an upper Hessenberg matrix of any size to an upper triangular one by an orthogonal matrix on the
left. All pivots but the last are not negative, and they are positive if the columns but the last are independent. -/
theorem sweeps_reach_triangle (M : Mat ℝ n n) (hM : M.IsHessenberg) :
    ∃ T : Mat ℝ n n, (Tensor.ofMat M).triangularize = .ok (.ofMat T) ∧ T.toMatrix.IsUpperTriangular ∧
      (∃ G ∈ Matrix.orthogonalGroup (Fin n) ℝ, T.toMatrix = G * M.toMatrix) ∧
      T.toMatrixᵀ * T.toMatrix = M.toMatrixᵀ * M.toMatrix ∧ (∀ i, i + 1 < n → 0 ≤ T i i) ∧
      (Independent (M.cols.take (n - 1)) → ∀ i, i + 1 < n → 0 < T i i) := by
  have hT : Sweeping n n M (n - 1) M.triangularize := sweeping_triangularizeIn le_rfl le_rfl le_rfl hM
  have hnonneg : ∀ i, i + 1 < n → 0 ≤ M.triangularize i i := fun i hi => hT.nonneg i (by omega)
  obtain ⟨G, hG, hTG⟩ := hT.turned
  refine ⟨_, Tensor.triangularize_ofMat M, fun i j hji => hT.isUpper i i.isLt j hji,
    ⟨_, hG.mem_orthogonalGroup, toMatrix_eq_mul hTG⟩, ?_, hnonneg, fun hindependent i hi => ?_⟩
  · ext a b
    rw [Matrix.mul_apply, Matrix.mul_apply]
    exact (dot_eq_sum_fin _ _).symm.trans ((hT.gram a.isLt b.isLt).trans (dot_eq_sum_fin _ _))
  · have hpivot := hT.pivot_ne_zero (q := n - 1) (by omega) (by omega)
      (eq_zero_of_independent (by omega) hindependent) i (by omega)
    exact lt_of_le_of_ne (hnonneg i hi) hpivot.symm

def staircase : Mat ℝ 3 3 := Mat.ofFn fun i j => if j + 1 < i then 0 else 1

/-- The last two columns are equal, the first two independent. -/
theorem sweeps_reach_triangle_staircase : staircase.IsHessenberg ∧ Independent (staircase.cols.take 2) ∧
    ∃ T : Mat ℝ 3 3, (Tensor.ofMat staircase).triangularize = .ok (.ofMat T) ∧ T.toMatrix.IsUpperTriangular ∧
      0 < T 0 0 ∧ 0 < T 1 1 := by
  have hget : ∀ i < 3, ∀ j < 3, staircase i j = if j + 1 < i then (0 : ℝ) else 1 := fun i hi j hj =>
    Mat.get_ofFn_of_lt _ hi hj
  have hhessenberg : staircase.IsHessenberg := fun i hi j hj hji => by rw [hget i hi j hj, if_pos hji]
  have hindependent : Independent (staircase.cols.take 2) := by
    rw [show staircase.cols.take 2 = [staircase.col 0, staircase.col 1] from rfl]
    refine independent_iff.2 fun c hc j hj => ?_
    have htop := hc 0 (by decide)
    have hbottom := hc 2 (by decide)
    simp only [List.length_cons, List.length_nil, dot, sum_succ, sum_zero, List.getD_cons_zero, List.getD_cons_succ,
      get_col] at htop hbottom
    norm_num [hget] at htop hbottom
    obtain rfl | rfl : j = 0 ∨ j = 1 := by
      change j < 2 at hj
      omega
    · linarith
    · exact hbottom
  obtain ⟨T, hT, hupper, -, -, -, hpos⟩ := sweeps_reach_triangle staircase hhessenberg
  exact ⟨hhessenberg, hindependent, T, hT, hupper, hpos hindependent 0 (by decide), hpos hindependent 1 (by decide)⟩

end Mat

end
end ActiveSet
