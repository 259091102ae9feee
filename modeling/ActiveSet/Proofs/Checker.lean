import ActiveSet.Exact
import ActiveSet.Optimality

/-! The checker of the optimality conditions, on data that is already in shape: arrays written out from matrices
and vectors are read back as they were, and what is small enough passes. -/

namespace ActiveSet

variable {m n : ℕ}

/-- Entry `(i, j)` of rows of one length, written one after the other. -/
theorem getElem?_flatten {γ : Type} {c : ℕ} {rows : List (List γ)} (h : ∀ row ∈ rows, row.length = c) (i : ℕ)
    {j : ℕ} (hj : j < c) : rows.flatten[i * c + j]? = rows[i]?.bind fun row => row[j]? := by
  induction rows generalizing i with
  | nil => simp
  | cons row rows ih =>
    have hrow : row.length = c := h row List.mem_cons_self
    rw [List.flatten_cons]
    cases i with
    | zero =>
      rw [Nat.zero_mul, Nat.zero_add, List.getElem?_append_left (by omega)]
      rfl
    | succ i =>
      rw [Nat.succ_mul, List.getElem?_append_right (by omega), hrow,
        show i * c + c + j - c = i * c + j by omega, ih (fun r hr => h r (List.mem_cons_of_mem _ hr)) i]
      rfl

theorem length_flatten {γ : Type} {c : ℕ} {rows : List (List γ)} (h : ∀ row ∈ rows, row.length = c) :
    rows.flatten.length = rows.length * c := by
  induction rows with
  | nil => simp
  | cons row rows ih =>
    rw [List.flatten_cons, List.length_append, h row List.mem_cons_self,
      ih fun r hr => h r (List.mem_cons_of_mem _ hr), List.length_cons, Nat.succ_mul, Nat.add_comm]

noncomputable section
open Exact

theorem Mat.length_of_mem_toLists (M : Mat ℝ m n) : ∀ row ∈ M.toLists, row.length = n := by
  intro row hrow
  obtain ⟨v, -, rfl⟩ := List.mem_map.1 hrow
  simp

theorem Tensor.size_ofMat (M : Mat ℝ m n) : (Tensor.ofMat M).size = m * n := by
  change M.toLists.flatten.toArray.size = m * n
  rw [List.size_toArray, length_flatten M.length_of_mem_toLists]
  simp [Mat.toLists]

theorem Tensor.toMat_ofMat (M : Mat ℝ m n) : (Tensor.ofMat M).toMat m n = M := by
  refine Mat.ext fun i hi j hj => ?_
  rw [Tensor.toMat, Mat.get_ofFn_of_lt _ hi hj]
  change M.toLists.flatten.toArray.getD (i * n + j) 0 = M i j
  rw [Array.getD_eq_getD_getElem?, List.getElem?_toArray, getElem?_flatten M.length_of_mem_toLists i hj]
  simp [Mat.toLists, Mat.get, hi, hj]

theorem Tensor.flatten_ofList (entries : List ℝ) : (Tensor.ofList entries).flatten = entries := by
  simp [Tensor.ofList, Tensor.flatten]

theorem Intake.residuals_of_problem (p : Problem ℝ m n) (x : Vec ℝ n) (lam : Vec ℝ m) (hn : 0 < n) :
    Intake.residuals (.ofMat p.P) (.ofList p.q.toList) (.ofMat p.A) (.ofList p.b.toList) (.ofList x.toList)
      (some (.ofList lam.toList)) = .ok (Residuals.ofProblem p x lam) := by
  have hx : (Tensor.ofList x.toList).size = n := by simp [Tensor.ofList, Tensor.size, Vec.toList]
  have hm : (Tensor.ofMat p.A).size / n = m := by rw [Tensor.size_ofMat, Nat.mul_div_cancel _ hn]
  have hmod : (Tensor.ofMat p.A).size % n = 0 := by rw [Tensor.size_ofMat, Nat.mul_mod_left]
  unfold Intake.residuals
  rw [hx]
  dsimp only
  rw [if_neg (by omega), hm]
  simp only [Tensor.flatten_ofList, Vec.ofList?_toList, Option.map_some, Option.getD_some, Tensor.toMat_ofMat]
  exact if_pos ⟨rfl, rfl⟩

def Problem.stationarity (p : Problem ℝ m n) (x : Vec ℝ n) (lam : Vec ℝ m) (i : ℕ) : ℝ :=
  p.gradient x i + dot m (fun k => p.A k i) lam

theorem abs_le_norm {v : ℕ → ℝ} {i : ℕ} (hi : i < n) : |v i| ≤ norm n v := by
  rw [norm_eq]
  apply Real.abs_le_sqrt
  rw [sq, dot_eq]
  exact Finset.single_le_sum (f := fun j => v j * v j) (fun j _ => mul_self_nonneg (v j)) (Finset.mem_range.2 hi)

theorem maximum_le {k : ℕ} {f : ℕ → ℝ} {c : ℝ} (h : ∀ i ≤ k, f i ≤ c) : maximum k f ≤ c := by
  obtain ⟨i, hi, he⟩ := exists_eq_maximum k f
  rw [he]
  exact h i hi

namespace Residuals

theorem optimal_iff {r : Residuals ℝ} {tol : ℝ} : r.optimal tol = true ↔
    r.stationarity ≤ tol ∧ r.primal ≤ tol ∧ r.dual ≤ tol ∧ r.complementary ≤ tol := by
  simp [optimal, all]

variable {p : Problem ℝ m n} {x : Vec ℝ n} {lam : Vec ℝ m}

theorem stationarity_le (hP : p.P.Symmetric) (hn : 0 < n) :
    (ofProblem p x lam).stationarity ≤ norm n (p.stationarity x lam) := by
  change maximum (n - 1) (fun i => Scalar.abs (p.P.symmetrize.apply x i + p.q i + p.A.applyT lam i)) ≤ _
  refine maximum_le fun i hi => ?_
  have hi : i < n := by omega
  have hslope : p.P.symmetrize.apply x i = p.P.apply x i := by
    rw [Mat.get_apply _ _ hi, Mat.get_apply _ _ hi]
    refine dot_congr (fun j hj => ?_) fun _ _ => rfl
    rw [Mat.get_symmetrize _ hi hj, hP j hj i hi]
    norm_num
    ring
  have hentry : p.P.symmetrize.apply x i + p.q i + p.A.applyT lam i = p.stationarity x lam i := by
    rw [hslope, Mat.get_applyT _ _ hi]
    unfold Problem.stationarity Problem.gradient
    rw [Vec.get_ofFn_of_lt _ hi]
  rw [abs_eq, hentry]
  exact abs_le_norm hi

theorem primal_eq_zero (h : ∀ i < m, dot n (p.A i) x ≤ p.b i) : (ofProblem p x lam).primal = 0 := by
  change (if m = 0 then 0 else Scalar.larger (maximum (m - 1) fun i => -(p.b i - p.A.apply x i)) 0) = 0
  split_ifs with hm
  · rfl
  · rw [larger_eq]
    refine max_eq_right (maximum_le fun i hi => ?_)
    rw [Mat.get_apply _ _ (by omega)]
    linarith [h i (by omega)]

theorem complementary_eq_zero (h : ∀ i < m, lam i = 0 ∨ dot n (p.A i) x = p.b i) :
    (ofProblem p x lam).complementary = 0 := by
  change (if m = 0 then 0 else maximum (m - 1) fun i =>
    Scalar.abs ((p.b i - p.A.apply x i) * lam (stretched m i))) = 0
  split_ifs with hm
  · rfl
  · obtain ⟨i, hi, he⟩ := exists_eq_maximum (m - 1) fun i =>
      Scalar.abs ((p.b i - p.A.apply x i) * lam (stretched m i))
    rw [he, abs_eq, stretched_of_lt (by omega), Mat.get_apply _ _ (by omega), abs_eq_zero]
    rcases h i (by omega) with h | h
    · rw [h, mul_zero]
    · rw [h, sub_self, zero_mul]

theorem dual_le {c : ℝ} (hc : 0 ≤ c) (h : ∀ i < m, -c ≤ lam i) : (ofProblem p x lam).dual ≤ c := by
  change (if m = 0 then 0 else Scalar.larger (maximum (m - 1) fun i => -lam i) 0) ≤ c
  split_ifs with hm
  · exact hc
  · rw [larger_eq]
    exact max_le (maximum_le fun i hi => by linarith [h i (by omega)]) hc

end Residuals

end
end ActiveSet
