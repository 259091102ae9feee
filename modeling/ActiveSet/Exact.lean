import Mathlib.Algebra.Order.BigOperators.Group.Finset
import Mathlib.Analysis.Real.Sqrt
import ActiveSet.Sweep

/-! The reals as scalars: every number is finite, the tests are the order, and the loops are sums, norms and
maxima.
-/

namespace ActiveSet

noncomputable instance : Scalar ℝ where
  decLt := Classical.decRel _
  decLe := Classical.decRel _
  sqrt := Real.sqrt
  hypot f g := Real.sqrt (f * f + g * g)
  rescale _ := 1

namespace Exact

@[simp] theorem same_iff {a b : ℝ} : Scalar.same a b = true ↔ a = b := by
  simp only [Scalar.same, Bool.and_eq_true, decide_eq_true_eq]
  exact le_antisymm_iff.symm

@[simp] theorem isNumber_eq (a : ℝ) : Scalar.isNumber a = true := by simp [Scalar.isNumber]

@[simp] theorem isFinite_eq (a : ℝ) : Scalar.isFinite a = true := by simp [Scalar.isFinite]

@[simp] theorem isNegative_iff {a : ℝ} : Scalar.isNegative a = true ↔ a < 0 := by
  simp [Scalar.isNegative]

@[simp] theorem abs_eq (a : ℝ) : Scalar.abs a = |a| := by
  unfold Scalar.abs
  split_ifs with h
  · rw [abs_of_neg h]
  · rw [abs_of_nonneg (not_lt.1 h)]

@[simp] theorem larger_eq (a b : ℝ) : Scalar.larger a b = max a b := by
  unfold Scalar.larger
  split_ifs with h
  · rw [max_eq_right h.le]
  · rw [max_eq_left (not_lt.1 h)]

@[simp] theorem smaller_eq (a b : ℝ) : Scalar.smaller a b = min a b := by
  unfold Scalar.smaller
  split_ifs with h
  · rw [min_eq_right h.le]
  · rw [min_eq_left (not_lt.1 h)]

theorem sign_of_pos {a : ℝ} (h : 0 < a) : Scalar.sign a = 1 := by simp [Scalar.sign, h]

theorem sign_of_neg {a : ℝ} (h : a < 0) : Scalar.sign a = -1 := by
  simp [Scalar.sign, h, not_lt.2 h.le]

theorem hypot_eq (f g : ℝ) : Scalar.hypot f g = Real.sqrt (f * f + g * g) := rfl

@[simp] theorem rescale_eq (a : ℝ) : Scalar.rescale a = 1 := rfl

theorem sqrt_eq (a : ℝ) : Scalar.sqrt a = Real.sqrt a := rfl

theorem sum_eq (k : ℕ) (f : ℕ → ℝ) : sum k f = ∑ i ∈ Finset.range k, f i := by
  induction k with
  | zero => simp
  | succ k ih => rw [sum_succ, Finset.sum_range_succ, ih]

theorem dot_eq (k : ℕ) (u v : ℕ → ℝ) : dot k u v = ∑ i ∈ Finset.range k, u i * v i := sum_eq k _

theorem dot_self_nonneg (k : ℕ) (v : ℕ → ℝ) : 0 ≤ dot k v v := by
  rw [dot_eq]
  exact Finset.sum_nonneg fun i _ => mul_self_nonneg (v i)

theorem norm_eq (k : ℕ) (v : ℕ → ℝ) : norm k v = Real.sqrt (dot k v v) := by
  unfold norm
  split_ifs with h
  · subst h
    simp [dot]
  · rfl

/-- The two norms agree where nothing is lost by squaring. -/
theorem length_eq (k : ℕ) (v : ℕ → ℝ) : length k v = Real.sqrt (dot k v v) := by
  induction k with
  | zero => simp [length, dot]
  | succ k ih =>
    have hstep : length (k + 1) v = Scalar.hypot (length k v) (v k) := rfl
    rw [hstep, ih, hypot_eq, Real.mul_self_sqrt (dot_self_nonneg k v)]
    simp [dot]

theorem le_maximum (k : ℕ) (f : ℕ → ℝ) : ∀ i ≤ k, f i ≤ maximum k f := by
  induction k with
  | zero =>
    intro i hi
    rw [Nat.le_zero.1 hi]
    exact le_rfl
  | succ k ih =>
    have hstep : maximum (k + 1) f = if f (k + 1) ≤ maximum k f then maximum k f else f (k + 1) := by
      simp [maximum]
    intro i hi
    rw [hstep]
    split_ifs with h
    · rcases Nat.le_succ_iff.1 hi with h' | rfl
      · exact ih i h'
      · exact h
    · rcases Nat.le_succ_iff.1 hi with h' | rfl
      · exact (ih i h').trans (not_le.1 h).le
      · exact le_rfl

theorem exists_eq_maximum (k : ℕ) (f : ℕ → ℝ) : ∃ i ≤ k, maximum k f = f i := by
  induction k with
  | zero => exact ⟨0, le_rfl, rfl⟩
  | succ k ih =>
    have hstep : maximum (k + 1) f = if f (k + 1) ≤ maximum k f then maximum k f else f (k + 1) := by
      simp [maximum]
    rw [hstep]
    split_ifs with h
    · obtain ⟨i, hi, he⟩ := ih
      exact ⟨i, Nat.le_succ_of_le hi, he⟩
    · exact ⟨k + 1, le_rfl, rfl⟩

end Exact

end ActiveSet
