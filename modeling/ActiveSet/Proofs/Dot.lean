import ActiveSet.Exact
import ActiveSet.Vec
import Mathlib.Tactic.LinearCombination
import Mathlib.Tactic.Linarith

/-! Dot products of the reals: linearity, where a product vanishes, and the two facts the loops rest on. A
sum does not see a turn of two of its terms, and the product with a matrix moves to the other side. -/

namespace ActiveSet

namespace Exact

variable {k : ℕ}

theorem dot_comm (k : ℕ) (u v : ℕ → ℝ) : dot k u v = dot k v u := by
  rw [dot_eq, dot_eq]
  exact Finset.sum_congr rfl fun i _ => mul_comm _ _

theorem dot_succ (k : ℕ) (u v : ℕ → ℝ) : dot (k + 1) u v = dot k u v + u k * v k := rfl

theorem dot_one (u v : ℕ → ℝ) : dot 1 u v = u 0 * v 0 := by simp [dot]

theorem dot_comb_right (k : ℕ) (u v w : ℕ → ℝ) (a b : ℝ) :
    dot k u (fun i => a * v i + b * w i) = a * dot k u v + b * dot k u w := by
  rw [dot_eq, dot_eq, dot_eq, Finset.mul_sum, Finset.mul_sum, ← Finset.sum_add_distrib]
  exact Finset.sum_congr rfl fun i _ => by ring

theorem dot_comb_left (k : ℕ) (u v w : ℕ → ℝ) (a b : ℝ) :
    dot k (fun i => a * v i + b * w i) u = a * dot k v u + b * dot k w u := by
  rw [dot_comm, dot_comb_right, dot_comm k u v, dot_comm k u w]

theorem dot_add_right (k : ℕ) (u v w : ℕ → ℝ) :
    dot k u (fun i => v i + w i) = dot k u v + dot k u w := by
  simpa using dot_comb_right k u v w 1 1

theorem dot_sub_right (k : ℕ) (u v w : ℕ → ℝ) :
    dot k u (fun i => v i - w i) = dot k u v - dot k u w := by
  simpa [sub_eq_add_neg] using dot_comb_right k u v w 1 (-1)

theorem dot_mul_right (k : ℕ) (u v : ℕ → ℝ) (a : ℝ) : dot k u (fun i => a * v i) = a * dot k u v := by
  simpa using dot_comb_right k u v v a 0

theorem dot_neg_right (k : ℕ) (u v : ℕ → ℝ) : dot k u (fun i => -v i) = -dot k u v := by
  simpa using dot_mul_right k u v (-1)

theorem dot_congr_mul {u v u' v' : ℕ → ℝ} (h : ∀ i < k, u i * v i = u' i * v' i) :
    dot k u v = dot k u' v' := sum_congr h

theorem dot_eq_zero {u v : ℕ → ℝ} (h : ∀ i < k, u i * v i = 0) : dot k u v = 0 := by
  rw [dot_eq]
  exact Finset.sum_eq_zero fun i hi => h i (Finset.mem_range.1 hi)

/-- Only the terms before `j` count if the others vanish. -/
theorem dot_cut {j : ℕ} {u v : ℕ → ℝ} (hj : j ≤ k) (h : ∀ i, j ≤ i → i < k → u i * v i = 0) :
    dot k u v = dot j u v := by
  induction k with
  | zero => rw [Nat.le_zero.1 hj]
  | succ k ih =>
    rcases Nat.le_succ_iff.1 hj with hj' | rfl
    · rw [dot_succ, h k hj' (Nat.lt_succ_self k), add_zero]
      exact ih hj' fun i hi hik => h i hi (Nat.lt_succ_of_lt hik)
    · rfl

theorem dot_single {i : ℕ} {u v : ℕ → ℝ} (hi : i < k) (h : ∀ j < k, j ≠ i → u j * v j = 0) :
    dot k u v = u i * v i := by
  rw [dot_eq]
  exact Finset.sum_eq_single_of_mem i (Finset.mem_range.2 hi) fun j hj => h j (Finset.mem_range.1 hj)

theorem dot_unit {i : ℕ} (hi : i < k) (u : ℕ → ℝ) : dot k u (fun j => if j = i then 1 else 0) = u i := by
  rw [dot_single hi fun j _ hj => by simp [hj]]
  simp

theorem dot_add (a b : ℕ) (u v : ℕ → ℝ) :
    dot (a + b) u v = dot a u v + dot b (fun t => u (a + t)) (fun t => v (a + t)) := by
  rw [dot_eq, dot_eq, dot_eq, Finset.sum_range_add]

theorem dot_reverse (k : ℕ) (u v : ℕ → ℝ) : dot k (fun i => u (k - 1 - i)) (fun i => v (k - 1 - i)) = dot k u v := by
  rw [dot_eq, dot_eq, Finset.sum_range_reflect (fun i => u i * v i)]

/-- Two terms may be exchanged for two others of the same sum. -/
theorem dot_turn {i j : ℕ} {u v u' v' : ℕ → ℝ} (hij : i ≠ j) (hi : i < k) (hj : j < k)
    (hpair : u' i * v' i + u' j * v' j = u i * v i + u j * v j)
    (hrest : ∀ l < k, l ≠ i → l ≠ j → u' l * v' l = u l * v l) : dot k u' v' = dot k u v := by
  have hmem : j ∈ (Finset.range k).erase i := Finset.mem_erase.2 ⟨hij.symm, Finset.mem_range.2 hj⟩
  have split : ∀ f : ℕ → ℝ, ∑ l ∈ Finset.range k, f l =
      f i + f j + ∑ l ∈ ((Finset.range k).erase i).erase j, f l := fun f => by
    rw [← Finset.add_sum_erase _ _ (Finset.mem_range.2 hi), ← Finset.add_sum_erase _ _ hmem, add_assoc]
  rw [dot_eq, dot_eq, split, split, hpair]
  congr 1
  refine Finset.sum_congr rfl fun l hl => ?_
  obtain ⟨hlj, hl⟩ := Finset.mem_erase.1 hl
  obtain ⟨hli, hl⟩ := Finset.mem_erase.1 hl
  exact hrest l (Finset.mem_range.1 hl) hli hlj

theorem dot_transpose (r c : ℕ) (M : ℕ → ℕ → ℝ) (u v : ℕ → ℝ) :
    dot r u (fun i => dot c (M i) v) = dot c (fun j => dot r (fun i => M i j) u) v := by
  simp only [dot_eq, Finset.mul_sum, Finset.sum_mul]
  rw [Finset.sum_comm]
  exact Finset.sum_congr rfl fun j _ => Finset.sum_congr rfl fun i _ => by ring

theorem eq_zero_of_dot_self {v : ℕ → ℝ} (h : dot k v v = 0) : ∀ i < k, v i = 0 := by
  intro i hi
  rw [dot_eq] at h
  have := (Finset.sum_eq_zero_iff_of_nonneg fun j _ => mul_self_nonneg (v j)).1 h i (Finset.mem_range.2 hi)
  exact mul_self_eq_zero.1 this

theorem norm_ofFn (v : ℕ → ℝ) : norm k (Vec.ofFn v : Vec ℝ k) = norm k v := by
  rw [norm_eq, norm_eq]
  congr 1
  exact dot_congr (fun i hi => Vec.get_ofFn_of_lt _ hi) fun i hi => Vec.get_ofFn_of_lt _ hi

end Exact

end ActiveSet
