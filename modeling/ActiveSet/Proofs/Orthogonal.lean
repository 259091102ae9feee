import ActiveSet.Proofs.Dot
import ActiveSet.OrthogonalFactor
import Mathlib.LinearAlgebra.FiniteDimensional.Basic
import Mathlib.Tactic.FieldSimp

/-! Orthogonal matrices, and the two ways a factorization turns them: a plane rotation of two columns and a
reflection of all of them. Either leaves every product `Q y` alone if `y` is turned along. -/

namespace ActiveSet

noncomputable section
open Exact

variable {n : ℕ}

def Mat.IsOrthogonal (Q : Mat ℝ n n) : Prop :=
  ∀ i < n, ∀ j < n, dot n (fun k => Q k i) (fun k => Q k j) = if i = j then 1 else 0

namespace Mat

def toMatrix (Q : Mat ℝ n n) : Matrix (Fin n) (Fin n) ℝ := Matrix.of fun i j => Q i j

theorem dot_eq_sum_fin (u v : ℕ → ℝ) : dot n u v = ∑ i : Fin n, u i * v i := by
  rw [dot_eq, Finset.sum_range]

theorem isOrthogonal_iff (Q : Mat ℝ n n) : Q.IsOrthogonal ↔ Q.toMatrix.transpose * Q.toMatrix = 1 := by
  constructor
  · intro h
    ext i j
    have := h i i.isLt j j.isLt
    rw [dot_eq_sum_fin] at this
    simpa [Matrix.mul_apply, toMatrix, Matrix.one_apply, Fin.ext_iff] using this
  · intro h i hi j hj
    have := congrFun (congrFun h ⟨i, hi⟩) ⟨j, hj⟩
    rw [dot_eq_sum_fin]
    simpa [Matrix.mul_apply, toMatrix, Matrix.one_apply, Fin.ext_iff] using this

/-- For a square matrix orthonormal rows are the same as orthonormal columns. -/
theorem isOrthogonal_iff_rows (Q : Mat ℝ n n) :
    Q.IsOrthogonal ↔ ∀ i < n, ∀ j < n, dot n (Q i) (Q j) = if i = j then 1 else 0 := by
  rw [isOrthogonal_iff, mul_eq_one_comm]
  constructor
  · intro h i hi j hj
    have := congrFun (congrFun h ⟨i, hi⟩) ⟨j, hj⟩
    rw [dot_eq_sum_fin]
    simpa [Matrix.mul_apply, toMatrix, Matrix.one_apply, Fin.ext_iff] using this
  · intro h
    ext i j
    have := h i i.isLt j j.isLt
    rw [dot_eq_sum_fin] at this
    simpa [Matrix.mul_apply, toMatrix, Matrix.one_apply, Fin.ext_iff] using this

theorem isOrthogonal_identity : (identity : Mat ℝ n n).IsOrthogonal := by
  intro i hi j hj
  rw [dot_single hi]
  · simp [get_identity, hi, hj]
  · intro k hk hki
    simp [get_identity, hk, hi, hki]

theorem IsOrthogonal.rows {Q : Mat ℝ n n} (hQ : Q.IsOrthogonal) {i j : ℕ} (hi : i < n) (hj : j < n) :
    dot n (Q i) (Q j) = if i = j then 1 else 0 := (isOrthogonal_iff_rows Q).1 hQ i hi j hj

theorem IsOrthogonal.dot_cols {Q : Mat ℝ n n} (hQ : Q.IsOrthogonal) (u v : ℕ → ℝ) :
    dot n (fun t => dot n (fun i => Q i t) u) (fun t => dot n (fun i => Q i t) v) = dot n u v := by
  rw [dot_transpose n n (fun t i => Q i t)]
  refine dot_congr (fun i hi => ?_) fun _ _ => rfl
  rw [dot_transpose n n (fun t j => Q j t), dot_single hi]
  · rw [hQ.rows hi hi, if_pos rfl, one_mul]
  · intro j hj hji
    rw [hQ.rows hj hi, if_neg hji, zero_mul]

theorem IsOrthogonal.dot_rows {Q : Mat ℝ n n} (hQ : Q.IsOrthogonal) (v : ℕ → ℝ) {i : ℕ} (hi : i < n) :
    dot n (Q i) (fun t => dot n (fun k => Q k t) v) = v i := by
  rw [dot_transpose, dot_single hi]
  · rw [dot_comm, hQ.rows hi hi, if_pos rfl, one_mul]
  · intro k hk hki
    rw [dot_comm, hQ.rows hi hk, if_neg (Ne.symm hki), zero_mul]

theorem IsOrthogonal.apply_applyT {Q : Mat ℝ n n} (hQ : Q.IsOrthogonal) (a : Vec ℝ n) {i : ℕ} (hi : i < n) :
    dot n (Q i) (Q.applyT a) = a i := by
  rw [← hQ.dot_rows a hi]
  exact dot_congr (fun _ _ => rfl) fun j hj => get_applyT Q a hj

end Mat

namespace Rotation

theorem annihilate_of_eq_zero {f g : ℝ} (h : Scalar.hypot f g = 0) : annihilate f g = ⟨1, 0, 0⟩ := by
  unfold annihilate
  rw [if_pos (same_iff.2 h)]

theorem annihilate_of_ne_zero {f g : ℝ} (h : Scalar.hypot f g ≠ 0) :
    annihilate f g = ⟨f / Scalar.hypot f g, g / Scalar.hypot f g, Scalar.hypot f g⟩ := by
  unfold annihilate
  rw [if_neg fun hs => h (same_iff.1 hs)]

theorem hypot_sq (f g : ℝ) : Scalar.hypot f g * Scalar.hypot f g = f * f + g * g := by
  rw [hypot_eq]
  exact Real.mul_self_sqrt (add_nonneg (mul_self_nonneg f) (mul_self_nonneg g))

theorem hypot_eq_zero {f g : ℝ} (h : Scalar.hypot f g = 0) : f = 0 ∧ g = 0 := by
  have hsq := hypot_sq f g
  rw [h, mul_zero] at hsq
  have hf := mul_self_nonneg f
  have hg := mul_self_nonneg g
  exact ⟨mul_self_eq_zero.1 (by linarith), mul_self_eq_zero.1 (by linarith)⟩

theorem annihilate_unit (f g : ℝ) :
    (annihilate f g).c * (annihilate f g).c + (annihilate f g).s * (annihilate f g).s = 1 := by
  by_cases h : Scalar.hypot f g = 0
  · simp [annihilate_of_eq_zero h]
  · rw [annihilate_of_ne_zero h]
    have hsq := hypot_sq f g
    field_simp
    linarith

theorem annihilate_clears (f g : ℝ) : -(annihilate f g).s * f + (annihilate f g).c * g = 0 := by
  by_cases h : Scalar.hypot f g = 0
  · obtain ⟨rfl, rfl⟩ := hypot_eq_zero h
    simp
  · rw [annihilate_of_ne_zero h]
    field_simp
    ring

theorem annihilate_keeps (f g : ℝ) :
    (annihilate f g).c * f + (annihilate f g).s * g = Scalar.hypot f g := by
  by_cases h : Scalar.hypot f g = 0
  · obtain ⟨rfl, rfl⟩ := hypot_eq_zero h
    simp [h]
  · rw [annihilate_of_ne_zero h]
    have hsq := hypot_sq f g
    field_simp
    linarith

end Rotation

namespace Mat

variable {r : ℕ}

/-- Turning two columns and the same two entries of a vector keeps the product. -/
theorem dot_rotateCols (M : Mat ℝ r n) (y : Vec ℝ n) {i j k : ℕ} {c s : ℝ} (hcs : c * c + s * s = 1)
    (hij : i ≠ j) (hi : i < n) (hj : j < n) (hk : k < r) :
    dot n ((M.rotateCols i j c s) k) (y.rotate i j c s) = dot n (M k) y := by
  refine dot_turn hij hi hj ?_ fun l hl hli hlj => ?_
  · simp only [get_rotateCols hij hk hi hj, get_rotateCols hij hk hj hj, Vec.get_rotate y hi,
      Vec.get_rotate y hj, if_true, if_neg hij, if_neg hij.symm]
    linear_combination (M k i * y i + M k j * y j) * hcs
  · simp [get_rotateCols hij hk hl hj, Vec.get_rotate y hl, hli, hlj]

theorem IsOrthogonal.rotateCols {Q : Mat ℝ n n} (hQ : Q.IsOrthogonal) {i j : ℕ} {c s : ℝ}
    (hcs : c * c + s * s = 1) (hij : i ≠ j) (hi : i < n) (hj : j < n) :
    (Q.rotateCols i j c s).IsOrthogonal := by
  rw [isOrthogonal_iff_rows]
  intro k hk l hl
  rw [← hQ.rows hk hl]
  refine dot_turn hij hi hj ?_ fun m hm hmi hmj => ?_
  · simp only [get_rotateCols hij hk hi hj, get_rotateCols hij hk hj hj, get_rotateCols hij hl hi hj,
      get_rotateCols hij hl hj hj, if_true, if_neg hij.symm]
    linear_combination (Q k i * Q l i + Q k j * Q l j) * hcs
  · simp [get_rotateCols hij hk hm hj, get_rotateCols hij hl hm hj, hmi, hmj]

end Mat

namespace Reflector

/-- What makes a reflector turn `x` into its entry at `top` and zeros below it. -/
structure Clears (h : Reflector ℝ n) (x : Vec ℝ n) (top : ℕ) : Prop where
  above : ∀ i < top, h.v i = 0
  involutive : h.tau * (h.tau * dot n h.v h.v) = 2 * h.tau
  image : ∀ i < n, x i - h.tau * h.v i * dot n h.v x =
    if i = top then h.beta else if i < top then x i else 0

theorem dot_from_top {v : ℕ → ℝ} {top : ℕ} (htop : top < n) (hv : ∀ i < top, v i = 0) (w : ℕ → ℝ) :
    dot n v w = v top * w top +
      dot (n - (top + 1)) (fun t => v (top + 1 + t)) (fun t => w (top + 1 + t)) := by
  have hn : dot n v w = dot (top + 1 + (n - (top + 1))) v w := by rw [Nat.add_sub_cancel' htop]
  rw [hn, dot_add, dot_succ, dot_eq_zero fun i hi => by rw [hv i hi, zero_mul], zero_add]

/-- The reflector of a column whose entries below the top one do not all vanish. -/
theorem clears_of_roots (x : Vec ℝ n) {top : ℕ} (htop : top < n) {beta : ℝ}
    (hbeta : beta * beta = x top * x top +
      dot (n - (top + 1)) (fun t => x (top + 1 + t)) (fun t => x (top + 1 + t)))
    (hne : dot (n - (top + 1)) (fun t => x (top + 1 + t)) (fun t => x (top + 1 + t)) ≠ 0) :
    Clears ⟨(beta - x top) / beta,
      Vec.ofFn fun i => if i = top then 1 else if top < i then x i / (x top - beta) else 0, beta⟩ x top := by
  set v : Vec ℝ n := Vec.ofFn fun i => if i = top then 1 else if top < i then x i / (x top - beta) else 0
  set tail := dot (n - (top + 1)) (fun t => x (top + 1 + t)) (fun t => x (top + 1 + t))
  have hbeta0 : beta ≠ 0 := by
    rintro rfl
    have hx := mul_self_nonneg (x top)
    have htail : 0 ≤ tail := dot_self_nonneg _ _
    exact hne (by linarith)
  have hdiff : x top - beta ≠ 0 := by
    intro h
    have hxb : x top = beta := sub_eq_zero.1 h
    rw [hxb] at hbeta
    exact hne (by linarith)
  have habove : ∀ i < top, v i = 0 := fun i hi => by
    simp [v, Vec.get_ofFn, hi.ne, not_lt.2 hi.le]
  have hone : v top = 1 := by simp [v, htop]
  have hbelow : ∀ t < n - (top + 1), v (top + 1 + t) = (x top - beta)⁻¹ * x (top + 1 + t) := fun t ht => by
    rw [Vec.get_ofFn, if_pos (by omega), if_neg (by omega), if_pos (by omega), div_eq_inv_mul]
  -- the first entry of `v` is one, the others are those of `x` over `x top - beta`
  have hvx : dot n v x = -beta := by
    rw [dot_from_top htop habove, hone, one_mul, dot_comm, dot_congr (fun _ _ => rfl) hbelow, dot_mul_right]
    field_simp
    linarith
  have hvv : dot n v v = 1 + (x top - beta)⁻¹ * ((x top - beta)⁻¹ * tail) := by
    rw [dot_from_top htop habove, hone, one_mul, dot_congr hbelow hbelow, dot_mul_right, dot_comm,
      dot_mul_right]
  refine ⟨habove, ?_, ?_⟩
  · change (beta - x top) / beta * ((beta - x top) / beta * dot n v v) = 2 * ((beta - x top) / beta)
    rw [hvv, show tail = beta * beta - x top * x top by linarith]
    field_simp
    ring
  · intro i hi
    change x i - (beta - x top) / beta * v i * dot n v x = _
    rw [hvx]
    rcases lt_trichotomy i top with hlt | rfl | hgt
    · rw [habove i hlt, if_neg hlt.ne, if_pos hlt]
      ring
    · rw [hone, if_pos rfl]
      field_simp
      ring
    · have hv : v i = x i / (x top - beta) := by simp [v, hi, hgt.ne', hgt]
      rw [hv, if_neg hgt.ne', if_neg (by omega)]
      field_simp
      ring

theorem clears_clearing (x : Vec ℝ n) {top : ℕ} (htop : top < n) : Clears (clearing x top) x top := by
  have htail : 0 ≤ dot (n - (top + 1)) (fun t => x (top + 1 + t)) (fun t => x (top + 1 + t)) :=
    dot_self_nonneg _ _
  unfold clearing
  by_cases hrest : length (n - (top + 1)) (fun t => x (top + 1 + t)) = 0
  · rw [if_pos (same_iff.2 hrest)]
    refine ⟨fun i hi => by simp [Vec.get_ofFn, hi.ne], by simp, fun i hi => ?_⟩
    rw [length_eq, Real.sqrt_eq_zero htail] at hrest
    rcases lt_trichotomy i top with hlt | rfl | hgt
    · simp [hlt, hlt.ne]
    · simp
    · have hz := eq_zero_of_dot_self hrest (i - (top + 1)) (by omega)
      rw [show top + 1 + (i - (top + 1)) = i by omega] at hz
      simp [hz, hgt.ne', not_lt.2 hgt.le]
  · rw [if_neg fun hs => hrest (same_iff.1 hs)]
    simp only [rescale_eq, one_mul, div_one]
    have hsq : ∀ b : ℝ, (b = Scalar.hypot (x top) (length (n - (top + 1)) fun t => x (top + 1 + t)) ∨
        b = -Scalar.hypot (x top) (length (n - (top + 1)) fun t => x (top + 1 + t))) →
        b * b = x top * x top +
          dot (n - (top + 1)) (fun t => x (top + 1 + t)) (fun t => x (top + 1 + t)) := by
      rintro b (rfl | rfl)
      · rw [Rotation.hypot_sq, length_eq, Real.mul_self_sqrt htail]
      · rw [neg_mul_neg, Rotation.hypot_sq, length_eq, Real.mul_self_sqrt htail]
    refine clears_of_roots x htop (hsq _ ?_) fun h => hrest (by rw [length_eq, h, Real.sqrt_zero])
    split_ifs
    · exact Or.inl rfl
    · exact Or.inr rfl

theorem dot_reflect {tau : ℝ} {v : ℕ → ℝ} (h : tau * (tau * dot n v v) = 2 * tau) (u w : ℕ → ℝ) :
    dot n (fun j => u j - tau * dot n v u * v j) (fun j => w j - tau * dot n v w * v j) = dot n u w := by
  have hleft : ∀ y : ℕ → ℝ, dot n (fun j => u j - tau * dot n v u * v j) y =
      dot n u y - tau * dot n v u * dot n v y := fun y => by
    rw [dot_comm, dot_sub_right, dot_mul_right, dot_comm n y u, dot_comm n y v]
  rw [hleft, dot_sub_right, dot_sub_right, dot_mul_right, dot_mul_right, dot_comm n u v]
  linear_combination dot n v u * dot n v w * h

theorem get_applyRight (h : Reflector ℝ n) (M : Mat ℝ n n) {i j : ℕ} (hi : i < n) (hj : j < n) :
    (h.applyRight M) i j = M i j - h.tau * dot n h.v (M i) * h.v j := by
  rw [applyRight, Mat.get_ofFn_of_lt _ hi hj, dot_comm]
  ring

theorem get_applyLeft {c : ℕ} (h : Reflector ℝ n) (M : Mat ℝ n c) {i j : ℕ} (hi : i < n) (hj : j < c) :
    (h.applyLeft M) i j = M i j - h.tau * h.v i * dot n h.v fun k => M k j := by
  rw [applyLeft, Mat.get_ofFn_of_lt _ hi hj]

namespace Clears

variable {h : Reflector ℝ n} {x : Vec ℝ n} {top : ℕ}

theorem applyRight_isOrthogonal (hc : Clears h x top) {Q : Mat ℝ n n} (hQ : Q.IsOrthogonal) :
    (h.applyRight Q).IsOrthogonal := by
  rw [Mat.isOrthogonal_iff_rows]
  intro i hi j hj
  rw [← hQ.rows hi hj, ← dot_reflect hc.involutive (Q i) (Q j)]
  exact dot_congr (fun k hk => get_applyRight h Q hi hk) fun k hk => get_applyRight h Q hj hk

theorem dot_applyRight (hc : Clears h x top) (Q : Mat ℝ n n) {i : ℕ} (hi : i < n) {y z : ℕ → ℝ}
    (hz : ∀ k < n, z k = y k - h.tau * h.v k * dot n h.v y) :
    dot n ((h.applyRight Q) i) z = dot n (Q i) y := by
  rw [← dot_reflect hc.involutive (Q i) y]
  refine dot_congr (fun k hk => get_applyRight h Q hi hk) fun k hk => ?_
  rw [hz k hk]
  ring

theorem applyRight_above (hc : Clears h x top) (Q : Mat ℝ n n) {i j : ℕ} (hi : i < n) (hj : j < top)
    (hjn : j < n) : (h.applyRight Q) i j = Q i j := by
  rw [get_applyRight h Q hi hjn, hc.above j hj, mul_zero, sub_zero]

end Clears

end Reflector

end
end ActiveSet
