import ActiveSet.Proofs.Checker
import ActiveSet.Proofs.Orthogonal
import ActiveSet.Proofs.Pivots
import ActiveSet.Intake
import Mathlib.Algebra.Order.Star.Real
import Mathlib.Data.List.Perm.Basic
import Mathlib.LinearAlgebra.Matrix.Block
import Mathlib.LinearAlgebra.Matrix.PosDef

/-! What the cut of a pivoted factor leaves. Every turn takes the largest entry that the turns before have left of the
diagonal, and exchanges behind it do not touch that, so the pivots do not increase and the first one that is too small
bounds the whole diagonal of the Schur complement. Without thresholds only a definite matrix is factored to its end. -/

namespace ActiveSet

noncomputable section
open Exact
open scoped Matrix

variable {n : ℕ} {M : Mat ℝ n n}

def Mat.block {a b : ℕ} (M : Mat ℝ n n) (f : Fin a → ℕ) (g : Fin b → ℕ) : Matrix (Fin a) (Fin b) ℝ :=
  .of fun i j => M (f i) (g j)

theorem Mat.transpose_block (hM : M.Symmetric) {a b : ℕ} {f : Fin a → ℕ} {g : Fin b → ℕ}
    (hf : ∀ i, f i < n) (hg : ∀ j, g j < n) : (M.block f g)ᵀ = M.block g f := by
  ext i j
  exact hM _ (hf j) _ (hg i)

namespace Cholesky

variable {s : Cholesky ℝ n} {tol curvature : ℝ}

theorem Truncated.perm_order (hs : Truncated M tol curvature s) : s.order.toList.Perm (List.range n) := by
  have hnodup : s.order.toList.Nodup := by
    rw [Vec.toList_eq_map]
    refine List.nodup_range.map_on fun i hi j hj h => ?_
    exact hs.order_inj i (List.mem_range.1 hi) j (List.mem_range.1 hj) h
  refine (hnodup.subperm fun row hrow => ?_).perm_of_length_le ?_
  · rw [Vec.toList_eq_map] at hrow
    obtain ⟨i, hi, rfl⟩ := List.mem_map.1 hrow
    exact List.mem_range.2 (hs.order_lt i (List.mem_range.1 hi))
  · simp [Vec.toList_eq_map]

/-- The first `t` turns. Each pivot was the largest entry left of the diagonal, and a turn that was not made had nothing
positive to take. -/
structure Turned (M : Mat ℝ n n) (t : ℕ) (s : Cholesky ℝ n) : Prop where
  leading : Leading M s
  rank_le : s.rank ≤ t
  greatest : ∀ j < s.rank, ∀ i < n, j ≤ i → left M s j i ≤ left M s j j
  stopped : s.rank < t → ∀ i < n, s.rank ≤ i → left M s s.rank i ≤ 0

theorem Turned.turn {t : ℕ} (hs : Turned M t s) (ht : t < n) : Turned M (t + 1) (turn M s t) := by
  have hleading := hs.leading.turn ht
  obtain ⟨hne, h⟩ | ⟨rfl, hstop, h⟩ | ⟨rfl, -, h⟩ := turn_cases M s t
  · have hle := hs.rank_le
    rw [h] at hleading ⊢
    exact ⟨hleading, by omega, hs.greatest, fun _ => hs.stopped (by omega)⟩
  · rw [h] at hleading ⊢
    exact ⟨hleading, Nat.le_succ _, hs.greatest, fun _ i hi hri => (le_pivot _ hri hi).trans hstop⟩
  · obtain ⟨hrp, hp⟩ := pivot_range (left M s s.rank) ht
    rw [h] at hleading ⊢
    set p := Cholesky.pivot n (left M s s.rank) s.rank
    -- neither the exchange behind the earlier pivots nor the new row changes what they left
    have hleft : ∀ j i, j ≤ s.rank → i < n →
        left M (Cholesky.extend M (s.exchange s.rank p) s.rank (Scalar.sqrt (left M s s.rank p))) j i =
          left M s j (source s.rank p i) := fun j i hj hi => by
      rw [left_extend _ _ _ hj, left_exchange s _ _ (by omega) hi]
    refine ⟨hleading, le_rfl, fun j hj i hi hji => ?_, fun hlt => absurd hlt (lt_irrefl _)⟩
    have hj : j < s.rank + 1 := hj
    rw [hleft j i (by omega) hi, hleft j j (by omega) (by omega)]
    have hsource : source s.rank p i < n := source_lt ht hp hi
    rcases (by omega : j < s.rank ∨ j = s.rank) with hj | rfl
    · rw [source_of_lt hrp hj]
      exact hs.greatest j hj _ hsource (le_source hj.le hrp hji)
    · rw [source_self]
      exact le_pivot _ (le_source le_rfl hrp hji) hsource

theorem turned_full (M : Mat ℝ n n) : Turned M n (full M) := by
  refine ascend_keeps (p := Turned M) ?_ n fun t s ht hs => hs.turn ht
  exact ⟨leading_start M, le_rfl, fun j hj => absurd hj (Nat.not_lt_zero j), fun h => absurd h (lt_irrefl 0)⟩

theorem antitone_left (M : Mat ℝ n n) (s : Cholesky ℝ n) (i : ℕ) : Antitone fun j => left M s j i := by
  refine antitone_nat_of_succ_le fun j => ?_
  unfold left
  rw [sum_succ]
  linarith [mul_self_nonneg (s.factor j i)]

theorem Turned.factor_le {t : ℕ} (hs : Turned M t s) {i j : ℕ} (hij : i ≤ j) (hj : j < s.rank) :
    s.factor j j ≤ s.factor i i := by
  have hle := hs.leading.rank_le
  refine (mul_self_le_mul_self_iff (hs.leading.pivot j hj).le (hs.leading.pivot i (by omega)).le).2 ?_
  rw [← hs.leading.left_self hj, ← hs.leading.left_self (by omega)]
  exact (antitone_left M s j hij).trans (hs.greatest i (by omega) j (by omega) hij)

/-- The cut leaves nothing larger than the pivot at which it was made. -/
theorem Turned.left_cut_le (hs : Turned M n s) {i : ℕ} (hi : i < n) (hcut : s.cut tol curvature ≤ i) :
    left M s (s.cut tol curvature) i ≤ max (tol ^ 2) curvature := by
  rcases lt_or_eq_of_le (cut_le s tol curvature) with hlt | heq
  · have hpivot := hs.leading.pivot _ hlt
    refine (hs.greatest _ hlt i hi hcut).trans ?_
    rw [hs.leading.left_self hlt]
    rcases factor_cut_le hlt with h | h
    · refine le_max_of_le_left ?_
      rw [sq]
      exact mul_self_le_mul_self hpivot.le h
    · exact le_max_of_le_right h
  · rw [heq] at hcut ⊢
    exact (hs.stopped (by omega) i hi hcut).trans (le_max_of_le_left (sq_nonneg tol))

def upper (s : Cholesky ℝ n) : Matrix (Fin s.rank) (Fin s.rank) ℝ := .of fun i j => s.factor i j

def kept (s : Cholesky ℝ n) (i : Fin s.rank) : ℕ := s.order i

def held (s : Cholesky ℝ n) (i : Fin (n - s.rank)) : ℕ := s.order (s.rank + i)

def schur (M : Mat ℝ n n) (s : Cholesky ℝ n) : Matrix (Fin (n - s.rank)) (Fin (n - s.rank)) ℝ :=
  M.block s.held s.held - M.block s.held s.kept * (M.block s.kept s.kept)⁻¹ * M.block s.kept s.held

theorem Truncated.kept_lt (hs : Truncated M tol curvature s) (i : Fin s.rank) : s.kept i < n :=
  hs.order_lt i (i.isLt.trans_le hs.rank_le)

theorem Truncated.held_lt (hs : Truncated M tol curvature s) (i : Fin (n - s.rank)) : s.held i < n :=
  hs.order_lt _ (by omega)

theorem Truncated.isUpperTriangular (hs : Truncated M tol curvature s) : s.upper.IsUpperTriangular :=
  fun i j hji => hs.upper i j hji

theorem Truncated.isUnit_upper (hs : Truncated M tol curvature s) : IsUnit s.upper := by
  rw [Matrix.isUnit_iff_isUnit_det, Matrix.det_of_isUpperTriangular hs.isUpperTriangular]
  exact IsUnit.mk0 _ (Finset.prod_ne_zero_iff.2 fun i _ => (hs.pivot i i.isLt).ne')

theorem Truncated.gram (hM : M.Symmetric) (hs : Truncated M tol curvature s) :
    s.upperᵀ * s.upper = M.block s.kept s.kept := by
  ext i j
  have hle := hs.rank_le
  rw [Matrix.mul_apply]
  change ∑ l : Fin s.rank, s.factor l i * s.factor l j = M (s.order i) (s.order j)
  rw [← symmetric_eq hM (hs.order_lt i (by omega)) (hs.order_lt j (by omega)), ← hs.product i i.isLt j j.isLt,
    Mat.dot_eq_sum_fin]

def beyond (s : Cholesky ℝ n) (r : ℕ) : Matrix (Fin (s.truncate r).rank) (Fin (n - (s.truncate r).rank)) ℝ :=
  .of fun l j => s.factor l (r + j)

theorem Leading.cross (hM : M.Symmetric) (hs : Leading M s) {r : ℕ} (hr : r ≤ s.rank) :
    (s.truncate r).upperᵀ * s.beyond r = M.block (s.truncate r).kept (s.truncate r).held := by
  have hle := hs.rank_le
  ext i j
  have hi : (i : ℕ) < r := i.isLt
  have hj : r + (j : ℕ) < n := by have : (j : ℕ) < n - r := j.isLt; omega
  rw [Matrix.mul_apply]
  change ∑ l : Fin r, (s.truncate r).factor l i * s.factor l (r + j) = M (s.order i) (s.order (r + j))
  rw [← symmetric_eq hM (hs.order_lt _ (by omega)) (hs.order_lt _ hj), ← hs.product i (by omega) _ hj (by omega),
    dot_cut hr fun l hl _ => by rw [hs.upper l i (by omega), zero_mul], Mat.dot_eq_sum_fin]
  exact Finset.sum_congr rfl fun l _ => by rw [hs.factor_truncate_of_lt l hi]

theorem mul_gram_inv_mul {ι κ : Type*} [Fintype ι] [DecidableEq ι] {U : Matrix ι ι ℝ} (hU : IsUnit U)
    (V : Matrix ι κ ℝ) : Vᵀ * U * (Uᵀ * U)⁻¹ * (Uᵀ * V) = Vᵀ * V := by
  have hdet := (Matrix.isUnit_iff_isUnit_det U).1 hU
  have hdetT : IsUnit Uᵀ.det := by rwa [Matrix.det_transpose]
  calc Vᵀ * U * (Uᵀ * U)⁻¹ * (Uᵀ * V) = Vᵀ * (U * U⁻¹) * (Uᵀ⁻¹ * Uᵀ) * V := by
        rw [Matrix.mul_inv_rev]
        simp only [Matrix.mul_assoc]
    _ = Vᵀ * V := by rw [Matrix.mul_nonsing_inv _ hdet, Matrix.nonsing_inv_mul _ hdetT, Matrix.mul_one, Matrix.mul_one]

/-- The diagonal of the complement is what the turns before the cut have left. -/
theorem Leading.schur_truncate (hM : M.Symmetric) (hs : Leading M s) {r : ℕ} (hr : r ≤ s.rank)
    (ht : Truncated M tol curvature (s.truncate r)) (i : Fin (n - (s.truncate r).rank)) :
    schur M (s.truncate r) i i = left M s r (r + i) := by
  have hcross := hs.cross hM hr
  have hcrossT : (s.beyond r)ᵀ * (s.truncate r).upper = M.block (s.truncate r).held (s.truncate r).kept := by
    rw [← Mat.transpose_block hM ht.kept_lt ht.held_lt, ← hcross, Matrix.transpose_mul, Matrix.transpose_transpose]
  have hi : r + (i : ℕ) < n := by have : (i : ℕ) < n - r := i.isLt; omega
  unfold schur left
  rw [← ht.gram hM, ← hcross, ← hcrossT, mul_gram_inv_mul ht.isUnit_upper, Matrix.sub_apply, Matrix.mul_apply,
    symmetric_eq hM (hs.order_lt _ hi) (hs.order_lt _ hi), sum_eq, Finset.sum_range]
  rfl

theorem posDef_complement {ι κ : Type*} [Fintype ι] [Fintype κ] [DecidableEq ι] {A : Matrix ι ι ℝ} {B : Matrix ι κ ℝ}
    {D : Matrix κ κ ℝ} (h : (Matrix.fromBlocks A B Bᴴ D).PosDef) : (D - Bᴴ * A⁻¹ * B).PosDef := by
  have hA : A.PosDef := h.submatrix (e := Sum.inl) Sum.inl_injective
  have := hA.isUnit.invertible
  refine .of_dotProduct_mulVec_pos ((Matrix.IsHermitian.fromBlocks₁₁ B D hA.1).1 h.1) fun x hx => ?_
  -- the vector that `A` does not see
  have hpos := h.dotProduct_mulVec_pos (x := Sum.elim (-((A⁻¹ * B) *ᵥ x)) x) fun h0 =>
    hx (funext fun i => congrFun h0 (Sum.inr i))
  rwa [Matrix.dotProduct_mulVec, Matrix.schur_complement_eq₁₁ B D _ _ hA.1, neg_add_cancel, dotProduct_zero, zero_add,
    ← Matrix.dotProduct_mulVec] at hpos

theorem Truncated.schur_pos (hM : M.Symmetric) (hs : Truncated M tol curvature s)
    (h : M.toMatrix.PosDef) (i : Fin (n - s.rank)) : 0 < schur M s i i := by
  have hle := hs.rank_le
  set e : Fin s.rank ⊕ Fin (n - s.rank) → Fin n := fun c =>
    ⟨s.order (finSumFinEquiv c), hs.order_lt _ (by omega)⟩
  have he : Function.Injective e := fun a b hab =>
    finSumFinEquiv.injective (Fin.ext (hs.order_inj _ (by omega) _ (by omega) (Fin.ext_iff.1 hab)))
  have hblocks : M.toMatrix.submatrix e e = Matrix.fromBlocks (M.block s.kept s.kept) (M.block s.kept s.held)
      (M.block s.kept s.held)ᴴ (M.block s.held s.held) := by
    rw [Matrix.conjTranspose_eq_transpose_of_trivial, Mat.transpose_block hM hs.kept_lt hs.held_lt]
    ext (a | a) (b | b) <;> rfl
  have hcomplement := posDef_complement (hblocks ▸ h.submatrix he)
  rw [Matrix.conjTranspose_eq_transpose_of_trivial, Mat.transpose_block hM hs.kept_lt hs.held_lt] at hcomplement
  exact hcomplement.diag_pos

theorem Truncated.posDef_of_rank (hM : M.Symmetric) (hs : Truncated M tol curvature s)
    (h : s.rank = n) : M.toMatrix.PosDef := by
  have hblock : (M.block s.kept s.kept).PosDef := by
    rw [← hs.gram hM, ← Matrix.conjTranspose_eq_transpose_of_trivial]
    exact .conjTranspose_mul_self _ (Matrix.mulVec_injective_of_isUnit hs.isUnit_upper)
  set e : Fin s.rank → Fin n := fun i => ⟨s.kept i, hs.kept_lt i⟩
  have he : Function.Injective e := fun a b hab =>
    Fin.ext (hs.order_inj a (by omega) b (by omega) (Fin.ext_iff.1 hab))
  let σ := Equiv.ofBijective e ((Fintype.bijective_iff_injective_and_card e).2 ⟨he, by simp [h]⟩)
  have hσ : M.block s.kept s.kept = M.toMatrix.submatrix σ σ := rfl
  have hback := hblock.submatrix σ.symm.injective
  rwa [hσ, Matrix.submatrix_submatrix, Equiv.self_comp_symm, Matrix.submatrix_id_id] at hback

theorem cholesky_ofMat (M : Mat ℝ n n) (tol curvature : ℝ) :
    Intake.cholesky (.ofMat M) tol curvature = .ok ⟨n, ofMat M tol curvature⟩ := by
  have hshape : (Tensor.ofMat M).shape = [n, n] := rfl
  unfold Intake.cholesky
  rw [hshape]
  dsimp only
  rw [if_pos (Or.inr rfl), Tensor.toMat_ofMat]

theorem schur_ofMat_le (hM : M.Symmetric) (tol curvature : ℝ)
    (i : Fin (n - (ofMat M tol curvature).rank)) :
    schur M (ofMat M tol curvature) i i ≤ max (tol ^ 2) curvature := by
  have hs := turned_full M
  have hi : (full M).cut tol curvature + (i : ℕ) < n := by
    have : (i : ℕ) < n - (full M).cut tol curvature := i.isLt
    omega
  exact (hs.leading.schur_truncate hM (cut_le _ tol curvature) (truncated_ofMat M tol curvature) i).trans_le
    (hs.left_cut_le hi (Nat.le_add_right ..))

theorem antitone_diag_ofMat (M : Mat ℝ n n) (tol curvature : ℝ) : Antitone (ofMat M tol curvature).upper.diag := by
  have hs := turned_full M
  intro i j hij
  have hj : (j : ℕ) < (full M).cut tol curvature := j.isLt
  have hi : (i : ℕ) < (full M).cut tol curvature := i.isLt
  change ((full M).truncate _).factor j j ≤ ((full M).truncate _).factor i i
  rw [hs.leading.factor_truncate_of_lt _ hj, hs.leading.factor_truncate_of_lt _ hi]
  exact hs.factor_le hij (hj.trans_le (cut_le _ tol curvature))

/-- Every symmetric matrix is factored up to the cut, whatever the thresholds are. The order is a rearrangement of all
rows. In that order the triangle is a factor of the leading block, its pivots do not increase and exceed the thresholds,
and no diagonal entry of the Schur complement of the block exceeds them. Without thresholds nothing is cut away exactly
if the matrix is positive definite. -/
theorem cuts_factor_block (M : Mat ℝ n n) (hM : M.Symmetric) (tol curvature : ℝ) :
    ∃ s, Intake.cholesky (.ofMat M) tol curvature = .ok ⟨n, s⟩ ∧ s.rank ≤ n ∧
      s.order.toList.Perm (List.range n) ∧ s.upper.IsUpperTriangular ∧ Antitone s.upper.diag ∧
      (∀ i, tol < s.upper i i ∧ curvature < s.upper i i ^ 2) ∧
      s.upperᵀ * s.upper = M.block s.kept s.kept ∧ IsUnit (M.block s.kept s.kept) ∧
      (∀ i, schur M s i i ≤ max (tol ^ 2) curvature) ∧
      (tol = 0 → curvature = 0 → (s.rank = n ↔ M.toMatrix.PosDef)) := by
  have hs := truncated_ofMat M tol curvature
  have hschur := schur_ofMat_le hM tol curvature
  refine ⟨_, cholesky_ofMat M tol curvature, hs.rank_le, hs.perm_order, hs.isUpperTriangular,
    antitone_diag_ofMat M tol curvature, fun i => ?_, hs.gram hM, ?_, hschur, ?_⟩
  · rw [sq]
    exact hs.large i i.isLt
  · rw [← hs.gram hM]
    exact ((Matrix.isUnit_transpose _).2 hs.isUnit_upper).mul hs.isUnit_upper
  · rintro rfl rfl
    refine ⟨hs.posDef_of_rank hM, fun h => ?_⟩
    by_contra hne
    have hlt := lt_of_le_of_ne hs.rank_le hne
    have hpos := hs.schur_pos hM h ⟨0, by omega⟩
    have hle := hschur ⟨0, by omega⟩
    rw [sq, mul_zero, max_self] at hle
    exact absurd hpos (not_lt.2 hle)

def seesaw : Mat ℝ 2 2 := Mat.ofFn fun i j => if i = j then 1 else -1

/-- The first pivot leaves nothing for a second one. -/
theorem cuts_factor_block_seesaw : (seesaw.Symmetric) ∧
    ∃ s, Intake.cholesky (.ofMat seesaw) 0 0 = .ok ⟨2, s⟩ ∧ s.rank < 2 ∧
      s.upperᵀ * s.upper = seesaw.block s.kept s.kept ∧ ∀ i, schur seesaw s i i ≤ 0 := by
  have hget : ∀ i < 2, ∀ j < 2, seesaw i j = if i = j then (1 : ℝ) else -1 := fun i hi j hj =>
    Mat.get_ofFn_of_lt _ hi hj
  have hsymm : seesaw.Symmetric := fun i hi j hj => by
    rw [hget i hi j hj, hget j hj i hi]
    exact if_congr eq_comm rfl rfl
  have hsingular : ¬ seesaw.toMatrix.PosDef := by
    intro h
    have hform := h.dotProduct_mulVec_pos (x := ![1, 1]) fun h0 => one_ne_zero (congrFun h0 0)
    simp only [dotProduct, Matrix.mulVec, Fin.sum_univ_two, Mat.toMatrix, Matrix.of_apply] at hform
    norm_num [hget] at hform
  obtain ⟨s, hs, hle, -, -, -, -, hgram, -, hschur, hdefinite⟩ := cuts_factor_block seesaw hsymm 0 0
  refine ⟨hsymm, s, hs, lt_of_le_of_ne hle fun h => hsingular ((hdefinite rfl rfl).1 h), hgram, fun i => ?_⟩
  simpa using hschur i

end Cholesky

end
end ActiveSet
