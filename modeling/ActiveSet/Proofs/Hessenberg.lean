import ActiveSet.Proofs.Orthogonal
import ActiveSet.Proofs.Substitution

/-! The sweep that makes an upper Hessenberg block triangular multiplies it by an orthogonal matrix from the
left. Its pivots but the last are not negative, and they are positive as far as the columns are independent. -/

namespace ActiveSet

noncomputable section
open Exact

namespace Mat

variable {n r c k hi : ℕ}

theorem IsOrthogonal.dot_map {G : Mat ℝ n n} (hG : G.IsOrthogonal) (u v : ℕ → ℝ) :
    dot n (fun i => dot n (G i) u) (fun i => dot n (G i) v) = dot n u v := by
  rw [dot_transpose]
  refine dot_congr (fun j hj => ?_) fun _ _ => rfl
  rw [dot_transpose, dot_single hj]
  · rw [hG j hj j hj, if_pos rfl, one_mul]
  · intro l hl hlj
    rw [hG l hl j hj, if_neg hlj, zero_mul]

theorem IsOrthogonal.eq_zero_of_map {G : Mat ℝ n n} (hG : G.IsOrthogonal) {u : ℕ → ℝ}
    (hu : ∀ i < n, dot n (G i) u = 0) : ∀ i < n, u i = 0 := by
  apply eq_zero_of_dot_self
  rw [← hG.dot_map u u]
  exact dot_eq_zero fun i hi => by rw [hu i hi, zero_mul]

theorem get_rotateRows {M : Mat ℝ r c} {i j l m : ℕ} {cs sn : ℝ} (hij : i ≠ j) (hl : l < r) (hm : m < c)
    (hj : j < r) : (rotateRows M i j cs sn) l m =
      if l = i then cs * M i m + sn * M j m else if l = j then -sn * M i m + cs * M j m else M l m := by
  simp [rotateRows, get_rotateRowsIn hij hl hm hj, hm]

theorem dot_rotateRows {G : Mat ℝ r c} {i j l : ℕ} {cs sn : ℝ} (hij : i ≠ j) (hl : l < r) (hj : j < r)
    (v : ℕ → ℝ) : dot c ((rotateRows G i j cs sn) l) v = if l = i then cs * dot c (G i) v + sn * dot c (G j) v
      else if l = j then -sn * dot c (G i) v + cs * dot c (G j) v else dot c (G l) v := by
  rw [dot_congr (fun m hm => get_rotateRows hij hl hm hj) fun _ _ => rfl]
  split_ifs
  · exact dot_comb_left ..
  · exact dot_comb_left ..
  · rfl

theorem IsOrthogonal.rotateRows {G : Mat ℝ n n} (hG : G.IsOrthogonal) {i j : ℕ} {cs sn : ℝ}
    (hcs : cs * cs + sn * sn = 1) (hij : i ≠ j) (hi : i < n) (hj : j < n) :
    (G.rotateRows i j cs sn).IsOrthogonal := by
  intro a ha b hb
  rw [← hG a ha b hb]
  refine dot_turn hij hi hj ?_ fun l hl hli hlj => ?_
  · simp only [get_rotateRows hij hi ha hj, get_rotateRows hij hj ha hj, get_rotateRows hij hi hb hj,
      get_rotateRows hij hj hb hj, if_true, if_neg hij.symm]
    linear_combination (G i a * G i b + G j a * G j b) * hcs
  · simp [get_rotateRows hij hl ha hj, get_rotateRows hij hl hb hj, hli, hlj]

/-- The entry that a turn clears is zero already when it is overwritten. -/
theorem get_clearBelow {M : Mat ℝ r c} {i : ℕ} (hir : i + 1 < r) (hic : i < hi) {l m : ℕ} (hl : l < r)
    (hm : m < c) :
    (clearBelow hi M i) l m =
      if m < hi then
        if l = i then (Rotation.annihilate (M i i) (M (i + 1) i)).c * M i m +
          (Rotation.annihilate (M i i) (M (i + 1) i)).s * M (i + 1) m
        else if l = i + 1 then -(Rotation.annihilate (M i i) (M (i + 1) i)).s * M i m +
          (Rotation.annihilate (M i i) (M (i + 1) i)).c * M (i + 1) m
        else M l m
      else M l m := by
  unfold clearBelow
  dsimp only
  rw [get_set _ hl hm, get_rotateRowsIn (by omega) hl hm hir]
  simp only [Nat.zero_le, true_and]
  split_ifs with h1 h2 h3 h4 h5 h6
  · omega
  · obtain ⟨rfl, rfl⟩ := h1
    exact (Rotation.annihilate_clears _ _).symm
  · omega
  · omega
  · rfl
  · rfl
  · rfl
  · rfl

/-- The sweep after `t` turns, on the leading block of `k` rows and `hi` columns. -/
structure Sweeping (k hi : ℕ) (M : Mat ℝ r c) (t : ℕ) (T : Mat ℝ r c) : Prop where
  turned : ∃ G : Mat ℝ k k, G.IsOrthogonal ∧ ∀ i < k, ∀ j < hi, T i j = dot k (G i) fun l => M l j
  frame : ∀ i j, k ≤ i ∨ hi ≤ j → T i j = M i j
  hessenberg : ∀ i < k, ∀ j < hi, j + 1 < i → T i j = 0
  cleared : ∀ i < k, ∀ j < t, j < i → T i j = 0
  nonneg : ∀ i < t, 0 ≤ T i i

theorem clearBelow_row {M : Mat ℝ r c} {i : ℕ} (hir : i + 1 < r) (hic : i < hi) {l : ℕ} (h1 : l ≠ i)
    (h2 : l ≠ i + 1) (m : ℕ) : (clearBelow hi M i) l m = M l m := by
  by_cases hin : l < r ∧ m < c
  · rw [get_clearBelow hir hic hin.1 hin.2, if_neg h1, if_neg h2, ite_self]
  · rw [get_of_le _ (by omega), get_of_le _ (by omega)]

/-- A turn does not see a column that is zero in both of its rows. -/
theorem clearBelow_col {M : Mat ℝ r c} {i : ℕ} (hir : i + 1 < r) (hic : i < hi) {m : ℕ}
    (h : hi ≤ m ∨ M i m = 0 ∧ M (i + 1) m = 0) (l : ℕ) : (clearBelow hi M i) l m = M l m := by
  by_cases hin : l < r ∧ m < c
  · rw [get_clearBelow hir hic hin.1 hin.2]
    rcases h with h | ⟨h1, h2⟩
    · rw [if_neg (by omega)]
    · rw [h1, h2]
      split_ifs with hm hl hl
      · rw [hl, h1]
        ring
      · rw [hl, h2]
        ring
      · rfl
      · rfl
  · rw [get_of_le _ (by omega), get_of_le _ (by omega)]

theorem Sweeping.clearBelow {M T : Mat ℝ r c} {t : ℕ} (hkr : k ≤ r) (hkh : k ≤ hi) (hhc : hi ≤ c)
    (hT : Sweeping k hi M t T) (ht : t + 1 < k) : Sweeping k hi M (t + 1) (clearBelow hi T t) := by
  have hcs := Rotation.annihilate_unit (T t t) (T (t + 1) t)
  have hget := @get_clearBelow r c hi T t (by omega) (by omega)
  have hrow := @clearBelow_row r c hi T t (by omega) (by omega)
  have hcol := @clearBelow_col r c hi T t (by omega) (by omega)
  set g := Rotation.annihilate (T t t) (T (t + 1) t)
  set T' := Mat.clearBelow hi T t
  obtain ⟨G, hG, hTG⟩ := hT.turned
  -- the columns before `t` are clear in both rows of the turn
  have hleft : ∀ i, ∀ j < t, T' i j = T i j := fun i j hj =>
    hcol (Or.inr ⟨hT.cleared t (by omega) j hj hj, hT.cleared (t + 1) ht j hj (by omega)⟩) i
  refine ⟨⟨G.rotateRows t (t + 1) g.c g.s, hG.rotateRows hcs (by omega) (by omega) ht, ?_⟩, ?_, ?_, ?_, ?_⟩
  · intro i hi' j hj
    rw [dot_rotateRows (by omega) hi' ht, ← hTG t (by omega) j hj, ← hTG (t + 1) ht j hj, ← hTG i hi' j hj,
      hget (by omega) (by omega), if_pos hj]
  · intro i j hij
    rw [← hT.frame i j hij]
    rcases hij with h | h
    · exact hrow (by omega) (by omega) j
    · exact hcol (Or.inl h) i
  · intro i hi' j hj hji
    rcases lt_or_ge j t with h | h
    · rw [hleft i j h]
      exact hT.hessenberg i hi' j hj hji
    · rw [hrow (by omega) (by omega)]
      exact hT.hessenberg i hi' j hj hji
  · intro i hi' j hj hji
    rcases (by omega : j < t ∨ j = t) with h | rfl
    · rw [hleft i j h]
      exact hT.cleared i hi' j h hji
    · rcases eq_or_ne i (j + 1) with rfl | h2
      · rw [hget (by omega) (by omega), if_pos (by omega), if_neg (by omega), if_pos rfl]
        exact Rotation.annihilate_clears _ _
      · rw [hrow (by omega) h2]
        exact hT.hessenberg i hi' j (by omega) (by omega)
  · intro i hi'
    rcases (by omega : i < t ∨ i = t) with h | rfl
    · rw [hleft i i h]
      exact hT.nonneg i h
    · rw [hget (by omega) (by omega), if_pos (by omega), if_pos rfl,
        Rotation.annihilate_keeps, hypot_eq]
      exact Real.sqrt_nonneg _

theorem sweeping_triangularizeIn {M : Mat ℝ r c} (hkr : k ≤ r) (hkh : k ≤ hi) (hhc : hi ≤ c)
    (hM : ∀ i < k, ∀ j < hi, j + 1 < i → M i j = 0) :
    Sweeping k hi M (k - 1) (triangularizeIn k hi M) := by
  refine ascend_keeps (p := Sweeping k hi M) ?_ (k - 1) fun t T ht hT =>
    hT.clearBelow hkr hkh hhc (by omega)
  refine ⟨⟨identity, isOrthogonal_identity, fun i hi' j _ => ?_⟩, fun _ _ _ => rfl, hM,
    fun i _ j hj => by omega, fun i h => by omega⟩
  rw [dot_single hi' fun l hl hli => by rw [get_identity hi' hl, if_neg (Ne.symm hli), zero_mul],
    get_identity hi' hi', if_pos rfl, one_mul]

theorem Sweeping.isUpper {M T : Mat ℝ r c} (hT : Sweeping k hi M (k - 1) T) : Triangular.IsUpper k T :=
  fun i hi j hj => hT.cleared i hi j (by omega) hj

theorem Sweeping.gram {M T : Mat ℝ r c} {t : ℕ} (hT : Sweeping k hi M t T) {a b : ℕ} (ha : a < hi)
    (hb : b < hi) : dot k (fun l => T l a) (fun l => T l b) = dot k (fun l => M l a) (fun l => M l b) := by
  obtain ⟨G, hG, hTG⟩ := hT.turned
  rw [← hG.dot_map (fun l => M l a) fun l => M l b]
  exact dot_congr (fun l hl => hTG l hl a ha) fun l hl => hTG l hl b hb

/-- The pivots of independent columns do not vanish. -/
theorem Sweeping.pivot_ne_zero {M T : Mat ℝ r c} {q : ℕ} (hqk : q ≤ k) (hqh : q ≤ hi)
    (hT : Sweeping k hi M (k - 1) T)
    (hM : ∀ x : ℕ → ℝ, (∀ l < k, dot q (M l) x = 0) → ∀ j < q, x j = 0) : ∀ i < q, T i i ≠ 0 := by
  intro i
  induction i using Nat.strong_induction_on with
  | _ i ih =>
    intro hiq h0
    -- the first zero pivot would give a vector that `T`, and so `M`, takes to zero
    obtain ⟨x, hxi, -, hx⟩ := Triangular.exists_null_of_pivot_eq_zero (U := T)
      (fun a ha b hb => hT.isUpper a (by omega) b hb) hiq h0 fun j hj => ih j hj (by omega)
    obtain ⟨G, hG, hTG⟩ := hT.turned
    have hTx : ∀ l < k, dot q (T l) x = 0 := by
      intro l hl
      rcases lt_or_ge l q with hlq | hlq
      · exact hx l hlq
      · exact dot_eq_zero fun j hj => by rw [hT.isUpper l hl j (by omega), zero_mul]
    have hMx : ∀ l < k, dot q (M l) x = 0 := by
      apply hG.eq_zero_of_map
      intro l hl
      rw [dot_transpose, ← hTx l hl]
      exact dot_congr (fun j hj => by rw [hTG l hl j (by omega), dot_comm]) fun _ _ => rfl
    rw [hM x hMx i hiq] at hxi
    exact zero_ne_one hxi

end Mat

end
end ActiveSet
