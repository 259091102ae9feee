import ActiveSet.Proofs.Breakdown
import ActiveSet.Proofs.Rays

/-! Where `P` is strongly convex every pivot is one. Whatever the turns of the basis have made of the free directions,
what the factored ones leave of the curvature of the next is the curvature of `P` along a vector of length one or
more. So no pivot is cut off at the start, no corner is flat after an addition or a removal, and no direction is
artificial. -/

namespace ActiveSet

noncomputable section
open Exact

variable {m n : ℕ}

def Mat.Above (P : Mat ℝ n n) (δ : ℝ) : Prop := ∀ v : ℕ → ℝ, δ * dot n v v ≤ P.form v v

/-- The curvature of `P` is above all that counts as none. -/
structure Strong (P : Mat ℝ n n) (rule : CurvatureRule ℝ) (δ : ℝ) : Prop where
  symmetric : P.Symmetric
  above : P.Above δ
  indefinite_nonneg : 0 ≤ rule.indefinite
  flat_nonneg : 0 ≤ rule.flat
  indefinite_lt : rule.indefinite < δ
  flat_lt : rule.flat < δ
  indefinite_lt_one : rule.indefinite < 1

theorem Strong.pos {P : Mat ℝ n n} {rule : CurvatureRule ℝ} {δ : ℝ} (h : Strong P rule δ) : 0 < δ :=
  h.indefinite_nonneg.trans_lt h.indefinite_lt

theorem Strong.square_lt {P : Mat ℝ n n} {rule : CurvatureRule ℝ} {δ : ℝ} (h : Strong P rule δ) :
    rule.indefinite * rule.indefinite < δ := by
  have hle : rule.indefinite * rule.indefinite ≤ rule.indefinite :=
    mul_le_of_le_one_left h.indefinite_nonneg h.indefinite_lt_one.le
  exact hle.trans_lt h.indefinite_lt

theorem OrthogonalFactor.Factors.dot_reversed {basis : OrthogonalFactor ℝ n} {W : List (Vec ℝ n)}
    (hW : basis.Factors W) {i j : ℕ} (hi : i < n) (hj : j < n) :
    dot n (ReducedFactor.reversed basis.q i) (ReducedFactor.reversed basis.q j) = if i = j then 1 else 0 := by
  change dot n (fun r => basis.q r (n - 1 - i)) (fun r => basis.q r (n - 1 - j)) = _
  rw [hW.orthogonal _ (by omega) _ (by omega)]
  by_cases hij : i = j
  · rw [hij, if_pos rfl, if_pos rfl]
  · rw [if_neg hij, if_neg (by omega)]

namespace ReducedFactor

section Rest

variable {P : Mat ℝ n n} {δ : ℝ} {k : ℕ} {U : ℕ → ℕ → ℝ} {d w e : ℕ → ℝ} {z : ℕ → ℕ → ℝ}

/-- `P` along `e` less the combination of the factored vectors that has its column. -/
theorem Exactly.form_sub (h : Exactly P k U d z) (hP : P.Symmetric)
    {y : ℕ → ℝ} (hy : ∀ l < k, dot k (U l) y = w l)
    (hw : ∀ j < k, dot k (fun l => U l j) (fun l => d l * w l) = P.form (z j) e) :
    P.form (fun i => 1 * e i + -1 * dot k (fun j => z j i) y) (fun i => 1 * e i + -1 * dot k (fun j => z j i) y) =
      P.form e e - dot k w fun l => d l * w l := by
  have hcross : P.form (fun i => dot k (fun j => z j i) y) e = dot k w fun l => d l * w l := by
    rw [Mat.form_dot_left, dot_congr (fun j hj => (hw j hj).symm) fun _ _ => rfl, ← dot_transpose,
      dot_congr (fun _ _ => rfl) hy, dot_comm]
  have hother := (Mat.form_comm hP e _).trans hcross
  have hsquare : P.form (fun i => dot k (fun j => z j i) y) (fun i => dot k (fun j => z j i) y) =
      dot k w fun l => d l * w l := by
    rw [h.form_combination y]
    exact dot_congr hy fun l hl => by rw [hy l hl]
  rw [Mat.form_comb_left, Mat.form_comb_right, Mat.form_comb_right, hcross, hsquare, hother]
  ring

/-- What the factored vectors leave of the curvature along a unit vector at right angles to them is the curvature
along a vector that is at least as long. -/
theorem Exactly.le_rest (h : Exactly P k U d z) (hP : P.Symmetric) (hstrong : P.Above δ)
    (hδ : 0 ≤ δ) (hU : Triangular.IsUpper k U) (hpivot : ∀ i < k, U i i ≠ 0) (hz : ∀ j < k, dot n (z j) e = 0)
    (he : dot n e e = 1) (hw : ∀ j < k, dot k (fun l => U l j) (fun l => d l * w l) = P.form (z j) e) :
    δ ≤ P.form e e - dot k w fun l => d l * w l := by
  set y := Triangular.backward k U w
  set c : ℕ → ℝ := fun i => dot k (fun j => z j i) y
  have hright : dot n e c = 0 := by
    rw [dot_transpose]
    exact dot_eq_zero fun j hj => by rw [hz j hj, zero_mul]
  have hlong : dot n (fun i => 1 * e i + -1 * c i) (fun i => 1 * e i + -1 * c i) = 1 + dot n c c := by
    rw [dot_comb_left, dot_comb_right, dot_comb_right, dot_comm n c e, hright, he]
    ring
  have hcurved := hstrong fun i => 1 * e i + -1 * c i
  rw [hlong, h.form_sub hP (fun l hl => Triangular.backward_solves hU hpivot hl) hw] at hcurved
  nlinarith [dot_self_nonneg n c]

end Rest

end ReducedFactor

namespace Cholesky

variable {k : ℕ} {M : Mat ℝ k k} {s : Cholesky ℝ k} {δ tol curvature : ℝ}

theorem turn_rank (hpos : ∀ p, s.rank ≤ p → p < k → 0 < left M s s.rank p) (hlt : s.rank < k) :
    (turn M s s.rank).rank = s.rank + 1 := by
  obtain ⟨hle, hp⟩ := pivot_range (left M s s.rank) hlt
  obtain ⟨hne, -⟩ | ⟨-, hstop, -⟩ | ⟨-, -, h⟩ := turn_cases M s s.rank
  · exact absurd rfl hne
  · exact absurd (hpos _ hle hp) (not_lt.2 hstop)
  · rw [h]
    rfl

/-- Where every turn leaves a positive diagonal none of them stops. -/
theorem full_rank (hpos : ∀ s, Leading M s → ∀ p, s.rank ≤ p → p < k → 0 < left M s s.rank p) : (full M).rank = k := by
  have hturns := ascend_keeps (p := fun j s => Leading M s ∧ s.rank = j) (f := turn M) ⟨leading_start M, rfl⟩ k ?_
  · exact hturns.2
  · rintro j s hj ⟨hs, rfl⟩
    exact ⟨hs.turn hj, turn_rank (hpos s hs) hj⟩

theorem Leading.le_left {P : Mat ℝ n n} {z : ℕ → ℕ → ℝ} (hs : Leading M s) (hP : P.Symmetric)
    (hstrong : P.Above δ) (hδ : 0 ≤ δ) (hM : ∀ i < k, ∀ j < k, symmetric M i j = P.form (z i) (z j))
    (hz : ∀ i < k, ∀ j < k, dot n (z i) (z j) = if i = j then 1 else 0) {j p : ℕ} (hj : j ≤ s.rank) (hjp : j ≤ p)
    (hp : p < k) : δ ≤ left M s j p := by
  have hle := hs.rank_le
  have hcolumn : ∀ a < j, ∀ b < k, a ≤ b → dot j (fun l => s.factor l a) (fun l => 1 * s.factor l b) =
      P.form (z (s.order a)) (z (s.order b)) := by
    intro a ha b hb hab
    rw [← hM _ (hs.order_lt a (by omega)) _ (hs.order_lt b hb), ← hs.product a (by omega) b hb hab]
    simp only [one_mul]
    exact (dot_cut hj fun l hl _ => by rw [hs.upper l a (by omega), zero_mul]).symm
  have hexact : ReducedFactor.Exactly P j s.factor (fun _ => 1) fun i => z (s.order i) := by
    intro a ha b hb
    rcases le_total a b with hab | hba
    · exact hcolumn a ha b (by omega) hab
    · rw [Mat.form_comm hP, ← hcolumn b hb a (by omega) hba]
      exact dot_congr_mul fun l _ => by ring
  have hright : ∀ a < j, dot n (z (s.order a)) (z (s.order p)) = 0 := by
    intro a ha
    rw [hz _ (hs.order_lt a (by omega)) _ (hs.order_lt p hp), if_neg]
    intro h
    have := hs.order_inj a (by omega) p hp h
    omega
  have hunit : dot n (z (s.order p)) (z (s.order p)) = 1 := by
    rw [hz _ (hs.order_lt p hp) _ (hs.order_lt p hp), if_pos rfl]
  have hrest := hexact.le_rest hP hstrong hδ (w := fun l => s.factor l p) (fun i _ l hl => hs.upper i l hl)
    (fun i hi => (hs.pivot i (by omega)).ne') hright hunit fun a ha => hcolumn a ha p hp (by omega)
  unfold left
  rw [hM _ (hs.order_lt p hp) _ (hs.order_lt p hp)]
  simp only [one_mul] at hrest
  exact hrest

end Cholesky

namespace ReducedFactor

variable {P : Mat ℝ n n} {F G : ReducedFactor ℝ n} {rule : CurvatureRule ℝ} {δ : ℝ} {idx : Option ℤ}

theorem rank_pivots (h : Strong P rule δ) {basis : OrthogonalFactor ℝ n} {W : List (Vec ℝ n)} (hW : basis.Factors W) :
    (pivots rule P basis).rank = basis.nullity := by
  have hle : basis.nullity ≤ n := Nat.sub_le ..
  have hδ := h.pos
  have hM : ∀ i < basis.nullity, ∀ j < basis.nullity, Cholesky.symmetric (restriction P basis) i j =
      P.form (reversed basis.q i) (reversed basis.q j) := fun i hi j hj => symmetric_restriction h.symmetric hi hj
  have hleft : ∀ s, Cholesky.Leading (restriction P basis) s → ∀ j p, j ≤ s.rank → j ≤ p → p < basis.nullity →
      δ ≤ Cholesky.left (restriction P basis) s j p := fun s hs j p hj hjp hp =>
    hs.le_left h.symmetric h.above hδ.le hM (fun i hi j hj => hW.dot_reversed (by omega) (by omega)) hj hjp hp
  have hs := Cholesky.leading_full (restriction P basis)
  have hfull := Cholesky.full_rank (M := restriction P basis) fun s hs p hjp hp =>
    hδ.trans_le (hleft s hs _ p le_rfl hjp hp)
  change (Cholesky.full (restriction P basis)).cut rule.indefinite rule.flat = _
  rw [Cholesky.cut_eq_rank, hfull]
  intro i hi
  have hpivot := hleft _ hs i i hi.le le_rfl (by rwa [hfull] at hi)
  rw [hs.left_self hi] at hpivot
  exact ⟨lt_of_mul_self_lt_mul_self₀ (hs.pivot i hi).le (h.square_lt.trans_le hpivot), h.flat_lt.trans_le hpivot⟩

/-- The factorization is exact, all directions are factored and the last curvature is above the threshold. -/
structure Definite (P : Mat ℝ n n) (rule : CurvatureRule ℝ) (F : ReducedFactor ℝ n) : Prop where
  curved : Curved P rule.flat F
  artificial : F.artificial = 0
  last : F.size ≠ 0 → rule.indefinite < F.d (F.size - 1)

theorem definite_ofFactor (h : Strong P rule δ) {basis : OrthogonalFactor ℝ n} {W : List (Vec ℝ n)}
    (hW : basis.Factors W) : Definite P rule (ofFactor rule P basis) := by
  have hF : Shaped (ofFactor rule P basis) := shaped_ofFactor hW
  have hle := hF.le
  refine ⟨curved_ofFactor h.symmetric h.flat_nonneg, ?_, fun hsize => ?_⟩
  · change basis.nullity - (pivots rule P basis).rank = 0
    rw [rank_pivots h hW, Nat.sub_self]
  · rw [d_ofFactor (by omega)]
    exact h.indefinite_lt_one

theorem OffCorner.exactly (hoff : OffCorner P F) (hF : Opened F) (hsize : 0 < F.size) :
    Exactly P (F.size - 1) F.u (fun _ => 1) (reversed F.basis.q) := by
  intro a ha b hb
  simp only [one_mul]
  rw [← dot_cut (k := F.size) (by omega) fun l hl _ => by rw [hF.upper l a (by omega), zero_mul]]
  exact hoff a (by omega) b (by omega) (by omega)

theorem OffCorner.le_rest (hoff : OffCorner P F) (hF : Opened F) (hsize : 0 < F.size) (h : Strong P rule δ) :
    δ ≤ F.rest (F.curvature P (F.size - 1) (F.size - 1)) := by
  have hcount := hF.count
  obtain ⟨W, hW⟩ := hF.factors
  have hrest := (hoff.exactly hF hsize).le_rest h.symmetric h.above h.pos.le (e := reversed F.basis.q (F.size - 1))
    (w := fun l => F.u l (F.size - 1)) (fun i _ j hj => hF.upper i j hj)
    (fun i hi => (hF.diagonal i (by omega)).ne')
    (fun j hj => by rw [hW.dot_reversed (by omega) (by omega), if_neg (by omega)])
    (by rw [hW.dot_reversed (by omega) (by omega), if_pos rfl]) fun j hj => ?_
  · simp only [one_mul] at hrest
    exact hrest
  · simp only [one_mul]
    rw [← dot_cut (k := F.size) (by omega) fun l hl _ => by rw [hF.upper l j (by omega), zero_mul]]
    exact hoff j (by omega) (F.size - 1) (by omega) (by omega)

theorem Definite.add (hD : Definite P rule F) (hF : Shaped F) (h : Strong P rule δ) {a : Vec ℝ n}
    (hadd : (F.add rule P a).result = .ok ()) : Definite P rule (F.add rule P a).state := by
  rcases le_or_gt F.size 1 with hle | hlt
  · obtain ⟨hnone, hart⟩ := add_of_le_one hle hadd
    rw [hD.artificial] at hart
    exact ⟨⟨fun i hi => absurd hi (by omega), fun i hi => absurd hi (by omega)⟩, by omega, fun h0 => absurd hnone h0⟩
  · obtain ⟨G, hopen, hoff, hsize, hart, hs⟩ := hD.curved.add_eq_close hF h.symmetric hlt hadd
    have hcount := hopen.count
    have hrest := hoff.le_rest hopen hsize h
    have hpos := h.pos.trans_le hrest
    have hflat : rule.flat < |G.rest (G.curvature P (G.size - 1) (G.size - 1))| := by
      rw [abs_of_pos hpos]
      exact h.flat_lt.trans_le hrest
    rw [hs]
    refine ⟨hoff.close hopen hsize h.flat_nonneg fun _ => ?_, hart.trans hD.artificial, fun _ => ?_⟩
    · rw [abs_of_pos hpos]
      exact (h.square_lt.trans_le hrest).le
    · change rule.indefinite < (close rule G _).d (G.size - 1)
      rw [(close_of_curved hsize (by omega) hflat).2, sign_of_pos hpos]
      exact h.indefinite_lt_one

theorem Freed.exactly {flat : ℝ} (hG : Freed F G) (hC : Curved P flat F) (hd : ∀ i < F.size, 0 < F.d i) :
    Exactly P G.size G.u G.d (reversed G.basis.q) := by
  have hsize := hG.size
  intro a ha b hb
  rw [Mat.form_congr (hG.kept a (by omega)) (hG.kept b (by omega)), hG.size, hG.u, hG.d]
  exact hC.exactly (fun i hi => (hd i (by omega)).ne') a (by omega) b (by omega)

theorem Freed.le_rest {flat : ℝ} (hG : Freed F G) (hF : Shaped F) (hC : Curved P flat F) (hd : ∀ i < F.size, 0 < F.d i)
    (h : Strong P rule δ) {w : Vec ℝ G.size} (hw : newColumn P F G = .ok w) :
    δ ≤ G.curvature P G.size G.size - dot G.size w fun i => G.d i * w i := by
  have hcount := hG.count
  have hsize := hG.size
  obtain ⟨W, hW⟩ := hG.factors
  refine (hG.exactly hC hd).le_rest h.symmetric h.above h.pos.le (fun i _ j hj => ?_) (fun i hi => ?_)
    (fun j hj => by rw [hW.dot_reversed (by omega) (by omega), if_neg (by omega)])
    (by rw [hW.dot_reversed (by omega) (by omega), if_pos rfl])
    fun j hj => hG.newColumn_solves hF.signed (fun i hi => (hd i hi).ne') hw hj
  · rw [hG.u]
    exact hF.upper i j hj
  · rw [hG.u]
    exact hF.pivot_ne_zero i (by omega)

theorem Definite.remove (hD : Definite P rule F) (hF : Shaped F) (h : Strong P rule δ)
    (hremove : (F.remove rule P idx).result = .ok ()) : Definite P rule (F.remove rule P idx).state := by
  have hart := artificial_remove_le rule P F idx
  rw [hD.artificial] at hart
  refine ⟨hD.curved.remove hF h.symmetric h.indefinite_nonneg h.flat_nonneg hremove, by omega, fun _ => ?_⟩
  obtain ⟨G, hG, hd, w, hw, hs⟩ := hF.remove_eq_grown h.indefinite_nonneg hremove
  have hcount := hG.count
  have hrest := hG.le_rest hF hD.curved hd h hw
  rw [hs]
  change rule.indefinite < (grown rule G w _).d G.size
  rw [d_grown_last (by omega), if_neg]
  · exact h.indefinite_lt.trans_le hrest
  · rw [abs_of_pos (h.pos.trans_le hrest)]
    exact not_le.2 (h.flat_lt.trans_le hrest)

theorem Definite.positive (hD : Definite P rule F) (hF : Shaped F) (h : Strong P rule δ) : ∀ i < F.size, 0 < F.d i :=
  hF.positive_of_lt h.indefinite_nonneg hD.last

end ReducedFactor

namespace Solver

variable {p : Problem ℝ m n} {tol : Tolerances ℝ} {δ : ℝ}

theorem kept_definite (h : Strong p.P (tol.rule p.P) δ) : Kept p tol fun F => F.Definite p.P (tol.rule p.P) :=
  ⟨fun _ _ _ hF hD _ _ hadd => hD.add hF h hadd, fun _ _ hF hD hremove => hD.remove hF h hremove⟩

theorem definite_initialFactor {P : Mat ℝ n n} (h : Strong P (tol.rule P) δ) :
    (initialFactor tol P).state.Definite P (tol.rule P) := by
  have hD := ReducedFactor.definite_ofFactor h OrthogonalFactor.factors_empty
  rw [state_initialFactor tol P rfl, if_neg]
  · exact hD
  · rw [hD.artificial]
    exact fun h0 => lt_irrefl 0 h0.2

end Solver

end
end ActiveSet
