import ActiveSet.Proofs.Columns
import ActiveSet.Proofs.Hessenberg
import Mathlib.Data.List.NodupEquivFin
import Mathlib.LinearAlgebra.LinearIndependent.Defs

/-! Working columns are independent exactly if their triangle has no zero pivot. Deleting a column keeps that, and
so does appending one that is not orthogonal to every free direction. -/

namespace ActiveSet

noncomputable section
open Exact

variable {n : ℕ}

def Vec.coords (v : Vec ℝ n) : Fin n → ℝ := fun i => v i

def Independent (W : List (Vec ℝ n)) : Prop := LinearIndependent ℝ fun j : Fin W.length => (W.get j).coords

variable {W : List (Vec ℝ n)}

theorem independent_iff : Independent W ↔ ∀ c : ℕ → ℝ,
    (∀ i < n, dot W.length c (fun j => W.getD j 0 i) = 0) → ∀ j < W.length, c j = 0 := by
  have hsum : ∀ (c : ℕ → ℝ) (i : Fin n), (∑ j : Fin W.length, c j • (W.get j).coords) i =
      dot W.length c fun j => W.getD j 0 i := by
    intro c i
    rw [Mat.dot_eq_sum_fin, Finset.sum_apply]
    exact Finset.sum_congr rfl fun j _ => by simp [Vec.coords]
  unfold Independent
  rw [Fintype.linearIndependent_iff]
  constructor
  · intro h c hc j hj
    refine h (fun j => c j) (funext fun i => ?_) ⟨j, hj⟩
    exact (hsum c i).trans (hc i i.isLt)
  · intro h g hg j
    set c : ℕ → ℝ := fun j => if hj : j < W.length then g ⟨j, hj⟩ else 0
    have hcg : ∀ j : Fin W.length, c j = g j := fun j => by simp [c]
    have hzero := h c (fun i hi => ?_) j j.isLt
    · rwa [hcg] at hzero
    · rw [← hsum c ⟨i, hi⟩, Finset.sum_congr rfl fun j _ => by rw [hcg j], hg]
      rfl

theorem Independent.eraseIdx (h : Independent W) (idx : ℕ) : Independent (W.eraseIdx idx) := by
  obtain ⟨f, hf⟩ := List.sublist_iff_exists_fin_orderEmbedding_get_eq.1 (List.eraseIdx_sublist W idx)
  have hcols : (fun j => ((W.eraseIdx idx).get j).coords) = (fun j => (W.get j).coords) ∘ f :=
    funext fun j => congrArg Vec.coords (hf j)
  unfold Independent
  rw [hcols]
  exact h.comp f f.injective

namespace OrthogonalFactor

variable {F F' : OrthogonalFactor ℝ n} {a : Vec ℝ n}

def Nonsingular (F : OrthogonalFactor ℝ n) : Prop := ∀ i < F.size, F.r i i ≠ 0

theorem nonsingular_of_size_eq_zero (h : F.size = 0) : F.Nonsingular := fun i hi => absurd hi (by omega)

theorem Factors.dot_columns (hF : Factors F W) (c : ℕ → ℝ) {i : ℕ} (hi : i < n) :
    dot W.length c (fun j => W.getD j 0 i) = dot n (F.q i) fun l => dot F.size (F.r l) c := by
  rw [dot_transpose, dot_comm, hF.size]
  refine dot_congr (fun j hj => ?_) fun _ _ => rfl
  have hj : W[j]? = some (W.getD j 0) := by
    rw [List.getD_eq_getElem?_getD, List.getElem?_eq_getElem hj, Option.getD_some]
  rw [← hF.product j _ hj i hi, dot_comm]

theorem Factors.independent_iff (hF : Factors F W) : Independent W ↔ F.Nonsingular := by
  have hle := hF.le
  have hupper : Triangular.IsUpper F.size F.r := fun i _ j hj => hF.upper i j hj
  rw [ActiveSet.independent_iff, ← hF.size]
  constructor
  · intro h
    by_contra hnot
    have hex : ∃ i, i < F.size ∧ F.r i i = 0 := by
      simpa [Nonsingular] using hnot
    classical
    obtain ⟨hi, hzero⟩ := Nat.find_spec hex
    -- the columns up to the first zero pivot are dependent
    obtain ⟨x, hx, -, hnull⟩ := Triangular.exists_null_of_pivot_eq_zero hupper hi hzero
      fun j hj h0 => Nat.find_min hex hj ⟨by omega, h0⟩
    have hone := h x (fun i hin => ?_) _ hi
    · rw [hx] at hone
      exact one_ne_zero hone
    · rw [hF.size, hF.dot_columns x hin]
      refine dot_eq_zero fun l _ => ?_
      rcases lt_or_ge l F.size with hl | hl
      · rw [hnull l hl, mul_zero]
      · rw [dot_eq_zero fun j hj => by rw [hF.upper l j (by omega), zero_mul], mul_zero]
  · intro h c hc
    refine Triangular.eq_zero_of_upper hupper h fun i hi => ?_
    refine hF.orthogonal.eq_zero_of_map (u := fun l => dot F.size (F.r l) c) (fun l hl => ?_) i (by omega)
    rw [← hF.dot_columns c hl, ← hF.size]
    exact hc l hl

theorem Nonsingular.remove (hN : F.Nonsingular) (hF : Factors F W) {idx : ℤ}
    (h : (F.remove idx).result = .ok ()) : (F.remove idx).state.Nonsingular :=
  (hF.remove h).independent_iff.1 ((hF.independent_iff.2 hN).eraseIdx _)

/-- If the new pivot vanishes the new column is a combination of the working columns of `Q`. -/
theorem Factors.dot_free_of_pivot_eq_zero (hF : Factors F W) (hlt : F.size < n)
    (h0 : (F.cascade a).2 F.size = 0) {t : ℕ} (ht : F.size ≤ t) (htn : t < n) :
    dot n (fun i => F.q i t) a = 0 := by
  have hs := cascading_cascade hF.orthogonal hlt a
  have ha : ∀ i < n, a i = dot F.size (F.q i) (F.cascade a).2 := by
    intro i hi
    rw [← hs.image i hi, dot_cut (j := F.size) hlt.le fun l hl _ => ?_]
    · exact dot_congr (fun l hl => hs.kept i hi l hl) fun _ _ => rfl
    · rcases eq_or_lt_of_le hl with rfl | hl
      · rw [h0, mul_zero]
      · rw [hs.cleared l (by omega), mul_zero]
  rw [dot_congr (fun _ _ => rfl) ha, dot_transpose]
  refine dot_eq_zero fun j hj => ?_
  rw [hF.orthogonal j (by omega) t htn, if_neg (by omega), zero_mul]

theorem Nonsingular.append (hN : F.Nonsingular) (hF : Factors F W) (h : F.append a = .ok F') {t : ℕ}
    (ht : F.size ≤ t) (htn : t < n) (ha : dot n (fun i => F.q i t) a ≠ 0) : F'.Nonsingular := by
  obtain ⟨hlt, rfl⟩ := append_eq_ok h
  intro i hi
  have hi : i < F.size + 1 := hi
  change (F.r.setCol F.size _) i i ≠ 0
  rw [Mat.get_setCol _ (by omega) (by omega)]
  split_ifs with hlast hle
  · intro h0
    rw [hlast] at h0
    exact ha (hF.dot_free_of_pivot_eq_zero hlt h0 ht htn)
  · omega
  · exact hN i (by omega)

/-- The working columns of `Q` are combinations of the columns that are factored. -/
theorem Factors.exists_combination (hF : Factors F W) (hN : F.Nonsingular) {t : ℕ} (ht : t < F.size) :
    ∃ c : ℕ → ℝ, ∀ i < n, F.q i t = dot W.length c fun j => W.getD j 0 i := by
  have hle := hF.le
  have hupper : Triangular.IsUpper F.size F.r := fun i _ j hj => hF.upper i j hj
  set unit : ℕ → ℝ := fun l => if l = t then 1 else 0
  set c : Vec ℝ F.size := Triangular.backward F.size F.r unit
  have hsolve : ∀ l < n, dot F.size (F.r l) c = unit l := by
    intro l _
    rcases lt_or_ge l F.size with hl | hl
    · exact Triangular.backward_solves hupper hN hl
    · rw [dot_eq_zero fun j hj => by rw [hF.upper l j (by omega), zero_mul]]
      exact (if_neg (by omega)).symm
  refine ⟨c, fun i hi => ?_⟩
  rw [hF.dot_columns c hi, dot_congr (fun _ _ => rfl) hsolve, dot_single (i := t) (by omega)]
  · simp [unit]
  · intro l _ hl
    simp [unit, hl]

theorem Factors.dot_of_null (hF : Factors F W) (hN : F.Nonsingular) {v : ℕ → ℝ} (hv : ∀ a ∈ W, dot n a v = 0) {t : ℕ}
    (ht : t < F.size) : dot n (fun i => F.q i t) v = 0 := by
  obtain ⟨c, hc⟩ := hF.exists_combination hN ht
  have hcomm : ∀ i < n, F.q i t = dot W.length (fun j => W.getD j 0 i) c := fun i hi => by
    rw [hc i hi, dot_comm]
  rw [dot_congr hcomm fun _ _ => rfl, dot_comm, dot_transpose]
  refine dot_eq_zero fun j hj => ?_
  have hmem : W.getD j 0 ∈ W := by
    rw [List.getD_eq_getElem?_getD, List.getElem?_eq_getElem hj, Option.getD_some]
    exact List.getElem_mem hj
  rw [hv _ hmem, zero_mul]

def free (F : OrthogonalFactor ℝ n) (t i : ℕ) : ℝ := F.q i (F.size + t)

theorem Factors.split (hF : Factors F W) (u v : ℕ → ℝ) : dot n u v = dot F.size u v +
    dot F.nullity (fun t => u (F.size + t)) fun t => v (F.size + t) := by
  rw [← dot_add, nullity, Nat.add_sub_cancel' hF.le]

/-- What is orthogonal to the working columns of `Q` is a combination of the free ones. -/
theorem Factors.eq_free_of_working (hF : Factors F W) {v : ℕ → ℝ} (hv : ∀ t < F.size, dot n (fun i => F.q i t) v = 0)
    {i : ℕ} (hi : i < n) : v i = dot F.nullity (fun t => F.free t i) fun t => dot n (F.free t) v := by
  -- `v` taken apart along the columns of `Q`, of which the working ones contribute nothing
  rw [← hF.orthogonal.dot_rows v hi, hF.split, dot_eq_zero fun t ht => by rw [hv t ht, mul_zero], zero_add]
  rfl

/-- What is orthogonal to the columns is a combination of the free directions. -/
theorem Factors.eq_free (hF : Factors F W) (hN : F.Nonsingular) {v : ℕ → ℝ} (hv : ∀ a ∈ W, dot n a v = 0) {i : ℕ}
    (hi : i < n) : v i = dot F.nullity (fun t => F.free t i) fun t => dot n (F.free t) v :=
  hF.eq_free_of_working (fun _ ht => hF.dot_of_null hN hv ht) hi

end OrthogonalFactor

end
end ActiveSet
