import ActiveSet.Proofs.Feasible

/-! The direction of the last curvature. It is not zero and it does not rise, and `P` along it is the last entry of
`D`; where that entry is zero `P` may still have a curvature that counts as flat. -/

namespace ActiveSet

noncomputable section
open Exact

variable {m n : ℕ}

namespace ReducedFactor

variable {P : Mat ℝ n n} {F : ReducedFactor ℝ n} {rule : CurvatureRule ℝ}

theorem Exactly.form_row {k : ℕ} {U : ℕ → ℕ → ℝ} {d : ℕ → ℝ} {z : ℕ → ℕ → ℝ} (h : Exactly P k U d z) (w : ℕ → ℝ)
    {a : ℕ} (ha : a < k) : P.form (z a) (fun i => dot k (fun j => z j i) w) =
      dot k (fun l => U l a) fun l => d l * dot k (U l) w := by
  rw [Mat.form_dot_right, dot_congr (fun b hb => (h a ha b hb).symm) fun _ _ => rfl,
    dot_congr (fun b _ => dot_comm k (fun l => U l a) fun l => d l * U l b) fun _ _ => rfl, ← dot_transpose]
  refine dot_congr (fun _ _ => rfl) fun l _ => ?_
  rw [dot_comm, dot_mul_right, dot_comm]

theorem Exactly.form_combination {k : ℕ} {U : ℕ → ℕ → ℝ} {d : ℕ → ℝ} {z : ℕ → ℕ → ℝ} (h : Exactly P k U d z)
    (w : ℕ → ℝ) : P.form (fun i => dot k (fun j => z j i) w) (fun i => dot k (fun j => z j i) w) =
      dot k (fun l => dot k (U l) w) fun l => d l * dot k (U l) w := by
  rw [Mat.form_dot_left, dot_congr (fun a ha => h.form_row w ha) fun _ _ => rfl, dot_comm, dot_transpose]

theorem Shaped.get_expand (hF : Shaped F) (w : ℕ → ℝ) {i : ℕ} (hi : i < n) :
    F.expand w i = dot F.size (fun j => reversed F.basis.q j i) w := by
  unfold expand
  rw [Vec.get_ofFn_of_lt _ hi, hF.width_eq, sum_eq, dot_eq,
    ← Finset.sum_range_reflect (fun j => reversed F.basis.q j i * w j)]
  refine Finset.sum_congr rfl fun j hj => ?_
  have hj : j < F.size := Finset.mem_range.1 hj
  rw [← z_eq_reversed hF.count (j := F.size - 1 - j) (by omega), show F.size - 1 - (F.size - 1 - j) = j by omega]

theorem Shaped.dot_reversed_expand (hF : Shaped F) (w : ℕ → ℝ) {j : ℕ} (hj : j < F.size) :
    dot n (reversed F.basis.q j) (F.expand w) = w j := by
  have hle := hF.le
  obtain ⟨W, hW⟩ := hF.factors
  rw [dot_congr (fun _ _ => rfl) fun i hi => hF.get_expand w hi, dot_transpose, dot_single hj]
  · change dot n (fun i => F.basis.q i (n - 1 - j)) (fun i => F.basis.q i (n - 1 - j)) * w j = w j
    rw [hW.orthogonal _ (by omega) _ (by omega), if_pos rfl, one_mul]
  · intro l hl hlj
    change dot n (fun i => F.basis.q i (n - 1 - l)) (fun i => F.basis.q i (n - 1 - j)) * w l = 0
    rw [hW.orthogonal _ (by omega) _ (by omega), if_neg (by omega), zero_mul]

def UnitCorner (F : ReducedFactor ℝ n) : Prop := ∀ i, i + 1 = F.size → F.d i = 0 → F.u i i = 1

theorem unitCorner_of_size_eq_zero (h : F.size = 0) : UnitCorner F := fun i hi => absurd hi (by omega)

theorem unitCorner_ofFactor {W : List (Vec ℝ n)} {basis : OrthogonalFactor ℝ n} (hW : basis.Factors W) :
    UnitCorner (ofFactor rule P basis) := by
  intro i hi h0
  have hle : (ofFactor rule P basis).size ≤ n := (shaped_ofFactor hW).le
  rw [d_ofFactor (by omega)] at h0
  exact absurd h0 one_ne_zero

theorem Opened.unitCorner_close (hF : Opened F) (hsize : 0 < F.size) (hflat : 0 ≤ rule.flat) (c : ℝ) :
    UnitCorner (ReducedFactor.close rule F c) := by
  have hcount := hF.count
  intro i hi h0
  obtain rfl : i = F.size - 1 := by
    have hi : i + 1 = F.size := hi
    omega
  rcases le_or_gt |F.rest c| rule.flat with h | h
  · exact (close_of_flat hsize (by omega) h).1
  · -- a curvature that is not flat has a sign
    rw [(close_of_curved hsize (by omega) h).2] at h0
    have hzero := abs_mul_sign (F.rest c)
    rw [h0, mul_zero] at hzero
    rw [← hzero, abs_zero] at h
    exact absurd h (not_lt.2 hflat)

theorem Shaped.unitCorner_add (hF : Shaped F) (hflat : 0 ≤ rule.flat) {a : Vec ℝ n}
    (h : (F.add rule P a).result = .ok ()) : UnitCorner (F.add rule P a).state := by
  obtain ⟨basis, hb, ⟨h0, hs⟩ | ⟨h1, hs⟩ | ⟨h2, G, hG, hs⟩⟩ := add_cases h
  · rw [hs]
    exact unitCorner_of_size_eq_zero h0
  · rw [hs]
    refine unitCorner_of_size_eq_zero ?_
    change F.size - 1 = 0
    omega
  · rw [hs]
    have hopen := hF.opened hb (by omega)
    have hsize : 0 < (F.dropped basis a).size := by
      change 0 < F.size - 1
      omega
    rcases hG with rfl | hG
    · exact hopen.unitCorner_close hsize hflat _
    · obtain ⟨hopenG, hsizeG, -, -⟩ := hopen.resolve hsize hG
      exact hopenG.unitCorner_close (by omega) hflat _

theorem Shaped.unitCorner_remove (hF : Shaped F) (hind : 0 ≤ rule.indefinite) {idx : Option ℤ}
    (h : (F.remove rule P idx).result = .ok ()) : UnitCorner (F.remove rule P idx).state := by
  obtain ⟨G, hG, -, w, -, hs⟩ := hF.remove_eq_grown hind h
  have hcount := hG.count
  rw [hs]
  intro i hi _
  obtain rfl : i = G.size := Nat.succ.inj hi
  rw [get_grown (by omega) (by omega), if_pos rfl, if_neg (lt_irrefl _), if_pos rfl]

/-- `P` along the direction that `U` takes to the last unit vector. -/
theorem Curved.form_expand {flat : ℝ} (hC : Curved P flat F) (hF : Shaped F) (hunit : UnitCorner F)
    (hsize : 0 < F.size) {w : ℕ → ℝ}
    (hw : ∀ l < F.size, dot F.size (F.u l) w = if l = F.size - 1 then 1 else 0) :
    (F.d (F.size - 1) ≠ 0 → P.form (F.expand w) (F.expand w) = F.d (F.size - 1)) ∧
      (F.d (F.size - 1) = 0 → |P.form (F.expand w) (F.expand w)| ≤ flat) := by
  obtain ⟨k, hk⟩ : ∃ k, F.size = k + 1 := ⟨F.size - 1, by omega⟩
  have hlast : F.size - 1 = k := by omega
  obtain ⟨d, hd, hexact⟩ := hC.exists_exactly hF
  have hform : P.form (F.expand w) (F.expand w) = d k := by
    rw [Mat.form_congr (fun i hi => hF.get_expand w hi) fun i hi => hF.get_expand w hi, hexact.form_combination w,
      dot_congr hw fun l hl => by rw [hw l hl], hlast, dot_single (i := k) (by omega) fun l _ hl => by simp [hl]]
    simp
  -- the exact last entry differs from that of `D` by what the corner misses
  have hcorner : F.u k k * ((d k - F.d k) * F.u k k) = F.curvature P k k - F.product k k := by
    have hexact : dot F.size (fun l => F.u l k) (fun l => d l * F.u l k) = F.curvature P k k :=
      hexact k (by omega) k (by omega)
    have hsame : dot k (fun l => F.u l k) (fun l => d l * F.u l k) =
        dot k (fun l => F.u l k) fun l => F.d l * F.u l k :=
      dot_congr (fun _ _ => rfl) fun l hl => by rw [hd l (by omega)]
    rw [← hexact, product, hk, dot_succ, dot_succ, hsame]
    ring
  obtain ⟨hflat, hzero⟩ := hC.corner k hk.symm
  rw [hlast, hform]
  refine ⟨fun hne => ?_, fun h0 => ?_⟩
  · have heq : F.product k k = F.curvature P k k := by_contra fun h => hne (hzero h)
    have hpivot := hF.pivot_ne_zero k (by omega)
    rw [heq, sub_self] at hcorner
    have hdiff : d k - F.d k = 0 := by simpa [hpivot] using hcorner
    linarith
  · rw [hunit k hk.symm h0, h0] at hcorner
    rw [← abs_sub_comm] at hflat
    have hd : d k = F.curvature P k k - F.product k k := by linarith
    rwa [hd]

end ReducedFactor

namespace Solver

variable {p : Problem ℝ m n} {tol : Tolerances ℝ} {s : Solver ℝ m n} {F : ReducedFactor ℝ n} {d g : Vec ℝ n}

/-- What a ray says of the factorization it comes from. -/
structure Descends (P : Mat ℝ n n) (flat : ℝ) (F : ReducedFactor ℝ n) (g d : Vec ℝ n) : Prop where
  nonzero : ∃ i < n, d i ≠ 0
  slope : dot n d g ≤ 0
  curved : F.d (F.size - 1) ≠ 0 → F.Curved P flat → F.UnitCorner → P.form d d = F.d (F.size - 1)
  isFlat : F.d (F.size - 1) = 0 → F.Curved P flat → F.UnitCorner → |P.form d d| ≤ flat

theorem descends_rayDirection (P : Mat ℝ n n) (flat : ℝ) (hF : F.Shaped) (hsize : 0 < F.size)
    (h : rayDirection F g = .ok d) : Descends P flat F g d := by
  obtain ⟨c, w, hc, hd, hw, hslope⟩ := rayDirection_eq_ok h
  obtain ⟨⟨-, hne⟩, hback⟩ := Triangular.solve_eq_ok.1 hw
  have hsolve : ∀ l < F.size, dot F.size (F.u l) w = if l = F.size - 1 then 1 else 0 := fun l hl => by
    rw [hback]
    exact Triangular.backward_solves hF.isUpper hne hl
  have hform : P.form d d = P.form (F.expand w) (F.expand w) := by
    have hd' : ∀ i < n, d i = c * F.expand w i + 0 * F.expand w i := fun i hi => by
      rw [hd i hi]
      ring
    rw [Mat.form_congr hd' hd', Mat.form_comb_left, Mat.form_comb_right]
    linear_combination P.form (F.expand w) (F.expand w) * hc
  refine ⟨?_, hslope, fun hne hC hunit => ?_, fun h0 hC hunit => ?_⟩
  · by_contra hall
    push Not at hall
    -- the last coefficient of a ray is not zero
    have hlast := hsolve (F.size - 1) (by omega)
    have hw0 : w (F.size - 1) = 0 := by
      rw [← hF.dot_reversed_expand w (by omega : F.size - 1 < F.size)]
      refine dot_eq_zero fun i hi => ?_
      have hzero := hd i hi
      rw [hall i hi] at hzero
      have hexpand : F.expand w i = 0 := by linear_combination -c * hzero - F.expand w i * hc
      rw [hexpand, mul_zero]
    rw [Triangular.dot_upper_row hF.isUpper _ (by omega), hw0, mul_zero, zero_add,
      show F.size - (F.size - 1 + 1) = 0 by omega, if_pos rfl] at hlast
    exact zero_ne_one hlast
  · rw [hform]
    exact (hC.form_expand hF hunit hsize hsolve).1 hne
  · rw [hform]
    exact (hC.form_expand hF hunit hsize hsolve).2 h0

/-- A ray that nothing stops leaves the working rows alone and approaches no other by more than the threshold. -/
theorem Lockstep.rate_le (hs : Lockstep p tol s) (ht : tol.Accepted) (hd : Spanned s.factor d)
    (hfree : ∀ v, some v ∉ s.ratios d) {row : ℕ} (hrow : row < m) : dot n (p.A row) d ≤ tol.blocking := by
  rcases (hs.mem_iff row).2 hrow with hw | hi
  · rw [hs.dot_spanned hd hw]
    exact ht.blocking
  · obtain ⟨j, hj⟩ := List.getElem?_of_mem hi
    have hratio := hs.getElem?_ratios (d := d) hj
    by_contra hfast
    rw [if_pos (not_le.1 hfast)] at hratio
    exact hfree _ (List.mem_of_getElem? hratio)

/-- A step without an end is one along a ray that no row limits. -/
theorem step_endless {step : Step ℝ n} (h : s.step = .ok step) (hlen : step.length = none) :
    s.convex = false ∧ rayDirection s.factor s.gradient = .ok step.direction ∧
      ∀ v, some v ∉ s.ratios step.direction := by
  rcases step_eq_ok h with rfl | ⟨along, d, -, hstep⟩ | ⟨hconvex, d, hd, hstep⟩
  · cases hlen
  · obtain ⟨radius, -, rfl⟩ := map_eq_ok.1 hstep
    exfalso
    revert hlen
    cases (tightest (s.ratios d)).map Prod.fst <;> cases radius <;> simp [shorter]
  · obtain ⟨rfl, hlimit, -, -⟩ := bounded_eq_ok hstep
    refine ⟨hconvex, hd, fun v hv => ?_⟩
    obtain ⟨t, ht, -⟩ := hlimit v hv
    rw [hlen] at ht
    cases ht

end Solver

end
end ActiveSet
