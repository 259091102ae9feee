import ActiveSet.Proofs.Hessenberg
import ActiveSet.Proofs.Pivots
import ActiveSet.Proofs.Replay
import ActiveSet.Tolerances

/-! The factored restriction stays a factorization. Through any additions and removals `U` is upper triangular
with a positive diagonal, `D` is positive but for its last entry, and `Uᵀ D U` is `P` in the free directions
taken in reverse. Only the last corner may be off, by a curvature that counts as flat. -/

namespace ActiveSet

noncomputable section
open Exact

variable {n : ℕ}

namespace ReducedFactor

/-- The counts agree, the working columns are factored, `U` is a regular triangle in its leading block, and
`D` is positive before its last entry. -/
structure Shaped (F : ReducedFactor ℝ n) : Prop where
  count : F.size + F.artificial + F.basis.size = n
  factors : ∃ W, F.basis.Factors W
  upper : ∀ i j, j < i → F.u i j = 0
  outside : ∀ i j, F.size ≤ j → F.u i j = 0
  diagonal : ∀ i < F.size, 0 < F.u i i
  positive : ∀ i, i + 1 < F.size → 0 < F.d i

def product (F : ReducedFactor ℝ n) (i j : ℕ) : ℝ := dot F.size (fun l => F.u l i) fun l => F.d l * F.u l j

def curvature (P : Mat ℝ n n) (F : ReducedFactor ℝ n) (i j : ℕ) : ℝ :=
  P.form (reversed F.basis.q i) (reversed F.basis.q j)

/-- `Uᵀ D U` is the restriction of `P`, except that the last corner may miss a flat curvature. -/
structure Curved (P : Mat ℝ n n) (flat : ℝ) (F : ReducedFactor ℝ n) : Prop where
  entries : ∀ i < F.size, ∀ j < F.size, ¬(i + 1 = F.size ∧ j + 1 = F.size) →
    F.product i j = F.curvature P i j
  corner : ∀ i, i + 1 = F.size → |F.product i i - F.curvature P i i| ≤ flat ∧
    (F.product i i ≠ F.curvature P i i → F.d i = 0)

variable {P : Mat ℝ n n} {F : ReducedFactor ℝ n} {rule : CurvatureRule ℝ} {a : Vec ℝ n}

theorem Shaped.le (hF : Shaped F) : F.size ≤ n := by
  have := hF.count
  omega

theorem Shaped.isUpper (hF : Shaped F) : Triangular.IsUpper F.size F.u := fun i _ j hj => hF.upper i j hj

theorem Shaped.pivot_ne_zero (hF : Shaped F) : ∀ i < F.size, F.u i i ≠ 0 := fun i hi => (hF.diagonal i hi).ne'

theorem Shaped.outside_block (hF : Shaped F) {i j : ℕ} (h : F.size ≤ i ∨ F.size ≤ j) : F.u i j = 0 := by
  rcases lt_or_ge j i with hji | hij
  · exact hF.upper i j hji
  · exact hF.outside i j (by omega)

theorem width_eq_size (hcount : F.size + F.artificial + F.basis.size = n) : F.width = F.size := by
  unfold width offset
  omega

theorem Shaped.width_eq (hF : Shaped F) : F.width = F.size := width_eq_size hF.count

theorem z_eq_reversed (hcount : F.size + F.artificial + F.basis.size = n) {j : ℕ} (hj : j < F.size) (i : ℕ) :
    F.z i (F.size - 1 - j) = reversed F.basis.q j i := by
  unfold z offset reversed
  congr 1
  omega

theorem Shaped.project_eq (hF : Shaped F) (g : Vec ℝ n) {j : ℕ} (hj : j < F.size) :
    F.project g j = dot n (reversed F.basis.q (F.size - 1 - j)) g := by
  refine dot_congr (fun i _ => ?_) fun _ _ => rfl
  rw [← z_eq_reversed hF.count (by omega), show F.size - 1 - (F.size - 1 - j) = j by omega]

theorem Shaped.positive_of_last (hF : Shaped F) (hlast : F.size ≠ 0 → 0 < F.d (F.size - 1)) :
    ∀ i < F.size, 0 < F.d i := by
  intro i hi
  rcases (by omega : i + 1 < F.size ∨ i = F.size - 1) with h | rfl
  · exact hF.positive i h
  · exact hlast (by omega)

/-- With the right last entry in place of that of `D` the corner is exact too. -/
theorem Curved.exists_exactly {flat : ℝ} (hC : Curved P flat F) (hF : Shaped F) :
    ∃ d : ℕ → ℝ, (∀ i, i + 1 < F.size → d i = F.d i) ∧ Exactly P F.size F.u d (reversed F.basis.q) := by
  set m := F.size
  set gap := (F.curvature P (m - 1) (m - 1) - F.product (m - 1) (m - 1)) / (F.u (m - 1) (m - 1) * F.u (m - 1) (m - 1))
  refine ⟨fun i => F.d i + if i = m - 1 then gap else 0, fun i hi => by simp [show i ≠ m - 1 by omega], ?_⟩
  intro i hi j hj
  have hsplit : dot m (fun k => F.u k i) (fun k => (F.d k + if k = m - 1 then gap else 0) * F.u k j) =
      F.product i j + F.u (m - 1) i * (gap * F.u (m - 1) j) := by
    have hadd : ∀ k < m, (F.d k + if k = m - 1 then gap else 0) * F.u k j =
        F.d k * F.u k j + if k = m - 1 then gap * F.u (m - 1) j else 0 := fun k _ => by
      split_ifs with h
      · rw [h]
        ring
      · ring
    rw [dot_congr (fun _ _ => rfl) hadd, dot_add_right]
    congr 1
    rw [dot_single (i := m - 1) (by omega) fun k _ hk => by rw [if_neg hk, mul_zero], if_pos rfl]
  rw [hsplit]
  by_cases hij : i + 1 = m ∧ j + 1 = m
  · obtain rfl : i = m - 1 := by omega
    obtain rfl : j = m - 1 := by omega
    have hne := hF.pivot_ne_zero (m - 1) hi
    change F.product (m - 1) (m - 1) + _ = F.curvature P (m - 1) (m - 1)
    simp only [gap]
    field_simp
    ring
  · rw [hC.entries i hi j hj hij]
    -- the last row of `U` only has its diagonal entry
    have hzero : F.u (m - 1) i * (gap * F.u (m - 1) j) = 0 := by
      rcases (by omega : i < m - 1 ∨ j < m - 1) with h | h
      · rw [hF.upper _ _ h, zero_mul]
      · rw [hF.upper _ _ h, mul_zero, mul_zero]
    rw [hzero, add_zero]
    rfl

def replayed (F : ReducedFactor ℝ n) (a : Vec ℝ n) : Mat ℝ n n × Vec ℝ n :=
  descend (F.basis.nullity - 1) (replayTurn F.basis.nullity F.size)
    (F.u, Vec.ofFn fun i => F.basis.q.applyT a (F.basis.size + i))

theorem replay_eq (F : ReducedFactor ℝ n) (a : Vec ℝ n) : F.replay a = (F.replayed a).1 := rfl

theorem Shaped.replaying_start (hF : Shaped F) (a : Vec ℝ n) : Replaying F (F.basis.nullity - 1)
    (F.basis.q, F.basis.q.applyT a) (F.u, Vec.ofFn fun i => F.basis.q.applyT a (F.basis.size + i)) := by
  have hbl : F.basis.nullity = n - F.basis.size := rfl
  refine ⟨fun i hi => Vec.get_ofFn_of_lt _ (by omega), fun k c h => hF.upper k c (by omega),
    fun k c _ h => hF.upper k c h, fun k c h => hF.outside_block h, fun x hx => ?_⟩
  exact Triangular.eq_zero_of_upper hF.isUpper hF.pivot_ne_zero hx

theorem Shaped.replaying (hF : Shaped F) (a : Vec ℝ n) :
    Replaying F 0 (F.basis.cascade a) (F.replayed a) := by
  have hcount := hF.count
  have hbl : F.basis.nullity = n - F.basis.size := rfl
  unfold OrthogonalFactor.cascade
  rw [show n - (F.basis.size + 1) = F.basis.nullity - 1 by omega]
  exact descend_related (p := Replaying F) _ (hF.replaying_start a) fun i s r hi h =>
    h.turn (by omega) (by omega)

theorem Shaped.matching (hF : Shaped F) {d : ℕ → ℝ} (hd : Exactly P F.size F.u d (reversed F.basis.q))
    (a : Vec ℝ n) : Matching P F d 0 (F.basis.cascade a) (F.replayed a) := by
  have hcount := hF.count
  have hbl : F.basis.nullity = n - F.basis.size := rfl
  unfold OrthogonalFactor.cascade
  rw [show n - (F.basis.size + 1) = F.basis.nullity - 1 by omega]
  refine descend_related (p := Matching P F d) _ ?_ fun i s r hi h => h.turn (by omega) (by omega)
  exact ⟨hF.replaying_start a, fun _ => hd, fun i hi j hj => hd i (by omega) j (by omega)⟩

/-- The factorization once a direction has been dropped: all but the corner of `U` is in place. -/
structure Opened (F : ReducedFactor ℝ n) : Prop where
  count : F.size + F.artificial + F.basis.size = n
  factors : ∃ W, F.basis.Factors W
  upper : ∀ i j, j < i → F.u i j = 0
  outside : ∀ i j, F.size ≤ j → F.u i j = 0
  diagonal : ∀ i, i + 1 < F.size → 0 < F.u i i

/-- `Uᵀ U` is the restriction of `P` but for the corner. -/
def OffCorner (P : Mat ℝ n n) (F : ReducedFactor ℝ n) : Prop :=
  ∀ i < F.size, ∀ j < F.size, ¬(i + 1 = F.size ∧ j + 1 = F.size) →
    dot F.size (fun l => F.u l i) (fun l => F.u l j) = F.curvature P i j

def dropped (F : ReducedFactor ℝ n) (basis : OrthogonalFactor ℝ n) (a : Vec ℝ n) : ReducedFactor ℝ n :=
  ({ F with basis, u := F.replay a } : ReducedFactor ℝ n).shrink.restore

theorem get_shrink (F : ReducedFactor ℝ n) (i j : ℕ) :
    F.shrink.u i j = if i = F.size - 1 ∨ j = F.size - 1 then 0 else F.u i j := by
  by_cases hin : i < n ∧ j < n
  · exact Mat.get_ofFn_of_lt _ hin.1 hin.2
  · rw [Mat.get_of_le _ (by omega), Mat.get_of_le _ (by omega), ite_self]

def scaled (F : ReducedFactor ℝ n) (a : Vec ℝ n) : Mat ℝ n n :=
  let u := ({ F with u := F.replay a } : ReducedFactor ℝ n).shrink.u
  Mat.ofFn fun i j => if i < F.size - 1 ∧ j < F.size - 1 then u i j * Scalar.sqrt (F.d i) else u i j

theorem u_dropped (F : ReducedFactor ℝ n) (basis : OrthogonalFactor ℝ n) (a : Vec ℝ n) :
    (F.dropped basis a).u = (F.scaled a).triangularizeIn (F.size - 1) (F.size - 1) := rfl

theorem Shaped.get_scaled (hF : Shaped F) (a : Vec ℝ n) (hsize : 0 < F.size) (i j : ℕ) :
    (F.scaled a) i j =
      if i < F.size - 1 ∧ j < F.size - 1 then F.replay a i j * Real.sqrt (F.d i) else 0 := by
  have hle := hF.le
  by_cases hin : i < n ∧ j < n
  · rw [scaled, Mat.get_ofFn_of_lt _ hin.1 hin.2, get_shrink]
    dsimp only
    by_cases h : i < F.size - 1 ∧ j < F.size - 1
    · rw [if_pos h, if_pos h, if_neg (by omega), sqrt_eq]
    · rw [if_neg h, if_neg h]
      split_ifs
      · rfl
      · exact (hF.replaying a).outside i j (by omega)
  · rw [Mat.get_of_le _ (by omega), if_neg (by omega)]

theorem Shaped.sweeping (hF : Shaped F) (a : Vec ℝ n) (hsize : 0 < F.size) (basis : OrthogonalFactor ℝ n) :
    Mat.Sweeping (F.size - 1) (F.size - 1) (F.scaled a) (F.size - 1 - 1) (F.dropped basis a).u := by
  have hle := hF.le
  rw [u_dropped]
  refine Mat.sweeping_triangularizeIn (by omega) le_rfl (by omega) fun i hi j hj hji => ?_
  rw [hF.get_scaled a hsize, if_pos ⟨hi, hj⟩, replay_eq, (hF.replaying a).hessenberg i j hji, zero_mul]

/-- The directions that stay stay independent. -/
theorem Shaped.scaled_regular (hF : Shaped F) (a : Vec ℝ n) (hsize : 0 < F.size) (x : ℕ → ℝ)
    (hx : ∀ l < F.size - 1, dot (F.size - 1 - 1) (F.scaled a l) x = 0) : ∀ j < F.size - 1 - 1, x j = 0 := by
  set q := F.size - 1 - 1
  have hcut : ∀ k, dot F.size (F.replay a k) (fun j => if j < q then x j else 0) = dot q (F.replay a k) x := by
    intro k
    rw [dot_cut (j := q) (by omega) fun j hj _ => by rw [if_neg (by omega), mul_zero]]
    exact dot_congr (fun _ _ => rfl) fun j hj => if_pos hj
  have hzero := (hF.replaying a).regular (fun j => if j < q then x j else 0) fun k hk => ?_
  · intro j hj
    have := hzero j (by omega)
    rwa [if_pos hj] at this
  · rw [← replay_eq, hcut k]
    rcases (by omega : k < F.size - 1 ∨ k = F.size - 1) with h | h
    · have hrow := hx k h
      have hroot : 0 < Real.sqrt (F.d k) := Real.sqrt_pos.2 (hF.positive k (by omega))
      have hscale : ∀ j < q, F.scaled a k j = Real.sqrt (F.d k) * F.replay a k j := fun j hj => by
        rw [hF.get_scaled a hsize, if_pos (by omega), mul_comm]
      rw [dot_congr hscale (fun _ _ => rfl), dot_comm, dot_mul_right, dot_comm] at hrow
      exact (mul_eq_zero.1 hrow).resolve_left hroot.ne'
    · exact dot_eq_zero fun j hj => by
        rw [replay_eq, (hF.replaying a).hessenberg k j (by omega), zero_mul]

theorem Shaped.opened (hF : Shaped F) {basis : OrthogonalFactor ℝ n} (hb : F.basis.append a = .ok basis)
    (hsize : 0 < F.size) : Opened (F.dropped basis a) := by
  have hcount := hF.count
  obtain ⟨W, hW⟩ := hF.factors
  have hsweep := hF.sweeping a hsize basis
  have hbasis : basis.size = F.basis.size + 1 := by
    obtain ⟨-, rfl⟩ := OrthogonalFactor.append_eq_ok hb
    rfl
  have hframe : ∀ i j, F.size - 1 ≤ i ∨ F.size - 1 ≤ j → (F.dropped basis a).u i j = 0 := by
    intro i j hij
    rw [hsweep.frame i j hij, hF.get_scaled a hsize, if_neg (by omega)]
  refine ⟨?_, ⟨_, hW.append hb⟩, fun i j hji => ?_, fun i j hj => hframe i j (Or.inr hj), fun i hi => ?_⟩
  · change F.size - 1 + F.artificial + basis.size = n
    omega
  · rcases lt_or_ge i (F.size - 1) with hi | hi
    · exact hsweep.isUpper i hi j hji
    · exact hframe i j (Or.inl hi)
  · have hi : i + 1 < F.size - 1 := hi
    have hne := hsweep.pivot_ne_zero (q := F.size - 1 - 1) (by omega) (by omega)
      (hF.scaled_regular a hsize) i (by omega)
    exact lt_of_le_of_ne (hsweep.nonneg i (by omega)) hne.symm

theorem Curved.offCorner {flat : ℝ} (hC : Curved P flat F) (hF : Shaped F) {basis : OrthogonalFactor ℝ n}
    (hb : F.basis.append a = .ok basis) (hsize : 0 < F.size) : OffCorner P (F.dropped basis a) := by
  obtain ⟨d, hd, hexact⟩ := hC.exists_exactly hF
  have hmatch := hF.matching hexact a
  obtain ⟨-, rfl⟩ := OrthogonalFactor.append_eq_ok hb
  intro i hi j hj hij
  have hi : i < F.size - 1 := hi
  have hj : j < F.size - 1 := hj
  have hij : ¬(i + 1 = F.size - 1 ∧ j + 1 = F.size - 1) := hij
  change dot (F.size - 1) _ _ = P.form (reversed (F.basis.cascade a).1 i) (reversed (F.basis.cascade a).1 j)
  rw [(hF.sweeping a hsize _).gram hi hj, ← hmatch.leading i hi j hj]
  -- the dropped row meets at most the last of the columns that stay
  have hlast : F.replay a (F.size - 1) i * F.replay a (F.size - 1) j = 0 := by
    rcases (by omega : i + 1 < F.size - 1 ∨ j + 1 < F.size - 1) with h | h
    · rw [replay_eq, hmatch.hessenberg _ i h, zero_mul]
    · rw [replay_eq, hmatch.hessenberg _ j h, mul_zero]
  obtain ⟨m, hm⟩ : ∃ m, F.size = m + 1 := ⟨F.size - 1, by omega⟩
  rw [hm] at hlast hi hj ⊢
  rw [Nat.add_sub_cancel] at hlast hi hj ⊢
  rw [dot_succ, ← replay_eq]
  have hzero : F.replay a m i * (d m * F.replay a m j) = 0 := by linear_combination d m * hlast
  rw [hzero, add_zero]
  refine dot_congr_mul fun k hk => ?_
  have hroot : Real.sqrt (F.d k) * Real.sqrt (F.d k) = F.d k :=
    Real.mul_self_sqrt (hF.positive k (by omega)).le
  rw [hF.get_scaled a hsize, hF.get_scaled a hsize, if_pos (by omega), if_pos (by omega), hd k (by omega)]
  linear_combination F.replay a k i * F.replay a k j * hroot

def lastSlope (P : Mat ℝ n n) (F : ReducedFactor ℝ n) : Vec ℝ n := P.apply (Vec.ofFn fun i => F.z i 0)

theorem z_first {j : ℕ} (hj : F.offset + j + 1 = n) (i : ℕ) : F.z i 0 = reversed F.basis.q j i := by
  unfold z reversed
  congr 1
  omega

theorem dot_lastSlope {j : ℕ} (hj : F.offset + j + 1 = n) (u : ℕ → ℝ) :
    dot n u (lastSlope P F) = P.form u (reversed F.basis.q j) := by
  refine dot_congr (fun _ _ => rfl) fun i hi => ?_
  rw [lastSlope, Mat.get_apply _ _ hi]
  exact dot_congr (fun _ _ => rfl) fun k hk => by rw [Vec.get_ofFn_of_lt _ hk, z_first hj]

theorem dot_lastDirection {j : ℕ} (hj : F.offset + j + 1 = n) :
    dot n (Vec.ofFn fun i => F.z i 0 : Vec ℝ n) (lastSlope P F) = F.curvature P j j := by
  rw [dot_lastSlope hj]
  exact Mat.form_congr (fun i hi => by rw [Vec.get_ofFn_of_lt _ hi, z_first hj]) fun _ _ => rfl

theorem Opened.width_eq (hF : Opened F) : F.width = F.size := width_eq_size hF.count

theorem Opened.offset_add (hF : Opened F) (hsize : 0 < F.size) : F.offset + (F.size - 1) + 1 = n := by
  have := hF.count
  unfold offset
  omega

def resolved (F : ReducedFactor ℝ n) (w : ℕ → ℝ) : Mat ℝ n n :=
  F.u.setCol (F.size - 1) fun i => if i < F.size - 1 then w i else F.u i (F.size - 1)

theorem resolve_eq_ok {slope : Vec ℝ n} {G : ReducedFactor ℝ n} (h : F.resolve slope = .ok G) :
    ∃ w, Triangular.solveT (F.size - 1) (F.width - 1) F.u (fun t => F.project slope (F.width - 1 - t)) = .ok w ∧
      G = { F with u := F.resolved w } := by
  obtain ⟨w, hw, rfl⟩ := map_eq_ok.1 h
  exact ⟨w, hw, rfl⟩

theorem get_resolved (hsize : F.size ≤ n) (w : ℕ → ℝ) (i j : ℕ) :
    (F.resolved w) i j = if j = F.size - 1 ∧ i < F.size - 1 then w i else F.u i j := by
  unfold resolved
  by_cases hin : i < n ∧ j < n
  · rw [Mat.get_setCol _ hin.1 hin.2]
    split_ifs with h1 h2 h3 h4
    · rfl
    · omega
    · omega
    · rw [h1]
    · omega
    · rfl
  · rw [Mat.get_of_le _ (by omega), Mat.get_of_le F.u (by omega), if_neg (by omega)]

theorem resolved_of_ne (hsize : F.size ≤ n) (w : ℕ → ℝ) (i : ℕ) {j : ℕ} (hj : j ≠ F.size - 1) :
    (F.resolved w) i j = F.u i j := by
  rw [get_resolved hsize, if_neg fun h => hj h.1]

theorem Opened.project_lastSlope (hF : Opened F) {i : ℕ} (hi : i < F.size) :
    F.project (lastSlope P F) (F.size - 1 - i) = F.curvature P i (F.size - 1) := by
  unfold project
  rw [dot_lastSlope (hF.offset_add (by omega))]
  exact Mat.form_congr (fun k _ => z_eq_reversed hF.count hi k) fun _ _ => rfl

theorem Opened.dot_resolved (hF : Opened F) (hsize : 0 < F.size) {w : Vec ℝ (F.size - 1)}
    (hw : Triangular.solveT (F.size - 1) (F.width - 1) F.u
      (fun t => F.project (lastSlope P F) (F.width - 1 - t)) = .ok w) {i : ℕ} (hi : i < F.size - 1) :
    dot F.size (fun l => (F.resolved w) l i) (fun l => (F.resolved w) l (F.size - 1)) =
      F.curvature P i (F.size - 1) := by
  have hcount := hF.count
  have hkept := fun l => resolved_of_ne (F := F) (by omega) w l hi.ne
  rw [hF.width_eq] at hw
  obtain ⟨⟨-, hne⟩, hw⟩ := Triangular.solveT_eq_ok.1 hw
  have hsolve := Triangular.forward_solves (b := fun t => F.project (lastSlope P F) (F.size - 1 - t))
    (fun k hk j hj => hF.upper k j hj) hne hi
  rw [← hF.project_lastSlope (by omega), ← hsolve, ← hw, dot_cut (j := F.size - 1) (by omega) fun l hl _ => by
    rw [hkept l, hF.upper l i (by omega), zero_mul]]
  exact dot_congr (fun l _ => hkept l) fun l hl => by rw [get_resolved (by omega), if_pos ⟨rfl, hl⟩]

theorem Opened.resolve (hF : Opened F) (hsize : 0 < F.size) {G : ReducedFactor ℝ n}
    (h : F.resolve (lastSlope P F) = .ok G) :
    Opened G ∧ G.size = F.size ∧ G.basis = F.basis ∧ (OffCorner P F → (P.Symmetric) →
      OffCorner P G) := by
  have hcount := hF.count
  have hle : F.size ≤ n := by omega
  obtain ⟨w, hw, rfl⟩ := resolve_eq_ok h
  have hkept := fun i j => resolved_of_ne (F := F) (j := j) hle w i
  refine ⟨⟨hcount, hF.factors, ?_, ?_, ?_⟩, rfl, rfl, ?_⟩
  · intro i j hji
    change (F.resolved w) i j = 0
    rw [get_resolved hle, if_neg (by omega)]
    exact hF.upper i j hji
  · intro i j hj
    have hj : F.size ≤ j := hj
    change (F.resolved w) i j = 0
    rw [hkept i j (by omega)]
    exact hF.outside i j hj
  · intro i hi
    have hi : i + 1 < F.size := hi
    change 0 < (F.resolved w) i i
    rw [hkept i i (by omega)]
    exact hF.diagonal i hi
  · intro hoff hP i hi j hj hij
    have hi : i < F.size := hi
    have hj : j < F.size := hj
    have hij : ¬(i + 1 = F.size ∧ j + 1 = F.size) := hij
    change dot F.size (fun l => (F.resolved w) l i) (fun l => (F.resolved w) l j) = F.curvature P i j
    rcases eq_or_ne j (F.size - 1) with rfl | hjne
    · exact hF.dot_resolved hsize hw (by omega)
    · rcases eq_or_ne i (F.size - 1) with rfl | hine
      · rw [dot_comm, hF.dot_resolved hsize hw (by omega)]
        exact Mat.form_comm hP _ _
      · rw [← hoff i hi j hj hij]
        exact dot_congr (fun l _ => hkept l i hine) fun l _ => hkept l j hjne

def rest (F : ReducedFactor ℝ n) (curvature : ℝ) : ℝ :=
  curvature - dot (F.size - 1) (fun i => F.u i (F.size - 1)) (fun i => F.u i (F.size - 1))

theorem get_close_of_ne (curvature : ℝ) {i j : ℕ} (h : ¬(i = F.size - 1 ∧ j = F.size - 1)) :
    (close rule F curvature).u i j = F.u i j := by
  by_cases hin : i < n ∧ j < n
  · change (F.u.set (F.size - 1) (F.size - 1) _) i j = _
    rw [Mat.get_set _ hin.1 hin.2, if_neg h]
  · rw [Mat.get_of_le _ (by omega), Mat.get_of_le F.u (by omega)]

theorem close_of_lt (curvature : ℝ) {i : ℕ} (hi : i < F.size - 1) (hle : F.size ≤ n) :
    (close rule F curvature).d i = 1 := by
  change (Vec.ofFn _ : Vec ℝ n) i = 1
  rw [Vec.get_ofFn_of_lt _ (by omega), if_pos hi]

theorem close_of_flat {curvature : ℝ} (hsize : 0 < F.size) (hle : F.size ≤ n)
    (h : |F.rest curvature| ≤ rule.flat) :
    (close rule F curvature).u (F.size - 1) (F.size - 1) = 1 ∧ (close rule F curvature).d (F.size - 1) = 0 := by
  have hdecide : decide (Scalar.abs (F.rest curvature) ≤ rule.flat) = true := by simpa using h
  constructor
  · change (F.u.set (F.size - 1) (F.size - 1)
      (if decide (Scalar.abs (F.rest curvature) ≤ rule.flat) then _ else _)) _ _ = 1
    rw [Mat.get_set _ (by omega) (by omega), if_pos ⟨rfl, rfl⟩, if_pos hdecide]
  · change (Vec.ofFn fun i => if i < F.size - 1 then _ else if i = F.size - 1 then
      (if decide (Scalar.abs (F.rest curvature) ≤ rule.flat) then _ else _) else _ : Vec ℝ n) _ = 0
    rw [Vec.get_ofFn_of_lt _ (by omega), if_neg (lt_irrefl _), if_pos rfl, if_pos hdecide]

theorem close_of_curved {curvature : ℝ} (hsize : 0 < F.size) (hle : F.size ≤ n)
    (h : rule.flat < |F.rest curvature|) :
    (close rule F curvature).u (F.size - 1) (F.size - 1) =
      max (Real.sqrt |F.rest curvature|) rule.indefinite ∧
    (close rule F curvature).d (F.size - 1) = Scalar.sign (F.rest curvature) := by
  have hdecide : ¬decide (Scalar.abs (F.rest curvature) ≤ rule.flat) = true := by simpa using h
  constructor
  · change (F.u.set (F.size - 1) (F.size - 1) (if decide (Scalar.abs (F.rest curvature) ≤ rule.flat) then _ else
      Scalar.larger (Scalar.sqrt (Scalar.abs (F.rest curvature))) rule.indefinite)) _ _ = _
    rw [Mat.get_set _ (by omega) (by omega), if_pos ⟨rfl, rfl⟩, if_neg hdecide, larger_eq, abs_eq, sqrt_eq]
  · change (Vec.ofFn fun i => if i < F.size - 1 then _ else if i = F.size - 1 then
      (if decide (Scalar.abs (F.rest curvature) ≤ rule.flat) then _ else _) else _ : Vec ℝ n) _ = _
    rw [Vec.get_ofFn_of_lt _ (by omega), if_neg (lt_irrefl _), if_pos rfl, if_neg hdecide]
    rfl

theorem Opened.close (hF : Opened F) (hsize : 0 < F.size) (hflat : 0 ≤ rule.flat) (curvature : ℝ) :
    Shaped (close rule F curvature) := by
  have hcount := hF.count
  refine ⟨hcount, hF.factors, fun i j hji => ?_, fun i j hj => ?_, fun i hi => ?_, fun i hi => ?_⟩
  · rw [get_close_of_ne _ (by omega)]
    exact hF.upper i j hji
  · have hj : F.size ≤ j := hj
    rw [get_close_of_ne _ (by omega)]
    exact hF.outside i j hj
  · have hi : i < F.size := hi
    rcases eq_or_ne i (F.size - 1) with rfl | hne
    · rcases le_or_gt |F.rest curvature| rule.flat with h | h
      · rw [(close_of_flat hsize (by omega) h).1]
        exact one_pos
      · rw [(close_of_curved hsize (by omega) h).1]
        exact lt_max_of_lt_left (Real.sqrt_pos.2 (lt_of_le_of_lt hflat h))
    · rw [get_close_of_ne _ (by omega)]
      exact hF.diagonal i (by omega)
  · have hi : i + 1 < F.size := hi
    rw [close_of_lt _ (by omega) (by omega)]
    exact one_pos

theorem abs_mul_sign (x : ℝ) : |x| * Scalar.sign x = x := by
  rcases lt_trichotomy x 0 with hneg | hzero | hpos
  · rw [sign_of_neg hneg, abs_of_neg hneg]
    ring
  · rw [hzero, abs_zero, zero_mul]
  · rw [sign_of_pos hpos, abs_of_pos hpos, mul_one]

theorem OffCorner.close (hoff : OffCorner P F) (hF : Opened F) (hsize : 0 < F.size) (hflat : 0 ≤ rule.flat)
    (hsq : rule.flat < |F.rest (F.curvature P (F.size - 1) (F.size - 1))| →
      rule.indefinite * rule.indefinite ≤ |F.rest (F.curvature P (F.size - 1) (F.size - 1))|) :
    Curved P rule.flat (close rule F (F.curvature P (F.size - 1) (F.size - 1))) := by
  have hcount := hF.count
  set c := F.curvature P (F.size - 1) (F.size - 1)
  obtain ⟨m, hm⟩ : ∃ m, F.size = m + 1 := ⟨F.size - 1, by omega⟩
  have hproduct : ∀ i j, (ReducedFactor.close rule F c).product i j =
      dot m (fun l => F.u l i) (fun l => F.u l j) + (ReducedFactor.close rule F c).u m i *
        ((ReducedFactor.close rule F c).d m * (ReducedFactor.close rule F c).u m j) := by
    intro i j
    change dot F.size _ _ = _
    rw [hm, dot_succ]
    congr 1
    refine dot_congr (fun l hl => get_close_of_ne _ (by omega)) fun l hl => ?_
    rw [close_of_lt _ (by omega) (by omega), one_mul, get_close_of_ne _ (by omega)]
  constructor
  · intro i hi j hj hij
    have hi : i < F.size := hi
    have hj : j < F.size := hj
    have hij : ¬(i + 1 = F.size ∧ j + 1 = F.size) := hij
    rw [hproduct]
    change _ = F.curvature P i j
    rw [← hoff i hi j hj hij, hm, dot_succ]
    congr 1
    -- row `m` of `U` only has its diagonal entry
    rcases (by omega : i < m ∨ j < m) with h | h
    · rw [get_close_of_ne _ (by omega), hF.upper m i h, zero_mul, zero_mul]
    · rw [get_close_of_ne (i := m) (j := j) _ (by omega), hF.upper m j h, mul_zero, mul_zero, mul_zero]
  · intro i hi
    obtain rfl : i = F.size - 1 := by
      have hi : i + 1 = F.size := hi
      omega
    rw [hproduct, ← Nat.add_sub_cancel m 1, ← hm]
    have hrest : dot (F.size - 1) (fun l => F.u l (F.size - 1)) (fun l => F.u l (F.size - 1)) = c - F.rest c := by
      unfold rest
      ring
    change |_ - c| ≤ rule.flat ∧ (_ ≠ c → _)
    rw [hrest]
    rcases le_or_gt |F.rest c| rule.flat with h | h
    · obtain ⟨-, hd⟩ := close_of_flat hsize (by omega) h
      rw [hd, zero_mul, mul_zero, add_zero, sub_sub_cancel_left, abs_neg]
      exact ⟨h, fun _ => rfl⟩
    · obtain ⟨hu, hd⟩ := close_of_curved hsize (by omega) h
      have hroot : rule.indefinite ≤ Real.sqrt |F.rest c| :=
        Real.le_sqrt_of_sq_le (by rw [sq]; exact hsq h)
      have hself := Real.mul_self_sqrt (abs_nonneg (F.rest c))
      have hexact : c - F.rest c + Real.sqrt |F.rest c| *
          (Scalar.sign (F.rest c) * Real.sqrt |F.rest c|) = c := by
        linear_combination Scalar.sign (F.rest c) * hself + abs_mul_sign (F.rest c)
      rw [hu, hd, max_eq_left hroot, hexact, sub_self, abs_zero]
      exact ⟨hflat, fun hne => absurd rfl hne⟩

theorem add_cases (h : (F.add rule P a).result = .ok ()) :
    ∃ basis, F.basis.append a = .ok basis ∧
      ((F.size = 0 ∧ (F.add rule P a).state = { F with basis, artificial := F.artificial - 1 }) ∨
        (F.size = 1 ∧ (F.add rule P a).state = ({ F with basis } : ReducedFactor ℝ n).shrink) ∨
        (1 < F.size ∧ ∃ G : ReducedFactor ℝ n,
          (G = F.dropped basis a ∨ (F.dropped basis a).resolve (lastSlope P (F.dropped basis a)) = .ok G) ∧
          (F.add rule P a).state = close rule G
            (dot n (Vec.ofFn fun i => (F.dropped basis a).z i 0 : Vec ℝ n) (lastSlope P (F.dropped basis a))))) := by
  revert h
  unfold add
  cases hb : F.basis.append a with
  | error cause => exact fun h => nomatch h
  | ok basis =>
    refine fun h => ⟨basis, rfl, ?_⟩
    dsimp only at h ⊢
    by_cases h0 : F.size = 0
    · rw [if_pos h0]
      exact Or.inl ⟨h0, rfl⟩
    · by_cases h1 : F.size = 1
      · rw [if_neg h0, if_pos h1]
        exact Or.inr (Or.inl ⟨h1, rfl⟩)
      · rw [if_neg h0, if_neg h1] at h ⊢
        refine Or.inr (Or.inr ⟨by omega, ?_⟩)
        by_cases hre : F.d (F.size - 1) ≤ rule.recompute ∧ 1 < (F.dropped basis a).size
        · cases hG : (F.dropped basis a).resolve (lastSlope P (F.dropped basis a)) with
          | error cause =>
            unfold dropped at hre
            unfold lastSlope dropped at hG
            rw [if_pos hre, hG] at h
            cases h
          | ok G =>
            refine ⟨G, Or.inr rfl, ?_⟩
            unfold dropped at hre
            unfold lastSlope dropped at hG
            rw [if_pos hre, hG]
            rfl
        · refine ⟨F.dropped basis a, Or.inl rfl, ?_⟩
          unfold dropped at hre
          rw [if_neg hre]
          rfl

theorem basis_add (h : (F.add rule P a).result = .ok ()) :
    F.basis.append a = .ok (F.add rule P a).state.basis := by
  obtain ⟨basis, hb, ⟨-, hs⟩ | ⟨-, hs⟩ | ⟨-, G, hG, hs⟩⟩ := add_cases h
  · rw [hs, hb]
  · rw [hs, hb]
    rfl
  · rw [hs, hb]
    rcases hG with rfl | hG
    · rfl
    · obtain ⟨w, -, rfl⟩ := resolve_eq_ok hG
      rfl

theorem Shaped.add (hF : Shaped F) (hflat : 0 ≤ rule.flat) (h : (F.add rule P a).result = .ok ()) :
    Shaped (F.add rule P a).state := by
  have hcount := hF.count
  obtain ⟨W, hW⟩ := hF.factors
  obtain ⟨basis, hb, ⟨h0, hs⟩ | ⟨h1, hs⟩ | ⟨h2, G, hG, hs⟩⟩ := add_cases h
  · rw [hs]
    refine ⟨?_, ⟨_, hW.append hb⟩, hF.upper, hF.outside, hF.diagonal, hF.positive⟩
    obtain ⟨hlt, rfl⟩ := OrthogonalFactor.append_eq_ok hb
    change F.size + (F.artificial - 1) + (F.basis.size + 1) = n
    omega
  · rw [hs]
    have hu : ∀ i j, ({ F with basis } : ReducedFactor ℝ n).shrink.u i j = 0 := by
      intro i j
      rw [get_shrink]
      split_ifs with hij
      · rfl
      · have hij : ¬(i = F.size - 1 ∨ j = F.size - 1) := hij
        exact hF.outside_block (by omega)
    have hsize : ({ F with basis } : ReducedFactor ℝ n).shrink.size = 0 := by
      change F.size - 1 = 0
      omega
    refine ⟨?_, ⟨_, hW.append hb⟩, fun i j _ => hu i j, fun i j _ => hu i j, fun i hi => ?_, fun i hi => ?_⟩
    · obtain ⟨hlt, rfl⟩ := OrthogonalFactor.append_eq_ok hb
      change F.size - 1 + F.artificial + (F.basis.size + 1) = n
      omega
    · omega
    · omega
  · rw [hs]
    have hopen := hF.opened hb (by omega)
    have hsize : 0 < (F.dropped basis a).size := by
      change 0 < F.size - 1
      omega
    rcases hG with rfl | hG
    · exact hopen.close hsize hflat _
    · obtain ⟨hopenG, hsizeG, -, -⟩ := hopen.resolve hsize hG
      exact hopenG.close (by omega) hflat _

theorem add_of_le_one (hle : F.size ≤ 1) (h : (F.add rule P a).result = .ok ()) :
    (F.add rule P a).state.size = 0 ∧ (F.add rule P a).state.artificial ≤ F.artificial := by
  obtain ⟨basis, -, ⟨h0, hs⟩ | ⟨h1, hs⟩ | ⟨h2, -⟩⟩ := add_cases h
  · rw [hs]
    exact ⟨h0, Nat.sub_le ..⟩
  · rw [hs]
    refine ⟨?_, le_rfl⟩
    change F.size - 1 = 0
    omega
  · omega

/-- Otherwise the corner is closed over a factorization of all but the corner. -/
theorem Curved.add_eq_close {flat : ℝ} (hC : Curved P flat F) (hF : Shaped F) (hP : P.Symmetric)
    (hsize : 1 < F.size) (h : (F.add rule P a).result = .ok ()) : ∃ G, Opened G ∧ OffCorner P G ∧ 0 < G.size ∧
      G.artificial = F.artificial ∧
      (F.add rule P a).state = close rule G (G.curvature P (G.size - 1) (G.size - 1)) := by
  obtain ⟨basis, hb, ⟨h0, -⟩ | ⟨h1, -⟩ | ⟨h2, G, hG, hs⟩⟩ := add_cases h
  · omega
  · omega
  · have hopen := hF.opened hb (by omega)
    have hpos : 0 < (F.dropped basis a).size := by
      change 0 < F.size - 1
      omega
    have hoff := hC.offCorner hF hb (by omega)
    rw [dot_lastDirection (hopen.offset_add hpos)] at hs
    rcases hG with rfl | hG
    · exact ⟨_, hopen, hoff, hpos, rfl, hs⟩
    · obtain ⟨hopenG, hsizeG, hbasis, hoffG⟩ := hopen.resolve hpos hG
      have hcount := hopen.count
      have hcountG := hopenG.count
      rw [hsizeG, hbasis] at hcountG
      have hart : (F.dropped basis a).artificial = F.artificial := rfl
      have hc : (F.dropped basis a).curvature P ((F.dropped basis a).size - 1) ((F.dropped basis a).size - 1) =
          G.curvature P (G.size - 1) (G.size - 1) := by
        unfold ReducedFactor.curvature
        rw [hsizeG, hbasis]
      rw [hc] at hs
      exact ⟨G, hopenG, hoffG hoff hP, by omega, by omega, hs⟩

theorem Curved.add (hC : Curved P rule.flat F) (hF : Shaped F) (hP : P.Symmetric)
    (hsq : rule.indefinite * rule.indefinite ≤ rule.flat) (h : (F.add rule P a).result = .ok ()) :
    Curved P rule.flat (F.add rule P a).state := by
  rcases le_or_gt F.size 1 with hle | hlt
  · obtain ⟨hnone, -⟩ := add_of_le_one hle h
    exact ⟨fun i hi => absurd hi (by omega), fun i hi => absurd hi (by omega)⟩
  · obtain ⟨G, hopen, hoff, hsize, -, hs⟩ := hC.add_eq_close hF hP hlt h
    rw [hs]
    exact hoff.close hopen hsize ((mul_self_nonneg _).trans hsq) fun hcurved => hsq.trans hcurved.le

end ReducedFactor

end
end ActiveSet
