import ActiveSet.Proofs.Independence
import ActiveSet.Proofs.Replay
import ActiveSet.ReducedHessian

/-! The plain restriction stays the restriction. A reflection turns the free directions and the matrix alike, and a
direction that comes back is taken from `P` anew, so whatever columns come and go entry `(i, j)` is `zᵢᵀ P zⱼ`. None of
this needs the columns of `Q` to be orthogonal, and a change that is refused moves nothing. -/

namespace ActiveSet

noncomputable section
open Exact

variable {n : ℕ}

namespace ReducedHessian

/-- The matrix is `P` in the columns of `Q` past the working ones, orthogonal or not. -/
structure Projects (P : Mat ℝ n n) (H : ReducedHessian ℝ n) : Prop where
  le : H.basis.size ≤ n
  entries : ∀ i < H.size, ∀ j < H.size, H.get i j = P.form (H.basis.free i) (H.basis.free j)

/-- The working columns are `W`, and the matrix is `P` in the directions that they leave. -/
structure Restricts (P : Mat ℝ n n) (H : ReducedHessian ℝ n) (W : List (Vec ℝ n)) : Prop extends Projects P H where
  factors : H.basis.Factors W

variable {P : Mat ℝ n n} {H G : ReducedHessian ℝ n} {W : List (Vec ℝ n)} {a : Vec ℝ n}

theorem product_eq (P Q : Mat ℝ n n) (i j : ℕ) : product P Q i j = P.form (fun k => Q k i) fun k => Q k j := by
  unfold product Mat.form
  rw [dot_transpose]
  refine dot_congr (fun k hk => ?_) fun _ _ => rfl
  rw [Mat.get_applyT _ _ hk]
  exact dot_congr (fun _ _ => rfl) fun l _ => Mat.get_col ..

theorem projects_ofFactor (hP : P.Symmetric) {basis : OrthogonalFactor ℝ n}
    (hle : basis.size ≤ n) : Projects P (ofFactor P basis) := by
  refine ⟨hle, fun i hi j hj => ?_⟩
  have hi : i < n - basis.size := hi
  have hj : j < n - basis.size := hj
  change (Mat.ofFn _ : Mat ℝ n n) (basis.size + i) (basis.size + j) = P.form (basis.free i) (basis.free j)
  rw [Mat.get_ofFn_of_lt _ (by omega) (by omega), if_pos ⟨Nat.le_add_right .., Nat.le_add_right ..⟩, product_eq,
    product_eq, Mat.form_comm hP (fun k => basis.q k (basis.size + j))]
  change 0.5 * (P.form (basis.free i) (basis.free j) + P.form (basis.free i) (basis.free j)) = _
  norm_num
  ring

theorem restricts_ofFactor (hP : P.Symmetric) {basis : OrthogonalFactor ℝ n}
    (hW : basis.Factors W) : Restricts P (ofFactor P basis) W :=
  ⟨projects_ofFactor hP hW.le, hW⟩

/-- A reflector that leaves the first `lo` coordinates alone turns the columns from `lo` on among themselves. -/
theorem get_applyRight_free {h : Reflector ℝ n} {lo : ℕ} (habove : ∀ i < lo, h.v i = 0) (Q : Mat ℝ n n) {i t : ℕ}
    (hi : i < n) (ht : lo + t < n) : (h.applyRight Q) i (lo + t) =
      dot (n - lo) (fun s => Q i (lo + s)) fun s => h.entry (lo + s) (lo + t) := by
  have hsplit : dot n h.v (Q i) = dot (n - lo) (fun s => Q i (lo + s)) fun s => h.v (lo + s) := by
    have hn : dot n h.v (Q i) = dot (lo + (n - lo)) h.v (Q i) := by rw [Nat.add_sub_cancel' (by omega)]
    rw [hn, dot_add, dot_eq_zero fun s hs => by rw [habove s hs, zero_mul], zero_add, dot_comm]
  have hentry : ∀ s < n - lo, h.entry (lo + s) (lo + t) =
      (if s = t then 1 else 0) - h.tau * h.v (lo + t) * h.v (lo + s) := by
    intro s _
    unfold Reflector.entry
    simp only [Nat.add_left_cancel_iff]
    ring
  rw [Reflector.get_applyRight h Q hi ht, hsplit, dot_congr (fun _ _ => rfl) hentry, dot_sub_right, dot_mul_right,
    dot_unit (by omega)]
  ring

/-- `Hᵀ M H` is the form in the reflected directions if `M` is that in the directions themselves. -/
theorem get_reflect {h : Reflector ℝ n} {lo : ℕ} (habove : ∀ i < lo, h.v i = 0) {M Q : Mat ℝ n n}
    (hM : ∀ s < n - lo, ∀ t < n - lo, M (lo + s) (lo + t) = P.form (fun k => Q k (lo + s)) fun k => Q k (lo + t))
    {s t : ℕ} (hs : lo + s < n) (ht : lo + t < n) : (reflect lo h M) (lo + s) (lo + t) =
      P.form (fun k => (h.applyRight Q) k (lo + s)) fun k => (h.applyRight Q) k (lo + t) := by
  rw [Mat.form_congr (fun k hk => get_applyRight_free habove Q hk hs) fun k hk => get_applyRight_free habove Q hk ht]
  have hle : ∀ u, lo ≤ lo + u := fun u => Nat.le_add_right ..
  have hright := Mat.form_dot_right P (n - lo) (fun b k => Q k (lo + b))
    (fun k => dot (n - lo) (fun b => Q k (lo + b)) fun b => h.entry (lo + b) (lo + s))
    (fun b => h.entry (lo + b) (lo + t))
  rw [hright]
  unfold reflect
  dsimp only
  rw [Mat.get_ofFn_of_lt _ hs ht, if_pos ⟨hle s, hle t⟩]
  refine dot_congr (fun b hb => ?_) fun _ _ => rfl
  have hleft := Mat.form_dot_left P (n - lo) (fun b k => Q k (lo + b)) (fun b => h.entry (lo + b) (lo + s))
    (fun k => Q k (lo + b))
  rw [hleft, Mat.get_ofFn_of_lt _ hs (by omega), if_pos ⟨hle s, hle b⟩, dot_comm]
  exact dot_congr (fun c hc => hM c hc b hb) fun _ _ => rfl

theorem Projects.add (hH : Projects P H) (h : H.add a = .ok G) : Projects P G := by
  obtain ⟨basis, happend, rfl⟩ := map_eq_ok.1 h
  obtain ⟨hlt, rfl⟩ := OrthogonalFactor.appendReflected_eq_ok happend
  refine ⟨hlt, fun i hi j hj => ?_⟩
  have hi : i < n - (H.basis.size + 1) := hi
  have hj : j < n - (H.basis.size + 1) := hj
  have hc := Reflector.clears_clearing (H.basis.q.applyT a) hlt
  have hget := get_reflect (P := P) (M := H.data) (Q := H.basis.q) hc.above hH.entries
    (s := 1 + i) (t := 1 + j) (by omega) (by omega)
  rw [← Nat.add_assoc, ← Nat.add_assoc] at hget
  exact hget

theorem Restricts.add (hH : Restricts P H W) (h : H.add a = .ok G) : Restricts P G (W ++ [a]) := by
  refine ⟨hH.toProjects.add h, ?_⟩
  obtain ⟨basis, happend, rfl⟩ := map_eq_ok.1 h
  exact hH.factors.appendReflected happend

theorem exists_add (h : H.basis.size < n) (a : Vec ℝ n) : ∃ G, H.add a = .ok G ∧ G.basis.size = H.basis.size + 1 := by
  have hfinite : (H.basis.freeComponents a).all Scalar.isFinite = true := List.all_eq_true.2 fun x _ => isFinite_eq x
  unfold add OrthogonalFactor.appendReflected
  dsimp only
  rw [if_neg (by omega), if_pos hfinite]
  exact ⟨_, rfl, rfl⟩

def exposed (P Q : Mat ℝ n n) (lo : ℕ) (M : Mat ℝ n n) : Mat ℝ n n :=
  Mat.ofFn fun i j =>
    if i = lo ∧ lo ≤ j then Q.applyT (P.apply (Q.col lo)) j
    else if j = lo ∧ lo ≤ i then Q.applyT (P.apply (Q.col lo)) i
    else M i j

theorem remove_eq_ok {idx : ℤ} (h : (H.remove P idx).result = .ok ()) : (H.basis.remove idx).result = .ok () ∧
    (H.remove P idx).state = ⟨(H.basis.remove idx).state,
      exposed P (H.basis.remove idx).state.q (H.basis.remove idx).state.size H.data⟩ := by
  unfold remove at h ⊢
  dsimp only at h ⊢
  cases hremove : (H.basis.remove idx).result with
  | error cause =>
    rw [hremove] at h
    cases h
  | ok u => exact ⟨rfl, rfl⟩

theorem result_remove {i : ℕ} (hi : i < H.basis.size) : (H.remove P i).result = .ok () := by
  unfold remove
  dsimp only
  rw [OrthogonalFactor.result_remove hi]

theorem dot_slope (P Q : Mat ℝ n n) (lo : ℕ) {j : ℕ} (hj : j < n) :
    Q.applyT (P.apply (Q.col lo)) j = P.form (fun k => Q k j) fun k => Q k lo := by
  rw [Mat.get_applyT _ _ hj]
  refine dot_congr (fun _ _ => rfl) fun k hk => ?_
  rw [Mat.get_apply _ _ hk]
  exact dot_congr (fun _ _ => rfl) fun l _ => Mat.get_col ..

/-- The directions that were free before stay where they are, and the one that comes back is the first. -/
theorem Projects.remove (hP : P.Symmetric) (hH : Projects P H) {idx : ℤ}
    (h : (H.remove P idx).result = .ok ()) : Projects P (H.remove P idx).state := by
  obtain ⟨hremove, hstate⟩ := remove_eq_ok h
  rw [hstate]
  obtain ⟨h0, hlt, hbasis⟩ := OrthogonalFactor.remove_eq_ok hremove
  have hle := hH.le
  set basis := (H.basis.remove idx).state
  have hsize : basis.size + 1 = H.basis.size := by
    rw [hbasis]
    change H.basis.size - 1 + 1 = H.basis.size
    omega
  refine ⟨show basis.size ≤ n by omega, fun i hi j hj => ?_⟩
  have hi : basis.size + i < n := Nat.add_lt_of_lt_sub' hi
  have hj : basis.size + j < n := Nat.add_lt_of_lt_sub' hj
  change (exposed P basis.q basis.size H.data) (basis.size + i) (basis.size + j) =
    P.form (basis.free i) (basis.free j)
  rw [exposed, Mat.get_ofFn_of_lt _ hi hj]
  split_ifs with hrow hcol
  · obtain rfl : i = 0 := by omega
    rw [dot_slope P basis.q basis.size hj, Mat.form_comm hP]
    rfl
  · obtain rfl : j = 0 := by omega
    rw [dot_slope P basis.q basis.size hi]
    rfl
  · obtain ⟨s, rfl⟩ : ∃ s, i = s + 1 := Nat.exists_eq_succ_of_ne_zero (by omega)
    obtain ⟨t, rfl⟩ : ∃ t, j = t + 1 := Nat.exists_eq_succ_of_ne_zero (by omega)
    have hkept : ∀ u, basis.size + (u + 1) < n → ∀ k < n, basis.free (u + 1) k = H.basis.free u k := by
      intro u hu k hk
      unfold OrthogonalFactor.free
      rw [show basis.size + (u + 1) = H.basis.size + u by omega, hbasis]
      exact OrthogonalFactor.erase_free hk (Nat.le_add_right ..) (by omega)
    rw [Mat.form_congr (hkept s hi) (hkept t hj), show basis.size + (s + 1) = H.basis.size + s by omega,
      show basis.size + (t + 1) = H.basis.size + t by omega]
    exact hH.entries s (Nat.lt_sub_of_add_lt (by omega)) t (Nat.lt_sub_of_add_lt (by omega))

theorem Restricts.remove (hP : P.Symmetric) (hH : Restricts P H W) {idx : ℤ}
    (h : (H.remove P idx).result = .ok ()) : Restricts P (H.remove P idx).state (W.eraseIdx idx.toNat) := by
  refine ⟨hH.toProjects.remove hP h, ?_⟩
  obtain ⟨hremove, hstate⟩ := remove_eq_ok h
  rw [hstate]
  exact hH.factors.remove hremove

/-- A change of the working columns of a plain restriction. -/
inductive Change (n : ℕ) where
  | add (a : Vec ℝ n)
  | remove (idx : ℤ)

def change (P : Mat ℝ n n) (H : ReducedHessian ℝ n) : Change n → Except Fault (ReducedHessian ℝ n)
  | .add a => H.add a
  | .remove idx => (H.remove P idx).result.map fun _ => (H.remove P idx).state

def changes (P : Mat ℝ n n) (H : ReducedHessian ℝ n) (ops : List (Change n)) : Except Fault (ReducedHessian ℝ n) :=
  ops.foldlM (change P) H

def Change.columns (W : List (Vec ℝ n)) : Change n → List (Vec ℝ n)
  | .add a => W ++ [a]
  | .remove idx => W.eraseIdx idx.toNat

theorem Restricts.change (hP : P.Symmetric) (hH : Restricts P H W) {op : Change n}
    (h : H.change P op = .ok G) : Restricts P G (op.columns W) := by
  cases op with
  | add a => exact hH.add h
  | remove idx =>
    obtain ⟨u, hremove, rfl⟩ := map_eq_ok.1 h
    exact hH.remove hP hremove

theorem Restricts.changes (hP : P.Symmetric) (hH : Restricts P H W) {ops : List (Change n)}
    (h : H.changes P ops = .ok G) : Restricts P G (ops.foldl Change.columns W) :=
  foldlM_related (p := Restricts P) (f := ReducedHessian.change P) (fun _ _ _ _ hH h => hH.change hP h) hH h

def Change.balance : Change n → ℤ
  | .add _ => -1
  | .remove _ => 1

def Change.refusal (H : ReducedHessian ℝ n) : Change n → Option Fault
  | .add _ => if n ≤ H.basis.size then some .fullRank else none
  | .remove idx => if 0 ≤ idx ∧ idx < H.basis.size then none else some (.columnRange idx H.basis.size)

def attempt (P : Mat ℝ n n) (s : ℤ × ReducedHessian ℝ n) : Change n → ℤ × ReducedHessian ℝ n
  | .add a =>
    match s.2.add a with
    | .error _ => s
    | .ok G => (s.1 - 1, G)
  | .remove idx =>
    match (s.2.remove P idx).result with
    | .error _ => (s.1, (s.2.remove P idx).state)
    | .ok _ => (s.1 + 1, (s.2.remove P idx).state)

def attempts (P : Mat ℝ n n) (s : ℤ × ReducedHessian ℝ n) (ops : List (Change n)) : ℤ × ReducedHessian ℝ n :=
  ops.foldl (attempt P) s

variable {s : ℤ × ReducedHessian ℝ n} {op : Change n}

theorem add_of_full (h : n ≤ H.basis.size) (a : Vec ℝ n) : H.add a = .error .fullRank := by
  unfold add OrthogonalFactor.appendReflected
  rw [if_pos h]
  rfl

theorem remove_of_range {idx : ℤ} (h : ¬(0 ≤ idx ∧ idx < H.basis.size)) :
    H.remove P idx = .fail H (.columnRange idx H.basis.size) := by
  unfold remove OrthogonalFactor.remove
  rw [if_neg h]
  rfl

/-- A change goes through and is counted, or it is refused for its reason and nothing moves. -/
theorem attempt_cases (P : Mat ℝ n n) (s : ℤ × ReducedHessian ℝ n) (op : Change n) :
    (∃ G, op.refusal s.2 = none ∧ s.2.change P op = .ok G ∧ attempt P s op = (s.1 + op.balance, G) ∧
      (G.basis.size : ℤ) = s.2.basis.size - op.balance) ∨
    ∃ cause, op.refusal s.2 = some cause ∧ s.2.change P op = .error cause ∧ attempt P s op = s := by
  cases op with
  | add a =>
    unfold attempt
    rcases lt_or_ge s.2.basis.size n with hlt | hfull
    · obtain ⟨G, hG, hsize⟩ := exists_add hlt a
      refine .inl ⟨G, if_neg (by omega), hG, ?_, ?_⟩
      · simp only [hG]
        rfl
      · change (G.basis.size : ℤ) = s.2.basis.size - -1
        omega
    · refine .inr ⟨.fullRank, if_pos hfull, add_of_full hfull a, ?_⟩
      simp only [add_of_full hfull]
  | remove idx =>
    unfold attempt
    by_cases hrange : 0 ≤ idx ∧ idx < s.2.basis.size
    · obtain ⟨i, rfl⟩ := Int.eq_ofNat_of_zero_le hrange.1
      have hresult := result_remove (P := P) (H := s.2) (i := i) (by omega)
      obtain ⟨hremove, hstate⟩ := remove_eq_ok hresult
      obtain ⟨-, -, hbasis⟩ := OrthogonalFactor.remove_eq_ok hremove
      refine .inl ⟨(s.2.remove P i).state, if_pos hrange, ?_, ?_, ?_⟩
      · change (s.2.remove P i).result.map _ = _
        rw [hresult]
        rfl
      · simp only [hresult]
        rfl
      · rw [hstate, hbasis]
        change ((s.2.basis.size - 1 : ℕ) : ℤ) = s.2.basis.size - 1
        omega
    · refine .inr ⟨.columnRange idx s.2.basis.size, if_neg hrange, ?_, ?_⟩
      · change (s.2.remove P idx).result.map _ = _
        rw [remove_of_range hrange]
        rfl
      · simp only [remove_of_range hrange]
        rfl

theorem Projects.change (hP : P.Symmetric) (hH : Projects P H) (h : H.change P op = .ok G) :
    Projects P G := by
  cases op with
  | add a => exact hH.add h
  | remove idx =>
    obtain ⟨u, hremove, rfl⟩ := map_eq_ok.1 h
    exact hH.remove hP hremove

structure Counted (P : Mat ℝ n n) (s : ℤ × ReducedHessian ℝ n) : Prop where
  projects : Projects P s.2
  count : s.1 = n - s.2.basis.size

theorem Counted.attempt (hP : P.Symmetric) (hs : Counted P s) (op : Change n) :
    Counted P (attempt P s op) := by
  obtain ⟨G, -, hchange, hattempt, hsize⟩ | ⟨cause, -, -, hattempt⟩ := attempt_cases P s op
  · rw [hattempt]
    refine ⟨hs.projects.change hP hchange, ?_⟩
    have hcount := hs.count
    change s.1 + op.balance = n - G.basis.size
    omega
  · rw [hattempt]
    exact hs

theorem Counted.attempts (hP : P.Symmetric) (hs : Counted P s) (ops : List (Change n)) :
    Counted P (attempts P s ops) := by
  induction ops generalizing s with
  | nil => exact hs
  | cons op ops ih => exact ih (hs.attempt hP op)

/-- The columns of any `A` that is not wider than high can be factored. From there, or from any other factorization,
whatever changes are asked for: the count is that of the directions that are left, the matrix is `P` in them, and a
change is refused for its reason alone and then moves nothing. -/
theorem attempts_project (P : Mat ℝ n n) (hP : P.Symmetric) :
    (∀ (k : ℕ) (A : Mat ℝ n k), k ≤ n → ∃ basis, OrthogonalFactor.ofColumns A = .ok basis ∧ basis.size = k) ∧
      ∀ basis : OrthogonalFactor ℝ n, basis.size ≤ n → ∀ ops count H,
        attempts P (n - basis.size, ofFactor P basis) ops = (count, H) →
        count = n - H.basis.size ∧ H.basis.size ≤ n ∧
          (∀ i j : ℕ, i < count → j < count → H.get i j = P.form (fun r => H.z r i) fun r => H.z r j) ∧
          ∀ op cause, (H.change P op = .error cause ↔ op.refusal H = some cause) ∧
            (op.refusal H = some cause → attempt P (count, H) op = (count, H)) := by
  refine ⟨fun k A hk => ?_, fun basis hle ops count H hrun => ?_⟩
  · obtain ⟨basis, hbasis, hW⟩ := OrthogonalFactor.ofColumns_eq_ok (A := A) hk
    exact ⟨basis, hbasis, hW.size.trans (by simp [Mat.cols])⟩
  · have hs : Counted P (n - basis.size, ofFactor P basis) := ⟨projects_ofFactor hP hle, rfl⟩
    obtain ⟨⟨hle, hentries⟩, hcount⟩ := hs.attempts hP ops
    rw [hrun] at hle hentries hcount
    dsimp only at hle hentries hcount
    refine ⟨hcount, hle, fun i j hi hj => ?_, fun op cause => ?_⟩
    · have hlt : ∀ t : ℕ, t < count → t < H.size := fun t ht => by
        change t < n - H.basis.size
        omega
      exact hentries i (hlt i hi) j (hlt j hj)
    · obtain ⟨G, hnone, hchange, -, -⟩ | ⟨cause', hsome, hchange, hattempt⟩ := attempt_cases P (count, H) op
      · dsimp only at hnone hchange
        rw [hnone, hchange]
        simp
      · dsimp only at hsome hchange
        rw [hsome, hchange]
        simpa using fun _ => hattempt

def tilted : Mat ℝ 2 2 := Mat.ofFn fun i j => if i = j then 2 else 1

theorem attempts_project_tilted : ∃ H,
    attempts tilted (2, ofFactor tilted .empty) [.add (Vec.ofFn fun _ => 1), .remove 0, .remove 0] = (2, H) ∧
      ∀ i j : ℕ, i < 2 → j < 2 → H.get i j = tilted.form (fun r => H.z r i) fun r => H.z r j := by
  have hsymmetric : tilted.Symmetric := by
    intro i hi j hj
    rw [tilted, Mat.get_ofFn_of_lt _ hi hj, Mat.get_ofFn_of_lt _ hj hi]
    exact if_congr eq_comm rfl rfl
  set a : Vec ℝ 2 := Vec.ofFn fun _ => 1
  obtain ⟨G, -, -, hadd, hG⟩ | ⟨cause, hfull, -⟩ := attempt_cases tilted (2, ofFactor tilted .empty) (.add a)
  swap
  · exact absurd hfull (by simp [Change.refusal, ofFactor, OrthogonalFactor.empty])
  replace hG : (G.basis.size : ℤ) = 0 - -1 := hG
  obtain ⟨H, -, -, hremove, hH⟩ | ⟨cause, hrange, -⟩ := attempt_cases tilted (1, G) (.remove 0)
  swap
  · exact absurd hrange (by simp [Change.refusal, show G.basis.size = 1 by omega])
  replace hH : (H.basis.size : ℤ) = G.basis.size - 1 := hH
  obtain ⟨G', hnone, -⟩ | ⟨cause, -, -, hrefused⟩ := attempt_cases tilted (2, H) (.remove 0)
  · exact absurd hnone (by simp [Change.refusal, show H.basis.size = 0 by omega])
  have hrun : attempts tilted (2, ofFactor tilted .empty) [.add a, .remove 0, .remove 0] = (2, H) := by
    simp only [attempts, List.foldl_cons, List.foldl_nil]
    rw [hadd]
    exact (congrArg (attempt tilted · (.remove 0)) hremove).trans hrefused
  obtain ⟨-, hall⟩ := attempts_project tilted hsymmetric
  obtain ⟨-, -, hentries, -⟩ := hall .empty (Nat.zero_le 2) _ 2 H hrun
  exact ⟨H, hrun, fun i j hi hj => hentries i j (by omega) (by omega)⟩

end ReducedHessian

end
end ActiveSet
