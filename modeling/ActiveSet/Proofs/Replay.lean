import ActiveSet.Proofs.Columns
import ActiveSet.Proofs.Substitution
import ActiveSet.ReducedFactor

/-! The cascade that appends a column, replayed on `U`. The rotations that turn the free columns of `Q` turn
the columns of `U` the same way, so what `Uᵀ D U` says of `P` in these directions stays true; `U` becomes
upper Hessenberg and stays regular. -/

namespace ActiveSet

noncomputable section
open Exact

variable {n : ℕ}

theorem descend_related {σ τ : Type} {p : ℕ → σ → τ → Prop} {f : σ → ℕ → σ} {g : τ → ℕ → τ} (k : ℕ) {s : σ}
    {t : τ} (hk : p k s t) (hstep : ∀ i s t, i < k → p (i + 1) s t → p i (f s i) (g t i)) :
    p 0 (descend k f s) (descend k g t) := by
  induction k generalizing s t with
  | zero => exact hk
  | succ k ih =>
    exact ih (hstep k s t (Nat.lt_succ_self k) hk) fun i s t hi => hstep i s t (Nat.lt_succ_of_lt hi)

def Mat.form (P : Mat ℝ n n) (u v : ℕ → ℝ) : ℝ := dot n u fun i => dot n (P i) v

namespace Mat

variable {P : Mat ℝ n n}

theorem form_congr {u u' v v' : ℕ → ℝ} (hu : ∀ i < n, u i = u' i) (hv : ∀ i < n, v i = v' i) :
    P.form u v = P.form u' v' :=
  dot_congr hu fun _ _ => dot_congr (fun _ _ => rfl) hv

theorem form_comb_left (u v w : ℕ → ℝ) (a b : ℝ) :
    P.form (fun i => a * u i + b * v i) w = a * P.form u w + b * P.form v w := dot_comb_left ..

theorem form_comb_right (u v w : ℕ → ℝ) (a b : ℝ) :
    P.form w (fun i => a * u i + b * v i) = a * P.form w u + b * P.form w v := by
  unfold form
  rw [← dot_comb_right]
  exact dot_congr (fun _ _ => rfl) fun i _ => dot_comb_right ..

theorem form_comm (hP : P.Symmetric) (u v : ℕ → ℝ) : P.form u v = P.form v u := by
  unfold form
  rw [dot_transpose, dot_comm]
  refine dot_congr (fun _ _ => rfl) fun i hi => ?_
  exact dot_congr (fun j hj => hP j hj i hi) fun _ _ => rfl

theorem form_dot_left (P : Mat ℝ n n) (k : ℕ) (z : ℕ → ℕ → ℝ) (w v : ℕ → ℝ) :
    P.form (fun i => dot k (fun j => z j i) w) v = dot k (fun j => P.form (z j) v) w := by
  unfold form
  rw [dot_comm, dot_transpose]

theorem form_dot_right (P : Mat ℝ n n) (k : ℕ) (z : ℕ → ℕ → ℝ) (u w : ℕ → ℝ) :
    P.form u (fun i => dot k (fun j => z j i) w) = dot k (fun j => P.form u (z j)) w := by
  have hrow : ∀ i, dot n (P i) (fun l => dot k (fun j => z j l) w) = dot k (fun j => dot n (P i) (z j)) w := by
    intro i
    rw [dot_transpose]
    exact dot_congr (fun j _ => dot_comm ..) fun _ _ => rfl
  unfold form
  rw [dot_congr (fun _ _ => rfl) fun i _ => hrow i, dot_transpose]
  exact dot_congr (fun j _ => dot_comm ..) fun _ _ => rfl

end Mat

namespace ReducedFactor

/-- `Uᵀ D U` is the form `P` on the first `m` vectors `z`. -/
def Exactly (P : Mat ℝ n n) (m : ℕ) (U : ℕ → ℕ → ℝ) (d : ℕ → ℝ) (z : ℕ → ℕ → ℝ) : Prop :=
  ∀ a < m, ∀ b < m, dot m (fun k => U k a) (fun k => d k * U k b) = P.form (z a) (z b)

/-- Columns of `U` and vectors may be combined alike. -/
theorem Exactly.mix {P : Mat ℝ n n} {m : ℕ} {U U' : ℕ → ℕ → ℝ} {d : ℕ → ℝ} {z z' : ℕ → ℕ → ℝ}
    (h : Exactly P m U d z)
    (hmix : ∀ a < m, ∃ i < m, ∃ j < m, ∃ s t : ℝ, (∀ k < m, U' k a = s * U k i + t * U k j) ∧
      ∀ r < n, z' a r = s * z i r + t * z j r) : Exactly P m U' d z' := by
  intro a ha b hb
  obtain ⟨i, hi, j, hj, s, t, hU, hz⟩ := hmix a ha
  obtain ⟨i', hi', j', hj', s', t', hU', hz'⟩ := hmix b hb
  have hright : ∀ k < m, d k * U' k b = s' * (d k * U k i') + t' * (d k * U k j') := fun k hk => by
    rw [hU' k hk]
    ring
  rw [dot_congr hU hright, Mat.form_congr hz hz', dot_comb_left, dot_comb_right, dot_comb_right,
    Mat.form_comb_left, Mat.form_comb_right, Mat.form_comb_right, h i hi i' hi', h i hi j' hj',
    h j hj i' hi', h j hj j' hj']

def Regular (m : ℕ) (U : ℕ → ℕ → ℝ) : Prop :=
  ∀ x : ℕ → ℝ, (∀ k < m, dot m (U k) x = 0) → ∀ a < m, x a = 0

/-- Column `j` of the free directions in reverse. It does not depend on how many of them are free. -/
def reversed (Q : Mat ℝ n n) (j i : ℕ) : ℝ := Q i (n - 1 - j)

theorem Regular.rotateColsIn {U : Mat ℝ n n} {m p q : ℕ} {c s : ℝ} (hU : Regular m U) (hmn : m ≤ n)
    (hcs : c * c + s * s = 1) (hpq : p ≠ q) (hp : p < m) (hq : q < m) :
    Regular m (U.rotateColsIn m p q c s) := by
  intro x hx
  have hget : ∀ {k a}, k < m → a < m → (U.rotateColsIn m p q c s) k a =
      if a = p then c * U k p + s * U k q else if a = q then -s * U k p + c * U k q else U k a := by
    intro k a hk ha
    rw [Mat.get_rotateColsIn hpq (by omega) (by omega) (by omega), if_pos hk]
  -- the vector turned the other way
  set x' : ℕ → ℝ := fun a => if a = p then c * x p - s * x q else if a = q then s * x p + c * x q else x a
  have hzero : ∀ a < m, x' a = 0 := by
    apply hU
    intro k hk
    rw [← hx k hk]
    refine dot_turn hpq hp hq ?_ fun a ha hap haq => ?_
    · rw [hget hk hp, hget hk hq]
      simp only [x', if_true, if_neg hpq.symm]
      ring
    · rw [hget hk ha]
      simp only [x', if_neg hap, if_neg haq]
  have h1 : c * x p - s * x q = 0 := by simpa [x'] using hzero p hp
  have h2 : s * x p + c * x q = 0 := by simpa [x', hpq.symm] using hzero q hq
  intro a ha
  rcases eq_or_ne a p with rfl | hap
  · linear_combination c * h1 + s * h2 - x a * hcs
  · rcases eq_or_ne a q with rfl | haq
    · linear_combination c * h2 - s * h1 - x a * hcs
    · simpa [x', hap, haq] using hzero a ha

/-- The cascade of `a` and its replay, with the turns from `t` on made. -/
structure Replaying (F : ReducedFactor ℝ n) (t : ℕ) (s r : Mat ℝ n n × Vec ℝ n) : Prop where
  part : ∀ i < F.basis.nullity, r.2 i = s.2 (F.basis.size + i)
  hessenberg : ∀ k a, a + 1 < k → r.1 k a = 0
  upper : ∀ k a, F.basis.nullity - 1 - t ≤ a → a < k → r.1 k a = 0
  outside : ∀ k a, F.size ≤ k ∨ F.size ≤ a → r.1 k a = 0
  regular : Regular F.size r.1

theorem replayTurn_of_lt {l m t : ℕ} (r : Mat ℝ n n × Vec ℝ n) (h : l - (t + 1) < m) :
    (replayTurn l m r t).1 = r.1.rotateColsIn m (l - 2 - t) (l - 1 - t)
      (Rotation.annihilate (r.2 t) (r.2 (t + 1))).c (-(Rotation.annihilate (r.2 t) (r.2 (t + 1))).s) :=
  if_pos h

theorem replayTurn_of_ge {l m t : ℕ} (r : Mat ℝ n n × Vec ℝ n) (h : m ≤ l - (t + 1)) :
    (replayTurn l m r t).1 = r.1 := if_neg (not_lt.2 h)

theorem Replaying.turn {F : ReducedFactor ℝ n} {t : ℕ} {s r : Mat ℝ n n × Vec ℝ n}
    (hle : F.size ≤ F.basis.nullity) (h : Replaying F (t + 1) s r) (ht : t + 1 < F.basis.nullity) :
    Replaying F t (OrthogonalFactor.turnBack s (F.basis.size + t))
      (replayTurn F.basis.nullity F.size r t) := by
  have hln : F.basis.nullity ≤ n := Nat.sub_le _ _
  have hbl : F.basis.nullity = n - F.basis.size := rfl
  set l := F.basis.nullity
  have hpart : ∀ i < l, (replayTurn l F.size r t).2 i =
      (OrthogonalFactor.turnBack s (F.basis.size + t)).2 (F.basis.size + i) := by
    intro i hi
    change (r.2.rotate t (t + 1) _ _) i = (s.2.rotate (F.basis.size + t) (F.basis.size + t + 1) _ _) _
    rw [Vec.get_rotate _ (by omega), Vec.get_rotate _ (by omega), h.part t (by omega), h.part (t + 1) ht,
      h.part i hi]
    simp only [Nat.add_left_cancel_iff, Nat.add_assoc]
  -- a turn that reaches no factored direction leaves `U` as it is
  rcases lt_or_ge (l - (t + 1)) F.size with hlt | hge
  · have hcs := Rotation.annihilate_unit (r.2 t) (r.2 (t + 1))
    refine ⟨hpart, ?_, ?_, ?_, ?_⟩ <;> rw [replayTurn_of_lt r hlt] <;>
      set g := Rotation.annihilate (r.2 t) (r.2 (t + 1))
    · intro k a hak
      by_cases hin : k < n ∧ a < n
      · rw [Mat.get_rotateColsIn (by omega) hin.1 hin.2 (by omega)]
        split_ifs with h1 h2 h3
        · rw [h.hessenberg k _ (by omega), h.upper k _ (by omega) (by omega)]
          ring
        · rw [h.hessenberg k _ (by omega), h.hessenberg k _ (by omega)]
          ring
        · exact h.hessenberg k a hak
        · exact h.hessenberg k a hak
      · exact Mat.get_of_le _ (by omega)
    · intro k a hla hak
      by_cases hin : k < n ∧ a < n
      · rw [Mat.get_rotateColsIn (by omega) hin.1 hin.2 (by omega)]
        split_ifs with h1 h2 h3
        · omega
        · rw [h.upper k (l - 2 - t) (by omega) (by omega), h.upper k (l - 1 - t) (by omega) (by omega)]
          ring
        · exact h.upper k a (by omega) hak
        · exact h.upper k a (by omega) hak
      · exact Mat.get_of_le _ (by omega)
    · intro k a hka
      by_cases hin : k < n ∧ a < n
      · rw [Mat.get_rotateColsIn (by omega) hin.1 hin.2 (by omega)]
        split_ifs with h1 h2 h3
        · omega
        · omega
        · exact h.outside k a hka
        · exact h.outside k a hka
      · exact Mat.get_of_le _ (by omega)
    · exact h.regular.rotateColsIn (by omega) (by linear_combination hcs) (by omega) (by omega) (by omega)
  · refine ⟨hpart, ?_, ?_, ?_, ?_⟩ <;> rw [replayTurn_of_ge r hge]
    · exact h.hessenberg
    · exact fun k a hla hak => h.upper k a (by omega) hak
    · exact h.outside
    · exact h.regular

/-- The replay seen against `P`. While only free columns have been turned everything is exact; later the
last direction is no longer looked at. -/
structure Matching (P : Mat ℝ n n) (F : ReducedFactor ℝ n) (d : ℕ → ℝ) (t : ℕ)
    (s r : Mat ℝ n n × Vec ℝ n) : Prop extends Replaying F t s r where
  exactly : F.artificial ≤ t → Exactly P F.size r.1 d (reversed s.1)
  leading : ∀ a < F.size - 1, ∀ b < F.size - 1,
    dot F.size (fun k => r.1 k a) (fun k => d k * r.1 k b) = P.form (reversed s.1 a) (reversed s.1 b)

/-- Reversed direction `l - 1 - t` is column `t` past the working ones, and `l - 2 - t` the next. -/
theorem reversed_turnBack {F : OrthogonalFactor ℝ n} {s : Mat ℝ n n × Vec ℝ n} {t a i : ℕ}
    (ht : t + 1 < F.nullity) (ha : a < F.nullity) (hi : i < n) :
    let g := Rotation.annihilate (s.2 (F.size + t)) (s.2 (F.size + t + 1))
    let p := F.nullity - 1 - t
    let q := F.nullity - 2 - t
    reversed (OrthogonalFactor.turnBack s (F.size + t)).1 a i =
      if a = p then g.c * reversed s.1 p i + g.s * reversed s.1 q i
      else if a = q then -g.s * reversed s.1 p i + g.c * reversed s.1 q i
      else reversed s.1 a i := by
  intro g p q
  have hnull : F.nullity = n - F.size := rfl
  have hp : n - 1 - p = F.size + t := by omega
  have hq : n - 1 - q = F.size + t + 1 := by omega
  change (s.1.rotateCols (F.size + t) (F.size + t + 1) g.c g.s) i (n - 1 - a) = _
  rw [Mat.get_rotateCols (by omega) hi (by omega) (by omega)]
  unfold reversed
  rw [hp, hq]
  rcases eq_or_ne a p with rfl | h1
  · rw [if_pos hp, if_pos rfl]
  · rcases eq_or_ne a q with rfl | h2
    · rw [if_neg (by omega), if_pos hq, if_neg h1, if_pos rfl]
    · rw [if_neg (by omega), if_neg (by omega), if_neg h1, if_neg h2]

theorem Matching.turn {P : Mat ℝ n n} {F : ReducedFactor ℝ n} {d : ℕ → ℝ} {t : ℕ}
    {s r : Mat ℝ n n × Vec ℝ n} (hcount : F.size + F.artificial = F.basis.nullity)
    (h : Matching P F d (t + 1) s r) (ht : t + 1 < F.basis.nullity) :
    Matching P F d t (OrthogonalFactor.turnBack s (F.basis.size + t))
      (replayTurn F.basis.nullity F.size r t) := by
  have hbl : F.basis.nullity = n - F.basis.size := rfl
  have hnext := h.toReplaying.turn (by omega) ht
  set l := F.basis.nullity
  have hpair : Rotation.annihilate (r.2 t) (r.2 (t + 1)) =
      Rotation.annihilate (s.2 (F.basis.size + t)) (s.2 (F.basis.size + t + 1)) := by
    rw [h.part t (by omega), h.part (t + 1) ht, Nat.add_assoc]
  set g := Rotation.annihilate (s.2 (F.basis.size + t)) (s.2 (F.basis.size + t + 1))
  have hz : ∀ a < l, ∀ i < n, reversed (OrthogonalFactor.turnBack s (F.basis.size + t)).1 a i =
      if a = l - 1 - t then g.c * reversed s.1 (l - 1 - t) i + g.s * reversed s.1 (l - 2 - t) i
      else if a = l - 2 - t then -g.s * reversed s.1 (l - 1 - t) i + g.c * reversed s.1 (l - 2 - t) i
      else reversed s.1 a i := fun a ha i hi => reversed_turnBack ht ha hi
  -- once an artificial column takes part, the last factored direction is no longer looked at
  rcases lt_or_ge t F.artificial with hlt | hge
  · refine ⟨hnext, fun h' => absurd h' (by omega), fun a ha b hb => ?_⟩
    rw [replayTurn_of_ge r (by omega), h.leading a ha b hb]
    refine Mat.form_congr (fun i hi => ?_) fun i hi => ?_
    · rw [hz a (by omega) i hi, if_neg (by omega), if_neg (by omega)]
    · rw [hz b (by omega) i hi, if_neg (by omega), if_neg (by omega)]
  · have hexact : Exactly P F.size (replayTurn l F.size r t).1 d
        (reversed (OrthogonalFactor.turnBack s (F.basis.size + t)).1) := by
      refine (h.exactly (by omega)).mix fun a ha => ?_
      have hU : ∀ k < F.size, (replayTurn l F.size r t).1 k a =
          if a = l - 2 - t then g.c * r.1 k (l - 2 - t) + -g.s * r.1 k (l - 1 - t)
          else if a = l - 1 - t then - -g.s * r.1 k (l - 2 - t) + g.c * r.1 k (l - 1 - t)
          else r.1 k a := by
        intro k hk
        rw [replayTurn_of_lt r (by omega), hpair, Mat.get_rotateColsIn (by omega) (by omega) (by omega) (by omega),
          if_pos hk]
      rcases eq_or_ne a (l - 2 - t) with h1 | h1
      · refine ⟨l - 2 - t, by omega, l - 1 - t, by omega, g.c, -g.s, fun k hk => ?_, fun i hi => ?_⟩
        · rw [hU k hk, if_pos h1]
        · rw [hz a (by omega) i hi, if_neg (by omega), if_pos h1]
          ring
      · rcases eq_or_ne a (l - 1 - t) with h2 | h2
        · refine ⟨l - 2 - t, by omega, l - 1 - t, by omega, g.s, g.c, fun k hk => ?_, fun i hi => ?_⟩
          · rw [hU k hk, if_neg h1, if_pos h2, neg_neg]
          · rw [hz a (by omega) i hi, if_pos h2]
            ring
        · refine ⟨a, ha, a, ha, 1, 0, fun k hk => ?_, fun i hi => ?_⟩
          · rw [hU k hk, if_neg h1, if_neg h2]
            ring
          · rw [hz a (by omega) i hi, if_neg h2, if_neg h1]
            ring
    exact ⟨hnext, fun _ => hexact, fun a ha b hb => hexact a (by omega) b (by omega)⟩

end ReducedFactor

end
end ActiveSet
