import ActiveSet.Proofs.Definite
import ActiveSet.Sample

/-! Sample problems built from a stream: there is one for every stream that is long enough, its rows hold with room to
spare at the point that the stream names, and a convex one has curvature of at least one in every direction. -/

namespace ActiveSet

namespace Sample

open Exact

variable {m n : ℕ}

def need (n m : ℕ) : ℕ := n * n + n + m * n + n + m

/-- The problem made of a stream, and the point around which its rows leave room. -/
noncomputable def made (n m : ℕ) (convex : Bool) (stream : List ℝ) : Problem ℝ m n × Vec ℝ n :=
  let M : Mat ℝ n n := matrix n n (stream.take (n * n))
  let A : Mat ℝ m n := matrix m n ((stream.drop (n * n + n)).take (m * n))
  let center : Vec ℝ n := vector n ((stream.drop (n * n + n + m * n)).take n)
  let room : Vec ℝ m := vector m ((stream.drop (n * n + n + m * n + n)).take m)
  (⟨if convex then Mat.ofFn fun i j => dot n (M i) (M j) + if i = j then 1 else 0 else M.symmetrize,
    vector n ((stream.drop (n * n)).take n), A, Vec.ofFn fun i => A.apply center i + room i + 0.1⟩, center)

theorem take_drop {k j : ℕ} {stream : List ℝ} (hj : j ≤ stream.length) : take k (stream.drop j) =
    if j + k ≤ stream.length then .ok ((stream.drop j).take k, stream.drop (j + k)) else .error .tooFewValues := by
  have hlen : (stream.drop j).length = stream.length - j := List.length_drop
  unfold take
  by_cases h : (stream.drop j).length < k
  · rw [if_pos h, if_neg (by omega)]
  · rw [if_neg h, if_pos (by omega), List.splitAt_eq, List.drop_drop]

/-- There is a problem if the stream is long enough; what it does not take is left. -/
theorem problem_eq (n m : ℕ) (convex : Bool) (stream : List ℝ) :
    problem n m convex stream =
      if need n m ≤ stream.length then .ok ((made n m convex stream).1, stream.drop (need n m))
      else .error .tooFewValues := by
  have hneed : ∀ k, k ≤ need n m → ¬k ≤ stream.length → ¬need n m ≤ stream.length := fun k hk h => by omega
  show (take (n * n) (stream.drop 0)).bind _ = _
  rw [take_drop (Nat.zero_le _), Nat.zero_add]
  by_cases h₁ : n * n ≤ stream.length
  swap
  · rw [if_neg h₁, if_neg (hneed _ (by unfold need; omega) h₁)]
    rfl
  rw [if_pos h₁]
  show (take n (stream.drop (n * n))).bind _ = _
  rw [take_drop h₁]
  by_cases h₂ : n * n + n ≤ stream.length
  swap
  · rw [if_neg h₂, if_neg (hneed _ (by unfold need; omega) h₂)]
    rfl
  rw [if_pos h₂]
  show (take (m * n) (stream.drop (n * n + n))).bind _ = _
  rw [take_drop h₂]
  by_cases h₃ : n * n + n + m * n ≤ stream.length
  swap
  · rw [if_neg h₃, if_neg (hneed _ (by unfold need; omega) h₃)]
    rfl
  rw [if_pos h₃]
  show (take n (stream.drop (n * n + n + m * n))).bind _ = _
  rw [take_drop h₃]
  by_cases h₄ : n * n + n + m * n + n ≤ stream.length
  swap
  · rw [if_neg h₄, if_neg (hneed _ (by unfold need; omega) h₄)]
    rfl
  rw [if_pos h₄]
  show (take m (stream.drop (n * n + n + m * n + n))).bind _ = _
  rw [take_drop h₄]
  change ((if need n m ≤ stream.length then _ else _ : Except Fault (List ℝ × List ℝ)).bind _) = _
  by_cases h₅ : need n m ≤ stream.length
  · rw [if_pos h₅, if_pos h₅]
    rfl
  · rw [if_neg h₅, if_neg h₅]
    rfl

section Properties

variable (convex : Bool) (stream : List ℝ)

theorem symmetric_made : (made n m convex stream).1.P.Symmetric := by
  intro i hi j hj
  cases convex
  · simp only [made, Bool.false_eq_true, if_false, Mat.get_symmetrize _ hi hj, Mat.get_symmetrize _ hj hi, add_comm]
  · simp only [made, if_true, Mat.get_ofFn_of_lt _ hi hj, Mat.get_ofFn_of_lt _ hj hi]
    rw [dot_comm, if_congr eq_comm rfl rfl]

/-- `vᵀ (M Mᵀ + I) v` is the squared length of `Mᵀ v` and that of `v`. -/
theorem above_made : (made n m true stream).1.P.Above 1 := by
  intro v
  set M : Mat ℝ n n := matrix n n (stream.take (n * n))
  let w : ℕ → ℝ := fun k => dot n (fun j => M j k) v
  have hrow : ∀ i < n, dot n ((made n m true stream).1.P i) v = dot n (M i) w + v i := by
    intro i hi
    have hentry : ∀ j < n, (made n m true stream).1.P i j = dot n (M i) (M j) + if j = i then 1 else 0 := fun j hj => by
      simp only [made, if_true, Mat.get_ofFn_of_lt _ hi hj, M, eq_comm]
    rw [dot_congr hentry fun _ _ => rfl, dot_comm n (fun j => dot n (M i) (M j) + _), dot_add_right, dot_unit hi,
      dot_congr (fun _ _ => rfl) fun j _ => dot_comm n (M i) (M j), dot_transpose, dot_comm]
  have hform : (made n m true stream).1.P.form v v = dot n w w + dot n v v := by
    rw [Mat.form, dot_congr (fun _ _ => rfl) hrow, dot_add_right, dot_transpose]
  rw [hform, one_mul]
  linarith [dot_self_nonneg n w]

theorem vector_nonneg {k : ℕ} {entries : List ℝ} (h : ∀ a ∈ entries, 0 ≤ a) {i : ℕ} (hi : i < k) :
    0 ≤ (vector k entries : Vec ℝ k) i := by
  rw [vector, Vec.get_ofFn_of_lt _ hi]
  by_cases hlen : i < entries.length
  · simpa [hlen] using h _ (List.getElem_mem hlen)
  · simp [not_lt.1 hlen]

theorem excess_made (hroom : ∀ a ∈ (stream.drop (n * n + n + m * n + n)).take m, 0 ≤ a) {i : ℕ} (hi : i < m) :
    (made n m convex stream).1.excess (made n m convex stream).2 i ≤ -(1 / 10) := by
  have hnonneg := vector_nonneg hroom hi
  simp only [made, Problem.excess, Vec.get_ofFn_of_lt _ hi, Mat.get_apply _ _ hi]
  norm_num at hnonneg ⊢
  linarith

end Properties

/-- What a long enough stream gives: a symmetric problem, of curvature one at least if it is to be convex, and a point
at which every row holds by a tenth if the room that is added is not negative. -/
theorem problem_spec {convex : Bool} {stream : List ℝ} (h : need n m ≤ stream.length)
    (hroom : ∀ a ∈ (stream.drop (n * n + n + m * n + n)).take m, 0 ≤ a) :
    ∃ p center, problem n m convex stream = .ok (p, stream.drop (need n m)) ∧ p.P.Symmetric ∧
      (convex = true → p.P.Above 1) ∧ ∀ i < m, p.excess center i ≤ -(1 / 10) := by
  refine ⟨_, (made n m convex stream).2, (problem_eq n m convex stream).trans (if_pos h), symmetric_made _ _, ?_,
    fun i hi => excess_made _ _ hroom hi⟩
  rintro rfl
  exact above_made _

theorem problem_spec_single : need 1 1 ≤ ([1, 2, 1, 0, 0, 7] : List ℝ).length ∧
    (∀ a ∈ (([1, 2, 1, 0, 0, 7] : List ℝ).drop (1 * 1 + 1 + 1 * 1 + 1)).take 1, 0 ≤ a) ∧
    ∃ (p : Problem ℝ 1 1) (center : Vec ℝ 1), problem 1 1 true [1, 2, 1, 0, 0, 7] = .ok (p, [7]) ∧ p.P.Symmetric ∧
      p.P.Above 1 ∧ p.excess center 0 ≤ -(1 / 10) := by
  have hneed : need 1 1 ≤ ([1, 2, 1, 0, 0, 7] : List ℝ).length := by decide
  have hroom : ∀ a ∈ (([1, 2, 1, 0, 0, 7] : List ℝ).drop (1 * 1 + 1 + 1 * 1 + 1)).take 1, 0 ≤ a := by simp
  obtain ⟨p, center, hp, hsymm, habove, hrow⟩ := @problem_spec 1 1 true _ hneed hroom
  exact ⟨hneed, hroom, p, center, hp, hsymm, habove rfl, hrow 0 one_pos⟩

end Sample

end ActiveSet
