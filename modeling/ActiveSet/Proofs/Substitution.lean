import ActiveSet.Proofs.Dot
import ActiveSet.Triangular
import Mathlib.Tactic.FieldSimp

/-! Triangular systems over the reals: a solve is refused only for its size or a zero pivot, what it returns
solves the system, and a triangle is singular exactly if it has a zero pivot. -/

namespace ActiveSet

namespace Triangular

noncomputable section
open Exact

variable {k size : ℕ} {U : ℕ → ℕ → ℝ} {b : ℕ → ℝ}

def IsUpper (k : ℕ) (U : ℕ → ℕ → ℝ) : Prop := ∀ i < k, ∀ j < i, U i j = 0

theorem finite_eq_true (k : ℕ) (U : ℕ → ℕ → ℝ) (b : ℕ → ℝ) : finite k U b = true := by
  simp [finite]

theorem zeroPivot?_eq_none : zeroPivot? k U = none ↔ ∀ i < k, U i i ≠ 0 := by
  unfold zeroPivot?
  rw [List.find?_eq_none]
  constructor
  · intro h i hi h0
    exact h i (List.mem_range.2 hi) (same_iff.2 h0)
  · intro h i hi hs
    exact h i (List.mem_range.1 hi) (same_iff.1 hs)

theorem accept_eq_ok : accept k size U b = .ok () ↔ size = k ∧ ∀ i < k, U i i ≠ 0 := by
  unfold accept
  rw [if_pos (finite_eq_true k U b), ← zeroPivot?_eq_none]
  by_cases hs : size = k
  · rw [if_neg (not_not.2 hs)]
    cases zeroPivot? k U <;> simp [hs]
  · simp [hs]

theorem solve_eq_ok {w : Vec ℝ k} :
    solve k size U b = .ok w ↔ (size = k ∧ ∀ i < k, U i i ≠ 0) ∧ w = backward k U b := by
  unfold solve
  rw [← accept_eq_ok (b := b)]
  cases accept k size U b <;> simp [Except.map, eq_comm]

theorem solveT_eq_ok {w : Vec ℝ k} :
    solveT k size U b = .ok w ↔ (size = k ∧ ∀ i < k, U i i ≠ 0) ∧ w = forward k U b := by
  unfold solveT
  rw [← accept_eq_ok (b := b)]
  cases accept k size U b <;> simp [Except.map, eq_comm]

/-- Row `i` of `Uᵀ x = b`, which looks at the unknowns up to `i` only. -/
theorem forward_row (h : ∀ i < k, U i i ≠ 0) : ∀ i < k, dot (i + 1) (fun t => U t i) (forward k U b) = b i := by
  unfold forward
  refine ascend_keeps (p := fun j (x : Vec ℝ k) => ∀ i < j, dot (i + 1) (fun t => U t i) x = b i) ?_ k ?_
  · intro i hi
    omega
  · intro j x hj hx i hi
    set c := (b j - sum j fun t => U t j * x t) / U j j
    -- the unknowns before `j` keep their values
    have hset : ∀ l ≤ j, (x.set j c) l = if l = j then c else x l := fun l hl => Vec.get_set x (by omega) j c
    rcases (by omega : i < j ∨ i = j) with h' | rfl
    · rw [← hx i h']
      exact dot_congr (fun _ _ => rfl) fun l hl => by rw [hset l (by omega), if_neg (by omega)]
    · have hsum : dot i (fun t => U t i) (x.set i c) = dot i (fun t => U t i) x :=
        dot_congr (fun _ _ => rfl) fun l hl => by rw [hset l (by omega), if_neg (by omega)]
      rw [dot_succ, hsum, hset i le_rfl, if_pos rfl]
      have hne := h i hj
      change dot i (fun t => U t i) x + U i i * ((b i - dot i (fun t => U t i) x) / U i i) = b i
      field_simp
      ring

theorem forward_solves (hU : IsUpper k U) (h : ∀ i < k, U i i ≠ 0) {i : ℕ} (hi : i < k) :
    dot k (fun t => U t i) (forward k U b) = b i := by
  rw [← forward_row (b := b) h i hi]
  exact dot_cut hi fun l hl hlk => by rw [hU l hlk i (by omega), zero_mul]

theorem eq_forward (hU : IsUpper k U) (h : ∀ i < k, U i i ≠ 0) {x : ℕ → ℝ}
    (hx : ∀ i < k, dot k (fun t => U t i) x = b i) : ∀ i < k, x i = forward k U b i := by
  intro i
  induction i using Nat.strong_induction_on with
  | _ i ih =>
    intro hi
    have hrow : dot k (fun t => U t i) x = dot (i + 1) (fun t => U t i) x :=
      dot_cut hi fun l hl hlk => by rw [hU l hlk i (by omega), zero_mul]
    have hsolve := (hrow.symm.trans (hx i hi)).trans (forward_row h i hi).symm
    rw [dot_succ, dot_succ, dot_congr (fun _ _ => rfl) fun l hl => ih l hl (by omega)] at hsolve
    exact mul_left_cancel₀ (h i hi) (add_left_cancel hsolve)

/-- Row `i` of `U x = b`, which looks at the unknowns from `i` on only. -/
theorem backward_row (h : ∀ i < k, U i i ≠ 0) : ∀ i < k, U i i * backward k U b i +
    dot (k - (i + 1)) (fun t => U i (i + 1 + t)) (fun t => backward k U b (i + 1 + t)) = b i := by
  have key := descend_keeps (p := fun j (x : Vec ℝ k) => ∀ i, j ≤ i → i < k →
      U i i * x i + dot (k - (i + 1)) (fun t => U i (i + 1 + t)) (fun t => x (i + 1 + t)) = b i)
    (f := fun x i => x.set i ((b i - sum (k - (i + 1)) fun t => U i (i + 1 + t) * x (i + 1 + t)) / U i i))
    k (s := 0) (fun i hi hik => by omega) ?_
  · exact fun i hi => key i (Nat.zero_le i) hi
  · intro j x hj hx i hji hik
    set c := (b j - sum (k - (j + 1)) fun t => U j (j + 1 + t) * x (j + 1 + t)) / U j j
    have hset : ∀ l, j < l → (x.set j c) l = x l := fun l hl => by
      rcases lt_or_ge l k with hlk | hlk
      · rw [Vec.get_set x hlk, if_neg (by omega)]
      · rw [Vec.get_of_le _ hlk, Vec.get_of_le _ hlk]
    have hrest : dot (k - (i + 1)) (fun t => U i (i + 1 + t)) (fun t => (x.set j c) (i + 1 + t)) =
        dot (k - (i + 1)) (fun t => U i (i + 1 + t)) (fun t => x (i + 1 + t)) :=
      dot_congr (fun _ _ => rfl) fun t _ => hset _ (by omega)
    rcases (by omega : j < i ∨ i = j) with h' | rfl
    · rw [hrest, hset i h', hx i h' hik]
    · rw [hrest, Vec.get_set x hik, if_pos rfl]
      have hne := h i hik
      change U i i * ((b i - dot (k - (i + 1)) (fun t => U i (i + 1 + t)) (fun t => x (i + 1 + t))) / U i i) +
        dot (k - (i + 1)) (fun t => U i (i + 1 + t)) (fun t => x (i + 1 + t)) = b i
      field_simp
      ring

theorem dot_upper_row (hU : IsUpper k U) (x : ℕ → ℝ) {i : ℕ} (hi : i < k) :
    dot k (U i) x = U i i * x i + dot (k - (i + 1)) (fun t => U i (i + 1 + t)) (fun t => x (i + 1 + t)) := by
  have hk : dot k (U i) x = dot (i + 1 + (k - (i + 1))) (U i) x := by rw [Nat.add_sub_cancel' hi]
  rw [hk, dot_add, dot_succ, dot_eq_zero fun j hj => by rw [hU i hi j hj, zero_mul], zero_add]

theorem backward_solves (hU : IsUpper k U) (h : ∀ i < k, U i i ≠ 0) {i : ℕ} (hi : i < k) :
    dot k (U i) (backward k U b) = b i := by
  rw [dot_upper_row hU _ hi]
  exact backward_row h i hi

/-- A triangle without a zero pivot takes only zero to zero. -/
theorem eq_zero_of_upper (hU : IsUpper k U) (h : ∀ i < k, U i i ≠ 0) {x : ℕ → ℝ}
    (hx : ∀ i < k, dot k (U i) x = 0) : ∀ i < k, x i = 0 := by
  have key : ∀ d, ∀ i < k, k - 1 - i ≤ d → x i = 0 := by
    intro d
    induction d with
    | zero =>
      intro i hi hd
      have hrow := hx i hi
      rw [dot_upper_row hU x hi, show k - (i + 1) = 0 by omega] at hrow
      simpa [dot, h i hi] using hrow
    | succ d ih =>
      intro i hi hd
      have hrow := hx i hi
      rw [dot_upper_row hU x hi, dot_eq_zero fun t ht => by rw [ih _ (by omega) (by omega), mul_zero],
        add_zero] at hrow
      exact (mul_eq_zero.1 hrow).resolve_left (h i hi)
  exact fun i hi => key (k - 1 - i) i hi le_rfl

/-- A triangle whose first zero pivot is at `i` takes some vector with entry one at `i` to zero. -/
theorem exists_null_of_pivot_eq_zero (hU : IsUpper k U) {i : ℕ} (hi : i < k) (h0 : U i i = 0)
    (hbefore : ∀ j < i, U j j ≠ 0) :
    ∃ x : ℕ → ℝ, x i = 1 ∧ (∀ j, i < j → x j = 0) ∧ ∀ l < k, dot k (U l) x = 0 := by
  set y : Vec ℝ i := backward i U fun l => U l i
  refine ⟨fun j => if j < i then -y j else if j = i then 1 else 0, by simp, fun j hj => ?_, fun l hl => ?_⟩
  · simp [hj.ne', not_lt.2 hj.le]
  · have hsplit : dot k (U l) (fun j => if j < i then -y j else if j = i then 1 else 0) =
        -dot i (U l) y + U l i := by
      rw [dot_cut (j := i + 1) (by omega) fun j hj _ => by simp [show ¬j < i by omega, show j ≠ i by omega],
        dot_succ, if_neg (lt_irrefl i), if_pos rfl, mul_one, ← dot_neg_right]
      congr 1
      exact dot_congr (fun _ _ => rfl) fun j hj => by rw [if_pos hj]
    rw [hsplit]
    rcases lt_or_ge l i with hli | hli
    · rw [backward_solves (fun a ha => hU a (by omega)) hbefore hli]
      ring
    · rw [dot_eq_zero fun j hj => by rw [hU l hl j (by omega), zero_mul]]
      rcases eq_or_lt_of_le hli with rfl | hlt
      · rw [h0]
        ring
      · rw [hU l hl i hlt]
        ring

end

end Triangular

end ActiveSet
