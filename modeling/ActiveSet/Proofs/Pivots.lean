import ActiveSet.Proofs.Dot
import ActiveSet.Cholesky

/-! The pivoted Cholesky factor is one: the order stays a rearrangement of the rows, and in that order
`Uᵀ U` is the leading block of the matrix, after every turn and after the cut. -/

namespace ActiveSet

namespace Cholesky

noncomputable section
open Exact

variable {n : ℕ} {M : Mat ℝ n n}

theorem symmetric_comm (M : Mat ℝ n n) (i j : ℕ) : symmetric M i j = symmetric M j i := by
  unfold symmetric
  rcases lt_trichotomy i j with h | rfl | h
  · rw [if_pos h.le, if_neg (not_le.2 h)]
  · rfl
  · rw [if_neg (not_le.2 h), if_pos h.le]

theorem symmetric_eq (hM : M.Symmetric) {i j : ℕ} (hi : i < n) (hj : j < n) :
    symmetric M i j = M i j := by
  unfold symmetric
  split_ifs
  · rfl
  · exact hM j hj i hi

/-- The leading rows of a factor of `M` in some order. -/
structure Leading (M : Mat ℝ n n) (s : Cholesky ℝ n) : Prop where
  rank_le : s.rank ≤ n
  order_lt : ∀ i < n, s.order i < n
  order_inj : ∀ i < n, ∀ j < n, s.order i = s.order j → i = j
  upper : ∀ i j, j < i → s.factor i j = 0
  below : ∀ i j, s.rank ≤ i → s.factor i j = 0
  pivot : ∀ i < s.rank, 0 < s.factor i i
  product : ∀ i < s.rank, ∀ j < n, i ≤ j →
    dot s.rank (fun l => s.factor l i) (fun l => s.factor l j) = symmetric M (s.order i) (s.order j)

theorem leading_start (M : Mat ℝ n n) : Leading M start := by
  have horder : ∀ i < n, (start : Cholesky ℝ n).order i = i := fun i hi => by simp [start, hi]
  refine ⟨Nat.zero_le n, fun i hi => by rw [horder i hi]; exact hi, fun i hi j hj h => ?_,
    fun i j _ => Mat.get_zero i j, fun i j _ => Mat.get_zero i j, fun i h => absurd h (Nat.not_lt_zero i),
    fun i h => absurd h (Nat.not_lt_zero i)⟩
  rwa [horder i hi, horder j hj] at h

theorem pivot_range (d : ℕ → ℝ) {j : ℕ} (hj : j < n) : j ≤ pivot n d j ∧ pivot n d j < n := by
  unfold pivot
  refine ascend_keeps (p := fun t best => j ≤ best ∧ best < n) ⟨le_rfl, hj⟩ _ fun t best ht hb => ?_
  dsimp only
  split_ifs
  · omega
  · exact hb

theorem le_pivot (d : ℕ → ℝ) {j i : ℕ} (hji : j ≤ i) (hi : i < n) : d i ≤ d (pivot n d j) := by
  unfold pivot
  suffices h : ∀ i, j ≤ i → i ≤ j + (n - (j + 1)) → d i ≤ d (ascend (n - (j + 1)) _ j) from
    h i hji (by omega)
  refine ascend_keeps (p := fun t best => ∀ i, j ≤ i → i ≤ j + t → d i ≤ d best) ?_ _ fun t best _ hbest => ?_
  · intro i hji hij
    rw [show i = j by omega]
  · intro i hji hij
    dsimp only
    rw [isNumber_eq, Bool.not_true, Bool.and_false, Bool.or_false]
    rcases (by omega : i ≤ j + t ∨ i = j + 1 + t) with h | rfl
    · split_ifs with hless
      · exact (hbest i hji h).trans (of_decide_eq_true hless).le
      · exact hbest i hji h
    · split_ifs with hless
      · exact le_rfl
      · exact not_lt.1 fun h => hless (decide_eq_true h)

/-- The place from which an exchange takes what it puts at `i`. -/
def source (j p i : ℕ) : ℕ := if i = j then p else if i = p then j else i

theorem source_lt {j p i : ℕ} (hj : j < n) (hp : p < n) (hi : i < n) : source j p i < n := by
  unfold source
  split_ifs
  · exact hp
  · exact hj
  · exact hi

theorem source_inj {j p i l : ℕ} (h : source j p i = source j p l) : i = l := by
  unfold source at h
  split_ifs at h <;> omega

theorem source_self (j p : ℕ) : source j p j = p := if_pos rfl

theorem le_source {j p i l : ℕ} (hlj : l ≤ j) (hjp : j ≤ p) (hli : l ≤ i) : l ≤ source j p i := by
  unfold source
  split_ifs <;> omega

theorem source_of_lt {j p i : ℕ} (hjp : j ≤ p) (hi : i < j) : source j p i = i := by
  unfold source
  rw [if_neg (by omega), if_neg (by omega)]

theorem order_exchange (s : Cholesky ℝ n) (j p : ℕ) {i : ℕ} (hi : i < n) :
    (s.exchange j p).order i = s.order (source j p i) := by
  change (s.order.exchange j p) i = _
  rw [Vec.get_exchange _ hi]
  unfold source
  split_ifs <;> rfl

theorem factor_exchange (s : Cholesky ℝ n) (j p : ℕ) {i l : ℕ} (hi : i < n) (hl : l < n) :
    (s.exchange j p).factor i l = s.factor i (source j p l) := by
  change (Mat.ofFn _ : Mat ℝ n n) i l = _
  rw [Mat.get_ofFn_of_lt _ hi hl]
  unfold source
  split_ifs <;> rfl

theorem left_exchange (s : Cholesky ℝ n) (j p : ℕ) {t i : ℕ} (ht : t ≤ n) (hi : i < n) :
    left M (s.exchange j p) t i = left M s t (source j p i) := by
  unfold left
  rw [order_exchange s _ _ hi]
  congr 1
  exact sum_congr fun k hk => by rw [factor_exchange s _ _ (by omega) hi]

theorem Leading.exchange {s : Cholesky ℝ n} (hs : Leading M s) {p : ℕ} (hjp : s.rank ≤ p) (hp : p < n) :
    Leading M (s.exchange s.rank p) := by
  have hfactor : ∀ i l, i < s.rank → l < n →
      (s.exchange s.rank p).factor i l = s.factor i (source s.rank p l) :=
    fun i l hi hl => factor_exchange s _ _ (by omega) hl
  refine ⟨hs.rank_le, fun i hi => ?_, fun i hi j hj h => ?_, fun i j hji => ?_, fun i j hij => ?_,
    fun i hi => ?_, fun i hi j hj hij => ?_⟩
  · rw [order_exchange s _ _ hi]
    exact hs.order_lt _ (source_lt (by omega) hp hi)
  · rw [order_exchange s _ _ hi, order_exchange s _ _ hj] at h
    exact source_inj (hs.order_inj _ (source_lt (by omega) hp hi) _ (source_lt (by omega) hp hj) h)
  · by_cases hin : i < n ∧ j < n
    · rw [factor_exchange s _ _ hin.1 hin.2]
      rcases lt_or_ge i s.rank with hi | hi
      · rw [source_of_lt hjp (by omega)]
        exact hs.upper i j hji
      · exact hs.below i _ hi
    · exact Mat.get_of_le _ (by omega)
  · by_cases hin : i < n ∧ j < n
    · rw [factor_exchange s _ _ hin.1 hin.2]
      exact hs.below i _ hij
    · exact Mat.get_of_le _ (by omega)
  · have hi : i < s.rank := hi
    rw [hfactor i i hi (by omega), source_of_lt hjp hi]
    exact hs.pivot i hi
  · have hi : i < s.rank := hi
    have hj' : source s.rank p j < n := source_lt (by omega) hp hj
    have hij' : i ≤ source s.rank p j := le_source hi.le hjp hij
    rw [order_exchange s _ _ (by omega), order_exchange s _ _ hj, source_of_lt hjp hi,
      ← hs.product i hi _ hj' hij']
    exact dot_congr (fun l hl => by rw [hfactor l i hl (by omega), source_of_lt hjp hi])
      fun l hl => hfactor l j hl hj

theorem factor_extend (M : Mat ℝ n n) (s : Cholesky ℝ n) (j : ℕ) (root : ℝ) {i l : ℕ} (hi : i < n)
    (hl : l < n) : (extend M s j root).factor i l =
      if i = j then
        if l < j then 0
        else if l = j then root
        else (symmetric M (s.order j) (s.order l) -
          dot j (fun k => s.factor k j) fun k => s.factor k l) / root
      else s.factor i l := Mat.get_setRow s.factor hi hl j _

theorem factor_extend_of_ne (M : Mat ℝ n n) (s : Cholesky ℝ n) {j i : ℕ} (root : ℝ) (hne : i ≠ j) (l : ℕ) :
    (extend M s j root).factor i l = s.factor i l := by
  by_cases hin : i < n ∧ l < n
  · rw [factor_extend M s _ root hin.1 hin.2, if_neg hne]
  · rw [Mat.get_of_le _ (by omega), Mat.get_of_le _ (by omega)]

theorem left_extend (M : Mat ℝ n n) (s : Cholesky ℝ n) (root : ℝ) {j t : ℕ} (ht : t ≤ j) (i : ℕ) :
    left M (extend M s j root) t i = left M s t i := by
  unfold left
  congr 1
  exact sum_congr fun k hk => by rw [factor_extend_of_ne M s root (by omega)]

theorem Leading.extend {s : Cholesky ℝ n} (hs : Leading M s) (hj : s.rank < n) {root : ℝ} (hroot : 0 < root)
    (hd : root * root = left M s s.rank s.rank) : Leading M (extend M s s.rank root) := by
  have hrow : ∀ i l, i ≠ s.rank → (Cholesky.extend M s s.rank root).factor i l = s.factor i l :=
    fun _ l hne => factor_extend_of_ne M s root hne l
  have hold : ∀ i l, dot s.rank (fun k => (Cholesky.extend M s s.rank root).factor k i)
      (fun k => (Cholesky.extend M s s.rank root).factor k l) =
      dot s.rank (fun k => s.factor k i) fun k => s.factor k l :=
    fun i l => dot_congr (fun k hk => hrow k i hk.ne) fun k hk => hrow k l hk.ne
  refine ⟨hj, hs.order_lt, hs.order_inj, fun i l hli => ?_, fun i l hi => ?_, fun i hi => ?_,
    fun i hi l hl hil => ?_⟩
  · rcases eq_or_ne i s.rank with rfl | hne
    · rw [factor_extend M s _ root hj (by omega), if_pos rfl, if_pos hli]
    · rw [hrow i l hne]
      exact hs.upper i l hli
  · have hi : s.rank + 1 ≤ i := hi
    rw [hrow i l (by omega)]
    exact hs.below i l (by omega)
  · have hi : i < s.rank + 1 := hi
    rcases (by omega : i < s.rank ∨ i = s.rank) with h | rfl
    · rw [hrow i i h.ne]
      exact hs.pivot i h
    · rwa [factor_extend M s _ root hj hj, if_pos rfl, if_neg (lt_irrefl _), if_pos rfl]
  · have hi : i < s.rank + 1 := hi
    change dot (s.rank + 1) _ _ = symmetric M (s.order i) (s.order l)
    rw [dot_succ, hold]
    rcases (by omega : i < s.rank ∨ i = s.rank) with h | rfl
    · rw [factor_extend M s _ root hj (by omega), if_pos rfl, if_pos h, zero_mul, add_zero]
      exact hs.product i h l hl hil
    · rw [factor_extend M s _ root hj hj, if_pos rfl, if_neg (lt_irrefl _), if_pos rfl,
        factor_extend M s _ root hj hl, if_pos rfl, if_neg (by omega)]
      split_ifs with h
      · rw [h, hd]
        change _ + (symmetric M (s.order s.rank) (s.order s.rank) -
          dot s.rank (fun k => s.factor k s.rank) fun k => s.factor k s.rank) = _
        ring
      · field_simp
        ring

theorem turn_cases (M : Mat ℝ n n) (s : Cholesky ℝ n) (j : ℕ) :
    (s.rank ≠ j ∧ turn M s j = s) ∨
    (s.rank = j ∧ left M s j (pivot n (left M s j) j) ≤ 0 ∧ turn M s j = s) ∨
    (s.rank = j ∧ 0 < left M s j (pivot n (left M s j) j) ∧
      turn M s j = extend M (s.exchange j (pivot n (left M s j) j)) j
        (Scalar.sqrt (left M s j (pivot n (left M s j) j)))) := by
  unfold turn
  dsimp only
  split_ifs with hrank hpos
  · exact .inl ⟨hrank, rfl⟩
  · exact .inr (.inr ⟨not_not.1 hrank, hpos, rfl⟩)
  · exact .inr (.inl ⟨not_not.1 hrank, not_lt.1 hpos, rfl⟩)

theorem Leading.turn {s : Cholesky ℝ n} (hs : Leading M s) {j : ℕ} (hj : j < n) : Leading M (turn M s j) := by
  obtain ⟨-, h⟩ | ⟨-, -, h⟩ | ⟨rfl, hpos, h⟩ := turn_cases M s j
  · rwa [h]
  · rwa [h]
  · obtain ⟨hjp, hp⟩ := pivot_range (left M s s.rank) hj
    rw [h]
    set p := Cholesky.pivot n (left M s s.rank) s.rank
    refine (hs.exchange hjp hp).extend hj (Real.sqrt_pos.2 hpos) ?_
    -- after the exchange the pivot is what was left of the diagonal at `p`
    rw [show (s.exchange s.rank p).rank = s.rank from rfl, left_exchange s _ _ hs.rank_le hj, source_self]
    exact Real.mul_self_sqrt hpos.le

theorem leading_full (M : Mat ℝ n n) : Leading M (full M) :=
  ascend_keeps (p := fun _ s => Leading M s) (leading_start M) n fun _ _ hj hs => hs.turn hj

theorem Leading.left_self {s : Cholesky ℝ n} (hs : Leading M s) {i : ℕ} (hi : i < s.rank) :
    left M s i i = s.factor i i * s.factor i i := by
  have hle := hs.rank_le
  have hproduct := hs.product i hi i (by omega) le_rfl
  rw [dot_cut (j := i + 1) (by omega) fun l hl _ => by rw [hs.upper l i (by omega), zero_mul], dot_succ] at hproduct
  unfold left
  rw [← hproduct]
  exact add_sub_cancel_left ..

theorem cut_le {α : Type} [Scalar α] (s : Cholesky α n) (tol curvature : α) : s.cut tol curvature ≤ s.rank := by
  unfold cut
  cases h : (List.range s.rank).find? _ with
  | none => exact le_rfl
  | some i => exact (List.mem_range.1 (List.mem_of_find?_eq_some h)).le

theorem lt_factor_of_lt_cut {s : Cholesky ℝ n} {tol curvature : ℝ} {i : ℕ} (hi : i < s.cut tol curvature) :
    tol < s.factor i i ∧ curvature < s.factor i i * s.factor i i := by
  have hrank : i < s.rank := lt_of_lt_of_le hi (cut_le s tol curvature)
  revert hi
  unfold cut
  cases h : (List.range s.rank).find? _ with
  | none =>
    intro _
    simpa using List.find?_range_eq_none.1 h i hrank
  | some l =>
    intro hi
    simpa using (List.find?_range_eq_some.1 h).2.2 i hi

theorem factor_cut_le {s : Cholesky ℝ n} {tol curvature : ℝ} (h : s.cut tol curvature < s.rank) :
    s.factor (s.cut tol curvature) (s.cut tol curvature) ≤ tol ∨
      s.factor (s.cut tol curvature) (s.cut tol curvature) *
        s.factor (s.cut tol curvature) (s.cut tol curvature) ≤ curvature := by
  revert h
  unfold cut
  cases h : (List.range s.rank).find? _ with
  | none => exact fun hlt => absurd hlt (lt_irrefl _)
  | some l => exact fun _ => by simpa using (List.find?_range_eq_some.1 h).1

theorem cut_eq_rank {s : Cholesky ℝ n} {tol curvature : ℝ}
    (h : ∀ i < s.rank, tol < s.factor i i ∧ curvature < s.factor i i * s.factor i i) :
    s.cut tol curvature = s.rank := by
  unfold cut
  rw [List.find?_range_eq_none.2 fun i hi => by simpa using h i hi]
  rfl

theorem factor_truncate (s : Cholesky ℝ n) (r i j : ℕ) :
    (s.truncate r).factor i j = if i ≤ j ∧ j < r then s.factor i j else 0 := by
  by_cases hin : i < n ∧ j < n
  · exact Mat.get_ofFn_of_lt _ hin.1 hin.2
  · rw [Mat.get_of_le _ (by omega), Mat.get_of_le s.factor (by omega), ite_self]

theorem Leading.factor_truncate_of_lt {s : Cholesky ℝ n} (hs : Leading M s) {r : ℕ} (i : ℕ) {j : ℕ} (hj : j < r) :
    (s.truncate r).factor i j = s.factor i j := by
  rw [factor_truncate]
  split_ifs with h
  · rfl
  · exact (hs.upper i j (by omega)).symm

/-- The factorization that is kept: a block of full rank with large enough pivots. -/
structure Truncated (M : Mat ℝ n n) (tol curvature : ℝ) (s : Cholesky ℝ n) : Prop where
  rank_le : s.rank ≤ n
  order_lt : ∀ i < n, s.order i < n
  order_inj : ∀ i < n, ∀ j < n, s.order i = s.order j → i = j
  upper : ∀ i j, j < i → s.factor i j = 0
  outside : ∀ i j, s.rank ≤ j → s.factor i j = 0
  pivot : ∀ i < s.rank, 0 < s.factor i i
  large : ∀ i < s.rank, tol < s.factor i i ∧ curvature < s.factor i i * s.factor i i
  product : ∀ i < s.rank, ∀ j < s.rank,
    dot s.rank (fun l => s.factor l i) (fun l => s.factor l j) = symmetric M (s.order i) (s.order j)

theorem truncated_ofMat (M : Mat ℝ n n) (tol curvature : ℝ) :
    Truncated M tol curvature (ofMat M tol curvature) := by
  have hs := leading_full M
  set s := full M
  set rank := s.cut tol curvature
  have hle : rank ≤ s.rank := cut_le s tol curvature
  have hget := factor_truncate s rank
  have hkept : ∀ i < rank, ∀ j < rank, (s.truncate rank).factor i j = s.factor i j :=
    fun i _ j hj => hs.factor_truncate_of_lt i hj
  have hproduct : ∀ i < rank, ∀ j < rank, i ≤ j → dot rank (fun l => (s.truncate rank).factor l i)
      (fun l => (s.truncate rank).factor l j) = symmetric M (s.order i) (s.order j) := by
    intro i hi j hj hij
    have hn := hs.rank_le
    rw [← hs.product i (by omega) j (by omega) hij, dot_congr (fun l hl => hkept l hl i hi)
      fun l hl => hkept l hl j hj]
    exact (dot_cut hle fun l hl _ => by rw [hs.upper l i (by omega), zero_mul]).symm
  refine ⟨hle.trans hs.rank_le, hs.order_lt, hs.order_inj, fun i j hji => ?_, fun i j hj => ?_,
    fun i hi => ?_, fun i hi => ?_, fun i hi j hj => ?_⟩
  · change (s.truncate rank).factor i j = 0
    rw [hget, if_neg (by omega)]
  · have hj : rank ≤ j := hj
    change (s.truncate rank).factor i j = 0
    rw [hget, if_neg (by omega)]
  · have hi : i < rank := hi
    change 0 < (s.truncate rank).factor i i
    rw [hkept i hi i hi]
    exact hs.pivot i (by omega)
  · have hi : i < rank := hi
    change tol < (s.truncate rank).factor i i ∧
      curvature < (s.truncate rank).factor i i * (s.truncate rank).factor i i
    rw [hkept i hi i hi]
    exact lt_factor_of_lt_cut hi
  · rcases le_total i j with h | h
    · exact hproduct i hi j hj h
    · rw [dot_comm, symmetric_comm]
      exact hproduct j hj i hi h

end

end Cholesky

end ActiveSet
