import ActiveSet.Proofs.Simplex
import Mathlib.Data.Finset.Max
import Mathlib.Data.Finset.Powerset
import Mathlib.Algebra.Order.Field.Basic
import Mathlib.Order.Interval.Finset.Nat

/-! The rule of the smallest numbers ends every run. If the same variables were basic twice, every pivot between would
leave the basic solution as it is; then look at the largest number that enters between, once where it enters and once
where it leaves. The direction in which it leaves lowers the cost, so by the costs where it enters some smaller number
would have had to enter there or leave here. There are only so many sets of basic variables. -/

namespace ActiveSet

namespace Dictionary

variable {r c : ℕ} {D E : Dictionary r c} {i j l m : ℕ} {v : ℕ → ℚ}

section Direction

def direction (D : Dictionary r c) (j m : ℕ) : ℚ :=
  (if m = D.others j then 1 else 0) - ∑ i ∈ Finset.range r, if D.basic i = m then D.table i j else 0

theorem direction_basic (hD : D.Labelled) (hi : i < r) (hj : j < c) : D.direction j (D.basic i) = -D.table i j := by
  rw [direction, if_neg (hD.basic_ne hi hj), Finset.sum_eq_single_of_mem i (Finset.mem_range.2 hi)
    fun k hk hki => if_neg fun h => hki (hD.basic_inj (Finset.mem_range.1 hk) hi h), if_pos rfl, zero_sub]

theorem direction_of_not_basic (h : ∀ i < r, D.basic i ≠ m) : D.direction j m = if m = D.others j then 1 else 0 := by
  rw [direction, Finset.sum_eq_zero fun i hi => if_neg (h i (Finset.mem_range.1 hi)), sub_zero]

theorem weigh_direction (hD : D.Labelled) (hj : j < c) (f : ℕ → ℚ) : D.weigh f (D.direction j) = f j := by
  rw [weigh, Finset.sum_eq_single_of_mem j (Finset.mem_range.2 hj) fun l hl hlj => ?_]
  · rw [direction_of_not_basic fun i hi => hD.basic_ne hi hj, if_pos rfl, mul_one]
  · have hl := Finset.mem_range.1 hl
    rw [direction_of_not_basic fun i hi => hD.basic_ne hi hl, if_neg fun h => hlj (hD.others_inj hl hj h), mul_zero]

theorem weigh_add_mul (f u v : ℕ → ℚ) (t : ℚ) :
    D.weigh f (fun m => u m + t * v m) = D.weigh f u + t * D.weigh f v := by
  simp only [weigh, mul_add, Finset.sum_add_distrib, Finset.mul_sum]
  congr 1
  exact Finset.sum_congr rfl fun l _ => mul_left_comm _ _ _

theorem solves_along (hD : D.Labelled) (hj : j < c) (hv : D.Solves v) (t : ℚ) :
    D.Solves fun m => v m + t * D.direction j m := by
  intro i hi
  have := hv i hi
  beta_reduce
  rw [weigh_add_mul, weigh_direction hD hj, direction_basic hD hi hj]
  linear_combination this

theorem price_along (hD : D.Labelled) (hj : j < c) (v : ℕ → ℚ) (t : ℚ) :
    D.price (fun m => v m + t * D.direction j m) = D.price v + t * D.cost j := by
  rw [price, weigh_add_mul, weigh_direction hD hj, price]

end Direction

section Basics

def basics (D : Dictionary r c) : Finset ℕ := (Finset.range r).image D.basic

theorem mem_basics : m ∈ D.basics ↔ ∃ i < r, D.basic i = m := by simp [basics]

theorem others_not_mem (hD : D.Labelled) (hj : j < c) : D.others j ∉ D.basics := fun h => by
  obtain ⟨i, hi, heq⟩ := mem_basics.1 h
  exact hD.basic_ne hi hj heq

theorem value_of_not_mem (h : m ∉ D.basics) : D.value m = 0 :=
  value_of_not_basic fun i hi him => h (mem_basics.2 ⟨i, hi, him⟩)

theorem mem_basics_pivot (hD : D.Labelled) (hi : i < r) (j : ℕ) :
    m ∈ (D.pivot i j).basics ↔ m = D.others j ∨ m ∈ D.basics ∧ m ≠ D.basic i := by
  rw [mem_basics, mem_basics]
  constructor
  · rintro ⟨k, hk, rfl⟩
    rw [basic_pivot D i j hk]
    split_ifs with hki
    · exact Or.inl rfl
    · exact Or.inr ⟨⟨k, hk, rfl⟩, fun h => hki (hD.basic_inj hk hi h)⟩
  · rintro (rfl | ⟨⟨k, hk, rfl⟩, hne⟩)
    · exact ⟨i, hi, by rw [basic_pivot D i j hi, if_pos rfl]⟩
    · exact ⟨k, hk, by rw [basic_pivot D i j hk, if_neg fun h => hne (by rw [h])]⟩

theorem card_basics (hD : D.Labelled) : D.basics.card = r := by
  rw [basics, Finset.card_image_of_injOn, Finset.card_range]
  exact fun i hi k hk h => hD.basic_inj (Finset.mem_range.1 hi) (Finset.mem_range.1 hk) h

def numbers (D : Dictionary r c) : Finset ℕ := (Finset.range (r + c)).image D.label

theorem Relabelled.basics_subset (h : D.Relabelled E) : E.basics ⊆ D.numbers := by
  obtain ⟨σ, hσ, hE⟩ := h
  intro m hm
  obtain ⟨i, hi, rfl⟩ := mem_basics.1 hm
  rw [← label_basic _ hi, hE i (by omega)]
  exact Finset.mem_image_of_mem _ (Finset.mem_range.2 ((hσ i).2 (by omega)))

end Basics

section Cycle

/-- A run of `N` pivots, the pivot after dictionary `k` at row `row k` and column `column k`. -/
structure Run (first N : ℕ) (run : ℕ → Dictionary r c) (row column : ℕ → ℕ) : Prop where
  labelled : (run 0).Labelled
  feasible : (run 0).Feasible
  step : ∀ k < N, Step first (run k) (row k) (column k)
  next : ∀ k < N, run (k + 1) = (run k).pivot (row k) (column k)

variable {first N a b k : ℕ} {run : ℕ → Dictionary r c} {row column : ℕ → ℕ}

namespace Run

theorem reaches (h : Run first N run row column) (hk : k ≤ N) :
    (run 0).Relabelled (run k) ∧ (run k).Feasible ∧ (run 0).Equivalent (run k) := by
  induction k with
  | zero => exact ⟨.refl _, h.feasible, .refl _⟩
  | succ k ih =>
    obtain ⟨hrelabelled, hfeasible, hequivalent⟩ := ih (by omega)
    have hs := h.step k (by omega)
    rw [h.next k (by omega)]
    exact ⟨hrelabelled.trans (relabelled_pivot hs.row hs.column), hs.feasible hfeasible,
      hequivalent.trans (equivalent_pivot hs.row hs.column hs.pivot_pos.ne')⟩

theorem labelled_at (h : Run first N run row column) (hk : k ≤ N) : (run k).Labelled :=
  (h.reaches hk).1.labelled h.labelled

theorem solves_value_at (h : Run first N run row column) (hk : k ≤ N) (hl : l ≤ N) : (run l).Solves (run k).value :=
  ((h.reaches hl).2.2.solves _).2 (((h.reaches hk).2.2.solves _).1 (solves_value (h.labelled_at hk)))

/-- A difference of prices is the same all along the run. -/
theorem price_sub (h : Run first N run row column) (hk : k ≤ N) (hl : l ≤ N) {u v : ℕ → ℚ} (hu : (run k).Solves u)
    (hv : (run k).Solves v) : (run k).price u - (run k).price v = (run l).price u - (run l).price v := by
  obtain ⟨drop, hdrop⟩ := (h.reaches hk).2.2.price
  obtain ⟨drop', hdrop'⟩ := (h.reaches hl).2.2.price
  have hsolves := (h.reaches hk).2.2.solves
  rw [hdrop _ ((hsolves u).1 hu), hdrop _ ((hsolves v).1 hv), hdrop' _ ((hsolves u).1 hu), hdrop' _ ((hsolves v).1 hv)]
  ring

theorem mem_next (h : Run first N run row column) (hk : k < N) :
    m ∈ (run (k + 1)).basics ↔
      m = (run k).others (column k) ∨ m ∈ (run k).basics ∧ m ≠ (run k).basic (row k) := by
  rw [h.next k hk]
  exact mem_basics_pivot (h.labelled_at hk.le) (h.step k hk).row _

theorem stays_out (h : Run first N run row column) (hb : b ≤ N) (hab : a ≤ b) (hm : m ∉ (run a).basics)
    (hnever : ∀ k, a ≤ k → k < b → m ≠ (run k).others (column k)) : m ∉ (run b).basics := by
  induction b, hab using Nat.le_induction with
  | base => exact hm
  | succ b hab ih =>
    rw [h.mem_next (by omega)]
    rintro (heq | ⟨hmem, -⟩)
    · exact hnever b hab (by omega) heq
    · exact ih (by omega) (fun k hk hkb => hnever k hk (by omega)) hmem

theorem stays_in (h : Run first N run row column) (hb : b ≤ N) (hab : a ≤ b) (hm : m ∈ (run a).basics)
    (hnever : ∀ k, a ≤ k → k < b → m ≠ (run k).basic (row k)) : m ∈ (run b).basics := by
  induction b, hab using Nat.le_induction with
  | base => exact hm
  | succ b hab ih =>
    rw [h.mem_next (by omega)]
    exact Or.inr ⟨ih (by omega) fun k hk hkb => hnever k hk (by omega), hnever b hab (by omega)⟩

theorem price_next (h : Run first N run row column) (hk : k < N) (hv : (run k).Solves v) :
    (run (k + 1)).price v = (run k).price v -
      (run k).cost (column k) / (run k).table (row k) (column k) * (run k).rhs (row k) := by
  rw [h.next k hk]
  exact price_pivot (h.step k hk).row (h.step k hk).column (h.step k hk).pivot_pos.ne' hv

theorem price_le_next (h : Run first N run row column) (hk : k < N) (hv : (run k).Solves v) :
    (run k).price v ≤ (run (k + 1)).price v := by
  have hs := h.step k hk
  have hdrop : (run k).cost (column k) / (run k).table (row k) (column k) * (run k).rhs (row k) ≤ 0 :=
    mul_nonpos_of_nonpos_of_nonneg (div_nonpos_of_nonpos_of_nonneg hs.falls.le hs.pivot_pos.le)
      ((h.reaches hk.le).2.1 _ hs.row)
  rw [h.price_next hk hv]
  linarith

theorem price_mono (h : Run first N run row column) (hb : b ≤ N) (hab : a ≤ b) (hv : ∀ k ≤ N, (run k).Solves v) :
    (run a).price v ≤ (run b).price v := by
  induction b, hab using Nat.le_induction with
  | base => exact le_rfl
  | succ b hab ih => exact (ih (by omega)).trans (h.price_le_next (by omega) (hv b (by omega)))

/-- The direction in which one pivot moves lowers the cost of every dictionary of the run somewhere. -/
theorem exists_falling {q e : ℕ} (h : Run first N run row column) (hq : q < N) (he : e ≤ N) :
    ∃ l < c, (run e).cost l * (run q).direction (column q) ((run e).others l) < 0 := by
  have hs := h.step q hq
  have hL := h.labelled_at hq.le
  let y : ℕ → ℚ := fun m => (run q).value m + 1 * (run q).direction (column q) m
  have hvalue := solves_value hL
  have hfall : (run e).price y - (run e).price (run q).value < 0 := by
    rw [← h.price_sub hq.le he (solves_along hL hs.column hvalue 1) hvalue, price_along hL hs.column]
    linarith [hs.falls]
  by_contra hnot
  push Not at hnot
  have hsum : (run e).price y - (run e).price (run q).value =
      ∑ l ∈ Finset.range c, (run e).cost l * (run q).direction (column q) ((run e).others l) := by
    simp only [price, weigh, y, one_mul, mul_add, Finset.sum_add_distrib]
    ring
  exact absurd (hsum ▸ hfall) (not_lt.2 (Finset.sum_nonneg fun l hl => hnot l (Finset.mem_range.1 hl)))

section Recurrence

variable (h : Run first N run row column) (hb : b ≤ N) (hsame : (run a).basics = (run b).basics)

include h hb hsame

/-- If the same variables are basic again, no pivot between has changed the cost. -/
theorem degenerate (hak : a ≤ k) (hkb : k < b) : (run k).rhs (row k) = 0 := by
  have hsolves : ∀ k ≤ N, (run k).Solves (run a).value := fun k hk => h.solves_value_at (by omega) hk
  have hstart : (run a).price (run a).value = 0 := price_value (h.labelled_at (by omega))
  have hend : (run b).price (run a).value = 0 := weigh_eq_zero fun l hl => by
    rw [value_of_not_mem (hsame ▸ others_not_mem (h.labelled_at hb) hl), mul_zero]
  have hbefore := h.price_mono (by omega) hak hsolves
  have hafter := h.price_mono hb (by omega : k + 1 ≤ b) hsolves
  have hnext := h.price_next (by omega : k < N) (hsolves k (by omega))
  have hle := h.price_le_next (by omega : k < N) (hsolves k (by omega))
  have hs := h.step k (by omega)
  have hzero : (run k).cost (column k) / (run k).table (row k) (column k) * (run k).rhs (row k) = 0 := by linarith
  rcases mul_eq_zero.1 hzero with hdiv | hrhs
  · exact absurd hdiv (div_neg_of_neg_of_pos hs.falls hs.pivot_pos).ne
  · exact hrhs

theorem value_eq_at (hak : a ≤ k) (hkb : k ≤ b) : (run k).value = (run a).value := by
  induction k, hak using Nat.le_induction with
  | base => rfl
  | succ k hak ih =>
    have hs := h.step k (by omega)
    rw [← ih (by omega), h.next k (by omega)]
    exact funext (value_pivot (h.labelled_at (by omega)) hs.row hs.column
      (h.degenerate hb hsame hak (by omega)))

theorem enters_of_changed (hak : a ≤ k) (hkb : k ≤ b) (hin : m ∈ (run k).basics) (hal : a ≤ l) (hlb : l ≤ b)
    (hout : m ∉ (run l).basics) : ∃ q, a ≤ q ∧ q < b ∧ m = (run q).others (column q) := by
  by_contra hnot
  push Not at hnot
  have hout' := h.stays_out hb hlb hout fun q hq hqb => hnot q (by omega) hqb
  rw [← hsame] at hout'
  exact h.stays_out (by omega) hak hout' (fun q hq hqk => hnot q hq (by omega)) hin

theorem leaves_of_enters (hak : a ≤ k) (hkb : k < b) :
    ∃ q, a ≤ q ∧ q < b ∧ (run k).others (column k) = (run q).basic (row q) := by
  by_contra hnot
  push Not at hnot
  have hs := h.step k (by omega)
  have hin : (run k).others (column k) ∈ (run (k + 1)).basics := (h.mem_next (by omega)).2 (Or.inl rfl)
  have hend := h.stays_in hb (by omega : k + 1 ≤ b) hin fun q hq hqb => hnot q (by omega) hqb
  rw [← hsame] at hend
  exact others_not_mem (h.labelled_at (by omega)) hs.column
    (h.stays_in (by omega) hak hend fun q hq hqk => hnot q hq (by omega))

theorem not_recurrent (hab : a < b) : False := by
  classical
  -- the largest number that enters, where it enters and where it leaves
  let entered := (Finset.Ico a b).image fun k => (run k).others (column k)
  have hne : entered.Nonempty := ⟨_, Finset.mem_image_of_mem _ (Finset.mem_Ico.2 ⟨le_rfl, hab⟩)⟩
  obtain ⟨t, ht⟩ : ∃ t, t = entered.max' hne := ⟨_, rfl⟩
  have hmax : ∀ q, a ≤ q → q < b → (run q).others (column q) ≤ t := fun q hq hqb => by
    rw [ht]
    exact entered.le_max' _ (Finset.mem_image_of_mem _ (Finset.mem_Ico.2 ⟨hq, hqb⟩))
  obtain ⟨e, he, hte⟩ := Finset.mem_image.1 (ht ▸ entered.max'_mem hne)
  obtain ⟨hae, heb⟩ := Finset.mem_Ico.1 he
  obtain ⟨q, haq, hqb, hleaves⟩ := h.leaves_of_enters hb hsame hae heb
  rw [hte] at hleaves
  have hse := h.step e (by omega)
  have hsq := h.step q (by omega)
  have hLe := h.labelled_at (by omega : e ≤ N)
  have hLq := h.labelled_at (by omega : q ≤ N)
  obtain ⟨l, hl, hneg⟩ := h.exists_falling (by omega : q < N) (by omega : e ≤ N)
  obtain ⟨m, hm⟩ : ∃ m, m = (run e).others l := ⟨_, rfl⟩
  rw [← hm] at hneg
  -- a smaller number that may enter where `t` enters does not lower the cost there
  have hcost : first ≤ m → m < t → 0 ≤ (run e).cost l := fun hfree hlt => by
    by_contra hneg
    have := hse.enters_least l hl (hm ▸ hfree) (not_le.1 hneg)
    omega
  by_cases hmq : m ∈ (run q).basics
  · obtain ⟨p, hp, hpm⟩ := mem_basics.1 hmq
    obtain ⟨k, hak, hkb, hmk⟩ := h.enters_of_changed hb hsame haq hqb.le hmq hae heb.le
      (hm ▸ others_not_mem hLe hl)
    have hdir : (run q).direction (column q) m = -(run q).table p (column q) :=
      hpm ▸ direction_basic hLq hp hsq.column
    rcases eq_or_lt_of_le (hmk ▸ hmax k hak hkb : m ≤ t) with heq | hlt
    · -- both factors are negative for `t` itself
      have hlast : l = column e := hLe.others_inj hl hse.column (by rw [← hm, heq, hte])
      have hrow : p = row q := hLq.basic_inj hp hsq.row (by rw [hpm, heq, hleaves])
      rw [hdir, hlast, hrow] at hneg
      have := mul_pos_of_neg_of_neg hse.falls (neg_neg_of_pos hsq.pivot_pos)
      linarith
    · have hsk := h.step k (by omega)
      have hpos : 0 < (run q).table p (column q) := by
        by_contra hle
        have := mul_nonneg (hcost (hmk ▸ hsk.free) hlt) (neg_nonneg.2 (not_lt.1 hle))
        rw [hdir] at hneg
        linarith
      have hzero : (run q).rhs p = 0 := by
        rw [← value_basic hLq hp, hpm, h.value_eq_at hb hsame haq hqb.le, ← h.value_eq_at hb hsame hak hkb.le, hmk]
        exact value_others (h.labelled_at (by omega)) hsk.column
      have := hsq.leaves_least p hp hpos (by rw [hzero, h.degenerate hb hsame haq hqb, zero_div, zero_div])
      omega
  · -- what is not basic where `t` leaves moves only if it enters there
    have hdir := direction_of_not_basic (D := run q) (j := column q) fun i hi him => hmq (mem_basics.2 ⟨i, hi, him⟩)
    have hms : m = (run q).others (column q) := by
      by_contra hms
      rw [hdir, if_neg hms, mul_zero] at hneg
      exact lt_irrefl 0 hneg
    rw [hdir, if_pos hms, mul_one] at hneg
    have hmt : m ≠ t := fun heq => hLq.basic_ne hsq.row hsq.column (by rw [← hleaves, ← heq, hms])
    exact absurd (hcost (hms ▸ hsq.free) (lt_of_le_of_ne (hms ▸ hmax q haq hqb) hmt)) (not_le.2 hneg)

end Recurrence

/-- A run is shorter than the number of sets of basic variables. -/
theorem length_lt (h : Run first N run row column) : N < (r + c).choose r := by
  by_contra hlong
  have hmaps : ∀ k ∈ Finset.range (N + 1), (run k).basics ∈ ((run 0).numbers.powersetCard r) := fun k hk => by
    have hk := Nat.lt_succ_iff.1 (Finset.mem_range.1 hk)
    exact Finset.mem_powersetCard.2 ⟨(h.reaches hk).1.basics_subset, card_basics (h.labelled_at hk)⟩
  have hcard : ((run 0).numbers.powersetCard r).card < (Finset.range (N + 1)).card := by
    have hle : (run 0).numbers.card ≤ r + c := Finset.card_image_le.trans (Finset.card_range _).le
    rw [Finset.card_powersetCard, Finset.card_range]
    exact lt_of_le_of_lt (Nat.choose_le_choose r hle) (by omega)
  obtain ⟨x, hx, y, hy, hne, hsame⟩ := Finset.exists_ne_map_eq_of_card_lt_of_maps_to hcard hmaps
  have hxN := Nat.lt_succ_iff.1 (Finset.mem_range.1 hx)
  have hyN := Nat.lt_succ_iff.1 (Finset.mem_range.1 hy)
  rcases lt_or_gt_of_ne hne with hlt | hgt
  · exact h.not_recurrent hyN hsame hlt
  · exact h.not_recurrent hxN hsame.symm hgt

theorem cons (h : Run first N run row column) (hD : D.Labelled) (hf : D.Feasible) (hs : Step first D i j)
    (hnext : run 0 = D.pivot i j) :
    Run first (N + 1) (fun k => k.casesOn D run) (fun k => k.casesOn i row) fun k => k.casesOn j column where
  labelled := hD
  feasible := hf
  step k hk := by
    cases k with
    | zero => exact hs
    | succ k => exact h.step k (by omega)
  next k hk := by
    cases k with
    | zero => exact hnext
    | succ k => exact h.next k (by omega)

end Run

/-- Why a run gives nothing: the fuel was used up, or some variable can grow for ever. -/
theorem run_of_minimize_none {fuel : ℕ} (hD : D.Labelled) (hf : D.Feasible) (hh : D.Held first)
    (h : D.minimize first fuel = none) :
    (∃ run row column, Run first fuel run row column ∧ run 0 = D) ∨
      ∃ E j, Follows first D E ∧ E.entering first = some j ∧ E.leaving j = none := by
  induction fuel generalizing D with
  | zero =>
    exact Or.inl ⟨fun _ => D, fun _ => 0, fun _ => 0, ⟨hD, hf, by omega, by omega⟩, rfl⟩
  | succ fuel ih =>
    rw [minimize] at h
    split at h
    · simp at h
    next j hj =>
      split at h
      next hi => exact Or.inr ⟨D, j, .refl hf hh, hj, hi⟩
      next i hi =>
        have hs := Step.of_choice hj hi
        have hfollows := (Follows.refl hf hh).pivot hs
        rcases ih (hfollows.relabelled.labelled hD) hfollows.feasible hfollows.held h with
          ⟨run, row, column, hrun, hnext⟩ | ⟨E, l, hE, hl⟩
        · exact Or.inl ⟨_, _, _, hrun.cons hD hf hs hnext, rfl⟩
        · exact Or.inr ⟨E, l, hfollows.trans hE, hl⟩

/-- With as much fuel as there are sets of basic variables, only a cost without a minimum gives nothing. -/
theorem minimize_eq_none {fuel : ℕ} (hD : D.Labelled) (hf : D.Feasible) (hh : D.Held first)
    (hfuel : (r + c).choose r ≤ fuel) (h : D.minimize first fuel = none) (bound : ℚ) :
    ∃ v, D.Solves v ∧ (∀ m, 0 ≤ v m) ∧ (∀ k < r + c, D.label k < first → v (D.label k) = D.value (D.label k)) ∧
      D.price v < bound := by
  rcases run_of_minimize_none hD hf hh h with ⟨run, row, column, hrun, -⟩ | ⟨E, j, hE, hj, hi⟩
  · exact absurd hrun.length_lt (not_lt.2 hfuel)
  obtain ⟨hjc, hfree, hneg, -⟩ := entering_spec hj
  have hgrow := leaving_eq_none hi
  have hlabelled := hE.relabelled.labelled hD
  obtain ⟨drop, hdrop⟩ := hE.equivalent.price
  -- far enough along the direction that nothing stops
  obtain ⟨t, ht0, ht⟩ : ∃ t : ℚ, 0 ≤ t ∧ t * E.cost j < bound - drop := by
    refine ⟨max 0 ((bound - drop - 1) / E.cost j), le_max_left _ _, ?_⟩
    have := mul_le_mul_of_nonpos_right (le_max_right 0 ((bound - drop - 1) / E.cost j)) hneg.le
    rw [div_mul_cancel₀ _ hneg.ne] at this
    linarith
  have hdir : ∀ m, 0 ≤ E.direction j m := fun m => by
    rw [direction, sub_nonneg]
    refine (Finset.sum_nonpos fun i hi => ?_).trans ?_
    · split_ifs
      · exact hgrow i (Finset.mem_range.1 hi)
      · exact le_rfl
    · split_ifs <;> norm_num
  have hvE := solves_along hlabelled hjc (solves_value hlabelled) t
  have hv := (hE.equivalent.solves _).1 hvE
  refine ⟨_, hv, fun m => add_nonneg (value_nonneg hE.feasible m) (mul_nonneg ht0 (hdir m)), fun k hk hlt => ?_, ?_⟩
  · have hstill : E.direction j (D.label k) = 0 := by
      by_cases hmem : D.label k ∈ E.basics
      · obtain ⟨i, hir, him⟩ := mem_basics.1 hmem
        rw [← him, direction_basic hlabelled hir hjc, hE.held i hir (him ▸ hlt) j hjc hfree, neg_zero]
      · rw [direction_of_not_basic fun i hi him => hmem (mem_basics.2 ⟨i, hi, him⟩), if_neg]
        intro heq
        omega
    rw [hstill, mul_zero, add_zero, hE.value_eq hD hh hk hlt]
  · have hprice := hdrop _ hv
    rw [price_along hlabelled hjc, price_value hlabelled] at hprice
    linarith

theorem minimize_withCost_none {fuel : ℕ} {cost : ℕ → ℚ} (hD : D.Labelled) (hf : D.Feasible) (hh : D.Held first)
    (hfuel : (r + c).choose r ≤ fuel) (h : (D.withCost cost).minimize first fuel = none) (bound : ℚ) :
    ∃ v, D.Solves v ∧ (∀ m, 0 ≤ v m) ∧ (∀ k < r + c, D.label k < first → v (D.label k) = D.value (D.label k)) ∧
      D.worth cost v < bound := by
  obtain ⟨v, hv, hv0, hkeep, hlt⟩ := minimize_eq_none (D := D.withCost cost) hD hf hh hfuel h
    (bound - ∑ i ∈ Finset.range r, cost (D.basic i) * D.rhs i)
  have hsolves : D.Solves v := hv
  rw [price_withCost cost hsolves, sub_lt_sub_iff_right] at hlt
  exact ⟨v, hsolves, hv0, hkeep, hlt⟩

end Cycle

end Dictionary

end ActiveSet
