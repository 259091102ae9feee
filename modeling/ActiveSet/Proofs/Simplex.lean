import ActiveSet.LinearProgram.Dictionary
import Mathlib.Algebra.BigOperators.Group.Finset.Piecewise
import Mathlib.Algebra.BigOperators.Ring.Finset
import Mathlib.Algebra.Order.BigOperators.Group.Finset
import Mathlib.Algebra.Order.Field.Rat
import Mathlib.Logic.Equiv.Basic
import Mathlib.Tactic.FieldSimp
import Mathlib.Tactic.LinearCombination
import Mathlib.Tactic.Linarith
import Mathlib.Tactic.Ring

/-! Pivoting: a dictionary and the one after an exchange say the same of the variables, and the cost differs by a
constant. What every pivot of a run keeps, the run keeps; so a run ends in a dictionary whose basic solution is the
cheapest of the solutions that the first one has. -/

namespace ActiveSet

namespace Dictionary

variable {r c : ℕ}

/-- A row of coefficients, one for each other variable, at the values of the variables. -/
def weigh (D : Dictionary r c) (f v : ℕ → ℚ) : ℚ := ∑ l ∈ Finset.range c, f l * v (D.others l)

def Solves (D : Dictionary r c) (v : ℕ → ℚ) : Prop :=
  ∀ i < r, v (D.basic i) + D.weigh (D.table i) v = D.rhs i

def price (D : Dictionary r c) (v : ℕ → ℚ) : ℚ := D.weigh D.cost v

def Feasible (D : Dictionary r c) : Prop := ∀ i < r, 0 ≤ D.rhs i

def label (D : Dictionary r c) (k : ℕ) : ℕ := if k < r then D.basic k else D.others (k - r)

def Labelled (D : Dictionary r c) : Prop := Set.InjOn D.label (Set.Iio (r + c))

variable {D E F : Dictionary r c} {i j k l : ℕ} {v : ℕ → ℚ}

theorem label_basic (D : Dictionary r c) (hi : i < r) : D.label i = D.basic i := if_pos hi

theorem label_others (D : Dictionary r c) (j : ℕ) : D.label (r + j) = D.others j := by simp [label]

section Pivot

theorem basic_pivot (D : Dictionary r c) (i j : ℕ) (hk : k < r) :
    (D.pivot i j).basic k = if k = i then D.others j else D.basic k := Vec.get_set _ hk _ _

theorem others_pivot (D : Dictionary r c) (i j : ℕ) (hl : l < c) :
    (D.pivot i j).others l = if l = j then D.basic i else D.others l := Vec.get_set _ hl _ _

theorem rhs_pivot (D : Dictionary r c) (i j : ℕ) (hk : k < r) :
    (D.pivot i j).rhs k =
      if k = i then D.rhs i / D.table i j else D.rhs k - D.table k j * (D.rhs i / D.table i j) := by
  simp [pivot, hk]

def line (D : Dictionary r c) (i j l : ℕ) : ℚ := if l = j then 1 / D.table i j else D.table i l / D.table i j

theorem table_pivot (D : Dictionary r c) (i j : ℕ) (hk : k < r) (hl : l < c) :
    (D.pivot i j).table k l =
      if k = i then D.line i j l
      else (if l = j then 0 else D.table k l) - D.table k j * D.line i j l := by
  by_cases h : k = i
  · subst h
    simp [pivot, line, hk, hl]
  · simp [pivot, line, hk, hl, h]

theorem cost_pivot (D : Dictionary r c) (i j : ℕ) (hl : l < c) :
    (D.pivot i j).cost l = (if l = j then 0 else D.cost l) - D.cost j * D.line i j l := by
  simp [pivot, line, hl]

theorem weigh_congr {f g : ℕ → ℚ} (D : Dictionary r c) (v : ℕ → ℚ) (h : ∀ l < c, f l = g l) :
    D.weigh f v = D.weigh g v := Finset.sum_congr rfl fun l hl => by rw [h l (Finset.mem_range.1 hl)]

/-- What the elimination of the variable that enters makes of a row of coefficients. -/
theorem weigh_pivot (hj : j < c) (hp : D.table i j ≠ 0) (f v : ℕ → ℚ) :
    (D.pivot i j).weigh (fun l => (if l = j then 0 else f l) - f j * D.line i j l) v =
      D.weigh f v - f j / D.table i j * (v (D.basic i) + D.weigh (D.table i) v) := by
  have term : ∀ l ∈ Finset.range c,
      ((if l = j then 0 else f l) - f j * D.line i j l) * v ((D.pivot i j).others l) =
        f l * v (D.others l) - f j / D.table i j * (D.table i l * v (D.others l)) -
          if l = j then f j / D.table i j * v (D.basic i) else 0 := by
    intro l hl
    rw [others_pivot D i j (Finset.mem_range.1 hl)]
    by_cases h : l = j
    · subst h
      simp only [line, if_pos]
      field_simp
      ring
    · simp only [line, if_neg h]
      ring
  rw [weigh, Finset.sum_congr rfl term, Finset.sum_sub_distrib, Finset.sum_sub_distrib, ← Finset.mul_sum,
    Finset.sum_ite_eq' (Finset.range c) j, if_pos (Finset.mem_range.2 hj)]
  simp only [weigh]
  ring

theorem solves_pivot_iff (hi : i < r) (hj : j < c) (hp : D.table i j ≠ 0) :
    (D.pivot i j).Solves v ↔ D.Solves v := by
  have own : (D.pivot i j).weigh ((D.pivot i j).table i) v =
      (v (D.basic i) + D.weigh (D.table i) v) / D.table i j - v (D.others j) := by
    -- the new row is what elimination makes of minus the entering variable
    let unit : ℕ → ℚ := fun l => if l = j then -1 else 0
    have hline : ∀ l < c, (D.pivot i j).table i l = (if l = j then 0 else unit l) - unit j * D.line i j l := by
      intro l hl
      rw [table_pivot D i j hi hl, if_pos rfl]
      by_cases h : l = j <;> simp [unit, h]
    have hunit : D.weigh unit v = -v (D.others j) := by simp [weigh, unit, ite_mul, hj]
    rw [weigh_congr _ v hline, weigh_pivot hj hp, hunit, show unit j = -1 from if_pos rfl]
    ring
  have other : ∀ k < r, k ≠ i → (D.pivot i j).weigh ((D.pivot i j).table k) v =
      D.weigh (D.table k) v - D.table k j / D.table i j * (v (D.basic i) + D.weigh (D.table i) v) := by
    intro k hk hki
    rw [weigh_congr _ v fun l hl => by rw [table_pivot D i j hk hl, if_neg hki], weigh_pivot hj hp]
  have row : v (D.basic i) + D.weigh (D.table i) v = D.rhs i ↔
      v ((D.pivot i j).basic i) + (D.pivot i j).weigh ((D.pivot i j).table i) v = (D.pivot i j).rhs i := by
    rw [basic_pivot D i j hi, rhs_pivot D i j hi, own, if_pos rfl, if_pos rfl, add_sub_cancel, div_left_inj' hp]
  constructor <;> intro h k hk
  · by_cases hki : k = i
    · exact hki ▸ row.2 (h i hi)
    · have := h k hk
      rw [basic_pivot D i j hk, if_neg hki, rhs_pivot D i j hk, if_neg hki, other k hk hki, row.2 (h i hi)] at this
      linear_combination this
  · by_cases hki : k = i
    · exact hki ▸ row.1 (h i hi)
    · rw [basic_pivot D i j hk, if_neg hki, rhs_pivot D i j hk, if_neg hki, other k hk hki, h i hi]
      linear_combination h k hk

theorem price_pivot (hi : i < r) (hj : j < c) (hp : D.table i j ≠ 0) (hv : D.Solves v) :
    (D.pivot i j).price v = D.price v - D.cost j / D.table i j * D.rhs i := by
  rw [price, weigh_congr _ v fun l hl => cost_pivot D i j hl, weigh_pivot hj hp, hv i hi, price]

theorem label_pivot (hi : i < r) (hk : k < r + c) :
    (D.pivot i j).label k = D.label (Equiv.swap i (r + j) k) := by
  rcases lt_or_ge k r with h | h
  · rw [label_basic _ h, basic_pivot D i j h]
    by_cases hki : k = i
    · rw [if_pos hki, hki, Equiv.swap_apply_left, label_others]
    · rw [if_neg hki, Equiv.swap_apply_of_ne_of_ne hki (by omega), label_basic _ h]
  · obtain ⟨l, rfl⟩ := Nat.exists_eq_add_of_le h
    rw [label_others, others_pivot D i j (by omega)]
    by_cases hl : l = j
    · rw [if_pos hl, hl, Equiv.swap_apply_right, label_basic _ hi]
    · rw [if_neg hl, Equiv.swap_apply_of_ne_of_ne (by omega) (by omega), label_others]

end Pivot

section Choice

variable {number : ℕ → ℕ} {pass : ℕ → Bool} {size : ℕ}

def smallest (number : ℕ → ℕ) : Option ℕ → ℕ → Option ℕ
  | none, k => some k
  | some b, k => if number k < number b then some k else some b

theorem least_eq (size : ℕ) (number : ℕ → ℕ) (pass : ℕ → Bool) :
    least size number pass = ((List.range size).filter pass).foldl (smallest number) none := by
  unfold least
  congr
  funext best k
  cases best <;> rfl

theorem foldl_smallest (ks : List ℕ) (best : Option ℕ) :
    (ks.foldl (smallest number) best = none ↔ ks = [] ∧ best = none) ∧
      ∀ k, ks.foldl (smallest number) best = some k →
        (k ∈ ks ∨ best = some k) ∧ (∀ a ∈ ks, number k ≤ number a) ∧ ∀ b, best = some b → number k ≤ number b := by
  induction ks generalizing best with
  | nil => exact ⟨by simp, fun k hk => ⟨Or.inr hk, by simp, fun b hb => Option.some_inj.1 (hk.symm.trans hb) ▸ le_rfl⟩⟩
  | cons a ks ih =>
    rw [List.foldl_cons]
    obtain ⟨hnone, hsome⟩ := ih (smallest number best a)
    cases best with
    | none =>
      refine ⟨by rw [hnone]; simp [smallest], fun k hk => ?_⟩
      obtain ⟨hmem, hle, hbest⟩ := hsome k hk
      refine ⟨Or.inl ?_, fun a' ha' => ?_, by simp⟩
      · rcases hmem with h | h
        · exact List.mem_cons_of_mem _ h
        · simp [Option.some_inj.1 h]
      · rcases List.mem_cons.1 ha' with rfl | ha'
        · exact hbest _ rfl
        · exact hle a' ha'
    | some b =>
      refine ⟨by rw [hnone, smallest]; split <;> simp, fun k hk => ?_⟩
      obtain ⟨hmem, hle, hbest⟩ := hsome k hk
      have hfirst : number k ≤ number a ∧ number k ≤ number b := by
        rw [smallest] at hbest
        split at hbest
        next h => exact ⟨hbest a rfl, (hbest a rfl).trans h.le⟩
        next h => exact ⟨(hbest b rfl).trans (not_lt.1 h), hbest b rfl⟩
      refine ⟨?_, fun a' ha' => ?_, fun b' hb' => Option.some_inj.1 hb' ▸ hfirst.2⟩
      · rcases hmem with h | h
        · exact Or.inl (List.mem_cons_of_mem _ h)
        · rw [smallest] at h
          split at h
          · exact Or.inl (by simp [Option.some_inj.1 h])
          · exact Or.inr h
      · rcases List.mem_cons.1 ha' with rfl | ha'
        · exact hfirst.1
        · exact hle a' ha'

theorem least_eq_none_iff : least size number pass = none ↔ ∀ k < size, pass k = false := by
  rw [least_eq, (foldl_smallest _ _).1]
  simp [List.filter_eq_nil_iff]

theorem least_spec (h : least size number pass = some k) :
    k < size ∧ pass k = true ∧ ∀ l < size, pass l = true → number k ≤ number l := by
  rw [least_eq] at h
  obtain ⟨hmem, hle, -⟩ := (foldl_smallest _ _).2 k h
  have : k < size ∧ pass k = true := by simpa using hmem
  exact ⟨this.1, this.2, fun l hl hpass => hle l (by simp [hl, hpass])⟩

theorem entering_eq_none_iff {first : ℕ} :
    D.entering first = none ↔ ∀ j < c, first ≤ D.others j → 0 ≤ D.cost j := by
  simp only [entering, least_eq_none_iff, Bool.and_eq_false_iff, decide_eq_false_iff_not, not_lt]
  exact forall₂_congr fun j _ => by rw [or_comm, ← imp_iff_not_or]

/-- The fold takes the minimum of the ratios and the value that it starts from. -/
theorem foldl_smaller (ratio : ℕ → ℚ) (ks : List ℕ) (best : ℚ) :
    let lowest := ks.foldl (fun best i => Fraction.smaller best (ratio i)) best
    lowest ≤ best ∧ (∀ k ∈ ks, lowest ≤ ratio k) ∧ (lowest = best ∨ ∃ k ∈ ks, lowest = ratio k) := by
  induction ks generalizing best with
  | nil => simp
  | cons a ks ih =>
    obtain ⟨hbest, hks, hmem⟩ := ih (Fraction.smaller best (ratio a))
    have hmin : Fraction.smaller best (ratio a) = min best (ratio a) := rfl
    rw [hmin] at hbest hks hmem
    refine ⟨hbest.trans (min_le_left _ _), fun k hk => ?_, ?_⟩
    · rcases List.mem_cons.1 hk with rfl | hk
      · exact hbest.trans (min_le_right _ _)
      · exact hks k hk
    · rcases hmem with h | ⟨k, hk, h⟩
      · rcases min_choice best (ratio a) with h' | h'
        · exact Or.inl (h.trans h')
        · exact Or.inr ⟨a, List.mem_cons_self, h.trans h'⟩
      · exact Or.inr ⟨k, List.mem_cons_of_mem _ hk, h⟩

theorem leaving_spec (h : D.leaving j = some i) :
    i < r ∧ 0 < D.table i j ∧
      (∀ k < r, 0 < D.table k j → D.rhs i / D.table i j ≤ D.rhs k / D.table k j) ∧
        ∀ k < r, 0 < D.table k j → D.rhs k / D.table k j ≤ D.rhs i / D.table i j → D.basic i ≤ D.basic k := by
  simp only [leaving] at h
  split at h
  · simp at h
  next start rest hfalls =>
    set lowest := rest.foldl (fun best i => Fraction.smaller best (D.rhs i / D.table i j))
      (D.rhs start / D.table start j)
    obtain ⟨hi, hpass, hleast⟩ := least_spec h
    obtain ⟨hpos, hle⟩ : 0 < D.table i j ∧ D.rhs i / D.table i j ≤ lowest := by simpa using hpass
    have hlowest : ∀ k < r, 0 < D.table k j → lowest ≤ D.rhs k / D.table k j := by
      intro k hk hk0
      have hmem : k ∈ start :: rest := by
        rw [← hfalls]
        simp [hk, hk0]
      obtain ⟨hstart, hrest, -⟩ := foldl_smaller (fun i => D.rhs i / D.table i j) rest
        (D.rhs start / D.table start j)
      rcases List.mem_cons.1 hmem with rfl | hmem
      · exact hstart
      · exact hrest k hmem
    exact ⟨hi, hpos, fun k hk hk0 => hle.trans (hlowest k hk hk0),
      fun k hk hk0 htie => hleast k hk (by simpa [hk0] using htie.trans hle)⟩

theorem leaving_eq_none (h : D.leaving j = none) : ∀ i < r, D.table i j ≤ 0 := by
  intro i hi
  by_contra hpos
  rw [not_le] at hpos
  simp only [leaving] at h
  split at h
  next hfalls =>
    have hmem : i ∈ (List.range r).filter fun i => decide (0 < D.table i j) := by simp [hi, hpos]
    rw [hfalls] at hmem
    simp at hmem
  next start rest hfalls =>
    obtain ⟨k, hk, hlowest⟩ : ∃ k ∈ start :: rest,
        rest.foldl (fun best i => Fraction.smaller best (D.rhs i / D.table i j)) (D.rhs start / D.table start j) =
          D.rhs k / D.table k j := by
      obtain ⟨-, -, h | ⟨k, hk, h⟩⟩ := foldl_smaller (fun i => D.rhs i / D.table i j) rest
        (D.rhs start / D.table start j)
      · exact ⟨start, List.mem_cons_self, h⟩
      · exact ⟨k, List.mem_cons_of_mem _ hk, h⟩
    rw [← hfalls] at hk
    obtain ⟨hkr, hk0⟩ : k < r ∧ 0 < D.table k j := by simpa using hk
    have := least_eq_none_iff.1 h k hkr
    simp [hk0, hlowest] at this

end Choice

/-- A pivot that a run makes: of the variables that may enter, and of those that may leave, the one with the smallest
number. -/
structure Step (first : ℕ) (D : Dictionary r c) (i j : ℕ) : Prop where
  row : i < r
  column : j < c
  free : first ≤ D.others j
  falls : D.cost j < 0
  enters_least : ∀ l < c, first ≤ D.others l → D.cost l < 0 → D.others j ≤ D.others l
  pivot_pos : 0 < D.table i j
  reached_first : ∀ k < r, 0 < D.table k j → D.rhs i / D.table i j ≤ D.rhs k / D.table k j
  leaves_least : ∀ k < r, 0 < D.table k j → D.rhs k / D.table k j ≤ D.rhs i / D.table i j → D.basic i ≤ D.basic k

theorem entering_spec {first : ℕ} (h : D.entering first = some j) :
    j < c ∧ first ≤ D.others j ∧ D.cost j < 0 ∧
      ∀ l < c, first ≤ D.others l → D.cost l < 0 → D.others j ≤ D.others l := by
  obtain ⟨hj, hpass, hleast⟩ := least_spec h
  simp only [Bool.and_eq_true, decide_eq_true_eq] at hpass hleast
  exact ⟨hj, hpass.2, hpass.1, fun l hl hge hneg => hleast l hl ⟨hneg, hge⟩⟩

theorem Step.of_choice {first : ℕ} (hj : D.entering first = some j) (hi : D.leaving j = some i) : Step first D i j := by
  obtain ⟨hc, hfree, hneg, henters⟩ := entering_spec hj
  obtain ⟨hr, hpos, hfirst, hleaves⟩ := leaving_spec hi
  exact ⟨hr, hc, hfree, hneg, henters, hpos, hfirst, hleaves⟩

/-- What holds of a dictionary and is kept by each pivot holds of the one that a run ends in. -/
theorem minimize_keeps {first fuel : ℕ} {p : Dictionary r c → Prop} (hD : p D)
    (hstep : ∀ D i j, p D → Step first D i j → p (D.pivot i j)) (h : D.minimize first fuel = some E) :
    p E ∧ E.entering first = none := by
  induction fuel generalizing D with
  | zero => simp [minimize] at h
  | succ fuel ih =>
    rw [minimize] at h
    split at h
    next hj => exact Option.some_inj.1 h ▸ ⟨hD, hj⟩
    next j hj =>
      split at h
      · simp at h
      next i hi => exact ih (hstep D i j hD (.of_choice hj hi)) h

section Invariants

def Relabelled (D E : Dictionary r c) : Prop :=
  ∃ σ : Equiv.Perm ℕ, (∀ k, σ k < r + c ↔ k < r + c) ∧ ∀ k < r + c, E.label k = D.label (σ k)

theorem Relabelled.refl (D : Dictionary r c) : D.Relabelled D := ⟨Equiv.refl _, by simp, by simp⟩

theorem Relabelled.trans (h : D.Relabelled E) (h' : E.Relabelled F) : D.Relabelled F := by
  obtain ⟨σ, hσ, hE⟩ := h
  obtain ⟨τ, hτ, hF⟩ := h'
  refine ⟨τ.trans σ, fun k => (hσ _).trans (hτ k), fun k hk => ?_⟩
  rw [hF k hk, hE _ ((hτ k).2 hk), Equiv.trans_apply]

theorem relabelled_pivot (hi : i < r) (hj : j < c) : D.Relabelled (D.pivot i j) := by
  refine ⟨Equiv.swap i (r + j), fun k => ?_, fun k hk => label_pivot hi hk⟩
  rw [Equiv.swap_apply_def]
  split_ifs <;> omega

theorem Relabelled.labelled (h : D.Relabelled E) (hD : D.Labelled) : E.Labelled := by
  obtain ⟨σ, hσ, hE⟩ := h
  intro k hk l hl heq
  rw [hE k hk, hE l hl] at heq
  exact σ.injective (hD ((hσ k).2 hk) ((hσ l).2 hl) heq)

/-- What all variables cost together, by a cost that goes by the number. -/
def worth (D : Dictionary r c) (cost v : ℕ → ℚ) : ℚ :=
  ∑ k ∈ Finset.range (r + c), cost (D.label k) * v (D.label k)

theorem Relabelled.worth_eq (h : D.Relabelled E) (cost v : ℕ → ℚ) : E.worth cost v = D.worth cost v := by
  obtain ⟨σ, hσ, hE⟩ := h
  refine Finset.sum_equiv σ (fun k => by simp [hσ]) fun k hk => ?_
  rw [hE k (Finset.mem_range.1 hk)]

/-- The same solutions, and a cost that differs by a constant. -/
structure Equivalent (D E : Dictionary r c) : Prop where
  solves : ∀ v, E.Solves v ↔ D.Solves v
  price : ∃ drop, ∀ v, D.Solves v → E.price v = D.price v - drop

theorem Equivalent.refl (D : Dictionary r c) : D.Equivalent D := ⟨fun _ => Iff.rfl, 0, by simp⟩

theorem Equivalent.trans (h : D.Equivalent E) (h' : E.Equivalent F) : D.Equivalent F := by
  obtain ⟨k, hk⟩ := h.price
  obtain ⟨l, hl⟩ := h'.price
  refine ⟨fun v => (h'.solves v).trans (h.solves v), k + l, fun v hv => ?_⟩
  rw [hl v ((h.solves v).2 hv), hk v hv]
  ring

theorem equivalent_pivot (hi : i < r) (hj : j < c) (hp : D.table i j ≠ 0) : D.Equivalent (D.pivot i j) :=
  ⟨fun _ => solves_pivot_iff hi hj hp, D.cost j / D.table i j * D.rhs i, fun _ => price_pivot hi hj hp⟩

/-- The ratio test keeps every right-hand side nonnegative. -/
theorem Step.feasible {first : ℕ} (h : Step first D i j) (hD : D.Feasible) : (D.pivot i j).Feasible := by
  intro k hk
  have hlevel : 0 ≤ D.rhs i / D.table i j := div_nonneg (hD i h.row) h.pivot_pos.le
  rw [rhs_pivot D i j hk]
  split_ifs with hki
  · exact hlevel
  · rcases le_or_gt (D.table k j) 0 with hneg | hpos
    · have := mul_nonneg (neg_nonneg.2 hneg) hlevel
      linarith [hD k hk]
    · have := mul_le_mul_of_nonneg_left (h.reached_first k hk hpos) hpos.le
      rw [mul_div_cancel₀ _ hpos.ne'] at this
      linarith

end Invariants

section Value

theorem Labelled.basic_inj (h : D.Labelled) (hi : i < r) (hk : k < r) (heq : D.basic i = D.basic k) : i = k :=
  h (Set.mem_Iio.2 (by omega)) (Set.mem_Iio.2 (by omega)) (by rw [label_basic _ hi, label_basic _ hk, heq])

theorem Labelled.basic_ne (h : D.Labelled) (hi : i < r) (hj : j < c) : D.basic i ≠ D.others j := by
  intro heq
  have : i = r + j := h (Set.mem_Iio.2 (by omega)) (Set.mem_Iio.2 (by omega))
    (by rw [label_basic _ hi, label_others, heq])
  omega

theorem Labelled.others_inj (h : D.Labelled) (hj : j < c) (hl : l < c) (heq : D.others j = D.others l) : j = l := by
  have : r + j = r + l := h (Set.mem_Iio.2 (by omega)) (Set.mem_Iio.2 (by omega))
    (by rw [label_others, label_others, heq])
  omega

theorem value_basic (h : D.Labelled) (hi : i < r) : D.value (D.basic i) = D.rhs i := by
  unfold value
  split
  next k hk =>
    have hki : k < r ∧ D.basic k = D.basic i := by
      simpa using And.intro (List.mem_of_find?_eq_some hk) (List.find?_some hk)
    rw [h.basic_inj hki.1 hi hki.2]
  next hnone =>
    have := List.find?_eq_none.1 hnone i (List.mem_range.2 hi)
    simp at this

theorem value_others (h : D.Labelled) (hj : j < c) : D.value (D.others j) = 0 := by
  unfold value
  split
  next k hk =>
    have hkj : k < r ∧ D.basic k = D.others j := by
      simpa using And.intro (List.mem_of_find?_eq_some hk) (List.find?_some hk)
    exact absurd hkj.2 (h.basic_ne hkj.1 hj)
  · rfl

theorem value_nonneg (h : D.Feasible) (number : ℕ) : 0 ≤ D.value number := by
  unfold value
  split
  next k hk => exact h k (List.mem_range.1 (List.mem_of_find?_eq_some hk))
  · exact le_rfl

theorem weigh_eq_zero {f : ℕ → ℚ} (h : ∀ l < c, f l * v (D.others l) = 0) : D.weigh f v = 0 :=
  Finset.sum_eq_zero fun l hl => h l (Finset.mem_range.1 hl)

theorem solves_value (h : D.Labelled) : D.Solves D.value := by
  intro i hi
  rw [value_basic h hi, weigh_eq_zero fun l hl => by rw [value_others h hl, mul_zero], add_zero]

theorem price_value (h : D.Labelled) : D.price D.value = 0 :=
  weigh_eq_zero fun l hl => by rw [value_others h hl, mul_zero]

/-- No solution is cheaper than the basic one when no variable can enter: those that may grow cost something, and
the others stay at zero. -/
theorem price_value_le {first : ℕ} (h : D.Labelled) (hstop : D.entering first = none)
    (hgrow : ∀ j < c, first ≤ D.others j → 0 ≤ v (D.others j))
    (hstay : ∀ j < c, D.others j < first → v (D.others j) = 0) : D.price D.value ≤ D.price v := by
  rw [price_value h, price, weigh]
  refine Finset.sum_nonneg fun j hj => ?_
  have hj := Finset.mem_range.1 hj
  rcases lt_or_ge (D.others j) first with hlt | hge
  · rw [hstay j hj hlt, mul_zero]
  · exact mul_nonneg (entering_eq_none_iff.1 hstop j hj hge) (hgrow j hj hge)

end Value

section Cost

theorem ascend_sub (k : ℕ) (f : ℕ → ℚ) (s : ℚ) :
    ascend k (fun left i => left - f i) s = s - ∑ i ∈ Finset.range k, f i := by
  induction k with
  | zero => simp
  | succ k ih => rw [ascend_succ, ih, Finset.sum_range_succ, sub_sub]

/-- Up to a constant, the cost of a dictionary made for a cost by number is that cost of all variables. -/
theorem price_withCost (cost : ℕ → ℚ) (hv : D.Solves v) :
    (D.withCost cost).price v = D.worth cost v - ∑ i ∈ Finset.range r, cost (D.basic i) * D.rhs i := by
  have entry : ∀ l < c, (D.withCost cost).cost l =
      cost (D.others l) - ∑ i ∈ Finset.range r, cost (D.basic i) * D.table i l := by
    intro l hl
    simp [withCost, hl, ascend_sub]
  have basics : ∀ i ∈ Finset.range r, cost (D.basic i) * D.rhs i - cost (D.basic i) * v (D.basic i) =
      ∑ l ∈ Finset.range c, cost (D.basic i) * D.table i l * v (D.others l) := by
    intro i hi
    rw [← hv i (Finset.mem_range.1 hi), weigh, mul_add, add_sub_cancel_left, Finset.mul_sum]
    exact Finset.sum_congr rfl fun l _ => (mul_assoc _ _ _).symm
  have places : D.worth cost v = ∑ i ∈ Finset.range r, cost (D.basic i) * v (D.basic i) +
      ∑ l ∈ Finset.range c, cost (D.others l) * v (D.others l) := by
    rw [worth, Finset.sum_range_add]
    congr 1
    · exact Finset.sum_congr rfl fun i hi => by rw [label_basic _ (Finset.mem_range.1 hi)]
    · exact Finset.sum_congr rfl fun l _ => by rw [label_others]
  have exchanged : ∑ l ∈ Finset.range c, (∑ i ∈ Finset.range r, cost (D.basic i) * D.table i l) * v (D.others l) =
      ∑ i ∈ Finset.range r, cost (D.basic i) * D.rhs i -
        ∑ i ∈ Finset.range r, cost (D.basic i) * v (D.basic i) := by
    rw [← Finset.sum_sub_distrib, Finset.sum_congr rfl basics, Finset.sum_comm]
    exact Finset.sum_congr rfl fun l _ => Finset.sum_mul _ _ _
  -- the variables of the dictionary with the new cost are those of `D`
  have same : (D.withCost cost).price v = D.weigh (D.withCost cost).cost v := rfl
  rw [same, weigh_congr D v entry, places, weigh, Finset.sum_congr rfl fun l _ => sub_mul _ _ _,
    Finset.sum_sub_distrib, exchanged]
  ring

end Cost

section Held

/-- The basic variables numbered below `first` move with no variable that may enter. -/
def Held (first : ℕ) (D : Dictionary r c) : Prop :=
  ∀ i < r, D.basic i < first → ∀ j < c, first ≤ D.others j → D.table i j = 0

variable {first : ℕ}

theorem Step.held (h : Step first D i j) (hD : D.Held first) : (D.pivot i j).Held first := by
  intro k hk hlt l hl hge
  rw [basic_pivot D i j hk] at hlt
  rw [others_pivot D i j hl] at hge
  by_cases hki : k = i
  · rw [if_pos hki] at hlt
    exact absurd h.free (not_le.2 hlt)
  · rw [if_neg hki] at hlt
    rw [table_pivot D i j hk hl, if_neg hki, hD k hk hlt j h.column h.free, zero_mul, sub_zero]
    by_cases hlj : l = j
    · rw [if_pos hlj]
    · rw [if_neg hlj] at hge ⊢
      exact hD k hk hlt l hl hge

theorem Held.eq_rhs (hD : D.Held first) (hv : D.Solves v) (hi : i < r) (hlt : D.basic i < first)
    (hstay : ∀ j < c, D.others j < first → v (D.others j) = 0) : v (D.basic i) = D.rhs i := by
  have hzero : D.weigh (D.table i) v = 0 := weigh_eq_zero fun l hl => by
    rcases lt_or_ge (D.others l) first with h | h
    · rw [hstay l hl h, mul_zero]
    · rw [hD i hi hlt l hl h, zero_mul]
  simpa [hzero] using hv i hi

/-- What every dictionary of a run has in common with the first one. -/
structure Follows (first : ℕ) (D E : Dictionary r c) : Prop where
  relabelled : D.Relabelled E
  feasible : E.Feasible
  equivalent : D.Equivalent E
  held : E.Held first
  others_eq : ∀ j < c, D.others j < first → E.others j = D.others j

theorem Follows.refl (hf : D.Feasible) (hh : D.Held first) : Follows first D D :=
  ⟨.refl D, hf, .refl D, hh, fun _ _ _ => rfl⟩

theorem Follows.pivot (h : Follows first D E) (hs : Step first E i j) : Follows first D (E.pivot i j) where
  relabelled := h.relabelled.trans (relabelled_pivot hs.row hs.column)
  feasible := hs.feasible h.feasible
  equivalent := h.equivalent.trans (equivalent_pivot hs.row hs.column hs.pivot_pos.ne')
  held := hs.held h.held
  others_eq l hl hlt := by
    have hlj : l ≠ j := by
      rintro rfl
      exact absurd (h.others_eq l hl hlt ▸ hs.free) (not_le.2 hlt)
    rw [others_pivot E i j hl, if_neg hlj, h.others_eq l hl hlt]

theorem Follows.trans (h : Follows first D E) (h' : Follows first E F) : Follows first D F where
  relabelled := h.relabelled.trans h'.relabelled
  feasible := h'.feasible
  equivalent := h.equivalent.trans h'.equivalent
  held := h'.held
  others_eq l hl hlt := by
    have heq := h.others_eq l hl hlt
    rw [h'.others_eq l hl (heq ▸ hlt), heq]

theorem Follows.solves_value (h : Follows first D E) (hD : D.Labelled) : D.Solves E.value :=
  (h.equivalent.solves _).1 (Dictionary.solves_value (h.relabelled.labelled hD))

theorem Follows.value_eq (h : Follows first D E) (hD : D.Labelled) (hh : D.Held first) (hk : k < r + c)
    (hlt : D.label k < first) : E.value (D.label k) = D.value (D.label k) := by
  have hE := h.relabelled.labelled hD
  have hstay : ∀ j < c, D.others j < first → E.value (D.others j) = 0 := fun j hj hlt => by
    rw [← h.others_eq j hj hlt, value_others hE hj]
  rcases lt_or_ge k r with hkr | hkr
  · rw [label_basic _ hkr] at hlt ⊢
    rw [hh.eq_rhs (h.solves_value hD) hkr hlt hstay, value_basic hD hkr]
  · obtain ⟨j, rfl⟩ := Nat.exists_eq_add_of_le hkr
    rw [label_others] at hlt ⊢
    rw [hstay j (by omega) hlt, value_others hD (by omega)]

/-- What a run ends in: among the nonnegative solutions that give the variables below `first` the values that they
have at the start, its basic solution is one, and the cheapest. -/
theorem minimize_spec {fuel : ℕ} (hD : D.Labelled) (hf : D.Feasible) (hh : D.Held first)
    (h : D.minimize first fuel = some E) :
    Follows first D E ∧
      ∀ v, D.Solves v → (∀ k < r + c, first ≤ D.label k → 0 ≤ v (D.label k)) →
        (∀ k < r + c, D.label k < first → v (D.label k) = D.value (D.label k)) → D.price E.value ≤ D.price v := by
  obtain ⟨hE, hstop⟩ := minimize_keeps (p := Follows first D) (.refl hf hh) (fun _ _ _ hF hs => hF.pivot hs) h
  refine ⟨hE, fun v hv hgrow hkeep => ?_⟩
  have hlabelled := hE.relabelled.labelled hD
  obtain ⟨σ, hσ, hlab⟩ := hE.relabelled
  have hplace : ∀ j < c, E.others j = D.label (σ (r + j)) ∧ σ (r + j) < r + c := fun j hj =>
    ⟨by rw [← label_others, hlab _ (by omega)], (hσ _).2 (by omega)⟩
  have hle : E.price E.value ≤ E.price v := by
    refine price_value_le hlabelled hstop (fun j hj hge => ?_) fun j hj hlt => ?_
    · obtain ⟨heq, hk⟩ := hplace j hj
      exact heq ▸ hgrow _ hk (heq ▸ hge)
    · obtain ⟨heq, hk⟩ := hplace j hj
      rw [heq, hkeep _ hk (heq ▸ hlt), ← hE.value_eq hD hh hk (heq ▸ hlt), ← heq, value_others hlabelled hj]
  obtain ⟨drop, hdrop⟩ := hE.equivalent.price
  rw [hdrop v hv, hdrop _ (hE.solves_value hD)] at hle
  linarith

theorem minimize_withCost {fuel : ℕ} {cost : ℕ → ℚ} (hD : D.Labelled) (hf : D.Feasible) (hh : D.Held first)
    (h : (D.withCost cost).minimize first fuel = some E) :
    Follows first (D.withCost cost) E ∧
      ∀ v, D.Solves v → (∀ k < r + c, first ≤ D.label k → 0 ≤ v (D.label k)) →
        (∀ k < r + c, D.label k < first → v (D.label k) = D.value (D.label k)) →
          D.worth cost E.value ≤ D.worth cost v := by
  obtain ⟨hE, hcheap⟩ := minimize_spec (D := D.withCost cost) hD hf hh h
  refine ⟨hE, fun v hv hgrow hstay => ?_⟩
  have hsolves : D.Solves E.value := hE.solves_value hD
  have hle := hcheap v hv hgrow hstay
  rwa [price_withCost cost hv, price_withCost cost hsolves, sub_le_sub_iff_right] at hle

end Held

section Release

variable {first : ℕ}

/-- The variables numbered below `first` are counted from other values, those of the basic solution. -/
structure Shifted (first : ℕ) (D E : Dictionary r c) : Prop where
  relabelled : D.Relabelled E
  feasible : E.Feasible
  solves : ∀ v, E.Solves v ↔ D.Solves fun m => v m + (D.value m - E.value m)
  value_eq : ∀ m, first ≤ m → E.value m = D.value m

theorem Shifted.refl (h : D.Feasible) : D.Shifted first D := ⟨.refl D, h, by simp, fun _ _ => rfl⟩

theorem Shifted.trans (h : D.Shifted first E) (h' : E.Shifted first F) : D.Shifted first F := by
  refine ⟨h.relabelled.trans h'.relabelled, h'.feasible, fun v => ?_, fun m hm => ?_⟩
  · rw [h'.solves, h.solves]
    simp only [add_assoc, sub_add_sub_cancel']
  · rw [h'.value_eq m hm, h.value_eq m hm]

theorem value_of_not_basic {m : ℕ} (h : ∀ i < r, D.basic i ≠ m) : D.value m = 0 := by
  unfold value
  split
  next k hk => exact absurd (by simpa using List.find?_some hk) (h k (List.mem_range.1 (List.mem_of_find?_eq_some hk)))
  · rfl

/-- Where the right-hand side is zero, an exchange leaves the basic solution as it is. -/
theorem value_pivot (hD : D.Labelled) (hi : i < r) (hj : j < c) (hzero : D.rhs i = 0) (m : ℕ) :
    (D.pivot i j).value m = D.value m := by
  have hE := (relabelled_pivot hi hj).labelled hD
  have hrhs : ∀ k < r, k ≠ i → (D.pivot i j).rhs k = D.rhs k := fun k hk hki => by
    rw [rhs_pivot D i j hk, if_neg hki, hzero, zero_div, mul_zero, sub_zero]
  by_cases hm : ∃ k < r, D.basic k = m
  · obtain ⟨k, hk, rfl⟩ := hm
    rw [value_basic hD hk]
    by_cases hki : k = i
    · subst hki
      have := value_others hE hj
      rwa [others_pivot D k j hj, if_pos rfl, ← hzero] at this
    · have := value_basic hE hk
      rwa [basic_pivot D i j hk, if_neg hki, hrhs k hk hki] at this
  · rw [value_of_not_basic fun k hk hkm => hm ⟨k, hk, hkm⟩]
    by_cases hmj : m = D.others j
    · have := value_basic hE hi
      rwa [basic_pivot D i j hi, if_pos rfl, rhs_pivot D i j hi, if_pos rfl, hzero, zero_div, ← hmj] at this
    · refine value_of_not_basic fun k hk => ?_
      rw [basic_pivot D i j hk]
      split_ifs
      · exact fun h => hmj h.symm
      · exact fun h => hm ⟨k, hk, h⟩

/-- Setting the right-hand side of a variable to zero counts it from the value that it has. -/
theorem shifted_set (hD : D.Labelled) (hf : D.Feasible) (hi : i < r) (hlt : D.basic i < first) :
    D.Shifted first { D with rhs := D.rhs.set i 0 } := by
  set E : Dictionary r c := { D with rhs := D.rhs.set i 0 }
  have hlabel : D.Relabelled E := .refl D
  have hE : E.Labelled := hD
  have hrhs : ∀ k < r, E.rhs k = if k = i then 0 else D.rhs k := fun k hk => Vec.get_set _ hk _ _
  have hgap : ∀ m, D.value m - E.value m = if m = D.basic i then D.rhs i else 0 := by
    intro m
    by_cases hm : ∃ k < r, D.basic k = m
    · obtain ⟨k, hk, rfl⟩ := hm
      have hvalue : E.value (D.basic k) = E.rhs k := value_basic hE hk
      rw [value_basic hD hk, hvalue, hrhs k hk]
      by_cases hki : k = i
      · simp [hki]
      · rw [if_neg hki, if_neg fun h => hki (hD.basic_inj hk hi h), sub_self]
    · have hnot : ∀ k < r, D.basic k ≠ m := fun k hk hkm => hm ⟨k, hk, hkm⟩
      have hvalue : E.value m = 0 := value_of_not_basic hnot
      rw [value_of_not_basic hnot, hvalue, if_neg (hnot i hi).symm, sub_zero]
  refine ⟨hlabel, fun k hk => ?_, fun v => ?_, fun m hm => ?_⟩
  · rw [hrhs k hk]
    split_ifs
    · exact le_rfl
    · exact hf k hk
  · have hweigh : ∀ f, D.weigh f (fun m => v m + (D.value m - E.value m)) = E.weigh f v := fun f =>
      Finset.sum_congr rfl fun l hl => by
        beta_reduce
        rw [hgap, if_neg (hD.basic_ne hi (Finset.mem_range.1 hl)).symm, add_zero]
    refine forall₂_congr fun k hk => ?_
    have hrow : v (E.basic k) + E.weigh (E.table k) v = v (D.basic k) + E.weigh (D.table k) v := rfl
    beta_reduce
    rw [hweigh, hgap, hrhs k hk, hrow]
    by_cases hki : k = i
    · subst hki
      rw [if_pos rfl, if_pos rfl]
      exact ⟨fun h => by linear_combination h, fun h => by linear_combination h⟩
    · rw [if_neg hki, if_neg fun h => hki (hD.basic_inj hk hi h), add_zero]
  · have := hgap m
    rw [if_neg (by omega)] at this
    linarith

theorem shifted_pivot (hD : D.Labelled) (hf : D.Feasible) (hi : i < r) (hj : j < c) (hp : D.table i j ≠ 0)
    (hzero : D.rhs i = 0) : D.Shifted first (D.pivot i j) := by
  have hvalue := value_pivot hD hi hj hzero
  refine ⟨relabelled_pivot hi hj, fun k hk => ?_, fun v => ?_, fun m _ => hvalue m⟩
  · rw [rhs_pivot D i j hk, hzero, zero_div, mul_zero, sub_zero]
    split_ifs
    · exact le_rfl
    · exact hf k hk
  · simp only [hvalue, sub_self, add_zero]
    exact solves_pivot_iff hi hj hp

/-- What the releases of the first `t` places have done. -/
theorem release_ascend (hD : D.Labelled) (hf : D.Feasible) {t : ℕ} (ht : t ≤ r) :
    let E := ascend t (release first) D
    D.Shifted first E ∧
      ∀ i < t, E.basic i < first → ∀ j < c, first ≤ E.others j → E.table i j = 0 := by
  refine ascend_keeps (p := fun t E => D.Shifted first E ∧
    ∀ i < t, E.basic i < first → ∀ j < c, first ≤ E.others j → E.table i j = 0) ⟨.refl hf, by omega⟩ t ?_
  intro t E ht' ⟨hs, hheld⟩
  have hE := hs.relabelled.labelled hD
  have htr : t < r := by omega
  unfold release
  split
  next j hj =>
    have hmem : j < c := List.mem_range.1 (List.mem_of_find?_eq_some hj)
    obtain ⟨hp, hge⟩ : E.table t j ≠ 0 ∧ first ≤ E.others j := by simpa using List.find?_some hj
    split
    next hlt =>
      -- counted from zero first, so that the exchange moves no value
      set G : Dictionary r c := { E with rhs := E.rhs.set t 0 }
      have hG := shifted_set hE hs.feasible htr hlt
      have hzero : G.rhs t = 0 := by
        rw [show G.rhs t = if t = t then 0 else E.rhs t from Vec.get_set _ htr _ _, if_pos rfl]
      refine ⟨(hs.trans hG).trans (shifted_pivot hE hG.feasible htr hmem hp hzero), ?_⟩
      intro i hi hlti l hl hgel
      have hir : i < r := by omega
      have hcols : G.others = E.others := rfl
      rw [basic_pivot G t j hir] at hlti
      rw [others_pivot G t j hl] at hgel
      by_cases hit : i = t
      · rw [if_pos hit] at hlti
        exact absurd hge (not_le.2 hlti)
      · rw [if_neg hit] at hlti
        have hcol : G.table i j = 0 := hheld i (by omega) hlti j hmem hge
        rw [table_pivot G t j hir hl, if_neg hit, hcol, zero_mul, sub_zero]
        by_cases hlj : l = j
        · rw [if_pos hlj]
        · rw [if_neg hlj] at hgel ⊢
          exact hheld i (by omega) hlti l hl hgel
    next hge' =>
      refine ⟨hs, fun i hi hlti l hl hgel => ?_⟩
      rcases Nat.lt_succ_iff_lt_or_eq.1 hi with hi | rfl
      · exact hheld i hi hlti l hl hgel
      · exact absurd hlti hge'
  next hnone =>
    refine ⟨hs, fun i hi hlti l hl hgel => ?_⟩
    rcases Nat.lt_succ_iff_lt_or_eq.1 hi with hi | rfl
    · exact hheld i hi hlti l hl hgel
    · have := List.find?_eq_none.1 hnone l (List.mem_range.2 hl)
      simpa [hgel] using this

end Release

end Dictionary

end ActiveSet
