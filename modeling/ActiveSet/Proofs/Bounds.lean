import ActiveSet.LinearProgram
import Mathlib.Algebra.Order.Field.Rat
import Mathlib.Tactic.Linarith

/-! The interval of an unknown: its lower end stays below its upper end, whatever the reduction makes of the rows, so
the end from which a solve starts is a value that the interval allows. -/

namespace ActiveSet

theorem foldlM_option_keeps {σ ι : Type} {p : σ → Prop} {f : σ → ι → Option σ}
    (hstep : ∀ s i t, p s → f s i = some t → p t) {s t : σ} {items : List ι} (hs : p s)
    (h : items.foldlM f s = some t) : p t := by
  induction items generalizing s with
  | nil => exact Option.some_inj.1 h ▸ hs
  | cons i items ih =>
    rw [List.foldlM_cons] at h
    obtain ⟨u, hu, h⟩ := Option.bind_eq_some_iff.1 h
    exact ih (hstep s i u hs hu) h

theorem Fraction.rounded_nonneg {q : ℚ} (hq : 0 ≤ q) : 0 ≤ Fraction.rounded q := by
  simp only [Fraction.rounded, if_neg (not_lt.2 hq)]
  split
  · exact Nat.cast_nonneg _
  · exact Rat.mkRat_nonneg (Int.natCast_nonneg _) _

namespace Interval

theorem give_nonneg : 0 ≤ give := Fraction.rounded_nonneg (Rat.mkRat_nonneg (by decide) _)

/-- No end is on the wrong side of the other. -/
def Ordered (v : Interval) : Prop := ∀ l ∈ v.lower, ∀ u ∈ v.upper, l ≤ u

/-- The values that the ends allow. -/
def Allows (v : Interval) (x : ℚ) : Prop := (∀ l ∈ v.lower, l ≤ x) ∧ ∀ u ∈ v.upper, x ≤ u

variable {v w : Interval} {a give limit rhs : ℚ}

theorem ordered_whole : whole.Ordered := by simp [whole, Ordered]

theorem ordered_point (x : ℚ) : (point x).Ordered := by simp [point, Ordered]

theorem ordered_below (h : v.below give limit = some w) : w.Ordered := by
  simp only [below] at h
  split at h
  · simp [← Option.some_inj.1 h, Ordered]
  · split at h
    · simp at h
    · rw [← Option.some_inj.1 h]
      simp only [Ordered, Option.mem_def, Option.some_inj, forall_eq']
      exact le_max_right _ _

theorem ordered_above (h : v.above give limit = some w) : w.Ordered := by
  simp only [above] at h
  split at h
  · simp [← Option.some_inj.1 h, Ordered]
  · split at h
    · simp at h
    · rw [← Option.some_inj.1 h]
      simp only [Ordered, Option.mem_def, Option.some_inj, forall_eq']
      exact min_le_right _ _

theorem Ordered.cut (hv : v.Ordered) (h : v.cut a rhs = some w) : w.Ordered := by
  simp only [Interval.cut] at h
  split at h
  · exact Option.some_inj.1 h ▸ hv
  · split at h
    · exact ordered_below h
    · exact ordered_above h

theorem Ordered.allows_anchor (hv : v.Ordered) : v.Allows v.anchor := by
  obtain ⟨lower, upper⟩ := v
  cases lower <;> cases upper <;> simp only [Allows, anchor, Option.mem_def, Option.some_inj, forall_eq']
  · simp
  · simp
  · simp
  next l u =>
    have hlu : l ≤ u := by simpa [Ordered] using hv
    split_ifs
    · exact ⟨hlu, le_rfl⟩
    · exact ⟨le_rfl, hlu⟩

end Interval

namespace Row

variable {n : ℕ} {row : Row n} {bounds bounds' : Vec Interval n}

theorem ordered_pressed (h : ∀ j, (bounds j).Ordered) (j : ℕ) : (row.pressed bounds j).Ordered := by
  rw [pressed, Vec.get_ofFn]
  split
  · dsimp only
    split
    · exact h j
    · cases (bounds j).lowEnd (row.coefficients j) with
      | none => exact h j
      | some x => exact Interval.ordered_point x
  · exact Interval.ordered_point 0

theorem ordered_judgeShort (h : ∀ j, (bounds j).Ordered) (hv : row.judgeShort bounds = .absorbed bounds') (j : ℕ) :
    (bounds' j).Ordered := by
  unfold judgeShort at hv
  split at hv
  · split at hv <;> cases hv
    exact h j
  next i _ =>
    split at hv <;> cases hv
    next v hcut =>
      rw [Vec.set, Vec.get_ofFn]
      split
      · split
        · exact (h i).cut hcut
        · exact h j
      · exact Interval.ordered_point 0
  · cases hv

theorem ordered_judge (h : ∀ j, (bounds j).Ordered) (hv : row.judge bounds = .absorbed bounds') (j : ℕ) :
    (bounds' j).Ordered := by
  unfold judge at hv
  split at hv
  · dsimp only at hv
    split at hv
    · cases hv
    · split at hv
      · cases hv
        exact h j
      · split at hv <;> cases hv
        exact ordered_pressed h j
  · exact ordered_judgeShort h hv j

end Row

namespace Reduction

variable {n : ℕ} {s t : Reduction n}

def Ordered (s : Reduction n) : Prop := ∀ j, (s.bounds j).Ordered

theorem Ordered.sweep {judge : Row n → Vec Interval n → Verdict n}
    (hjudge : ∀ {row : Row n} {bounds bounds'}, (∀ j, (bounds j).Ordered) → judge row bounds = .absorbed bounds' →
      ∀ j, (bounds' j).Ordered) (hs : s.Ordered) (h : s.sweep judge = some t) : t.Ordered := by
  obtain ⟨u, hu, h⟩ := Option.bind_eq_some_iff.1 h
  have hstep : u.Ordered := foldlM_option_keeps (p := Ordered) (fun s row t hs ht => by
    dsimp only at ht
    split at ht
    · cases ht
    next hv => exact Option.some_inj.1 ht ▸ hjudge hs hv
    · exact Option.some_inj.1 ht ▸ hs) (s := { s with rows := [] }) hs hu
  exact Option.some_inj.1 h ▸ hstep

theorem Ordered.settle {j : ℕ} (hs : s.Ordered) (h : s.settle j = some t) : t.Ordered := by
  have hfix : ∀ x,
      (({ s with bounds := s.bounds.set j (Interval.point x) } : Reduction n).sweep Row.judgeShort) = some t →
      t.Ordered := by
    intro x hx
    refine Ordered.sweep Row.ordered_judgeShort (fun k => ?_) hx
    rw [Vec.set, Vec.get_ofFn]
    split
    · split
      · exact Interval.ordered_point x
      · exact hs k
    · exact Interval.ordered_point 0
  simp only [Reduction.settle] at h
  split at h
  · exact Option.some_inj.1 h ▸ hs
  · split at h
    · obtain ⟨x, -, hx⟩ := Option.bind_eq_some_iff.1 h
      exact hfix x hx
    · split at h
      · cases hl : (s.bounds j).lower <;> simp only [hl, Option.elim] at h
        · split at h <;> cases h
          exact hs
        · exact hfix _ h
      · split at h
        · cases hl : (s.bounds j).upper <;> simp only [hl, Option.elim] at h
          · split at h <;> cases h
            exact hs
          · exact hfix _ h
        · exact Option.some_inj.1 h ▸ hs

theorem Ordered.round (hs : s.Ordered) (h : s.round = some t) : t.Ordered := by
  obtain ⟨u, hu, h⟩ := Option.bind_eq_some_iff.1 h
  exact foldlM_option_keeps (p := Ordered) (fun _ _ _ hs ht => hs.settle ht) (hs.sweep Row.ordered_judge hu) h

theorem Ordered.rounds {fuel : ℕ} (hs : s.Ordered) (h : rounds fuel s = some t) : t.Ordered := by
  induction fuel generalizing s with
  | zero => exact Option.some_inj.1 h ▸ hs
  | succ fuel ih =>
    obtain ⟨u, hu, h⟩ := Option.bind_eq_some_iff.1 h
    split at h
    · exact Option.some_inj.1 h ▸ hs.round hu
    · exact ih (hs.round hu) h

end Reduction

theorem LinearProgram.ordered_reduced {n : ℕ} {p : LinearProgram n} {s : Reduction n} (h : p.reduced = some s) :
    s.Ordered := by
  obtain ⟨t, ht, h⟩ := Option.map_eq_some_iff.1 h
  have hstart : Reduction.Ordered ⟨p.rows, Vec.ofFn fun _ => Interval.whole, p.cost⟩ := fun j => by
    rw [Vec.get_ofFn]
    split
    · exact Interval.ordered_whole
    · exact Interval.ordered_point 0
  have hrounds : t.Ordered := hstart.rounds ht
  subst h
  exact hrounds

end ActiveSet
