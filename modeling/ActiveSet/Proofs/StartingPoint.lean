import ActiveSet.Proofs.Columns
import ActiveSet.Proofs.FeasiblePoint

/-! The point that a solve may start from, found for arrays of doubles. The arrays are looked at in a fixed order; what
passes is a linear program with their exact values, and the point is the solution of that program in doubles. -/

namespace ActiveSet

namespace Intake

open LinearProgram

theorem mapM_eq_some_iff {γ δ : Type} {f : γ → Option δ} {xs : List γ} {ys : List δ} :
    xs.mapM f = some ys ↔ List.Forall₂ (fun x y => f x = some y) xs ys := by
  induction xs generalizing ys with
  | nil => cases ys <;> simp
  | cons x xs ih =>
    cases ys with
    | nil => simp [Option.bind_eq_some_iff]
    | cons y ys =>
      rw [List.mapM_cons, List.forall₂_cons, ← ih]
      simp [Option.bind_eq_some_iff]

theorem mapM_eq_ok_iff {γ δ : Type} {f : γ → Except Fault δ} {xs : List γ} {ys : List δ} :
    xs.mapM f = .ok ys ↔ List.Forall₂ (fun x y => f x = .ok y) xs ys := by
  induction xs generalizing ys with
  | nil => cases ys <;> simp [pure, Except.pure]
  | cons x xs ih =>
    simp only [List.mapM_cons, bind_eq_ok]
    cases ys with
    | nil => simp [pure, Except.pure]
    | cons y ys =>
      rw [List.forall₂_cons, ← ih]
      simp [pure, Except.pure]

theorem mapM_error {γ δ : Type} {f : γ → Except Fault δ} {xs : List γ} {cause : Fault}
    (h : xs.mapM f = .error cause) : ∃ x, f x = .error cause := by
  induction xs with
  | nil => cases h
  | cons x xs ih =>
    rw [List.mapM_cons] at h
    rcases bind_eq_error.1 h with h | ⟨y, -, h⟩
    · exact ⟨x, h⟩
    · rcases bind_eq_error.1 h with h | ⟨ys, -, h⟩
      · exact ih h
      · cases h

variable {n : ℕ}

/-- The exact values of some doubles. -/
def Reads (entries : List Float) (v : Vec ℚ n) : Prop :=
  List.Forall₂ (fun a q => Fraction.ofDouble? a = some q) entries v.toList

theorem fractions_eq_ok {entries : List Float} {v : Vec ℚ n} : fractions n entries = .ok v ↔ Reads entries v := by
  have hsome : (entries.mapM Fraction.ofDouble?).bind (Vec.ofList? n) = some v ↔ Reads entries v := by
    simp only [Reads, ← mapM_eq_some_iff, Option.bind_eq_some_iff, Vec.ofList?_eq_some, exists_eq_right]
  rw [← hsome]
  unfold fractions
  split
  next w hw => rw [hw, Except.ok.injEq, Option.some.injEq]
  next hnone => simp [hnone]

def costs (cost : Option (Tensor Float)) (n : ℕ) : List Float := (cost.map Tensor.flatten).getD (List.replicate n 0)

/-- The program that the data ask for: the arrays fit, all entries are finite, and the program has their exact
values. -/
structure Asks (A b : Tensor Float) (cost : Option (Tensor Float)) (margin : Float) (p : LinearProgram n) : Prop where
  shape : A.shape = [b.size, n]
  nonempty : n ≠ 0
  rows : p.rows.length = b.size
  coefficients : ∀ i (hi : i < p.rows.length), Reads (A.slab i [n]).flatten p.rows[i].coefficients
  rhs : List.Forall₂ (fun bound row => Fraction.ofDouble? (bound - margin) = some row.rhs) b.flatten p.rows
  cost : Reads (costs cost n) p.cost

variable {A b : Tensor Float} {cost : Option (Tensor Float)} {margin : Float}

theorem Asks.length_costs {p : LinearProgram n} (h : Asks A b cost margin p) : (costs cost n).length = n := by
  rw [h.cost.length_eq]
  simp [Vec.toList]

def found (p : LinearProgram n) : Except Fault (List Float) :=
  match p.solve pivotLimit with
  | some x => .ok (x.toList.map Fraction.toDouble)
  | none => .error .noPoint

theorem fractions_error {entries : List Float} {cause : Fault} (h : fractions n entries = .error cause) :
    cause = .undefinedData := by
  unfold fractions at h
  split at h
  · simp at h
  · exact (Except.error.inj h).symm

/-- What is solved once the shapes have been looked at. -/
def program (A b : Tensor Float) (cost : List Float) (margin : Float) (n : ℕ) : Except Fault (LinearProgram n) := do
  let rhs ← fractions b.size (b.flatten.map (· - margin))
  let rows ← (List.range b.size).mapM fun i => do
    let coefficients ← fractions n (A.slab i [n]).flatten
    return (⟨coefficients, rhs i⟩ : Row n)
  let cost ← fractions n cost
  return ⟨rows, cost⟩

theorem feasiblePoint_eq (hshape : A.shape = [b.size, n]) : feasiblePoint A b cost margin =
    if (costs cost n).length ≠ n then .error .costShape
    else if n = 0 then .error .undefinedData
    else program A b (costs cost n) margin n >>= found := by
  unfold feasiblePoint
  split
  next m k h =>
    obtain ⟨rfl, rfl⟩ : b.size = m ∧ n = k := by simpa [hshape] using h
    rw [if_neg (not_not.2 rfl)]
    change (if (costs cost n).length ≠ n then _ else _) = _
    split
    · rfl
    · change (if n = 0 then _ else _) = _
      split
      · rfl
      · simp only [program, bind_assoc, pure_bind]
        rfl
  next h => exact absurd hshape (h _ _)

theorem rows_eq_ok {rhs : Vec ℚ b.size} {rows : List (Row n)} :
    ((List.range b.size).mapM fun i => do
      let coefficients ← fractions n (A.slab i [n]).flatten
      return (⟨coefficients, rhs i⟩ : Row n)) = .ok rows ↔
    rows.length = b.size ∧ ∀ i (hi : i < rows.length),
      Reads (A.slab i [n]).flatten rows[i].coefficients ∧ rows[i].rhs = rhs i := by
  have hrow : ∀ i (row : Row n), ((do
      let coefficients ← fractions n (A.slab i [n]).flatten
      return (⟨coefficients, rhs i⟩ : Row n)) : Except Fault (Row n)) = .ok row ↔
        Reads (A.slab i [n]).flatten row.coefficients ∧ row.rhs = rhs i := by
    intro i row
    rw [bind_eq_ok]
    constructor
    · rintro ⟨c, hc, hpure⟩
      obtain rfl := Except.ok.inj hpure
      exact ⟨fractions_eq_ok.1 hc, rfl⟩
    · rintro ⟨hc, hrhs⟩
      exact ⟨_, fractions_eq_ok.2 hc, by rw [← hrhs]; rfl⟩
  rw [mapM_eq_ok_iff, List.forall₂_iff_get]
  simp only [List.length_range, List.get_eq_getElem, List.getElem_range, hrow]
  exact ⟨fun ⟨hlen, h⟩ => ⟨hlen.symm, fun i hi => h i (hlen ▸ hi) hi⟩,
    fun ⟨hlen, h⟩ => ⟨hlen.symm, fun i _ hi => h i hi⟩⟩

theorem map_rhs_eq_toList {m : ℕ} {rhs : Vec ℚ m} {rows : List (Row n)} (hlen : rows.length = m) :
    rows.map Row.rhs = rhs.toList ↔ ∀ i (hi : i < rows.length), rows[i].rhs = rhs i := by
  rw [Vec.toList_eq_map]
  constructor
  · intro h i hi
    have := congrArg (fun l => l[i]?) h
    simpa [hi, hlen ▸ hi] using this
  · intro h
    refine List.ext_getElem (by simpa using hlen) fun i hi _ => ?_
    simpa using h i (by simpa using hi)

theorem program_eq_ok {p : LinearProgram n} (hshape : A.shape = [b.size, n]) (hn : n ≠ 0) :
    program A b (costs cost n) margin n = .ok p ↔ Asks A b cost margin p := by
  have hrhs : ∀ rhs : Vec ℚ b.size, p.rows.map Row.rhs = rhs.toList →
      (Reads (b.flatten.map (· - margin)) rhs ↔
        List.Forall₂ (fun bound row => Fraction.ofDouble? (bound - margin) = some row.rhs) b.flatten p.rows) := by
    intro rhs h
    rw [Reads, ← h, List.forall₂_map_left_iff, List.forall₂_map_right_iff]
  unfold program
  constructor
  · intro h
    obtain ⟨rhs, hread, h⟩ := bind_eq_ok.1 h
    obtain ⟨rows, hrows, h⟩ := bind_eq_ok.1 h
    obtain ⟨c, hc, h⟩ := bind_eq_ok.1 h
    obtain rfl := Except.ok.inj h
    obtain ⟨hlen, hrows⟩ := rows_eq_ok.1 hrows
    have hlist := (map_rhs_eq_toList hlen).2 fun i hi => (hrows i hi).2
    exact ⟨hshape, hn, hlen, fun i hi => (hrows i hi).1, (hrhs rhs hlist).1 (fractions_eq_ok.1 hread),
      fractions_eq_ok.1 hc⟩
  · intro h
    obtain ⟨rhs, hlist⟩ : ∃ rhs : Vec ℚ b.size, p.rows.map Row.rhs = rhs.toList := by
      refine ⟨Vec.ofFn fun i => (p.rows.map Row.rhs).getD i 0, (map_rhs_eq_toList h.rows).2 fun i hi => ?_⟩
      rw [Vec.get_ofFn_of_lt _ (h.rows ▸ hi)]
      simp [hi]
    refine bind_eq_ok.2 ⟨rhs, fractions_eq_ok.2 ((hrhs rhs hlist).2 h.rhs), bind_eq_ok.2 ⟨p.rows, ?_,
      bind_eq_ok.2 ⟨p.cost, fractions_eq_ok.2 h.cost, rfl⟩⟩⟩
    exact rows_eq_ok.2 ⟨h.rows, fun i hi => ⟨h.coefficients i hi, (map_rhs_eq_toList h.rows).1 hlist i hi⟩⟩

theorem program_error {cause : Fault} (h : program A b (costs cost n) margin n = .error cause) :
    cause = .undefinedData := by
  unfold program at h
  rcases bind_eq_error.1 h with h | ⟨rhs, -, h⟩
  · exact fractions_error h
  rcases bind_eq_error.1 h with h | ⟨rows, -, h⟩
  · obtain ⟨i, h⟩ := mapM_error h
    rcases bind_eq_error.1 h with h | ⟨_, -, h⟩
    · exact fractions_error h
    · simp [pure, Except.pure] at h
  · rcases bind_eq_error.1 h with h | ⟨_, -, h⟩
    · exact fractions_error h
    · simp [pure, Except.pure] at h

/-- The arrays are looked at in this order: their shapes, the length of the cost, then the entries. What passes is
solved. -/
theorem feasiblePoint_cases (A b : Tensor Float) (cost : Option (Tensor Float)) (margin : Float) :
    (feasiblePoint A b cost margin = .error .rowsShape ∧ ∀ n, A.shape ≠ [b.size, n]) ∨
      ∃ n, A.shape = [b.size, n] ∧
        (feasiblePoint A b cost margin = .error .costShape ∧ (costs cost n).length ≠ n ∨
          feasiblePoint A b cost margin = .error .undefinedData ∧ (costs cost n).length = n ∧
              (∀ p : LinearProgram n, ¬Asks A b cost margin p) ∨
            ∃ p : LinearProgram n, Asks A b cost margin p ∧ feasiblePoint A b cost margin = found p) := by
  by_cases hshape : ∃ n, A.shape = [b.size, n]
  swap
  · push Not at hshape
    refine Or.inl ⟨?_, hshape⟩
    unfold feasiblePoint
    split
    next m n h =>
      rw [if_pos fun hb => hshape n (by rw [h, hb])]
      rfl
    · rfl
  obtain ⟨n, hshape⟩ := hshape
  refine Or.inr ⟨n, hshape, ?_⟩
  rw [feasiblePoint_eq hshape]
  by_cases hlen : (costs cost n).length = n
  swap
  · exact Or.inl ⟨if_pos hlen, hlen⟩
  rw [if_neg (not_not.2 hlen)]
  by_cases hn : n = 0
  · exact Or.inr (Or.inl ⟨if_pos hn, hlen, fun p hp => hp.nonempty hn⟩)
  rw [if_neg hn]
  -- from here on the shapes are right, and only an entry can still be refused
  cases hprogram : program A b (costs cost n) margin n with
  | ok p => exact Or.inr (Or.inr ⟨p, (program_eq_ok hshape hn).1 hprogram, rfl⟩)
  | error cause =>
    refine Or.inr (Or.inl ⟨congrArg _ (program_error hprogram), hlen, fun p hp => ?_⟩)
    rw [(program_eq_ok hshape hn).2 hp] at hprogram
    cases hprogram

theorem found_eq_ok {p : LinearProgram n} {xs : List Float} :
    found p = .ok xs ↔ ∃ x, p.solve pivotLimit = some x ∧ x.toList.map Fraction.toDouble = xs := by
  unfold found
  split
  next x hx => simp [hx]
  next hnone => simp [hnone]

theorem found_eq_error {p : LinearProgram n} {cause : Fault} :
    found p = .error cause ↔ cause = .noPoint ∧ p.solve pivotLimit = none := by
  unfold found
  split
  next x hx => simp [hx]
  next hnone => simp [hnone, eq_comm]

/-- Why a program has no solution: its numbers are too large, the reduction is left with nothing, the pivots may not
suffice, no point meets what the reduction has left, or the cost has no minimum over it. -/
def Unsolved (p : LinearProgram n) : Prop :=
  p.moderate = false ∨ p.cleared.reduced = none ∨ ∃ s, p.cleared.reduced = some s ∧
    (pivotLimit < pivots s ∨ (∀ y, ¬s.Meets 0 y) ∨ ∀ bound, ∃ y, s.Meets Interval.give y ∧ s.price y < bound)

theorem unsolved_of_none {p : LinearProgram n} (h : p.solve pivotLimit = none) : Unsolved p := by
  cases hmoderate : p.moderate with
  | false => exact Or.inl hmoderate
  | true =>
    cases hs : p.cleared.reduced with
    | none => exact Or.inr (Or.inl hs)
    | some s =>
      refine Or.inr (Or.inr ⟨s, hs, ?_⟩)
      rcases lt_or_ge pivotLimit (pivots s) with hlimit | hlimit
      · exact Or.inl hlimit
      rcases solve_decides hmoderate hs hlimit with ⟨x, hx, -⟩ | ⟨-, hnone⟩
      · rw [h] at hx
        cases hx
      · exact Or.inr hnone

/-- A point that is returned solves the program that the data ask for, in doubles: its exact values meet what the
reduction has left of the program, each row up to what may be missed, and are no dearer than any that meet all of it
exactly. -/
theorem feasiblePoint_meets {xs : List Float} (h : feasiblePoint A b cost margin = .ok xs) :
    ∃ n, ∃ (p : LinearProgram n) (x : Vec ℚ n) (s : Reduction n), Asks A b cost margin p ∧
      x.toList.map Fraction.toDouble = xs ∧ p.cleared.reduced = some s ∧ s.Meets Interval.give x ∧
        ∀ y, s.Meets 0 y → s.price x ≤ s.price y := by
  rcases feasiblePoint_cases A b cost margin with ⟨h', -⟩ | ⟨n, -, ⟨h', -⟩ | ⟨h', -⟩ | ⟨p, hp, h'⟩⟩
  · rw [h] at h'
    cases h'
  · rw [h] at h'
    cases h'
  · rw [h] at h'
    cases h'
  · obtain ⟨x, hx, hxs⟩ := found_eq_ok.1 (h'.symm.trans h)
    obtain ⟨s, hs, hmeets, hcheap⟩ := solve_meets hx
    exact ⟨n, p, x, s, hp, hxs, hs, hmeets, hcheap⟩

def wedge : Tensor Float := ⟨[2, 2], #[-1, -1, 1, -1]⟩

/-- The least sum of two unknowns that is at least one, where the first is at most one above the second. -/
theorem feasiblePoint_meets_wedge : ∃ xs, feasiblePoint wedge (.ofList [-1, 1]) (some (.ofList [1, 1])) 0 = .ok xs ∧
    ∃ n, ∃ (p : LinearProgram n) (x : Vec ℚ n) (s : Reduction n),
      Asks wedge (.ofList [-1, 1]) (some (.ofList [1, 1])) 0 p ∧ x.toList.map Fraction.toDouble = xs ∧
        p.cleared.reduced = some s ∧ s.Meets Interval.give x ∧ ∀ y, s.Meets 0 y → s.price x ≤ s.price y := by
  have hok : (feasiblePoint wedge (.ofList [-1, 1]) (some (.ofList [1, 1])) 0).toBool = true := by decide +kernel
  cases h : feasiblePoint wedge (.ofList [-1, 1]) (some (.ofList [1, 1])) 0 with
  | error cause =>
    rw [h] at hok
    cases hok
  | ok xs => exact ⟨xs, rfl, feasiblePoint_meets h⟩

/-- Why no point is returned. The shapes are looked at first, then the length of the cost, then the entries; after that
only a program without a solution is refused. -/
theorem feasiblePoint_refused {cause : Fault} (h : feasiblePoint A b cost margin = .error cause) :
    cause = .rowsShape ∧ (∀ n, A.shape ≠ [b.size, n]) ∨
      ∃ n, A.shape = [b.size, n] ∧
        (cause = .costShape ∧ (costs cost n).length ≠ n ∨
          (costs cost n).length = n ∧
            (cause = .undefinedData ∧ (∀ p : LinearProgram n, ¬Asks A b cost margin p) ∨
              cause = .noPoint ∧ ∃ p : LinearProgram n, Asks A b cost margin p ∧ Unsolved p)) := by
  rcases feasiblePoint_cases A b cost margin with ⟨h', hshape⟩ | ⟨n, hshape, ⟨h', hlen⟩ | ⟨h', hlen, hnone⟩ |
    ⟨p, hp, h'⟩⟩
  · exact Or.inl ⟨Except.error.inj (h.symm.trans h'), hshape⟩
  · exact Or.inr ⟨n, hshape, Or.inl ⟨Except.error.inj (h.symm.trans h'), hlen⟩⟩
  · exact Or.inr ⟨n, hshape, Or.inr ⟨hlen, Or.inl ⟨Except.error.inj (h.symm.trans h'), hnone⟩⟩⟩
  · obtain ⟨hcause, hsolve⟩ := found_eq_error.1 (h'.symm.trans h)
    exact Or.inr ⟨n, hshape, Or.inr ⟨hp.length_costs, Or.inr ⟨hcause, p, hp, unsolved_of_none hsolve⟩⟩⟩

def cleft : Tensor Float := ⟨[3, 2], #[-1, -1, 1, 2, 1, -1]⟩

theorem feasiblePoint_refused_cleft : feasiblePoint cleft (.ofList [-2, 1, -5]) none 0 = .error .noPoint ∧
    ∃ n, cleft.shape = [3, n] ∧ ∃ p : LinearProgram n, Asks cleft (.ofList [-2, 1, -5]) none 0 p ∧ Unsolved p := by
  have hcause : (match feasiblePoint cleft (.ofList [-2, 1, -5]) none 0 with
      | .error cause => some cause
      | .ok _ => none) = some .noPoint := by decide +kernel
  cases h : feasiblePoint cleft (.ofList [-2, 1, -5]) none 0 with
  | ok xs =>
    rw [h] at hcause
    cases hcause
  | error cause =>
    rw [h] at hcause
    obtain rfl : cause = .noPoint := Option.some.inj hcause
    refine ⟨rfl, ?_⟩
    rcases feasiblePoint_refused h with ⟨hother, -⟩ | ⟨n, hshape, ⟨hother, -⟩ | ⟨-, ⟨hother, -⟩ | ⟨-, hp⟩⟩⟩
    · cases hother
    · cases hother
    · cases hother
    · exact ⟨n, hshape, hp⟩

end Intake

end ActiveSet
