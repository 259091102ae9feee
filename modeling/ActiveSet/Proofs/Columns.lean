import ActiveSet.Proofs.Orthogonal

/-! The working columns stay factored. Whatever columns are appended, by rotations or by a reflection, and
whichever are deleted, `Q` is orthogonal, `R` is upper triangular and lives in its leading block, and
`Q1 R1` is the list of columns that were appended and not deleted. -/

namespace ActiveSet

noncomputable section
open Exact

variable {n k : ℕ}

theorem map_eq_ok {γ δ : Type} {e : Except Fault γ} {f : γ → δ} {d : δ} :
    e.map f = .ok d ↔ ∃ c, e = .ok c ∧ f c = d := by
  cases e <;> simp [Except.map]

theorem bind_eq_ok {γ δ : Type} {e : Except Fault γ} {f : γ → Except Fault δ} {d : δ} :
    (e >>= f) = .ok d ↔ ∃ c, e = .ok c ∧ f c = .ok d := by
  cases e <;> simp [Bind.bind, Except.bind]

theorem map_eq_error {γ δ : Type} {e : Except Fault γ} {f : γ → δ} {cause : Fault} :
    e.map f = .error cause ↔ e = .error cause := by
  cases e <;> simp [Except.map]

theorem bind_eq_error {γ δ : Type} {e : Except Fault γ} {f : γ → Except Fault δ} {cause : Fault} :
    (e >>= f) = .error cause ↔ e = .error cause ∨ ∃ c, e = .ok c ∧ f c = .error cause := by
  cases e <;> simp [Bind.bind, Except.bind]

theorem foldlM_related {σ τ ι : Type} {p : σ → τ → Prop} {f : σ → ι → Except Fault σ} {g : τ → ι → τ}
    (hstep : ∀ s t i s', p s t → f s i = .ok s' → p s' (g t i)) {ops : List ι} {s s' : σ} {t : τ} (hs : p s t)
    (h : ops.foldlM f s = .ok s') : p s' (ops.foldl g t) := by
  induction ops generalizing s t with
  | nil =>
    obtain rfl : s = s' := Except.ok.inj h
    exact hs
  | cons i ops ih =>
    rw [List.foldlM_cons] at h
    cases hi : f s i with
    | error cause =>
      rw [hi] at h
      cases h
    | ok r =>
      rw [hi] at h
      exact ih (hstep s t i r hs hi) h

def Mat.cols (A : Mat ℝ n k) : List (Vec ℝ n) := (List.range k).map A.col

theorem Mat.getElem?_cols {A : Mat ℝ n k} {j : ℕ} {a : Vec ℝ n} :
    A.cols[j]? = some a ↔ j < k ∧ A.col j = a := by
  rw [Mat.cols, List.getElem?_map]
  rcases lt_or_ge j k with hj | hj
  · simp [hj]
  · simp [not_lt.2 hj]

/-- The first `j` columns of `A` are factored, and `Q R` is all of `A`. -/
structure Mat.Reflecting (A : Mat ℝ n k) (j : ℕ) (s : Mat ℝ n n × Mat ℝ n k) : Prop where
  orthogonal : s.1.IsOrthogonal
  upper : ∀ i l, l < j → l < i → s.2 i l = 0
  product : ∀ i < n, ∀ l < k, dot n (s.1 i) (fun m => s.2 m l) = A i l

theorem Mat.Reflecting.reflectColumn {A : Mat ℝ n k} {j : ℕ} {s : Mat ℝ n n × Mat ℝ n k}
    (hs : Reflecting A j s) (hj : j < k) (hjn : j < n) : Reflecting A (j + 1) (reflectColumn s j) := by
  have hc := Reflector.clears_clearing (s.2.col j) hjn
  set h := Reflector.clearing (s.2.col j) j
  have hcol : dot n h.v (fun m => s.2 m j) = dot n h.v (s.2.col j) :=
    dot_congr (fun _ _ => rfl) fun m _ => (get_col s.2 m j).symm
  -- every column is reflected: the cleared ones are orthogonal to the reflector
  have hget : ∀ {i l}, i < n → l < k →
      (Mat.reflectColumn s j).2 i l = s.2 i l - h.tau * h.v i * dot n h.v fun m => s.2 m l := by
    intro i l hi hl
    change (ofFn _ : Mat ℝ n k) i l = _
    rw [get_ofFn_of_lt _ hi hl]
    rcases lt_trichotomy l j with hlt | rfl | hgt
    · rw [if_pos hlt, dot_eq_zero, mul_zero, sub_zero]
      intro m _
      rcases lt_or_ge m j with hm | hm
      · rw [hc.above m hm, zero_mul]
      · rw [hs.upper m l hlt (by omega), mul_zero]
    · have himage := hc.image i hi
      rw [get_col] at himage
      rw [if_neg (lt_irrefl l), if_pos rfl, hcol, himage]
      rcases lt_trichotomy i l with h' | h' | h'
      · rw [if_neg h'.ne, if_neg (by omega), if_neg h'.ne, if_pos h']
      · rw [if_pos h', if_pos h']
      · rw [if_neg h'.ne', if_pos h', if_neg h'.ne', if_neg (by omega)]
    · rw [if_neg (by omega), if_neg hgt.ne', Reflector.get_applyLeft h s.2 hi hl]
  refine ⟨hc.applyRight_isOrthogonal hs.orthogonal, ?_, ?_⟩
  · intro i l hl hli
    rcases lt_or_ge i n with hi | hi
    · change (ofFn _ : Mat ℝ n k) i l = 0
      rw [get_ofFn_of_lt _ hi (by omega)]
      split_ifs with h1 h2 h3
      · exact hs.upper i l h1 hli
      · omega
      · rfl
      · omega
      · omega
    · exact get_of_le _ (Or.inl hi)
  · intro i hi l hl
    rw [← hs.product i hi l hl]
    exact hc.dot_applyRight s.1 hi fun m hm => hget hm hl

theorem Mat.reflecting_orthogonalize (A : Mat ℝ n k) (hk : k ≤ n) : Reflecting A k A.orthogonalize := by
  refine ascend_keeps (p := Reflecting A) ?_ k fun j s hj hs => hs.reflectColumn hj (by omega)
  refine ⟨isOrthogonal_identity, fun i l h => by omega, fun i hi l _ => ?_⟩
  have hunit : ∀ m < n, (identity : Mat ℝ n n) i m = if m = i then (1 : ℝ) else 0 := fun m hm => by
    rw [get_identity hi hm]
    simp [eq_comm]
  rw [dot_congr hunit fun _ _ => rfl, dot_comm, dot_unit hi]

namespace OrthogonalFactor

/-- `F` factors the columns `W`. -/
structure Factors (F : OrthogonalFactor ℝ n) (W : List (Vec ℝ n)) : Prop where
  size : F.size = W.length
  le : F.size ≤ n
  orthogonal : F.q.IsOrthogonal
  upper : ∀ i j, j < i → F.r i j = 0
  outside : ∀ i j, F.size ≤ j → F.r i j = 0
  product : ∀ j a, W[j]? = some a → ∀ i < n, dot n (F.q i) (fun l => F.r l j) = a i

variable {F : OrthogonalFactor ℝ n} {W : List (Vec ℝ n)} {a : Vec ℝ n}

theorem factors_empty : Factors (empty : OrthogonalFactor ℝ n) [] :=
  ⟨rfl, Nat.zero_le n, Mat.isOrthogonal_identity, fun i j _ => Mat.get_zero i j,
    fun i j _ => Mat.get_zero i j, fun j a h => by simp at h⟩

theorem isFinite_eq_true (A : Mat ℝ n k) : A.isFinite = true := by
  simp [Mat.isFinite]

theorem ofColumns_eq_ok {A : Mat ℝ n k} (hk : k ≤ n) :
    ∃ F, ofColumns A = .ok F ∧ Factors F A.cols := by
  unfold ofColumns
  rw [if_neg (not_lt.2 hk)]
  split_ifs with h0 hfin
  · subst h0
    exact ⟨empty, rfl, factors_empty⟩
  · refine ⟨_, rfl, ?_⟩
    have hs := Mat.reflecting_orthogonalize A hk
    have hget : ∀ i j, (Mat.ofFn fun i j => if i < k ∧ j < k then A.orthogonalize.2 i j else 0 :
        Mat ℝ n n) i j = if i < k ∧ j < k then A.orthogonalize.2 i j else 0 := by
      intro i j
      by_cases hin : i < n ∧ j < n
      · rw [Mat.get_ofFn_of_lt _ hin.1 hin.2]
      · rw [Mat.get_of_le _ (by omega), if_neg (by omega)]
    refine ⟨by simp [Mat.cols], hk, hs.orthogonal, ?_, ?_, ?_⟩
    · intro i j hji
      rw [hget]
      split_ifs with h
      · exact hs.upper i j h.2 hji
      · rfl
    · intro i j hj
      have hj : k ≤ j := hj
      rw [hget, if_neg (by omega)]
    · intro j a ha i hi
      obtain ⟨hj, rfl⟩ := Mat.getElem?_cols.1 ha
      rw [Mat.get_col, ← hs.product i hi j hj]
      refine dot_congr (fun _ _ => rfl) fun l _ => ?_
      rw [hget]
      split_ifs with h
      · rfl
      · exact (hs.upper l j hj (by omega)).symm
  · exact absurd (isFinite_eq_true A) hfin

theorem get_withColumn {α : Type} [Scalar α] (F : OrthogonalFactor α n) (q : Mat α n n) (y : ℕ → α) {i j : ℕ}
    (hi : i < n) (hj : j < n) :
    (F.withColumn q y).r i j = if j = F.size then (if i ≤ F.size then y i else F.r i F.size) else F.r i j :=
  Mat.get_setCol _ hi hj _ _

theorem Factors.withColumn (hF : Factors F W) (hlt : F.size < n) {q : Mat ℝ n n} {y : ℕ → ℝ}
    (hq : q.IsOrthogonal) (hkept : ∀ i < n, ∀ l < F.size, q i l = F.q i l)
    (himage : ∀ i < n, dot n (q i) (fun l => if l ≤ F.size then y l else 0) = a i) :
    Factors (F.withColumn q y) (W ++ [a]) := by
  have hget : ∀ i j, (F.withColumn q y).r i j =
      if j = F.size then (if i ≤ F.size then y i else 0) else F.r i j := by
    intro i j
    by_cases hin : i < n ∧ j < n
    · rw [get_withColumn F q y hin.1 hin.2, hF.outside i F.size le_rfl]
    · rw [Mat.get_of_le _ (by omega), Mat.get_of_le F.r (by omega)]
      split_ifs
      · omega
      · rfl
      · rfl
  refine ⟨by simp [OrthogonalFactor.withColumn, hF.size], hlt, hq, ?_, ?_, ?_⟩
  · intro i j hji
    rw [hget]
    split_ifs with h1 h2
    · omega
    · rfl
    · exact hF.upper i j hji
  · intro i j hj
    have hj : F.size + 1 ≤ j := hj
    rw [hget, if_neg (by omega)]
    exact hF.outside i j (by omega)
  · intro j b hb i hi
    rcases lt_or_ge j W.length with hj | hj
    · rw [List.getElem?_append_left hj] at hb
      rw [← hF.product j b hb i hi]
      refine dot_congr_mul fun l hl => ?_
      rw [hget, if_neg (by have := hF.size; omega)]
      rcases lt_or_ge l F.size with h | h
      · change q i l * _ = _
        rw [hkept i hi l h]
      · rw [hF.upper l j (by have := hF.size; omega), mul_zero, mul_zero]
    · rw [List.getElem?_append_right hj] at hb
      obtain ⟨hz, rfl⟩ : j - W.length = 0 ∧ a = b := by
        rcases hd : j - W.length with _ | d
        · simpa [hd] using hb
        · simp [hd] at hb
      rw [← himage i hi]
      refine dot_congr (fun _ _ => rfl) fun l _ => ?_
      rw [hget, if_pos (by have := hF.size; omega)]

/-- The backward cascade with the turns from `t` on made. -/
structure Cascading (F : OrthogonalFactor ℝ n) (a : Vec ℝ n) (t : ℕ) (s : Mat ℝ n n × Vec ℝ n) : Prop where
  orthogonal : s.1.IsOrthogonal
  kept : ∀ i < n, ∀ l < F.size, s.1 i l = F.q i l
  image : ∀ i < n, dot n (s.1 i) s.2 = a i
  cleared : ∀ l, F.size + t < l → s.2 l = 0

theorem Cascading.turnBack {t : ℕ} {s : Mat ℝ n n × Vec ℝ n} (hs : Cascading F a (t + 1) s)
    (ht : F.size + t + 1 < n) : Cascading F a t (turnBack s (F.size + t)) := by
  set g := Rotation.annihilate (s.2 (F.size + t)) (s.2 (F.size + t + 1))
  have hcs : g.c * g.c + g.s * g.s = 1 := Rotation.annihilate_unit _ _
  have hij : F.size + t ≠ F.size + t + 1 := by omega
  refine ⟨hs.orthogonal.rotateCols hcs hij (by omega) ht, ?_, ?_, ?_⟩
  · intro i hi l hl
    change (s.1.rotateCols _ _ g.c g.s) i l = _
    rw [Mat.get_rotateCols hij hi (by omega) ht, if_neg (by omega), if_neg (by omega)]
    exact hs.kept i hi l hl
  · intro i hi
    rw [← hs.image i hi]
    exact Mat.dot_rotateCols s.1 s.2 hcs hij (by omega) ht hi
  · intro l hl
    change (s.2.rotate _ _ g.c g.s) l = 0
    rcases lt_or_ge l n with hln | hln
    · rw [Vec.get_rotate _ hln]
      split_ifs with h1 h2
      · exact Rotation.annihilate_clears _ _
      · omega
      · exact hs.cleared l (by omega)
    · exact Vec.get_of_le _ hln

theorem cascading_cascade (hq : F.q.IsOrthogonal) (hlt : F.size < n) (a : Vec ℝ n) :
    Cascading F a 0 (F.cascade a) := by
  refine descend_keeps (p := Cascading F a) _ ?_ fun t s ht hs => hs.turnBack (by omega)
  refine ⟨hq, fun _ _ _ _ => rfl, fun i hi => hq.apply_applyT a hi, fun l hl => ?_⟩
  exact Vec.get_of_le _ (by omega)

theorem append_eq_ok {α : Type} [Scalar α] {F F' : OrthogonalFactor α n} {a : Vec α n} (h : F.append a = .ok F') :
    F.size < n ∧ F' = F.withColumn (F.cascade a).1 (F.cascade a).2 := by
  unfold append at h
  split_ifs at h with hle
  exact ⟨not_le.1 hle, (Except.ok.inj h).symm⟩

theorem Factors.append (hF : Factors F W) {F' : OrthogonalFactor ℝ n} (h : F.append a = .ok F') :
    Factors F' (W ++ [a]) := by
  obtain ⟨hlt, rfl⟩ := append_eq_ok h
  have hs := cascading_cascade hF.orthogonal hlt a
  refine hF.withColumn hlt hs.orthogonal hs.kept fun i hi => ?_
  rw [← hs.image i hi]
  refine dot_congr (fun _ _ => rfl) fun l _ => ?_
  split_ifs with hl
  · rfl
  · exact (hs.cleared l (by omega)).symm

theorem appendReflected_eq_ok {α : Type} [Scalar α] {F F' : OrthogonalFactor α n} {a : Vec α n}
    (h : F.appendReflected a = .ok F') :
    F.size < n ∧ F' = F.withColumn ((F.reflector a).applyRight F.q)
      fun i => if i = F.size then (F.reflector a).beta else F.q.applyT a i := by
  unfold appendReflected at h
  dsimp only at h
  split_ifs at h with hle
  exact ⟨not_le.1 hle, (Except.ok.inj h).symm⟩

theorem Factors.appendReflected (hF : Factors F W) {F' : OrthogonalFactor ℝ n}
    (h : F.appendReflected a = .ok F') : Factors F' (W ++ [a]) := by
  obtain ⟨hlt, rfl⟩ := appendReflected_eq_ok h
  have hc := Reflector.clears_clearing (F.q.applyT a) hlt
  refine hF.withColumn hlt (hc.applyRight_isOrthogonal hF.orthogonal)
    (fun i hi l hl => hc.applyRight_above F.q hi hl (by omega)) fun i hi => ?_
  rw [← hF.orthogonal.apply_applyT a hi]
  refine hc.dot_applyRight F.q hi fun l hl => ?_
  rw [hc.image l hl]
  rcases lt_trichotomy l F.size with h | h | h
  · simp [h, h.le, h.ne]
  · rw [if_pos h.le, if_pos h, if_pos h]
    rfl
  · simp [not_le.2 h, h.ne', not_lt.2 h.le]

/-- The forward cascade after `t` turns. Column `idx` itself is given up, so nothing is said of it. -/
structure Erasing (F : OrthogonalFactor ℝ n) (W : List (Vec ℝ n)) (idx t : ℕ)
    (s : Mat ℝ n n × Mat ℝ n n) : Prop where
  orthogonal : s.1.IsOrthogonal
  kept : ∀ i < n, ∀ l, l < idx ∨ idx + t < l → s.1 i l = F.q i l
  before : ∀ i j, j < idx → j < i → s.2 i j = 0
  turned : ∀ i j, idx < j → j ≤ idx + t → j ≤ i → s.2 i j = 0
  ahead : ∀ i j, idx + t < j → j < i → s.2 i j = 0
  outside : ∀ i j, F.size ≤ i ∨ F.size ≤ j → s.2 i j = 0
  product : ∀ j a, j ≠ idx → W[j]? = some a → ∀ i < n, dot n (s.1 i) (fun l => s.2 l j) = a i

/-- The entry that the turn clears is zero already when it is overwritten. -/
theorem get_turnForward {lo hi i : ℕ} {s : Mat ℝ n n × Mat ℝ n n} (hlo : lo ≤ i + 1) (hhi : i + 1 < hi)
    (hin : i + 1 < n) {l j : ℕ} (hl : l < n) (hj : j < n) :
    (turnForward lo hi s i).2 l j =
      if lo ≤ j ∧ j < hi then
        if l = i then (Rotation.annihilate (s.2 i (i + 1)) (s.2 (i + 1) (i + 1))).c * s.2 i j +
          (Rotation.annihilate (s.2 i (i + 1)) (s.2 (i + 1) (i + 1))).s * s.2 (i + 1) j
        else if l = i + 1 then -(Rotation.annihilate (s.2 i (i + 1)) (s.2 (i + 1) (i + 1))).s * s.2 i j +
          (Rotation.annihilate (s.2 i (i + 1)) (s.2 (i + 1) (i + 1))).c * s.2 (i + 1) j
        else s.2 l j
      else s.2 l j := by
  unfold turnForward
  dsimp only
  rw [Mat.get_set _ hl hj, Mat.get_rotateRowsIn (by omega) hl hj hin]
  split_ifs with h1 h2 h3 h4 h5 h6
  · omega
  · obtain ⟨rfl, rfl⟩ := h1
    exact (Rotation.annihilate_clears _ _).symm
  · omega
  · omega
  · rfl
  · rfl
  · rfl
  · rfl

theorem turnForward_outside {α : Type} [Scalar α] {lo hi i : ℕ} {s : Mat α n n × Mat α n n} (hhi : i + 1 < hi)
    (hle : hi ≤ n) {l j : ℕ} (h : hi ≤ l ∨ hi ≤ j) : (turnForward lo hi s i).2 l j = s.2 l j := by
  by_cases hlj : l < n ∧ j < n
  · unfold turnForward
    dsimp only
    rw [Mat.get_set _ hlj.1 hlj.2, if_neg (by omega), Mat.get_rotateRowsIn (by omega) hlj.1 hlj.2 (by omega)]
    rcases h with h | h
    · rw [if_neg (by omega : ¬l = i), if_neg (by omega : ¬l = i + 1), ite_self]
    · rw [if_neg (by omega)]
  · rw [Mat.get_of_le _ (by omega), Mat.get_of_le _ (by omega)]

theorem turnForward_row {lo hi i : ℕ} {s : Mat ℝ n n × Mat ℝ n n} (hlo : lo ≤ i + 1) (hhi : i + 1 < hi)
    (hin : i + 1 < n) {l : ℕ} (h1 : l ≠ i) (h2 : l ≠ i + 1) (j : ℕ) :
    (turnForward lo hi s i).2 l j = s.2 l j := by
  by_cases h : l < n ∧ j < n
  · rw [get_turnForward hlo hhi hin h.1 h.2, if_neg h1, if_neg h2, ite_self]
  · rw [Mat.get_of_le _ (by omega), Mat.get_of_le _ (by omega)]

/-- A turn does not see a column outside its range, or one that is zero in both of its rows. -/
theorem turnForward_col {lo hi i : ℕ} {s : Mat ℝ n n × Mat ℝ n n} (hlo : lo ≤ i + 1) (hhi : i + 1 < hi)
    (hin : i + 1 < n) {j : ℕ} (h : ¬(lo ≤ j ∧ j < hi) ∨ s.2 i j = 0 ∧ s.2 (i + 1) j = 0) (l : ℕ) :
    (turnForward lo hi s i).2 l j = s.2 l j := by
  by_cases hlj : l < n ∧ j < n
  · rw [get_turnForward hlo hhi hin hlj.1 hlj.2]
    rcases h with h | ⟨h1, h2⟩
    · rw [if_neg h]
    · rw [h1, h2]
      split_ifs with hj hl hl
      · rw [hl, h1]
        ring
      · rw [hl, h2]
        ring
      · rfl
      · rfl
  · rw [Mat.get_of_le _ (by omega), Mat.get_of_le _ (by omega)]

theorem Erasing.turnForward {idx t : ℕ} {s : Mat ℝ n n × Mat ℝ n n} (hW : F.size = W.length)
    (hle : F.size ≤ n) (hs : Erasing F W idx t s) (ht : idx + t + 1 < F.size) :
    Erasing F W idx (t + 1) (turnForward (idx + 1) F.size s (idx + t)) := by
  have hcs := Rotation.annihilate_unit (s.2 (idx + t) (idx + t + 1)) (s.2 (idx + t + 1) (idx + t + 1))
  have hclear := Rotation.annihilate_clears (s.2 (idx + t) (idx + t + 1)) (s.2 (idx + t + 1) (idx + t + 1))
  have hget := @get_turnForward n (idx + 1) F.size (idx + t) s (by omega) ht (by omega)
  have hrow := @turnForward_row n (idx + 1) F.size (idx + t) s (by omega) ht (by omega)
  have hcol := @turnForward_col n (idx + 1) F.size (idx + t) s (by omega) ht (by omega)
  set s' := OrthogonalFactor.turnForward (idx + 1) F.size s (idx + t)
  set g := Rotation.annihilate (s.2 (idx + t) (idx + t + 1)) (s.2 (idx + t + 1) (idx + t + 1))
  have hij : idx + t ≠ idx + t + 1 := by omega
  have hq : ∀ {i l}, i < n → l < n → s'.1 i l = if l = idx + t then g.c * s.1 i (idx + t) +
      g.s * s.1 i (idx + t + 1) else if l = idx + t + 1 then -g.s * s.1 i (idx + t) +
      g.c * s.1 i (idx + t + 1) else s.1 i l := fun hi hl => Mat.get_rotateCols hij hi hl (by omega)
  refine ⟨hs.orthogonal.rotateCols hcs hij (by omega) (by omega), ?_, ?_, ?_, ?_, ?_, ?_⟩
  · intro i hi l hl
    rcases lt_or_ge l n with hln | hln
    · rw [hq hi hln, if_neg (by omega), if_neg (by omega)]
      exact hs.kept i hi l (by omega)
    · rw [Mat.get_of_le _ (Or.inr hln), Mat.get_of_le _ (Or.inr hln)]
  · intro i j hj hji
    rw [hcol (Or.inl (by omega)) i]
    exact hs.before i j hj hji
  -- columns turned before are zero in both rows, and this turn clears its own
  · intro i j hj hjt hji
    rcases (by omega : j ≤ idx + t ∨ j = idx + t + 1) with h | rfl
    · rw [hcol (Or.inr ⟨hs.turned _ j hj h (by omega), hs.turned _ j hj h (by omega)⟩) i]
      exact hs.turned i j hj h hji
    · rcases eq_or_ne i (idx + t + 1) with rfl | hne
      · rw [hget (by omega) (by omega), if_pos (by omega), if_neg (by omega), if_pos rfl]
        exact hclear
      · rw [hrow (by omega) hne]
        exact hs.ahead i _ (by omega) (by omega)
  · intro i j hj hji
    rw [hrow (by omega) (by omega)]
    exact hs.ahead i j (by omega) hji
  · exact fun i j hij => (turnForward_outside ht hle hij).trans (hs.outside i j hij)
  · intro j a hne ha i hi
    have hjW : j < W.length := (List.getElem?_eq_some_iff.1 ha).1
    rw [← hs.product j a hne ha i hi]
    refine dot_turn hij (by omega) (by omega) ?_ fun l hl h1 h2 => ?_
    · rw [hq hi (by omega), if_pos rfl, hq hi (by omega), if_neg (by omega), if_pos rfl]
      rcases Nat.lt_or_gt_of_ne hne with h | h
      · rw [hcol (Or.inl (by omega)), hcol (Or.inl (by omega)), hs.before _ j h (by omega),
          hs.before _ j h (by omega)]
        ring
      · rw [hget (by omega) (by omega), if_pos (by omega), if_pos rfl, hget (by omega) (by omega),
          if_pos (by omega), if_neg (by omega), if_pos rfl]
        linear_combination
          (s.1 i (idx + t) * s.2 (idx + t) j + s.1 i (idx + t + 1) * s.2 (idx + t + 1) j) * hcs
    · rw [hq hi hl, if_neg h1, if_neg h2, hrow h1 h2]

def erased (F : OrthogonalFactor ℝ n) (idx : ℕ) : Mat ℝ n n × Mat ℝ n n :=
  ascend (F.size - (idx + 1)) (fun s t => turnForward (idx + 1) F.size s (idx + t)) (F.q, F.r)

theorem erase_eq (F : OrthogonalFactor ℝ n) (idx : ℕ) :
    F.erase idx = ⟨F.size - 1, (F.erased idx).1, dropColumn F.size idx (F.erased idx).2⟩ := rfl

theorem Factors.outside_block (hF : Factors F W) {i j : ℕ} (h : F.size ≤ i ∨ F.size ≤ j) : F.r i j = 0 := by
  rcases lt_or_ge j i with hji | hij
  · exact hF.upper i j hji
  · exact hF.outside i j (by omega)

theorem Factors.erasing (hF : Factors F W) (idx : ℕ) :
    Erasing F W idx (F.size - (idx + 1)) (F.erased idx) := by
  refine ascend_keeps (p := Erasing F W idx) ?_ _ fun t s ht hs => hs.turnForward hF.size hF.le (by omega)
  exact ⟨hF.orthogonal, fun _ _ _ _ => rfl, fun i j _ h => hF.upper i j h,
    fun i j h1 h2 _ => by omega, fun i j _ h => hF.upper i j h,
    fun i j h => hF.outside_block h, fun j a _ ha => hF.product j a ha⟩

theorem get_dropColumn {α : Type} [Scalar α] (size idx : ℕ) (R : Mat α n n) {i j : ℕ} (hi : i < n) (hj : j < n) :
    (dropColumn size idx R) i j =
      if i = size - 1 ∨ j = size - 1 then 0
      else if i < size ∧ idx ≤ j ∧ j < size - 1 then R i (j + 1)
      else R i j := by
  rw [dropColumn, Mat.get_ofFn_of_lt _ hi hj]

/-- The free columns of `Q` are not touched by a deletion, whatever the matrices hold. -/
theorem erase_free {idx i l : ℕ} (hi : i < n) (hl : F.size ≤ l) (hln : l < n) :
    (F.erase idx).q i l = F.q i l := by
  refine ascend_keeps (p := fun _ (s : Mat ℝ n n × Mat ℝ n n) => s.1 i l = F.q i l) rfl (F.size - (idx + 1))
    fun t s ht hs => ?_
  refine (Mat.get_rotateCols (by omega) hi hln (by omega)).trans ?_
  rw [if_neg (by omega), if_neg (by omega)]
  exact hs

/-- The columns move up by one from `idx` on; the row that is cleared with the last column was zero. -/
theorem Erasing.get_dropColumn {idx : ℕ} {s : Mat ℝ n n × Mat ℝ n n} (hidx : idx < F.size) (hle : F.size ≤ n)
    (hs : Erasing F W idx (F.size - (idx + 1)) s) (i : ℕ) {j : ℕ} (hj : j ≠ F.size - 1) :
    (dropColumn F.size idx s.2) i j = if idx ≤ j ∧ j < F.size - 1 then s.2 i (j + 1) else s.2 i j := by
  by_cases hin : i < n ∧ j < n
  · rw [OrthogonalFactor.get_dropColumn _ _ _ hin.1 hin.2]
    split_ifs with h1 h2 h3 h4 h5
    · exact (hs.turned i (j + 1) (by omega) (by omega) (by omega)).symm
    · rcases lt_or_ge j idx with h | h
      · exact (hs.before i j h (by omega)).symm
      · exact (hs.outside i j (by omega)).symm
    · rfl
    · omega
    · rw [hs.outside i j (by omega), hs.outside i (j + 1) (by omega)]
    · rfl
  · rw [Mat.get_of_le _ (by omega)]
    split_ifs
    · rw [hs.outside i (j + 1) (by omega)]
    · rw [Mat.get_of_le _ (by omega)]

theorem dropColumn_last (size idx : ℕ) (R : Mat ℝ n n) (i : ℕ) : (dropColumn size idx R) i (size - 1) = 0 := by
  by_cases hin : i < n ∧ size - 1 < n
  · rw [get_dropColumn _ _ _ hin.1 hin.2, if_pos (Or.inr rfl)]
  · exact Mat.get_of_le _ (by omega)

theorem Factors.erase (hF : Factors F W) {idx : ℕ} (hidx : idx < F.size) :
    Factors (F.erase idx) (W.eraseIdx idx) := by
  have hs := hF.erasing idx
  have hW := hF.size
  rw [erase_eq]
  set s := F.erased idx
  have hdrop := fun i {j} => hs.get_dropColumn hidx hF.le i (j := j)
  refine ⟨?_, ?_, hs.orthogonal, ?_, ?_, ?_⟩
  · rw [List.length_eraseIdx, if_pos (by omega), hW]
  · exact (Nat.sub_le _ _).trans hF.le
  · intro i j hji
    rcases eq_or_ne j (F.size - 1) with rfl | hj
    · exact dropColumn_last ..
    · change (dropColumn F.size idx s.2) i j = 0
      rw [hdrop i hj]
      split_ifs with h
      · exact hs.turned i (j + 1) (by omega) (by omega) (by omega)
      · rcases lt_or_ge j idx with h' | h'
        · exact hs.before i j h' hji
        · exact hs.outside i j (by omega)
  · intro i j hj
    have hj : F.size - 1 ≤ j := hj
    rcases eq_or_ne j (F.size - 1) with rfl | hne
    · exact dropColumn_last ..
    · change (dropColumn F.size idx s.2) i j = 0
      rw [hdrop i hne, if_neg (by omega)]
      exact hs.outside i j (by omega)
  · intro j a ha i hi
    rw [List.getElem?_eraseIdx] at ha
    change dot n (s.1 i) (fun l => (dropColumn F.size idx s.2) l j) = a i
    split_ifs at ha with h
    · rw [← hs.product j a h.ne ha i hi]
      exact dot_congr (fun _ _ => rfl) fun l _ => by rw [hdrop l (by omega), if_neg (by omega)]
    · have hjW : j + 1 < W.length := (List.getElem?_eq_some_iff.1 ha).1
      rw [← hs.product (j + 1) a (by omega) ha i hi]
      exact dot_congr (fun _ _ => rfl) fun l _ => by rw [hdrop l (by omega), if_pos (by omega)]

theorem remove_eq_ok {α : Type} [Scalar α] {F : OrthogonalFactor α n} {idx : ℤ} (h : (F.remove idx).result = .ok ()) :
    0 ≤ idx ∧ idx < F.size ∧ (F.remove idx).state = F.erase idx.toNat := by
  unfold remove at h ⊢
  split_ifs at h ⊢ with hin
  · exact ⟨hin.1, hin.2, by simp [Outcome.done]⟩
  · simp [Outcome.fail] at h

theorem result_remove {α : Type} [Scalar α] {F : OrthogonalFactor α n} {i : ℕ} (hi : i < F.size) :
    (F.remove i).result = .ok () := by
  unfold remove
  rw [if_pos ⟨by omega, by omega⟩, Outcome.result_reporting]
  rfl

theorem Factors.remove (hF : Factors F W) {idx : ℤ} (h : (F.remove idx).result = .ok ()) :
    Factors (F.remove idx).state (W.eraseIdx idx.toNat) := by
  obtain ⟨h0, hlt, he⟩ := remove_eq_ok h
  rw [he]
  exact hF.erase (by omega)

theorem Factors.dot_column (hF : Factors F W) {t j : ℕ} (ht : t < n) (ha : W[j]? = some a) :
    dot n (fun i => F.q i t) a = F.r t j := by
  have h : dot n (fun i => F.q i t) a = dot n (fun i => F.q i t) fun i => dot n (F.q i) fun l => F.r l j :=
    dot_congr (fun _ _ => rfl) fun i hi => (hF.product j a ha i hi).symm
  rw [h, dot_transpose, dot_single ht]
  · simp [hF.orthogonal t ht t ht]
  · intro l hl hlt
    simp [hF.orthogonal l hl t ht, hlt]

theorem Factors.dot_free (hF : Factors F W) {t : ℕ} (ht : F.size ≤ t) (htn : t < n) (ha : a ∈ W) :
    dot n (fun i => F.q i t) a = 0 := by
  obtain ⟨j, hj⟩ := List.getElem?_of_mem ha
  have hjW : j < W.length := (List.getElem?_eq_some_iff.1 hj).1
  rw [hF.dot_column htn hj]
  exact hF.upper t j (by have := hF.size; omega)

/-- Only the leading block of `R` counts: `Q1 R1 = W`. -/
theorem Factors.product_block (hF : Factors F W) {i j : ℕ} (ha : W[j]? = some a) (hi : i < n) :
    dot F.size (F.q i) (fun l => F.r l j) = a i := by
  rw [← hF.product j a ha i hi]
  exact (dot_cut hF.le fun l hl _ => by rw [hF.outside_block (Or.inl hl), mul_zero]).symm

/-- A change of the working columns. -/
inductive Edit (n : ℕ) where
  | append (a : Vec ℝ n)
  | appendReflected (a : Vec ℝ n)
  | remove (idx : ℤ)

def edit (F : OrthogonalFactor ℝ n) : Edit n → Except Fault (OrthogonalFactor ℝ n)
  | .append a => F.append a
  | .appendReflected a => F.appendReflected a
  | .remove idx => (F.remove idx).result.map fun _ => (F.remove idx).state

def Edit.columns (W : List (Vec ℝ n)) : Edit n → List (Vec ℝ n)
  | .append a => W ++ [a]
  | .appendReflected a => W ++ [a]
  | .remove idx => W.eraseIdx idx.toNat

def edits (F : OrthogonalFactor ℝ n) (ops : List (Edit n)) : Except Fault (OrthogonalFactor ℝ n) :=
  ops.foldlM edit F

theorem Factors.edit (hF : Factors F W) {F' : OrthogonalFactor ℝ n} {op : Edit n} (h : F.edit op = .ok F') :
    Factors F' (op.columns W) := by
  cases op with
  | append a => exact hF.append h
  | appendReflected a => exact hF.appendReflected h
  | remove idx =>
    obtain ⟨u, hr, rfl⟩ := map_eq_ok.1 h
    exact hF.remove hr

theorem Factors.edits (hF : Factors F W) {F' : OrthogonalFactor ℝ n} {ops : List (Edit n)}
    (h : F.edits ops = .ok F') : Factors F' (ops.foldl Edit.columns W) :=
  foldlM_related (p := Factors) (f := OrthogonalFactor.edit) (fun _ _ _ _ hF h => hF.edit h) hF h

/-- The columns of `A` can be factored, and after any edits that are not refused `F` factors what is left of
them and what was appended. -/
theorem edits_factor_columns (A : Mat ℝ n k) (hk : k ≤ n) :
    ∃ F₀, ofColumns A = .ok F₀ ∧ ∀ ops F, F₀.edits ops = .ok F →
      let W := ops.foldl Edit.columns A.cols
      F.size = W.length ∧ F.q.IsOrthogonal ∧
      (∀ j a, W[j]? = some a → ∀ i < n, dot F.size (F.q i) (fun l => F.r l j) = a i) ∧
      (∀ i j, j < i → F.r i j = 0) ∧ (∀ i j, F.size ≤ i ∨ F.size ≤ j → F.r i j = 0) ∧
      ∀ t, F.size ≤ t → t < n → ∀ a ∈ W, dot n (fun i => F.q i t) a = 0 := by
  obtain ⟨F₀, h₀, hF₀⟩ := ofColumns_eq_ok hk
  refine ⟨F₀, h₀, fun ops F h => ?_⟩
  have hF := hF₀.edits h
  exact ⟨hF.size, hF.orthogonal, fun j a ha i hi => hF.product_block ha hi, hF.upper,
    fun i j hij => hF.outside_block hij, fun t ht htn a ha => hF.dot_free ht htn ha⟩

theorem edits_factor_replaced : ∃ F₀ F : OrthogonalFactor ℝ 2,
    ofColumns (Mat.ofFn fun i _ => if i = 0 then 1 else 0 : Mat ℝ 2 1) = .ok F₀ ∧
      F₀.edits [.append (Vec.ofFn fun _ => 1), .remove 0] = .ok F ∧ F.size = 1 ∧ F.q.IsOrthogonal ∧
      ∀ i < 2, dot 1 (F.q i) (fun l => F.r l 0) = 1 := by
  obtain ⟨F₀, h₀, hall⟩ := edits_factor_columns (Mat.ofFn fun i _ => if i = 0 then 1 else 0 : Mat ℝ 2 1) (by decide)
  have hsize : F₀.size = 1 := (hall [] F₀ rfl).1
  set b : Vec ℝ 2 := Vec.ofFn fun _ => 1
  have happend : F₀.append b = .ok (F₀.withColumn (F₀.cascade b).1 (F₀.cascade b).2) := by
    unfold append
    rw [if_neg (by omega)]
  set G := F₀.withColumn (F₀.cascade b).1 (F₀.cascade b).2
  have hG : G.size = 2 := by
    change F₀.size + 1 = 2
    omega
  have hremove : (G.remove 0).result = .ok () := by
    unfold remove
    rw [if_pos (by omega)]
    simp [Outcome.done]
  have hrun : F₀.edits [.append b, .remove 0] = .ok (G.remove 0).state := by
    change (F₀.append b >>= fun G => (G.remove 0).result.map (fun _ => (G.remove 0).state) >>= fun G => .ok G) = _
    rw [happend]
    change ((G.remove 0).result.map fun _ => (G.remove 0).state) >>= _ = _
    rw [hremove]
    rfl
  obtain ⟨hone, hq, hproduct, -⟩ := hall _ _ hrun
  have hone : (G.remove 0).state.size = 1 := hone
  refine ⟨F₀, _, h₀, hrun, hone, hq, fun i hi => ?_⟩
  have hcol := hproduct 0 b rfl i hi
  rwa [hone, Vec.get_ofFn_of_lt _ hi] at hcol

end OrthogonalFactor

end
end ActiveSet
