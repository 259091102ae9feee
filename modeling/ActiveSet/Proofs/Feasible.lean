import ActiveSet.Proofs.Sizes

/-! Every step stays feasible. The ratio test stops at the nearest ignored row, the directions do not leave the
working rows, and so from a feasible start `A x ≤ b` holds after any number of iterations, with equality in the
working rows. -/

namespace ActiveSet

noncomputable section
open Exact

variable {m n : ℕ}

namespace Solver

def Within (limit : Option ℝ) (v : ℝ) : Prop := ∃ t, limit = some t ∧ t ≤ v

theorem tighter_left {a b : Option ℝ} {v : ℝ} (h : Within a v) : Within (tighter a b) v := by
  obtain ⟨t, rfl, ht⟩ := h
  cases b with
  | none => exact ⟨t, rfl, ht⟩
  | some c =>
    by_cases htc : t ≤ c
    · exact ⟨t, by simp [tighter, htc], ht⟩
    · exact ⟨c, by simp [tighter, htc], (not_le.1 htc).le.trans ht⟩

theorem tighter_right {a b : Option ℝ} {v : ℝ} (h : Within b v) : Within (tighter a b) v := by
  obtain ⟨t, rfl, ht⟩ := h
  cases a with
  | none => exact ⟨t, rfl, ht⟩
  | some c =>
    by_cases hct : c ≤ t
    · exact ⟨c, by simp [tighter, hct], hct.trans ht⟩
    · exact ⟨t, by simp [tighter, hct], ht⟩

theorem tighter_eq_or (a b : Option ℝ) : tighter a b = a ∨ tighter a b = b := by
  cases a with
  | none => cases b <;> simp [tighter]
  | some c =>
    cases b with
    | none => exact Or.inl rfl
    | some t => by_cases hct : c ≤ t <;> simp [tighter, hct]

theorem shorter_eq_tighter (a b : Option ℝ) : shorter a b = tighter a b := by
  cases a with
  | none => cases b <;> rfl
  | some c =>
    cases b with
    | none => rfl
    | some t => by_cases hct : c ≤ t <;> simp [shorter, tighter, hct, le_of_not_ge]

theorem within_foldl {limits : List (Option ℝ)} {best : Option ℝ} {v : ℝ}
    (h : Within best v ∨ some v ∈ limits) : Within (limits.foldl tighter best) v := by
  induction limits generalizing best with
  | nil => simpa using h
  | cons limit limits ih =>
    rw [List.foldl_cons]
    apply ih
    rcases h with h | h
    · exact Or.inl (tighter_left h)
    · rcases List.mem_cons.1 h with rfl | h
      · exact Or.inl (tighter_right ⟨v, rfl, le_rfl⟩)
      · exact Or.inr h

theorem foldl_tighter_mem (limits : List (Option ℝ)) (best : Option ℝ) :
    limits.foldl tighter best = best ∨ limits.foldl tighter best ∈ limits := by
  induction limits generalizing best with
  | nil => exact Or.inl rfl
  | cons limit limits ih =>
    rw [List.foldl_cons]
    rcases ih (tighter best limit) with h | h
    · rw [h]
      rcases tighter_eq_or best limit with h | h
      · exact Or.inl h
      · exact Or.inr (by rw [h]; exact List.mem_cons_self)
    · exact Or.inr (List.mem_cons_of_mem _ h)

theorem tightest_eq_some {limits : List (Option ℝ)} {t : ℝ} {i : ℕ} (h : tightest limits = some (t, i)) :
    limits[i]? = some (some t) ∧ ∀ v, some v ∈ limits → t ≤ v := by
  unfold tightest at h
  cases hfold : limits.foldl tighter none with
  | none => simp [hfold] at h
  | some u =>
    simp only [hfold, isFinite_eq, if_true, Option.map_eq_some_iff] at h
    obtain ⟨j, hj, hpair⟩ := h
    obtain ⟨rfl, rfl⟩ := Prod.mk.inj hpair
    refine ⟨?_, fun v hv => ?_⟩
    · have hsome := List.find?_some hj
      cases hget : limits[j]? with
      | none => simp [hget] at hsome
      | some limit =>
        cases limit with
        | none => simp [hget] at hsome
        | some v => simpa [hget] using hsome
    · obtain ⟨c, hc, hcv⟩ : Within (limits.foldl tighter none) v := within_foldl (Or.inr hv)
      rw [hfold] at hc
      exact (Option.some.inj hc).le.trans hcv

theorem within_tightest {limits : List (Option ℝ)} {v : ℝ} (hv : some v ∈ limits) :
    Within ((tightest limits).map Prod.fst) v := by
  obtain ⟨t, ht, htv⟩ : Within (limits.foldl tighter none) v := within_foldl (Or.inr hv)
  have hmem : some t ∈ limits := by
    rcases foldl_tighter_mem limits none with h | h
    · rw [ht] at h
      cases h
    · rwa [ht] at h
  obtain ⟨i, hi⟩ := List.getElem?_of_mem hmem
  have hlt : i < limits.length := (List.getElem?_eq_some_iff.1 hi).1
  have hfind : ((List.range limits.length).reverse.find? fun i =>
      (limits[i]?.join).any fun v => Scalar.same v t).isSome := by
    rw [List.find?_isSome]
    exact ⟨i, by simpa using hlt, by simp [hi]⟩
  obtain ⟨j, hj⟩ := Option.isSome_iff_exists.1 hfind
  refine ⟨t, ?_, htv⟩
  unfold tightest
  simp only [ht, isFinite_eq, if_true, hj, Option.map_some]

variable {p : Problem ℝ m n} {tol : Tolerances ℝ} {s : Solver ℝ m n} {d : Vec ℝ n}

def nearest (crossings : List ℝ) : Option ℝ :=
  (crossings.filter fun t => decide (0 ≤ t) && Scalar.isFinite t).foldl (fun best t => tighter best (some t)) none

theorem nearest_eq_some {crossings : List ℝ} {t : ℝ} (h : nearest crossings = some t) : t ∈ crossings ∧ 0 ≤ t := by
  unfold nearest at h
  rw [← List.foldl_map (f := some) (g := tighter)] at h
  rcases foldl_tighter_mem ((crossings.filter fun t => decide (0 ≤ t) && Scalar.isFinite t).map some) none with
    hnone | hmem
  · rw [h] at hnone
    cases hnone
  · rw [h] at hmem
    obtain ⟨v, hv, hvt⟩ := List.mem_map.1 hmem
    obtain rfl := Option.some.inj hvt
    obtain ⟨hcrossing, hahead⟩ := List.mem_filter.1 hv
    exact ⟨hcrossing, by simpa using hahead⟩

theorem within_nearest {crossings : List ℝ} {t : ℝ} (ht : t ∈ crossings) (h0 : 0 ≤ t) :
    Within (nearest crossings) t := by
  unfold nearest
  rw [← List.foldl_map (f := some) (g := tighter)]
  refine within_foldl (Or.inr (List.mem_map_of_mem (List.mem_filter.2 ⟨ht, ?_⟩)))
  simpa using h0

def Crosses (s : Solver ℝ m n) (d : Vec ℝ n) (t : ℝ) : Prop :=
  ∃ radius roots, (s.bounds.upper = some radius ∨ (0 < s.bounds.lower ∧ s.bounds.lower = radius)) ∧
    Sphere.crossings n s.x d radius = .ok roots ∧ t ∈ roots

theorem radiusLimit_eq_ok {limit : Option ℝ} (h : s.radiusLimit d = .ok limit) :
    ∃ crossings, limit = nearest crossings ∧ ∀ t, t ∈ crossings ↔ s.Crosses d t := by
  -- the inner bound adds its crossings to those that the outer one has given
  have hinner : ∀ outer : List ℝ, (∀ t, t ∈ outer ↔ ∃ radius roots, s.bounds.upper = some radius ∧
      Sphere.crossings n s.x d radius = .ok roots ∧ t ∈ roots) → (if 0 < s.bounds.lower then do
      let inner ← Sphere.crossings n s.x d s.bounds.lower
      pure (nearest (outer ++ inner)) else pure (nearest (outer ++ []))) = Except.ok limit →
      ∃ crossings, limit = nearest crossings ∧ ∀ t, t ∈ crossings ↔ s.Crosses d t := by
    intro outer houter h
    split_ifs at h with hlower
    · obtain ⟨inner, hinner, h⟩ := bind_eq_ok.1 h
      refine ⟨_, (Except.ok.inj h).symm, fun t => ?_⟩
      rw [List.mem_append, houter]
      constructor
      · rintro (⟨radius, roots, hupper, hroots, ht⟩ | ht)
        · exact ⟨radius, roots, Or.inl hupper, hroots, ht⟩
        · exact ⟨_, inner, Or.inr ⟨hlower, rfl⟩, hinner, ht⟩
      · rintro ⟨radius, roots, hupper | ⟨-, rfl⟩, hroots, ht⟩
        · exact Or.inl ⟨radius, roots, hupper, hroots, ht⟩
        · obtain rfl := Except.ok.inj (hinner.symm.trans hroots)
          exact Or.inr ht
    · refine ⟨_, (Except.ok.inj h).symm, fun t => ?_⟩
      rw [List.append_nil, houter]
      constructor
      · rintro ⟨radius, roots, hupper, hroots, ht⟩
        exact ⟨radius, roots, Or.inl hupper, hroots, ht⟩
      · rintro ⟨radius, roots, hupper | ⟨hpos, -⟩, hroots, ht⟩
        · exact ⟨radius, roots, hupper, hroots, ht⟩
        · exact absurd hpos hlower
  unfold radiusLimit at h
  cases hupper : s.bounds.upper with
  | none =>
    rw [hupper] at h
    exact hinner [] (fun t => by simp [hupper]) h
  | some upper =>
    rw [hupper] at h
    dsimp only at h
    rw [if_pos (isFinite_eq upper)] at h
    obtain ⟨outer, houter, h⟩ := bind_eq_ok.1 h
    refine hinner outer (fun t => ⟨fun ht => ⟨upper, outer, hupper, houter, ht⟩, ?_⟩) h
    rintro ⟨radius, roots, hradius, hroots, ht⟩
    obtain rfl : upper = radius := Option.some.inj (hupper.symm.trans hradius)
    obtain rfl := Except.ok.inj (houter.symm.trans hroots)
    exact ht

theorem Lockstep.getElem?_rows (hs : Lockstep p tol s) {row : ℕ} (h : row < m) :
    s.rows.rows[row]? = some (p.A.row row) := by
  rw [hs.rows]
  exact Mat.getElem?_rows p.A h

theorem Lockstep.getElem?_rhs (hs : Lockstep p tol s) {row : ℕ} (h : row < m) :
    s.rows.rhs[row]? = some (p.b row) := by
  rw [hs.rhs]
  exact Vec.getElem?_toList p.b h

theorem Lockstep.mem_iff (hs : Lockstep p tol s) (row : ℕ) :
    row ∈ s.rows.working ∨ row ∈ s.rows.ignored ↔ row < m := by
  rw [hs.sound.mem_iff, hs.rows, length_rows]

theorem Lockstep.getElem?_ratios (hs : Lockstep p tol s) {j row : ℕ} (hrow : s.rows.ignored[j]? = some row) :
    (s.ratios d)[j]? = some (if tol.blocking < dot n (p.A row) d then
      some (|p.b row - dot n (p.A row) s.x| / dot n (p.A row) d) else none) := by
  have hlt : row < m := (hs.mem_iff row).1 (Or.inr (List.mem_of_getElem? hrow))
  have ha := WorkingSet.getElem?_of_map_some hs.sound.ignoredRows hrow (hs.getElem?_rows hlt)
  have hb := WorkingSet.getElem?_of_map_some hs.sound.ignoredRhs hrow (hs.getElem?_rhs hlt)
  have hdot : ∀ v : ℕ → ℝ, dot n (p.A.row row) v = dot n (p.A row) v := fun v =>
    dot_congr (fun j _ => Mat.get_row ..) fun _ _ => rfl
  unfold ratios
  rw [List.getElem?_zipWith, ha, hb]
  simp only [hs.tolerances, hdot, abs_eq]

/-- A limit is the ratio of an ignored row that the direction approaches by more than the threshold. -/
theorem Lockstep.ratio_iff (hs : Lockstep p tol s) {i : ℕ} {v : ℝ} : (s.ratios d)[i]? = some (some v) ↔
    ∃ row, s.rows.ignored[i]? = some row ∧ tol.blocking < dot n (p.A row) d ∧
      v = |p.b row - dot n (p.A row) s.x| / dot n (p.A row) d := by
  constructor
  · intro h
    have hlt : i < s.rows.ignored.length := by
      rw [← hs.fits.length_ratios d]
      exact (List.getElem?_eq_some_iff.1 h).1
    obtain ⟨row, hrow⟩ : ∃ row, s.rows.ignored[i]? = some row := ⟨_, List.getElem?_eq_getElem hlt⟩
    rw [hs.getElem?_ratios hrow] at h
    split_ifs at h with hrate
    · exact ⟨row, hrow, hrate, (Option.some.inj (Option.some.inj h)).symm⟩
    · cases Option.some.inj h
  · rintro ⟨row, hrow, hrate, rfl⟩
    rw [hs.getElem?_ratios hrow, if_pos hrate]

theorem bounded_blocking {most : Option ℝ} {step : Step ℝ n} (h : s.bounded d most = .ok step) {i : ℕ} :
    step.blocking = some i ↔ ∃ t, tightest (s.ratios d) = some (t, i) ∧ step.length = some t := by
  obtain ⟨radius, -, rfl⟩ := map_eq_ok.1 h
  dsimp only
  rw [Option.bind_eq_some_iff]
  constructor
  · rintro ⟨⟨t, j⟩, hlimit, hif⟩
    split_ifs at hif with hany
    obtain rfl := Option.some.inj hif
    obtain ⟨u, hu, hsame⟩ := (Option.any_eq_true ..).1 hany
    obtain rfl : t = u := same_iff.1 hsame
    exact ⟨t, hlimit, hu⟩
  · rintro ⟨t, hlimit, hlen⟩
    exact ⟨(t, i), hlimit, if_pos ((Option.any_eq_true ..).2 ⟨t, hlen, same_iff.2 rfl⟩)⟩

/-- A step goes at most as far as it wanted and as every row lets it, and no shorter than one of its limits; a
blocking row is one that sets the length. -/
theorem bounded_eq_ok {most : Option ℝ} {step : Step ℝ n} (h : s.bounded d most = .ok step) :
    step.direction = d ∧ (∀ v, some v ∈ s.ratios d → Within step.length v) ∧
      (∀ t, step.length = some t → most = some t ∨ some t ∈ s.ratios d ∨ 0 ≤ t) ∧
      ∀ i, step.blocking = some i → ∃ t, step.length = some t ∧ (s.ratios d)[i]? = some (some t) := by
  obtain ⟨radius, hradius, hstep⟩ := map_eq_ok.1 h
  have hlen : step.length = tighter (tighter most ((tightest (s.ratios d)).map Prod.fst)) radius := by
    rw [← hstep, ← shorter_eq_tighter, ← shorter_eq_tighter]
  refine ⟨by rw [← hstep], fun v hv => ?_, fun t ht => ?_, fun i hi => ?_⟩
  · rw [hlen]
    exact tighter_left (tighter_right (within_tightest hv))
  · rw [hlen] at ht
    rcases tighter_eq_or (tighter most ((tightest (s.ratios d)).map Prod.fst)) radius with h | h
    · rw [h] at ht
      rcases tighter_eq_or most ((tightest (s.ratios d)).map Prod.fst) with h | h
      · exact Or.inl (h.symm.trans ht)
      · rw [h] at ht
        obtain ⟨⟨t', i⟩, hlimit, rfl⟩ := Option.map_eq_some_iff.1 ht
        exact Or.inr (Or.inl (List.mem_of_getElem? (tightest_eq_some hlimit).1))
    · obtain ⟨crossings, rfl, -⟩ := radiusLimit_eq_ok hradius
      exact Or.inr (Or.inr (nearest_eq_some (h.symm.trans ht)).2)
  · obtain ⟨t, hlimit, hlen⟩ := (bounded_blocking h).1 hi
    exact ⟨t, hlen, (tightest_eq_some hlimit).1⟩

theorem bounded_le {most : ℝ} {step : Step ℝ n} (h : s.bounded d (some most) = .ok step) : Within step.length most := by
  obtain ⟨radius, -, rfl⟩ := map_eq_ok.1 h
  dsimp only
  rw [shorter_eq_tighter, shorter_eq_tighter]
  exact tighter_left (tighter_left ⟨most, rfl, le_rfl⟩)

theorem dot_expand (F : ReducedFactor ℝ n) (u w : ℕ → ℝ) : dot n u (F.expand w) =
    dot F.width (fun j => dot n (fun i => F.z i j) u) fun j => w (F.width - 1 - j) := by
  have hexpand : dot n u (F.expand w) = dot n u fun i => dot F.width (F.z i) fun j => w (F.width - 1 - j) :=
    dot_congr (fun _ _ => rfl) fun i hi => Vec.get_ofFn_of_lt _ hi
  rw [hexpand, dot_transpose]

theorem Lockstep.dot_free (hs : Lockstep p tol s) {t : ℕ} (ht : s.factor.basis.size ≤ t) (htn : t < n) {row : ℕ}
    (hrow : row ∈ s.rows.working) : dot n (fun i => s.factor.basis.q i t) (p.A row) = 0 := by
  rw [← hs.columns.dot_free ht htn (List.mem_map_of_mem hrow)]
  exact dot_congr (fun _ _ => rfl) fun i _ => (Mat.get_row ..).symm

theorem Lockstep.dot_expand (hs : Lockstep p tol s) {row : ℕ} (hrow : row ∈ s.rows.working) (w : ℕ → ℝ) :
    dot n (p.A row) (s.factor.expand w) = 0 := by
  rw [Solver.dot_expand]
  refine dot_eq_zero fun j hj => ?_
  have hcol : s.factor.offset + j < n := by
    unfold ReducedFactor.width at hj
    omega
  have hzero : dot n (fun i => s.factor.z i j) (p.A row) = 0 :=
    hs.dot_free (t := s.factor.offset + j) (by unfold ReducedFactor.offset; omega) hcol hrow
  rw [hzero, zero_mul]

/-- Both kinds of direction are multiples of a combination of the free directions. -/
def Spanned (F : ReducedFactor ℝ n) (d : Vec ℝ n) : Prop := ∃ c w, ∀ i < n, d i = c * F.expand w i

theorem newtonDirection_spanned {F : ReducedFactor ℝ n} {along : ℕ → ℝ} (h : newtonDirection F along = .ok d) :
    Spanned F d := by
  unfold newtonDirection at h
  obtain ⟨u, -, h⟩ := bind_eq_ok.1 h
  obtain ⟨w, -, h⟩ := bind_eq_ok.1 h
  obtain rfl := Except.ok.inj h
  exact ⟨-1, w, fun i hi => by rw [Vec.get_ofFn_of_lt _ hi, neg_one_mul]⟩

/-- A ray is the direction of the last curvature up to its sign, and the sign is that of a descent. -/
theorem rayDirection_eq_ok {F : ReducedFactor ℝ n} {g : Vec ℝ n} (h : rayDirection F g = .ok d) :
    ∃ (c : ℝ) (w : Vec ℝ F.size), c * c = 1 ∧ (∀ i < n, d i = c * F.expand w i) ∧
      Triangular.solve F.size F.size F.u (fun t => if t = F.size - 1 then 1 else 0) = .ok w ∧ dot n d g ≤ 0 := by
  unfold rayDirection at h
  obtain ⟨w, hw, h⟩ := bind_eq_ok.1 h
  dsimp only at h
  by_cases hwidth : F.width ≠ F.size
  · rw [if_pos hwidth] at h
    cases h
  · rw [if_neg hwidth] at h
    by_cases hdown : 0 ≤ dot n (F.expand w) g
    · rw [if_pos hdown] at h
      obtain rfl := Except.ok.inj h
      have hneg : ∀ i < n, (Vec.ofFn fun i => -F.expand w i : Vec ℝ n) i = -1 * F.expand w i := fun i hi => by
        rw [Vec.get_ofFn_of_lt _ hi, neg_one_mul]
      refine ⟨-1, w, by norm_num, hneg, hw, ?_⟩
      rw [dot_congr hneg fun _ _ => rfl, dot_comm, dot_mul_right, dot_comm]
      linarith
    · rw [if_neg hdown] at h
      obtain rfl := Except.ok.inj h
      exact ⟨1, w, by norm_num, fun i _ => (one_mul _).symm, hw, (not_le.1 hdown).le⟩

theorem rayDirection_spanned {F : ReducedFactor ℝ n} {g : Vec ℝ n} (h : rayDirection F g = .ok d) :
    Spanned F d := by
  obtain ⟨c, w, -, hd, -⟩ := rayDirection_eq_ok h
  exact ⟨c, w, hd⟩

def projected (s : Solver ℝ m n) : Vec ℝ s.factor.width := Vec.ofFn (s.factor.project s.gradient)

/-- While the last curvature is positive nothing is looked for if the gradient is small along the free directions, else
their minimum. -/
theorem step_of_convex {step : Step ℝ n} (hconvex : s.convex = true) (h : s.step = .ok step) :
    (norm s.factor.width s.projected ≤ s.tolerances.projectedGradient ∧ step = ⟨0, some 0, none⟩) ∨
      (s.tolerances.projectedGradient < norm s.factor.width s.projected ∧
        ∃ d, newtonDirection s.factor s.projected = .ok d ∧ s.bounded d (some 1) = .ok step) := by
  have hsearch : s.search = if norm s.factor.width s.projected ≤ s.tolerances.projectedGradient then .ok .rest
      else (newtonDirection s.factor s.projected).map .newton := by
    unfold search
    dsimp only
    rw [if_pos hconvex]
    rfl
  unfold Solver.step at h
  rw [hsearch] at h
  by_cases hsmall : norm s.factor.width s.projected ≤ s.tolerances.projectedGradient
  · rw [if_pos hsmall] at h
    exact Or.inl ⟨hsmall, (Except.ok.inj h).symm⟩
  · rw [if_neg hsmall] at h
    refine Or.inr ⟨not_le.1 hsmall, ?_⟩
    cases hd : newtonDirection s.factor s.projected with
    | error cause =>
      rw [hd] at h
      cases h
    | ok d =>
      rw [hd] at h
      exact ⟨d, rfl, h⟩

theorem convex_eq_false (h : s.convex = false) :
    0 < s.factor.size ∧ s.factor.d (s.factor.size - 1) < s.rule.indefinite := by
  unfold convex at h
  simp only [Bool.or_eq_false_iff, decide_eq_false_iff_not, not_le] at h
  exact ⟨Nat.pos_of_ne_zero h.1, h.2⟩

theorem convex_eq_true (h : s.convex = true) (hsize : s.factor.size ≠ 0) :
    s.rule.indefinite ≤ s.factor.d (s.factor.size - 1) := by
  simpa [Solver.convex, hsize] using h

theorem Lockstep.positive_of_convex (hs : Lockstep p tol s) (hind : 0 < tol.indefinite) (h : s.convex = true) :
    ∀ i < s.factor.size, 0 < s.factor.d i := by
  refine hs.shaped.positive_of_last fun hsize => hind.trans_le ?_
  have hle := convex_eq_true h hsize
  rwa [hs.rule_eq] at hle

theorem step_of_not_convex {step : Step ℝ n} (hconvex : s.convex = false) (h : s.step = .ok step) :
    ∃ d, rayDirection s.factor s.gradient = .ok d ∧ s.bounded d none = .ok step := by
  have hsearch : s.search = (rayDirection s.factor s.gradient).map .ray := by
    unfold search
    dsimp only
    rw [if_neg (by rw [hconvex]; exact Bool.false_ne_true)]
  unfold Solver.step at h
  rw [hsearch] at h
  cases hd : rayDirection s.factor s.gradient with
  | error cause =>
    rw [hd] at h
    cases h
  | ok d =>
    rw [hd] at h
    exact ⟨d, rfl, h⟩

theorem step_eq_ok {step : Step ℝ n} (h : s.step = .ok step) : step = ⟨0, some 0, none⟩ ∨
    (∃ along d, newtonDirection s.factor along = .ok d ∧ s.bounded d (some 1) = .ok step) ∨
      (s.convex = false ∧ ∃ d, rayDirection s.factor s.gradient = .ok d ∧ s.bounded d none = .ok step) := by
  cases hconvex : s.convex with
  | true =>
    rcases step_of_convex hconvex h with ⟨-, hrest⟩ | ⟨-, d, hd, hstep⟩
    · exact Or.inl hrest
    · exact Or.inr (Or.inl ⟨_, d, hd, hstep⟩)
  | false => exact Or.inr (Or.inr ⟨rfl, step_of_not_convex hconvex h⟩)

theorem step_cases {step : Step ℝ n} (h : s.step = .ok step) : step = ⟨0, some 0, none⟩ ∨
    ∃ d most, Spanned s.factor d ∧ (most = some 1 ∨ most = none) ∧ s.bounded d most = .ok step := by
  rcases step_eq_ok h with hrest | ⟨along, d, hd, hstep⟩ | ⟨-, d, hd, hstep⟩
  · exact Or.inl hrest
  · exact Or.inr ⟨d, some 1, newtonDirection_spanned hd, Or.inl rfl, hstep⟩
  · exact Or.inr ⟨d, none, rayDirection_spanned hd, Or.inr rfl, hstep⟩

theorem Lockstep.dot_spanned (hs : Lockstep p tol s) (hd : Spanned s.factor d) {row : ℕ}
    (hrow : row ∈ s.rows.working) : dot n (p.A row) d = 0 := by
  obtain ⟨c, w, hd⟩ := hd
  rw [dot_congr (fun _ _ => rfl) hd, dot_mul_right, hs.dot_expand hrow, mul_zero]

theorem dot_along (u : ℕ → ℝ) (x d : Vec ℝ n) (t : ℝ) : dot n u (x.along t d) = dot n u x + t * dot n u d := by
  rw [← dot_mul_right, ← dot_add_right]
  exact dot_congr (fun _ _ => rfl) fun i hi => Vec.get_along x d t hi

/-- Every row holds, and the working ones with equality. -/
structure Feasible (p : Problem ℝ m n) (s : Solver ℝ m n) : Prop where
  rows : ∀ row < m, dot n (p.A row) s.x ≤ p.b row
  working : ∀ row ∈ s.rows.working, dot n (p.A row) s.x = p.b row

theorem Feasible.along (hf : Feasible p s) (hs : Lockstep p tol s) (hblocking : tol.blocking = 0) {t : ℝ}
    (ht : 0 ≤ t) (hd : ∀ row ∈ s.rows.working, dot n (p.A row) d = 0)
    (hlimit : ∀ v, some v ∈ s.ratios d → t ≤ v) :
    Feasible p { s with x := s.x.along t d } := by
  have hworking : ∀ row ∈ s.rows.working, dot n (p.A row) (s.x.along t d) = p.b row := fun row hrow => by
    rw [dot_along, hd row hrow, mul_zero, add_zero, hf.working row hrow]
  refine ⟨fun row hrow => ?_, hworking⟩
  rcases (hs.mem_iff row).2 hrow with hw | hi
  · exact (hworking row hw).le
  · change dot n (p.A row) (s.x.along t d) ≤ p.b row
    rw [dot_along]
    have hslack := hf.rows row hrow
    rcases le_or_gt (dot n (p.A row) d) 0 with hrate | hrate
    · have := mul_nonpos_of_nonneg_of_nonpos ht hrate
      linarith
    · obtain ⟨j, hj⟩ := List.getElem?_of_mem hi
      have hratio := hs.getElem?_ratios (d := d) hj
      rw [hblocking, if_pos hrate] at hratio
      have hle := hlimit _ (List.mem_of_getElem? hratio)
      rw [le_div_iff₀ hrate, abs_of_nonneg (by linarith)] at hle
      linarith

theorem ratio_nonneg (hblocking : 0 ≤ s.tolerances.blocking) {v : ℝ} (hv : some v ∈ s.ratios d) : 0 ≤ v := by
  obtain ⟨j, hj⟩ := List.getElem?_of_mem hv
  unfold ratios at hj
  rw [List.getElem?_zipWith_eq_some] at hj
  obtain ⟨a, b, -, -, hratio⟩ := hj
  dsimp only at hratio
  split_ifs at hratio with hrate
  rw [← Option.some.inj hratio, abs_eq]
  exact div_nonneg (abs_nonneg _) (hblocking.trans hrate.le)

theorem length_nonneg (hblocking : 0 ≤ s.tolerances.blocking) {step : Step ℝ n} {t : ℝ}
    (hstep : s.step = .ok step) (hlen : step.length = some t) : 0 ≤ t := by
  rcases step_cases hstep with rfl | ⟨d, most, -, hmost, hbounded⟩
  · exact (Option.some.inj hlen).le
  · obtain ⟨-, -, hleast, -⟩ := bounded_eq_ok hbounded
    rcases hleast t hlen with hmost' | hv | h0
    · rcases hmost with rfl | rfl
      · rw [← Option.some.inj hmost']
        exact zero_le_one
      · cases hmost'
    · exact ratio_nonneg hblocking hv
    · exact h0

theorem Lockstep.length_nonneg (hs : Lockstep p tol s) (hblocking : 0 ≤ tol.blocking) {step : Step ℝ n} {t : ℝ}
    (hstep : s.step = .ok step) (hlen : step.length = some t) : 0 ≤ t :=
  Solver.length_nonneg (by rwa [hs.tolerances]) hstep hlen

theorem Feasible.met (hf : Feasible p s) (hs : Lockstep p tol s) (hblocking : tol.blocking = 0) {i row : ℕ} {t : ℝ}
    (hrow : s.rows.ignored[i]? = some row) (hratio : (s.ratios d)[i]? = some (some t)) :
    dot n (p.A row) (s.x.along t d) = p.b row := by
  have hslack := hf.rows row ((hs.mem_iff row).1 (Or.inr (List.mem_of_getElem? hrow)))
  obtain ⟨row', hrow', hrate, rfl⟩ := hs.ratio_iff.1 hratio
  obtain rfl : row = row' := Option.some.inj (hrow.symm.trans hrow')
  rw [hblocking] at hrate
  rw [dot_along, div_mul_cancel₀ _ hrate.ne', abs_of_nonneg (by linarith)]
  ring

/-- A step from a feasible point ends in one, and meets the row that it takes up. -/
theorem Feasible.taken (hf : Feasible p s) (hs : Lockstep p tol s) (hblocking : tol.blocking = 0)
    {step : Step ℝ n} (hstep : s.step = .ok step) {t : ℝ} (hlen : step.length = some t)
    (h : (s.taken step t).result = .ok ()) : Feasible p (s.taken step t).state := by
  have ht := hs.length_nonneg hblocking.ge hstep hlen
  rcases step_cases hstep with rfl | ⟨d, most, hd, -, hbounded⟩
  · obtain rfl := Option.some.inj hlen
    refine hf.along hs hblocking le_rfl (fun row _ => ?_) fun v hv => ?_
    · exact dot_eq_zero fun i _ => by rw [Vec.get_zero, mul_zero]
    · exact ratio_nonneg (by rw [hs.tolerances]; exact hblocking.ge) hv
  · obtain ⟨rfl, hlimit, -, hblock⟩ := bounded_eq_ok hbounded
    have hd0 : ∀ row ∈ s.rows.working, dot n (p.A row) step.direction = 0 := fun row hrow => hs.dot_spanned hd hrow
    have hle : ∀ v, some v ∈ s.ratios step.direction → t ≤ v := fun v hv => by
      obtain ⟨u, hu, huv⟩ := hlimit v hv
      rw [hlen] at hu
      exact (Option.some.inj hu).le.trans huv
    have hmoved := hf.along hs hblocking ht hd0 hle
    obtain ⟨rows, factor, hstate, ⟨-, rfl, rfl⟩ | ⟨i, row, hb, hrow, hworking, -⟩⟩ := hs.taken_eq_ok h
    · rw [hstate]
      exact hmoved
    · rw [hstate]
      refine ⟨hmoved.rows, fun r hr => ?_⟩
      have hr : r ∈ rows.working := hr
      rw [hworking, List.mem_append, List.mem_singleton] at hr
      rcases hr with hr | rfl
      · exact hmoved.working r hr
      · -- the row that is taken up is the one whose ratio is the length
        obtain ⟨u, hu, hratio⟩ := hblock i hb
        obtain rfl : t = u := Option.some.inj (hlen.symm.trans hu)
        exact hf.met hs hblocking hrow hratio

theorem Feasible.iterate (hf : Feasible p s) (hs : Lockstep p tol s) (ht : tol.Accepted)
    (hblocking : tol.blocking = 0) (h : s.iterate.result = .ok ()) : Feasible p s.iterate.state := by
  obtain ⟨step, hstep, ⟨-, hstate⟩ | ⟨t, hlen, htaken, r, hr, hstate⟩⟩ := iterate_cases h
  · rw [hstate]
    exact ⟨hf.rows, hf.working⟩
  · have hmoved := hf.taken hs hblocking hstep hlen htaken
    rw [hstate]
    rcases hr with ⟨-, rfl⟩ | ⟨-, hsettle, rfl⟩
    · exact ⟨hmoved.rows, hmoved.working⟩
    · obtain ⟨_, _, _, rows, factor, hsettled, hworking, -⟩ := (hs.taken ht htaken).settle_eq_ok hsettle
      rw [hsettled]
      exact ⟨hmoved.rows, fun row hrow => hmoved.working row (hworking row hrow)⟩

end Solver

end
end ActiveSet
