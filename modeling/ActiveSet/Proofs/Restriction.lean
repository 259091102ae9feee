import ActiveSet.Proofs.Curvature

/-! A removal frees one more direction, and the start factors as many as it can. With the additions this makes
the factorization of the restricted Hessian an invariant of every run. -/

namespace ActiveSet

noncomputable section
open Exact

variable {n : ℕ}

namespace ReducedFactor

variable {P : Mat ℝ n n} {F G H : ReducedFactor ℝ n} {rule : CurvatureRule ℝ} {idx : Option ℤ}

/-- As in `Shaped`, but before its last entry `D` may have either sign. -/
structure Signed (F : ReducedFactor ℝ n) : Prop where
  count : F.size + F.artificial + F.basis.size = n
  factors : ∃ W, F.basis.Factors W
  upper : ∀ i j, j < i → F.u i j = 0
  outside : ∀ i j, F.size ≤ j → F.u i j = 0
  diagonal : ∀ i < F.size, 0 < F.u i i
  nonzero : ∀ i, i + 1 < F.size → F.d i ≠ 0

theorem Shaped.signed (hF : Shaped F) : Signed F :=
  ⟨hF.count, hF.factors, hF.upper, hF.outside, hF.diagonal, fun i hi => (hF.positive i hi).ne'⟩

theorem Signed.shaped (hF : Signed F) (h : ∀ i, i + 1 < F.size → 0 ≤ F.d i) : Shaped F :=
  ⟨hF.count, hF.factors, hF.upper, hF.outside, hF.diagonal, fun i hi => lt_of_le_of_ne (h i hi) (hF.nonzero i hi).symm⟩

/-- `G` is `F` with one more direction that is not working, before that one is factored. -/
structure Freed (F G : ReducedFactor ℝ n) : Prop where
  count : G.size + 1 + G.artificial + G.basis.size = n
  factors : ∃ W, G.basis.Factors W
  size : G.size = F.size
  u : G.u = F.u
  d : G.d = F.d
  kept : ∀ j < F.size, ∀ i < n, reversed G.basis.q j i = reversed F.basis.q j i

theorem Signed.freed_artificial (hF : Signed F) (h : 0 < F.artificial) :
    Freed F { F with artificial := F.artificial - 1 } := by
  have hcount := hF.count
  refine ⟨?_, hF.factors, rfl, rfl, rfl, fun _ _ _ _ => rfl⟩
  change F.size + 1 + (F.artificial - 1) + F.basis.size = n
  omega

theorem Signed.freed_column (hF : Signed F) {i : ℤ} (h : (F.basis.remove i).result = .ok ()) :
    Freed F { F with basis := (F.basis.remove i).state } := by
  have hcount := hF.count
  obtain ⟨W, hW⟩ := hF.factors
  obtain ⟨h0, hlt, he⟩ := OrthogonalFactor.remove_eq_ok h
  refine ⟨?_, ⟨_, hW.remove h⟩, rfl, rfl, rfl, fun j hj r hr => ?_⟩
  · change F.size + 1 + F.artificial + (F.basis.remove i).state.size = n
    rw [he]
    change F.size + 1 + F.artificial + (F.basis.size - 1) = n
    omega
  · change (F.basis.remove i).state.q r (n - 1 - j) = F.basis.q r (n - 1 - j)
    rw [he]
    exact OrthogonalFactor.erase_free hr (by omega) (by omega)

section

variable {α : Type} [Scalar α] {P : Mat α n n} {F G : ReducedFactor α n} {rule : CurvatureRule α}

def release (F : ReducedFactor α n) (idx : Option ℤ) : Outcome α (ReducedFactor α n) Unit :=
  if F.artificial = 0 then
    match idx with
    | none => .fail F .indexRequired
    | some i => (F.basis.remove i).within fun basis => { F with basis }
  else
    match idx with
    | none => .done { F with artificial := F.artificial - 1 } ()
    | some i => (Outcome.done { F with artificial := F.artificial - 1 } ()).reporting (.indexIgnored i)

def regrow (rule : CurvatureRule α) (P : Mat α n n) (F G : ReducedFactor α n) :
    Outcome α (ReducedFactor α n) Unit :=
  match grow rule P F G with
  | .error cause => .fail G cause
  | .ok H => .done H ()

theorem remove_eq (rule : CurvatureRule α) (P : Mat α n n) (F : ReducedFactor α n) (idx : Option ℤ) :
    F.remove rule P idx = if F.size ≠ 0 ∧ ¬rule.indefinite < F.d (F.size - 1) then .fail F .notPositive
      else (F.release idx).andThen fun G _ => regrow rule P F G := by
  unfold remove
  by_cases hguard : F.size ≠ 0 ∧ ¬rule.indefinite < F.d (F.size - 1)
  · rw [if_pos hguard, if_pos hguard]
  · rw [if_neg hguard, if_neg hguard]
    refine congrArg₂ Outcome.andThen ?_ (funext fun G => funext fun _ => ?_)
    · unfold release
      cases idx <;> rfl
    · unfold regrow
      cases grow rule P F G <;> rfl

theorem regrow_eq_ok (h : (regrow rule P F G).result = .ok ()) :
    grow rule P F G = .ok (regrow rule P F G).state := by
  unfold regrow at h ⊢
  cases hg : grow rule P F G with
  | error cause => simp [hg, Outcome.fail] at h
  | ok H => rfl

theorem release_eq_ok (h : (F.release idx).result = .ok ()) :
    (F.artificial = 0 ∧ ∃ i : ℤ, idx = some i ∧ (F.basis.remove i).result = .ok () ∧
        (F.release idx).state = { F with basis := (F.basis.remove i).state }) ∨
      (0 < F.artificial ∧ (F.release idx).state = { F with artificial := F.artificial - 1 }) := by
  unfold release at h ⊢
  split_ifs at h ⊢ with hart
  · cases idx with
    | none => cases h
    | some i => exact Or.inl ⟨hart, i, rfl, h, rfl⟩
  · refine Or.inr ⟨by omega, ?_⟩
    cases idx with
    | none => rfl
    | some i => exact Outcome.state_reporting ..

theorem result_release (F : ReducedFactor α n) (idx : Option ℤ) : (F.release idx).result =
    if F.artificial = 0 then
      match idx with
      | none => .error .indexRequired
      | some i => if 0 ≤ i ∧ i < F.basis.size then .ok () else .error (.columnRange i F.basis.size)
    else .ok () := by
  unfold release OrthogonalFactor.remove
  cases idx with
  | none => split_ifs <;> rfl
  | some i =>
    dsimp only
    split_ifs
    · rw [Outcome.result_within, Outcome.result_reporting]
      rfl
    · rfl
    · exact Outcome.result_reporting ..

/-- The direction to set free is settled before it is. -/
theorem state_release_of_error {cause : Fault} (h : (F.release idx).result = .error cause) :
    (F.release idx).state = F := by
  unfold release at h ⊢
  split_ifs at h ⊢ with hart
  · cases idx with
    | none => rfl
    | some i =>
      dsimp only at h ⊢
      unfold OrthogonalFactor.remove at h ⊢
      split_ifs at h ⊢ with hrange
      · rw [Outcome.result_within, Outcome.result_reporting] at h
        cases h
      · rfl
  · cases idx with
    | none => cases h
    | some i =>
      rw [Outcome.result_reporting] at h
      cases h

theorem remove_cases (h : (F.remove rule P idx).result = .ok ()) :
    (F.size ≠ 0 → rule.indefinite < F.d (F.size - 1)) ∧ (F.release idx).result = .ok () ∧
      grow rule P F (F.release idx).state = .ok (F.remove rule P idx).state := by
  rw [remove_eq] at h ⊢
  split_ifs at h ⊢ with hguard
  · cases h
  · obtain ⟨⟨⟩, hrelease, hgrow⟩ := Outcome.result_andThen_eq_ok.1 h
    refine ⟨fun h0 => by_contra fun hd => hguard ⟨h0, hd⟩, hrelease, ?_⟩
    rw [regrow_eq_ok hgrow]
    simp [Outcome.andThen, hrelease]

theorem add_of_full (rule : CurvatureRule α) (P : Mat α n n) (h : n ≤ F.basis.size) (a : Vec α n) :
    F.add rule P a = .fail F .fullRank := by
  unfold add OrthogonalFactor.append
  rw [if_pos h]

/-- Nothing refuses to free an artificial direction while none is factored. -/
theorem remove_of_size_eq_zero (rule : CurvatureRule α) (P : Mat α n n) (h0 : F.size = 0) (hart : 0 < F.artificial) :
    (F.remove rule P none).result = .ok () := by
  rw [remove_eq, if_neg fun h => h.1 h0, Outcome.result_andThen_eq_ok]
  have hrelease : F.release none = .done { F with artificial := F.artificial - 1 } () := by
    unfold release
    rw [if_neg hart.ne']
  refine ⟨(), by rw [hrelease]; rfl, ?_⟩
  have hstate : (F.release none).state = { F with artificial := F.artificial - 1 } := by
    rw [hrelease]
    rfl
  rw [hstate]
  unfold regrow grow
  dsimp only
  rw [if_pos h0]
  rfl

end

theorem Signed.freed (hF : Signed F) (h : (F.release idx).result = .ok ()) : Freed F (F.release idx).state := by
  rcases release_eq_ok h with ⟨-, i, -, hremove, hs⟩ | ⟨hart, hs⟩
  · rw [hs]
    exact hF.freed_column hremove
  · rw [hs]
    exact hF.freed_artificial hart

def grown (rule : CurvatureRule ℝ) (G : ReducedFactor ℝ n) (w : ℕ → ℝ) (rest : ℝ) : ReducedFactor ℝ n :=
  { G with
    size := G.size + 1
    u := G.u.setCol G.size fun i => if i < G.size then w i else if i = G.size then 1 else G.u i G.size
    d := G.d.set G.size (if |rest| ≤ rule.flat then 0 else rest) }

theorem Freed.offset_add (hG : Freed F G) : G.offset + G.size + 1 = n := by
  have := hG.count
  unfold offset
  omega

def newColumn (P : Mat ℝ n n) (F G : ReducedFactor ℝ n) : Except Fault (Vec ℝ G.size) :=
  if G.size = 0 then .ok 0
  else
    (Triangular.solveT G.size F.width G.u fun t => F.project (lastSlope P G) (F.width - 1 - t)).map fun w =>
      Vec.ofFn fun i => w i / G.d i

theorem Freed.grow_eq (hG : Freed F G) : grow rule P F G = (newColumn P F G).map fun w : Vec ℝ G.size =>
    grown rule G w (G.curvature P G.size G.size - dot G.size w fun i => G.d i * w i) := by
  have hc := dot_lastDirection (P := P) hG.offset_add
  have hentries : ∀ (e : Except Fault (Vec ℝ G.size)) (f : (ℕ → ℝ) → ReducedFactor ℝ n),
      Except.map f (e >>= fun w => pure w.get) = e.map fun w => f w.get := by
    intro e f
    cases e <;> rfl
  simp only [grown, ← hc, ← abs_eq]
  unfold grow
  exact (hentries (newColumn P F G) _).trans (by congr 1)

/-- The new column says what the old directions see of the new one. -/
theorem Freed.newColumn_solves (hG : Freed F G) (hF : Signed F) (hd : ∀ i < F.size, F.d i ≠ 0)
    {w : Vec ℝ G.size} (h : newColumn P F G = .ok w) {i : ℕ} (hi : i < G.size) :
    dot G.size (fun l => G.u l i) (fun l => G.d l * w l) = G.curvature P i G.size := by
  have hcount := hG.count
  have hsize := hG.size
  unfold newColumn at h
  rw [if_neg (by omega)] at h
  obtain ⟨v, hv, rfl⟩ := map_eq_ok.1 h
  obtain ⟨⟨-, hne⟩, rfl⟩ := Triangular.solveT_eq_ok.1 hv
  have hupper : Triangular.IsUpper G.size G.u := by
    rw [hG.size, hG.u]
    exact fun i _ j hj => hF.upper i j hj
  have hsolve := Triangular.forward_solves (b := fun t => F.project (lastSlope P G) (F.width - 1 - t)) hupper hne hi
  have hproj : F.project (lastSlope P G) (F.width - 1 - i) = G.curvature P i G.size := by
    unfold project
    rw [dot_lastSlope hG.offset_add, width_eq_size hF.count]
    refine Mat.form_congr (fun k hk => ?_) fun _ _ => rfl
    rw [z_eq_reversed hF.count (by omega), hG.kept i (by omega) k hk]
  rw [← hproj, ← hsolve]
  refine dot_congr (fun _ _ => rfl) fun l hl => ?_
  rw [Vec.get_ofFn_of_lt _ hl]
  have hne := hd l (by omega)
  rw [hG.d]
  field_simp

theorem get_grown {w : ℕ → ℝ} {rest : ℝ} {i j : ℕ} (hi : i < n) (hj : j < n) : (grown rule G w rest).u i j =
    if j = G.size then (if i < G.size then w i else if i = G.size then 1 else G.u i G.size) else G.u i j :=
  Mat.get_setCol _ hi hj _ _

theorem get_grown_of_ne {w : ℕ → ℝ} {rest : ℝ} {i j : ℕ} (h : j ≠ G.size) :
    (grown rule G w rest).u i j = G.u i j := by
  by_cases hin : i < n ∧ j < n
  · rw [get_grown hin.1 hin.2, if_neg h]
  · rw [Mat.get_of_le _ (by omega), Mat.get_of_le _ (by omega)]

theorem d_grown_of_lt {w : ℕ → ℝ} {rest : ℝ} {i : ℕ} (hi : i < n) (h : i < G.size) :
    (grown rule G w rest).d i = G.d i := by
  change (G.d.set G.size _) i = _
  rw [Vec.get_set _ hi, if_neg h.ne]

theorem d_grown_last {w : ℕ → ℝ} {rest : ℝ} (h : G.size < n) :
    (grown rule G w rest).d G.size = if |rest| ≤ rule.flat then 0 else rest := by
  change (G.d.set G.size _) G.size = _
  rw [Vec.get_set _ h, if_pos rfl]

theorem Freed.signed_grown (hG : Freed F G) (hF : Signed F) (hd : ∀ i < F.size, F.d i ≠ 0) (w : ℕ → ℝ)
    (rest : ℝ) : Signed (grown rule G w rest) := by
  have hcount := hG.count
  have hsize := hG.size
  refine ⟨by change G.size + 1 + G.artificial + G.basis.size = n; omega, hG.factors, fun i j hji => ?_,
    fun i j hj => ?_, fun i hi => ?_, fun i hi => ?_⟩
  · rcases eq_or_ne j G.size with rfl | hne
    · rcases lt_or_ge i n with hin | hin
      · rw [get_grown hin (by omega), if_pos rfl, if_neg (by omega), if_neg (by omega), hG.u, hsize]
        exact hF.outside i _ le_rfl
      · exact Mat.get_of_le _ (Or.inl hin)
    · rw [get_grown_of_ne hne, hG.u]
      exact hF.upper i j hji
  · have hj : G.size + 1 ≤ j := hj
    rw [get_grown_of_ne (by omega), hG.u]
    exact hF.outside i j (by omega)
  · have hi : i < G.size + 1 := hi
    rcases eq_or_ne i G.size with rfl | hne
    · rw [get_grown (by omega) (by omega), if_pos rfl, if_neg (lt_irrefl _), if_pos rfl]
      exact one_pos
    · rw [get_grown_of_ne hne, hG.u]
      exact hF.diagonal i (by omega)
  · have hi : i + 1 < G.size + 1 := hi
    rw [d_grown_of_lt (by omega) (by omega), hG.d]
    exact hd i (by omega)

theorem Freed.shaped_grown (hG : Freed F G) (hF : Shaped F) (hd : ∀ i < F.size, 0 < F.d i) (w : ℕ → ℝ)
    (rest : ℝ) : Shaped (grown rule G w rest) := by
  have hcount := hG.count
  have hsize := hG.size
  refine (hG.signed_grown hF.signed (fun i hi => (hd i hi).ne') w rest).shaped fun i hi => ?_
  have hi : i + 1 < G.size + 1 := hi
  rw [d_grown_of_lt (by omega) (by omega), hG.d]
  exact (hd i (by omega)).le

/-- Unless `D` ends in zero the corner is exact too. -/
theorem Curved.exactly {flat : ℝ} (hC : Curved P flat F) (hlast : ∀ i, i + 1 = F.size → F.d i ≠ 0) :
    ∀ i < F.size, ∀ j < F.size, F.product i j = F.curvature P i j := by
  intro i hi j hj
  by_cases hij : i + 1 = F.size ∧ j + 1 = F.size
  · obtain rfl : i = j := by omega
    by_contra hne
    exact hlast i hij.1 ((hC.corner i hij.1).2 hne)
  · exact hC.entries i hi j hj hij

theorem product_comm (F : ReducedFactor ℝ n) (i j : ℕ) : F.product i j = F.product j i := by
  rw [product, product, dot_comm]
  exact dot_congr_mul fun l _ => by ring

theorem product_grown (w : ℕ → ℝ) (rest : ℝ) (h : G.size < n) (i j : ℕ) : (grown rule G w rest).product i j =
    dot G.size (fun l => (grown rule G w rest).u l i) (fun l => G.d l * (grown rule G w rest).u l j) +
      (grown rule G w rest).u G.size i * ((grown rule G w rest).d G.size * (grown rule G w rest).u G.size j) := by
  change dot (G.size + 1) _ _ = _
  rw [dot_succ]
  congr 1
  exact dot_congr (fun _ _ => rfl) fun l hl => by rw [d_grown_of_lt (by omega) hl]

theorem Freed.curved_grown (hG : Freed F G) (hF : Signed F) (hd : ∀ i < F.size, F.d i ≠ 0)
    (hC : Curved P rule.flat F) (hP : P.Symmetric) (hflat : 0 ≤ rule.flat) {w : ℕ → ℝ}
    (hw : ∀ i < G.size, dot G.size (fun l => G.u l i) (fun l => G.d l * w l) = G.curvature P i G.size) :
    Curved P rule.flat
      (grown rule G w (G.curvature P G.size G.size - dot G.size w fun i => G.d i * w i)) := by
  have hcount := hG.count
  have hsize := hG.size
  set c := G.curvature P G.size G.size
  set rest := c - dot G.size w fun i => G.d i * w i
  have hlow : ∀ i < G.size, G.u G.size i = 0 := fun i hi => by
    rw [hG.u, hsize]
    exact hF.upper _ i (by omega)
  have hproduct : ∀ i j, (grown rule G w rest).product i j = _ := product_grown w rest (by omega)
  have hcol : ∀ l < G.size, (grown rule G w rest).u l G.size = w l := fun l hl => by
    rw [get_grown (by omega) (by omega), if_pos rfl, if_pos hl]
  have hold : ∀ l, ∀ i < G.size, (grown rule G w rest).u l i = G.u l i := fun l i hi => get_grown_of_ne hi.ne
  -- an old column against the new one
  have hcross : ∀ i < G.size, (grown rule G w rest).product i G.size = G.curvature P i G.size := by
    intro i hi
    rw [hproduct, hold _ i hi, hlow i hi, zero_mul, add_zero, ← hw i hi]
    exact dot_congr (fun l _ => hold l i hi) fun l hl => by rw [hcol l hl]
  constructor
  · intro i hi j hj hij
    have hi : i < G.size + 1 := hi
    have hj : j < G.size + 1 := hj
    have hij : ¬(i + 1 = G.size + 1 ∧ j + 1 = G.size + 1) := hij
    change _ = G.curvature P i j
    rcases eq_or_ne j G.size with rfl | hjne
    · exact hcross i (by omega)
    · rcases eq_or_ne i G.size with rfl | hine
      · rw [product_comm, hcross j (by omega)]
        exact Mat.form_comm hP _ _
      · have hi : i < G.size := by omega
        have hj : j < G.size := by omega
        rw [hproduct, hold _ i hi, hlow i hi, zero_mul, add_zero]
        have hFij := hC.exactly (fun l hl => hd l (by omega)) i (by omega) j (by omega)
        rw [ReducedFactor.curvature, ← Mat.form_congr (hG.kept i (by omega)) (hG.kept j (by omega))] at hFij
        rw [ReducedFactor.curvature, ← hFij, product, ← hsize, ← hG.u, ← hG.d]
        exact dot_congr (fun l _ => hold l i hi) fun l _ => by rw [hold l j hj]
  · intro i hi
    obtain rfl : i = G.size := Nat.succ.inj hi
    have hcorner : (grown rule G w rest).product G.size G.size =
        c - rest + if |rest| ≤ rule.flat then 0 else rest := by
      rw [hproduct, get_grown (by omega) (by omega), if_pos rfl, if_neg (lt_irrefl _), if_pos rfl,
        d_grown_last (by omega), mul_one, one_mul]
      congr 1
      rw [dot_congr hcol fun l hl => by rw [hcol l hl]]
      simp only [rest, sub_sub_cancel]
    rw [hcorner, d_grown_last (by omega)]
    change |_ - c| ≤ rule.flat ∧ (_ ≠ c → _)
    split_ifs with h
    · refine ⟨?_, fun _ => rfl⟩
      rwa [add_zero, sub_sub_cancel_left, abs_neg]
    · rw [sub_add_cancel, sub_self, abs_zero]
      exact ⟨hflat, fun hne => absurd rfl hne⟩

theorem Shaped.positive_of_lt (hF : Shaped F) (hind : 0 ≤ rule.indefinite)
    (hlast : F.size ≠ 0 → rule.indefinite < F.d (F.size - 1)) : ∀ i < F.size, 0 < F.d i :=
  hF.positive_of_last fun h => hind.trans_lt (hlast h)

theorem Signed.remove_eq_grown (hF : Signed F) (h : (F.remove rule P idx).result = .ok ()) :
    ∃ G, Freed F G ∧ ∃ w : Vec ℝ G.size, newColumn P F G = .ok w ∧ (F.remove rule P idx).state =
      grown rule G w (G.curvature P G.size G.size - dot G.size w fun i => G.d i * w i) := by
  obtain ⟨-, hrelease, hgrow⟩ := remove_cases h
  have hG := hF.freed hrelease
  refine ⟨_, hG, ?_⟩
  rw [hG.grow_eq] at hgrow
  obtain ⟨w, hw, hs⟩ := map_eq_ok.1 hgrow
  exact ⟨w, hw, hs.symm⟩

theorem Shaped.remove_eq_grown (hF : Shaped F) (hind : 0 ≤ rule.indefinite)
    (h : (F.remove rule P idx).result = .ok ()) : ∃ G, Freed F G ∧ (∀ i < F.size, 0 < F.d i) ∧
      ∃ w : Vec ℝ G.size, newColumn P F G = .ok w ∧ (F.remove rule P idx).state =
        grown rule G w (G.curvature P G.size G.size - dot G.size w fun i => G.d i * w i) := by
  obtain ⟨G, hG, hgrown⟩ := hF.signed.remove_eq_grown h
  exact ⟨G, hG, hF.positive_of_lt hind (remove_cases h).1, hgrown⟩

theorem Signed.remove (hF : Signed F) (hd : ∀ i < F.size, F.d i ≠ 0) (h : (F.remove rule P idx).result = .ok ()) :
    Signed (F.remove rule P idx).state := by
  obtain ⟨G, hG, w, -, hs⟩ := hF.remove_eq_grown h
  rw [hs]
  exact hG.signed_grown hF hd _ _

theorem Shaped.remove (hF : Shaped F) (hind : 0 ≤ rule.indefinite)
    (h : (F.remove rule P idx).result = .ok ()) : Shaped (F.remove rule P idx).state := by
  obtain ⟨G, hG, hd, w, -, hs⟩ := hF.remove_eq_grown hind h
  rw [hs]
  exact hG.shaped_grown hF hd _ _

/-- For the new column `D` is divided by; its signs do not matter. -/
theorem Signed.curved_remove (hF : Signed F) (hC : Curved P rule.flat F) (hP : P.Symmetric)
    (hd : ∀ i < F.size, F.d i ≠ 0) (hflat : 0 ≤ rule.flat) (h : (F.remove rule P idx).result = .ok ()) :
    Curved P rule.flat (F.remove rule P idx).state := by
  obtain ⟨G, hG, w, hw, hs⟩ := hF.remove_eq_grown h
  rw [hs]
  exact hG.curved_grown hF hd hC hP hflat fun i hi => hG.newColumn_solves hF hd hw hi

theorem Curved.remove (hC : Curved P rule.flat F) (hF : Shaped F) (hP : P.Symmetric)
    (hind : 0 ≤ rule.indefinite) (hflat : 0 ≤ rule.flat) (h : (F.remove rule P idx).result = .ok ()) :
    Curved P rule.flat (F.remove rule P idx).state :=
  hF.signed.curved_remove hC hP (fun i hi => (hF.positive_of_lt hind (remove_cases h).1 i hi).ne') hflat h

theorem get_restriction (hP : P.Symmetric) (basis : OrthogonalFactor ℝ n) {i j : ℕ}
    (hi : i < basis.nullity) (hj : j < basis.nullity) :
    restriction P basis i j = P.form (reversed basis.q i) (reversed basis.q j) := by
  have hform : ∀ i j, dot n (P.applyT (basis.q.col (n - 1 - i))) (basis.q.col (n - 1 - j)) =
      P.form (reversed basis.q i) (reversed basis.q j) := by
    intro i j
    unfold Mat.form
    rw [dot_transpose]
    refine dot_congr (fun k hk => ?_) fun k _ => Mat.get_col ..
    rw [Mat.get_applyT _ _ hk]
    exact dot_congr (fun _ _ => rfl) fun l _ => Mat.get_col ..
  unfold restriction
  rw [Mat.get_symmetrize _ hi hj, Mat.get_ofFn_of_lt _ hi hj, Mat.get_ofFn_of_lt _ hj hi, hform, hform,
    Mat.form_comm hP (reversed basis.q j)]
  norm_num
  ring

theorem symmetric_restriction (hP : P.Symmetric) {basis : OrthogonalFactor ℝ n} {i j : ℕ}
    (hi : i < basis.nullity) (hj : j < basis.nullity) : Cholesky.symmetric (restriction P basis) i j =
      P.form (reversed basis.q i) (reversed basis.q j) := by
  unfold Cholesky.symmetric
  split_ifs
  · exact get_restriction hP basis hi hj
  · rw [get_restriction hP basis hj hi, Mat.form_comm hP]

section Start

variable {basis : OrthogonalFactor ℝ n} {s : Cholesky ℝ basis.nullity} {M : Mat ℝ basis.nullity basis.nullity}
  {tol flat : ℝ} {W : List (Vec ℝ n)}

def place (basis : OrthogonalFactor ℝ n) (s : Cholesky ℝ basis.nullity) (j : ℕ) : ℕ :=
  if j - basis.size < basis.nullity - s.rank then s.rank + (j - basis.size) else n - 1 - j

theorem place_lt (hs : s.rank ≤ basis.nullity) {j : ℕ} (hj : j < n) (hsize : basis.size ≤ j) :
    place basis s j < basis.nullity := by
  have hn : basis.nullity = n - basis.size := rfl
  unfold place
  split_ifs <;> omega

theorem place_inj (hs : s.rank ≤ basis.nullity) {i j : ℕ} (hi : i < n) (hj : j < n) (hisize : basis.size ≤ i)
    (hjsize : basis.size ≤ j) (h : place basis s i = place basis s j) : i = j := by
  have hn : basis.nullity = n - basis.size := rfl
  unfold place at h
  split_ifs at h <;> omega

theorem place_reversed (hs : s.rank ≤ basis.nullity) {i : ℕ} (hi : i < s.rank) :
    place basis s (n - 1 - i) = i := by
  have hn : basis.nullity = n - basis.size := rfl
  unfold place
  rw [if_neg (by omega)]
  omega

theorem arrange_working {i j : ℕ} (hi : i < n) (hj : j < n) (h : j < basis.size) :
    arrange basis s i j = basis.q i j := by
  unfold arrange
  rw [Mat.get_ofFn_of_lt _ hi hj, if_pos h]

theorem arrange_free {i j : ℕ} (hi : i < n) (hj : j < n) (h : basis.size ≤ j) :
    arrange basis s i j = reversed basis.q (s.order (place basis s j)) i := by
  unfold arrange
  rw [Mat.get_ofFn_of_lt _ hi hj, if_neg (not_lt.2 h)]
  rfl

theorem exists_arranged (hs : Cholesky.Truncated M tol flat s) : ∃ f : ℕ → ℕ, (∀ j < n, f j < n) ∧
    (∀ i < n, ∀ j < n, f i = f j → i = j) ∧ ∀ i < n, ∀ j < n, arrange basis s i j = basis.q i (f j) := by
  have hn : basis.nullity = n - basis.size := rfl
  have horder : ∀ j < n, basis.size ≤ j → s.order (place basis s j) < basis.nullity :=
    fun j hj h => hs.order_lt _ (place_lt hs.rank_le hj h)
  refine ⟨fun j => if j < basis.size then j else n - 1 - s.order (place basis s j), fun j hj => ?_,
    fun i hi j hj h => ?_, fun i hi j hj => ?_⟩
  · dsimp only
    split_ifs <;> omega
  · dsimp only at h
    split_ifs at h with h1 h2 h2
    · exact h
    · have := horder j hj (by omega)
      omega
    · have := horder i hi (by omega)
      omega
    · have hoi := horder i hi (by omega)
      have hoj := horder j hj (by omega)
      have hplace := hs.order_inj _ (place_lt hs.rank_le hi (by omega)) _ (place_lt hs.rank_le hj (by omega))
        (by omega)
      exact place_inj hs.rank_le hi hj (by omega) (by omega) hplace
  · dsimp only
    split_ifs with h
    · exact arrange_working hi hj h
    · exact arrange_free hi hj (by omega)

theorem factors_arrange (hW : basis.Factors W) (hs : Cholesky.Truncated M tol flat s) :
    ({ basis with q := arrange basis s } : OrthogonalFactor ℝ n).Factors W := by
  refine ⟨hW.size, hW.le, fun i hi j hj => ?_, hW.upper, hW.outside, fun j a ha i hi => ?_⟩
  · obtain ⟨f, hlt, hinj, hf⟩ := exists_arranged hs
    change dot n (fun k => arrange basis s k i) (fun k => arrange basis s k j) = _
    rw [dot_congr (fun k hk => hf k hk i hi) fun k hk => hf k hk j hj, hW.orthogonal _ (hlt i hi) _ (hlt j hj)]
    by_cases hij : i = j
    · rw [hij, if_pos rfl, if_pos rfl]
    · rw [if_neg hij, if_neg fun h => hij (hinj i hi j hj h)]
  · rw [← hW.product j a ha i hi]
    refine dot_congr_mul fun l hl => ?_
    rcases lt_or_ge l basis.size with h | h
    · change arrange basis s i l * _ = _
      rw [arrange_working hi hl h]
    · change _ * basis.r l j = _
      rw [hW.outside_block (Or.inl h), mul_zero, mul_zero]

def pivots (rule : CurvatureRule ℝ) (P : Mat ℝ n n) (basis : OrthogonalFactor ℝ n) : Cholesky ℝ basis.nullity :=
  Cholesky.ofMat (restriction P basis) rule.indefinite rule.flat

theorem truncated_pivots (rule : CurvatureRule ℝ) (P : Mat ℝ n n) (basis : OrthogonalFactor ℝ n) :
    Cholesky.Truncated (restriction P basis) rule.indefinite rule.flat (pivots rule P basis) :=
  Cholesky.truncated_ofMat ..

theorem u_ofFactor (i j : ℕ) : (ofFactor rule P basis).u i j = (pivots rule P basis).factor i j := by
  have hn : basis.nullity = n - basis.size := rfl
  by_cases hin : i < n ∧ j < n
  · exact Mat.get_ofFn_of_lt _ hin.1 hin.2
  · rw [Mat.get_of_le _ (by omega), Mat.get_of_le _ (by omega)]

theorem d_ofFactor {i : ℕ} (hi : i < n) : (ofFactor rule P basis).d i = 1 := Vec.get_ofFn_of_lt _ hi

theorem shaped_ofFactor (hW : basis.Factors W) : Shaped (ofFactor rule P basis) := by
  have hs := truncated_pivots rule P basis
  have hn : basis.nullity = n - basis.size := rfl
  have hle := hW.le
  have hrank := hs.rank_le
  refine ⟨?_, ⟨W, factors_arrange hW hs⟩, fun i j hji => ?_, fun i j hj => ?_, fun i hi => ?_, fun i hi => ?_⟩
  · change (pivots rule P basis).rank + (basis.nullity - (pivots rule P basis).rank) + basis.size = n
    omega
  · rw [u_ofFactor]
    exact hs.upper i j hji
  · rw [u_ofFactor]
    exact hs.outside i j hj
  · rw [u_ofFactor]
    exact hs.pivot i hi
  · have hi : i + 1 < (pivots rule P basis).rank := hi
    rw [d_ofFactor (by omega)]
    exact one_pos

theorem curved_ofFactor (hP : P.Symmetric) (hflat : 0 ≤ rule.flat) :
    Curved P rule.flat (ofFactor rule P basis) := by
  have hs := truncated_pivots rule P basis
  have hn : basis.nullity = n - basis.size := rfl
  have hrank := hs.rank_le
  have hreversed : ∀ i < (pivots rule P basis).rank, ∀ r < n,
      reversed (ofFactor rule P basis).basis.q i r = reversed basis.q ((pivots rule P basis).order i) r := by
    intro i hi r hr
    have h := arrange_free (s := pivots rule P basis) hr (by omega : n - 1 - i < n) (by omega)
    rwa [place_reversed hs.rank_le hi] at h
  have hproduct : ∀ i < (pivots rule P basis).rank, ∀ j < (pivots rule P basis).rank,
      (ofFactor rule P basis).product i j = (ofFactor rule P basis).curvature P i j := by
    intro i hi j hj
    unfold ReducedFactor.curvature
    rw [Mat.form_congr (hreversed i hi) (hreversed j hj),
      ← symmetric_restriction hP (hs.order_lt i (by omega)) (hs.order_lt j (by omega)), ← hs.product i hi j hj]
    change dot (pivots rule P basis).rank _ _ = _
    refine dot_congr (fun l _ => u_ofFactor l i) fun l hl => ?_
    rw [d_ofFactor (by omega), u_ofFactor, one_mul]
  refine ⟨fun i hi j hj _ => hproduct i hi j hj, fun i hi => ?_⟩
  have hi : i + 1 = (pivots rule P basis).rank := hi
  rw [hproduct i (by omega) i (by omega), sub_self, abs_zero]
  exact ⟨hflat, fun h => absurd rfl h⟩

end Start

/-- A change of the working columns of a factored restriction. -/
inductive Change (n : ℕ) where
  | add (a : Vec ℝ n)
  | remove (idx : Option ℤ)

def change (rule : CurvatureRule ℝ) (P : Mat ℝ n n) (F : ReducedFactor ℝ n) :
    Change n → Except Fault (ReducedFactor ℝ n)
  | .add a => (F.add rule P a).result.map fun _ => (F.add rule P a).state
  | .remove idx => (F.remove rule P idx).result.map fun _ => (F.remove rule P idx).state

def changes (rule : CurvatureRule ℝ) (P : Mat ℝ n n) (F : ReducedFactor ℝ n) (ops : List (Change n)) :
    Except Fault (ReducedFactor ℝ n) := ops.foldlM (change rule P) F

theorem Shaped.change {op : Change n} (hF : Shaped F) (hind : 0 ≤ rule.indefinite) (hflat : 0 ≤ rule.flat)
    (h : change rule P F op = .ok G) : Shaped G := by
  cases op with
  | add a =>
    obtain ⟨u, hadd, rfl⟩ := map_eq_ok.1 h
    exact hF.add hflat hadd
  | remove idx =>
    obtain ⟨u, hremove, rfl⟩ := map_eq_ok.1 h
    exact hF.remove hind hremove

theorem change_keeps {op : Change n} (hind : 0 ≤ rule.indefinite)
    (hsq : rule.indefinite * rule.indefinite ≤ rule.flat) (hP : P.Symmetric)
    (hF : Shaped F) (hC : Curved P rule.flat F) (h : change rule P F op = .ok G) :
    Shaped G ∧ Curved P rule.flat G := by
  have hflat : 0 ≤ rule.flat := (mul_self_nonneg _).trans hsq
  refine ⟨hF.change hind hflat h, ?_⟩
  cases op with
  | add a =>
    obtain ⟨u, hadd, rfl⟩ := map_eq_ok.1 h
    exact hC.add hF hP hsq hadd
  | remove idx =>
    obtain ⟨u, hremove, rfl⟩ := map_eq_ok.1 h
    exact hC.remove hF hP hind hflat hremove

theorem changes_keep {ops : List (Change n)} (hind : 0 ≤ rule.indefinite)
    (hsq : rule.indefinite * rule.indefinite ≤ rule.flat) (hP : P.Symmetric)
    (hF : Shaped F) (hC : Curved P rule.flat F) (h : F.changes rule P ops = .ok G) :
    Shaped G ∧ Curved P rule.flat G :=
  foldlM_related (p := fun F (_ : Unit) => Shaped F ∧ Curved P rule.flat F)
    (f := change rule P) (g := fun _ _ => ()) (t := ()) (fun _ _ _ _ hs h => change_keeps hind hsq hP hs.1 hs.2 h)
    ⟨hF, hC⟩ h

/-- After any changes that are not refused `Uᵀ D U` is the restriction of `P` to the free directions in
reverse. Only its last corner may be off: there a flat curvature may be missing, and then `D` ends in zero. -/
theorem changes_factor_restriction {k : ℕ} (P : Mat ℝ n n) (A : Mat ℝ n k) (tol : Tolerances ℝ)
    (hP : P.Symmetric) (hk : k ≤ n) (hind : 0 ≤ tol.indefinite)
    (hsq : tol.indefinite * tol.indefinite ≤ tol.relativeCurvature * P.scale) :
    ∃ basis, OrthogonalFactor.ofColumns A = .ok basis ∧
      ∀ ops F, (ofFactor (tol.rule P) P basis).changes (tol.rule P) P ops = .ok F →
        F.size + F.artificial + F.basis.size = n ∧
        (∀ i j, j < i → F.u i j = 0) ∧ (∀ i < F.size, 0 < F.u i i) ∧ (∀ i, i + 1 < F.size → 0 < F.d i) ∧
        let product := fun i j => dot F.size (fun l => F.u l i) fun l => F.d l * F.u l j
        let restricted := fun i j => P.form (fun r => F.z r (F.size - 1 - i)) fun r => F.z r (F.size - 1 - j)
        (∀ i < F.size, ∀ j < F.size, ¬(i + 1 = F.size ∧ j + 1 = F.size) → product i j = restricted i j) ∧
        ∀ i, i + 1 = F.size → |product i i - restricted i i| ≤ tol.relativeCurvature * P.scale ∧
          (product i i ≠ restricted i i → F.d i = 0) := by
  obtain ⟨basis, hbasis, hW⟩ := OrthogonalFactor.ofColumns_eq_ok (A := A) hk
  refine ⟨basis, hbasis, fun ops F h => ?_⟩
  have hflat : 0 ≤ (tol.rule P).flat := (mul_self_nonneg _).trans hsq
  obtain ⟨hF, hC⟩ : Shaped F ∧ Curved P (tol.rule P).flat F :=
    changes_keep hind hsq hP (shaped_ofFactor hW) (curved_ofFactor hP hflat) h
  have hz : ∀ i < F.size, ∀ j < F.size, F.curvature P i j =
      P.form (fun r => F.z r (F.size - 1 - i)) fun r => F.z r (F.size - 1 - j) := fun i hi j hj =>
    Mat.form_congr (fun r _ => (z_eq_reversed hF.count hi r).symm) fun r _ => (z_eq_reversed hF.count hj r).symm
  refine ⟨hF.count, hF.upper, hF.diagonal, hF.positive, fun i hi j hj hij => ?_, fun i hi => ?_⟩
  · dsimp only
    rw [← hz i hi j hj]
    exact hC.entries i hi j hj hij
  · dsimp only
    rw [← hz i (by omega) i (by omega)]
    exact hC.corner i hi

def downward : Mat ℝ 1 1 := Mat.ofFn fun _ _ => -1

theorem get_downward : downward 0 0 = -1 := Mat.get_ofFn_of_lt _ one_pos one_pos

theorem changes_factor_downward :
    ∃ F, (ofFactor (Tolerances.standard.rule downward) downward OrthogonalFactor.empty).changes
        (Tolerances.standard.rule downward) downward [.remove none] = .ok F ∧
      F.size = 1 ∧ 0 < F.u 0 0 ∧ |F.u 0 0 * (F.d 0 * F.u 0 0) + 1| ≤ 1e-12 := by
  set rule := (Tolerances.standard : Tolerances ℝ).rule downward
  have hscale : downward.scale = 1 := by simp [Mat.scale, maximum, get_downward]
  obtain ⟨basis, hbasis, hall⟩ := changes_factor_restriction downward (0 : Mat ℝ 1 0) Tolerances.standard
    (fun i hi j hj => by rw [Nat.lt_one_iff.1 hi, Nat.lt_one_iff.1 hj]) (by decide)
    (by norm_num [Tolerances.standard]) (by rw [hscale]; norm_num [Tolerances.standard])
  obtain rfl : OrthogonalFactor.empty = basis := by simpa [OrthogonalFactor.ofColumns] using hbasis
  set F₀ := ofFactor rule downward OrthogonalFactor.empty
  have hF₀ : Shaped F₀ := shaped_ofFactor OrthogonalFactor.factors_empty
  -- a single free direction has curvature `-1`
  have hcorner : ∀ ops F, F₀.changes rule downward ops = .ok F → Shaped F → F.size = 1 →
      |F.u 0 0 * (F.d 0 * F.u 0 0) + 1| ≤ 1e-12 := by
    intro ops F h hF hsize
    obtain ⟨W, hW⟩ := hF.factors
    have hcount := hF.count
    have hz : F.z 0 0 * F.z 0 0 = 1 := by
      have hq := hW.orthogonal 0 one_pos 0 one_pos
      have hoff : F.offset = 0 := by
        unfold offset
        omega
      rw [dot_one, if_pos rfl] at hq
      rwa [z, hoff]
    have h := ((hall ops F h).2.2.2.2.2 0 (by omega)).1
    dsimp only at h
    rw [hsize, dot_one, Mat.form, dot_one, dot_one, get_downward, hscale] at h
    rwa [show F.z 0 (1 - 1 - 0) * (-1 * F.z 0 (1 - 1 - 0)) = -1 by linear_combination -hz, sub_neg_eq_add,
      show (Tolerances.standard : Tolerances ℝ).relativeCurvature * 1 = 1e-12 by norm_num [Tolerances.standard]] at h
  have hsize₀ : F₀.size = 0 := by
    by_contra hne
    have hle := hF₀.le
    have h := hcorner [] F₀ rfl hF₀ (by omega)
    rw [d_ofFactor one_pos, one_mul, abs_le] at h
    have := mul_self_nonneg (F₀.u 0 0)
    norm_num at h
    linarith [h.2]
  have hcount := hF₀.count
  have hart : 0 < F₀.artificial := by
    have hempty : F₀.basis.size = 0 := rfl
    omega
  have hind : 0 ≤ rule.indefinite := by
    change 0 ≤ (Tolerances.standard : Tolerances ℝ).indefinite
    norm_num [Tolerances.standard]
  have hremove := remove_of_size_eq_zero rule downward hsize₀ hart
  have hF := hF₀.remove hind hremove
  obtain ⟨G, hG, -, w, -, hs⟩ := hF₀.remove_eq_grown hind hremove
  have hsize : (F₀.remove rule downward none).state.size = 1 := by
    rw [hs]
    change G.size + 1 = 1
    rw [hG.size, hsize₀]
  have hrun : F₀.changes rule downward [.remove none] = .ok (F₀.remove rule downward none).state := by
    change (F₀.remove rule downward none).result.map (fun _ => (F₀.remove rule downward none).state) >>= pure = _
    rw [hremove]
    rfl
  exact ⟨_, hrun, hsize, hF.diagonal 0 (by omega), hcorner _ _ hrun hF hsize⟩

end ReducedFactor

end
end ActiveSet
