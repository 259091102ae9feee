import ActiveSet.Double
import ActiveSet.Proofs.Attempts

/-! A column that is taken up and given back at once. It stands last, so giving it back takes no turn: the columns of
`Q` before it were never touched, and what was written into `R` beside its block, where all was zero, is cleared
again. Only the free columns stay turned, among themselves. So the projector onto what they span is the same, and with
it what the factored restriction says of `P`, though every free direction and the whole of `U` may be new. -/

namespace ActiveSet

noncomputable section
open Exact

variable {n : ℕ}

namespace OrthogonalFactor

section Arithmetic

variable {α : Type} [Scalar α] {F G : OrthogonalFactor α n} {a : Vec α n} {idx : ℕ}

/-- What the factorization of some columns becomes by any edits, and where a factored restriction starts by putting the
free columns in another order. -/
inductive Reached : OrthogonalFactor α n → Prop
  | start {k : ℕ} {A : Mat α n k} {F : OrthogonalFactor α n} (h : ofColumns A = .ok F) : Reached F
  | append {F G : OrthogonalFactor α n} {a : Vec α n} (hF : Reached F) (h : F.append a = .ok G) : Reached G
  | appendReflected {F G : OrthogonalFactor α n} {a : Vec α n} (hF : Reached F) (h : F.appendReflected a = .ok G) :
    Reached G
  | remove {F : OrthogonalFactor α n} {idx : ℤ} (hF : Reached F) (h : (F.remove idx).result = .ok ()) :
    Reached (F.remove idx).state
  | arrange {F : OrthogonalFactor α n} (hF : Reached F) (rule : CurvatureRule α) (P : Mat α n n) :
    Reached (ReducedFactor.ofFactor rule P F).basis

/-- `R` holds nothing outside its leading block. -/
structure Clean (F : OrthogonalFactor α n) : Prop where
  le : F.size ≤ n
  outside : ∀ i j, F.size ≤ i ∨ F.size ≤ j → F.r i j = 0

theorem clean_start {k : ℕ} {A : Mat α n k} (h : ofColumns A = .ok F) : Clean F := by
  unfold ofColumns at h
  split_ifs at h with hk h0 hfinite
  · obtain rfl := Except.ok.inj h
    exact ⟨Nat.zero_le n, fun i j _ => Mat.get_zero i j⟩
  · obtain rfl := Except.ok.inj h
    refine ⟨not_lt.1 hk, fun i j hij => ?_⟩
    have hij : k ≤ i ∨ k ≤ j := hij
    change (Mat.ofFn _ : Mat α n n) i j = 0
    rw [Mat.get_ofFn, if_neg (by omega : ¬(i < k ∧ j < k)), ite_self]

theorem Clean.withColumn (hF : Clean F) (hlt : F.size < n) (q : Mat α n n) (y : ℕ → α) : Clean (F.withColumn q y) := by
  refine ⟨hlt, fun i j hij => ?_⟩
  have hij : F.size + 1 ≤ i ∨ F.size + 1 ≤ j := hij
  by_cases hin : i < n ∧ j < n
  · rw [get_withColumn F q y hin.1 hin.2]
    split_ifs
    · omega
    · exact hF.outside i F.size (Or.inr le_rfl)
    · exact hF.outside i j (by omega)
  · exact Mat.get_of_le _ (by omega)

theorem Clean.erase (hF : Clean F) (hidx : idx < F.size) : Clean (F.erase idx) := by
  have hle := hF.le
  set s := ascend (F.size - (idx + 1)) (fun s t => turnForward (idx + 1) F.size s (idx + t)) (F.q, F.r)
  have hs : ∀ i j, F.size ≤ i ∨ F.size ≤ j → s.2 i j = 0 := by
    refine ascend_keeps (p := fun _ (s : Mat α n n × Mat α n n) => ∀ i j, F.size ≤ i ∨ F.size ≤ j → s.2 i j = 0)
      hF.outside _ fun t s ht hs i j hij => ?_
    exact (turnForward_outside (by omega) hle hij).trans (hs i j hij)
  refine ⟨(Nat.sub_le _ _).trans hle, fun i j hij => ?_⟩
  have hij : F.size - 1 ≤ i ∨ F.size - 1 ≤ j := hij
  change (dropColumn F.size idx s.2) i j = 0
  by_cases hin : i < n ∧ j < n
  · rw [get_dropColumn _ _ _ hin.1 hin.2]
    split_ifs
    · rfl
    · omega
    · exact hs i j (by omega)
  · exact Mat.get_of_le _ (by omega)

theorem Reached.clean (hF : Reached F) : Clean F := by
  induction hF with
  | start h => exact clean_start h
  | append hF h ih =>
    obtain ⟨hlt, rfl⟩ := append_eq_ok h
    exact ih.withColumn hlt _ _
  | appendReflected hF h ih =>
    obtain ⟨hlt, rfl⟩ := appendReflected_eq_ok h
    exact ih.withColumn hlt _ _
  | remove hF h ih =>
    obtain ⟨h0, hlt, hstate⟩ := remove_eq_ok h
    rw [hstate]
    exact ih.erase (by omega)
  | arrange hF rule P ih => exact ⟨ih.le, ih.outside⟩

theorem cascade_working (hlt : F.size < n) (a : Vec α n) {i t : ℕ} (hi : i < n) (ht : t < F.size) :
    (F.cascade a).1 i t = F.q i t := by
  refine descend_keeps (p := fun _ (s : Mat α n n × Vec α n) => s.1 i t = F.q i t) _ rfl fun l s hl hs => ?_
  refine (Mat.get_rotateCols (by omega) hi (by omega) (by omega)).trans ?_
  rw [if_neg (by omega), if_neg (by omega)]
  exact hs

/-- No column stands behind the last one, so its removal turns nothing. -/
theorem erase_last (hsize : G.size = idx + 1) : G.erase idx = ⟨idx, G.q, dropColumn (idx + 1) idx G.r⟩ := by
  unfold erase
  rw [hsize, Nat.sub_self]
  rfl

theorem remove_append (h : F.append a = .ok G) :
    (G.remove F.size).result = .ok () ∧ (G.remove F.size).state = G.erase F.size := by
  obtain ⟨hlt, rfl⟩ := append_eq_ok h
  have hremove := result_remove (F := F.withColumn (F.cascade a).1 (F.cascade a).2) (Nat.lt_succ_self F.size)
  exact ⟨hremove, (remove_eq_ok hremove).2.2⟩

theorem working_erase_append (h : F.append a = .ok G) {i t : ℕ} (hi : i < n) (ht : t < F.size) :
    (G.erase F.size).q i t = F.q i t := by
  obtain ⟨hlt, rfl⟩ := append_eq_ok h
  rw [erase_last rfl]
  exact cascade_working hlt a hi ht

theorem Clean.erase_append (hF : Clean F) (h : F.append a = .ok G) : (G.erase F.size).r = F.r := by
  obtain ⟨hlt, rfl⟩ := append_eq_ok h
  rw [erase_last rfl]
  refine Mat.ext fun i hi j hj => ?_
  rw [get_dropColumn _ _ _ hi hj, get_withColumn F _ _ hi hj]
  split_ifs
  · exact (hF.outside i j (by omega)).symm
  · omega
  · omega
  · omega
  · rfl

end Arithmetic

variable {F G : OrthogonalFactor ℝ n} {W : List (Vec ℝ n)}

theorem Reached.exists_factors (hF : Reached F) : ∃ W, Factors F W := by
  induction hF with
  | @start k A F h =>
    have hk : k ≤ n := by
      by_contra hlt
      unfold ofColumns at h
      rw [if_pos (not_le.1 hlt)] at h
      cases h
    obtain ⟨F', hF', hW⟩ := ofColumns_eq_ok (A := A) hk
    obtain rfl := Except.ok.inj (h.symm.trans hF')
    exact ⟨_, hW⟩
  | append hF h ih =>
    obtain ⟨W, hW⟩ := ih
    exact ⟨_, hW.append h⟩
  | appendReflected hF h ih =>
    obtain ⟨W, hW⟩ := ih
    exact ⟨_, hW.appendReflected h⟩
  | remove hF h ih =>
    obtain ⟨W, hW⟩ := ih
    exact ⟨_, hW.remove h⟩
  | arrange hF rule P ih =>
    obtain ⟨W, hW⟩ := ih
    exact ⟨W, ReducedFactor.factors_arrange hW (ReducedFactor.truncated_pivots rule P _)⟩

theorem Factors.dot_free_free (hF : Factors F W) {s t : ℕ} (hs : s < F.nullity) (ht : t < F.nullity) :
    dot n (F.free s) (F.free t) = if s = t then 1 else 0 := by
  have hnullity : F.nullity = n - F.size := rfl
  exact (hF.orthogonal (F.size + s) (by omega) (F.size + t) (by omega)).trans
    (if_congr Nat.add_left_cancel_iff rfl rfl)

theorem Factors.give_back (hF : Factors F W) {a : Vec ℝ n} (h : F.append a = .ok G) : Factors (G.erase F.size) W := by
  have hG := hF.append h
  have hlt : F.size < G.size := by
    rw [hF.size, hG.size, List.length_append, List.length_singleton]
    exact Nat.lt_succ_self _
  have herase := hG.erase hlt
  rwa [hF.size, List.eraseIdx_append_of_length_le le_rfl, Nat.sub_self, List.eraseIdx_cons_zero, List.append_nil,
    ← hF.size] at herase

/-- With the same working columns of `Q` the free ones are turned among themselves. -/
theorem Factors.exists_turn (hF : Factors F W) (hG : Factors G W) (hq : ∀ i < n, ∀ t < F.size, G.q i t = F.q i t) :
    ∃ H : Mat ℝ F.nullity F.nullity, H.IsOrthogonal ∧ ∀ i < n, ∀ t < F.nullity,
      G.free t i = dot F.nullity (fun s => F.free s i) fun s => H s t := by
  have hsize : G.size = F.size := hG.size.trans hF.size.symm
  have hnullity : F.nullity = n - F.size := rfl
  set H : Mat ℝ F.nullity F.nullity := Mat.ofFn fun s t => dot n (F.free s) (G.free t)
  have hget : ∀ t < F.nullity, ∀ s < F.nullity, H s t = dot n (F.free s) (G.free t) := fun t ht s hs =>
    Mat.get_ofFn_of_lt _ hs ht
  have hturn : ∀ i < n, ∀ t < F.nullity, G.free t i = dot F.nullity (fun s => F.free s i) fun s => H s t := by
    intro i hi t ht
    have hworking : ∀ l < F.size, dot n (fun r => F.q r l) (G.free t) = 0 := by
      intro l hl
      rw [dot_congr (fun r hr => (hq r hr l hl).symm) fun _ _ => rfl]
      exact (hG.orthogonal l (by omega) (G.size + t) (by omega)).trans (if_neg (by omega))
    rw [hF.eq_free_of_working hworking hi]
    exact dot_congr (fun _ _ => rfl) fun s hs => (hget t ht s hs).symm
  refine ⟨H, fun s hs t ht => ?_, hturn⟩
  have hnullity' : G.nullity = F.nullity := congrArg (n - ·) hsize
  rw [← hG.dot_free_free (hnullity' ▸ hs) (hnullity' ▸ ht), dot_congr (fun _ _ => rfl) fun i hi => hturn i hi t ht,
    dot_transpose]
  exact dot_congr (hget s hs) fun _ _ => rfl

end OrthogonalFactor

namespace ReducedFactor

variable {P : Mat ℝ n n} {F G H : ReducedFactor ℝ n} {rule : CurvatureRule ℝ} {W : List (Vec ℝ n)} {a : Vec ℝ n}

def lifted (F : ReducedFactor ℝ n) (i j : ℕ) : ℝ :=
  dot F.size (fun s => F.z i (F.size - 1 - s)) fun s =>
    dot F.size (fun t => dot F.size (fun l => F.u l s) fun l => F.d l * F.u l t) fun t => F.z j (F.size - 1 - t)

/-- The working columns of `Q` determine the size, the projector and the matrix that is stood for. -/
theorem Unmasked.same_of_working {flat : ℝ} (hF : Unmasked P flat F W) (hH : Unmasked P flat H W)
    (hq : ∀ i < n, ∀ t < F.basis.size, H.basis.q i t = F.basis.q i t) (hbefore : F.d (F.size - 1) ≠ 0)
    (hafter : H.d (H.size - 1) ≠ 0) : H.size = F.size ∧ H.basis.size = F.basis.size ∧ ∀ i < n, ∀ j < n,
      dot H.size (fun s => H.z i s) (fun s => H.z j s) = dot F.size (fun s => F.z i s) (fun s => F.z j s) ∧
      H.lifted i j = F.lifted i j := by
  have hprojector : ∀ i < n, ∀ j < n, F.basis.projector i j = H.basis.projector i j := fun i hi j hj =>
    hF.factors.projector_eq_of_working hH.factors (fun r hr t ht => (hq r hr t ht).symm) hi hj
  have hlifted : ∀ {G : ReducedFactor ℝ n}, Unmasked P flat G W → G.d (G.size - 1) ≠ 0 → ∀ i j, G.lifted i j =
      P.form (fun r => G.basis.projector r i) fun r => G.basis.projector r j := fun hG hlast =>
    hG.dot_projected (Or.inr hlast)
  have hsize : H.basis.size = F.basis.size := hH.factors.size.trans hF.factors.size.symm
  refine ⟨?_, hsize, fun i hi j hj => ⟨?_, ?_⟩⟩
  · rw [hH.size_eq, hF.size_eq]
    exact congrArg (n - ·) hsize
  · rw [hH.dot_z, hF.dot_z, hprojector i hi j hj]
  · rw [hlifted hH hafter, hlifted hF hbefore]
    exact Mat.form_congr (fun r hr => (hprojector r hr i hi).symm) fun r hr => (hprojector r hr j hj).symm

theorem basis_of_add (h : change rule P F (.add a) = .ok G) : F.basis.append a = .ok G.basis := by
  obtain ⟨hadd, rfl⟩ := change_eq_ok.1 h
  exact basis_add hadd

theorem basis_of_remove (hart : F.artificial = 0) {idx : ℤ} (h : change rule P F (.remove (some idx)) = .ok G) :
    G.basis = (F.basis.remove idx).state := by
  obtain ⟨hremove, rfl⟩ := change_eq_ok.1 h
  obtain ⟨i, hi, -, hbasis⟩ := basis_remove_of_column hart hremove
  obtain rfl := Option.some.inj hi
  exact hbasis

theorem Unmasked.give_back (hsq : rule.indefinite * rule.indefinite ≤ rule.flat) (hP : P.Symmetric)
    (hF : Unmasked P rule.flat F W) (hadd : (Change.add a).Defined F)
    (hG : ReducedFactor.change rule P F (.add a) = .ok G)
    (hremove : (Change.remove (some ((G.basis.size : ℤ) - 1))).Defined G)
    (hH : ReducedFactor.change rule P G (.remove (some ((G.basis.size : ℤ) - 1))) = .ok H) :
    Unmasked P rule.flat H W ∧ ∀ i < n, ∀ t < F.basis.size, H.basis.q i t = F.basis.q i t := by
  have hWG : Unmasked P rule.flat G (W ++ [a]) :=
    hF.change hsq hP (show (factored (.add a)).Defined F from hadd) hG
  have hWH : Unmasked P rule.flat H ((W ++ [a]).eraseIdx ((G.basis.size : ℤ) - 1).toNat) :=
    hWG.change hsq hP (show (factored (.remove ((G.basis.size : ℤ) - 1))).Defined G from hremove) hH
  have hlast : (G.basis.size : ℤ) - 1 = F.basis.size := by
    rw [hWG.factors.size, hF.factors.size, List.length_append, List.length_singleton]
    push_cast
    ring
  have happend := basis_of_add hG
  have hbasis : H.basis = G.basis.erase F.basis.size := by
    rw [basis_of_remove hWG.artificial hH, hlast, (OrthogonalFactor.remove_append happend).2]
  refine ⟨⟨hWH.signed, hWH.curved, hWH.artificial, ?_⟩, fun i hi t ht => ?_⟩
  · rw [hbasis]
    exact hF.factors.give_back happend
  · rw [hbasis]
    exact OrthogonalFactor.working_erase_append happend hi ht

/-- A column that is taken up and given back leaves no trace but a turn of the free columns. In any arithmetic, and
whatever edits came before, the size, the working columns of `Q` and all of `R` are entry for entry those of before;
over the reals the free columns are turned among themselves. So if `D` ends in zero neither before nor after, a
factored restriction without artificial directions has the same projector and stands for the same matrix. Only under a
negative threshold, which `Tolerances.validate` refuses, may a root or a quotient on the way not exist. -/
theorem additions_come_undone :
    (∀ {α : Type} [Scalar α] {n : ℕ} (F : OrthogonalFactor α n), F.Reached → F.size < n → ∀ a,
      ∃ G, F.append a = .ok G ∧ (G.remove F.size).result = .ok () ∧ (G.remove F.size).state.size = F.size ∧
        (G.remove F.size).state.r = F.r ∧ ∀ i < n, ∀ t < F.size, (G.remove F.size).state.q i t = F.q i t) ∧
    (∀ {n : ℕ} (F : OrthogonalFactor ℝ n), F.Reached → F.size < n → ∀ a, ∃ G, F.append a = .ok G ∧
      ∃ H : Mat ℝ F.nullity F.nullity, H.IsOrthogonal ∧ ∀ i < n, ∀ t < F.nullity,
        (G.remove F.size).state.q i (F.size + t) = dot F.nullity (fun s => F.q i (F.size + s)) fun s => H s t) ∧
    ∀ {n k : ℕ} (P : Mat ℝ n n) (A : Mat ℝ n k) (tol : Tolerances ℝ), (P.Symmetric) → k ≤ n →
      tol.indefinite * tol.indefinite ≤ tol.relativeCurvature * P.scale →
      ∃ basis, OrthogonalFactor.ofColumns A = .ok basis ∧
        ∀ ops F, (ofFactor (tol.rule P) P basis).attempts (tol.rule P) P ops = F → F.artificial = 0 →
          ∀ a G H, change (tol.rule P) P F (.add a) = .ok G →
            change (tol.rule P) P G (.remove (some ((G.basis.size : ℤ) - 1))) = .ok H →
            (0 ≤ tol.indefinite ∨ (ofFactor (tol.rule P) P basis).AllDefined (tol.rule P) P
              (ops ++ [.add a, .remove (some ((G.basis.size : ℤ) - 1))])) →
            F.d (F.size - 1) ≠ 0 → H.d (H.size - 1) ≠ 0 →
            H.size = F.size ∧ H.basis.size = F.basis.size ∧ ∀ i < n, ∀ j < n,
              dot H.size (fun s => H.z i s) (fun s => H.z j s) = dot F.size (fun s => F.z i s) (fun s => F.z j s) ∧
              H.lifted i j = F.lifted i j := by
  refine ⟨fun {α} _ {n} F hF hlt a => ?_, fun {n} F hF hlt a => ?_, fun {n k} P A tol hP hk hsq => ?_⟩
  · have happend : F.append a = .ok (F.withColumn (F.cascade a).1 (F.cascade a).2) := if_neg (not_le.2 hlt)
    obtain ⟨hresult, hstate⟩ := OrthogonalFactor.remove_append happend
    refine ⟨_, happend, hresult, ?_⟩
    rw [hstate]
    exact ⟨rfl, hF.clean.erase_append happend, fun i hi t ht => OrthogonalFactor.working_erase_append happend hi ht⟩
  · have happend : F.append a = .ok (F.withColumn (F.cascade a).1 (F.cascade a).2) := if_neg (not_le.2 hlt)
    obtain ⟨W, hW⟩ := hF.exists_factors
    obtain ⟨H, hH, hturn⟩ := hW.exists_turn (hW.give_back happend) fun i hi t ht =>
      OrthogonalFactor.working_erase_append happend hi ht
    refine ⟨_, happend, H, hH, ?_⟩
    rw [(OrthogonalFactor.remove_append happend).2]
    exact hturn
  · obtain ⟨basis, hbasis, hW₀⟩ := OrthogonalFactor.ofColumns_eq_ok (A := A) hk
    refine ⟨basis, hbasis, fun ops F hrun hart a G H hG hH hthreshold hbefore hafter => ?_⟩
    have hflat : 0 ≤ (tol.rule P).flat := (mul_self_nonneg _).trans hsq
    have hstart : Shaped (ofFactor (tol.rule P) P basis) := shaped_ofFactor hW₀
    obtain ⟨hops, hadd, hremove, -⟩ :=
      (allDefined_append _ _).1 (hthreshold.elim (fun hind => hstart.allDefined hind hflat _) id)
    -- all that is used of the changes before is what they keep
    obtain ⟨hF, hC⟩ := hstart.signed.attempts_keep hsq hP (curved_ofFactor hP hflat) hops
    rw [hrun] at hF hC hadd hremove
    rw [(change_eq_ok.1 hG).2] at hremove
    obtain ⟨W, hW⟩ := hF.factors
    have hunmasked : Unmasked P (tol.rule P).flat F W := ⟨hF, hC, hart, hW⟩
    have hadd := hF.defined_of_change hadd hG
    have hremove := (hF.change_keeps hsq hP hC hadd hG).1.defined_of_change hremove hH
    obtain ⟨hback, hq⟩ := hunmasked.give_back hsq hP hadd hG hremove hH
    exact hunmasked.same_of_working hback hq hbefore hafter

theorem additions_come_undone_bowl :
    (∃ G : OrthogonalFactor Float 2, OrthogonalFactor.empty.append (Vec.ofFn fun _ => 1) = .ok G ∧
      (G.remove 0).state.size = 0 ∧ (G.remove 0).state.r = 0) ∧
    (∃ (G : OrthogonalFactor ℝ 2) (H : Mat ℝ 2 2), OrthogonalFactor.empty.append oblique = .ok G ∧ H.IsOrthogonal ∧
      ∀ i < 2, ∀ t < 2, (G.remove 0).state.q i t = dot 2 (fun s => if i = s then 1 else 0) fun s => H s t) ∧
    let rule := (Tolerances.standard : Tolerances ℝ).rule bowl
    let F := ofFactor rule bowl OrthogonalFactor.empty
    ∃ H, F.changes rule bowl [.add oblique, .remove (some 0)] = .ok H ∧ H.size = 2 ∧ F.size = 2 ∧
      ∀ i < 2, ∀ j < 2, H.lifted i j = F.lifted i j := by
  obtain ⟨hany, hturn, hfactor⟩ := additions_come_undone
  refine ⟨?_, ?_, ?_⟩
  · have hreached : (OrthogonalFactor.empty : OrthogonalFactor Float 2).Reached :=
      .start (show OrthogonalFactor.ofColumns (0 : Mat Float 2 0) = _ from rfl)
    obtain ⟨G, hG, -, hsize, hr, -⟩ := hany _ hreached (by decide) (Vec.ofFn fun _ => 1)
    exact ⟨G, hG, hsize, hr⟩
  · have hreached : (OrthogonalFactor.empty : OrthogonalFactor ℝ 2).Reached :=
      .start (show OrthogonalFactor.ofColumns (0 : Mat ℝ 2 0) = _ from rfl)
    obtain ⟨G, hG, H, hH, hfree⟩ := hturn _ hreached (by decide) oblique
    refine ⟨G, H, hG, hH, fun i hi t ht => ?_⟩
    have hentry := hfree i hi t ht
    change (G.remove 0).state.q i (0 + t) = dot 2 (fun s => (Mat.identity : Mat ℝ 2 2) i (0 + s)) _ at hentry
    simp only [Nat.zero_add] at hentry
    rw [hentry]
    exact dot_congr (fun s hs => Mat.get_identity hi hs) fun _ _ => rfl
  · intro rule F
    have hstrong : Strong bowl rule 1 := strong_bowl
    have hD : Definite bowl rule F := definite_ofFactor hstrong OrthogonalFactor.factors_empty
    have hshaped : Shaped F := shaped_ofFactor OrthogonalFactor.factors_empty
    have htwo : F.size = 2 := by
      have hcount := hshaped.count
      rwa [hD.artificial] at hcount
    obtain ⟨H, hH, hsize, hlast⟩ := exists_factored_bowl
    obtain ⟨G, hadd, hrest⟩ := bind_eq_ok.1 hH
    obtain ⟨H', hremove, hsame⟩ := bind_eq_ok.1 hrest
    obtain rfl := Except.ok.inj hsame
    have hsq : rule.indefinite * rule.indefinite ≤
        (Tolerances.standard : Tolerances ℝ).relativeCurvature * bowl.scale := by
      rw [scale_bowl]
      norm_num [rule, Tolerances.rule, Tolerances.standard]
    obtain ⟨basis, hbasis, hall⟩ := hfactor bowl (0 : Mat ℝ 2 0) Tolerances.standard hstrong.symmetric (by decide) hsq
    obtain rfl : OrthogonalFactor.empty = basis := by simpa [OrthogonalFactor.ofColumns] using hbasis
    have hone : (G.basis.size : ℤ) - 1 = 0 := by
      obtain ⟨-, hsize'⟩ := OrthogonalFactor.append_eq_ok (basis_of_add hadd)
      rw [hsize']
      rfl
    obtain ⟨-, -, hagree⟩ := hall [] F rfl hD.artificial oblique G H' hadd (by rw [hone]; exact hremove)
      (Or.inl hstrong.indefinite_nonneg) (hstrong.indefinite_nonneg.trans_lt (hD.last (by omega))).ne' hlast
    exact ⟨H', hH, hsize, htwo, fun i hi j hj => (hagree i hi j hj).2⟩

end ReducedFactor

end
end ActiveSet
